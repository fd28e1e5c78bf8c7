import Micronix.Io.Floppy

/-!
# Requests for the floppy disk are served in order

A request is in `curbuf` or in the queue until `iodone` is called for it, and it is called once for each
of them, in the order in which they came.  This holds whatever the controller reports and whatever
becomes of the drives in the meantime.
-/

namespace Micronix

namespace Floppy

open Transition

/-- A request as it was when it came: what the driver writes to it is left out. -/
def Buf.ask (b : Buf) : Buf :=
  { b with error := none, data := if b.bread || isGetstat b.dev then Bytes.zero else b.data }

/-- What holds of where the code goes on. -/
def Outcome.Holds (P Q : State → Prop) : Outcome → Prop
  | .go s => P s
  | .finished s => Q s

lemma Outcome.Holds.imp {P P' Q Q' : State → Prop} {r : Outcome} (h : r.Holds P Q)
    (hP : ∀ s, P s → P' s) (hQ : ∀ s, Q s → Q' s) : r.Holds P' Q' := by
  cases r with
  | go s => exact hP s h
  | finished s => exact hQ s h

namespace State

/-- The part of the state that serving a request leaves alone. -/
structure Same (s s' : State) : Prop where
  dm : s'.dm = s.dm
  queue : s'.queue = s.queue
  done : s'.done = s.done
  asked : s'.asked = s.asked
  cur : s'.curbuf.map Buf.ask = s.curbuf.map Buf.ask

/-- The driver reads sectors for a request that reads, and for no other. -/
def Reads (s : State) : Prop := ∀ b, s.curbuf = some b → (s.op = sread ↔ b.bread = true)

/-- A command reads into a buffer only if the request reads. -/
def Aimed (s : State) : Prop :=
  ∀ b, s.curbuf = some b → s.comm.op = sread → ∀ a, s.target = .data a → b.bread = true

/-- While a command is under way. -/
structure Under (s s' : State) : Prop extends Same s s' where
  reads : s'.Reads
  aimed : s'.Aimed

variable {s s' t : State} {b : Buf} {e : Error} {o : Luck}

@[simp] lemma ask_error (b : Buf) (e : Option Error) : Buf.ask { b with error := e } = b.ask := rfl

/-- What is read into a buffer does not matter. -/
lemma ask_data (d : Bytes) (h : (b.bread || isGetstat b.dev) = true) :
    Buf.ask { b with data := d } = b.ask := by
  simp only [Buf.ask, if_pos h]

lemma map_map_ask {c : Option Buf} {f : Buf → Buf} (h : ∀ b, c = some b → (f b).ask = b.ask) :
    (c.map f).map Buf.ask = c.map Buf.ask := by
  cases c with
  | none => rfl
  | some b => exact congrArg some (h b rfl)

lemma Same.refl (s : State) : Same s s := ⟨rfl, rfl, rfl, rfl, rfl⟩

lemma Same.trans (h : Same s s') (h' : Same s' t) : Same s t :=
  ⟨h'.dm.trans h.dm, h'.queue.trans h.queue, h'.done.trans h.done, h'.asked.trans h.asked, h'.cur.trans h.cur⟩

lemma same_fault (s : State) (e : Error) : Same s (s.fault e) :=
  ⟨rfl, rfl, rfl, rfl, map_map_ask fun _ _ => rfl⟩

lemma same_kread (h : s.Reads) (hop : s.op = sread) : Same s s.kread :=
  ⟨rfl, rfl, rfl, rfl, map_map_ask fun b hb => ask_data _ (by rw [(h b hb).mp hop, Bool.true_or])⟩

lemma Reads.kread (h : s.Reads) : s.kread.Reads := by
  intro b hb
  obtain ⟨b', hb', rfl⟩ := Option.map_eq_some_iff.mp hb
  exact h b' hb'

lemma same_kwrite (s : State) : Same s s.kwrite := ⟨rfl, rfl, rfl, rfl, rfl⟩

/-- A command for `kbuf` is not for the buffer. -/
lemma aimed_kbuf (h : s.target = .kbuf) : s.Aimed := by
  intro b _ _ a ha
  cases h.symm.trans ha

/-- `nextsec` goes on to `secdone` when it reads from the cache. -/
lemma nextsec_eq (s : State) : s.nextsec =
    if s.sp.volume ≤ s.sec then .finished (s.fault .enxio)
    else if s.off = 0 ∧ s.bps ≤ s.count then .go (s.sio (.data s.addr) s.op s.sec)
    else if ¬(s.ksec = s.sec ∧ s.kdev = some s.dev) then .go s.fill
    else if s.op = sread then s.kread.secdone
    else .go s.kwrite := by
  rw [nextsec]
  rfl

/-- The rule for `secdone`, once `nextsec` is known. -/
lemma secdone_under (hnext : (s.advance s.rest).Reads →
      (s.advance s.rest).nextsec.Holds (Under (s.advance s.rest)) (Same (s.advance s.rest)))
    (h : s.Reads) : s.secdone.Holds (Under s) (Same s) := by
  rw [secdone]
  by_cases hc : s.rest = 0
  · rw [if_pos hc]
    exact ⟨rfl, rfl, rfl, rfl, rfl⟩
  · rw [if_neg hc]
    have hsame : Same s (s.advance s.rest) := ⟨rfl, rfl, rfl, rfl, rfl⟩
    exact (hnext h).imp (fun t ht => ⟨hsame.trans ht.toSame, ht.reads, ht.aimed⟩)
      fun t ht => hsame.trans ht

lemma nextsec_under (s : State) (h : s.Reads) : s.nextsec.Holds (Under s) (Same s) := by
  induction hm : (if s.ksec = s.sec then 1 else 0) using Nat.strong_induction_on generalizing s with
  | _ m ih =>
    rw [nextsec_eq]
    by_cases hvol : s.sp.volume ≤ s.sec
    · rw [if_pos hvol]
      exact same_fault s _
    rw [if_neg hvol]
    by_cases hdirect : s.off = 0 ∧ s.bps ≤ s.count
    · rw [if_pos hdirect]
      exact ⟨⟨rfl, rfl, rfl, rfl, rfl⟩, h, fun b hb hop _ _ => (h b hb).mp hop⟩
    rw [if_neg hdirect]
    by_cases hhit : s.ksec = s.sec ∧ s.kdev = some s.dev
    · rw [if_neg (not_not.mpr hhit)]
      by_cases hop : s.op = sread
      · rw [if_pos hop]
        -- the next sector is not the one in the cache
        have hsame := same_kread h hop
        refine (secdone_under (fun hr => ih 0 ?_ _ hr ?_) h.kread).imp
          (fun t ht => ⟨hsame.trans ht.toSame, ht.reads, ht.aimed⟩) fun t ht => hsame.trans ht
        · rw [← hm, if_pos hhit.1]
          exact Nat.zero_lt_one
        · exact if_neg (by simp [kread, advance, hhit.1])
      · rw [if_neg hop]
        exact ⟨same_kwrite s, h, aimed_kbuf rfl⟩
    · rw [if_pos hhit]
      exact ⟨⟨rfl, rfl, rfl, rfl, rfl⟩, h, aimed_kbuf rfl⟩

lemma same_filled (s : State) : Same s s.filled := by
  rw [filled]
  cases s.kw <;> exact ⟨rfl, rfl, rfl, rfl, rfl⟩

lemma Reads.filled (h : s.Reads) : s.filled.Reads := by
  rw [State.filled]
  cases s.kw <;> exact h

lemma check_under (s : State) (hb : s.curbuf = some b) (h : s.Reads) :
    (s.check b).Holds (Under s) (Same s) := by
  have hdone (t : State) (ht : t.Reads) : t.secdone.Holds (Under t) (Same t) :=
    secdone_under (nextsec_under _) ht
  have hfilled := same_filled s
  rw [check]
  by_cases hok : s.iostat ≠ okstat
  · rw [if_pos hok]
    exact same_fault s _
  rw [if_neg hok]
  by_cases hdirect : s.off = 0 ∧ s.bps ≤ s.count
  · rw [if_pos hdirect]
    exact hdone s h
  rw [if_neg hdirect]
  by_cases hread : b.bread = true
  · rw [if_pos hread]
    have hsame : Same s s.filled.kread := by
      refine hfilled.trans (same_kread h.filled ?_)
      rw [filled]
      cases s.kw <;> exact (h b hb).mpr hread
    exact (hdone _ h.filled.kread).imp
      (fun t ht => ⟨hsame.trans ht.toSame, ht.reads, ht.aimed⟩) fun t ht => hsame.trans ht
  rw [if_neg hread]
  by_cases hkw : s.kw = true
  · rw [if_pos hkw]
    exact hfilled
  · rw [if_neg hkw]
    exact ⟨hfilled.trans (same_kwrite _), h.filled, aimed_kbuf rfl⟩

lemma same_status (s : State) (hb : s.curbuf = some b) (hg : isGetstat b.dev = true)
    (stat : Option Bytes) (junk : Bytes) : (s.status b stat junk).Holds (Under s) (Same s) := by
  cases stat with
  | none => exact ⟨rfl, rfl, rfl, rfl, map_map_ask fun _ _ => rfl⟩
  | some st =>
      refine ⟨rfl, rfl, rfl, rfl, ?_⟩
      rw [hb]
      exact congrArg some (ask_data _ (by rw [hg, Bool.or_true]))

lemma begin_under (s : State) (hb : s.curbuf = some b) (stat : Option Bytes) (junk : Bytes) :
    (s.begin b stat junk).Holds (Under s) (Same s) := by
  have hreads (t : State) (hc : t.curbuf = some b) (ht : t.op = if b.bread then sread else swrite) :
      t.Reads := by
    intro b' hb'
    obtain rfl := Option.some.inj (hc.symm.trans hb')
    rw [ht]
    cases b.bread <;> decide
  rw [begin]
  by_cases hg : isGetstat b.dev = true
  · rw [if_pos hg]
    exact (same_status { s with dev := b.dev } hb hg stat junk).imp
      (fun t ht => ⟨⟨ht.dm, ht.queue, ht.done, ht.asked, ht.cur⟩, ht.reads, ht.aimed⟩)
      fun t ht => ⟨ht.dm, ht.queue, ht.done, ht.asked, ht.cur⟩
  rw [if_neg hg]
  by_cases hopen : (!(s.dm (drive b.dev)).isopen) = true
  · rw [if_pos hopen]
    exact ⟨rfl, rfl, rfl, rfl, map_map_ask fun _ _ => rfl⟩
  rw [if_neg hopen]
  dsimp only
  by_cases hmax : 3000 < b.blk
  · rw [if_pos hmax]
    exact ⟨rfl, rfl, rfl, rfl, map_map_ask fun _ _ => rfl⟩
  rw [if_neg hmax]
  by_cases hwp : (!b.bread && (s.dm (drive b.dev)).wp) = true
  · rw [if_pos hwp]
    exact ⟨rfl, rfl, rfl, rfl, map_map_ask fun _ _ => rfl⟩
  rw [if_neg hwp]
  refine (nextsec_under _ ?_).imp ?_ ?_
  · exact hreads _ hb rfl
  · exact fun t ht => ⟨⟨ht.dm, ht.queue, ht.done, ht.asked, ht.cur⟩, ht.reads, ht.aimed⟩
  · exact fun t ht => ⟨ht.dm, ht.queue, ht.done, ht.asked, ht.cur⟩

/-! ## Runs -/

/-- Every request that came is done with, being served, or in the queue, in this order. -/
structure Sound (s : State) : Prop where
  fifo : (s.done ++ s.curbuf.toList ++ s.queue).map Buf.ask = s.asked.map Buf.ask
  free : s.inservice = false
  reads : s.Reads
  aimed : s.Aimed

/-- And if no request is being served although there are some, the driver waits for the bus. -/
structure Orderly (s : State) : Prop extends Sound s where
  called : s.curbuf = none → s.queue ≠ [] → s.contender = true

lemma map_toList_ask (c : Option Buf) : c.toList.map Buf.ask = (c.map Buf.ask).toList := by
  cases c <;> rfl

lemma Same.fifo (h : Same s s') :
    (s'.done ++ s'.curbuf.toList ++ s'.queue).map Buf.ask =
      (s.done ++ s.curbuf.toList ++ s.queue).map Buf.ask := by
  simp only [List.map_append, map_toList_ask, h.done, h.cur, h.queue]

lemma ask_none (h : s.curbuf = none) (hs : Same s s') : s'.curbuf = none := by
  have hcur := hs.cur
  rw [h] at hcur
  exact Option.map_eq_none_iff.mp hcur

/-- With a command under way the driver is in order if it was. -/
lemma orderly_go (hfifo : (s.done ++ s.curbuf.toList ++ s.queue).map Buf.ask = s.asked.map Buf.ask)
    (hb : s.curbuf = some b) (ht : Under s t) : Orderly { t with inservice := false } := by
  refine ⟨⟨?_, rfl, ht.reads, ht.aimed⟩, fun hc => ?_⟩
  · exact (ht.fifo.trans hfifo).trans (congrArg _ ht.asked.symm)
  · have hcur := ht.cur
    rw [show t.curbuf = none from hc, hb] at hcur
    cases hcur

/-- When the request in `curbuf` is done with, so are all that came before those in the queue. -/
lemma fifo_iodone (hfifo : (s.done ++ s.curbuf.toList ++ s.queue).map Buf.ask = s.asked.map Buf.ask)
    (ht : Same s t) : (t.iodone.done ++ t.iodone.queue).map Buf.ask = t.iodone.asked.map Buf.ask :=
  (ht.fifo.trans hfifo).trans (congrArg _ ht.asked.symm)

lemma reads_none (h : s.curbuf = none) : s.Reads := by
  intro b hb
  cases h.symm.trans hb

lemma aimed_none (h : s.curbuf = none) : s.Aimed := by
  intro b hb
  cases h.symm.trans hb

/-- `request`, by induction on the queue. -/
lemma orderly_request (o : Luck) (q : List Buf) (s : State) (hcur : s.curbuf = none)
    (hfifo : (s.done ++ q).map Buf.ask = s.asked.map Buf.ask) : Orderly (request o q s) := by
  induction q generalizing s with
  | nil =>
      refine ⟨⟨?_, rfl, reads_none hcur, aimed_none hcur⟩, fun _ h => absurd rfl h⟩
      show (s.done ++ s.curbuf.toList ++ []).map Buf.ask = s.asked.map Buf.ask
      rw [hcur, Option.toList_none, List.append_nil]
      exact hfifo
  | cons b q ih =>
      set u : State := { s with queue := q, curbuf := some b } with hu
      have hubuf : u.curbuf = some b := rfl
      have hufifo : (u.done ++ u.curbuf.toList ++ u.queue).map Buf.ask = u.asked.map Buf.ask := by
        rw [hubuf, Option.toList_some, List.append_assoc]
        exact hfifo
      have hbegin := begin_under u hubuf (o.stat q.length) (o.junk q.length)
      rw [request]
      cases hr : u.begin b (o.stat q.length) (o.junk q.length) with
      | go t =>
          rw [hr] at hbegin
          exact orderly_go hufifo hubuf hbegin
      | finished t =>
          rw [hr] at hbegin
          have hqueue : t.queue = q := hbegin.queue
          have hdone := fifo_iodone hufifo hbegin
          by_cases hkeep : q = [] ∨ o.keep q.length = true
          · simp only [if_pos hkeep]
            refine ih _ rfl ?_
            rw [← hqueue]
            exact hdone
          · simp only [if_neg hkeep]
            refine ⟨⟨?_, rfl, reads_none rfl, aimed_none rfl⟩, fun _ _ => rfl⟩
            show (t.iodone.done ++ [] ++ t.iodone.queue).map Buf.ask = t.iodone.asked.map Buf.ask
            rw [List.append_nil]
            exact hdone

lemma orderly_after {r : Outcome} (hb : s.curbuf = some b)
    (hfifo : (s.done ++ s.curbuf.toList ++ s.queue).map Buf.ask = s.asked.map Buf.ask)
    (hr : r.Holds (Under s) (Same s)) : Orderly (after o r) := by
  cases r with
  | go t => exact orderly_go hfifo hb hr
  | finished t =>
      have hdone := fifo_iodone hfifo hr
      rw [after]
      by_cases hkeep : t.queue = [] ∨ o.keep t.queue.length = true
      · rw [if_pos hkeep]
        exact orderly_request o t.queue t.iodone rfl hdone
      · rw [if_neg hkeep]
        refine ⟨⟨?_, rfl, reads_none rfl, aimed_none rfl⟩, fun _ _ => rfl⟩
        show (t.iodone.done ++ [] ++ t.iodone.queue).map Buf.ask = t.iodone.asked.map Buf.ask
        rw [List.append_nil]
        exact hdone

lemma serve_some (hb : s.curbuf = some b) (o : Luck) : s.serve o = after o (s.check b) := by
  rw [serve, hb]

lemma serve_none (hb : s.curbuf = none) (o : Luck) : s.serve o = request o s.queue s := by
  rw [serve, hb]

lemma receive_kbuf (h : s.target = .kbuf) (sector : Bytes) :
    s.receive sector = { s with kbuf := sector } := by
  rw [receive, h]

lemma receive_data {a : ℕ} (h : s.target = .data a) (sector : Bytes) :
    s.receive sector = { s with curbuf := s.curbuf.map fun b =>
      { b with data := Bytes.copyBytes sector 0 b.data a s.bps } } := by
  rw [receive, h]

/-- `djint`. -/
lemma Sound.djint (h : s.Sound) (o : Luck) : (s.djint o).Orderly := by
  rw [State.djint]
  by_cases hidle : s.inservice ∨ (s.curbuf.isSome ∧ s.intstat = nostat) ∨
      (s.curbuf = none ∧ s.queue = [])
  · rw [if_pos hidle]
    refine ⟨h, fun hc hq => ?_⟩
    rcases hidle with hin | ⟨hsome, -⟩ | ⟨-, hnil⟩
    · rw [h.free] at hin
      cases hin
    · rw [hc] at hsome
      cases hsome
    · exact absurd hnil hq
  rw [if_neg hidle]
  by_cases hbus : (!o.bus) = true
  · rw [if_pos hbus]
    exact ⟨⟨h.fifo, h.free, h.reads, h.aimed⟩, fun _ _ => rfl⟩
  rw [if_neg hbus]
  set u : State := { s with inservice := true, contender := false } with hu
  cases hb : s.curbuf with
  | none =>
      have hub : u.curbuf = none := hb
      rw [serve_none hub]
      refine orderly_request o u.queue u hub ?_
      have hfifo := h.fifo
      rw [hb, Option.toList_none, List.append_nil] at hfifo
      exact hfifo
  | some b =>
      have hub : u.curbuf = some b := hb
      rw [serve_some hub]
      exact orderly_after hub h.fifo (check_under u hub h.reads)

lemma Sound.enqueue (h : s.Sound) (b : Buf) :
    Sound { s with queue := s.queue ++ [b], asked := s.asked ++ [b] } where
  fifo := by
    have hfifo := h.fifo
    simp only [List.map_append, List.append_assoc] at hfifo ⊢
    rw [← hfifo]
    simp only [List.append_assoc]
  free := h.free
  reads := h.reads
  aimed := h.aimed

/-- A sector goes into the buffer of a request that reads. -/
lemma Sound.receive (h : s.Sound) (hop : s.comm.op = sread) (sector : Bytes) :
    (s.receive sector).Sound ∧ Same s (s.receive sector) := by
  cases ht : s.target with
  | kbuf =>
      rw [receive_kbuf ht]
      exact ⟨⟨h.fifo, h.free, h.reads, aimed_kbuf ht⟩, rfl, rfl, rfl, rfl, rfl⟩
  | data a =>
      rw [receive_data ht]
      have hsame : Same s { s with curbuf := s.curbuf.map fun b =>
          { b with data := Bytes.copyBytes sector 0 b.data a s.bps } } :=
        ⟨rfl, rfl, rfl, rfl, map_map_ask fun b hb =>
          ask_data _ (by rw [h.aimed b hb hop a ht, Bool.true_or])⟩
      refine ⟨⟨hsame.fifo.trans h.fifo, h.free, ?_, ?_⟩, hsame⟩
      · intro b hb
        obtain ⟨b', hb', rfl⟩ := Option.map_eq_some_iff.mp hb
        exact h.reads b' hb'
      · intro b hb hop' a' ha
        obtain ⟨b', hb', rfl⟩ := Option.map_eq_some_iff.mp hb
        exact h.aimed b' hb' hop' a' ha

lemma Orderly.obey (h : s.Orderly) (hb : s.curbuf = some b) (bad : Option Bytes) :
    (s.obey b bad).Orderly := by
  rw [State.obey]
  by_cases hop : s.comm.op = sread
  · rw [if_pos hop]
    obtain ⟨hsound, hsame⟩ := h.toSound.receive hop (bad.getD (s.disk s.place))
    refine ⟨⟨hsound.fifo, hsound.free, hsound.reads, hsound.aimed⟩, fun hc => ?_⟩
    have hcur := hsame.cur
    rw [hb, show (s.receive _).curbuf = none from hc] at hcur
    cases hcur
  · rw [if_neg hop]
    refine ⟨⟨h.fifo, h.free, h.reads, h.aimed⟩, fun hc => ?_⟩
    rw [show s.curbuf = none from hc] at hb
    cases hb

end State

lemma Start.orderly {s : State} (h : Start s) : s.Orderly := by
  refine ⟨⟨?_, h.inservice, State.reads_none h.curbuf, State.aimed_none h.curbuf⟩, fun _ hq => ?_⟩
  · rw [h.done, h.curbuf, h.queue, h.asked]
    rfl
  · exact absurd h.queue hq

/-- What one step preserves. -/
lemma orderly_step {s s' : State} {l : Label} (h : s.Orderly) (hs : step s l = some s') :
    s'.Orderly := by
  cases l with
  | djstrat b o =>
      obtain rfl := Option.some.inj hs
      exact (h.toSound.enqueue b).djint o
  | djint o =>
      obtain rfl := Option.some.inj hs
      exact h.toSound.djint o
  | controller bad =>
      rw [step] at hs
      cases hb : s.curbuf with
      | none =>
          rw [hb] at hs
          cases hs
      | some b =>
          rw [hb] at hs
          obtain ⟨-, hs⟩ := Option.ite_none_right_eq_some.mp hs
          obtain rfl := Option.some.inj hs
          exact h.obey hb bad
  | drive a d =>
      obtain rfl := Option.some.inj hs
      exact ⟨⟨h.fifo, h.free, h.reads, h.aimed⟩, h.called⟩

/-- **Every request is served once, in its turn.**  In every run, those that `iodone` was called for, the
one being served, and those in the queue are just those that came, in the order in which they came and
as they came; and the driver lets requests wait without serving one only when `busget` has refused it
the bus. -/
theorem served_in_order {s : State} (h : Reachable step Start s) :
    (s.done ++ s.curbuf.toList ++ s.queue).map Buf.ask = s.asked.map Buf.ask ∧
      (s.curbuf = none → s.queue ≠ [] → s.contender = true) := by
  have horder : s.Orderly :=
    h.invariant (fun _ h0 => h0.orderly) fun _ _ _ hi _ he => orderly_step hi he
  exact ⟨horder.fifo, horder.called⟩

/-- A driver at rest, with a diskette of eight sectors a track in each of its drives. -/
def State.idle : State where
  dm _ := ⟨row 0 false 8 8 1 77 2 1024 600, true, false, false⟩
  queue := []
  curbuf := none
  kdev := none
  ksec := 0
  kbuf := Bytes.zero
  kw := false
  op := sread
  addr := 0
  sec := 0
  off := 0
  bps := 0
  count := 0
  togo := 0
  dev := 0
  sp := row 0 false 8 8 1 77 2 1024 600
  target := .kbuf
  comm := ⟨0, 0, 0, 0, 0, 0⟩
  iostat := okstat
  intstat := okstat
  halt := false
  inservice := false
  disk _ := Bytes.zero
  contender := false
  asked := []
  done := []

lemma idle_start : Start State.idle := ⟨rfl, rfl, rfl, rfl, rfl, rfl, rfl⟩

/-- A request for a block. -/
def Buf.block (bread : Bool) (blk : ℕ) : Buf := ⟨bread, 0, blk, 512, Bytes.zero, none⟩

/-- The bus is free, and is kept. -/
def Luck.good : Luck := ⟨true, fun _ => true, fun _ => none, fun _ => Bytes.zero⟩

theorem served_in_order_two :
    let s := (State.idle.djstrat (.block false 3) .good).djstrat (.block true 3) .good
    (s.done ++ s.curbuf.toList ++ s.queue).map Buf.ask = s.asked.map Buf.ask ∧
      (s.curbuf = none → s.queue ≠ [] → s.contender = true) :=
  served_in_order (.step (l := .djstrat _ _)
    (.step (l := .djstrat _ _) (.start idle_start) trivial rfl) trivial rfl)

end Floppy

end Micronix
