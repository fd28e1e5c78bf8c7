import Micronix.Cache.Safety
import Mathlib.Algebra.BigOperators.Group.Finset.Basic
import Mathlib.Algebra.Order.BigOperators.Group.Finset

/-!
# One process and the drivers

A process works in `bread` or `bsync` while nobody else runs, and no transfer fails.  Between two
sleeps it ends its call, or it falls asleep on a buffer that a driver has (`Burst`).  `rank` says how
far it is from the end: a dirty buffer has to be queued yet, a queued one to be transferred.
-/

namespace Micronix

/-- How far a process is from having its buffer. -/
def Pc.rank : Pc → ℕ
  | .loop .. | .evict .. => 9
  | .read .. => 5
  | .idle | .write _ => 0

/-- What a process asks for in `bget`. -/
def Pc.request : Pc → Option (ℕ × ℕ × Kont)
  | .loop blk dev k | .evict _ blk dev k | .read _ blk dev k => some (blk, dev, k)
  | .idle | .write _ => none

namespace Cache

/-- What is to be done yet about a buffer. -/
def weight (s : Cache) (b : ℕ) : ℕ :=
  if s.queue b then 2 else if (s.buf b).delwri then 3 else 0

/-- What is to be done yet about the buffers. -/
def load (s : Cache) : ℕ := (Finset.range s.nbuf).sum s.weight

/-- What is to be done yet by the drivers and process `p`. -/
def rank (s : Cache) (p : ℕ) : ℕ :=
  s.load + (if s.event p = none then 1 else 0) + (s.pc p).rank

/-- The superblock that `bsync` releases, in what readers find. -/
def stamp (v : ℕ → ℕ → Bytes) (rootdev seconds : ℕ) : ℕ → ℕ → Bytes := fun dev blk =>
  if dev = rootdev ∧ blk = 1 ∧ v dev blk 408 = 0 then stampTime (v dev blk) seconds else v dev blk

/-- The buffers when nobody but `p` holds any, and `p` holds `o`.  If `p` sleeps, then on a buffer
that a driver has, and it will be woken. -/
structure Solo (s : Cache) (p : ℕ) (o : Option ℕ) : Prop where
  inv : Inv s
  error : ∀ b, (s.buf b).error = false
  lock : ∃ b < s.nbuf, (s.buf b).lock = false
  own : ∀ b, s.own b = if o = some b then some p else none
  asleep : ∀ b, s.event p = some b → s.queue b = true ∧ (s.buf b).want = true

/-- Nothing but buffer `b` has changed, with its holder and its place in the queue. -/
structure Only (s s' : Cache) (b : ℕ) : Prop where
  nbuf : s'.nbuf = s.nbuf
  rootdev : s'.rootdev = s.rootdev
  buf : ∀ c, c ≠ b → s'.buf c = s.buf c
  own : ∀ c, c ≠ b → s'.own c = s.own c
  queue : ∀ c, c ≠ b → s'.queue c = s.queue c
  lock : (s'.buf b).lock = (s.buf b).lock

variable {s s' t : Cache} {p b c blk dev : ℕ} {k : Kont} {o o' : Option ℕ}

/-! ## Changing one buffer -/

lemma Only.refl (s : Cache) (b : ℕ) : Only s s b :=
  ⟨rfl, rfl, fun _ _ => rfl, fun _ _ => rfl, fun _ _ => rfl, rfl⟩

lemma Only.trans (h : Only s t b) (h' : Only t s' b) : Only s s' b :=
  ⟨h'.nbuf.trans h.nbuf, h'.rootdev.trans h.rootdev, fun c hc => (h'.buf c hc).trans (h.buf c hc),
    fun c hc => (h'.own c hc).trans (h.own c hc), fun c hc => (h'.queue c hc).trans (h.queue c hc),
    h'.lock.trans h.lock⟩

/-- What is to be done changes by what is to be done about the buffer. -/
lemma Only.load (h : Only s s' b) (hb : b < s.nbuf) :
    s'.load + s.weight b = s.load + s'.weight b := by
  have hother : ((Finset.range s.nbuf).erase b).sum s'.weight
      = ((Finset.range s.nbuf).erase b).sum s.weight := by
    refine Finset.sum_congr rfl fun c hc => ?_
    have hcb := Finset.ne_of_mem_erase hc
    rw [weight, weight, h.buf c hcb, h.queue c hcb]
  have hsum : s.weight b + ((Finset.range s.nbuf).erase b).sum s.weight
      = (Finset.range s.nbuf).sum s.weight := Finset.add_sum_erase _ _ (Finset.mem_range.mpr hb)
  have hsum' : s'.weight b + ((Finset.range s.nbuf).erase b).sum s'.weight
      = (Finset.range s.nbuf).sum s'.weight := Finset.add_sum_erase _ _ (Finset.mem_range.mpr hb)
  rw [Cache.load, Cache.load, h.nbuf]
  omega

/-- If the process holds no other buffer than this one, neither before nor after. -/
lemma Only.solo (h : Only s s' b) (hs : Solo s p o) (hi : Inv s') (herr : (s'.buf b).error = false)
    (ho : o = none ∨ o = some b) (ho' : o' = none ∨ o' = some b)
    (hown : s'.own b = if o' = some b then some p else none)
    (hsleep : ∀ c, s'.event p = some c → s'.queue c = true ∧ (s'.buf c).want = true) :
    Solo s' p o' := by
  refine ⟨hi, fun c => ?_, ?_, fun c => ?_, hsleep⟩
  · by_cases hc : c = b
    · rw [hc, herr]
    · rw [h.buf c hc, hs.error]
  · obtain ⟨c, hc, hl⟩ := hs.lock
    refine ⟨c, h.nbuf ▸ hc, ?_⟩
    by_cases hcb : c = b
    · rw [hcb, h.lock, ← hcb, hl]
    · rw [h.buf c hcb, hl]
  · by_cases hc : c = b
    · rw [hc, hown]
    · rw [h.own c hc, hs.own]
      have hno : ∀ o : Option ℕ, o = none ∨ o = some b → ¬o = some c := by
        rintro o (rfl | rfl) <;> simp [Ne.symm hc]
      rw [if_neg (hno o ho), if_neg (hno o' ho')]

/-- A buffer is busy if `p` or a driver has it. -/
lemma Solo.busy (h : Solo s p o) : (s.buf b).busy = true ↔ o = some b ∨ s.queue b = true := by
  rw [(h.inv.ok b).busy, h.own]
  by_cases hb : o = some b <;> simp [hb]

lemma Solo.queued (h : Solo s p none) (hb : (s.buf b).busy = true) : s.queue b = true :=
  (h.busy.mp hb).resolve_left (by simp)

lemma Solo.idle (h : Solo s p o) (hb : (s.buf b).busy = false) : s.queue b = false := by
  by_contra hq
  have hbusy := h.busy.mpr (Or.inr (by simpa using hq))
  rw [hb] at hbusy
  cases hbusy

/-- The buffer of the process, which is in no wait. -/
lemma Solo.has (h : Solo s p (some b)) (hpc : (s.pc p).buf = none) : Has s p b :=
  h.inv.has (by rw [h.own, if_pos rfl]) hpc

/-- No buffer is read over. -/
lemma Solo.not_clobbers (h : Solo s p o) (hk : k = .bread ∨ k = .bsync) : ¬s.Clobbers blk dev k := by
  rintro ⟨b, -, -, -, e | ⟨-, e⟩⟩
  · rcases hk with rfl | rfl <;> cases e
  · rw [h.error] at e
    cases e

/-! ## Starting a transfer, and sleeping -/

lemma brelse_event (s : Cache) (b q : ℕ) : (s.brelse b).event q =
    if (s.buf b).busy = true ∧ (s.buf b).want = true ∧ s.event q = some b then none
    else s.event q := by
  unfold brelse
  by_cases hb : (s.buf b).busy = true
  · by_cases hw : (s.buf b).want = true
    · simp only [hb, hw, Bool.true_eq_false, if_false, if_true, true_and]
      rfl
    · simp only [hb, hw, Bool.true_eq_false, Bool.false_eq_true, if_false, false_and, and_false]
      rfl
  · simp only [hb, Bool.false_eq_true, if_true, if_false, false_and]

/-- Who is awake stays awake. -/
lemma brelse_awake (he : s.event p = none) (b : ℕ) : (s.brelse b).event p = none := by
  rw [brelse_event, he, ite_self]

/-- Process `p` has put a buffer into the queue and sleeps on it. -/
structure Queued (s s' : Cache) (p b : ℕ) (pc : Pc) : Prop where
  only : Only s s' b
  own : s'.own b = some p
  queue : s'.queue b = true
  want : (s'.buf b).want = true
  error : (s'.buf b).error = false
  event : s'.event p = some b
  pc : s'.pc p = pc
  view : s'.view = s.view

lemma queued_strat (ho : s.own b = some p) (rd : Bool) (pc : Pc) :
    Queued s ((s.strat b rd true).sleep p b pc) p b pc := by
  have hbuf : ((s.strat b rd true).sleep p b pc).buf b = { s.buf b with
      read := rd, sync := true, busy := true, done := false, error := false, want := true } := by
    simp [strat, Cache.sleep]
  refine ⟨⟨rfl, rfl, fun c hc => ?_, fun _ _ => rfl, fun c hc => Function.update_of_ne hc ..,
    by rw [hbuf]⟩, ho, Function.update_self .., by rw [hbuf], by rw [hbuf], Function.update_self ..,
    Function.update_self .., rfl⟩
  simp [strat, Cache.sleep, modBuf_ne _ _ hc]

lemma Queued.weight {pc : Pc} (h : Queued s s' p b pc) : s'.weight b = 2 := by
  rw [Cache.weight, h.queue, if_pos rfl]

lemma Queued.solo {pc : Pc} (h : Queued s s' p b pc) (hs : Solo s p o) (hi : Inv s')
    (ho : o = none ∨ o = some b) : Solo s' p (some b) := by
  refine h.only.solo hs hi h.error ho (Or.inr rfl) (by rw [h.own, if_pos rfl]) fun c hc => ?_
  rw [h.event, Option.some.injEq] at hc
  exact hc ▸ ⟨h.queue, h.want⟩

/-- The first buffer of the block is locked, so a driver has it. -/
lemma Solo.sleep_loop (h : Solo s p none) (hpc : (s.pc p).buf = none)
    (hr : blk < 256 ∧ dev < 256) (hb : (s.buf b).busy = true) :
    Solo (s.sleep p b (.loop blk dev k)) p none ∧
      (s.sleep p b (.loop blk dev k)).load = s.load := by
  have hbuf : (s.sleep p b (.loop blk dev k)).buf b = { s.buf b with want := true } := by
    simp [Cache.sleep]
  have honly : Only s (s.sleep p b (.loop blk dev k)) b :=
    ⟨rfl, rfl, fun c hc => by simp [Cache.sleep, modBuf_ne _ _ hc], fun _ _ => rfl, fun _ _ => rfl,
      by rw [hbuf]⟩
  constructor
  · refine honly.solo h (h.inv.sleep_loop hpc hr) (by rw [hbuf]; exact h.error b) (Or.inl rfl)
      (Or.inl rfl) (h.own b) fun c hc => ?_
    have hev : (s.sleep p b (.loop blk dev k)).event p = some b := Function.update_self ..
    rw [hev, Option.some.injEq] at hc
    exact hc ▸ ⟨h.queued hb, by rw [hbuf]⟩
  · have hw : (s.sleep p b (.loop blk dev k)).weight b = s.weight b := by
      rw [weight, weight, hbuf]
      rfl
    have hload := honly.load (h.inv.lt_of_busy hb)
    omega

/-! ## The end of `bsync` -/

/-- Queueing a free buffer that has delayed-write data. -/
lemma Solo.flush (h : Solo s p none) (hb : b < s.nbuf) (hbusy : (s.buf b).busy = false)
    (hd : (s.buf b).delwri = true) :
    Solo (s.bawrite b) p none ∧ Only s (s.bawrite b) b ∧ (s.bawrite b).queue b = true ∧
      (s.bawrite b).load ≤ s.load := by
  have hbuf : (s.bawrite b).buf b = { s.buf b with
      read := false, sync := false, busy := true, done := false, error := false } := by
    simp [bawrite, strat]
  have hqu : (s.bawrite b).queue b = true := Function.update_self ..
  have honly : Only s (s.bawrite b) b :=
    ⟨rfl, rfl, fun c hc => by simp [bawrite, strat, modBuf_ne _ _ hc],
      fun c hc => Function.update_of_ne hc .., fun c hc => Function.update_of_ne hc ..,
      by rw [hbuf]⟩
  refine ⟨?_, honly, hqu, ?_⟩
  · refine honly.solo h (h.inv.flush hbusy hd hb) (by rw [hbuf]) (Or.inl rfl) (Or.inl rfl)
      (Function.update_self ..) fun c hc => ?_
    obtain ⟨hq, hw⟩ := h.asleep c hc
    have hcb : c ≠ b := by
      rintro rfl
      rw [h.idle hbusy] at hq
      cases hq
    rw [honly.queue c hcb, honly.buf c hcb]
    exact ⟨hq, hw⟩
  · have hw : s.weight b = 3 := by simp [weight, h.idle hbusy, hd]
    have hw' : (s.bawrite b).weight b = 2 := by rw [weight, hqu, if_pos rfl]
    have hload := honly.load hb
    omega

/-- The loop of `bsync` leaves no dirty buffer that is not in the queue. -/
lemma Solo.bsyncLoop (h : Solo s p none) (n : ℕ) (hn : n ≤ s.nbuf) :
    Solo (s.bsyncLoop n) p none ∧ (s.bsyncLoop n).load ≤ s.load ∧
      (∀ b < n, ((s.bsyncLoop n).buf b).delwri = true → (s.bsyncLoop n).queue b = true) ∧
      (s.bsyncLoop n).rootdev = s.rootdev ∧ (s.bsyncLoop n).event = s.event ∧
      (s.bsyncLoop n).pc = s.pc ∧ (s.bsyncLoop n).view = s.view := by
  induction n with
  | zero => exact ⟨h, le_rfl, nofun, rfl, rfl, rfl, rfl⟩
  | succ n ih =>
      obtain ⟨hs, hload, hq, hroot, hev, hpc, hview⟩ := ih (by omega)
      rw [Cache.bsyncLoop]
      split_ifs with hc
      · obtain ⟨hs', honly, hqn, hload'⟩ := hs.flush (by rw [bsyncLoop_nbuf]; omega) hc.1 hc.2
        refine ⟨hs', hload'.trans hload, fun b hb hd => ?_, honly.rootdev.trans hroot, hev, hpc, hview⟩
        by_cases hbn : b = n
        · rw [hbn, hqn]
        · rw [honly.buf b hbn] at hd
          rw [honly.queue b hbn]
          exact hq b (by omega) hd
      · refine ⟨hs, hload, fun b hb hd => ?_, hroot, hev, hpc, hview⟩
        by_cases hbn : b = n
        · subst hbn
          have hbusy : ((s.bsyncLoop b).buf b).busy = true := by
            by_contra hbusy
            exact hc ⟨by simpa using hbusy, hd⟩
          exact hs.queued hbusy
        · exact hq b (by omega) hd

/-- Process `p` has released its buffer and is at `pc`, and readers find `v`. -/
structure Freed (s s' : Cache) (p : ℕ) (pc : Pc) (v : ℕ → ℕ → Bytes) : Prop where
  solo : Solo s' p none
  event : s'.event p = none
  pc : s'.pc p = pc
  rootdev : s'.rootdev = s.rootdev
  view : s'.view = v

/-- Releasing the buffer. -/
lemma Solo.brelse (h : Solo s p (some b)) (hh : Has s p b) (he : s.event p = none) (pc : Pc)
    (hn : pc.buf = none) (hpc : s.PcOk pc) :
    Freed s ((s.setPc p pc).brelse b) p pc s.view ∧
      ((s.setPc p pc).brelse b).load = s.load ∧
      ∀ c, (((s.setPc p pc).brelse b).buf c).delwri = (s.buf c).delwri := by
  have hbusy := hh.busy h.inv
  obtain ⟨ebuf, eown, equ, epc, -, eview, en, -, eroot⟩ := brelse_busy (s.setPc p pc) hbusy
  set s' := (s.setPc p pc).brelse b with hs'
  have hbuf : s'.buf b = { s.buf b with busy := false, want := false } := by
    rw [ebuf, modBuf_self]
    rfl
  have hother (c : ℕ) (hc : c ≠ b) : s'.buf c = s.buf c := by
    rw [ebuf, modBuf_ne _ _ hc]
    rfl
  have honly : Only s s' b :=
    ⟨en, eroot, hother, fun c hc => by rw [eown, Function.update_of_ne hc]; rfl,
      fun c _ => by rw [equ]; rfl, by rw [hbuf]⟩
  have hev : s'.event p = none := brelse_awake (s := s.setPc p pc) he b
  refine ⟨⟨?_, hev, by rw [epc]; exact Function.update_self .., eroot, eview⟩, ?_, fun c => ?_⟩
  · refine honly.solo h (h.inv.brelse hh pc hn hpc) (by rw [hbuf]; exact h.error b) (Or.inr rfl)
      (Or.inl rfl) (by rw [eown, Function.update_self]; rfl) fun c hc => ?_
    rw [hev] at hc
    cases hc
  · have hw : s'.weight b = s.weight b := by
      rw [weight, weight, hbuf, equ]
      rfl
    have hload := honly.load (h.inv.lt_of_busy hbusy)
    omega
  · by_cases hc : c = b
    · rw [hc, hbuf]
    · rw [hother c hc]

/-- Storing in the buffer and releasing it with delayed-write data. -/
lemma Solo.bdwrite (h : Solo s p (some b)) (hpc : s.pc p = .idle) (he : s.event p = none)
    (d : Bytes) : Freed s ((s.store b d).bdwrite b) p .idle (s.store b d).view ∧
      ((s.store b d).bdwrite b).load ≤ s.load + 3 := by
  have hn : (s.pc p).buf = none := by rw [hpc]; rfl
  have hh := h.has hn
  have hbusy : (((s.store b d).modBuf b fun x => { x with delwri := true, done := true }).buf
      b).busy = true := by simpa [store] using hh.busy h.inv
  obtain ⟨ebuf, eown, equ, epc, -, eview, en, -, eroot⟩ := brelse_busy _ hbusy
  set s' := (s.store b d).bdwrite b with hs'
  have hbuf : s'.buf b = { s.buf b with
      data := d, delwri := true, done := true, busy := false, want := false } := by
    rw [hs', Cache.bdwrite, ebuf]
    simp [store]
  have honly : Only s s' b := by
    refine ⟨en, eroot, fun c hc => ?_, fun c hc => ?_, fun c _ => congrFun equ c, by rw [hbuf]⟩
    · rw [hs', Cache.bdwrite, ebuf]
      simp [store, modBuf_ne _ _ hc]
    · rw [hs', Cache.bdwrite, eown, Function.update_of_ne hc]
      rfl
  have hev : s'.event p = none :=
    brelse_awake (s := _) (show ((s.store b d).modBuf b _).event p = none from he) b
  refine ⟨⟨?_, hev, by rw [hs', Cache.bdwrite, epc]; exact hpc, eroot, eview⟩, ?_⟩
  · refine honly.solo h (h.inv.bdwrite hh hn d) (by rw [hbuf]; exact h.error b) (Or.inr rfl)
      (Or.inl rfl) (by rw [hs', Cache.bdwrite, eown, Function.update_self]; rfl) fun c hc => ?_
    rw [hev] at hc
    cases hc
  · have hw : s'.weight b ≤ 3 := by
      rw [weight]
      split_ifs <;> omega
    have hload := honly.load (h.inv.lt_of_busy (hh.busy h.inv))
    omega

/-- **The end of `bsync`**: all dirty buffers are in the queue, and the superblock has the time. -/
lemma Solo.bsyncRest (h : Solo s p (some b)) (hh : Has s p b) (he : s.event p = none)
    (htag : (s.buf b).dev = s.rootdev ∧ (s.buf b).blk = 1) (hdata : (s.buf b).data = s.cur b) :
    Freed s (s.bsyncRest p b) p .idle (stamp s.view s.rootdev s.seconds) ∧
      (s.bsyncRest p b).load ≤ s.load + 3 ∧
      ∀ c, ((s.bsyncRest p b).buf c).delwri = true → (s.bsyncRest p b).queue c = true := by
  -- the loop, after the superblock has been released
  have hloop {t : Cache} {v : ℕ → ℕ → Bytes} (ht : Freed s t p .idle v) (hl : t.load ≤ s.load + 3) :
      Freed s (t.bsyncLoop t.nbuf) p .idle v ∧ (t.bsyncLoop t.nbuf).load ≤ s.load + 3 ∧
        ∀ c, ((t.bsyncLoop t.nbuf).buf c).delwri = true → (t.bsyncLoop t.nbuf).queue c = true := by
    obtain ⟨hs, hload, hq, hroot, hev, hpc, hview⟩ := ht.solo.bsyncLoop t.nbuf le_rfl
    refine ⟨⟨hs, by rw [hev, ht.event], by rw [hpc, ht.pc], hroot.trans ht.rootdev,
      hview.trans ht.view⟩, hload.trans hl, fun c hc => ?_⟩
    by_cases hcn : c < t.nbuf
    · exact hq c hcn hc
    · have hp := (hs.inv.out c (by rw [bsyncLoop_nbuf]; omega)).2.1
      rw [hc] at hp
      cases hp
  have hcur : (s.buf b).data = s.view s.rootdev 1 := by rw [hdata, cur, htag.1, htag.2]
  have hstamp (hf : (s.buf b).data 408 ≠ 0) : s.view = stamp s.view s.rootdev s.seconds := by
    funext dev blk
    rw [stamp, if_neg]
    rintro ⟨rfl, rfl, h0⟩
    rw [hcur] at hf
    exact hf h0
  unfold Cache.bsyncRest
  dsimp only
  split_ifs with hf
  · have hi : Inv (s.setPc p .idle) := h.inv.keep hh
    have hs : Solo (s.setPc p .idle) p (some b) :=
      ⟨hi, h.error, h.lock, h.own, h.asleep⟩
    have hpc : (s.setPc p .idle).pc p = .idle := Function.update_self ..
    obtain ⟨hfreed, hload⟩ := hs.bdwrite hpc he
      (stampTime ((s.setPc p .idle).buf b).data (s.setPc p .idle).seconds)
    refine hloop ⟨hfreed.solo, hfreed.event, hfreed.pc, hfreed.rootdev, hfreed.view.trans ?_⟩ hload
    have hf' : s.view s.rootdev 1 408 = 0 := by rw [← hcur]; exact hf
    funext dev blk
    show (if dev = (s.buf b).dev ∧ blk = (s.buf b).blk then stampTime (s.buf b).data s.seconds
      else s.view dev blk) = _
    rw [htag.1, htag.2, stamp]
    by_cases hc : dev = s.rootdev ∧ blk = 1
    · rw [if_pos hc, if_pos ⟨hc.1, hc.2, by rw [hc.1, hc.2]; exact hf'⟩, hcur, hc.1, hc.2]
    · rw [if_neg hc, if_neg fun hc' => hc ⟨hc'.1, hc'.2.1⟩]
  · obtain ⟨hfreed, hload, -⟩ := h.brelse hh he .idle rfl trivial
    exact hloop ⟨hfreed.solo, hfreed.event, hfreed.pc, hfreed.rootdev,
      hfreed.view.trans (hstamp hf)⟩ (by omega)

/-! ## From one sleep to the next -/

/-- The process has gone on with its request until it sleeps on a buffer that a driver has, or has
returned from `bread` with the buffer of the block, or from `bsync`. -/
inductive Burst (s : Cache) (p blk dev : ℕ) (k : Kont) (s' : Cache) : Prop
  | sleeps : Solo s' p (s'.pc p).buf → (s'.pc p).request = some (blk, dev, k) →
      s'.event p ≠ none → s'.rootdev = s.rootdev → s'.view = s.view → Burst s p blk dev k s'
  | returns (b : ℕ) : k = .bread → Solo s' p (some b) → s'.pc p = .idle → s'.event p = none →
      (s'.buf b).dev = dev ∧ (s'.buf b).blk = blk → (s'.buf b).data = s'.cur b →
      s'.rootdev = s.rootdev → s'.view = s.view → Burst s p blk dev k s'
  | ends : k = .bsync → Freed s s' p .idle (stamp s.view s.rootdev s.seconds) →
      (∀ c, (s'.buf c).delwri = true → s'.queue c = true) → Burst s p blk dev k s'

lemma Burst.congr (h : Burst t p blk dev k s') (hr : t.rootdev = s.rootdev) (hv : t.view = s.view)
    (hs : t.seconds = s.seconds) : Burst s p blk dev k s' := by
  cases h with
  | sleeps h1 h2 h3 h4 h5 => exact .sleeps h1 h2 h3 (h4.trans hr) (h5.trans hv)
  | returns b h1 h2 h3 h4 h5 h6 h7 h8 =>
      exact .returns b h1 h2 h3 h4 h5 h6 (h7.trans hr) (h8.trans hv)
  | ends h1 h2 h3 =>
      rw [hr, hv, hs] at h2
      exact .ends h1 ⟨h2.solo, h2.event, h2.pc, h2.rootdev.trans hr, h2.view⟩ h3

/-- A routine brings the process further, and leaves less than `n` to be done. -/
def Advances (s : Cache) (p blk dev : ℕ) (k : Kont) (r : Option Cache) (n : ℕ) : Prop :=
  ∃ s', r = some s' ∧ Burst s p blk dev k s' ∧ s'.rank p < n

/-- The buffer of a call of `bsync` is that of the superblock. -/
def Fits (s : Cache) (blk dev : ℕ) (k : Kont) : Prop :=
  k = .bread ∨ k = .bsync ∧ dev = s.rootdev ∧ blk = 1

/-- The end of `bread`, with a buffer that is valid. -/
lemma Solo.breadEnd (h : Solo s p (some b)) (hh : Has s p b) (he : s.event p = none)
    (hdone : (s.buf b).done = true) (htag : (s.buf b).dev = dev ∧ (s.buf b).blk = blk)
    (hk : s.Fits blk dev k) :
    Advances s p blk dev k (s.breadEnd p b blk dev k) (s.load + 5) := by
  have hdata : (s.buf b).data = s.cur b := (h.inv.ok b).valid hdone (h.error b)
  rw [Cache.breadEnd]
  rcases hk with rfl | ⟨rfl, hroot⟩
  · have hi : Inv (s.setPc p .idle) := h.inv.keep hh
    have hpc : (s.setPc p .idle).pc p = .idle := Function.update_self ..
    refine ⟨{ s.setPc p .idle with last := some (dev, blk, (s.buf b).data) },
      by rw [if_neg (by simp [h.error b]), if_neg (by simp)],
      .returns b rfl ⟨hi.congr rfl rfl rfl rfl rfl rfl rfl, h.error, h.lock, h.own, h.asleep⟩
        hpc he htag hdata rfl rfl, ?_⟩
    show s.load + (if s.event p = none then 1 else 0) + ((s.setPc p .idle).pc p).rank < _
    rw [hpc, he]
    simp [Pc.rank]
  · obtain ⟨hfreed, hload, hq⟩ := h.bsyncRest hh he ⟨htag.1.trans hroot.1, htag.2.trans hroot.2⟩ hdata
    refine ⟨_, by simp [h.error b], .ends rfl hfreed hq, ?_⟩
    rw [rank, hfreed.event, hfreed.pc]
    simp only [if_true, Pc.rank]
    omega

/-- With the buffer that `bget` has returned. -/
lemma Solo.got (h : Solo s p (some b)) (hh : Has s p b) (he : s.event p = none)
    (hd : ¬((s.buf b).done = true ∧ (s.buf b).error = false) → (s.buf b).delwri = false)
    (htag : (s.buf b).dev = dev ∧ (s.buf b).blk = blk) (hk : s.Fits blk dev k) :
    Advances s p blk dev k (s.got p b blk dev k) (s.load + 8) := by
  have hgot : s.got p b blk dev k = if (s.buf b).done = true ∧ (s.buf b).error = false
      then s.breadEnd p b blk dev k
      else some ((s.strat b true true).sleep p b (.read b blk dev k)) := by
    rcases hk with rfl | ⟨rfl, -⟩ <;> rfl
  rw [hgot]
  split_ifs with hdone
  · obtain ⟨s', hs', hb, hr⟩ := h.breadEnd hh he hdone.1 htag hk
    exact ⟨s', hs', hb, by omega⟩
  · have hi := h.inv.readSync (k := k) hh (hd hdone) ⟨htag.1.symm, htag.2.symm⟩
    have hq := queued_strat hh.own true (.read b blk dev k)
    refine ⟨_, rfl, .sleeps ?_ (by rw [hq.pc]; rfl) (by rw [hq.event]; simp) hq.only.rootdev hq.view,
      ?_⟩
    · rw [hq.pc]
      exact hq.solo h hi (Or.inr rfl)
    · have hload := hq.only.load (h.inv.lt_of_busy (hh.busy h.inv))
      rw [hq.weight] at hload
      rw [rank, hq.event, hq.pc]
      simp only [reduceCtorEq, if_false, Pc.rank]
      omega

/-- There is a buffer to be had when no driver has any. -/
lemma Solo.victim (h : Solo s p none) (hq : ∀ b, s.queue b = false) : ∃ f, s.victim = some f := by
  obtain ⟨c, hc, hl⟩ := h.lock
  have hbusy : (s.buf c).busy = false := by
    by_contra hb
    have hqc := h.queued (by simpa using hb)
    rw [hq c] at hqc
    cases hqc
  obtain ⟨f, hf, hv⟩ := s.victim_search
  cases hvictim : s.victim with
  | none => exact absurd ⟨hbusy, hl⟩ ((hf.not_found _ none (hv.symm.trans hvictim)).2 c (List.mem_range.mpr hc))
  | some g => exact ⟨g, rfl⟩

lemma only_block (s : Cache) (p b : ℕ) : Only s (s.block p b) b :=
  ⟨rfl, rfl, fun c hc => Function.update_of_ne hc .., fun c hc => Function.update_of_ne hc ..,
    fun _ _ => rfl, by simp [Cache.block]⟩

lemma block_self (s : Cache) (p b : ℕ) : (s.block p b).buf b = { s.buf b with busy := true } :=
  Function.update_self ..

lemma block_own (s : Cache) (p b : ℕ) : (s.block p b).own b = some p := Function.update_self ..

section Search

variable (h : Solo s p none) (hpc : (s.pc p).buf = none) (he : s.event p = none)
  (hr : blk < 256 ∧ dev < 256) (hk : s.Fits blk dev k)
include h hpc he hr hk

/-- The block is in a buffer. -/
lemma Solo.search_hit (hhit : s.hit blk dev = some b) :
    Advances s p blk dev k (s.search p blk dev k) (s.load + 10) := by
  obtain ⟨hb, e1, e2, hlow⟩ := hit_spec hr.1 hr.2 hhit
  rw [Cache.search, hhit]
  dsimp only
  by_cases hbusy : (s.buf b).busy = true
  · rw [if_pos hbusy]
    obtain ⟨hs, hload⟩ := h.sleep_loop (k := k) hpc hr hbusy
    have hpc' : (s.sleep p b (.loop blk dev k)).pc p = .loop blk dev k := Function.update_self ..
    have hev : (s.sleep p b (.loop blk dev k)).event p = some b := Function.update_self ..
    refine ⟨_, rfl, .sleeps (by rw [hpc']; exact hs) (by rw [hpc']; rfl) (by rw [hev]; simp) rfl
      rfl, ?_⟩
    rw [rank, hload, hev, hpc']
    simp [Pc.rank]
  · have hbusy' : (s.buf b).busy = false := by simpa using hbusy
    rw [if_neg hbusy]
    have hbuf := s.block_self p b
    have hi := h.inv.block (p := p) hbusy' hb hpc fun _ c hc e =>
      hlow c hc ⟨e.1.trans e2, e.2.trans e1⟩
    have hs : Solo (s.block p b) p (some b) :=
      (s.only_block p b).solo h hi (by rw [hbuf]; exact h.error b) (Or.inl rfl) (Or.inr rfl)
        (by rw [block_own, if_pos rfl]) fun c hc => nomatch he.symm.trans hc
    -- delayed-write data are valid
    have hclean (hn : ¬((s.buf b).done = true ∧ (s.buf b).error = false)) :
        (s.buf b).delwri = false := by
      by_contra hd
      rcases (h.inv.ok b).pending (by simpa using hd) with e | e
      · exact hn ⟨e, h.error b⟩
      · cases (h.idle hbusy').symm.trans e
    obtain ⟨s', hs', hburst, hrank⟩ := hs.got (k := k) ⟨s.block_own p b, h.idle hbusy', Or.inl hpc⟩ he
      (by rw [hbuf]; exact hclean) (by rw [hbuf]; exact ⟨e2, e1⟩) hk
    refine ⟨s', hs', hburst.congr rfl rfl rfl, ?_⟩
    have hload := (s.only_block p b).load hb
    have hw : (s.block p b).weight b = s.weight b := by
      rw [weight, weight, hbuf]
      rfl
    omega

variable {f : ℕ} (hhit : s.hit blk dev = none) (hv : s.victim = some f)
include hhit hv

omit he in
/-- The victim is dirty, and is written first. -/
lemma Solo.search_evict (hl : s.last = none) (hd : (s.buf f).delwri = true) :
    Advances s p blk dev k (s.search p blk dev k) (s.load + 10) := by
  obtain ⟨hf, hbusy, -⟩ := victim_spec hv
  have hbuf := s.block_self p f
  have hsearch : s.search p blk dev k
      = some ((s.block p f).bwrite p f (.evict f blk dev k)) := by
    rw [Cache.search, hhit, hv]
    simp only [hbuf, hd, if_true]
  have hi := (search_spec h.inv hl hpc hr (h.not_clobbers (hk.imp_right And.left)) hsearch).1
  have hq := queued_strat (s.block_own p f) false (.evict f blk dev k)
  have hs : Solo ((s.block p f).bwrite p f (.evict f blk dev k)) p (some f) :=
    Queued.solo ⟨(s.only_block p f).trans hq.only, hq.own, hq.queue, hq.want, hq.error, hq.event,
      hq.pc, hq.view⟩ h hi (Or.inl rfl)
  refine ⟨_, hsearch, .sleeps ?_ (by rw [bwrite, hq.pc]; rfl) (by rw [bwrite, hq.event]; simp)
    hq.only.rootdev hq.view, ?_⟩
  · rw [bwrite, hq.pc]
    exact hs
  · have hload := ((s.only_block p f).trans hq.only).load hf
    have hw : s.weight f = 3 := by simp [weight, h.idle hbusy, hd]
    rw [hq.weight, hw] at hload
    rw [bwrite, rank, hq.event, hq.pc]
    simp only [reduceCtorEq, if_false, Pc.rank]
    omega

/-- The victim is clean, and becomes the buffer of the block. -/
lemma Solo.search_claim (hd : (s.buf f).delwri = false) :
    Advances s p blk dev k (s.search p blk dev k) (s.load + 10) := by
  obtain ⟨hf, hbusy, -⟩ := victim_spec hv
  set t := (s.block p f).retag f blk dev with ht
  have hbuf : t.buf f
      = { s.buf f with busy := true, blk := blk % 256, dev := dev % 256, done := false } := by
    rw [ht, retag, modBuf_self, block_self]
  have hsearch : s.search p blk dev k = t.got p f blk dev k := by
    rw [Cache.search, hhit, hv]
    simp only [block_self, hd, Bool.false_eq_true, if_false]
    rfl
  have honly : Only s t f := (s.only_block p f).trans ⟨rfl, rfl, fun c hc => modBuf_ne _ _ hc,
    fun _ _ => rfl, fun _ _ => rfl, by rw [hbuf, block_self]⟩
  have hq : t.queue f = false := h.idle hbusy
  have hs : Solo t p (some f) := honly.solo h (h.inv.claim hbusy hf hd hhit hr)
    (by rw [hbuf]; exact h.error f) (Or.inl rfl) (Or.inr rfl)
    (by rw [if_pos rfl]; exact s.block_own p f) fun c hc => by cases he.symm.trans hc
  obtain ⟨s', hs', hburst, hrank⟩ := hs.got (k := k) ⟨s.block_own p f, hq, Or.inl hpc⟩ he
    (fun _ => by rw [hbuf]; exact hd)
    (by rw [hbuf]; exact ⟨Nat.mod_eq_of_lt hr.2, Nat.mod_eq_of_lt hr.1⟩) hk
  refine ⟨s', hsearch.trans hs', hburst.congr rfl rfl rfl, ?_⟩
  have hload := honly.load hf
  have hw : t.weight f = 0 := by
    rw [weight, hbuf, hq]
    simp [hd]
  omega

omit hhit hv

/-- **The search of `bget`, and what follows.**  It does not get through only if all buffers that may
be taken are with the drivers. -/
lemma Solo.search (hl : s.last = none) :
    (s.search p blk dev k = none ∧ ∃ b, s.queue b = true) ∨
      Advances s p blk dev k (s.search p blk dev k) (s.load + 10) := by
  cases hhit : s.hit blk dev with
  | some b => exact Or.inr (h.search_hit hpc he hr hk hhit)
  | none =>
      cases hv : s.victim with
      | none =>
          refine Or.inl ⟨by rw [Cache.search, hhit, hv], ?_⟩
          by_contra hq
          obtain ⟨f, hf⟩ := h.victim fun b => by simpa using fun e => hq ⟨b, e⟩
          cases hv.symm.trans hf
      | some f =>
          right
          by_cases hd : (s.buf f).delwri = true
          · exact h.search_evict hpc hr hk hhit hv hl hd
          · exact h.search_claim hpc he hr hk hhit hv (by simpa using hd)

end Search

/-! ## Steps -/

/-- Nothing but what the last step returned is forgotten. -/
lemma Solo.forget (h : Solo s p o) : Solo { s with last := none } p o :=
  ⟨h.inv.congr rfl rfl rfl rfl rfl rfl rfl, h.error, h.lock, h.own, h.asleep⟩

/-- The request with which a process that holds no buffer calls. -/
lemma Solo.call (h : Solo s p none) (hpc : s.pc p = .idle) (he : s.event p = none) {c : Call}
    (hc : c = .bread blk dev ∧ k = .bread ∨
      c = .bsync ∧ (blk, dev, k) = (1, s.rootdev, .bsync)) (hr : blk < 256 ∧ dev < 256) :
    (s.step (.call p c) = none ∧ ∃ b, s.queue b = true) ∨
      Advances s p blk dev k (s.step (.call p c)) (s.load + 10) := by
  have hstep : s.step (.call p c) = { s with last := none }.search p blk dev k := by
    rw [step]
    dsimp only
    rw [if_pos hpc]
    rcases hc with ⟨rfl, rfl⟩ | ⟨rfl, e⟩
    · rfl
    · obtain ⟨rfl, rfl, rfl⟩ : blk = 1 ∧ dev = s.rootdev ∧ k = .bsync := by simpa using e
      rfl
  have hk : { s with last := none }.Fits blk dev k := by
    rcases hc with ⟨-, rfl⟩ | ⟨-, e⟩
    · exact Or.inl rfl
    · obtain ⟨rfl, rfl, rfl⟩ : blk = 1 ∧ dev = s.rootdev ∧ k = .bsync := by simpa using e
      exact Or.inr ⟨rfl, rfl, rfl⟩
  rw [hstep]
  refine (h.forget.search (by rw [hpc]; rfl) he hr hk rfl).imp_right ?_
  rintro ⟨s', hs', hb, hrank⟩
  exact ⟨s', hs', hb.congr rfl rfl rfl, hrank⟩

/-- A process that wakes too early sleeps again. -/
lemma Solo.sleep_again (h : Solo s p (some b)) (hb : (s.pc p).buf = some b)
    (hdone : (s.buf b).done ≠ true) (hreq : (s.pc p).request = some (blk, dev, k)) :
    Burst s p blk dev k (s.sleep p b (s.pc p)) ∧
      (s.sleep p b (s.pc p)).rank p < s.load + 1 + (s.pc p).rank := by
  have hown : s.own b = some p := by rw [h.own, if_pos rfl]
  have hq : s.queue b = true :=
    (h.inv.waits p b hb).2.resolve_right fun e => hdone e.1
  have hbuf : (s.sleep p b (s.pc p)).buf b = { s.buf b with want := true } := by
    simp [Cache.sleep]
  have hpc : (s.sleep p b (s.pc p)).pc p = s.pc p := Function.update_self ..
  have hev : (s.sleep p b (s.pc p)).event p = some b := Function.update_self ..
  have honly : Only s (s.sleep p b (s.pc p)) b :=
    ⟨rfl, rfl, fun c hc => by simp [Cache.sleep, modBuf_ne _ _ hc], fun _ _ => rfl, fun _ _ => rfl,
      by rw [hbuf]⟩
  have hs : Solo (s.sleep p b (s.pc p)) p (some b) := by
    refine honly.solo h h.inv.sleep_again (by rw [hbuf]; exact h.error b) (Or.inr rfl) (Or.inr rfl)
      (by rw [if_pos rfl]; exact hown) fun c hc => ?_
    rw [hev, Option.some.injEq] at hc
    exact hc ▸ ⟨hq, by rw [hbuf]⟩
  refine ⟨.sleeps (by rw [hpc, hb]; exact hs) (by rw [hpc, hreq]) (by rw [hev]; simp) rfl rfl, ?_⟩
  have hw : (s.sleep p b (s.pc p)).weight b = s.weight b := by
    rw [weight, weight, hbuf]
    rfl
  have hload := honly.load (h.inv.lt_of_busy (h.busy.mpr (Or.inl rfl)))
  rw [rank, hev, hpc]
  simp only [reduceCtorEq, if_false]
  omega

/-- The transfer that the process waits for has ended. -/
lemma Solo.has_done (h : Solo s p (some b)) (hb : (s.pc p).buf = some b)
    (hd : (s.buf b).done = true) : Has s p b := by
  refine ⟨by rw [h.own, if_pos rfl], ?_, Or.inr hb⟩
  by_contra hq
  rw [(h.inv.ok b).undone (by simpa using hq)] at hd
  cases hd

lemma brelse_seconds (s : Cache) (b : ℕ) : (s.brelse b).seconds = s.seconds := by
  unfold brelse
  split_ifs <;> rfl

/-- The buffer that `bread` has returned is stored in and released with `bdwrite`. -/
lemma Solo.release (h : Solo s p (some b)) (hpc : s.pc p = .idle) (he : s.event p = none)
    (d : Bytes) : ∃ s', s.step (.release p b (.bdwrite d)) = some s' ∧
      Freed s s' p .idle (s.store b d).view ∧ s'.rank p ≤ s.load + 4 := by
  have hstep : s.step (.release p b (.bdwrite d))
      = some (({ s with last := none }.store b d).bdwrite b) := by
    rw [step]
    dsimp only
    rw [if_pos ⟨hpc, by rw [h.own, if_pos rfl]⟩]
    rfl
  obtain ⟨hfreed, hload⟩ := h.forget.bdwrite hpc he d
  refine ⟨_, hstep, ⟨hfreed.solo, hfreed.event, hfreed.pc, hfreed.rootdev, hfreed.view⟩, ?_⟩
  have hload' : ((({ s with last := none } : Cache).store b d).bdwrite b).load ≤ s.load + 3 := hload
  rw [rank, hfreed.event, hfreed.pc]
  simp only [if_true, Pc.rank]
  omega

/-- The clock ticks. -/
lemma Solo.tick (h : Solo s p o) : ∃ s', s.step .tick = some s' ∧ Solo s' p o ∧
    s'.buf = s.buf ∧ s'.queue = s.queue ∧ s'.event = s.event ∧ s'.pc = s.pc ∧
    s'.view = s.view ∧ s'.rootdev = s.rootdev ∧ s'.rank p = s.rank p :=
  ⟨_, rfl, ⟨h.inv.congr rfl rfl rfl rfl rfl rfl rfl, h.error, h.lock, h.own, h.asleep⟩, rfl, rfl, rfl,
    rfl, rfl, rfl, rfl⟩

/-- **A woken process goes on.** -/
lemma Solo.resume (h : Solo s p (s.pc p).buf) (he : s.event p = none) (hl : s.last = none)
    (hreq : (s.pc p).request = some (blk, dev, k)) (hk : s.Fits blk dev k) :
    (s.resume p = none ∧ ∃ b, s.queue b = true) ∨
      Advances s p blk dev k (s.resume p) (s.load + 1 + (s.pc p).rank) := by
  have hpc := h.inv.pc p
  have hreq' := hreq
  unfold Cache.resume
  cases hpc' : s.pc p with
  | idle =>
      rw [hpc'] at hreq
      cases hreq
  | write b =>
      rw [hpc'] at hreq
      cases hreq
  | loop blk' dev' k' =>
      rw [hpc'] at h hpc hreq
      obtain ⟨rfl, rfl, rfl⟩ : blk' = blk ∧ dev' = dev ∧ k' = k := by simpa [Pc.request] using hreq
      exact h.search (by rw [hpc']; rfl) he hpc hk hl
  | evict b blk' dev' k' =>
      have hb : (s.pc p).buf = some b := by rw [hpc']; rfl
      rw [hpc'] at h hpc hreq
      obtain ⟨rfl, rfl, rfl⟩ : blk' = blk ∧ dev' = dev ∧ k' = k := by simpa [Pc.request] using hreq
      dsimp only
      split_ifs with hd
      · have hh := h.has_done hb hd
        have hbusy := hh.busy h.inv
        obtain ⟨hfreed, hload, -⟩ := h.brelse hh he (.loop blk' dev' k') rfl hpc
        obtain ⟨-, -, hqueue, -, -, -, -, hlast, -⟩ :=
          brelse_busy (s.setPc p (.loop blk' dev' k')) hbusy
        refine (hfreed.solo.search (k := k') (by rw [hfreed.pc]; rfl) hfreed.event hpc
          (by rw [Fits, hfreed.rootdev]; exact hk) (hlast.trans hl)).imp (fun e => ⟨e.1, ?_⟩) ?_
        · rw [hqueue] at e
          exact e.2
        · rintro ⟨s', hs', hburst, hr⟩
          exact ⟨s', hs', hburst.congr hfreed.rootdev hfreed.view (brelse_seconds _ b),
            by rw [hload] at hr; exact hr⟩
      · obtain ⟨hburst, hr⟩ := h.sleep_again hb hd hreq'
        rw [hpc'] at hburst hr
        exact Or.inr ⟨_, rfl, hburst, hr⟩
  | read b blk' dev' k' =>
      have hb : (s.pc p).buf = some b := by rw [hpc']; rfl
      rw [hpc'] at h hpc hreq
      obtain ⟨rfl, rfl, rfl⟩ : blk' = blk ∧ dev' = dev ∧ k' = k := by simpa [Pc.request] using hreq
      dsimp only
      split_ifs with hd
      · obtain ⟨s', hs', hburst, hr⟩ := h.breadEnd (h.has_done hb hd) he hd ⟨hpc.1.symm, hpc.2.symm⟩ hk
        exact Or.inr ⟨s', hs', hburst, by simp only [Pc.rank]; omega⟩
      · obtain ⟨hburst, hr⟩ := h.sleep_again hb hd hreq'
        rw [hpc'] at hburst hr
        exact Or.inr ⟨_, rfl, hburst, hr⟩

lemma Solo.run (h : Solo s p (s.pc p).buf) (he : s.event p = none)
    (hreq : (s.pc p).request = some (blk, dev, k)) (hk : s.Fits blk dev k) :
    (s.step (.run p) = none ∧ ∃ b, s.queue b = true) ∨
      Advances s p blk dev k (s.step (.run p)) (s.rank p) := by
  have hrank : s.rank p = s.load + 1 + (s.pc p).rank := by rw [rank, he, if_pos rfl]
  have hstep : s.step (.run p) = { s with last := none }.resume p := by
    rw [step]
    dsimp only
    rw [if_pos he]
  rw [hstep, hrank]
  refine (h.forget.resume he rfl hreq hk).imp_right ?_
  rintro ⟨s', hs', hb, hr⟩
  exact ⟨s', hs', hb.congr rfl rfl rfl, hr⟩

lemma transfer_rest (s : Cache) (b : ℕ) (err : Option Bytes) :
    (s.transfer b err).event = s.event ∧ (s.transfer b err).rootdev = s.rootdev ∧
      (s.transfer b err).seconds = s.seconds := by
  unfold transfer
  dsimp only
  split_ifs <;> exact ⟨rfl, rfl, rfl⟩

/-- Buffer `b` is with its driver no more, and has nothing to be written. -/
structure Transferred (s s' : Cache) (p b : ℕ) : Prop where
  only : Only s s' b
  own : s'.own = s.own
  queue : s'.queue b = false
  delwri : (s'.buf b).delwri = false
  error : (s'.buf b).error = false
  event : s'.event p = if s.event p = some b then none else s.event p
  pc : s'.pc = s.pc
  view : s'.view = s.view
  seconds : s'.seconds = s.seconds

lemma Solo.transferred (h : Solo s p o) (hq : s.queue b = true) :
    Transferred s (s.iodone b none) p b := by
  have hbusy : (s.buf b).busy = true := h.busy.mpr (Or.inr hq)
  have hsync := (h.inv.ok b).sync hq
  obtain ⟨hbuf, hother, hqu, hown, hpc, hview, hn, -, -⟩ := transfer_fields s b none
  obtain ⟨hev, hroot, hsec⟩ := transfer_rest s b none
  unfold Cache.iodone
  set t := (s.transfer b none).modBuf b fun x => { x with done := true, delwri := false } with ht
  have htsync : (t.buf b).sync = (s.buf b).sync := by rw [hbuf]
  have hlock : (t.buf b).lock = (s.buf b).lock := by rw [hbuf]
  have hdel : (t.buf b).delwri = false := by rw [hbuf]
  have herr : (t.buf b).error = false := by rw [hbuf]; exact h.error b
  have hqb : t.queue b = false := by rw [hqu, Function.update_self]
  have hqc (c : ℕ) (hc : c ≠ b) : t.queue c = s.queue c := by rw [hqu, Function.update_of_ne hc]
  dsimp only
  rw [htsync]
  by_cases hs : (s.buf b).sync = true
  · -- the process waits for the transfer
    rw [if_pos hs]
    exact ⟨⟨hn, hroot, hother, fun c _ => congrFun hown c, hqc, hlock⟩, hown, hqb, hdel, herr,
      by rw [← hev]; rfl, hpc, hview, hsec⟩
  · -- the driver releases the buffer, and wakes whoever waits for that
    rw [if_neg hs]
    have htb : (t.buf b).busy = true := by rw [hbuf]; exact hbusy
    obtain ⟨ebuf, eown, equ, epc, -, eview, en, -, eroot⟩ := brelse_busy t htb
    have hnone : s.own b = none := by
      rw [show (s.buf b).sync = false by simpa using hs] at hsync
      simpa using hsync.symm
    refine ⟨⟨en.trans hn, eroot.trans hroot, fun c hc => ?_, fun c hc => ?_, fun c hc => ?_, ?_⟩, ?_,
      by rw [equ, hqb], ?_, ?_, ?_, epc.trans hpc, eview.trans hview, (brelse_seconds t b).trans hsec⟩
    · rw [ebuf, modBuf_ne _ _ hc, hother c hc]
    · rw [eown, Function.update_of_ne hc, hown]
    · rw [equ, hqc c hc]
    · rw [ebuf, modBuf_self]
      exact hlock
    · rw [eown, hown, ← hnone, Function.update_eq_self]
    · rw [ebuf, modBuf_self]
      exact hdel
    · rw [ebuf, modBuf_self]
      exact herr
    · rw [brelse_event, show t.event = _ from hev]
      by_cases he : s.event p = some b
      · have hwant : (t.buf b).want = true := by rw [hbuf]; exact (h.asleep b he).2
        rw [if_pos ⟨htb, hwant, he⟩, if_pos he]
      · rw [if_neg fun hc => he hc.2.2, if_neg he]

/-- **A transfer ends.** -/
lemma Solo.iodone (h : Solo s p o) (hq : s.queue b = true) :
    ∃ s', s.step (.iodone b none) = some s' ∧ Transferred s s' p b ∧ Solo s' p o ∧
      s'.rank p < s.rank p := by
  have hstep : s.step (.iodone b none) = some ({ s with last := none }.iodone b none) := by
    rw [step]
    dsimp only
    rw [if_pos hq]
  refine ⟨_, hstep, ?_⟩
  have ht := h.forget.transferred hq
  have hi : Inv ({ s with last := none }.iodone b none) := h.forget.inv.iodone hq (by simp)
  set s' := { s with last := none }.iodone b none
  have ht : Transferred s s' p b := ⟨⟨ht.only.nbuf, ht.only.rootdev, ht.only.buf, ht.only.own,
    ht.only.queue, ht.only.lock⟩, ht.own, ht.queue, ht.delwri, ht.error, ht.event, ht.pc, ht.view,
    ht.seconds⟩
  have hb : b < s.nbuf := h.inv.lt_of_busy (h.busy.mpr (Or.inr hq))
  refine ⟨ht, ⟨hi, fun c => ?_, ?_, fun c => by rw [ht.own, h.own], fun c hc => ?_⟩, ?_⟩
  · by_cases hc : c = b
    · rw [hc, ht.error]
    · rw [ht.only.buf c hc, h.error]
  · obtain ⟨c, hc, hl⟩ := h.lock
    refine ⟨c, ht.only.nbuf ▸ hc, ?_⟩
    by_cases hcb : c = b
    · rw [hcb, ht.only.lock, ← hcb, hl]
    · rw [ht.only.buf c hcb, hl]
  · rw [ht.event] at hc
    split_ifs at hc with he
    have hcb : c ≠ b := by
      rintro rfl
      exact he hc
    rw [ht.only.queue c hcb, ht.only.buf c hcb]
    exact h.asleep c hc
  · have hload := ht.only.load hb
    have hw : s.weight b = 2 := by rw [weight, hq, if_pos rfl]
    have hw' : s'.weight b = 0 := by
      rw [weight, ht.queue, ht.delwri]
      rfl
    rw [rank, rank, ht.pc, ht.event]
    split_ifs <;> omega

end Cache

end Micronix
