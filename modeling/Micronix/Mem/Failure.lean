import Micronix.Mem.Coalesce
import Micronix.Mem.Segments
import Micronix.Proc.Findout

/-!
# Errors of the swap device

`swapio` succeeds if no request fails.  After a failure `swapout` gives the process its mode back and
sends it `SIGKILL`; the extent that `salloc` gave it is not freed.  `swapin` frees the memory of the
process; it stays neither `SWAPPED` nor `LOADED`.

`err` says which of the requests fail, by the entries of the memory map.
-/

namespace Micronix

namespace SwapError

open Findout (Mode ALIVE AWAKE LOADED)
open Memory (Seg Pool)
open Swapmap (Lists mapsize)

def SWAPPED : Mode := 0o020

/-- The code for ignore. -/
def IGNORE : ℕ := 1
def SIGTINT : ℕ := 7
def SIGKILL : ℕ := 9

/-- Below here, a signal can wake a sleeper. -/
def SIGPRI : ℕ := 80

/-- `struct proc`, as far as swapping and `send` use it. -/
structure Proc where
  mode : Mode
  swap : ℕ
  nsegs : ℕ
  mem : ℕ → Seg
  /-- signal dispositions, and the waiting signal -/
  slist : ℕ → ℕ
  pri : ℕ
  time : ℕ

/-- The process that is swapped, the memory, and the swap map. -/
structure State where
  proc : Proc
  pool : Pool
  swapmap : Swapmap

/-- `send(p, sig)`; `run` sets `AWAKE`. -/
def send (p : Proc) (sig : ℕ) : Proc :=
  if p.mode &&& ALIVE = 0 then p
  else if p.slist sig = IGNORE then p
  else if p.slist 0 = SIGKILL then p
  else
    let p := { p with slist := Function.update p.slist 0 sig }
    if p.pri < SIGPRI ∧ p.mode &&& AWAKE = 0 ∧ sig ≠ SIGTINT then { p with mode := p.mode ||| AWAKE }
    else p

/-- The second loop of `swapio` after `k` rounds: `success`. -/
def success (mem : ℕ → Seg) (err : ℕ → Bool) : ℕ → Bool
  | 0 => true
  | i + 1 => if (mem i).per = .full ∧ err i = true then false else success mem err i

/-- `swapio(flag, p)` -/
def swapio (err : ℕ → Bool) (p : Proc) : Bool × Proc :=
  (success p.mem err 17, { p with time := 0 })

/-- `swapout(p)` -/
def swapout (err : ℕ → Bool) (s : State) : Option (Bool × State) :=
  (s.swapmap.salloc (s.proc.nsegs * 8)).map fun x =>
    let p := { s.proc with mode := s.proc.mode &&& ~~~LOADED, swap := x.1.getD 0 }
    let (ok, p) := if p.swap ≠ 0 then swapio err p else (false, p)
    if ok then (true, ⟨{ p with mode := p.mode ||| SWAPPED }, s.pool, x.2⟩)
    else (false, ⟨send { p with mode := p.mode ||| LOADED } SIGKILL, s.pool, x.2⟩)

/-- `mfree(p)` -/
def mfree (p : Pool) (x : Proc) : Pool × Proc :=
  (Pool.mfreeDown x.mem 17 p,
    { x with mem := fun i => if i < 17 then ⟨0, (x.mem i).per⟩ else x.mem i })

/-- `swapin(p)` -/
def swapin (err : ℕ → Bool) (s : State) : Option (Bool × State) :=
  let p := { s.proc with mode := s.proc.mode &&& ~~~SWAPPED }
  let (ok, p) := swapio err p
  if ok then
    (s.swapmap.sfree (p.nsegs * 8) p.swap).map fun m =>
      (true, ⟨{ p with mode := p.mode ||| LOADED }, s.pool, m⟩)
  else
    let (pool, p) := mfree s.pool p
    some (false, ⟨p, pool, s.swapmap⟩)

/-! ## What a failure should leave -/

/-- If `swapout` fails the process keeps its segments and its mode, and the swap map is unchanged. -/
def SwapoutKeeps (err : ℕ → Bool) (s : State) : Prop :=
  ∀ t, swapout err s = some (false, t) →
    (t.proc.mem = s.proc.mem ∧ t.proc.nsegs = s.proc.nsegs ∧ t.pool = s.pool) ∧
      t.proc.mode = s.proc.mode ∧ t.swapmap = s.swapmap

/-- If `swapin` fails the process is still swapped out with its extent, and has no segments. -/
def SwapinKeeps (err : ℕ → Bool) (s : State) : Prop :=
  ∀ t, swapin err s = some (false, t) →
    (t.proc.mode &&& SWAPPED ≠ 0 ∧ t.proc.swap = s.proc.swap ∧ t.swapmap = s.swapmap) ∧
      ∀ i < 17, (t.proc.mem i).seg = 0 ∧ t.pool.segmap (s.proc.mem i).seg = false

/-- No request fails. -/
def Fine (err : ℕ → Bool) (s : State) : Prop :=
  ∀ i < 17, (s.proc.mem i).per = .full → err i = false

instance (err : ℕ → Bool) (s : State) : Decidable (Fine err s) :=
  inferInstanceAs (Decidable (∀ i < 17, _))

/-- `SIGKILL` wakes the process. -/
def Wakes (p : Proc) : Prop :=
  p.mode &&& ALIVE ≠ 0 ∧ p.slist SIGKILL ≠ IGNORE ∧ p.slist 0 ≠ SIGKILL ∧ p.pri < SIGPRI ∧
    p.mode &&& AWAKE = 0

/-- The entry of the swap map that `salloc` takes the blocks from. -/
def source (s : State) : Option Extent :=
  s.swapmap.entries.find? fun f => s.proc.nsegs * 8 ≤ f.size

variable {err : ℕ → Bool} {s t : State} {p : Proc} {m m' : Swapmap} {mem : ℕ → Seg}
  {z i k size : ℕ} {L L' : List Extent}

/-! ## `salloc` -/

lemma Lists.unique (h : Lists z m i L) (h' : Lists z m i L') : L = L' := by
  induction L generalizing i L' with
  | nil =>
      cases L' with
      | nil => rfl
      | cons f L' =>
          obtain ⟨rfl, hpos, -⟩ := h'
          exact absurd h.1 (Nat.ne_of_gt hpos)
  | cons e L ih =>
      obtain ⟨he, hpos, hrest⟩ := h
      cases L' with
      | nil =>
          rw [← he] at hpos
          exact absurd h'.1 (Nat.ne_of_gt hpos)
      | cons f L' =>
          obtain ⟨rfl, -, hrest'⟩ := h'
          rw [he, ih hrest hrest']

/-- `salloc` takes blocks from the first entry that is large enough, if there is one, and the map is
not what it was. -/
lemma sallocFrom_find (hsize : 0 < size) (L : List Extent) : ∀ {fuel i : ℕ}, Lists z m i L →
    L.length < fuel →
    match L.find? fun f => size ≤ f.size with
    | none => Swapmap.sallocFrom size fuel m i = some (none, m)
    | some f => ∃ m', Swapmap.sallocFrom size fuel m i = some (some f.addr, m') ∧ m' ≠ m := by
  induction L with
  | nil =>
      rintro (_ | fuel) i h hf
      · simp at hf
      · rw [List.find?_nil, Swapmap.sallocFrom, if_pos h.1]
  | cons e L ih =>
      rintro (_ | fuel) i h hf
      · simp at hf
      obtain ⟨h0, hpos, hrest⟩ := id h
      have hne : ¬(m i).size = 0 := by
        rw [h0]
        omega
      simp only [List.length_cons] at hf
      rw [Swapmap.sallocFrom, if_neg hne, h0]
      rcases Nat.lt_trichotomy e.size size with hlt | heq | hgt
      · -- too small
        rw [List.find?_cons_of_neg (by simpa using hlt), if_neg (Nat.ne_of_lt hlt),
          if_neg (Nat.not_lt_of_gt hlt)]
        exact ih hrest (Nat.lt_of_succ_lt_succ hf)
      · rw [List.find?_cons_of_pos (by simpa using Nat.le_of_eq heq.symm), if_pos heq]
        obtain ⟨m', hm, hm', -⟩ := Swapmap.lshift_spec L h hf
        refine ⟨m', by rw [hm]; rfl, ?_⟩
        rintro rfl
        have hlen := congrArg List.length (Lists.unique hm' h)
        simp at hlen
      · rw [List.find?_cons_of_pos (by simpa using Nat.le_of_lt hgt), if_neg (Nat.ne_of_gt hgt),
          if_pos hgt]
        refine ⟨_, rfl, fun heq => ?_⟩
        have hsame := congrArg Extent.size (congrFun heq i)
        rw [Function.update_self, h0] at hsame
        dsimp only at hsame
        omega

/-! ## `swapio` and `mfree` -/

lemma success_iff (k : ℕ) :
    success mem err k = true ↔ ∀ i < k, (mem i).per = .full → err i = false := by
  induction k with
  | zero => simp [success]
  | succ k ih =>
      rw [success]
      split_ifs with hk
      · refine iff_of_false (by simp) fun h => ?_
        rw [h k (Nat.lt_succ_self k) hk.1] at hk
        exact absurd hk.2 Bool.false_ne_true
      · rw [ih]
        refine ⟨fun h i hi hper => ?_, fun h i hi => h i (Nat.lt_succ_of_lt hi)⟩
        rcases Nat.lt_succ_iff_lt_or_eq.mp hi with hi | rfl
        · exact h i hi hper
        · simpa [hper] using hk

lemma success_eq_true (h : Fine err s) : success s.proc.mem err 17 = true := (success_iff 17).mpr h

lemma success_eq_false (h : ¬Fine err s) : success s.proc.mem err 17 = false :=
  Bool.eq_false_iff.mpr fun hs => h ((success_iff 17).mp hs)

/-- Freeing segments leaves free ones free. -/
lemma mfreeDown_free {n : ℕ} (k : ℕ) : ∀ {p : Pool}, p.segmap n = false →
    (Pool.mfreeDown mem k p).segmap n = false := by
  induction k with
  | zero => exact fun h => h
  | succ k ih =>
      intro p h
      refine ih ?_
      rw [Pool.segfree]
      split_ifs
      · simp only [Function.update_apply]
        split_ifs
        · rfl
        · exact h
      · exact h

/-- After `mfree` the segments of the memory map are free. -/
lemma mfreeDown_segmap (k : ℕ) : ∀ {p : Pool}, i < k →
    (Pool.mfreeDown mem k p).segmap (mem i).seg = false := by
  induction k with
  | zero => exact fun h => absurd h (Nat.not_lt_zero i)
  | succ k ih =>
      intro p hi
      rcases Nat.lt_succ_iff_lt_or_eq.mp hi with hi | rfl
      · exact ih hi
      · refine mfreeDown_free i ?_
        unfold Pool.segfree
        split_ifs with hseg
        · exact Function.update_self ..
        · exact Bool.eq_false_iff.mpr hseg

/-! ## `send` -/

@[simp] lemma send_mem (p : Proc) (sig : ℕ) : (send p sig).mem = p.mem := by
  simp only [send]
  split_ifs <;> rfl

@[simp] lemma send_nsegs (p : Proc) (sig : ℕ) : (send p sig).nsegs = p.nsegs := by
  simp only [send]
  split_ifs <;> rfl

/-- `SIGKILL` leaves the mode alone if and only if it does not wake the process. -/
lemma send_mode_iff (p : Proc) : (send p SIGKILL).mode = p.mode ↔ ¬Wakes p := by
  have hset : p.mode &&& AWAKE = 0 → p.mode ||| AWAKE ≠ p.mode := by
    intro h heq
    have hand : (p.mode ||| AWAKE) &&& AWAKE = AWAKE := by
      rw [BitVec.and_or_distrib_right, h]
      decide
    rw [heq, h] at hand
    exact absurd hand (by decide)
  simp only [send]
  split_ifs with h1 h2 h3 h4
  · exact iff_of_true rfl fun h => h.1 h1
  · exact iff_of_true rfl fun h => h.2.1 h2
  · exact iff_of_true rfl fun h => h.2.2.1 h3
  · exact iff_of_false (hset h4.2.1) fun h => h ⟨h1, h2, h3, h4.1, h4.2.1⟩
  · exact iff_of_true rfl fun h => h4 ⟨h.2.2.2.1, h.2.2.2.2, by decide⟩

/-- `LOADED`, cleared and set again. -/
lemma reload {mode : Mode} (h : mode &&& LOADED ≠ 0) : mode &&& ~~~LOADED ||| LOADED = mode := by
  revert mode
  decide

lemma and_not_swapped (mode : Mode) : mode &&& ~~~SWAPPED &&& SWAPPED = 0 := by
  rw [BitVec.and_assoc]
  have h : ~~~SWAPPED &&& SWAPPED = 0 := by decide
  rw [h]
  exact BitVec.and_zero

/-! ## Which failures leave things as they were -/

/-- The process as `swapout` leaves it when it fails. -/
def killed (p : Proc) (swap time : ℕ) : Proc := send { p with swap := swap, time := time } SIGKILL

@[simp] lemma killed_mem (p : Proc) (swap time : ℕ) : (killed p swap time).mem = p.mem := send_mem ..

@[simp] lemma killed_nsegs (p : Proc) (swap time : ℕ) : (killed p swap time).nsegs = p.nsegs :=
  send_nsegs ..

lemma killed_mode_iff (p : Proc) (swap time : ℕ) :
    (killed p swap time).mode = p.mode ↔ ¬Wakes p := send_mode_iff _

variable (err) in
/-- A failing `swapout` keeps the segments.  Where nothing is large enough, or a request fails, or the
blocks begin at block 0. -/
lemma swapout_eq (hm : Lists z s.swapmap 0 L) (hlen : L.length < mapsize) (hn : 0 < s.proc.nsegs)
    (hl : s.proc.mode &&& LOADED ≠ 0) :
    match source s with
    | none => swapout err s = some (false, ⟨killed s.proc 0 s.proc.time, s.pool, s.swapmap⟩)
    | some f => ∃ m, m ≠ s.swapmap ∧
        if f.addr = 0 then swapout err s = some (false, ⟨killed s.proc 0 s.proc.time, s.pool, m⟩)
        else if Fine err s then ∃ t, swapout err s = some (true, t)
        else swapout err s = some (false, ⟨killed s.proc f.addr 0, s.pool, m⟩) := by
  have hfind := sallocFrom_find (show 0 < s.proc.nsegs * 8 by omega) L hm hlen
  rw [source, hm.entries hlen]
  cases hs : L.find? fun f => s.proc.nsegs * 8 ≤ f.size with
  | none =>
      rw [hs] at hfind
      have hsal : s.swapmap.salloc (s.proc.nsegs * 8) = some (none, s.swapmap) := hfind
      simp only [swapout, hsal, Option.map_some, Option.getD_none, ne_eq, not_true_eq_false, if_false,
        Bool.false_eq_true, reload hl, killed]
  | some f =>
      rw [hs] at hfind
      obtain ⟨m, hsal, hne⟩ := hfind
      have hsal : s.swapmap.salloc (s.proc.nsegs * 8) = some (some f.addr, m) := hsal
      refine ⟨m, hne, ?_⟩
      split_ifs with haddr hfine
      · simp only [swapout, hsal, Option.map_some, Option.getD_some, haddr, ne_eq, not_true_eq_false,
          if_false, Bool.false_eq_true, reload hl, killed]
      · simp only [swapout, swapio, hsal, Option.map_some, Option.getD_some, haddr, ne_eq,
          not_false_eq_true, if_true, success_eq_true hfine]
        exact ⟨_, rfl⟩
      · simp only [swapout, swapio, hsal, Option.map_some, Option.getD_some, haddr, ne_eq,
          not_false_eq_true, if_true, success_eq_false hfine, if_false, Bool.false_eq_true, reload hl,
          killed]

lemma swapoutKeeps_iff (hm : Lists z s.swapmap 0 L) (hlen : L.length < mapsize)
    (hn : 0 < s.proc.nsegs) (hl : s.proc.mode &&& LOADED ≠ 0) :
    SwapoutKeeps err s ↔
      (source s = none ∧ ¬Wakes s.proc) ∨ ∃ f, source s = some f ∧ f.addr ≠ 0 ∧ Fine err s := by
  have heq := swapout_eq err hm hlen hn hl
  cases hs : source s with
  | none =>
      rw [hs] at heq
      constructor
      · intro h
        exact Or.inl ⟨rfl, (killed_mode_iff ..).mp (h _ heq).2.1⟩
      · rintro (⟨-, hw⟩ | ⟨f, ⟨⟩, -⟩) t ht
        rw [heq] at ht
        obtain rfl := (Prod.mk.inj (Option.some.inj ht)).2
        exact ⟨⟨killed_mem .., killed_nsegs .., rfl⟩, (killed_mode_iff ..).mpr hw, rfl⟩
  | some f =>
      rw [hs] at heq
      obtain ⟨m, hne, heq⟩ := heq
      split_ifs at heq with haddr hfine
      · refine iff_of_false (fun h => hne (h _ heq).2.2) ?_
        rintro (⟨⟨⟩, -⟩ | ⟨g, hg, hg0, -⟩)
        obtain rfl := Option.some.inj hg
        exact hg0 haddr
      · obtain ⟨t, ht⟩ := heq
        refine iff_of_true (fun u hu => ?_) (Or.inr ⟨f, rfl, haddr, hfine⟩)
        rw [ht] at hu
        exact absurd (Prod.mk.inj (Option.some.inj hu)).1 (by simp)
      · refine iff_of_false (fun h => hne (h _ heq).2.2) ?_
        rintro (⟨⟨⟩, -⟩ | ⟨g, -, -, hg⟩)
        exact hfine hg

/-- The process that `swapin` has failed for. -/
def hung (p : Proc) : Proc :=
  { p with
    mode := p.mode &&& ~~~SWAPPED
    mem := fun i => if i < 17 then ⟨0, (p.mem i).per⟩ else p.mem i
    time := 0 }

lemma swapin_eq (h : ¬Fine err s) :
    swapin err s = some (false, ⟨hung s.proc, Pool.mfreeDown s.proc.mem 17 s.pool, s.swapmap⟩) := by
  simp only [swapin, swapio, success_eq_false h, Bool.false_eq_true, if_false, mfree, hung]

/-- What a failing `swapin` does leave: the extent, and no segments. -/
lemma swapin_leaves (h : swapin err s = some (false, t)) :
    t.proc.swap = s.proc.swap ∧ t.swapmap = s.swapmap ∧
      ∀ i < 17, (t.proc.mem i).seg = 0 ∧ t.pool.segmap (s.proc.mem i).seg = false := by
  by_cases hfine : Fine err s
  · rw [swapin, swapio] at h
    simp only [success_eq_true hfine, if_true, Option.map_eq_some_iff] at h
    obtain ⟨m, -, hm⟩ := h
    exact absurd (Prod.mk.inj hm).1 (by simp)
  · rw [swapin_eq hfine] at h
    obtain rfl := (Prod.mk.inj (Option.some.inj h)).2
    refine ⟨rfl, rfl, fun i hi => ⟨?_, mfreeDown_segmap 17 hi⟩⟩
    simp only [hung, if_pos hi]

lemma swapinKeeps_iff : SwapinKeeps err s ↔ Fine err s := by
  constructor
  · intro h
    by_contra hn
    exact (h _ (swapin_eq hn)).1.1 (and_not_swapped _)
  · intro hfine t ht
    rw [swapin, swapio] at ht
    simp only [success_eq_true hfine, if_true, Option.map_eq_some_iff] at ht
    obtain ⟨m, -, hm⟩ := ht
    exact absurd (Prod.mk.inj hm).1 (by simp)

/-- **Failed swapping.**  For every process with a segment, every pool, every swap map with its
terminator in the array, and every set of requests that fail: `swapout` of a process in memory leaves
things as they were when it fails if and only if it fails because nothing in the swap map is large
enough, and the signal does not wake the process, or else does not fail; and `swapin` if and only if
it does not fail. -/
theorem swap_failure (hm : Lists z s.swapmap 0 L) (hlen : L.length < mapsize)
    (hn : 0 < s.proc.nsegs) :
    (s.proc.mode &&& LOADED ≠ 0 →
      (SwapoutKeeps err s ↔
        (source s = none ∧ ¬Wakes s.proc) ∨
          ∃ f, source s = some f ∧ f.addr ≠ 0 ∧ Fine err s)) ∧
    (SwapinKeeps err s ↔ Fine err s) :=
  ⟨swapoutKeeps_iff hm hlen hn, swapinKeeps_iff⟩

/-- A process in memory that runs, with its user structure and another segment, and 50 blocks of swap
space. -/
def small : State where
  proc :=
    { mode := 0o017
      swap := 0
      nsegs := 2
      mem := fun i => if i = 0 then ⟨20, .full⟩ else if i = 16 then ⟨21, .full⟩ else ⟨0, .none⟩
      slist := fun _ => 0
      pri := 40
      time := 5 }
  pool := { nsegs := 200, segmap := fun n => n = 20 ∨ n = 21, lastseg := 22 }
  swapmap := Swapmap.swapinit 50 100

/-- No request fails. -/
theorem swap_failure_none :
    SwapoutKeeps (fun _ => false) small ∧ SwapinKeeps (fun _ => false) small := by
  have hfine : Fine (fun _ => false) small := fun _ _ _ => rfl
  obtain ⟨hout, hin⟩ : (small.proc.mode &&& LOADED ≠ 0 → (SwapoutKeeps (fun _ => false) small ↔ _)) ∧
      (SwapinKeeps (fun _ => false) small ↔ _) :=
    swap_failure (s := small) (z := 0) (L := [⟨50, 100⟩]) ⟨rfl, by decide, rfl, rfl⟩ (by decide) (by decide)
  exact ⟨(hout (by decide)).mpr (Or.inr ⟨⟨50, 100⟩, by decide, by decide, hfine⟩), hin.mpr hfine⟩

/-- The process on the swap device. -/
def away : State := { small with proc := { small.proc with mode := 0o027 } }

/-- The request for the user structure fails: the blocks from 100 to 115 are in use by nobody, and a
process that should come back to memory is in neither place. -/
theorem swap_error_leaves :
    ¬SwapoutKeeps (fun i => i = 16) small ∧ ¬SwapinKeeps (fun i => i = 16) away := by
  constructor
  · intro h
    have hout : (swapout (fun i => i = 16) small).map (fun x => (x.1, x.2.swapmap.entries))
        = some (false, [⟨34, 116⟩]) := by
      decide +kernel
    obtain ⟨⟨b, t⟩, ht, hend⟩ := Option.map_eq_some_iff.mp hout
    obtain ⟨rfl, hmap⟩ := Prod.mk.inj hend
    rw [(h t ht).2.2] at hmap
    exact absurd hmap (by decide +kernel)
  · intro h
    have hin : (swapin (fun i => i = 16) away).map (fun x => (x.1, x.2.proc.mode))
        = some (false, 0o007) := by
      decide +kernel
    obtain ⟨⟨b, t⟩, ht, hend⟩ := Option.map_eq_some_iff.mp hin
    obtain ⟨rfl, hmode⟩ := Prod.mk.inj hend
    have hswapped := (h t ht).1.1
    rw [hmode] at hswapped
    exact hswapped (by decide)

end SwapError

end Micronix
