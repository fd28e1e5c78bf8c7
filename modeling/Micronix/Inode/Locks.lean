import Micronix.Inode.Uniqueness
import Micronix.Lib.Search
import Mathlib.Data.Finset.Card

/-!
# Who waits for a slot

The invariant says that a slot is locked exactly when somebody owns it, that a process in the
middle of `iget`, `idec` or `isync` owns the slot it works on, that whoever sleeps in `ilock` on a
slot finds `IWANT` set in it, and that the count of a slot is the number of processes waiting for it
and of references to it.  `iget` breaks it when it sets the count of a slot to 0 under processes
that have come to wait for it, by claiming it or by zeroing it after a failed read.
-/

namespace Micronix

/-- The slot for which a process waits in `ilock`. -/
def Stage.waits : Stage → Option ℕ
  | getWait i _ | lockWait i _ | flushWait i _ => some i
  | idle | getWrite _ _ | getRead _ _ | freeing _ | syncWrite _ | flushWrite _ _ => none

/-- The slot that a process has locked for block i/o. -/
def Stage.holds : Stage → Option ℕ
  | getWrite i _ | getRead i _ | freeing i | syncWrite i | flushWrite i _ => some i
  | idle | getWait _ _ | lockWait _ _ | flushWait _ _ => none

lemma Stage.holds_of_waits {k : Stage} {i : ℕ} (h : k.waits = some i) : k.holds = none := by
  cases k with
  | getWait | lockWait | flushWait | idle => rfl
  | getWrite | getRead | freeing | syncWrite | flushWrite => cases h

/-- `b` is `a`, or is reached from it through mounts: the root of the file system mounted on `a`, or
of the one mounted on that root, and so on. -/
def Resolves : List ((ℕ × ℕ) × ℕ) → ℕ × ℕ → ℕ × ℕ → Prop
  | [], a, b => a = b
  | (c, d) :: via, a, b => Resolves via a c ∧ b = (1, d)

/-- What an `iget` looks for now. -/
def Request.wanted (r : Request) : ℕ × ℕ := (r.num, r.dev)

/-- It looks for what it was called with, or for the root of what is mounted there. -/
def Request.Ok (r : Request) : Prop := Resolves r.via r.orig r.wanted

namespace Ilist

/-- What the stage of a process says about its request.  `iflush` never sleeps when it is called as
`umount` calls it. -/
def StageOk (s : Ilist) : Stage → Prop
  | .getWait i r | .getRead i r => s.tag i = r.wanted ∧ r.Ok
  | .getWrite _ r => r.Ok
  | .flushWait _ _ | .flushWrite _ _ => False
  | .lockWait i a => s.tag i = a
  | .idle | .freeing _ | .syncWrite _ => True

/-- The count of a slot is the number of processes that wait for it and of references to it. -/
def Counted (s : Ilist) (i : ℕ) : Prop :=
  (∃ W : Finset ℕ, (∀ p, p ∈ W ↔ (s.stage p).waits = some i) ∧
    (s.slot i).count = W.card + s.refs i) ∧ (s.slot i).count < 256

/-- The invariant. -/
structure Inv (s : Ilist) : Prop where
  busy : ∀ i, (s.slot i).busy = true ↔ s.own i ≠ none
  hold : ∀ p i, (s.stage p).holds = some i → s.own i = some p
  asleep : ∀ p i, s.event p = some i →
    (s.stage p).waits = some i ∧ (s.slot i).busy = true ∧ (s.slot i).want = true
  counted : ∀ i, s.Counted i
  stage : ∀ p, s.StageOk (s.stage p)

/-- An `iget` that has just returned gave a slot that its caller has locked, and that carries the
inode it asked for. -/
def LastOk (s : Ilist) : Prop :=
  ∀ p r i, s.last = some (p, r, some i) →
    s.own i = some p ∧ (s.slot i).busy = true ∧ Resolves r.via r.orig (s.tag i)

/-! ## The frame rule -/

/-- Everything but slot `i` and process `p` stays, except that others are woken. -/
structure Frame (s s' : Ilist) (i p : ℕ) : Prop where
  slot : ∀ j, j ≠ i → ∃ t, s'.slot j = { s.slot j with time := t }
  own : ∀ j, j ≠ i → s'.own j = s.own j
  refs : ∀ j, j ≠ i → s'.refs j = s.refs j
  stage : ∀ q, q ≠ p → s'.stage q = s.stage q
  event : ∀ q, q ≠ p → s'.event q = s.event q ∨ s'.event q = none

/-- What slot `i` and process `p` must satisfy among themselves. -/
structure Local (s s' : Ilist) (i p : ℕ) : Prop where
  busy : (s'.slot i).busy = true ↔ s'.own i ≠ none
  hold : ∀ j, (s'.stage p).holds = some j → s'.own j = some p
  other : ∀ q, q ≠ p → (s.stage q).holds = some i → s'.own i = some q
  asleep : ∀ j, s'.event p = some j →
    (s'.stage p).waits = some j ∧ (s'.slot j).busy = true ∧ (s'.slot j).want = true
  sleepers : ∀ q, q ≠ p → s'.event q = some i → (s'.slot i).busy = true ∧ (s'.slot i).want = true
  waits : (s.stage p).waits = none ∨ (s.stage p).waits = some i
  waits' : (s'.stage p).waits = none ∨ (s'.stage p).waits = some i
  counted : s'.Counted i
  stage : s'.StageOk (s'.stage p)
  tag : s'.tag i = s.tag i ∨
    ∀ q, q ≠ p → (s.stage q).waits ≠ some i ∧ (s.stage q).holds ≠ some i

variable {s s' : Ilist} {i j p : ℕ} {r : Request} {k : Stage}

/-- A stage whose slots keep their inodes. -/
lemma StageOk.congr (h : s.StageOk k)
    (ht : ∀ j, k.waits = some j ∨ k.holds = some j → s'.tag j = s.tag j) : s'.StageOk k := by
  cases k with
  | getWait j r => exact ⟨(ht j (Or.inl rfl)).trans h.1, h.2⟩
  | getRead j r => exact ⟨(ht j (Or.inr rfl)).trans h.1, h.2⟩
  | getWrite j r => exact h
  | lockWait j a => exact (ht j (Or.inl rfl)).trans h
  | flushWait j d => exact h
  | flushWrite j d => exact h
  | idle | freeing | syncWrite => trivial

/-- **The frame rule.** -/
theorem Inv.change (h : Inv s) (hf : Frame s s' i p) (hl : Local s s' i p) : Inv s' := by
  have htag : ∀ j, j ≠ i → s'.tag j = s.tag j := by
    intro j hj
    obtain ⟨t, e⟩ := hf.slot j hj
    rw [tag, tag, e]
  constructor
  · intro j
    by_cases hj : j = i
    · subst hj
      exact hl.busy
    · obtain ⟨t, e⟩ := hf.slot j hj
      rw [e, hf.own j hj]
      exact h.busy j
  · intro q j hq
    by_cases hqp : q = p
    · subst hqp
      exact hl.hold j hq
    · rw [hf.stage q hqp] at hq
      by_cases hj : j = i
      · subst hj
        exact hl.other q hqp hq
      · rw [hf.own j hj]
        exact h.hold q j hq
  · intro q j hq
    by_cases hqp : q = p
    · subst hqp
      exact hl.asleep j hq
    · have hs : s.event q = some j := by
        rcases hf.event q hqp with e | e
        · rw [← e, hq]
        · rw [e] at hq
          exact absurd hq (by simp)
      obtain ⟨hw, hb⟩ := h.asleep q j hs
      rw [hf.stage q hqp]
      refine ⟨hw, ?_⟩
      by_cases hj : j = i
      · subst hj
        exact hl.sleepers q hqp hq
      · obtain ⟨t, e⟩ := hf.slot j hj
        rw [e]
        exact hb
  · intro j
    by_cases hj : j = i
    · subst hj
      exact hl.counted
    · obtain ⟨⟨W, hW, hc⟩, hlt⟩ := h.counted j
      obtain ⟨t, e⟩ := hf.slot j hj
      refine ⟨⟨W, fun q => ?_, by rw [e, hf.refs j hj]; exact hc⟩, by rw [e]; exact hlt⟩
      by_cases hqp : q = p
      · subst hqp
        have hno : ∀ o : Option ℕ, o = none ∨ o = some i → o ≠ some j := by
          rintro o (rfl | rfl) <;> simp [Ne.symm hj]
        rw [hW q]
        exact iff_of_false (hno _ hl.waits) (hno _ hl.waits')
      · rw [hf.stage q hqp]
        exact hW q
  · intro q
    by_cases hqp : q = p
    · subst hqp
      exact hl.stage
    · have hq := h.stage q
      rw [hf.stage q hqp]
      refine hq.congr fun j hj => ?_
      by_cases e : j = i
      · subst e
        rcases hl.tag with e | e
        · exact e
        · rcases hj with hj | hj
          · exact absurd hj (e q hqp).1
          · exact absurd hj (e q hqp).2
      · exact htag j e

/-- The count of a slot when nobody comes or goes. -/
lemma Counted.congr (h : s.Counted i) (hc : (s'.slot i).count = (s.slot i).count)
    (hr : s'.refs i = s.refs i)
    (hw : ∀ q, (s'.stage q).waits = some i ↔ (s.stage q).waits = some i) : s'.Counted i := by
  obtain ⟨⟨W, hW, e⟩, hlt⟩ := h
  exact ⟨⟨W, fun q => (hW q).trans (hw q).symm, by rw [hc, hr, e]⟩, by rw [hc]; exact hlt⟩

/-- Nobody waits for a slot that counts 0. -/
lemma Counted.no_waits (h : s.Counted i) (hc : (s.slot i).count = 0) :
    s.refs i = 0 ∧ ∀ q, (s.stage q).waits ≠ some i := by
  obtain ⟨⟨W, hW, e⟩, -⟩ := h
  have hW0 : W = ∅ := Finset.card_eq_zero.mp (by omega)
  refine ⟨by omega, fun q hq => ?_⟩
  have := (hW q).mpr hq
  rw [hW0] at this
  exact absurd this (Finset.notMem_empty q)

/-- A change to one slot that concerns neither its lock nor its inode. -/
theorem Inv.update (h : Inv s) (hslot : ∀ j, j ≠ i → s'.slot j = s.slot j)
    (hbusy : (s'.slot i).busy = (s.slot i).busy) (hwant : (s'.slot i).want = (s.slot i).want)
    (htag : s'.tag i = s.tag i) (hown : s'.own = s.own) (hstage : s'.stage = s.stage)
    (hevent : s'.event = s.event) (hrefs : ∀ j, j ≠ i → s'.refs j = s.refs j)
    (hc : s'.Counted i) : Inv s' := by
  have htag' : ∀ j, s'.tag j = s.tag j := by
    intro j
    by_cases hj : j = i
    · rw [hj, htag]
    · rw [tag, tag, hslot j hj]
  constructor
  · intro j
    by_cases hj : j = i
    · rw [hj, hbusy, hown]
      exact h.busy i
    · rw [hslot j hj, hown]
      exact h.busy j
  · intro q j hq
    rw [hstage] at hq
    rw [hown]
    exact h.hold q j hq
  · intro q j hq
    rw [hevent] at hq
    rw [hstage]
    by_cases hj : j = i
    · subst hj
      rw [hbusy, hwant]
      exact h.asleep q j hq
    · rw [hslot j hj]
      exact h.asleep q j hq
  · intro j
    by_cases hj : j = i
    · exact hj ▸ hc
    · exact (h.counted j).congr (by rw [hslot j hj]) (hrefs j hj) fun q => by rw [hstage]
  · intro q
    rw [hstage]
    exact (h.stage q).congr fun j _ => htag' j

/-- A change to a slot that keeps the lock, the inode and the count. -/
lemma Inv.touch (h : Inv s) (f : Incore → Incore)
    (hf : ∀ x, (f x).inum = x.inum ∧ (f x).dev = x.dev ∧ (f x).busy = x.busy ∧
      (f x).want = x.want ∧ (f x).count = x.count) : Inv (s.modSlot i f) := by
  obtain ⟨h1, h2, h3, h4, h5⟩ := hf (s.slot i)
  exact h.update (i := i) (fun j hj => modSlot_ne s f hj) (by rw [modSlot_self, h3])
    (by rw [modSlot_self, h4]) (s.tag_modSlot i i f ⟨h1, h2⟩) rfl rfl rfl (fun _ _ => rfl)
    ((h.counted i).congr (by rw [modSlot_self, h5]) rfl fun _ => Iff.rfl)

lemma Inv.iio (h : Inv s) (i : ℕ) : Inv (s.iio i) :=
  h.touch _ fun _ => ⟨rfl, rfl, rfl, rfl, rfl⟩

lemma Inv.readNode (h : Inv s) (i : ℕ) (d : Bytes) : Inv (s.readNode i d) :=
  h.touch _ fun _ => ⟨rfl, rfl, rfl, rfl, rfl⟩

lemma Inv.writeNode (h : Inv s) (i : ℕ) : Inv (s.writeNode i) :=
  h.touch _ fun _ => ⟨rfl, rfl, rfl, rfl, rfl⟩

lemma Inv.ifree (h : Inv s) (i : ℕ) : Inv (s.ifree i) :=
  h.touch _ fun _ => ⟨rfl, rfl, rfl, rfl, rfl⟩

lemma Inv.modify (h : Inv s) (i : ℕ) (d : Bytes) (z : ℕ) : Inv (s.modify i d z) :=
  h.touch _ fun _ => ⟨rfl, rfl, rfl, rfl, rfl⟩

lemma Inv.graft (h : Inv s) (i d : ℕ) : Inv (s.graft i d) :=
  h.touch _ fun _ => ⟨rfl, rfl, rfl, rfl, rfl⟩

lemma Inv.prune (h : Inv s) (i : ℕ) : Inv (s.prune i) :=
  h.touch _ fun _ => ⟨rfl, rfl, rfl, rfl, rfl⟩

/-! ## What a running process does

A process that runs is `idle` until it sleeps again. -/

/-- A process that is in no routine does not sleep on a slot. -/
lemma Inv.awake (h : Inv s) (hp : (s.stage p).waits = none) : s.event p = none := by
  cases he : s.event p with
  | none => rfl
  | some i =>
      have := (h.asleep p i he).1
      rw [hp] at this
      exact absurd this (by simp)

/-- Nobody sleeps on a slot that is not locked. -/
lemma Inv.no_sleeper (h : Inv s) (hb : (s.slot i).busy = false) (q : ℕ) : s.event q ≠ some i := by
  intro e
  have := (h.asleep q i e).2.1
  rw [hb] at this
  exact absurd this (by simp)

/-- Two processes do not work on one slot. -/
lemma Inv.sole (h : Inv s) (ho : s.own i = some p) (q : ℕ) (hq : q ≠ p) :
    (s.stage q).holds ≠ some i := by
  intro e
  have := h.hold q i e
  rw [ho] at this
  exact hq (by simpa using this.symm)

lemma Inv.busy_of_own (h : Inv s) (ho : s.own i = some p) : (s.slot i).busy = true :=
  (h.busy i).mpr (by rw [ho]; simp)

/-- Going on at a stage that waits for no slot. -/
lemma Inv.goto (h : Inv s) (hp : (s.stage p).waits = none) (hk : k.waits = none)
    (hh : ∀ j, k.holds = some j → s.own j = some p) (ho : s.StageOk k) : Inv (s.goto p k) := by
  have hself : (s.goto p k).stage p = k := Function.update_self ..
  have hother : ∀ q, q ≠ p → (s.goto p k).stage q = s.stage q := fun q hq =>
    Function.update_of_ne hq ..
  have hev := h.awake hp
  refine h.change (i := 0) (p := p) ⟨fun j _ => ⟨(s.slot j).time, rfl⟩, fun _ _ => rfl, fun _ _ => rfl,
    hother, fun _ _ => Or.inl rfl⟩ ⟨h.busy 0, ?_, fun q _ => h.hold q 0, ?_,
    fun q _ hq => (h.asleep q 0 hq).2, Or.inl hp, Or.inl (by rw [hself, hk]), ?_, ?_,
    Or.inl rfl⟩
  · rw [hself]
    exact hh
  · intro j hj
    rw [show (s.goto p k).event p = s.event p from rfl, hev] at hj
    exact absurd hj (by simp)
  · refine (h.counted 0).congr rfl rfl fun q => ?_
    by_cases hq : q = p
    · subst hq
      rw [hself, hk, hp]
    · rw [hother q hq]
  · rw [hself]
    exact ho.congr fun _ _ => rfl

lemma lock_self (s : Ilist) (p i : ℕ) : (s.lock p i).slot i = { s.slot i with busy := true } :=
  Function.update_self ..

lemma lock_ne (s : Ilist) (p : ℕ) (h : j ≠ i) : (s.lock p i).slot j = s.slot j :=
  Function.update_of_ne h ..

lemma lock_own (s : Ilist) (p i : ℕ) : (s.lock p i).own i = some p := Function.update_self ..

/-- Locking a slot that is free. -/
lemma Inv.lock (h : Inv s) (hp : s.stage p = .idle) (hb : (s.slot i).busy = false) :
    Inv (s.lock p i) := by
  have hslot := s.lock_self p i
  have hown := s.lock_own p i
  have hn : s.own i = none := by
    by_contra hn
    have := (h.busy i).mpr hn
    rw [hb] at this
    exact absurd this (by simp)
  have hw : (s.stage p).waits = none := by rw [hp]; rfl
  refine h.change (i := i) (p := p) ⟨fun j hj => ⟨_, Function.update_of_ne hj ..⟩,
    fun j hj => Function.update_of_ne hj .., fun _ _ => rfl, fun _ _ => rfl,
    fun _ _ => Or.inl rfl⟩ ⟨?_, ?_, ?_, ?_, ?_, Or.inl hw, Or.inl hw, ?_,
    by rw [show (s.lock p i).stage p = s.stage p from rfl, hp]; trivial, Or.inl (s.lock_tag i i p)⟩
  · rw [hslot, hown]
    simp
  · intro j hj
    rw [show (s.lock p i).stage p = s.stage p from rfl, hp] at hj
    exact absurd hj (by simp [Stage.holds])
  · intro q _ hq
    have := h.hold q i hq
    rw [hn] at this
    exact absurd this (by simp)
  · intro j hj
    rw [show (s.lock p i).event p = s.event p from rfl, h.awake hw] at hj
    exact absurd hj (by simp)
  · exact fun q _ hq => absurd hq (h.no_sleeper hb q)
  · exact (h.counted i).congr (by rw [hslot]) rfl fun _ => Iff.rfl

/-- What `irelse` does besides the slots. -/
lemma irelse_rest (s : Ilist) (i : ℕ) :
    (s.irelse i).own = Function.update s.own i none ∧ (s.irelse i).refs = s.refs ∧
      (s.irelse i).stage = s.stage ∧ (s.irelse i).last = s.last ∧ (s.irelse i).mlook = s.mlook ∧
      (s.irelse i).event = if (s.slot i).want then (s.wakeup i).event else s.event := by
  unfold irelse itime
  by_cases hw : (s.slot i).want = true
  · simp only [hw, if_true]
    split_ifs <;> exact ⟨rfl, rfl, rfl, rfl, rfl, rfl⟩
  · simp only [hw]
    split_ifs <;> exact ⟨rfl, rfl, rfl, rfl, rfl, rfl⟩

/-- The slot itself. -/
lemma irelse_self (s : Ilist) (i : ℕ) :
    ∃ t, (s.irelse i).slot i = { s.slot i with busy := false, want := false, time := t } := by
  obtain ⟨f, hf⟩ := s.irelse_slot i
  refine ⟨f i, ?_⟩
  rw [hf]
  simp only [modSlot_self]

/-- The other slots. -/
lemma irelse_other (s : Ilist) (h : j ≠ i) :
    ∃ t, (s.irelse i).slot j = { s.slot j with time := t } := by
  obtain ⟨f, hf⟩ := s.irelse_slot i
  refine ⟨f j, ?_⟩
  rw [hf]
  simp only [modSlot_ne s _ h]

/-- Nobody sleeps on a slot that has just been released: whoever did had set `IWANT`. -/
lemma Inv.irelse_wakes (h : Inv s) (i q : ℕ) : (s.irelse i).event q ≠ some i := by
  obtain ⟨-, -, -, -, -, he⟩ := s.irelse_rest i
  rw [he]
  by_cases hw : (s.slot i).want = true
  · simp only [hw, if_true, wakeup]
    split_ifs with hq
    · simp
    · exact hq
  · simp only [hw]
    intro hq
    exact hw (h.asleep q i hq).2.2

/-- `irelse` wakes processes and puts none to sleep. -/
lemma irelse_event (s : Ilist) (i q : ℕ) :
    (s.irelse i).event q = s.event q ∨ (s.irelse i).event q = none := by
  obtain ⟨-, -, -, -, -, he⟩ := s.irelse_rest i
  rw [he]
  split_ifs
  · by_cases hq : s.event q = some i
    · right
      simp [wakeup, hq]
    · left
      simp [wakeup, hq]
  · exact Or.inl rfl

/-- Releasing a slot. -/
lemma Inv.irelse (h : Inv s) (hp : s.stage p = .idle) (ho : s.own i = some p) :
    Inv (s.irelse i) := by
  obtain ⟨hown, hrefs, hstage, -⟩ := s.irelse_rest i
  obtain ⟨t, ht⟩ := s.irelse_self i
  have hw : (s.stage p).waits = none := by rw [hp]; rfl
  refine h.change (i := i) (p := p) ⟨fun j hj => s.irelse_other hj,
    fun j hj => by rw [hown, Function.update_of_ne hj], fun j _ => by rw [hrefs],
    fun q _ => by rw [hstage], fun q _ => s.irelse_event i q⟩
    ⟨?_, ?_, ?_, ?_, ?_, Or.inl hw, Or.inl (by rw [hstage, hw]), ?_, ?_,
      Or.inl (s.irelse_tag i i)⟩
  · rw [ht, hown, Function.update_self]
    simp
  · intro j hj
    rw [hstage, hp] at hj
    exact absurd hj (by simp [Stage.holds])
  · exact fun q hq hh => absurd hh (h.sole ho q hq)
  · intro j hj
    rcases s.irelse_event i p with e | e
    · rw [e, h.awake hw] at hj
      exact absurd hj (by simp)
    · rw [e] at hj
      exact absurd hj (by simp)
  · exact fun q _ hq => absurd hq (h.irelse_wakes i q)
  · exact (h.counted i).congr (by rw [ht]) (by rw [hrefs]) fun q => by rw [hstage]
  · rw [hstage, hp]
    trivial

/-- Going to sleep on a slot that is locked. -/
lemma Inv.await (h : Inv s) (hp : s.stage p = .idle) (hb : (s.slot i).busy = true)
    (hc : (s.slot i).count < 255) (hk : k.waits = some i) (ho : s.StageOk k) :
    Inv (s.await p i k) := by
  have hslot : (s.await p i k).slot i
      = { s.slot i with count := ((s.slot i).count + 1) % 256, want := true } := by
    simp [Ilist.await, Ilist.sleep, Ilist.goto, modSlot]
  have hother : ∀ j, j ≠ i → (s.await p i k).slot j = s.slot j := fun j hj => by
    simp [Ilist.await, Ilist.sleep, Ilist.goto, modSlot, hj]
  have hstage : (s.await p i k).stage p = k := Function.update_self ..
  have hstage' : ∀ q, q ≠ p → (s.await p i k).stage q = s.stage q := fun q hq =>
    Function.update_of_ne hq ..
  have hev : (s.await p i k).event p = some i := Function.update_self ..
  have hev' : ∀ q, q ≠ p → (s.await p i k).event q = s.event q := fun q hq =>
    Function.update_of_ne hq ..
  have htag := s.await_tag i i p k
  have hw : (s.stage p).waits = none := by rw [hp]; rfl
  refine h.change (i := i) (p := p) ⟨fun j hj => ⟨(s.slot j).time, by rw [hother j hj]⟩,
    fun _ _ => rfl, fun _ _ => rfl, hstage', fun q hq => Or.inl (hev' q hq)⟩
    ⟨?_, ?_, fun q hq => h.hold q i, ?_, ?_, Or.inl hw, Or.inr (by rw [hstage, hk]), ?_, ?_,
      Or.inl htag⟩
  · rw [hslot]
    exact h.busy i
  · intro j hj
    rw [hstage, Stage.holds_of_waits hk] at hj
    exact absurd hj (by simp)
  · intro j hj
    rw [hev] at hj
    obtain rfl : i = j := by simpa using hj
    rw [hstage, hslot]
    exact ⟨hk, hb, rfl⟩
  · intro q _ _
    rw [hslot]
    exact ⟨hb, rfl⟩
  · obtain ⟨⟨W, hW, e⟩, -⟩ := h.counted i
    have hpW : p ∉ W := by
      rw [hW p, hw]
      simp
    refine ⟨⟨insert p W, fun q => ?_, ?_⟩, by rw [hslot]; exact Nat.mod_lt _ (by decide)⟩
    · by_cases hq : q = p
      · subst hq
        simp [hstage, hk]
      · rw [hstage' q hq, Finset.mem_insert, ← hW q]
        exact or_iff_right hq
    · rw [hslot, Finset.card_insert_of_notMem hpW]
      have hr : (s.await p i k).refs i = s.refs i := rfl
      rw [hr]
      change ((s.slot i).count + 1) % 256 = _
      omega
  · rw [hstage]
    exact ho.congr fun j _ => s.await_tag i j p k

/-- Going back to sleep. -/
lemma Inv.sleep (h : Inv s) (hk : (s.stage p).waits = some i) (hb : (s.slot i).busy = true) :
    Inv ((s.goto p .idle).sleep p i (s.stage p)) := by
  set t := (s.goto p .idle).sleep p i (s.stage p) with ht
  have hslot : t.slot i = { s.slot i with want := true } := Function.update_self ..
  have hother : ∀ j, j ≠ i → t.slot j = s.slot j := fun j hj => Function.update_of_ne hj ..
  have hstage : t.stage = s.stage := by
    simp [ht, Ilist.sleep, Ilist.goto, modSlot]
  have hev : t.event p = some i := Function.update_self ..
  have hev' : ∀ q, q ≠ p → t.event q = s.event q := fun q hq => Function.update_of_ne hq ..
  have htag : ∀ j, t.tag j = s.tag j := fun j => by simp [ht]
  refine h.change (i := i) (p := p) ⟨fun j hj => ⟨(s.slot j).time, by rw [hother j hj]⟩,
    fun _ _ => rfl, fun _ _ => rfl, fun q _ => by rw [hstage], fun q hq => Or.inl (hev' q hq)⟩
    ⟨?_, fun j hj => h.hold p j (by rw [← hstage]; exact hj), fun q hq => h.hold q i, ?_, ?_,
      Or.inr hk, Or.inr (by rw [hstage, hk]), ?_, ?_, Or.inl (htag i)⟩
  · rw [hslot]
    exact h.busy i
  · intro j hj
    rw [hev] at hj
    obtain rfl : i = j := by simpa using hj
    rw [hstage, hslot]
    exact ⟨hk, hb, rfl⟩
  · intro q _ _
    rw [hslot]
    exact ⟨hb, rfl⟩
  · exact (h.counted i).congr (by rw [hslot]) rfl fun q => by rw [hstage]
  · rw [hstage]
    exact (h.stage p).congr fun j _ => htag j

/-- Locking a slot for which the process has waited. -/
lemma Inv.relock (h : Inv s) (hk : (s.stage p).waits = some i) (he : s.event p = none)
    (hb : (s.slot i).busy = false) : Inv ((s.goto p .idle).relock p i) := by
  set t := (s.goto p .idle).relock p i with ht
  have hslot : t.slot i
      = { s.slot i with busy := true, count := ((s.slot i).count + 255) % 256 } := by
    simp [ht, Ilist.relock, Ilist.lock, Ilist.goto, modSlot]
  have hother : ∀ j, j ≠ i → t.slot j = s.slot j := fun j hj => by
    simp [ht, Ilist.relock, Ilist.lock, Ilist.goto, modSlot, hj]
  have hstage : t.stage p = .idle := Function.update_self ..
  have hstage' : ∀ q, q ≠ p → t.stage q = s.stage q := fun q hq => Function.update_of_ne hq ..
  have hown : t.own i = some p := Function.update_self ..
  have hev : t.event = s.event := rfl
  have htag : ∀ j, t.tag j = s.tag j := fun j => by simp [ht]
  have hn : s.own i = none := by
    by_contra hn
    have := (h.busy i).mpr hn
    rw [hb] at this
    exact absurd this (by simp)
  refine h.change (i := i) (p := p) ⟨fun j hj => ⟨(s.slot j).time, by rw [hother j hj]⟩,
    fun j hj => Function.update_of_ne hj .., fun _ _ => rfl, hstage', fun q _ => Or.inl rfl⟩
    ⟨?_, ?_, ?_, ?_, ?_, Or.inr hk, Or.inl (by rw [hstage]; rfl), ?_, by rw [hstage]; trivial,
      Or.inl (htag i)⟩
  · rw [hslot, hown]
    simp
  · intro j hj
    rw [hstage] at hj
    exact absurd hj (by simp [Stage.holds])
  · intro q _ hq
    have := h.hold q i hq
    rw [hn] at this
    exact absurd this (by simp)
  · intro j hj
    rw [hev, he] at hj
    exact absurd hj (by simp)
  · exact fun q _ hq => absurd hq (h.no_sleeper hb q)
  · obtain ⟨⟨W, hW, e⟩, hlt⟩ := h.counted i
    have hpW : p ∈ W := (hW p).mpr hk
    have hpos := Finset.card_pos.mpr ⟨p, hpW⟩
    refine ⟨⟨W.erase p, fun q => ?_, ?_⟩, by rw [hslot]; exact Nat.mod_lt _ (by decide)⟩
    · by_cases hq : q = p
      · subst hq
        simp [hstage, Stage.waits]
      · rw [hstage' q hq, Finset.mem_erase, ← hW q]
        exact and_iff_right hq
    · rw [hslot, Finset.card_erase_of_mem hpW]
      change ((s.slot i).count + 255) % 256 = W.card - 1 + s.refs i
      omega

/-- Giving a slot to another inode. -/
lemma Inv.retag (h : Inv s) (hp : s.stage p = .idle) (ho : s.own i = some p)
    (hc : (s.slot i).count = 0) : Inv (s.retag i r) := by
  obtain ⟨hr, hno⟩ := (h.counted i).no_waits hc
  have hslot : (s.retag i r).slot i
      = { s.slot i with inum := r.num, dev := r.dev, count := 0, mount := none } :=
    Function.update_self ..
  have hw : (s.stage p).waits = none := by rw [hp]; rfl
  have hstage : (s.retag i r).stage p = .idle := hp
  refine h.change (i := i) (p := p) ⟨fun j hj => ⟨_, Function.update_of_ne hj ..⟩,
    fun _ _ => rfl, fun _ _ => rfl, fun _ _ => rfl, fun _ _ => Or.inl rfl⟩
    ⟨?_, h.hold p, fun q _ hq => h.hold q i hq, ?_, ?_, Or.inl hw, Or.inl hw, ?_,
      by rw [hstage]; trivial, Or.inr fun q hq => ⟨hno q, h.sole ho q hq⟩⟩
  · rw [hslot]
    exact h.busy i
  · intro j hj
    exact absurd (hj.symm.trans (h.awake hw)) (by simp)
  · exact fun q _ hq => absurd (h.asleep q i hq).1 (hno q)
  · exact (h.counted i).congr (by rw [hslot, hc]) rfl fun _ => Iff.rfl

/-- Zeroing a slot, which also releases it. -/
lemma Inv.zeroed (h : Inv s) (hp : s.stage p = .idle) (ho : s.own i = some p)
    (hc : (s.slot i).count = 0) (hslot : ∃ t, s'.slot i = { Incore.zero with time := t })
    (hother : ∀ j, j ≠ i → ∃ t, s'.slot j = { s.slot j with time := t })
    (hown : s'.own = Function.update s.own i none) (hrefs : s'.refs = s.refs)
    (hstage : s'.stage = s.stage) 
    (hev : ∀ q, s'.event q = s.event q ∨ s'.event q = none) : Inv s' := by
  obtain ⟨hr, hno⟩ := (h.counted i).no_waits hc
  obtain ⟨t, ht⟩ := hslot
  have hw : (s.stage p).waits = none := by rw [hp]; rfl
  have hsleep : ∀ q, s'.event q ≠ some i := by
    intro q hq
    rcases hev q with e | e
    · rw [e] at hq
      exact hno q (h.asleep q i hq).1
    · rw [e] at hq
      exact absurd hq (by simp)
  refine h.change (i := i) (p := p) ⟨hother, fun j hj => by rw [hown, Function.update_of_ne hj],
    fun _ _ => by rw [hrefs], fun _ _ => by rw [hstage], fun q _ => hev q⟩
    ⟨?_, ?_, fun q hq hh => absurd hh (h.sole ho q hq), ?_, fun q _ hq => absurd hq (hsleep q),
      Or.inl hw, Or.inl (by rw [hstage, hw]), ?_, by rw [hstage, hp]; trivial,
      Or.inr fun q hq => ⟨hno q, h.sole ho q hq⟩⟩
  · rw [ht, hown, Function.update_self]
    simp [Incore.zero]
  · intro j hj
    rw [hstage, hp] at hj
    exact absurd hj (by simp [Stage.holds])
  · intro j hj
    rcases hev p with e | e
    · rw [e, h.awake hw] at hj
      exact absurd hj (by simp)
    · rw [e] at hj
      exact absurd hj (by simp)
  · refine (h.counted i).congr ?_ (by rw [hrefs]) fun q => by rw [hstage]
    rw [ht, hc]
    rfl

/-- After a failed read `iget` zeroes the slot and then releases it. -/
lemma Inv.giveUp (h : Inv s) (hp : s.stage p = .idle) (ho : s.own i = some p)
    (hc : (s.slot i).count = 0) : Inv ((s.modSlot i fun _ => Incore.zero).irelse i) := by
  set t := s.modSlot i fun _ => Incore.zero with ht
  obtain ⟨hown, hrefs, hstage, -⟩ := t.irelse_rest i
  refine h.zeroed hp ho hc ?_ (fun j hj => ?_) hown hrefs hstage (t.irelse_event i)
  · obtain ⟨u, hu⟩ := t.irelse_self i
    refine ⟨u, ?_⟩
    rw [hu, ht, modSlot_self]
    rfl
  · obtain ⟨u, hu⟩ := t.irelse_other hj
    refine ⟨u, ?_⟩
    rw [hu, ht, modSlot_ne s _ hj]

/-- `iflush` releases the slot and then zeroes it. -/
lemma Inv.expel (h : Inv s) (hp : s.stage p = .idle) (ho : s.own i = some p)
    (hc : (s.slot i).count = 0) : Inv (s.expel i) := by
  obtain ⟨hown, hrefs, hstage, -⟩ := s.irelse_rest i
  refine h.zeroed hp ho hc ⟨0, ?_⟩ (fun j hj => ?_) hown hrefs hstage (s.irelse_event i)
  · exact modSlot_self ..
  · obtain ⟨u, hu⟩ := s.irelse_other hj
    exact ⟨u, (modSlot_ne (s.irelse i) _ hj).trans hu⟩

/-- The victim is the best of the slots that are neither in use nor locked. -/
lemma victim_search (s : Ilist) :
    ∃ f, Searches (fun i => (s.slot i).count = 0 ∧ (s.slot i).busy = false) f ∧
      s.victim = (List.range s.n).foldl f none := by
  refine ⟨_, ⟨fun best i hi => if_pos ?_, fun i hi => if_neg ?_, fun a i hi => ?_⟩, rfl⟩
  · rw [Bool.or_eq_true, decide_eq_true_eq]
    by_contra hno
    obtain ⟨hcount, hbusy⟩ := not_or.mp hno
    exact hi ⟨Nat.eq_zero_of_not_pos hcount, Bool.eq_false_iff.mpr hbusy⟩
  · simp [hi.1, hi.2]
  · dsimp only
    rw [hi.1, hi.2]
    simp only [gt_iff_lt, Nat.lt_irrefl, decide_false, Bool.or_self, Bool.false_eq_true, if_false]
    split_ifs
    · exact .inr rfl
    · exact .inl rfl

/-- `victim` finds a slot that is neither in use nor locked, if there is one. -/
lemma victim_cases (s : Ilist) :
    (∀ f, s.victim = some f → f < s.n ∧ ((s.slot f).count = 0 ∧ (s.slot f).busy = false)) ∧
      (s.victim = none → ∀ i < s.n, ¬((s.slot i).count = 0 ∧ (s.slot i).busy = false)) := by
  obtain ⟨g, hg, hv⟩ := s.victim_search
  refine ⟨fun f hf => ?_, fun hnone i hi =>
    (hg.not_found _ none (hv.symm.trans hnone)).2 i (List.mem_range.mpr hi)⟩
  obtain hnone | ⟨hmem, hfree⟩ := hg.found _ none (hv.symm.trans hf)
  · cases hnone
  · exact ⟨List.mem_range.mp hmem, hfree⟩

/-- A victim is neither in use nor locked. -/
lemma victim_spec {f : ℕ} (h : s.victim = some f) :
    (s.slot f).count = 0 ∧ (s.slot f).busy = false := (s.victim_cases.1 f h).2

end Ilist

end Micronix
