import Micronix.Mem.Sharing

/-!
# Memory over whole runs

Every step of the processes and of the swapper keeps the invariant of `Sharing`, so it is true of
every state that is reached from the one after `pinit` and `meminit`.
-/

namespace Micronix.Memory

open Transition

variable {bad : ℕ → Bool} {s s' : State} {a c blk : ℕ}

/-- After `pinit` and `meminit`. -/
lemma Start.inv (h : Start bad s) : Inv bad s := by
  subst h
  have hzero : ∀ x ≠ 0, (if x = 0 then pinit else Proc.zero) = Proc.zero := fun x hx => if_neg hx
  have hshape : Shape pinit := ⟨fun i _ => Or.inl rfl, rfl, rfl, by decide⟩
  refine ⟨⟨?_, Nat.le_refl 16, show 16 ≤ maxseg by decide⟩, ?_, rfl, rfl, ?_, ?_, ?_, ?_⟩
  · show ((Finset.Ico 16 maxseg).filter _).card = ((Finset.Ico 16 maxseg).filter _).card
    refine congrArg Finset.card (Finset.filter_congr fun n hn => ?_)
    have := Finset.mem_Ico.mp hn
    simp [meminit, this.1, this.2]
  · intro n hn hn' hb
    simp [meminit, hn, hn', hb]
  · intro x hx
    by_cases h0 : x = 0
    · subst h0
      exact hshape
    · dsimp only at hx
      rw [hzero x h0] at hx
      exact hx.elim
  · intro x h0 hx
    dsimp only at hx
    rw [hzero x h0] at hx
    rcases hx with hx | hx <;> cases hx
  · intro x h0 hx
    dsimp only at hx
    rw [hzero x h0] at hx
    exact hx.elim
  · intro x h0 y _ _ hx
    dsimp only at hx
    rw [hzero x h0] at hx
    exact hx.elim

/-- The swapper is always in core. -/
lemma Inv.ne_zero (h : Inv bad s) (hst : (s.proc a).stat ≠ .core) : a ≠ 0 := by
  rintro rfl
  exact hst h.core

/-- A process that runs is not asleep in `grow`. -/
lemma Proc.Runs.awake {p : Proc} (h : p.Runs) : ∀ i, p.sleep ≠ .grow i := by
  intro i hi
  rw [h.2] at hi
  cases hi

/-- `fork` up to the sleep. -/
lemma Inv.procopy (h : Inv bad s) (hr : (s.proc a).Runs) (hf : (s.proc c).stat = .free) :
    Inv bad (procopy s a c blk) := by
  have hc0 : c ≠ 0 := h.ne_zero (by rw [hf]; decide)
  have hac : a ≠ c := by
    rintro rfl
    rw [hr.1] at hf
    cases hf
  have hs : Shape (s.proc a) := h.shape a (by rw [hr.1]; trivial)
  rw [Memory.procopy]
  split
  · rename_i r hget
    have hs' : Shape { s.proc a with stat := .core } := hs.congr (fun _ => rfl) rfl
    exact h.put hc0 (Trade.mget h.books hs' hget).1
  · split
    · exact h.put hc0 (.gone h.books False.elim id)
    · have hchild := h.put hc0 (y := { s.proc a with stat := .forked, swap := blk })
        (.gone h.books (fun _ => hs.congr (fun _ => rfl) rfl) id)
      have hsame : (s.put c (s.pool, { s.proc a with stat := .forked, swap := blk })).proc a =
          s.proc a := by
        simp [State.put, hac]
      have := hchild.sleep (a := a) (w := .fork c) (by rw [hsame]; exact hr.awake)
      rwa [hsame] at this

/-- `fork` after the sleep. -/
lemma Inv.forked (h : Inv bad s) (hw : (s.proc a).sleep = .fork c)
    (hf : (s.proc c).stat = .forked) :
    Inv bad ((s.put c (s.pool, { s.proc c with stat := .swapped })).put a
      (s.pool, { s.proc a with sleep := .no })) := by
  have hawake : ∀ i, (s.proc a).sleep ≠ .grow i := by
    intro i hi
    rw [hw] at hi
    cases hi
  by_cases hac : a = c
  · subst hac
    rw [put_put]
    exact h.sleep hawake
  · have hc0 : c ≠ 0 := h.ne_zero (by rw [hf]; decide)
    have hs : Shape (s.proc c) := h.shape c (by rw [hf]; trivial)
    have hchild := h.put hc0 (y := { s.proc c with stat := .swapped })
      (.gone h.books (fun _ => hs.congr (fun _ => rfl) rfl) id)
    have hsame : (s.put c (s.pool, { s.proc c with stat := .swapped })).proc a = s.proc a := by
      simp [State.put, hac]
    have := hchild.sleep (a := a) (w := .no) (by rw [hsame]; exact hawake)
    rwa [hsame] at this

/-- **The step.** -/
theorem Inv.step {l : Label} (h : Inv bad s) (he : step s l = some s') : Inv bad s' := by
  cases l with
  | fork x c blk =>
      simp only [Memory.step, Option.ite_none_right_eq_some, Option.some.injEq] at he
      obtain ⟨⟨hr, hf⟩, rfl⟩ := he
      exact h.procopy hr hf
  | forked x =>
      simp only [Memory.step] at he
      split at he
      · rename_i c hw
        simp only [Option.ite_none_right_eq_some, Option.some.injEq] at he
        obtain ⟨hf, rfl⟩ := he
        exact h.forked hw hf
      · cases he
  | exec x =>
      simp only [Memory.step, Option.ite_none_right_eq_some, Option.some.injEq] at he
      obtain ⟨⟨h0, hr⟩, rfl⟩ := he
      obtain ⟨hs, hl, ho⟩ := h.of_core h0 hr.1
      exact h.put h0 (.mrelse h.books hr hs hl ho)
  | grow x seg b t =>
      simp only [Memory.step, Option.ite_none_right_eq_some, Option.some.injEq] at he
      obtain ⟨⟨h0, hr, hseg⟩, rfl⟩ := he
      exact h.grow h0 hr hseg
  | wake x =>
      simp only [Memory.step, Option.ite_none_right_eq_some, Option.some.injEq] at he
      obtain ⟨⟨h0, hc, -⟩, rfl⟩ := he
      exact h.growOn h0 hc
  | exit x =>
      simp only [Memory.step, Option.ite_none_right_eq_some, Option.some.injEq] at he
      obtain ⟨⟨h0, hr⟩, rfl⟩ := he
      obtain ⟨-, -, ho⟩ := h.of_core h0 hr.1
      exact h.put h0 (.mfree h.books (by rw [hr.1]; trivial) ho rfl id False.elim)
  | reap x =>
      simp only [Memory.step, Option.ite_none_right_eq_some, Option.some.injEq] at he
      obtain ⟨hz, rfl⟩ := he
      have h0 : x ≠ 0 := h.ne_zero (by rw [hz]; decide)
      exact h.put h0 (.gone h.books False.elim id)
  | swapout x blk =>
      simp only [Memory.step, Option.ite_none_right_eq_some, Option.some.injEq] at he
      obtain ⟨⟨h0, hc, -⟩, rfl⟩ := he
      obtain ⟨hs, hl, ho⟩ := h.of_core h0 hc
      have hholds : (s.proc x).stat.Holds := by
        rw [hc]
        trivial
      refine h.put h0 ?_
      rw [swapout]
      split
      · -- without swap space the process stays, and may not find itself swapped out
        refine .still h.books (fun _ => hs.congr (fun _ => rfl) rfl)
          (fun _ => hl.congr rfl fun i hi => ?_) fun _ => ⟨hholds, ho, fun _ => rfl⟩
        exact hi.imp_right fun hi => ⟨hi.1, rfl⟩
      · refine .still h.books (fun _ => hs.congr (fun _ => rfl) rfl) ?_
          fun _ => ⟨hholds, ho, fun _ => rfl⟩
        rintro (hc | hc) <;> cases hc
  | swappedOut x =>
      simp only [Memory.step, Option.ite_none_right_eq_some, Option.some.injEq] at he
      obtain ⟨hst, rfl⟩ := he
      have h0 : x ≠ 0 := h.ne_zero (by rw [hst]; decide)
      have hholds : (s.proc x).stat.Holds := by
        rw [hst]
        trivial
      have hs : Shape (s.proc x) := h.shape x (by rw [hst]; trivial)
      exact h.put h0 (.mfree h.books hholds (h.owns x h0 hholds) rfl id
        fun _ => hs.congr (fun _ => rfl) rfl)
  | swapin x =>
      simp only [Memory.step, Option.ite_none_right_eq_some, Option.some.injEq] at he
      obtain ⟨hst, rfl⟩ := he
      have h0 : x ≠ 0 := h.ne_zero (by rw [hst]; decide)
      have hs : Shape (s.proc x) := h.shape x (by rw [hst]; trivial)
      split
      · rename_i r hget
        have hs' : Shape { s.proc x with stat := .entering } := hs.congr (fun _ => rfl) rfl
        exact h.put h0 (Trade.mget h.books hs' hget).1
      · exact h
  | swappedIn x =>
      simp only [Memory.step, Option.ite_none_right_eq_some, Option.some.injEq] at he
      obtain ⟨hst, rfl⟩ := he
      have h0 : x ≠ 0 := h.ne_zero (by rw [hst]; decide)
      have hholds : (s.proc x).stat.Holds := by
        rw [hst]
        trivial
      have hs : Shape (s.proc x) := h.shape x (by rw [hst]; trivial)
      have hl : Layout (s.proc x) := h.layout x h0 (Or.inr hst)
      exact h.put h0 (.still h.books (fun _ => hs.congr (fun _ => rfl) rfl)
        (fun _ => hl.congr rfl fun i hi => hi)
        fun _ => ⟨hholds, h.owns x h0 hholds, fun _ => rfl⟩)

/-- The swapper's own segments are below the map. -/
lemma swapper_seg {i : ℕ} (hi : i < 17) : (pinit.mem i).seg < 16 := by
  show (if i = 16 then userseg else i) < 16
  rw [userseg]
  split <;> omega

/-- **Memory segments.**  In every state reached, `nsegs` is the number of free segments, a bad one
is never free, `p->nsegs` of a process in core is the number of its `FULL` entries and one for its
`GROW` entries, and no two processes in core have a segment in common.  But for the swapper, a
`FULL` entry has a segment of its own once `grow` is done with it, and the `GROW` entries have one
together. -/
theorem segments (h : Reachable step (Start bad) s) :
    s.pool.nsegs = ((Finset.Ico 16 maxseg).filter fun n => s.pool.segmap n = false).card ∧
    (∀ n, 16 ≤ n → n < maxseg → bad n = true → s.pool.segmap n = true) ∧
    (∀ x, (s.proc x).stat = .core →
      (s.proc x).nsegs = (s.proc x).fulls + if (s.proc x).Grows then 1 else 0) ∧
    (∀ x ≠ 0, (s.proc x).stat = .core → ∀ i < 17, ((s.proc x).mem i).per = .full →
      ((s.proc x).sleep = .grow i → (s.proc x).swap ≠ 0) → ∀ j < 17,
      ((s.proc x).mem i).seg = ((s.proc x).mem j).seg → i = j) ∧
    (∀ x, (s.proc x).stat = .core → ∀ i < 17, ∀ j < 17, ((s.proc x).mem i).per = .grow →
      ((s.proc x).mem j).per = .grow → ((s.proc x).mem i).seg = ((s.proc x).mem j).seg) ∧
    ∀ x y, x ≠ y → (s.proc x).stat = .core → (s.proc y).stat = .core → ∀ i < 17, ∀ j < 17,
      ((s.proc x).mem i).seg ≠ ((s.proc y).mem j).seg := by
  have hi : Inv bad s := h.invariant (fun _ => Start.inv) fun _ _ _ hi _ he => hi.step he
  have halive : ∀ x, (s.proc x).stat = .core → (s.proc x).stat.Alive ∧ (s.proc x).stat.Holds := by
    intro x hx
    rw [hx]
    exact ⟨trivial, trivial⟩
  have hswapper : ∀ i < 17, ((s.proc 0).mem i).seg < 16 := by
    intro i hlt
    rw [hi.swapper]
    exact swapper_seg hlt
  have hothers : ∀ x ≠ 0, (s.proc x).stat = .core → ∀ i < 17, 16 ≤ ((s.proc x).mem i).seg :=
    fun x h0 hx i hlt => ((hi.owns x h0 (halive x hx).2).inMap i hlt).1
  refine ⟨hi.books.nsegs, hi.defects, fun x hx => (hi.shape x (halive x hx).1).nsegs, ?_, ?_, ?_⟩
  · intro x h0 hx i hlt hp hw j hlt' he
    refine (hi.layout x h0 (Or.inl hx)).own hlt hlt' ?_ he
    rintro (hp' | ⟨hs, hswap⟩)
    · rw [hp] at hp'
      cases hp'
    · exact hw hs hswap
  · intro x hx i hlt j hlt' hpi hpj
    by_cases h0 : x = 0
    · subst h0
      rw [hi.swapper] at hpi
      cases hpi
    · exact (hi.layout x h0 (Or.inl hx)).grow i hlt j hlt' hpi hpj
  · intro x y hxy hx hy i hlt j hlt' he
    by_cases hx0 : x = 0
    · subst hx0
      have h1 := hswapper i hlt
      have h2 := hothers y hxy.symm hy j hlt'
      omega
    · by_cases hy0 : y = 0
      · subst hy0
        have h1 := hswapper j hlt'
        have h2 := hothers x hx0 hx i hlt
        omega
      · exact hi.apart x hx0 y hy0 hxy (halive x hx).2 (halive y hy).2 i hlt j hlt' he

/-- A machine with 17 good segments. -/
def small (n : ℕ) : Bool := decide (33 ≤ n)

/-- The state after `pinit` and `meminit` there. -/
def smallStart : State := ⟨meminit small, fun x => if x = 0 then pinit else .zero⟩

/-- The first process, `exec`, a child of it, and the child using up the memory. -/
def usedUp : List Label :=
  [.fork 0 1 0, .exec 1, .fork 1 2 0] ++ (List.range 12).map fun i => .grow 2 i 15 0

theorem segments_usedUp : ∃ s, run step (fun _ _ => True) smallStart usedUp = some s ∧
    s.pool.nsegs = ((Finset.Ico 16 maxseg).filter fun n => s.pool.segmap n = false).card ∧
    (s.proc 2).nsegs = (s.proc 2).fulls + (if (s.proc 2).Grows then 1 else 0) := by
  have hsome : ((run step (fun _ _ => True) smallStart usedUp).map fun s => (s.proc 2).stat) =
      some .core := by decide +kernel
  obtain ⟨s, hs, hc⟩ := Option.map_eq_some_iff.mp hsome
  have h := segments (Reach.of_run rfl hs)
  exact ⟨s, hs, h.1, h.2.2.1 2 hc⟩

/-- The swapper's user structure is in a segment of its address space; and a process that waits in
`grow` has a `FULL` entry with the segment that its `GROW` entries have. -/
theorem grow_waits_shared :
    (∃ s, Reachable step (Start small) s ∧ (s.proc 0).stat = .core ∧
      (s.proc 0).mem 3 = ⟨3, .full⟩ ∧ (s.proc 0).mem 16 = ⟨3, .full⟩) ∧
    ∃ s, Reachable step (Start small) s ∧ (s.proc 2).stat = .core ∧
      (s.proc 2).mem 11 = ⟨30, .full⟩ ∧ (s.proc 2).mem 12 = ⟨30, .grow⟩ := by
  refine ⟨⟨smallStart, .start rfl, by decide, by decide, by decide⟩, ?_⟩
  have hrun : ((run step (fun _ _ => True) smallStart usedUp).map fun s =>
      ((s.proc 2).stat, (s.proc 2).mem 11, (s.proc 2).mem 12)) =
      some (.core, ⟨30, .full⟩, ⟨30, .grow⟩) := by
    decide +kernel
  obtain ⟨s, hs, he⟩ := Option.map_eq_some_iff.mp hrun
  simp only [Prod.mk.injEq] at he
  exact ⟨s, .of_run rfl hs, he.1, he.2.1, he.2.2⟩

end Micronix.Memory
