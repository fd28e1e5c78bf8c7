import Micronix.Inode.Iget
import Micronix.Lib.Transition
import Mathlib.Tactic.Common

/-!
# No inode is in core twice

A slot takes a number over only after a search that did not find it, except in one place: when the
victim has to be written, `iget` sleeps in `iio` and claims the slot without a new search.
`Fresh` are the steps in which that search would still find nothing.
-/

namespace Micronix

/-- The request for which a process writes its victim. -/
def Stage.writes : Stage → Option Request
  | getWrite _ r => some r
  | _ => none

namespace Ilist

/-- The same tags but for slots that have been zeroed. -/
structure Keeps (s s' : Ilist) : Prop where
  n : s'.n = s.n
  tag : ∀ i, s'.tag i = s.tag i ∨ (s'.slot i).inum = 0

/-! ## What keeps the tags -/

section Fields

variable (s : Ilist) (i j p : ℕ) (k : Stage) (r : Request) (o : Option ℕ) (d : Bytes)

@[simp] lemma modSlot_self (f : Incore → Incore) : (s.modSlot i f).slot i = f (s.slot i) :=
  Function.update_self ..

variable {i j} in
lemma modSlot_ne (f : Incore → Incore) (h : j ≠ i) : (s.modSlot i f).slot j = s.slot j :=
  Function.update_of_ne h ..

lemma tag_modSlot (f : Incore → Incore)
    (h : (f (s.slot i)).inum = (s.slot i).inum ∧ (f (s.slot i)).dev = (s.slot i).dev) :
    (s.modSlot i f).tag j = s.tag j := by
  by_cases hj : j = i
  · subst hj
    rw [tag, tag, modSlot_self, h.1, h.2]
  · rw [tag, tag, modSlot_ne s f hj]

lemma itime_eq : ∃ f : ℕ → ℕ, (s.itime i).slot = fun j => { s.slot j with time := f j } := by
  by_cases h : (s.icount + 1) % 65536 = 0
  · refine ⟨fun _ => 0, ?_⟩
    unfold itime
    simp only [h, if_true]
    funext j
    by_cases hj : j = i
    · subst hj
      simp [modSlot]
    · simp [modSlot]
  · refine ⟨Function.update (fun j => (s.slot j).time) i ((s.icount + 1) % 65536), ?_⟩
    unfold itime
    simp only [h, if_false]
    funext j
    by_cases hj : j = i
    · subst hj
      simp [modSlot]
    · simp [modSlot, hj]

/-- What `irelse` does to the slots, but for the times. -/
lemma irelse_slot : ∃ f : ℕ → ℕ, (s.irelse i).slot = fun j =>
    { (s.modSlot i fun x => { x with busy := false, want := false }).slot j with time := f j } := by
  unfold irelse
  by_cases hw : (s.slot i).want = true
  · simp only [hw, if_true]
    exact itime_eq _ i
  · simp only [hw]
    exact itime_eq _ i

@[simp] lemma irelse_tag : (s.irelse i).tag j = s.tag j := by
  obtain ⟨f, hf⟩ := s.irelse_slot i
  rw [← s.tag_modSlot i j (fun x => { x with busy := false, want := false }) ⟨rfl, rfl⟩, tag, tag,
    hf]

@[simp] lemma irelse_n : (s.irelse i).n = s.n := by
  unfold irelse itime
  by_cases hw : (s.slot i).want = true
  · simp only [hw, if_true]
    split_ifs <;> rfl
  · simp only [hw]
    split_ifs <;> rfl

@[simp] lemma goto_tag : (s.goto p k).tag j = s.tag j := rfl
@[simp] lemma ret_tag : (s.ret p r o).tag j = s.tag j := rfl
@[simp] lemma lock_tag : (s.lock p i).tag j = s.tag j :=
  s.tag_modSlot i j (fun x => { x with busy := true }) ⟨rfl, rfl⟩

@[simp] lemma sleep_tag : (s.sleep p i k).tag j = s.tag j :=
  s.tag_modSlot i j (fun x => { x with want := true }) ⟨rfl, rfl⟩

@[simp] lemma iio_tag : (s.iio i).tag j = s.tag j := s.tag_modSlot i j _ ⟨rfl, rfl⟩
@[simp] lemma readNode_tag : (s.readNode i d).tag j = s.tag j := s.tag_modSlot i j _ ⟨rfl, rfl⟩
@[simp] lemma writeNode_tag : (s.writeNode i).tag j = s.tag j := s.tag_modSlot i j _ ⟨rfl, rfl⟩
@[simp] lemma ifree_tag : (s.ifree i).tag j = s.tag j := s.tag_modSlot i j _ ⟨rfl, rfl⟩

@[simp] lemma await_tag : (s.await p i k).tag j = s.tag j := by
  rw [await, sleep_tag]
  exact s.tag_modSlot i j _ ⟨rfl, rfl⟩

@[simp] lemma relock_tag : (s.relock p i).tag j = s.tag j :=
  ((s.lock p i).tag_modSlot i j _ ⟨rfl, rfl⟩).trans (lock_tag s i j p)

@[simp] lemma ref_tag : (s.ref i).tag j = s.tag j :=
  s.tag_modSlot i j (fun x => { x with count := (x.count + 1) % 256 }) ⟨rfl, rfl⟩

@[simp] lemma unref_tag : (s.unref i).tag j = s.tag j :=
  s.tag_modSlot i j (fun x => { x with count := (x.count + 255) % 256 }) ⟨rfl, rfl⟩

@[simp] lemma modify_tag (z : ℕ) : (s.modify i d z).tag j = s.tag j :=
  s.tag_modSlot i j _ ⟨rfl, rfl⟩

@[simp] lemma graft_tag (z : ℕ) : (s.graft i z).tag j = s.tag j := s.tag_modSlot i j _ ⟨rfl, rfl⟩

@[simp] lemma prune_tag : (s.prune i).tag j = s.tag j := s.tag_modSlot i j _ ⟨rfl, rfl⟩

end Fields

variable {s s' t : Ilist} {i j p : ℕ} {r : Request}

lemma Keeps.refl (s : Ilist) : Keeps s s := ⟨rfl, fun _ => Or.inl rfl⟩

lemma Keeps.of_tag (hn : s'.n = s.n) (ht : ∀ i, s'.tag i = s.tag i) : Keeps s s' :=
  ⟨hn, fun i => Or.inl (ht i)⟩

lemma Keeps.trans (h : Keeps s t) (h' : Keeps t s') : Keeps s s' := by
  refine ⟨h'.n.trans h.n, fun i => ?_⟩
  rcases h'.tag i with e | e
  · rcases h.tag i with e' | e'
    · exact Or.inl (e.trans e')
    · right
      rw [← show (s'.tag i).1 = 0 from (congrArg Prod.fst e).trans e']
      rfl
  · exact Or.inr e

/-- Zeroing a slot. -/
lemma Keeps.zero (s : Ilist) (i : ℕ) : Keeps s (s.modSlot i fun _ => Incore.zero) := by
  refine ⟨rfl, fun j => ?_⟩
  by_cases hj : j = i
  · subst hj
    right
    rw [modSlot_self]
    rfl
  · left
    rw [Ilist.tag, Ilist.tag, modSlot_ne s _ hj]

lemma Keeps.irelse (s : Ilist) (i : ℕ) : Keeps s (s.irelse i) :=
  .of_tag (s.irelse_n i) fun j => s.irelse_tag i j

lemma Keeps.expel (s : Ilist) (i : ℕ) : Keeps s (s.expel i) := (Keeps.irelse s i).trans (.zero _ i)

lemma Keeps.giveUp (s : Ilist) (p i : ℕ) (r : Request) : Keeps s (s.giveUp p i r) :=
  (Keeps.zero s i).trans ((Keeps.irelse _ i).trans (.of_tag rfl fun _ => rfl))

lemma Uniq.keeps (h : Uniq s) (hk : Keeps s s') : Uniq s' := by
  intro i j hi hj h0 ht
  rw [hk.n] at hi hj
  rcases hk.tag i with ei | ei
  · rcases hk.tag j with ej | ej
    · refine h i j hi hj ?_ (by rw [← ei, ← ej, ht])
      rw [← show (s'.tag i).1 = (s.slot i).inum from congrArg Prod.fst ei]
      exact h0
    · exact absurd ((congrArg Prod.fst ht).trans ej) h0
  · exact absurd ei h0

/-- Without a hit no slot carries the inode. -/
lemma miss_spec {num dev : ℕ} (h : s.hit num dev = none) : ∀ i < s.n, s.tag i ≠ (num, dev) := by
  intro i hi e
  rw [hit, List.find?_eq_none] at h
  have := h i (List.mem_range.mpr hi)
  rw [tag, Prod.mk.injEq] at e
  simp [e.1, e.2] at this

lemma hit_spec {num dev : ℕ} (h : s.hit num dev = some i) : i < s.n ∧ s.tag i = (num, dev) := by
  rw [hit, List.find?_range_eq_some] at h
  simp only [Bool.and_eq_true, beq_iff_eq, List.mem_range] at h
  exact ⟨h.2.1, Prod.ext h.1.1 h.1.2⟩

/-- The search looks at the tags only. -/
lemma hit_congr {num dev : ℕ} (hn : t.n = s.n) (ht : ∀ i, t.tag i = s.tag i) :
    t.hit num dev = s.hit num dev := by
  rw [hit, hit, hn]
  congr 1
  funext i
  have h1 : (t.slot i).inum = (s.slot i).inum := congrArg Prod.fst (ht i)
  have h2 : (t.slot i).dev = (s.slot i).dev := congrArg Prod.snd (ht i)
  rw [h1, h2]

/-- A slot may take over a number that no slot carries. -/
lemma Uniq.retag (h : Uniq s) (hm : s.hit r.num r.dev = none) : Uniq (s.retag i r) := by
  have hself : (s.retag i r).tag i = (r.num, r.dev) := by simp [Ilist.retag, tag, modSlot]
  have hother : ∀ j, j ≠ i → (s.retag i r).tag j = s.tag j := fun j hj => by
    simp [Ilist.retag, tag, modSlot, hj]
  intro a b ha hb h0 ht
  by_cases ea : a = i
  · by_cases eb : b = i
    · rw [ea, eb]
    · rw [ea, hself, hother b eb] at ht
      exact absurd ht.symm (miss_spec hm b hb)
  · by_cases eb : b = i
    · rw [eb, hself, hother a ea] at ht
      exact absurd ht (miss_spec hm a ha)
    · rw [hother a ea, hother b eb] at ht
      refine h a b ha hb ?_ ht
      rw [← show ((s.retag i r).slot a).inum = (s.slot a).inum from
        congrArg Prod.fst (hother a ea)]
      exact h0

/-! ## The calls -/

lemma Uniq.claim (h : Uniq s) (hm : s.hit r.num r.dev = none) (he : s.claim p i r = some s') :
    Uniq s' := by
  obtain ⟨bad, -, rfl⟩ := Option.map_eq_some_iff.mp he
  have hr := h.retag hm (i := i)
  split_ifs
  · exact hr.keeps (.giveUp ..)
  · exact hr.keeps (.of_tag rfl fun j => by simp)

/-- **`iget`**, by induction on the mounted roots it goes through. -/
lemma Uniq.iget (fuel : ℕ) : ∀ {s : Ilist} {r : Request}, Uniq s →
    Ilist.iget p fuel s r = some s' → Uniq s' := by
  induction fuel with
  | zero =>
      intro s r _ he
      exact absurd he (by simp [Ilist.iget])
  | succ fuel ih =>
      intro s r h he
      rw [Ilist.iget] at he
      cases hh : s.hit r.num r.dev with
      | some i =>
          rw [hh] at he
          dsimp only at he
          split_ifs at he
          · simp only [Option.some.injEq] at he
            exact he ▸ h.keeps (.of_tag rfl fun j => by simp)
          · unfold found at he
            split at he
            · exact ih (h.keeps (.of_tag (by simp [lock, modSlot]) fun j => by simp)) he
            · simp only [Option.some.injEq] at he
              exact he ▸ h.keeps (.of_tag rfl fun j => by simp)
      | none =>
          rw [hh] at he
          dsimp only at he
          split at he
          · simp only [Option.some.injEq] at he
            exact he ▸ h.keeps (.of_tag rfl fun j => by simp)
          · rename_i f _
            have hl : Uniq (s.lock p f) := h.keeps (.of_tag rfl fun j => by simp)
            split_ifs at he
            · obtain ⟨bad, -, rfl⟩ := Option.map_eq_some_iff.mp he
              split_ifs
              · exact hl.keeps (.of_tag (by simp [ret]) fun j => by simp)
              · exact hl.keeps (.of_tag rfl fun j => by simp)
            · refine hl.claim ?_ he
              rw [← hh]
              exact hit_congr rfl fun j => by simp

lemma Uniq.found {again : Ilist → Request → Option Ilist} (h : Uniq s)
    (hagain : ∀ t q, Uniq t → again t q = some s' → Uniq s')
    (he : s.found p i r again = some s') : Uniq s' := by
  unfold Ilist.found at he
  split at he
  · exact hagain _ _ (h.keeps (.irelse s i)) he
  · simp only [Option.some.injEq] at he
    exact he ▸ h.keeps (.of_tag rfl fun j => by simp)

lemma Keeps.isync (left : ℕ) : ∀ {s : Ilist}, Ilist.isync p left s = some s' → Keeps s s' := by
  induction left with
  | zero =>
      intro s he
      simp only [Ilist.isync, Option.some.injEq] at he
      exact he ▸ .refl s
  | succ left ih =>
      intro s he
      rw [Ilist.isync] at he
      dsimp only at he
      split_ifs at he
      · split at he
        · exact absurd he (by simp)
        · exact Keeps.trans (.of_tag (by simp [lock, modSlot]) fun j => by simp) (ih he)
        · simp only [Option.some.injEq] at he
          exact he ▸ .of_tag rfl fun j => by simp
      · exact ih he

lemma Keeps.iflush {dev : ℕ} (left : ℕ) : ∀ {s : Ilist},
    Ilist.iflush p dev left s = some s' → Keeps s s' := by
  induction left with
  | zero =>
      intro s he
      simp only [Ilist.iflush, Option.some.injEq] at he
      exact he ▸ .refl s
  | succ left ih =>
      intro s he
      have hlock : ∀ i, Keeps s ((s.lock p i).expel i) := fun i =>
        Keeps.trans (t := s.lock p i) (.of_tag rfl fun j => by simp) (.expel _ i)
      rw [Ilist.iflush] at he
      dsimp only at he
      split_ifs at he
      · simp only [Option.some.injEq] at he
        exact he ▸ .of_tag rfl fun j => by simp
      · split at he
        · exact absurd he (by simp)
        · exact (hlock _).trans (ih he)
        · simp only [Option.some.injEq] at he
          exact he ▸ .of_tag rfl fun j => by simp
      · exact (hlock _).trans (ih he)
      · exact ih he

lemma Uniq.resume {k : Stage} {d : Option Bytes} (h : Uniq s)
    (hf : d.isSome → ∀ r ∈ k.writes, s.hit r.num r.dev = none)
    (he : s.resume p k d = some s') : Uniq s' := by
  unfold Ilist.resume at he
  cases k with
  | idle => exact absurd he (by simp)
  | getWait i r =>
      dsimp only at he
      split_ifs at he
      · simp only [Option.some.injEq] at he
        exact he ▸ h.keeps (.of_tag rfl fun j => by simp)
      · have hl : Uniq (s.relock p i) := h.keeps (.of_tag rfl fun j => by simp)
        exact hl.found (fun _ _ => Uniq.iget _) he
  | getWrite i r =>
      dsimp only at he
      split_ifs at he with hd
      · have hw : Uniq (s.writeNode i) := h.keeps (.of_tag rfl fun j => by simp)
        refine hw.claim ?_ he
        rw [← hf hd r rfl]
        exact hit_congr rfl fun j => by simp
      · simp only [Option.some.injEq] at he
        exact he ▸ h.keeps (.of_tag (by simp [ret]) fun j => by simp)
  | getRead i r =>
      cases d with
      | some d =>
          simp only [Option.some.injEq] at he
          exact he ▸ h.keeps (.of_tag rfl fun j => by simp)
      | none =>
          simp only [Option.some.injEq] at he
          exact he ▸ h.keeps (.giveUp ..)
  | lockWait i a =>
      simp only [Option.some.injEq] at he
      split_ifs at he
      · exact he ▸ h.keeps (.of_tag rfl fun j => by simp)
      · exact he ▸ h.keeps (.of_tag rfl fun j => by simp)
  | freeing i =>
      simp only [Option.some.injEq] at he
      exact he ▸ h.keeps (.of_tag (by simp [ifree, modSlot]) fun j => by simp)
  | syncWrite i =>
      refine h.keeps (Keeps.trans (.of_tag ?_ fun j => ?_) (Keeps.isync _ he))
      · split_ifs <;> simp [writeNode, modSlot]
      · split_ifs <;> simp
  | flushWait i dev =>
      dsimp only at he
      have hl : Keeps s (s.relock p i) := .of_tag rfl fun j => by simp
      split_ifs at he
      · simp only [Option.some.injEq] at he
        exact he ▸ h.keeps (.of_tag rfl fun j => by simp)
      · split at he
        · exact absurd he (by simp)
        · exact h.keeps (hl.trans ((Keeps.expel _ i).trans (Keeps.iflush _ he)))
        · simp only [Option.some.injEq] at he
          exact he ▸ h.keeps (hl.trans (.of_tag rfl fun j => by simp))
      · exact h.keeps (hl.trans ((Keeps.expel _ i).trans (Keeps.iflush _ he)))
  | flushWrite i dev =>
      have hw : Keeps s (if d.isSome then s.writeNode i else s) := by
        split_ifs
        · exact .of_tag rfl fun j => by simp
        · exact .refl s
      exact h.keeps (hw.trans ((Keeps.expel _ i).trans (Keeps.iflush _ he)))

/-! ## Every run -/

/-- When `iget` has written its victim and goes on to claim the slot, no slot carries the inode it
was looking for. -/
def Fresh (s : Ilist) : Label → Prop
  | .run p d => d.isSome → ∀ r ∈ (s.stage p).writes, s.hit r.num r.dev = none
  | _ => True

instance (s : Ilist) : ∀ l, Decidable (s.Fresh l)
  | .run .. => inferInstanceAs (Decidable (_ = true → ∀ r ∈ Stage.writes _, _ = none))
  | .call .. | .ref _ | .unref _ | .modify .. | .graft .. | .prune _ | .mtab .. => .isTrue trivial

/-- **The step lemma.** -/
theorem Uniq.step {l : Label} (h : Uniq s) (hf : Fresh s l) (he : s.step l = some s') :
    Uniq s' := by
  set t : Ilist := { s with last := none } with ht
  have hi : Uniq t := h
  unfold Ilist.step at he
  rw [← ht] at he
  cases l with
  | call p c =>
      dsimp only at he
      split_ifs at he
      cases c with
      | iget num dev => exact Uniq.iget _ hi he
      | ilock i =>
          simp only [call, Option.some.injEq] at he
          split_ifs at he
          · exact he ▸ hi.keeps (.of_tag rfl fun j => by simp)
          · exact he ▸ hi.keeps (.of_tag rfl fun j => by simp)
      | irelse i =>
          simp only [call, Option.some.injEq] at he
          exact he ▸ hi.keeps (.irelse t i)
      | idec i =>
          simp only [call, Option.some.injEq, Ilist.idec] at he
          split_ifs at he
          · exact he ▸ hi.keeps (.of_tag rfl fun j => by simp)
          · exact he ▸ hi.keeps (.irelse t i)
      | isync => exact hi.keeps (Keeps.isync _ he)
      | iflush dev => exact hi.keeps (Keeps.iflush _ he)
  | ref i =>
      simp only [Option.some.injEq] at he
      exact he ▸ hi.keeps (.of_tag rfl fun j => by simp)
  | unref i =>
      dsimp only at he
      split_ifs at he
      simp only [Option.some.injEq] at he
      exact he ▸ hi.keeps (.of_tag rfl fun j => by simp)
  | modify i d size =>
      simp only [Option.some.injEq] at he
      exact he ▸ hi.keeps (.of_tag rfl fun j => by simp)
  | graft i d =>
      simp only [Option.some.injEq] at he
      exact he ▸ hi.keeps (.of_tag rfl fun j => by simp)
  | prune i =>
      simp only [Option.some.injEq] at he
      exact he ▸ hi.keeps (.of_tag rfl fun j => by simp)
  | mtab dev m =>
      simp only [Option.some.injEq] at he
      exact he ▸ hi
  | run p d =>
      dsimp only at he
      split_ifs at he
      exact Uniq.resume (s := t.goto p .idle) hi hf he

/-- **In-core inodes are unique** in every state reached by steps in which no slot is claimed for an
inode that has come in core since the search. -/
theorem inode_unique (h : Transition.Reach Ilist.step Quiet Fresh s) :
    ∀ i j, i < s.n → j < s.n → (s.slot i).inum ≠ 0 → s.tag i = s.tag j → i = j :=
  h.invariant (fun _ ht => ht.uniq) fun _ _ _ hi hf he => hi.step hf he

/-- A full list, from which one inode has to go for another. -/
theorem full_unique : ∃ s : Ilist, s.tag 0 = (60, 1) ∧
    ∀ i j, i < s.n → j < s.n → (s.slot i).inum ≠ 0 → s.tag i = s.tag j → i = j := by
  have hrun : (Transition.run step Fresh (full 50)
      [.call 1 (.iget 60 1), .run 1 (some plain)]).map (fun s => s.tag 0) = some (60, 1) := by
    decide +kernel
  obtain ⟨s, hs, ht⟩ := Option.map_eq_some_iff.mp hrun
  exact ⟨s, ht, inode_unique (.of_run (quiet_full 50) hs)⟩

/-- Two processes want inode 60, and each has to write its victim: both have searched before either
claims a slot. -/
theorem iget_twice : ∃ s : Ilist, Transition.Reachable step Quiet s ∧ ∃ i j, i < s.n ∧ j < s.n ∧
    i ≠ j ∧ (s.slot i).inum ≠ 0 ∧ s.tag i = s.tag j := by
  have hrun : (Transition.run step (fun _ _ => True) (full 50)
      [.call 1 (.iget 60 1), .call 2 (.iget 60 1), .run 1 (some plain), .run 2 (some plain)]).map
      (fun s => (s.n, s.tag 0, s.tag 1)) = some (50, (60, 1), (60, 1)) := by
    decide +kernel
  obtain ⟨s, hs, e⟩ := Option.map_eq_some_iff.mp hrun
  simp only [Prod.mk.injEq] at e
  obtain ⟨hn, h0, h1⟩ := e
  refine ⟨s, .of_run (quiet_full 50) hs, 0, 1, by omega, by omega, by decide, ?_, h0.trans h1.symm⟩
  rw [show (s.slot 0).inum = 60 from congrArg Prod.fst h0]
  decide

end Ilist

end Micronix
