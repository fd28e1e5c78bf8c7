import Micronix.Inode.Locks

/-!
# Which slots are modified

`IMOD` is set where the rest of the kernel changes an inode and where `idec` frees one; the routines
of the inode list themselves never set it, and a slot is given to another inode only when it is
clean.  So a modified slot carries an inode that can be written, if it did when it was changed and its
device stays mounted.
-/

namespace Micronix

/-- The slot whose inode a process frees. -/
def Stage.frees : Stage → Option ℕ
  | freeing i => some i
  | _ => none

namespace Ilist

/-- The slot carries an inode of a mounted device whose block is among the first 256, on one of the
first 256 devices. -/
def Placed (s : Ilist) (i : ℕ) : Prop :=
  s.badInum i = some false ∧ (s.slot i).dev < 256 ∧ ((s.slot i).inum + 31) / 16 < 256

instance (s : Ilist) (i : ℕ) : Decidable (s.Placed i) := inferInstanceAs (Decidable (_ ∧ _))

/-- Every modified slot carries such an inode. -/
def Sane (s : Ilist) : Prop := ∀ i < s.n, (s.slot i).mod = true → s.Placed i

/-- The steps that keep that: what is changed or freed is such an inode, and a device with modified
inodes in core is not unmounted. -/
def Tidy (s : Ilist) : Label → Prop
  | .modify i _ _ => s.Placed i
  | .run p _ => ∀ i ∈ (s.stage p).frees, s.Placed i
  | .mtab dev _ => ∀ i < s.n, (s.slot i).mod = true → (s.slot i).dev ≠ dev
  | .call .. | .ref _ | .unref _ | .graft .. | .prune _ => True

instance (s : Ilist) : ∀ l, Decidable (s.Tidy l)
  | .modify i _ _ => inferInstanceAs (Decidable (s.Placed i))
  | .run .. => inferInstanceAs (Decidable (∀ i ∈ Stage.frees _, s.Placed i))
  | .mtab .. => inferInstanceAs (Decidable (∀ i < s.n, _ → _))
  | .call .. | .ref _ | .unref _ | .graft .. | .prune _ => .isTrue trivial

/-- What is modified has been modified, and carries the same inode. -/
structure Calm (s s' : Ilist) : Prop where
  n : s'.n = s.n
  mlook : s'.mlook = s.mlook
  mod : ∀ i, (s'.slot i).mod = true → (s.slot i).mod = true ∧ s'.tag i = s.tag i

variable {s s' t : Ilist} {i j p : ℕ} {r : Request} {k : Stage}

lemma Calm.refl (s : Ilist) : Calm s s := ⟨rfl, rfl, fun _ h => ⟨h, rfl⟩⟩

lemma Calm.trans (h : Calm s t) (h' : Calm t s') : Calm s s' := by
  refine ⟨h'.n.trans h.n, h'.mlook.trans h.mlook, fun i hi => ?_⟩
  obtain ⟨hm, ht⟩ := h'.mod i hi
  exact ⟨(h.mod i hm).1, ht.trans (h.mod i hm).2⟩

lemma Placed.congr (h : s.Placed i) (hm : s'.mlook (s.slot i).dev = s.mlook (s.slot i).dev)
    (ht : s'.tag i = s.tag i) : s'.Placed i := by
  have h1 : (s'.slot i).inum = (s.slot i).inum := congrArg Prod.fst ht
  have h2 : (s'.slot i).dev = (s.slot i).dev := congrArg Prod.snd ht
  rw [Placed, badInum, h2, hm, h1]
  exact h

lemma Sane.calm (h : Sane s) (hc : Calm s s') : Sane s' := by
  intro i hi hm
  obtain ⟨hm', ht⟩ := hc.mod i hm
  exact (h i (hc.n ▸ hi) hm').congr (congrFun hc.mlook _) ht

/-! ## The pieces -/

/-- A change of one slot. -/
lemma calm_modSlot (s : Ilist) (i : ℕ) (f : Incore → Incore)
    (h : (f (s.slot i)).mod = true → (s.slot i).mod = true ∧
      (f (s.slot i)).inum = (s.slot i).inum ∧ (f (s.slot i)).dev = (s.slot i).dev) :
    Calm s (s.modSlot i f) := by
  refine ⟨rfl, rfl, fun j hj => ?_⟩
  by_cases hji : j = i
  · subst hji
    rw [modSlot_self] at hj
    obtain ⟨hm, h1, h2⟩ := h hj
    exact ⟨hm, by rw [tag, tag, modSlot_self, h1, h2]⟩
  · rw [modSlot_ne s f hji] at hj
    exact ⟨hj, by rw [tag, tag, modSlot_ne s f hji]⟩

/-- Nothing has happened to the slots. -/
lemma Calm.of_slot (hn : s'.n = s.n) (hm : s'.mlook = s.mlook) (h : s'.slot = s.slot) : Calm s s' :=
  ⟨hn, hm, fun i hi => by rw [h] at hi; exact ⟨hi, by rw [tag, tag, h]⟩⟩

lemma calm_goto (s : Ilist) (p : ℕ) (k : Stage) : Calm s (s.goto p k) := .of_slot rfl rfl rfl

lemma calm_ret (s : Ilist) (p : ℕ) (r : Request) (o : Option ℕ) : Calm s (s.ret p r o) :=
  .of_slot rfl rfl rfl

lemma calm_lock (s : Ilist) (p i : ℕ) : Calm s (s.lock p i) :=
  (calm_modSlot s i (fun x => { x with busy := true }) fun h => ⟨h, rfl, rfl⟩).trans
    (.of_slot rfl rfl rfl)

lemma calm_sleep (s : Ilist) (p i : ℕ) (k : Stage) : Calm s (s.sleep p i k) :=
  (calm_modSlot s i (fun x => { x with want := true }) fun h => ⟨h, rfl, rfl⟩).trans
    (.of_slot rfl rfl rfl)

lemma calm_await (s : Ilist) (p i : ℕ) (k : Stage) : Calm s (s.await p i k) :=
  (calm_modSlot s i (fun x => { x with count := (x.count + 1) % 256 }) fun h => ⟨h, rfl, rfl⟩).trans
    (calm_sleep _ p i k)

lemma calm_relock (s : Ilist) (p i : ℕ) : Calm s (s.relock p i) :=
  (calm_lock s p i).trans
    (calm_modSlot _ i (fun x => { x with count := (x.count + 255) % 256 }) fun h => ⟨h, rfl, rfl⟩)

lemma irelse_mlook (s : Ilist) (i : ℕ) : (s.irelse i).mlook = s.mlook := by
  unfold irelse itime
  by_cases hw : (s.slot i).want = true
  · simp only [hw, if_true]
    split_ifs <;> rfl
  · simp only [hw]
    split_ifs <;> rfl

lemma calm_irelse (s : Ilist) (i : ℕ) : Calm s (s.irelse i) := by
  obtain ⟨f, hf⟩ := s.irelse_slot i
  have hc := calm_modSlot s i (fun x => { x with busy := false, want := false }) fun h => ⟨h, rfl, rfl⟩
  refine ⟨s.irelse_n i, s.irelse_mlook i, fun j hj => ?_⟩
  rw [hf] at hj
  exact ⟨(hc.mod j hj).1, s.irelse_tag i j⟩

lemma calm_iio (s : Ilist) (i : ℕ) : Calm s (s.iio i) :=
  calm_modSlot s i _ fun h => ⟨h, rfl, rfl⟩

lemma calm_readNode (s : Ilist) (i : ℕ) (d : Bytes) : Calm s (s.readNode i d) :=
  calm_modSlot s i _ nofun

lemma calm_writeNode (s : Ilist) (i : ℕ) : Calm s (s.writeNode i) := calm_modSlot s i _ nofun

lemma calm_zero (s : Ilist) (i : ℕ) : Calm s (s.modSlot i fun _ => Incore.zero) :=
  calm_modSlot s i _ nofun

lemma calm_giveUp (s : Ilist) (p i : ℕ) (r : Request) : Calm s (s.giveUp p i r) :=
  (calm_zero s i).trans ((calm_irelse _ i).trans (calm_ret _ p r none))

lemma calm_expel (s : Ilist) (i : ℕ) : Calm s (s.expel i) :=
  (calm_irelse s i).trans (calm_zero _ i)

/-! ## The routines -/

/-- A clean slot is given to another inode. -/
lemma Calm.claim (hm : (s.slot i).mod = false) (he : s.claim p i r = some s') : Calm s s' := by
  obtain ⟨bad, -, rfl⟩ := Option.map_eq_some_iff.mp he
  have hr : Calm s (s.retag i r) :=
    calm_modSlot s i _ fun h => absurd (hm.symm.trans h) (by simp)
  split_ifs
  · exact hr.trans (calm_giveUp _ p i r)
  · exact hr.trans ((calm_iio _ i).trans (calm_goto _ p _))

/-- What `iget` does with a slot that it has locked. -/
lemma Calm.found {again : Ilist → Request → Option Ilist}
    (hagain : ∀ t q, again t q = some s' → Calm t s') (he : s.found p i r again = some s') :
    Calm s s' := by
  unfold Ilist.found at he
  split at he
  · exact (calm_irelse s i).trans (hagain _ _ he)
  · exact Option.some.inj he ▸ calm_ret s p r (some i)

/-- **`iget`**, by induction on the mounted roots it goes through. -/
lemma Calm.iget (fuel : ℕ) : ∀ {s : Ilist} {r : Request},
    Ilist.iget p fuel s r = some s' → Calm s s' := by
  induction fuel with
  | zero => exact fun he => nomatch he
  | succ fuel ih =>
      intro s r he
      rw [Ilist.iget] at he
      cases hh : s.hit r.num r.dev with
      | some i =>
          rw [hh] at he
          dsimp only at he
          split_ifs at he
          · exact Option.some.inj he ▸ calm_await s p i _
          · exact (calm_lock s p i).trans (.found (fun _ _ => ih) he)
      | none =>
          rw [hh] at he
          dsimp only at he
          split at he
          · exact Option.some.inj he ▸ calm_ret s p r none
          · rename_i f _
            have hl := calm_lock s p f
            split_ifs at he with hm
            · obtain ⟨bad, -, rfl⟩ := Option.map_eq_some_iff.mp he
              split_ifs
              · exact hl.trans ((calm_irelse _ f).trans (calm_ret _ p r none))
              · exact hl.trans ((calm_iio _ f).trans (calm_goto _ p _))
            · exact hl.trans (.claim (by simpa using hm) he)

lemma Calm.isync (left : ℕ) : ∀ {s : Ilist}, Ilist.isync p left s = some s' → Calm s s' := by
  induction left with
  | zero => exact fun he => Option.some.inj he ▸ .refl _
  | succ left ih =>
      intro s he
      rw [Ilist.isync] at he
      dsimp only at he
      split_ifs at he
      · split at he
        · cases he
        · exact (calm_lock s p _).trans ((calm_irelse _ _).trans (ih he))
        · exact Option.some.inj he ▸ (calm_lock s p _).trans ((calm_iio _ _).trans (calm_goto _ p _))
      · exact ih he

lemma Calm.iflush {dev : ℕ} (left : ℕ) : ∀ {s : Ilist},
    Ilist.iflush p dev left s = some s' → Calm s s' := by
  induction left with
  | zero => exact fun he => Option.some.inj he ▸ .refl _
  | succ left ih =>
      intro s he
      have hexpel (i : ℕ) : Calm s ((s.lock p i).expel i) := (calm_lock s p i).trans (calm_expel _ i)
      rw [Ilist.iflush] at he
      dsimp only at he
      split_ifs at he
      · exact Option.some.inj he ▸ calm_await s p _ _
      · split at he
        · cases he
        · exact (hexpel _).trans (ih he)
        · exact Option.some.inj he ▸ (calm_lock s p _).trans ((calm_iio _ _).trans (calm_goto _ p _))
      · exact (hexpel _).trans (ih he)
      · exact ih he

lemma Calm.call {c : Call} (he : s.call p c = some s') : Calm s s' := by
  cases c with
  | iget num dev => exact .iget _ he
  | ilock i =>
      refine Option.some.inj he ▸ ?_
      split_ifs
      · exact calm_await s p i _
      · exact calm_lock s p i
  | irelse i => exact Option.some.inj he ▸ calm_irelse s i
  | idec i =>
      refine Option.some.inj he ▸ ?_
      unfold Ilist.idec
      split_ifs
      · exact calm_goto s p _
      · exact calm_irelse s i
  | isync => exact .isync _ he
  | iflush dev => exact .iflush _ he

/-- A process goes on after its sleep, unless it has freed an inode. -/
lemma Calm.resume {d : Option Bytes} (hk : ∀ i, k ≠ .freeing i) (he : s.resume p k d = some s') :
    Calm s s' := by
  have hwrite (i : ℕ) : Calm s (if d.isSome then s.writeNode i else s) := by
    split_ifs
    · exact calm_writeNode s i
    · exact .refl s
  unfold Ilist.resume at he
  cases k with
  | idle => cases he
  | getWait i r =>
      dsimp only at he
      split_ifs at he
      · exact Option.some.inj he ▸ calm_sleep s p i _
      · exact (calm_relock s p i).trans (.found (fun _ _ => Calm.iget _) he)
  | getWrite i r =>
      dsimp only at he
      split_ifs at he
      · exact (calm_writeNode s i).trans (.claim (by rw [writeNode, modSlot_self]) he)
      · exact Option.some.inj he ▸ (calm_irelse s i).trans (calm_ret _ p r none)
  | getRead i r =>
      dsimp only at he
      split at he
      · exact Option.some.inj he ▸ (calm_readNode s i _).trans (calm_ret _ p r _)
      · exact Option.some.inj he ▸ calm_giveUp s p i r
  | lockWait i a =>
      refine Option.some.inj he ▸ ?_
      split_ifs
      · exact calm_sleep s p i _
      · exact calm_relock s p i
  | freeing i => exact absurd rfl (hk i)
  | syncWrite i => exact ((hwrite i).trans (calm_irelse _ i)).trans (.isync _ he)
  | flushWait i dev =>
      have hl := calm_relock s p i
      dsimp only at he
      split_ifs at he
      · exact Option.some.inj he ▸ calm_sleep s p i _
      · split at he
        · cases he
        · exact (hl.trans (calm_expel _ i)).trans (.iflush _ he)
        · exact Option.some.inj he ▸ hl.trans ((calm_iio _ _).trans (calm_goto _ p _))
      · exact (hl.trans (calm_expel _ i)).trans (.iflush _ he)
  | flushWrite i dev => exact ((hwrite i).trans (calm_expel _ i)).trans (.iflush _ he)

/-! ## A step -/

/-- **The step lemma.** -/
theorem Sane.step {l : Label} (h : Sane s) (ht : s.Tidy l) (he : s.step l = some s') : Sane s' := by
  set t : Ilist := { s with last := none } with hl
  have hs : Sane t := h
  unfold Ilist.step at he
  rw [← hl] at he
  cases l with
  | call p c =>
      dsimp only at he
      split_ifs at he
      exact hs.calm (.call he)
  | ref i =>
      exact Option.some.inj he ▸ hs.calm ((calm_modSlot t i
        (fun x => { x with count := (x.count + 1) % 256 }) fun h => ⟨h, rfl, rfl⟩).trans
        (.of_slot rfl rfl rfl))
  | unref i =>
      dsimp only at he
      split_ifs at he
      exact Option.some.inj he ▸ hs.calm ((calm_modSlot t i
        (fun x => { x with count := (x.count + 255) % 256 }) fun h => ⟨h, rfl, rfl⟩).trans
        (.of_slot rfl rfl rfl))
  | modify i d size =>
      refine Option.some.inj he ▸ fun j hj hm => ?_
      by_cases hji : j = i
      · subst hji
        exact Placed.congr (s := s) ht rfl (t.modify_tag j j d size)
      · have hslot : (t.modify i d size).slot j = t.slot j := modSlot_ne t _ hji
        rw [hslot] at hm
        exact Placed.congr (s := s) (h j hj hm) rfl (t.modify_tag i j d size)
  | graft i d => exact Option.some.inj he ▸ hs.calm (calm_modSlot t i _ fun h => ⟨h, rfl, rfl⟩)
  | prune i => exact Option.some.inj he ▸ hs.calm (calm_modSlot t i _ fun h => ⟨h, rfl, rfl⟩)
  | mtab dev m =>
      refine Option.some.inj he ▸ fun j hj hm => ?_
      exact (h j hj hm).congr (Function.update_of_ne (ht j hj hm) ..) rfl
  | run p d =>
      dsimp only at he
      split_ifs at he
      have hg := hs.calm (calm_goto t p .idle)
      by_cases hk : ∃ i, s.stage p = .freeing i
      · obtain ⟨i, hk⟩ := hk
        have hplaced : s.Placed i := ht i (by rw [hk]; rfl)
        rw [show t.stage p = .freeing i from hk] at he
        refine Option.some.inj he ▸ Sane.calm ?_ (calm_irelse _ i)
        intro j hj hm
        by_cases hji : j = i
        · subst hji
          exact hplaced.congr rfl ((t.goto p .idle).ifree_tag j j)
        · have hslot : ((t.goto p .idle).ifree i).slot j = t.slot j := modSlot_ne _ _ hji
          rw [hslot] at hm
          exact Placed.congr (s := s) (h j hj hm) rfl ((t.goto p .idle).ifree_tag i j)
      · exact hg.calm (.resume (fun i e => hk ⟨i, e⟩) he)

/-! ## `isync` when nothing is locked -/

/-- Process `p` is in the `iio` of `isync` for slot `i`. -/
def syncing (s : Ilist) (p i : ℕ) : Ilist := ((s.lock p i).iio i).goto p (.syncWrite i)

lemma badInum_lock (s : Ilist) (p i : ℕ) : (s.lock p i).badInum i = s.badInum i := by
  rw [badInum, badInum, show (s.lock p i).slot i = { s.slot i with busy := true } from
    Function.update_self ..]
  rfl

/-- `isync` comes to its end, or to the next modified slot. -/
lemma isync_cases (hb : ∀ i < s.n, (s.slot i).busy = false) (hs : Sane s) (left : ℕ) (hl : left ≤ s.n) :
    (isync p left s = some s ∧ ∀ j < s.n, s.n - left ≤ j → (s.slot j).mod = false) ∨
      ∃ i < s.n, s.n - left ≤ i ∧ (s.slot i).mod = true ∧
        (∀ j < i, s.n - left ≤ j → (s.slot j).mod = false) ∧
        isync p left s = some (s.syncing p i) := by
  induction left with
  | zero => exact Or.inl ⟨rfl, fun j hj hle => absurd hle (by omega)⟩
  | succ left ih =>
      set i := s.n - (left + 1) with hi
      have hin : i < s.n := by omega
      by_cases hm : (s.slot i).mod = true
      · refine Or.inr ⟨i, hin, le_rfl, hm, fun j hj hle => absurd hle (by omega), ?_⟩
        rw [isync]
        dsimp only
        rw [if_pos ⟨hm, hb i hin⟩, badInum_lock, (hs i hin hm).1]
        rfl
      · have hm' : (s.slot i).mod = false := by simpa using hm
        have hskip : isync p (left + 1) s = isync p left s := by
          rw [isync]
          dsimp only
          rw [if_neg fun hc => hm hc.1]
        have hrest (j : ℕ) (hle : i ≤ j) : j = i ∨ s.n - left ≤ j := by omega
        rw [hskip]
        rcases ih (by omega) with ⟨he, hclean⟩ | ⟨k, hk, hle, hmk, hclean, he⟩
        · refine Or.inl ⟨he, fun j hj hle => ?_⟩
          rcases hrest j hle with rfl | hle'
          · exact hm'
          · exact hclean j hj hle'
        · refine Or.inr ⟨k, hk, by omega, hmk, fun j hj hle => ?_, he⟩
          rcases hrest j hle with rfl | hle'
          · exact hm'
          · exact hclean j hj hle'

/-- The list while `p` alone is in `isync` and writes slot `i`. -/
structure Writing (s : Ilist) (p i : ℕ) : Prop where
  lt : i < s.n
  stage : s.stage p = .syncWrite i
  event : s.event p = none
  mod : (s.slot i).mod = true
  before : ∀ j < i, (s.slot j).mod = false
  busy : ∀ j < s.n, j ≠ i → (s.slot j).busy = false
  sane : Sane s

/-- The list when `p` is in no routine and no inode is modified. -/
structure Clean (s : Ilist) (p : ℕ) : Prop where
  stage : s.stage p = .idle
  event : s.event p = none
  mod : ∀ j < s.n, (s.slot j).mod = false

/-- The same inode with the same contents. -/
structure Alike (x y : Incore) : Prop where
  inum : y.inum = x.inum
  dev : y.dev = x.dev
  node : y.node = x.node
  size : y.size = x.size
  mod : y.mod = x.mod

lemma Alike.refl (x : Incore) : Alike x x := ⟨rfl, rfl, rfl, rfl, rfl⟩

lemma Alike.trans {x y z : Incore} (h : Alike x y) (h' : Alike y z) : Alike x z :=
  ⟨h'.inum.trans h.inum, h'.dev.trans h.dev, h'.node.trans h.node, h'.size.trans h.size,
    h'.mod.trans h.mod⟩

lemma alike_modSlot (s : Ilist) (i : ℕ) (f : Incore → Incore)
    (h : Alike (s.slot i) (f (s.slot i))) (j : ℕ) : Alike (s.slot j) ((s.modSlot i f).slot j) := by
  by_cases hj : j = i
  · subst hj
    rw [modSlot_self]
    exact h
  · rw [modSlot_ne s f hj]
    exact .refl _

lemma alike_lock (s : Ilist) (p i j : ℕ) : Alike (s.slot j) ((s.lock p i).slot j) :=
  alike_modSlot s i (fun x => { x with busy := true }) ⟨rfl, rfl, rfl, rfl, rfl⟩ j

lemma alike_iio (s : Ilist) (i j : ℕ) : Alike (s.slot j) ((s.iio i).slot j) :=
  alike_modSlot s i _ ⟨rfl, rfl, rfl, rfl, rfl⟩ j

lemma alike_syncing (s : Ilist) (p i j : ℕ) : Alike (s.slot j) ((s.syncing p i).slot j) :=
  (alike_lock s p i j).trans (alike_iio _ i j)

lemma calm_syncing (s : Ilist) (p i : ℕ) : Calm s (s.syncing p i) :=
  (calm_lock s p i).trans ((calm_iio _ i).trans (calm_goto _ p _))

/-- Where `isync` comes to from slot `k` on. -/
lemma isync_next {k : ℕ} (hk : k ≤ s.n) (hb : ∀ i < s.n, (s.slot i).busy = false) (hs : Sane s)
    (hstage : s.stage p = .idle) (hev : s.event p = none) (hclean : ∀ j < k, (s.slot j).mod = false) :
    ∃ s', isync p (s.n - k) s = some s' ∧ s'.n = s.n ∧ (∀ j, Alike (s.slot j) (s'.slot j)) ∧
      (Clean s' p ∨ ∃ i, Writing s' p i) := by
  rcases isync_cases hb hs (s.n - k) (by omega) with ⟨he, hrest⟩ | ⟨i, hi, hle, hm, hrest, he⟩
  · refine ⟨s, he, rfl, fun j => .refl _, Or.inl ⟨hstage, hev, fun j hj => ?_⟩⟩
    by_cases hjk : j < k
    · exact hclean j hjk
    · exact hrest j hj (by omega)
  · refine ⟨s.syncing p i, he, rfl, s.alike_syncing p i, Or.inr ⟨i, hi, Function.update_self .., hev,
      (s.alike_syncing p i i).mod.trans hm, fun j hj => ?_, fun j hj hji => ?_,
      hs.calm (calm_syncing s p i)⟩⟩
    · rw [(s.alike_syncing p i j).mod]
      by_cases hjk : j < k
      · exact hclean j hjk
      · exact hrest j hj (by omega)
    · have hslot : (s.syncing p i).slot j = (s.lock p i).slot j := Function.update_of_ne hji ..
      rw [hslot, lock_ne s p hji]
      exact hb j hj

/-- `isync` is called. -/
lemma isync_call (hb : ∀ i < s.n, (s.slot i).busy = false) (hs : Sane s)
    (hstage : s.stage p = .idle) (hev : s.event p = none) :
    ∃ s', s.step (.call p .isync) = some s' ∧ s'.n = s.n ∧
      (∀ j, Alike (s.slot j) (s'.slot j)) ∧ (Clean s' p ∨ ∃ i, Writing s' p i) := by
  have hstep : s.step (.call p .isync) = isync p s.n { s with last := none } := by
    rw [step]
    dsimp only
    rw [hstage]
    rfl
  rw [hstep]
  exact isync_next (s := { s with last := none }) (Nat.zero_le _) hb hs hstage hev nofun

/-- `iio` has written slot `i`. -/
lemma Writing.run (h : Writing s p i) (d : Bytes) :
    ∃ s', s.step (.run p (some d)) = some s' ∧ s'.n = s.n ∧ (s'.slot i).mod = false ∧
      (∀ j, j ≠ i → Alike (s.slot j) (s'.slot j)) ∧ (Clean s' p ∨ ∃ i, Writing s' p i) := by
  set r : Ilist := ({ s with last := none }.goto p .idle).writeNode i with hr
  have hstep : s.step (.run p (some d)) = isync p (s.n - (i + 1)) (r.irelse i) := by
    rw [step]
    dsimp only
    rw [if_pos h.event, h.stage]
    rfl
  have hrself : (r.slot i).mod = false := by
    rw [hr, writeNode, modSlot_self]
  have hrother (j : ℕ) (hj : j ≠ i) : r.slot j = s.slot j := modSlot_ne _ _ hj
  -- the slots after `irelse`
  obtain ⟨f, hf⟩ := r.irelse_slot i
  have hself : ((r.irelse i).slot i).mod = false ∧ ((r.irelse i).slot i).busy = false := by
    rw [hf]
    simp only [modSlot_self]
    exact ⟨hrself, trivial⟩
  have hother (j : ℕ) (hj : j ≠ i) : Alike (s.slot j) ((r.irelse i).slot j) ∧
      ((r.irelse i).slot j).busy = (s.slot j).busy := by
    rw [hf]
    simp only [modSlot_ne r _ hj, hrother j hj]
    exact ⟨⟨rfl, rfl, rfl, rfl, rfl⟩, trivial⟩
  have hgoto : Calm s ({ s with last := none }.goto p .idle) := .of_slot rfl rfl rfl
  have hcalm : Calm s (r.irelse i) := (hgoto.trans (calm_writeNode _ i)).trans (calm_irelse r i)
  have hn : (r.irelse i).n = s.n := hcalm.n
  obtain ⟨-, -, hstage, -, -, -⟩ := r.irelse_rest i
  have hbusy (j : ℕ) (hj : j < (r.irelse i).n) : ((r.irelse i).slot j).busy = false := by
    by_cases hji : j = i
    · rw [hji, hself.2]
    · rw [(hother j hji).2]
      exact h.busy j (hn ▸ hj) hji
  have hev : (r.irelse i).event p = none := by
    rcases r.irelse_event i p with e | e
    · rw [e]
      exact h.event
    · exact e
  have hbefore (j : ℕ) (hj : j < i + 1) : ((r.irelse i).slot j).mod = false := by
    by_cases hji : j = i
    · rw [hji, hself.1]
    · rw [(hother j hji).1.mod]
      exact h.before j (by omega)
  obtain ⟨s', he, hn', halike, hnext⟩ := isync_next (k := i + 1) (by rw [hn]; exact h.lt) hbusy
    (h.sane.calm hcalm) (by rw [hstage]; exact Function.update_self ..) hev hbefore
  rw [hn] at he
  refine ⟨s', hstep.trans he, hn'.trans hn, (halike i).mod.trans hself.1, fun j hj => ?_, hnext⟩
  exact (hother j hj).1.trans (halike j)

/-- How many inodes are modified. -/
def modified (s : Ilist) : ℕ := ((Finset.range s.n).filter fun i => (s.slot i).mod = true).card

lemma modified_congr (hn : s'.n = s.n) (h : ∀ j, Alike (s.slot j) (s'.slot j)) :
    s'.modified = s.modified := by
  rw [modified, modified, hn]
  congr 1
  exact Finset.filter_congr fun j _ => by rw [(h j).mod]

lemma modified_lt (hi : i < s.n) (hm : (s.slot i).mod = true) (hn : s'.n = s.n)
    (hm' : (s'.slot i).mod = false) (h : ∀ j, j ≠ i → Alike (s.slot j) (s'.slot j)) :
    s'.modified < s.modified := by
  rw [modified, modified, hn]
  refine Finset.card_lt_card (Finset.ssubset_iff_of_subset (fun j hj => ?_) |>.mpr ⟨i, ?_, ?_⟩)
  · rw [Finset.mem_filter] at hj ⊢
    have hji : j ≠ i := by
      rintro rfl
      cases hm'.symm.trans hj.2
    exact ⟨hj.1, (h j hji).mod ▸ hj.2⟩
  · exact Finset.mem_filter.mpr ⟨Finset.mem_range.mpr hi, hm⟩
  · intro hin
    cases hm'.symm.trans (Finset.mem_filter.mp hin).2

lemma Clean.modified (h : Clean s p) : s.modified = 0 := by
  rw [Ilist.modified, Finset.card_eq_zero, Finset.filter_eq_empty_iff]
  intro j hj hm
  cases (h.mod j (Finset.mem_range.mp hj)).symm.trans hm

end Ilist

end Micronix
