import Micronix.Mem.Isolation
import Micronix.Mem.Swapio

/-!
# What swapping can rely on

The loops of `swapio` and `bankcopy`, and what the invariant of the segments says about the contents of
memory: a process has its segments to itself while it is in memory or on its way there, and a process that
is away has blocks for its `FULL` entries in the extent it was given.
-/

namespace Micronix

namespace Swapping

open Memory

variable {β : Type*} {bad : ℕ → Bool} {m m' : Memory.State} {x y t u c : ℕ} {i j k : ℕ}
  {mem parent child : ℕ → Seg} {core : ℕ → Page β} {read : Bool} {swap : ℕ}

/-! ## The loops -/

/-- The number of `FULL` entries below entry `k`. -/
def rank (mem : ℕ → Seg) (k : ℕ) : ℕ := ((Finset.range k).filter fun i => (mem i).per = .full).card

lemma rank_succ : rank mem (k + 1) = rank mem k + if (mem k).per = .full then 1 else 0 := by
  rw [rank, rank, Finset.range_add_one, Finset.filter_insert]
  split_ifs with hp
  · rw [Finset.card_insert_of_notMem (by simp)]
  · rfl

lemma rank_mono (h : j ≤ k) : rank mem j ≤ rank mem k :=
  Finset.card_le_card (Finset.filter_subset_filter _ (Finset.range_mono h))

/-- Entries further up come later. -/
lemma rank_lt (h : j < k) (hj : (mem j).per = .full) : rank mem j + 1 ≤ rank mem k := by
  have : rank mem (j + 1) ≤ rank mem k := rank_mono h
  rwa [rank_succ, if_pos hj] at this

lemma rank_congr (h : ∀ i, (child i).per = (parent i).per) : rank child k = rank parent k := by
  simp only [rank, h]

/-- `blk` goes up by the blocks of a segment for each `FULL` entry, and each gets its request. -/
lemma requests_spec (h : swap + 8 * rank mem k < 65536) :
    (requests read mem swap k).1 = swap + 8 * rank mem k ∧
      ∀ j, (requests read mem swap k).2 j =
        if j < k ∧ (mem j).per = .full then some ⟨read, (mem j).seg, swap + 8 * rank mem j⟩
        else none := by
  induction k with
  | zero => exact ⟨rfl, fun j => (if_neg (by omega)).symm⟩
  | succ k ih =>
      have hk : rank mem (k + 1) = rank mem k + if (mem k).per = .full then 1 else 0 := rank_succ
      obtain ⟨hblk, hswab⟩ := ih (by omega)
      cases hr : requests read mem swap k with
      | mk blk swab =>
          rw [hr] at hblk hswab
          simp only [requests, hr]
          by_cases hp : (mem k).per = .full
          · rw [if_pos hp] at hk
            rw [if_neg (not_not.mpr hp)]
            refine ⟨?_, fun j => ?_⟩
            · rw [show blk = _ from hblk, Nat.mod_eq_of_lt (by omega)]
              omega
            · dsimp only
              by_cases hj : j = k
              · subst hj
                rw [Function.update_self, if_pos ⟨Nat.lt_succ_self j, hp⟩, show blk = _ from hblk]
              · rw [Function.update_of_ne hj]
                refine (hswab j).trans (if_congr ?_ rfl rfl)
                rw [Nat.lt_succ_iff_lt_or_eq]
                simp [hj]
          · rw [if_neg hp] at hk
            rw [if_pos hp]
            refine ⟨hblk.trans (by omega), fun j => (hswab j).trans (if_congr ?_ rfl rfl)⟩
            rw [Nat.lt_succ_iff_lt_or_eq]
            constructor
            · rintro ⟨hj, hf⟩
              exact ⟨Or.inl hj, hf⟩
            · rintro ⟨hj | rfl, hf⟩
              · exact ⟨hj, hf⟩
              · exact absurd hf hp

/-- `bankcopy` writes only to the segments of the child. -/
lemma bankcopy_frame {n : ℕ} (h : ∀ i < k, (child i).seg ≠ n) : bankcopy parent child core k n = core n := by
  induction k with
  | zero => rfl
  | succ k ih =>
      have hk := ih fun i hi => h i (by omega)
      rw [bankcopy]
      split_ifs
      · rw [Function.update_of_ne (h k (by omega)).symm]
        exact hk
      · exact hk

/-- **`bankcopy`.**  The child's segments hold what the parent's do. -/
lemma bankcopy_spec (hpc : ∀ i < k, ∀ j < k, (child i).seg ≠ (parent j).seg)
    (hcc : ∀ i < k, ∀ j < k, (parent i).per = .full → (parent j).per = .full →
      (child i).seg = (child j).seg → i = j) (hi : i < k) (hp : (parent i).per = .full) :
    bankcopy parent child core k (child i).seg = core (parent i).seg := by
  induction k with
  | zero => omega
  | succ k ih =>
      have hsrc : bankcopy parent child core k (parent k).seg = core (parent k).seg :=
        bankcopy_frame fun j hj => hpc j (by omega) k (by omega)
      rw [bankcopy]
      by_cases hk : (parent k).per = .full
      · rw [if_pos hk]
        by_cases hik : i = k
        · subst hik
          rw [Function.update_self, hsrc]
        · rw [Function.update_of_ne fun he => hik (hcc i hi k (by omega) hp hk he)]
          exact ih (fun a ha b hb => hpc a (by omega) b (by omega))
            (fun a ha b hb => hcc a (by omega) b (by omega)) (by omega)
      · rw [if_neg hk]
        refine ih (fun a ha b hb => hpc a (by omega) b (by omega))
          (fun a ha b hb => hcc a (by omega) b (by omega)) ?_
        refine Nat.lt_of_le_of_ne (by omega) ?_
        rintro rfl
        exact hk hp

/-! ## Segments and processes -/

/-- The process has an extent of swap space. -/
def Away (st : Stat) : Prop := st = .leaving ∨ st = .forked ∨ st = .swapped ∨ st = .entering

lemma Away.alive {st : Stat} (h : Away st) : st.Alive := by
  rcases h with rfl | rfl | rfl | rfl <;> trivial

lemma State.Moves.away {st : Stat} (h : State.Moves st) : Away st := by
  rcases h with rfl | rfl | rfl
  · exact Or.inl rfl
  · exact Or.inr (Or.inl rfl)
  · exact Or.inr (Or.inr (Or.inr rfl))

/-- Processes that have segments have none in common. -/
lemma seg_ne (h : Memory.Inv bad m) (hxy : x ≠ y) (hx : (m.proc x).stat.Holds)
    (hy : (m.proc y).stat.Holds) (hi : i < 17) (hj : j < 17) :
    ((m.proc x).mem i).seg ≠ ((m.proc y).mem j).seg := by
  have hlow : ∀ k < 17, ((m.proc 0).mem k).seg < 16 := by
    intro k hk
    rw [h.swapper]
    exact swapper_seg hk
  by_cases hx0 : x = 0
  · subst hx0
    have h1 := hlow i hi
    have h2 := ((h.owns y hxy.symm hy).inMap j hj).1
    omega
  · by_cases hy0 : y = 0
    · subst hy0
      have h1 := hlow j hj
      have h2 := ((h.owns x hx0 hx).inMap i hi).1
      omega
    · exact h.apart x hx0 y hy0 hxy hx hy i hi j hj

/-- A process that comes in has a segment for each of its `FULL` entries. -/
lemma full_inj (h : Memory.Inv bad m) (hst : (m.proc t).stat = .entering)
    (hswap : (m.proc t).swap ≠ 0) (hi : i < 17) (hj : j < 17) (hp : ((m.proc t).mem i).per = .full)
    (he : ((m.proc t).mem i).seg = ((m.proc t).mem j).seg) : i = j := by
  have h0 : t ≠ 0 := h.ne_zero (by rw [hst]; decide)
  refine (h.layout t h0 (Or.inr hst)).own hi hj ?_ he
  rintro (hg | ⟨-, hz⟩)
  · rw [hp] at hg
    cases hg
  · exact hswap hz

/-- The `FULL` entries are not more than `p->nsegs`. -/
lemma rank_le_nsegs (h : Memory.Inv bad m) (ha : (m.proc t).stat.Alive) :
    rank (m.proc t).mem 17 ≤ (m.proc t).nsegs := by
  rw [(h.shape t ha).nsegs]
  exact Nat.le_add_right _ _

/-- The process has no extent and does not wait for one. -/
def Calm (p : Proc) : Prop := ¬Away p.stat ∧ ∀ c, p.sleep ≠ .fork c

lemma not_away_core : ¬Away .core := by
  rintro (h | h | h | h) <;> cases h

lemma calm_of_runs {p : Proc} (h : p.Runs) : Calm p := by
  refine ⟨?_, fun c hc => ?_⟩
  · rw [h.1]
    exact not_away_core
  · rw [h.2] at hc
    cases hc

/-- `grow` wakes the process up or leaves it in `grow`. -/
lemma Calm.growOn {p : Pool} {z : Proc} (h : Calm z) : Calm (p.growOn z).2 := by
  rw [Pool.growOn]
  split_ifs
  · exact h
  · exact ⟨h.1, fun c hc => by cases hc⟩
  · exact ⟨h.1, fun c hc => by cases hc⟩

lemma Calm.grow {p : Pool} {z : Proc} {seg b d : ℕ} (h : Calm z) : Calm (p.grow z seg b d).2 := by
  rw [Pool.grow]
  split_ifs
  · exact h
  · exact h
  · exact h
  · exact Calm.growOn ⟨h.1, fun c hc => by cases hc⟩

/-- A step that is not about the swap device changes one process. -/
lemma local_frame {l : Memory.Label} (hl : Local l) (he : Memory.step m l = some m')
    (hp : ∀ x c, (m.proc x).sleep = .fork c → (m.proc x).stat = .core) :
    ∃ x, (∀ t, t ≠ x → m'.proc t = m.proc t) ∧ Calm (m.proc x) ∧ Calm (m'.proc x) ∧
      ((m'.proc x).stat = .core → (m.proc x).stat = .core) := by
  have hput (x : ℕ) (r : Pool × Proc) (h : Calm (m.proc x)) (hr : Calm r.2)
      (hc : r.2.stat = .core → (m.proc x).stat = .core) :
      ∃ x', (∀ t, t ≠ x' → (m.put x r).proc t = m.proc t) ∧ Calm (m.proc x') ∧
        Calm ((m.put x r).proc x') ∧
        (((m.put x r).proc x').stat = .core → (m.proc x').stat = .core) := by
    have hat : (m.put x r).proc x = r.2 := Function.update_self ..
    refine ⟨x, fun t ht => Function.update_of_ne ht .., h, ?_⟩
    rw [hat]
    exact ⟨hr, hc⟩
  cases l with
  | exec x =>
      simp only [Memory.step, Option.ite_none_right_eq_some, Option.some.injEq] at he
      obtain ⟨⟨-, hr⟩, rfl⟩ := he
      exact hput x _ (calm_of_runs hr) (calm_of_runs hr) fun _ => hr.1
  | grow x seg b t =>
      simp only [Memory.step, Option.ite_none_right_eq_some, Option.some.injEq] at he
      obtain ⟨⟨-, hr, -⟩, rfl⟩ := he
      exact hput x _ (calm_of_runs hr) (calm_of_runs hr).grow fun _ => hr.1
  | wake x =>
      simp only [Memory.step, Option.ite_none_right_eq_some, Option.some.injEq] at he
      obtain ⟨⟨-, hc, hw⟩, rfl⟩ := he
      have hcalm : Calm (m.proc x) := by
        refine ⟨?_, fun c hs => ?_⟩
        · rw [hc]
          exact not_away_core
        · rw [Proc.Waits, hs] at hw
          cases hw
      exact hput x _ hcalm hcalm.growOn fun _ => hc
  | exit x =>
      simp only [Memory.step, Option.ite_none_right_eq_some, Option.some.injEq] at he
      obtain ⟨⟨-, hr⟩, rfl⟩ := he
      refine hput x _ (calm_of_runs hr) ⟨?_, (calm_of_runs hr).2⟩ fun _ => hr.1
      rintro (h | h | h | h) <;> cases h
  | reap x =>
      simp only [Memory.step, Option.ite_none_right_eq_some, Option.some.injEq] at he
      obtain ⟨hz, rfl⟩ := he
      refine hput x _ ⟨?_, fun c hc => ?_⟩ ⟨?_, fun c hc => by cases hc⟩ fun hc => by cases hc
      · rw [hz]
        rintro (h | h | h | h) <;> cases h
      · have := hp x c hc
        rw [hz] at this
        cases this
      · rintro (h | h | h | h) <;> cases h
  | _ => exact hl.elim

/-- The loop of `mget` does not change the permissions. -/
lemma mgetUpTo_per {p : Pool} : ∀ i, ((p.mgetUpTo mem k).2.2 i).per = (mem i).per := by
  induction k with
  | zero => exact fun i => rfl
  | succ k ih =>
      intro i
      rw [Pool.mgetUpTo]
      dsimp only
      split_ifs
      all_goals
        dsimp only
        by_cases hi : i = k
        · subst hi
          rw [Function.update_self]
          first | exact ih i | (rw [← ih i]; symm; assumption)
        · rw [Function.update_of_ne hi]
          exact ih i

/-- `mget` changes the segments of the map only. -/
lemma mget_keeps {p : Pool} {z : Proc} {r : Pool × Proc} (h : p.mget z = some r) :
    ∃ mem, r.2 = { z with mem := mem } ∧ ∀ i, (mem i).per = (z.mem i).per := by
  have hper : ∀ i, ((p.mgetUpTo z.mem 17).2.2 i).per = (z.mem i).per := mgetUpTo_per
  rw [Pool.mget] at h
  split_ifs at h
  rcases hloop : p.mgetUpTo z.mem 17 with ⟨q, g, mem⟩
  rw [hloop] at h hper
  obtain rfl := Option.some.inj h
  exact ⟨mem, rfl, hper⟩

/-! ## Parents -/

/-- The child of a process asleep in `fork` is on its way to the swap device, with the map of its parent. -/
structure Forks (m : Memory.State) : Prop where
  parent : ∀ x c, (m.proc x).sleep = .fork c → (m.proc x).stat = .core ∧ (m.proc c).stat = .forked ∧
    (m.proc c).mem = (m.proc x).mem
  one : ∀ x y c, (m.proc x).sleep = .fork c → (m.proc y).sleep = .fork c → x = y
  child : ∀ c, (m.proc c).stat = .forked → ∃ x, (m.proc x).sleep = .fork c

/-- The process is not in `fork`. -/
def Alone (p : Proc) : Prop := p.stat ≠ .forked ∧ ∀ c, p.sleep ≠ .fork c

lemma Calm.alone {p : Proc} (h : Calm p) : Alone p := ⟨fun hf => h.1 (Or.inr (Or.inl hf)), h.2⟩

namespace Forks

lemma alone_of_ne (h : Forks m) (hc : (m.proc x).stat ≠ .core) (hf : (m.proc x).stat ≠ .forked) :
    Alone (m.proc x) :=
  ⟨hf, fun c hs => hc (h.parent x c hs).1⟩

/-- A change of a process that is not in `fork`. -/
lemma change (h : Forks m) (hne : ∀ t, t ≠ x → m'.proc t = m.proc t) (hx : Alone (m.proc x))
    (hr : Alone (m'.proc x)) : Forks m' := by
  have hsleep (a c : ℕ) (hs : (m'.proc a).sleep = .fork c) : a ≠ x ∧ (m.proc a).sleep = .fork c := by
    by_cases ha : a = x
    · subst ha
      exact absurd hs (hr.2 c)
    · rw [hne a ha] at hs
      exact ⟨ha, hs⟩
  refine ⟨fun a c hs => ?_, fun a b c ha hb => ?_, fun c hc => ?_⟩
  · obtain ⟨ha, hs⟩ := hsleep a c hs
    obtain ⟨hcore, hf, hmem⟩ := h.parent a c hs
    have hcx : c ≠ x := by
      rintro rfl
      exact hx.1 hf
    rw [hne a ha, hne c hcx]
    exact ⟨hcore, hf, hmem⟩
  · exact h.one a b c (hsleep a c ha).2 (hsleep b c hb).2
  · have hcx : c ≠ x := by
      rintro rfl
      exact hr.1 hc
    rw [hne c hcx] at hc
    obtain ⟨a, ha⟩ := h.child c hc
    have hax : a ≠ x := by
      rintro rfl
      exact hx.2 c ha
    exact ⟨a, by rw [hne a hax]; exact ha⟩

/-- The parent goes to sleep. -/
lemma sleep (h : Forks m) {blk : ℕ} (hr : (m.proc x).Runs) (hc : (m.proc c).stat = .free) :
    Forks ((m.put c (m.pool, { m.proc x with stat := .forked, swap := blk })).put x
      (m.pool, { m.proc x with sleep := .fork c })) := by
  have hxc : x ≠ c := by
    rintro rfl
    rw [hr.1] at hc
    cases hc
  set m' := (m.put c (m.pool, { m.proc x with stat := .forked, swap := blk })).put x
    (m.pool, { m.proc x with sleep := .fork c }) with hm'
  have hx' : m'.proc x = { m.proc x with sleep := .fork c } := Function.update_self ..
  have hc' : m'.proc c = { m.proc x with stat := .forked, swap := blk } :=
    (Function.update_of_ne hxc.symm ..).trans (Function.update_self ..)
  have hne (t : ℕ) (ht : t ≠ x) (htc : t ≠ c) : m'.proc t = m.proc t :=
    (Function.update_of_ne ht ..).trans (Function.update_of_ne htc ..)
  -- Who sleeps now is the parent, or slept before and for another child.
  have hsleep (a d : ℕ) (hs : (m'.proc a).sleep = .fork d) :
      a = x ∧ d = c ∨ a ≠ x ∧ a ≠ c ∧ d ≠ c ∧ d ≠ x ∧ (m.proc a).sleep = .fork d := by
    by_cases hax : a = x
    · subst hax
      rw [hx'] at hs
      exact Or.inl ⟨rfl, (Sleep.fork.inj hs).symm⟩
    · by_cases hac : a = c
      · subst hac
        rw [hc'] at hs
        have hs : (m.proc x).sleep = .fork d := hs
        rw [hr.2] at hs
        cases hs
      · rw [hne a hax hac] at hs
        have hf := (h.parent a d hs).2.1
        refine Or.inr ⟨hax, hac, ?_, ?_, hs⟩
        · rintro rfl
          rw [hc] at hf
          cases hf
        · rintro rfl
          rw [hr.1] at hf
          cases hf
  refine ⟨fun a d hs => ?_, fun a b d ha hb => ?_, fun d hd => ?_⟩
  · rcases hsleep a d hs with ⟨rfl, rfl⟩ | ⟨hax, hac, hdc, hdx, hs⟩
    · rw [hx', hc']
      exact ⟨hr.1, rfl, rfl⟩
    · rw [hne a hax hac, hne d hdx hdc]
      exact h.parent a d hs
  · rcases hsleep a d ha with ⟨rfl, rfl⟩ | ⟨-, -, hdc, -, ha⟩
    · rcases hsleep b d hb with ⟨rfl, -⟩ | ⟨-, -, hdc, -⟩
      · rfl
      · exact absurd rfl hdc
    · rcases hsleep b d hb with ⟨-, rfl⟩ | ⟨-, -, -, -, hb⟩
      · exact absurd rfl hdc
      · exact h.one a b d ha hb
  · by_cases hdc : d = c
    · subst hdc
      exact ⟨x, by rw [hx']⟩
    · by_cases hdx : d = x
      · subst hdx
        rw [hx'] at hd
        have hd : (m.proc d).stat = .forked := hd
        rw [hr.1] at hd
        cases hd
      · rw [hne d hdx hdc] at hd
        obtain ⟨a, ha⟩ := h.child d hd
        have hax : a ≠ x := by
          rintro rfl
          rw [hr.2] at ha
          cases ha
        have hac : a ≠ c := by
          rintro rfl
          have := (h.parent a d ha).1
          rw [hc] at this
          cases this
        exact ⟨a, by rw [hne a hax hac]; exact ha⟩

/-- The parent goes on. -/
lemma wake (h : Forks m) (hs : (m.proc x).sleep = .fork c) :
    Forks ((m.put c (m.pool, { m.proc c with stat := .swapped })).put x
      (m.pool, { m.proc x with sleep := .no })) := by
  obtain ⟨hcore, hf, -⟩ := h.parent x c hs
  have hxc : x ≠ c := by
    rintro rfl
    rw [hcore] at hf
    cases hf
  set m' := (m.put c (m.pool, { m.proc c with stat := .swapped })).put x
    (m.pool, { m.proc x with sleep := .no }) with hm'
  have hx' : m'.proc x = { m.proc x with sleep := .no } := Function.update_self ..
  have hc' : m'.proc c = { m.proc c with stat := .swapped } :=
    (Function.update_of_ne hxc.symm ..).trans (Function.update_self ..)
  have hne (t : ℕ) (ht : t ≠ x) (htc : t ≠ c) : m'.proc t = m.proc t :=
    (Function.update_of_ne ht ..).trans (Function.update_of_ne htc ..)
  -- Who still sleeps does so for another child.
  have hsleep (a d : ℕ) (hs' : (m'.proc a).sleep = .fork d) :
      a ≠ x ∧ a ≠ c ∧ d ≠ c ∧ d ≠ x ∧ (m.proc a).sleep = .fork d := by
    have hax : a ≠ x := by
      rintro rfl
      rw [hx'] at hs'
      cases hs'
    have hac : a ≠ c := by
      rintro rfl
      rw [hc'] at hs'
      have hs' : (m.proc a).sleep = .fork d := hs'
      have := (h.parent a d hs').1
      rw [hf] at this
      cases this
    rw [hne a hax hac] at hs'
    refine ⟨hax, hac, ?_, ?_, hs'⟩
    · rintro rfl
      exact hax (h.one a x d hs' hs)
    · rintro rfl
      have := (h.parent a d hs').2.1
      rw [hcore] at this
      cases this
  refine ⟨fun a d hs' => ?_, fun a b d ha hb => ?_, fun d hd => ?_⟩
  · obtain ⟨hax, hac, hdc, hdx, hs'⟩ := hsleep a d hs'
    rw [hne a hax hac, hne d hdx hdc]
    exact h.parent a d hs'
  · exact h.one a b d (hsleep a d ha).2.2.2.2 (hsleep b d hb).2.2.2.2
  · have hdc : d ≠ c := by
      rintro rfl
      rw [hc'] at hd
      cases hd
    have hdx : d ≠ x := by
      rintro rfl
      rw [hx'] at hd
      have hd : (m.proc d).stat = .forked := hd
      rw [hcore] at hd
      cases hd
    rw [hne d hdx hdc] at hd
    obtain ⟨a, ha⟩ := h.child d hd
    have hax : a ≠ x := by
      rintro rfl
      rw [hs] at ha
      exact hdc (Sleep.fork.inj ha).symm
    have hac : a ≠ c := by
      rintro rfl
      have := (h.parent a d ha).1
      rw [hf] at this
      cases this
    exact ⟨a, by rw [hne a hax hac]; exact ha⟩

/-- **The step.** -/
lemma step {l : Memory.Label} (h : Forks m) (he : Memory.step m l = some m') : Forks m' := by
  have hput {x : ℕ} {r : Pool × Proc} (hx : Alone (m.proc x)) (hr : Alone r.2) : Forks (m.put x r) := by
    refine h.change (fun t ht => Function.update_of_ne ht ..) hx ?_
    rw [State.put]
    dsimp only
    rwa [Function.update_self]
  cases l with
  | fork x c blk =>
      simp only [Memory.step, Option.ite_none_right_eq_some, Option.some.injEq] at he
      obtain ⟨⟨hr, hf⟩, rfl⟩ := he
      have hc : Alone (m.proc c) := h.alone_of_ne (by rw [hf]; decide) (by rw [hf]; decide)
      rw [Memory.procopy]
      split
      · rename_i r hget
        obtain ⟨mem, hmem, -⟩ := mget_keeps hget
        refine hput hc ?_
        rw [hmem]
        refine ⟨(fun hf => by cases hf), fun d hd => ?_⟩
        have hd : (m.proc x).sleep = .fork d := hd
        rw [hr.2] at hd
        cases hd
      · split_ifs
        · exact hput hc ⟨(fun hf => by cases hf), fun d hd => by cases hd⟩
        · exact h.sleep hr hf
  | forked x =>
      simp only [Memory.step] at he
      split at he
      · rename_i c hs
        simp only [Option.ite_none_right_eq_some, Option.some.injEq] at he
        obtain ⟨-, rfl⟩ := he
        exact h.wake hs
      · cases he
  | swapout x blk =>
      simp only [Memory.step, Option.ite_none_right_eq_some, Option.some.injEq] at he
      obtain ⟨⟨-, hc, hl⟩, rfl⟩ := he
      have hsleep (c : ℕ) : (m.proc x).sleep ≠ .fork c := by
        intro hs
        rw [Proc.Locked, hs] at hl
        exact hl rfl
      refine hput ⟨by rw [hc]; decide, hsleep⟩ ?_
      rw [Memory.swapout]
      split_ifs
      · exact ⟨by dsimp only; rw [hc]; decide, hsleep⟩
      · exact ⟨(fun hf => by cases hf), hsleep⟩
  | swappedOut x =>
      simp only [Memory.step, Option.ite_none_right_eq_some, Option.some.injEq] at he
      obtain ⟨hst, rfl⟩ := he
      have hx := h.alone_of_ne (by rw [hst]; decide) (by rw [hst]; decide)
      exact hput hx ⟨(fun hf => by cases hf), hx.2⟩
  | swapin x =>
      simp only [Memory.step, Option.ite_none_right_eq_some, Option.some.injEq] at he
      obtain ⟨hst, rfl⟩ := he
      have hx := h.alone_of_ne (by rw [hst]; decide) (by rw [hst]; decide)
      split
      · rename_i r hget
        obtain ⟨mem, hmem, -⟩ := mget_keeps hget
        refine hput hx ?_
        rw [hmem]
        exact ⟨(fun hf => by cases hf), hx.2⟩
      · exact h
  | swappedIn x =>
      simp only [Memory.step, Option.ite_none_right_eq_some, Option.some.injEq] at he
      obtain ⟨hst, rfl⟩ := he
      have hx := h.alone_of_ne (by rw [hst]; decide) (by rw [hst]; decide)
      exact hput hx ⟨(fun hf => by cases hf), hx.2⟩
  | _ =>
      obtain ⟨x, hsame, hx, hx', -⟩ := local_frame (by trivial) he fun a c hs => (h.parent a c hs).1
      exact h.change hsame hx.alone hx'.alone

end Forks

/-- The segments that are written to the swap device or read from it are in use by no process but the one
that they belong to. -/
lemma mover_ne {z : ℕ} (h : Memory.Inv bad m) (hf : Forks m) (hv : State.Moves (m.proc t).stat)
    (hz : (m.proc z).stat.Holds) (hzt : z ≠ t) (hs : (m.proc z).sleep ≠ .fork t) (hj : j < 17)
    (hi : i < 17) : ((m.proc t).mem j).seg ≠ ((m.proc z).mem i).seg := by
  rcases hv with hv | hv | hv
  · exact seg_ne h hzt.symm (by rw [hv]; trivial) hz hj hi
  · obtain ⟨a, ha⟩ := hf.child t hv
    obtain ⟨hcore, -, hmem⟩ := hf.parent a t ha
    rw [hmem]
    refine seg_ne h ?_ (by rw [hcore]; trivial) hz hj hi
    rintro rfl
    exact hs ha
  · exact seg_ne h hzt.symm (by rw [hv]; trivial) hz hj hi

end Swapping

end Micronix
