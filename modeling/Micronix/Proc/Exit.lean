import Micronix.Proc.Family

/-!
# The end of `exit`

The dead children of the process are freed, the others become children of init, and its parent is
woken.
-/

namespace Micronix

namespace Procs

open Transition

namespace State

variable {s s' : State} {x c q : ℕ}

/-! ## The end of `exit` -/

/-- The entry of `p` after the exit of `x`, before anybody is woken. -/
def left (s : State) (x p : ℕ) : Entry :=
  if p = x then ((s.t.disown x).plist x).die else (s.t.disown x).plist p

/-- The parent is woken. -/
lemma quit_plist (s : State) (x : ℕ) : ∃ c,
    (∀ p, Table.Stirred (s.left x p) ((s.quit x).t.plist p)) ∧
      (∀ z, (s.left x x).parent = some z → c = .proc z) ∧
      ∀ p < nproc, (s.left x p).event = c → ((s.quit x).t.plist p).mode.awake = true := by
  set t := (s.t.disown x).modify x .die with ht
  have hleft : ∀ p, t.plist p = s.left x p := by
    intro p
    by_cases hp : p = x
    · subst hp
      simp [ht, Table.modify, Table.set, left]
    · simp [ht, Table.modify, Table.set, left, hp]
  cases hpar : (t.plist x).parent with
  | none =>
      have hq : (s.quit x).t = t.wakeup .none := by
        simp only [State.quit, Table.quit, ← ht, hpar]
      refine ⟨.none, fun p => ?_, fun z hz => ?_, fun p hp he => ?_⟩
      · rw [hq, ← hleft]
        exact Table.wakeup_stirred t _ p
      · rw [← hleft, hpar] at hz
        exact absurd hz (by simp)
      · rw [hq]
        exact Table.wakeup_awake hp (hleft p ▸ he)
  | some z =>
      have hq : (s.quit x).t = t.wakeup (.proc z) := by
        simp only [State.quit, Table.quit, ← ht, hpar]
      refine ⟨.proc z, fun p => ?_, fun z' hz => ?_, fun p hp he => ?_⟩
      · rw [hq, ← hleft]
        exact Table.wakeup_stirred t _ p
      · rw [← hleft, hpar] at hz
        cases hz
        rfl
      · rw [hq]
        exact Table.wakeup_awake hp (hleft p ▸ he)

/-- What `exit` leaves of an entry: of a dead child nothing, of a living one a child of init. -/
lemma left_cases (hf : s.Family) (x p : ℕ) :
    (p = x ∧ s.left x p = (s.t.plist p).die) ∨
    (p ≠ x ∧ (s.t.plist p).parent ≠ some x ∧ s.left x p = s.t.plist p) ∨
    (p ≠ x ∧ (s.t.plist p).parent = some x ∧ (s.t.plist p).mode.alive = false ∧
      s.left x p = .zero) ∨
    (p ≠ x ∧ (s.t.plist p).parent = some x ∧ (s.t.plist p).mode.alive = true ∧
      s.left x p = { s.t.plist p with parent := some Table.initproc }) := by
  by_cases hpx : p = x
  · subst hpx
    exact Or.inl ⟨rfl, by simp [left, Table.disown, hf.other p]⟩
  · by_cases hpar : (s.t.plist p).parent = some x
    · have hlt := (hf.child hpar).2
      cases ha : (s.t.plist p).mode.alive with
      | false =>
          exact Or.inr (Or.inr (Or.inl ⟨hpx, hpar, rfl, by
            simp [left, Table.disown, hpx, hlt, hpar, ha]⟩))
      | true =>
          exact Or.inr (Or.inr (Or.inr ⟨hpx, hpar, rfl, by
            simp [left, Table.disown, hpx, hlt, hpar, ha]⟩))
    · exact Or.inr (Or.inl ⟨hpx, hpar, by simp [left, Table.disown, hpx, hpar]⟩)

/-- Rousing changes nothing that matters here. -/
lemma stirred_facts {e e' : Entry} (h : Table.Stirred e e') :
    e'.mode.alloc = e.mode.alloc ∧ e'.mode.alive = e.mode.alive ∧ e'.parent = e.parent ∧
      e'.status = e.status ∧
      (e'.mode.awake = false → e.mode.awake = false ∧ e'.event = e.event) := by
  rcases h with rfl | rfl
  · exact ⟨rfl, rfl, rfl, rfl, fun h => ⟨h, rfl⟩⟩
  · exact ⟨rfl, rfl, rfl, rfl, fun h => absurd h (by simp [Entry.rouse])⟩

/-- What `exit` changes that matters here, slot by slot. -/
lemma quit_cases (hf : s.Family) (x p : ℕ) :
    let e := s.t.plist p
    let e' := (s.quit x).t.plist p
    (p = x ∧ e'.mode.alloc = e.mode.alloc ∧ e'.mode.alive = false ∧ e'.parent = e.parent ∧
      e'.status = e.status) ∨
    (p ≠ x ∧ e.parent ≠ some x ∧ e'.mode.alloc = e.mode.alloc ∧ e'.mode.alive = e.mode.alive ∧
      e'.parent = e.parent ∧ e'.status = e.status) ∨
    (p ≠ x ∧ e.parent = some x ∧ e.mode.alive = false ∧ e'.mode.alloc = false ∧
      e'.mode.alive = false ∧ e'.parent = none) ∨
    (p ≠ x ∧ e.parent = some x ∧ e.mode.alive = true ∧ e'.mode.alloc = e.mode.alloc ∧
      e'.mode.alive = true ∧ e'.parent = some Table.initproc ∧ e'.status = e.status) := by
  obtain ⟨c, hst, -, -⟩ := s.quit_plist x
  obtain ⟨h1, h2, h3, h4, -⟩ := stirred_facts (hst p)
  dsimp only
  rw [h1, h2, h3, h4]
  rcases left_cases hf x p with ⟨rfl, he⟩ | ⟨hp, hpar, he⟩ | ⟨hp, hpar, ha, he⟩ | ⟨hp, hpar, ha, he⟩
  · exact Or.inl (by simp [he, Entry.die])
  · exact Or.inr (Or.inl (by simp [he, hp, hpar]))
  · exact Or.inr (Or.inr (Or.inl (by simp [he, hp, hpar, ha, Entry.zero])))
  · exact Or.inr (Or.inr (Or.inr (by simp [he, hp, hpar, ha])))

section Quit

variable (hf : s.Family) (hr : s.Ready x) (hx : s.phase x = .closing)

include hf hr hx

omit hf hr hx in
lemma quit_phase (p : ℕ) : (s.quit x).phase p = if p = x then .run else s.phase p := by
  simp only [State.quit, Function.update_apply]

lemma quit_born (p : ℕ) : (s.quit x).Born p ↔
    s.Born p ∧ ¬((s.t.plist p).parent = some x ∧ (s.t.plist p).mode.alive = false) := by
  have hph : (s.quit x).phase p ≠ .unborn ↔ s.phase p ≠ .unborn := by
    rw [quit_phase]
    split_ifs with hp
    · subst hp
      simp [hx]
    · rfl
  rw [Born, Born, hph]
  rcases quit_cases hf x p with ⟨rfl, h1, -⟩ | ⟨-, hpar, h1, -⟩ | ⟨-, hpar, ha, h1, -⟩ |
    ⟨-, hpar, ha, h1, -⟩
  · simp [h1, hf.other p]
  · simp [h1, hpar]
  · simp [h1, hpar, ha]
  · simp [h1, ha]

lemma quit_family : (s.quit x).Family := by
  have hborn := quit_born hf hr hx
  have hphase := quit_phase (s := s) (x := x)
  -- whoever is not an exited child of `x` keeps `ALLOC`
  have hinit : (s.quit x).Born Table.initproc := by
    refine (hborn _).mpr ⟨hf.init.2, fun hc => ?_⟩
    rw [hf.init.1] at hc
    exact hr.1 (Option.some.inj hc.1).symm
  have hforking : ∀ y d, (s.quit x).phase y = .forking d → y ≠ x ∧ s.phase y = .forking d := by
    intro y d hy
    rw [hphase] at hy
    split_ifs at hy with h
    exact ⟨h, hy⟩
  constructor
  · intro p hp
    rcases quit_cases hf x p with ⟨-, h1, -⟩ | ⟨-, -, h1, -⟩ | ⟨-, -, -, h1, -⟩ | ⟨-, -, -, h1, -⟩
    · exact hf.bound p (h1 ▸ hp)
    · exact hf.bound p (h1 ▸ hp)
    · rw [h1] at hp
      exact absurd hp (by simp)
    · exact hf.bound p (h1 ▸ hp)
  · intro p hp
    rcases quit_cases hf x p with ⟨-, h1, -, h2, -⟩ | ⟨-, -, h1, -, h2, -⟩ | ⟨-, -, -, -, -, h2⟩ |
      ⟨-, hpar, -, h1, -⟩
    · exact h2.trans (hf.free p (h1 ▸ hp))
    · exact h2.trans (hf.free p (h1 ▸ hp))
    · exact h2
    · rw [hf.free p (h1 ▸ hp)] at hpar
      exact absurd hpar (by simp)
  · obtain ⟨hnone, hb⟩ := hf.swapper
    have hne : (s.t.plist Table.swapproc).parent ≠ some x := by rw [hnone]; simp
    refine ⟨?_, (hborn _).mpr ⟨hb, fun hc => hne hc.1⟩⟩
    rcases quit_cases hf x Table.swapproc with ⟨-, -, -, h2, -⟩ | ⟨-, -, -, -, h2, -⟩ | ⟨-, hc, -⟩ |
      ⟨-, hc, -⟩
    · exact h2.trans hnone
    · exact h2.trans hnone
    · exact absurd hc hne
    · exact absurd hc hne
  · have hne : (s.t.plist Table.initproc).parent ≠ some x := by
      rw [hf.init.1]
      exact fun he => hr.1 (Option.some.inj he).symm
    refine ⟨?_, hinit⟩
    rcases quit_cases hf x Table.initproc with ⟨-, -, -, h2, -⟩ | ⟨-, -, -, -, h2, -⟩ | ⟨-, hc, -⟩ |
      ⟨-, hc, -⟩
    · exact h2.trans hf.init.1
    · exact h2.trans hf.init.1
    · exact absurd hc hne
    · exact absurd hc hne
  · intro p hp0 hp
    -- the parent of a process that keeps it: not one of the dead children of `x`
    have hkeep : ∀ y, s.Born y → ((s.t.plist y).mode.alive = true ∨ y = Table.initproc) → y ≠ x →
        (s.quit x).Born y ∧
          (((s.quit x).t.plist y).mode.alive = true ∨ y = Table.initproc) := by
      intro y hb hl hyx
      rcases hl with hl | rfl
      · refine ⟨(hborn y).mpr ⟨hb, fun hc => absurd hc.2 (by simp [hl])⟩, Or.inl ?_⟩
        rcases quit_cases hf x y with ⟨hc, -⟩ | ⟨-, -, -, h2, -⟩ | ⟨-, -, hc, -⟩ | ⟨-, -, -, -, h2, -⟩
        · exact absurd hc hyx
        · exact h2.trans hl
        · rw [hl] at hc
          exact absurd hc (by simp)
        · exact h2
      · exact ⟨hinit, Or.inr rfl⟩
    rcases quit_cases hf x p with ⟨rfl, h1, -, h2, -⟩ | ⟨-, hpar, h1, -, h2, -⟩ | ⟨-, -, -, h1, -⟩ |
      ⟨-, -, -, -, -, h2, -⟩
    · obtain ⟨y, hy, hb, hl⟩ := hf.parent p hp0 (h1 ▸ hp)
      have hyp : y ≠ p := by
        rintro rfl
        exact hf.other y hy
      obtain ⟨h3, h4⟩ := hkeep y hb hl hyp
      exact ⟨y, h2.trans hy, h3, h4⟩
    · obtain ⟨y, hy, hb, hl⟩ := hf.parent p hp0 (h1 ▸ hp)
      have hyx : y ≠ x := by
        rintro rfl
        exact hpar hy
      obtain ⟨h3, h4⟩ := hkeep y hb hl hyx
      exact ⟨y, h2.trans hy, h3, h4⟩
    · rw [h1] at hp
      exact absurd hp (by simp)
    · exact ⟨_, h2, hinit, Or.inr rfl⟩
  · intro p
    rcases quit_cases hf x p with ⟨-, -, -, h2, -⟩ | ⟨-, -, -, -, h2, -⟩ | ⟨-, -, -, -, -, h2⟩ |
      ⟨-, hpar, -, -, -, h2, -⟩
    · rw [h2]
      exact hf.other p
    · rw [h2]
      exact hf.other p
    · rw [h2]
      simp
    · rw [h2]
      rintro he
      -- init is no child of `x`
      have hp1 : Table.initproc = p := Option.some.inj he
      rw [← hp1, hf.init.1] at hpar
      exact hr.1 (Option.some.inj hpar).symm
  · intro p hp
    rw [hphase] at hp
    split_ifs at hp with hpx
    · exact absurd rfl hp
    · obtain ⟨h1, h2, h3, h4⟩ := hf.busy p hp
      rcases quit_cases hf x p with ⟨hc, -⟩ | ⟨-, -, h5, h6, -⟩ | ⟨-, -, hc, -⟩ | ⟨-, -, -, h5, h6, -⟩
      · exact absurd hc hpx
      · exact ⟨h1, h2, h5.trans h3, h6.trans h4⟩
      · rw [h4] at hc
        exact absurd hc (by simp)
      · exact ⟨h1, h2, h5.trans h3, h6⟩
  · intro y d hy
    obtain ⟨hyx, hold⟩ := hforking y d hy
    obtain ⟨hd, hpar⟩ := hf.forking y d hold
    have hdx : d ≠ x := by
      rintro rfl
      rw [hx] at hd
      exact absurd hd (by simp)
    have hne : (s.t.plist d).parent ≠ some x := by
      rw [hpar]
      exact fun he => hyx (Option.some.inj he)
    refine ⟨by rw [hphase, if_neg hdx, hd], ?_⟩
    rcases quit_cases hf x d with ⟨hc, -⟩ | ⟨-, -, -, -, h2, -⟩ | ⟨-, hc, -⟩ | ⟨-, hc, -⟩
    · exact absurd hc hdx
    · exact h2.trans hpar
    · exact absurd hc hne
    · exact absurd hc hne
  · intro d hd
    rw [hphase] at hd
    split_ifs at hd with hdx
    obtain ⟨y, hpar, hy⟩ := hf.unborn d hd
    have hyx : y ≠ x := by
      rintro rfl
      rw [hx] at hy
      exact absurd hy (by simp)
    have hne : (s.t.plist d).parent ≠ some x := by
      rw [hpar]
      exact fun he => hyx (Option.some.inj he)
    refine ⟨y, ?_, by rw [hphase, if_neg hyx, hy]⟩
    rcases quit_cases hf x d with ⟨hc, -⟩ | ⟨-, -, -, -, h2, -⟩ | ⟨-, hc, -⟩ | ⟨-, hc, -⟩
    · exact absurd hc hdx
    · exact h2.trans hpar
    · exact absurd hc hne
    · exact absurd hc hne

omit hr hx in
lemma mem_living {p : ℕ} :
    p ∈ living s.t x ↔ (s.t.plist p).parent = some x ∧ (s.t.plist p).mode.alive = true := by
  have hlt : (s.t.plist p).parent = some x → p < nproc := fun hp => (hf.child hp).2
  simp only [living, List.mem_filter, List.mem_range, Bool.and_eq_true, decide_eq_true_eq]
  exact ⟨And.right, fun h => ⟨hlt h.1, h⟩⟩

omit hr hx in
lemma mem_zombies {p : ℕ} :
    p ∈ zombies s.t x ↔ (s.t.plist p).parent = some x ∧ (s.t.plist p).mode.alive = false := by
  have hlt : (s.t.plist p).parent = some x → p < nproc := fun hp => (hf.child hp).2
  simp only [zombies, List.mem_filter, List.mem_range, Bool.and_eq_true, decide_eq_true_eq,
    Bool.not_eq_true']
  exact ⟨And.right, fun h => ⟨hlt h.1, h⟩⟩

omit hr in
/-- A dead child has its name, and a living one has it unless `x` is still making it. -/
lemma child_born {p : ℕ} (hp : (s.t.plist p).parent = some x) : s.Born p := by
  refine ⟨(hf.child hp).1, fun hu => ?_⟩
  obtain ⟨y, hy, hfk⟩ := hf.unborn p hu
  rw [hp] at hy
  cases hy
  rw [hx] at hfk
  exact absurd hfk (by simp)

lemma quit_named (hn : s.Named) : (s.quit x).Named := by
  have hborn := quit_born hf hr hx
  have hxb : s.Born x := ⟨hr.2.2.1, by rw [hx]; simp⟩
  have hlive : ∀ p, s.Born p →
      (s.name p ∈ (living s.t x).map s.name ↔ (s.t.plist p).parent = some x ∧
        (s.t.plist p).mode.alive = true) := by
    intro p hp
    rw [List.mem_map, ← mem_living hf]
    constructor
    · rintro ⟨q, hq, he⟩
      have hqb := child_born hf hx ((mem_living hf).mp hq).1
      rwa [← hn.inj q p hqb hp he]
    · exact fun hq => ⟨p, hq, rfl⟩
  have hdead : ∀ p, s.Born p →
      (s.name p ∈ (zombies s.t x).map s.name ↔ (s.t.plist p).parent = some x ∧
        (s.t.plist p).mode.alive = false) := by
    intro p hp
    rw [List.mem_map, ← mem_zombies hf]
    constructor
    · rintro ⟨q, hq, he⟩
      have hqb := child_born hf hx ((mem_zombies hf).mp hq).1
      rwa [← hn.inj q p hqb hp he]
    · exact fun hq => ⟨p, hq, rfl⟩
  have hxhist : s.hist (s.name x) = [] := by
    rw [hn.hist x hxb, hr.2.2.2.1, if_pos rfl]
  constructor
  · intro p hp
    exact hn.lt p ((hborn p).mp hp).1
  · intro p q hp hq he
    exact hn.inj p q ((hborn p).mp hp).1 ((hborn q).mp hq).1 he
  · intro p hp
    obtain ⟨hb, hnot⟩ := (hborn p).mp hp
    show (if s.name p = s.name x then s.hist (s.name p) ++ [.exited (s.t.plist x).status]
      else if s.name p ∈ (zombies s.t x).map s.name then
        s.hist (s.name p) ++ [.disposed (s.name x)]
      else s.hist (s.name p)) = _
    have hz : s.name p ∉ (zombies s.t x).map s.name := fun h => hnot ((hdead p hb).mp h)
    rcases quit_cases hf x p with ⟨rfl, -, h1, -, h2⟩ | ⟨hpx, -, -, h1, -, h2⟩ | ⟨-, h1, h2, -⟩ |
      ⟨hpx, -, h1, -, h2, -, h3⟩
    · rw [if_pos rfl, h1, hxhist, h2]
      rfl
    · rw [if_neg fun he => hpx (hn.inj p x hb hxb he), if_neg hz, h1, h2]
      exact hn.hist p hb
    · exact absurd ⟨h1, h2⟩ hnot
    · rw [if_neg fun he => hpx (hn.inj p x hb hxb he), if_neg hz, h2, h3, hn.hist p hb, h1]
  · intro p y hp hy
    obtain ⟨hb, hnot⟩ := (hborn p).mp hp
    show (if s.name p ∈ (living s.t x).map s.name then s.name Table.initproc
      else s.father (s.name p)) = s.name y
    rcases quit_cases hf x p with ⟨rfl, -, -, h2, -⟩ | ⟨-, hpar, -, -, h2, -⟩ | ⟨-, h1, h2, -⟩ |
      ⟨-, hpar, h1, -, -, h2, -⟩
    · rw [h2] at hy
      rw [if_neg fun h => hf.other p ((hlive p hb).mp h).1]
      exact hn.father p y hb hy
    · rw [h2] at hy
      rw [if_neg fun h => hpar ((hlive p hb).mp h).1]
      exact hn.father p y hb hy
    · exact absurd ⟨h1, h2⟩ hnot
    · rw [h2] at hy
      cases hy
      rw [if_pos ((hlive p hb).mpr ⟨hpar, h1⟩)]
  · intro b hb
    rcases hn.gone b hb with ⟨p, hp, rfl⟩ | hg
    · by_cases hz : (s.t.plist p).parent = some x ∧ (s.t.plist p).mode.alive = false
      · -- disposed of
        have hpx : p ≠ x := by
          rintro rfl
          exact hf.other p hz.1
        refine Or.inr ⟨(s.t.plist p).status, Or.inr ?_⟩
        show (if s.name p = s.name x then s.hist (s.name p) ++ [.exited (s.t.plist x).status]
          else if s.name p ∈ (zombies s.t x).map s.name then
            s.hist (s.name p) ++ [.disposed (s.name x)]
          else s.hist (s.name p)) = [_, .disposed (if s.name p ∈ (living s.t x).map s.name then
            s.name Table.initproc else s.father (s.name p))]
        have hnl : s.name p ∉ (living s.t x).map s.name := by
          intro h
          have := ((hlive p hp).mp h).2
          rw [hz.2] at this
          exact absurd this (by simp)
        rw [if_neg fun he => hpx (hn.inj p x hp hxb he), if_pos ((hdead p hp).mpr hz), if_neg hnl,
          hn.hist p hp, hz.2, hn.father p x hp hz.1]
        rfl
      · exact Or.inl ⟨p, (hborn p).mpr ⟨hp, hz⟩, rfl⟩
    · refine Or.inr ?_
      -- nobody in the table has this name
      have hlen : ∀ p, s.Born p → s.name p ≠ b := by
        rintro p hp rfl
        have hl := congrArg List.length (hn.hist p hp)
        obtain ⟨st, h | h⟩ := hg
        · rw [h] at hl
          split_ifs at hl
          simp at hl
        · rw [h] at hl
          split_ifs at hl
          simp at hl
      have hnz : b ∉ (zombies s.t x).map s.name := by
        rw [List.mem_map]
        rintro ⟨q, hq, he⟩
        exact hlen q (child_born hf hx ((mem_zombies hf).mp hq).1) he
      have hnl : b ∉ (living s.t x).map s.name := by
        rw [List.mem_map]
        rintro ⟨q, hq, he⟩
        exact hlen q (child_born hf hx ((mem_living hf).mp hq).1) he
      have hhist : (s.quit x).hist b = s.hist b := by
        show (if b = s.name x then _ else if b ∈ (zombies s.t x).map s.name then _ else _) = _
        rw [if_neg (hlen x hxb).symm, if_neg hnz]
      have hfather : (s.quit x).father b = s.father b := by
        show (if b ∈ (living s.t x).map s.name then _ else _) = _
        rw [if_neg hnl]
      rw [Gone, hhist, hfather]
      exact hg
  · intro b hb
    have hne : ∀ p, s.Born p → s.name p ≠ b := by
      rintro p hp rfl
      have hlt := hn.lt p hp
      have hle : s.next ≤ s.name p := hb
      omega
    have hnz : b ∉ (zombies s.t x).map s.name := by
      rw [List.mem_map]
      rintro ⟨q, hq, he⟩
      exact hne q (child_born hf hx ((mem_zombies hf).mp hq).1) he
    show (if b = s.name x then _ else if b ∈ (zombies s.t x).map s.name then _ else _) = _
    rw [if_neg (hne x hxb).symm, if_neg hnz]
    exact hn.new b hb

/-- The parent that waits is woken; nobody else gets a dead child. -/
lemma quit_patient (hp : s.Patient) : (s.quit x).Patient := by
  intro z hz ha
  rw [quit_phase] at hz
  split_ifs at hz with hzx
  have hlives := hf.busy z (by rw [hz]; simp)
  obtain ⟨c, hst, hchan, hwake⟩ := s.quit_plist x
  obtain ⟨-, -, -, -, hsleep⟩ := stirred_facts (hst z)
  obtain ⟨ha', hev'⟩ := hsleep ha
  have hleft : (s.left x z).mode.awake = (s.t.plist z).mode.awake ∧
      (s.left x z).event = (s.t.plist z).event := by
    rcases left_cases hf x z with ⟨hc, -⟩ | ⟨-, -, he⟩ | ⟨-, -, hc, -⟩ | ⟨-, -, -, he⟩
    · exact absurd hc hzx
    · rw [he]
      exact ⟨rfl, rfl⟩
    · rw [hlives.2.2.2] at hc
      exact absurd hc (by simp)
    · rw [he]
      exact ⟨rfl, rfl⟩
  obtain ⟨hev, hall⟩ := hp z hz (hleft.1 ▸ ha')
  refine ⟨(hev'.trans hleft.2).trans hev, fun q hq => ?_⟩
  rcases quit_cases hf x q with ⟨rfl, -, -, h2, -⟩ | ⟨-, -, -, h1, h2, -⟩ | ⟨-, -, -, -, -, h2⟩ |
    ⟨-, -, -, -, h1, -, -⟩
  · -- the exiting process itself: its parent has been woken
    have hpar : (s.left q q).parent = some z := by
      rcases left_cases hf q q with ⟨-, he⟩ | ⟨hc, -⟩ | ⟨hc, -⟩ | ⟨hc, -⟩
      · rw [he]
        exact h2 ▸ hq
      · exact absurd rfl hc
      · exact absurd rfl hc
      · exact absurd rfl hc
    have := hwake z hlives.2.1 (by rw [hleft.2, hev, hchan z hpar])
    rw [ha] at this
    exact absurd this (by simp)
  · rw [h1]
    exact hall q (h2 ▸ hq)
  · rw [h2] at hq
    exact absurd hq (by simp)
  · exact h1

end Quit

end State

end Procs

end Micronix
