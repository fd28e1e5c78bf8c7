import Micronix.Proc.Exit

/-!
# Every exited child is freed once

The invariants hold in every reachable state.
-/

namespace Micronix

namespace Procs

open Transition

namespace State

variable {s s' : State} {x c q : ℕ}

/-! ## `fork` through swap space -/

/-- The process in slot `x` sleeps until its child in slot `c`, which was free, is written. -/
structure Conceive (s s' : State) (x c : ℕ) : Prop where
  parent : s.Lives x ∧ s.phase x = .run
  slot : c < nproc ∧ (s.t.plist c).mode.alloc = false
  phase : s'.phase = Function.update (Function.update s.phase c .unborn) x (.forking c)
  entry : ∀ p, p ≠ c → (s'.t.plist p).mode.alloc = (s.t.plist p).mode.alloc ∧
    (s'.t.plist p).mode.alive = (s.t.plist p).mode.alive ∧
    (s'.t.plist p).parent = (s.t.plist p).parent ∧ (s'.t.plist p).status = (s.t.plist p).status
  child : (s'.t.plist c).mode.alloc = true ∧ (s'.t.plist c).mode.alive = true ∧
    (s'.t.plist c).parent = some x
  ghost : s'.name = s.name ∧ s'.next = s.next ∧ s'.father = s.father ∧ s'.hist = s.hist

namespace Conceive

lemma ne (h : Conceive s s' x c) : c ≠ x := by
  rintro rfl
  have halloc := h.parent.1.2.2.1
  rw [h.slot.2] at halloc
  exact absurd halloc (by simp)

lemma alloc_ne (h : Conceive s s' x c) {p : ℕ} (hp : (s.t.plist p).mode.alloc = true) : p ≠ c := by
  rintro rfl
  rw [h.slot.2] at hp
  exact absurd hp (by simp)

lemma phase_other (h : Conceive s s' x c) {p : ℕ} (hpx : p ≠ x) (hpc : p ≠ c) :
    s'.phase p = s.phase p := by
  rw [h.phase, Function.update_of_ne hpx, Function.update_of_ne hpc]

lemma phase_self (h : Conceive s s' x c) : s'.phase x = .forking c := by
  rw [h.phase, Function.update_self]

lemma phase_child (h : Conceive s s' x c) : s'.phase c = .unborn := by
  rw [h.phase, Function.update_of_ne h.ne, Function.update_self]

lemma born_iff (h : Conceive s s' x c) (p : ℕ) : s'.Born p ↔ s.Born p := by
  by_cases hpc : p = c
  · subst hpc
    rw [Born, Born, h.phase_child, h.slot.2]
    simp
  · rw [Born, Born, (h.entry p hpc).1]
    by_cases hpx : p = x
    · subst hpx
      simp [h.phase_self, h.parent.2]
    · rw [h.phase_other hpx hpc]

lemma family (h : Conceive s s' x c) (hf : s.Family) : s'.Family := by
  have h0 := h.alloc_ne hf.swapper.2.1
  have h1 := h.alloc_ne hf.init.2.1
  have hxb : s.Born x := ⟨h.parent.1.2.2.1, by rw [h.parent.2]; simp⟩
  constructor
  · intro p hp
    by_cases hpc : p = c
    · exact hpc ▸ h.slot.1
    · exact hf.bound p ((h.entry p hpc).1 ▸ hp)
  · intro p hp
    by_cases hpc : p = c
    · rw [hpc, h.child.1] at hp
      exact absurd hp (by simp)
    · rw [(h.entry p hpc).2.2.1]
      exact hf.free p ((h.entry p hpc).1 ▸ hp)
  · rw [(h.entry _ h0).2.2.1, h.born_iff]
    exact hf.swapper
  · rw [(h.entry _ h1).2.2.1, h.born_iff]
    exact hf.init
  · intro p hp0 hp
    by_cases hpc : p = c
    · refine ⟨x, hpc ▸ h.child.2.2, (h.born_iff x).mpr hxb, Or.inl ?_⟩
      rw [(h.entry x h.ne.symm).2.1]
      exact h.parent.1.2.2.2
    · obtain ⟨y, hy, hb, hl⟩ := hf.parent p hp0 ((h.entry p hpc).1 ▸ hp)
      refine ⟨y, (h.entry p hpc).2.2.1.trans hy, (h.born_iff y).mpr hb, ?_⟩
      rwa [(h.entry y (h.alloc_ne hb.1)).2.1]
  · intro p
    by_cases hpc : p = c
    · rw [hpc, h.child.2.2]
      exact fun he => h.ne (Option.some.inj he).symm
    · rw [(h.entry p hpc).2.2.1]
      exact hf.other p
  · intro p hp
    by_cases hpc : p = c
    · subst hpc
      exact ⟨h0.symm, h.slot.1, h.child.1, h.child.2.1⟩
    · have hl : s.Lives p := by
        by_cases hpx : p = x
        · exact hpx ▸ h.parent.1
        · exact hf.busy p (h.phase_other hpx hpc ▸ hp)
      exact ⟨hl.1, hl.2.1, (h.entry p hpc).1.trans hl.2.2.1, (h.entry p hpc).2.1.trans hl.2.2.2⟩
  · intro y d hy
    by_cases hyx : y = x
    · subst hyx
      rw [h.phase_self] at hy
      cases hy
      exact ⟨h.phase_child, h.child.2.2⟩
    · have hyc : y ≠ c := by
        rintro rfl
        rw [h.phase_child] at hy
        exact absurd hy (by simp)
      obtain ⟨hd, hpar⟩ := hf.forking y d (h.phase_other hyx hyc ▸ hy)
      have hdc := h.alloc_ne (hf.busy d (by rw [hd]; simp)).2.2.1
      have hdx : d ≠ x := by
        rintro rfl
        exact hxb.2 hd
      exact ⟨(h.phase_other hdx hdc).trans hd, (h.entry d hdc).2.2.1.trans hpar⟩
  · intro d hd
    by_cases hdc : d = c
    · exact ⟨x, hdc ▸ h.child.2.2, hdc ▸ h.phase_self⟩
    · have hdx : d ≠ x := by
        rintro rfl
        rw [h.phase_self] at hd
        exact absurd hd (by simp)
      obtain ⟨y, hpar, hy⟩ := hf.unborn d (h.phase_other hdx hdc ▸ hd)
      have hyc := h.alloc_ne (hf.busy y (by rw [hy]; simp)).2.2.1
      have hyx : y ≠ x := by
        rintro rfl
        rw [h.parent.2] at hy
        exact absurd hy (by simp)
      exact ⟨y, (h.entry d hdc).2.2.1.trans hpar, (h.phase_other hyx hyc).trans hy⟩

lemma named (h : Conceive s s' x c) (hn : s.Named) : s'.Named := by
  obtain ⟨h1, h2, h3, h4⟩ := h.ghost
  refine hn.congr h.born_iff (fun p hp => ?_) h1 h2 h3 h4
  obtain ⟨-, ha, hpar, hst⟩ := h.entry p (h.alloc_ne hp.1)
  exact ⟨ha, hpar, fun _ => hst⟩

lemma patient (h : Conceive s s' x c) (hp : s.Patient)
    (hw : ∀ y, y ≠ c → y ≠ x → (s'.t.plist y).mode = (s.t.plist y).mode ∧
      (s'.t.plist y).event = (s.t.plist y).event) : s'.Patient := by
  intro y hy ha
  have hyx : y ≠ x := by
    rintro rfl
    rw [h.phase_self] at hy
    exact absurd hy (by simp)
  have hyc : y ≠ c := by
    rintro rfl
    rw [h.phase_child] at hy
    exact absurd hy (by simp)
  obtain ⟨hm, he⟩ := hw y hyc hyx
  obtain ⟨hev, hall⟩ := hp y (h.phase_other hyx hyc ▸ hy) (hm ▸ ha)
  refine ⟨he.trans hev, fun q hq => ?_⟩
  have hqc : q ≠ c := by
    rintro rfl
    rw [h.child.2.2] at hq
    exact hyx (Option.some.inj hq).symm
  obtain ⟨-, hal, hpar, -⟩ := h.entry q hqc
  rw [hal]
  exact hall q (hpar ▸ hq)

end Conceive

/-- The child in slot `c` that was to be written is cleared again. -/
structure Miscarry (s s' : State) (x c : ℕ) : Prop where
  before : s.phase x = .forking c
  phase : s'.phase = Function.update (Function.update s.phase x .run) c .run
  entry : ∀ p, p ≠ c → (s'.t.plist p).mode.alloc = (s.t.plist p).mode.alloc ∧
    (s'.t.plist p).mode.alive = (s.t.plist p).mode.alive ∧
    (s'.t.plist p).parent = (s.t.plist p).parent ∧ (s'.t.plist p).status = (s.t.plist p).status
  child : (s'.t.plist c).mode.alloc = false ∧ (s'.t.plist c).parent = none
  ghost : s'.name = s.name ∧ s'.next = s.next ∧ s'.father = s.father ∧ s'.hist = s.hist

namespace Miscarry

lemma phase_eq (h : Miscarry s s' x c) (p : ℕ) :
    s'.phase p = if p = x ∨ p = c then .run else s.phase p := by
  rw [h.phase]
  simp only [Function.update_apply]
  split_ifs <;> tauto

lemma born_iff (h : Miscarry s s' x c) (hf : s.Family) (p : ℕ) : s'.Born p ↔ s.Born p := by
  have hun := (hf.forking x c h.before).1
  by_cases hpc : p = c
  · subst hpc
    rw [Born, Born, h.child.1, hun]
    simp
  · rw [Born, Born, (h.entry p hpc).1, h.phase_eq]
    by_cases hpx : p = x
    · subst hpx
      simp [h.before]
    · simp [hpx, hpc]

lemma family (h : Miscarry s s' x c) (hf : s.Family) : s'.Family := by
  obtain ⟨hun, hcx⟩ := hf.forking x c h.before
  have hborn := h.born_iff hf
  have hne : ∀ p, s.Born p → p ≠ c := by
    rintro p hp rfl
    exact hp.2 hun
  have h0 := hne _ hf.swapper.2
  have h1 := hne _ hf.init.2
  constructor
  · intro p hp
    by_cases hpc : p = c
    · rw [hpc, h.child.1] at hp
      exact absurd hp (by simp)
    · exact hf.bound p ((h.entry p hpc).1 ▸ hp)
  · intro p hp
    by_cases hpc : p = c
    · exact hpc ▸ h.child.2
    · rw [(h.entry p hpc).2.2.1]
      exact hf.free p ((h.entry p hpc).1 ▸ hp)
  · rw [(h.entry _ h0).2.2.1, hborn]
    exact hf.swapper
  · rw [(h.entry _ h1).2.2.1, hborn]
    exact hf.init
  · intro p hp0 hp
    have hpc : p ≠ c := by
      rintro rfl
      rw [h.child.1] at hp
      exact absurd hp (by simp)
    obtain ⟨y, hy, hb, hl⟩ := hf.parent p hp0 ((h.entry p hpc).1 ▸ hp)
    refine ⟨y, (h.entry p hpc).2.2.1.trans hy, (hborn y).mpr hb, ?_⟩
    rwa [(h.entry y (hne y hb)).2.1]
  · intro p
    by_cases hpc : p = c
    · rw [hpc, h.child.2]
      simp
    · rw [(h.entry p hpc).2.2.1]
      exact hf.other p
  · intro p hp
    rw [h.phase_eq] at hp
    split_ifs at hp with hc
    · exact absurd rfl hp
    · push Not at hc
      obtain ⟨h2, h3, h4, h5⟩ := hf.busy p hp
      obtain ⟨h6, h7, -, -⟩ := h.entry p hc.2
      exact ⟨h2, h3, h6.trans h4, h7.trans h5⟩
  · intro y d hy
    rw [h.phase_eq] at hy
    split_ifs at hy with hc
    push Not at hc
    obtain ⟨hd, hpar⟩ := hf.forking y d hy
    have hdc : d ≠ c := by
      rintro rfl
      rw [hcx] at hpar
      exact hc.1 (Option.some.inj hpar).symm
    have hdx : d ≠ x := by
      rintro rfl
      rw [h.before] at hd
      exact absurd hd (by simp)
    refine ⟨?_, (h.entry d hdc).2.2.1.trans hpar⟩
    rw [h.phase_eq, if_neg (by tauto), hd]
  · intro d hd
    rw [h.phase_eq] at hd
    split_ifs at hd with hc
    push Not at hc
    obtain ⟨y, hpar, hy⟩ := hf.unborn d hd
    have hyx : y ≠ x := by
      rintro rfl
      rw [h.before] at hy
      exact hc.2 (Phase.forking.inj hy).symm
    have hyc : y ≠ c := by
      rintro rfl
      rw [hun] at hy
      exact absurd hy (by simp)
    refine ⟨y, (h.entry d hc.2).2.2.1.trans hpar, ?_⟩
    rw [h.phase_eq, if_neg (by tauto), hy]

lemma named (h : Miscarry s s' x c) (hf : s.Family) (hn : s.Named) : s'.Named := by
  obtain ⟨h1, h2, h3, h4⟩ := h.ghost
  refine hn.congr (h.born_iff hf) (fun p hp => ?_) h1 h2 h3 h4
  have hpc : p ≠ c := by
    rintro rfl
    exact hp.2 (hf.forking x p h.before).1
  obtain ⟨-, ha, hpar, hst⟩ := h.entry p hpc
  exact ⟨ha, hpar, fun _ => hst⟩

lemma patient (h : Miscarry s s' x c) (hp : s.Patient)
    (hw : ∀ y, y ≠ c → y ≠ x → (s'.t.plist y).mode.awake = false →
      (s.t.plist y).mode.awake = false ∧ (s'.t.plist y).event = (s.t.plist y).event) :
    s'.Patient := by
  intro y hy ha
  rw [h.phase_eq] at hy
  split_ifs at hy with hc
  push Not at hc
  obtain ⟨ha', he⟩ := hw y hc.2 hc.1 ha
  obtain ⟨hev, hall⟩ := hp y hy ha'
  refine ⟨he.trans hev, fun q hq => ?_⟩
  have hqc : q ≠ c := by
    rintro rfl
    rw [h.child.2] at hq
    exact absurd hq (by simp)
  obtain ⟨-, hal, hpar, -⟩ := h.entry q hqc
  rw [hal]
  exact hall q (hpar ▸ hq)

end Miscarry

/-! ## Every step -/

/-- The three invariants. -/
structure Sound (s : State) : Prop where
  family : s.Family
  named : s.Named
  patient : s.Patient

lemma Ready.lives (h : s.Ready x) : s.Lives x := ⟨h.1, h.2.1, h.2.2.1, h.2.2.2.1⟩

/-- A change of one process in none of the calls that matter. -/
lemma Sound.change (h : s.Sound) {t : Table} {a : Phase}
    (hl : s.Lives x) (hph : (∀ c, s.phase x ≠ .forking c) ∧ s.phase x ≠ .unborn)
    (hph' : (∀ c, a ≠ .forking c) ∧ a ≠ .unborn)
    (he : ∀ p, (t.plist p).mode.alloc = (s.t.plist p).mode.alloc ∧
      (t.plist p).mode.alive = (s.t.plist p).mode.alive ∧
      (t.plist p).parent = (s.t.plist p).parent ∧
      ((s.t.plist p).mode.alive = false → (t.plist p).status = (s.t.plist p).status))
    (hw : ∀ p, p ≠ x → (t.plist p).mode.awake = false →
      (s.t.plist p).mode.awake = false ∧ (t.plist p).event = (s.t.plist p).event)
    (hx : a = .waiting → (t.plist x).mode.awake = false →
      (t.plist x).event = .proc x ∧ ∀ q, (s.t.plist q).parent = some x →
        (s.t.plist q).mode.alive = true) :
    Sound { s with t, phase := Function.update s.phase x a } := by
  have hm : Mild s { s with t, phase := Function.update s.phase x a } := by
    refine ⟨fun p => (he p).1, fun p => (he p).2.1, fun p => (he p).2.2.1, fun p => (he p).2.2.2,
      fun p => ?_, rfl, rfl, rfl, rfl⟩
    by_cases hp : p = x
    · subst hp
      refine Or.inr ⟨hl, hph.1, hph.2, ?_⟩
      simpa using hph'
    · exact Or.inl (Function.update_of_ne hp _ _)
  refine ⟨hm.family h.family, hm.named h.named, ?_⟩
  intro y hy ha
  by_cases hyx : y = x
  · subst hyx
    obtain ⟨hev, hall⟩ := hx (by simpa using hy) ha
    refine ⟨hev, fun q hq => ?_⟩
    rw [hm.alive]
    exact hall q (hm.parent q ▸ hq)
  · have hy' : s.phase y = .waiting := by simpa [Function.update_of_ne hyx] using hy
    obtain ⟨ha', hev⟩ := hw y hyx ha
    obtain ⟨hev', hall⟩ := h.patient y hy' ha'
    refine ⟨hev.trans hev', fun q hq => ?_⟩
    rw [hm.alive]
    exact hall q (hm.parent q ▸ hq)

/-- The same when the process stays in the call that it is in. -/
lemma Sound.entry (h : s.Sound) {t : Table} (hl : s.Lives x)
    (hph : (∀ c, s.phase x ≠ .forking c) ∧ s.phase x ≠ .unborn)
    (he : ∀ p, (t.plist p).mode.alloc = (s.t.plist p).mode.alloc ∧
      (t.plist p).mode.alive = (s.t.plist p).mode.alive ∧
      (t.plist p).parent = (s.t.plist p).parent ∧
      ((s.t.plist p).mode.alive = false → (t.plist p).status = (s.t.plist p).status))
    (hw : ∀ p, p ≠ x → (t.plist p).mode.awake = false →
      (s.t.plist p).mode.awake = false ∧ (t.plist p).event = (s.t.plist p).event)
    (hx : s.phase x = .waiting → (t.plist x).mode.awake = true) : Sound { s with t } := by
  have hch := h.change (a := s.phase x) hl hph hph he hw fun hwait ha => by
    rw [hx hwait] at ha
    exact absurd ha (by simp)
  rwa [Function.update_eq_self] at hch

/-- The entry of one living process changes. -/
lemma modify_entry (hl : s.Lives x) {f : Entry → Entry}
    (hf : ∀ e, (f e).mode.alloc = e.mode.alloc ∧ (f e).mode.alive = e.mode.alive ∧
      (f e).parent = e.parent) (p : ℕ) :
    ((s.t.modify x f).plist p).mode.alloc = (s.t.plist p).mode.alloc ∧
      ((s.t.modify x f).plist p).mode.alive = (s.t.plist p).mode.alive ∧
      ((s.t.modify x f).plist p).parent = (s.t.plist p).parent ∧
      ((s.t.plist p).mode.alive = false →
        ((s.t.modify x f).plist p).status = (s.t.plist p).status) := by
  by_cases hp : p = x
  · subst hp
    obtain ⟨h1, h2, h3⟩ := hf (s.t.plist p)
    have hself : (s.t.modify p f).plist p = f (s.t.plist p) := by simp [Table.modify, Table.set]
    rw [hself]
    refine ⟨h1, h2, h3, fun ha => ?_⟩
    rw [hl.2.2.2] at ha
    exact absurd ha (by simp)
  · simp [Table.modify, Table.set, Function.update_of_ne hp]

lemma modify_other (t : Table) (x : ℕ) (f : Entry → Entry) {p : ℕ} (hp : p ≠ x) :
    (t.modify x f).plist p = t.plist p := by
  simp [Table.modify, Table.set, Function.update_of_ne hp]

lemma modify_self (t : Table) (x : ℕ) (f : Entry → Entry) :
    (t.modify x f).plist x = f (t.plist x) := by
  simp [Table.modify, Table.set]

/-- Somebody is woken. -/
lemma Sound.run (h : s.Sound) (hl : s.Lives x)
    (hph : (∀ c, s.phase x ≠ .forking c) ∧ s.phase x ≠ .unborn) :
    Sound { s with t := s.t.run x } := by
  refine h.entry hl hph (fun p => ?_) (fun p hp ha => ?_) fun _ => ?_
  · obtain ⟨h1, h2, h3, h4, -⟩ := stirred_facts (s.t.run_stirred x p)
    exact ⟨h1, h2, h3, fun _ => h4⟩
  · exact (stirred_facts (s.t.run_stirred x p)).2.2.2.2 ha
  · rw [Table.run_self]
    rfl

/-- `wait` -/
lemma Sound.scan (h : s.Sound) (hr : s.Ready x) (hph : s.phase x = .run ∨ s.phase x = .waiting) :
    (s.scan x).Sound := by
  have hnot : (∀ c, s.phase x ≠ .forking c) ∧ s.phase x ≠ .unborn := by
    rcases hph with he | he <;> simp [he]
  unfold State.scan
  cases hz : s.t.zombie x with
  | some q =>
      have hq := List.find?_some hz
      simp only [Bool.and_eq_true, decide_eq_true_eq, Bool.not_eq_true'] at hq
      have hreap : Reap s { s with
          t := s.t.set q .zero
          phase := Function.update s.phase x .run
          hist := Function.update s.hist (s.name q)
            (s.hist (s.name q) ++ [.reaped (s.name x) (s.t.plist q).status]) } x q :=
        ⟨⟨hr.lives, ⟨hr.2.2.1, hnot.2⟩, hph⟩, hq, rfl, rfl, rfl, rfl, rfl, rfl⟩
      exact ⟨hreap.family h.family, hreap.named h.family h.named,
        hreap.patient h.family h.patient⟩
  | none =>
      simp only
      split_ifs with hc
      · -- no children
        exact h.change hr.lives hnot (by simp) (fun p => ⟨rfl, rfl, rfl, fun _ => rfl⟩)
          (fun p _ ha => ⟨ha, rfl⟩) (fun hw => absurd hw (by simp))
      · refine h.change (t := s.t.modify x fun e => e.await (.proc x)) hr.lives hnot (by simp)
          (modify_entry hr.lives fun e => ⟨rfl, rfl, rfl⟩) (fun p hp ha => ?_) fun _ _ => ⟨?_, ?_⟩
        · rw [modify_other _ _ _ hp] at ha ⊢
          exact ⟨ha, rfl⟩
        · rw [modify_self]
          rfl
        · intro q hq
          have hlt : q < nproc := by
            refine h.family.bound q ?_
            by_contra ha
            rw [h.family.free q (by simpa using ha)] at hq
            exact absurd hq (by simp)
          have hall := List.find?_eq_none.mp hz q (List.mem_range.mpr hlt)
          simpa [hq] using hall

/-! ## `fork` -/

section Fork

variable {m : ℕ}

/-- The child's slot was free. -/
lemma slot_ne (hr : s.Ready x) (hc : s.t.slot = some c) : c ≠ x := by
  rintro rfl
  have ha := (Table.slot_spec hc).2
  rw [hr.2.2.1] at ha
  exact absurd ha (by simp)

/-- The copy fits into memory. -/
lemma birth_room (hr : s.Ready x) (hx : s.phase x = .run) (hc : s.t.slot = some c) :
    Birth s ({ s with t := s.t.spawn x c m }.bear x c) x c := by
  obtain ⟨hlt, hfree⟩ := Table.slot_spec hc
  have hne := slot_ne hr hc
  obtain ⟨hmode, hpar⟩ := Table.spawn_child s.t x c m
  constructor
  · refine ⟨⟨hr.2.2.1, by rw [hx]; simp⟩, hr.lives, ?_⟩
    simp [bear, Function.update_of_ne hne.symm, hx]
  · refine ⟨hlt, fun hb => ?_, hne, by simp [bear]⟩
    have ha := hb.1
    rw [hfree] at ha
    exact absurd ha (by simp)
  · exact Or.inl ⟨hfree, hx⟩
  · intro p _ hp
    simp [bear, Function.update_of_ne hp]
  · intro p hp
    obtain ⟨h1, -, h3, h4⟩ := Table.spawn_other (t := s.t) (x := x) (m := m) hp
    exact ⟨congrArg _ h1, congrArg _ h1, h3, fun _ => h4⟩
  · exact ⟨(congrArg _ hmode).trans hr.2.2.1, (congrArg _ hmode).trans hr.2.2.2.1, hpar⟩
  all_goals rfl

/-- The state in which `fork` writes the child to the swap device. -/
lemma conceive_swap (hr : s.Ready x) (hx : s.phase x = .run) (hc : s.t.slot = some c) :
    Conceive s (s.fork x m .swap) x c ∧
      ∀ y, y ≠ c → y ≠ x → ((s.fork x m .swap).t.plist y).mode = (s.t.plist y).mode ∧
        ((s.fork x m .swap).t.plist y).event = (s.t.plist y).event := by
  have hne := slot_ne hr hc
  obtain ⟨hmode, hpar⟩ := Table.spawn_child s.t x c m
  have hother : ∀ y, y ≠ c → y ≠ x →
      (s.fork x m .swap).t.plist y = (s.t.spawn x c m).plist y := by
    intro y hyc hyx
    simp only [State.fork, hc]
    rw [modify_other _ _ _ hyx, modify_other _ _ _ hyc]
  have hself : (s.fork x m .swap).t.plist x =
      ((s.t.spawn x c m).plist x).await (.other 0) := by
    simp only [State.fork, hc]
    rw [modify_self, modify_other _ _ _ hne.symm]
  have hchild : (s.fork x m .swap).t.plist c =
      { (s.t.spawn x c m).plist c with
        mode := { ((s.t.spawn x c m).plist c).mode with loaded := false } } := by
    simp only [State.fork, hc]
    rw [modify_other _ _ _ hne, modify_self]
  refine ⟨⟨⟨hr.lives, hx⟩, Table.slot_spec hc, ?_, fun p hp => ?_, ?_, ?_⟩, fun y hyc hyx => ?_⟩
  · simp only [State.fork, hc]
  · obtain ⟨h1, -, h3, h4⟩ := Table.spawn_other (t := s.t) (x := x) (m := m) hp
    by_cases hpx : p = x
    · subst hpx
      rw [hself]
      rw [← h1]
      exact ⟨rfl, rfl, h3, h4⟩
    · rw [hother p hp hpx, h1]
      exact ⟨rfl, rfl, h3, h4⟩
  · rw [hchild]
    exact ⟨(congrArg _ hmode).trans hr.2.2.1, (congrArg _ hmode).trans hr.2.2.2.1, hpar⟩
  · simp only [State.fork, hc]
    exact ⟨trivial, trivial, trivial, trivial⟩
  · rw [hother y hyc hyx]
    obtain ⟨h1, h2, -, -⟩ := Table.spawn_other (t := s.t) (x := x) (m := m) hyc
    exact ⟨h1, h2⟩

lemma Sound.swapped (h : s.Sound) (hr : s.Ready x) (hx : s.phase x = .run)
    (hc : s.t.slot = some c) : (s.fork x m .swap).Sound := by
  obtain ⟨hcon, hw⟩ := conceive_swap (m := m) hr hx hc
  exact ⟨hcon.family h.family, hcon.named h.named, hcon.patient h.patient hw⟩

/-- A `fork` without memory and swap space: as if the child was not to be written after all. -/
lemma miscarry_full (hr : s.Ready x) (hx : s.phase x = .run) (hc : s.t.slot = some c)
    (hf : s.Family) :
    Miscarry (s.fork x m .swap) (s.fork x m .full) x c ∧
      ∀ y, y ≠ c → y ≠ x → (s.fork x m .full).t.plist y = (s.fork x m .swap).t.plist y := by
  have hne := slot_ne hr hc
  have hcrun : s.phase c = .run := by
    by_contra hp
    have ha := (hf.busy c hp).2.2.1
    rw [(Table.slot_spec hc).2] at ha
    exact absurd ha (by simp)
  have hcon := (conceive_swap (m := m) hr hx hc).1
  refine ⟨⟨hcon.phase_self, ?_, fun p hp => ?_, ?_, ?_⟩, fun y hyc hyx => ?_⟩
  · funext p
    simp only [State.fork, hc, Function.update_apply]
    split_ifs with h1 h2
    · rw [h1, hcrun]
    · rw [h2, hx]
    · rfl
  · simp only [State.fork, hc, Table.modify, Table.set, Function.update_of_ne hp]
    by_cases hpx : p = x
    · subst hpx
      rw [Function.update_self, Function.update_of_ne hp]
      exact ⟨rfl, rfl, rfl, rfl⟩
    · rw [Function.update_of_ne hpx, Function.update_of_ne hp]
      exact ⟨rfl, rfl, rfl, rfl⟩
  · simp [State.fork, hc, Table.set, Entry.zero]
  · simp only [State.fork, hc]
    exact ⟨trivial, trivial, trivial, trivial⟩
  · simp only [State.fork, hc, Table.modify, Table.set, Function.update_of_ne hyc,
      Function.update_of_ne hyx]

lemma Sound.fork (h : s.Sound) (hr : s.Ready x) (hx : s.phase x = .run) (k : Copy) :
    (s.fork x m k).Sound := by
  cases hc : s.t.slot with
  | none =>
      simp only [State.fork, hc]
      exact h
  | some c =>
      cases k with
      | room =>
          have hb := birth_room (m := m) hr hx hc
          have hs : (s.fork x m .room) = { s with t := s.t.spawn x c m }.bear x c := by
            simp only [State.fork, hc]
          rw [hs]
          refine ⟨hb.family h.family, hb.named h.family h.named,
            hb.patient h.patient fun y hyc _ _ ha => ?_⟩
          obtain ⟨h1, h2, -, -⟩ := Table.spawn_other (t := s.t) (x := x) (m := m) hyc
          exact ⟨(congrArg _ h1).symm.trans ha, h2⟩
      | full =>
          have hsw := h.swapped (m := m) hr hx hc
          obtain ⟨hm, hw⟩ := miscarry_full (m := m) hr hx hc h.family
          refine ⟨hm.family hsw.family, hm.named hsw.family hsw.named,
            hm.patient hsw.patient fun y hyc hyx ha => ?_⟩
          rw [hw y hyc hyx] at ha ⊢
          exact ⟨ha, rfl⟩
      | swap => exact h.swapped hr hx hc

end Fork

/-- The end of a `fork` through swap space. -/
lemma Sound.forked (h : s.Sound) (hx : s.phase x = .forking c) (ok : Bool) :
    (s.forked x c ok).Sound := by
  have hlx := h.family.busy x (by rw [hx]; simp)
  obtain ⟨hun, hpar⟩ := h.family.forking x c hx
  have hlc := h.family.busy c (by rw [hun]; simp)
  have hne : c ≠ x := by
    rintro rfl
    rw [hx] at hun
    exact absurd hun (by simp)
  cases ok with
  | true =>
      have hst := fun p => stirred_facts ((s.t.modify c fun e =>
        { e with mode := { e.mode with swapped := true } }).run_stirred x p)
      have hb : Birth s (s.forked x c true) x c := by
        constructor
        · refine ⟨⟨hlx.2.2.1, by rw [hx]; simp⟩, hlx, ?_⟩
          simp [State.forked, bear, Function.update_of_ne hne.symm]
        · exact ⟨hlc.2.1, fun hb => hb.2 hun, hne, by simp [State.forked, bear]⟩
        · exact Or.inr ⟨hpar, hx⟩
        · intro p hpx hpc
          simp [State.forked, bear, Function.update_of_ne hpx, Function.update_of_ne hpc]
        · intro p hp
          obtain ⟨h1, h2, h3, h4, -⟩ := hst p
          rw [modify_other _ _ _ hp] at h1 h2 h3 h4
          exact ⟨h1, h2, h3, fun _ => h4⟩
        · obtain ⟨h1, h2, h3, -, -⟩ := hst c
          rw [modify_self] at h1 h2 h3
          exact ⟨h1.trans hlc.2.2.1, h2.trans hlc.2.2.2, h3.trans hpar⟩
        all_goals rfl
      refine ⟨hb.family h.family, hb.named h.family h.named,
        hb.patient h.patient fun y hyc _ _ ha => ?_⟩
      have h5 := (hst y).2.2.2.2 ha
      rwa [modify_other _ _ _ hyc] at h5
  | false =>
      have hst := fun p => stirred_facts ((s.t.set c .zero).run_stirred x p)
      have hother : ∀ p, p ≠ c → (s.t.set c .zero).plist p = s.t.plist p := fun p hp => by
        simp [Table.set, Function.update_of_ne hp]
      have hm : Miscarry s (s.forked x c false) x c := by
        refine ⟨hx, rfl, fun p hp => ?_, ?_, rfl, rfl, rfl, rfl⟩
        · obtain ⟨h1, h2, h3, h4, -⟩ := hst p
          rw [hother p hp] at h1 h2 h3 h4
          exact ⟨h1, h2, h3, h4⟩
        · obtain ⟨h1, -, h3, -, -⟩ := hst c
          simp only [Table.set, Function.update_self] at h1 h3
          exact ⟨h1, h3⟩
      refine ⟨hm.family h.family, hm.named h.family h.named,
        hm.patient h.patient fun y hyc _ ha => ?_⟩
      have h5 := (hst y).2.2.2.2 ha
      rwa [hother y hyc] at h5

/-! ## Every reachable state -/

lemma Start.sound (h : s.Start) : s.Sound := by
  obtain ⟨h1, h2, h3, h4, h5, h6⟩ := h
  have hzero : s.t.plist 0 =
      { Entry.zero with mode := ⟨true, true, true, true, false, true, true, false⟩ } := by
    rw [h1]
    rfl
  have hinit : s.t.plist 1 =
      { Entry.zero with
        mode := ⟨true, true, true, true, false, false, true, false⟩
        parent := some 0
        pid := 1 } := by
    rw [h1]
    rfl
  have hfree : ∀ p, 2 ≤ p → s.t.plist p = .zero := by
    intro p hp
    rw [h1]
    dsimp only
    rw [if_neg (by omega), if_neg (by omega)]
  have hslot : ∀ p, p = 0 ∨ p = 1 ∨ 2 ≤ p := by omega
  have hborn : ∀ p, s.Born p → p = 0 ∨ p = 1 := by
    intro p hp
    rcases hslot p with h | h | h
    · exact Or.inl h
    · exact Or.inr h
    · have ha := hp.1
      rw [hfree p h] at ha
      exact absurd ha (by decide)
  have hrun : ∀ p, s.phase p = .run := fun p => congrFun h2 p
  have hb0 : s.Born 0 := ⟨by rw [hzero], by rw [hrun]; simp⟩
  have hb1 : s.Born 1 := ⟨by rw [hinit], by rw [hrun]; simp⟩
  refine ⟨⟨?_, ?_, ?_, ?_, ?_, ?_, ?_, ?_, ?_⟩, ⟨?_, ?_, ?_, ?_, ?_, ?_⟩, ?_⟩
  · intro p hp
    rcases hborn p ⟨hp, by rw [hrun]; simp⟩ with rfl | rfl <;> decide +kernel
  · intro p hp
    rcases hslot p with rfl | rfl | h
    · rw [hzero] at hp
      exact absurd hp (by decide)
    · rw [hinit] at hp
      exact absurd hp (by decide)
    · rw [hfree p h]
      rfl
  · exact ⟨by rw [Table.swapproc, hzero]; rfl, hb0⟩
  · exact ⟨by rw [Table.initproc, hinit]; rfl, hb1⟩
  · intro p h0 hp
    rcases hborn p ⟨hp, by rw [hrun]; simp⟩ with rfl | rfl
    · exact absurd rfl h0
    · exact ⟨0, by rw [hinit], hb0, Or.inl (by rw [hzero])⟩
  · intro p
    rcases hslot p with rfl | rfl | h
    · rw [hzero]
      decide
    · rw [hinit]
      decide
    · rw [hfree p h]
      simp [Entry.zero]
  · intro p hp
    exact absurd (hrun p) hp
  · intro y d hy
    rw [hrun] at hy
    exact absurd hy (by simp)
  · intro d hd
    rw [hrun] at hd
    exact absurd hd (by simp)
  · intro p hp
    rw [h3, h4, id]
    rcases hborn p hp with rfl | rfl <;> decide
  · intro p q _ _ he
    rw [h3] at he
    exact he
  · intro p hp
    rw [h6]
    rcases hborn p hp with rfl | rfl
    · rw [hzero]
      rfl
    · rw [hinit]
      rfl
  · intro p y hp hy
    rw [h5, h3]
    rcases hborn p hp with rfl | rfl
    · rw [hzero] at hy
      exact absurd hy (by simp [Entry.zero])
    · rw [hinit] at hy
      exact Option.some.inj hy
  · intro b hb
    rw [h4] at hb
    have hb' : b = 0 ∨ b = 1 := by omega
    refine Or.inl ⟨b, ?_, by rw [h3]; rfl⟩
    rcases hb' with rfl | rfl
    · exact hb0
    · exact hb1
  · intro b _
    rw [h6]
  · intro y hy
    rw [hrun] at hy
    exact absurd hy (by simp)

/-- Every step keeps the three invariants. -/
lemma Sound.step (h : s.Sound) {l : Label} (hs : s.step l = some s') : s'.Sound := by
  have hbusy : ∀ {x}, s.phase x ≠ .run → s.Lives x := fun {x} => h.family.busy x
  cases l with
  | fork x frame k =>
      simp only [State.step] at hs
      split_ifs at hs with hg
      cases hs
      exact h.fork hg.1 hg.2 k
  | forked x ok =>
      simp only [State.step] at hs
      split at hs
      next c hc =>
        cases hs
        exact h.forked hc ok
      next => cases hs
  | exit x stat =>
      simp only [State.step] at hs
      split_ifs at hs with hg
      cases hs
      refine h.change (t := s.t.modify x fun e => { e with status := e.status ||| stat <<< 8 })
        (a := .closing) hg.1.lives (by simp [hg.2]) (by simp)
        (modify_entry hg.1.lives fun e => ⟨rfl, rfl, rfl⟩) (fun p hp ha => ?_) (by simp)
      rw [modify_other _ _ _ hp] at ha ⊢
      exact ⟨ha, rfl⟩
  | nap x =>
      simp only [State.step] at hs
      split_ifs at hs with hg
      cases hs
      refine h.entry hg.1.lives (by simp [hg.2])
        (modify_entry hg.1.lives fun e => ⟨rfl, rfl, rfl⟩) (fun p hp ha => ?_) (by simp [hg.2])
      rw [modify_other _ _ _ hp] at ha ⊢
      exact ⟨ha, rfl⟩
  | rouse x =>
      simp only [State.step] at hs
      split_ifs at hs with hg
      cases hs
      exact h.run (hbusy (by simp [hg])) (by simp [hg])
  | quit x =>
      simp only [State.step] at hs
      split_ifs at hs with hg
      cases hs
      exact ⟨quit_family h.family hg.1 hg.2, quit_named h.family hg.1 hg.2 h.named,
        quit_patient h.family hg.1 hg.2 h.patient⟩
  | wait x =>
      simp only [State.step] at hs
      split_ifs at hs with hg
      cases hs
      exact h.scan hg.1 (Or.inl hg.2)
  | resume x =>
      simp only [State.step] at hs
      split_ifs at hs with hg
      cases hs
      exact h.scan hg.1 (Or.inr hg.2)
  | abort x =>
      simp only [State.step] at hs
      split_ifs at hs with hg
      cases hs
      exact h.change hg.1.lives (by simp [hg.2]) (by simp) (fun p => ⟨rfl, rfl, rfl, fun _ => rfl⟩)
        (fun p _ ha => ⟨ha, rfl⟩) (by simp)
  | signal x =>
      simp only [State.step] at hs
      split_ifs at hs with hg
      cases hs
      exact h.run (hbusy (by simp [hg])) (by simp [hg])
  | fatal x sig =>
      simp only [State.step] at hs
      split_ifs at hs with hg
      cases hs
      refine h.entry hg.1.lives (by simp [hg.2])
        (modify_entry hg.1.lives fun e => ⟨rfl, rfl, rfl⟩) (fun p hp ha => ?_) (by simp [hg.2])
      rw [modify_other _ _ _ hp] at ha ⊢
      exact ⟨ha, rfl⟩
  | swap x loaded swapped locked swapping =>
      simp only [State.step] at hs
      split_ifs at hs with hg
      cases hs
      have hsame : ∀ p, ((s.t.modify x fun e =>
            { e with mode := { e.mode with loaded, swapped, locked } }).plist p).mode.alloc =
            (s.t.plist p).mode.alloc ∧
          ((s.t.modify x fun e =>
            { e with mode := { e.mode with loaded, swapped, locked } }).plist p).mode.alive =
            (s.t.plist p).mode.alive ∧
          ((s.t.modify x fun e =>
            { e with mode := { e.mode with loaded, swapped, locked } }).plist p).mode.awake =
            (s.t.plist p).mode.awake ∧
          ((s.t.modify x fun e =>
            { e with mode := { e.mode with loaded, swapped, locked } }).plist p).parent =
            (s.t.plist p).parent ∧
          ((s.t.modify x fun e =>
            { e with mode := { e.mode with loaded, swapped, locked } }).plist p).event =
            (s.t.plist p).event ∧
          ((s.t.modify x fun e =>
            { e with mode := { e.mode with loaded, swapped, locked } }).plist p).status =
            (s.t.plist p).status := by
        intro p
        by_cases hp : p = x
        · subst hp
          rw [modify_self]
          exact ⟨rfl, rfl, rfl, rfl, rfl, rfl⟩
        · rw [modify_other _ _ _ hp]
          exact ⟨rfl, rfl, rfl, rfl, rfl, rfl⟩
      have hm : Mild s { s with
          t := { s.t.modify x fun e => { e with mode := { e.mode with loaded, swapped, locked } } with
            swapping } } :=
        ⟨fun p => (hsame p).1, fun p => (hsame p).2.1, fun p => (hsame p).2.2.2.1,
          fun p _ => (hsame p).2.2.2.2.2, fun p => Or.inl rfl, rfl, rfl, rfl, rfl⟩
      exact ⟨hm.family h.family, hm.named h.named, hm.patient h.patient fun y hy ha =>
        ⟨hy, (hsame y).2.2.1.symm.trans ha, (hsame y).2.2.2.2.1⟩⟩

lemma reachable_sound (h : Reachable State.step State.Start s) : s.Sound :=
  h.invariant (fun _ => Start.sound) fun _ _ _ hs _ => hs.step

/-- **Exit and wait.**  A process that has exited keeps its slot until one `wait` of its parent has
returned its status or its parent's exit has disposed of it, and this happens once.  When a process
exits its living children become children of init.  Nobody is asleep in `wait` with an exited child. -/
theorem exit_wait (h : Reachable State.step State.Start s) :
    (∀ p q, s.Born p → s.Born q → s.name p = s.name q → p = q) ∧
    (∀ p, s.Born p → s.hist (s.name p) =
      if (s.t.plist p).mode.alive then [] else [.exited (s.t.plist p).status]) ∧
    (∀ b < s.next, (∃ p, s.Born p ∧ s.name p = b) ∨ ∃ status,
      s.hist b = [.exited status, .reaped (s.father b) status] ∨
        s.hist b = [.exited status, .disposed (s.father b)]) ∧
    (∀ p x, s.Born p → (s.t.plist p).parent = some x → s.father (s.name p) = s.name x) ∧
    (∀ x s', s.step (.quit x) = some s' → ∀ q, (s.t.plist q).parent = some x →
      (s.t.plist q).mode.alive = true →
        (s'.t.plist q).parent = some Table.initproc ∧ (s'.t.plist q).mode.alive = true) ∧
    ∀ x, s.phase x = .waiting → (s.t.plist x).mode.awake = false →
      ∀ q, (s.t.plist q).parent = some x → (s.t.plist q).mode.alive = true := by
  have hs := reachable_sound h
  refine ⟨hs.named.inj, hs.named.hist, hs.named.gone, hs.named.father, ?_, fun x hx ha =>
    (hs.patient x hx ha).2⟩
  intro x s' hstep q hq ha
  simp only [State.step] at hstep
  split_ifs at hstep with hg
  cases hstep
  -- the loop of `exit` over the table
  rcases quit_cases hs.family x q with ⟨rfl, -⟩ | ⟨-, hne, -⟩ | ⟨-, -, hdead, -⟩ |
    ⟨-, -, -, -, h1, h2, -⟩
  · exact absurd hq (hs.family.other _)
  · exact absurd hq hne
  · rw [ha] at hdead
    exact absurd hdead (by simp)
  · exact ⟨h2, h1⟩

/-- The swapper and init. -/
def boot : State where
  t := ⟨fun p =>
    if p = 0 then { Entry.zero with mode := ⟨true, true, true, true, false, true, true, false⟩ }
    else if p = 1 then
      { Entry.zero with
        mode := ⟨true, true, true, true, false, false, true, false⟩
        parent := some 0
        pid := 1 }
    else .zero, 2, false⟩
  phase := fun _ => .run
  name := id
  next := 2
  father := fun _ => 0
  hist := fun _ => []

/-- Init waits for a child, which exits with 7; then nothing is left of the child but its fate. -/
theorem exit_wait_child : ∃ s, run State.step (fun _ _ => True) boot
      [.fork 1 0 .room, .wait 1, .exit 2 7, .quit 2, .resume 1] = some s ∧
    s.hist 2 = [.exited (7 <<< 8), .reaped 1 (7 <<< 8)] ∧
    ∀ x, s.phase x = .waiting → (s.t.plist x).mode.awake = false →
      ∀ q, (s.t.plist q).parent = some x → (s.t.plist q).mode.alive = true := by
  have hr : ((run State.step (fun _ _ => True) boot
      [.fork 1 0 .room, .wait 1, .exit 2 7, .quit 2, .resume 1]).map fun s => s.hist 2) =
        some [.exited (7 <<< 8), .reaped 1 (7 <<< 8)] := by
    decide +kernel
  obtain ⟨s, hs, hh⟩ := Option.map_eq_some_iff.mp hr
  have hstart : State.Start boot := ⟨rfl, rfl, rfl, rfl, rfl, rfl⟩
  exact ⟨s, hs, hh, (exit_wait (Reach.of_run hstart hs)).2.2.2.2.2⟩

end State

end Procs

end Micronix
