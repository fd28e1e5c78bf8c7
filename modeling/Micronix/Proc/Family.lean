import Micronix.Proc.Wait

/-!
# Parents and children

Three invariants: the parents of the processes in the table (`Family`), what is known of every process
there has been (`Named`), and that nobody sleeps in `wait` beside a dead child (`Patient`).  They hold
when a child is born and when `wait` frees one.
-/

namespace Micronix

namespace Procs

open Transition

namespace Table

/-! ## What `run` and `wakeup` change -/

variable {t : Table} {p q : ℕ} {c : Chan}

lemma run_self (t : Table) (p : ℕ) : (t.run p).plist p = (t.plist p).rouse := by
  unfold run
  dsimp only
  split_ifs
  · simp [modify, set]
  · by_cases hp : p = swapproc
    · subst hp
      simp [modify, set, Entry.rouse]
    · simp [modify, set, Function.update_of_ne hp]

lemma run_other (h : q ≠ p) (h0 : q ≠ swapproc) : (t.run p).plist q = t.plist q := by
  unfold run
  dsimp only
  split_ifs
  · simp [modify, set, Function.update_of_ne h]
  · simp [modify, set, Function.update_of_ne h, Function.update_of_ne h0]

/-- An entry may be roused. -/
def Stirred (e e' : Entry) : Prop := e' = e ∨ e' = e.rouse

lemma Stirred.trans {e e' e'' : Entry} (h : Stirred e e') (h' : Stirred e' e'') : Stirred e e'' := by
  rcases h with rfl | rfl
  · exact h'
  · rcases h' with rfl | rfl <;> exact Or.inr rfl

lemma run_stirred (t : Table) (p q : ℕ) : Stirred (t.plist q) ((t.run p).plist q) := by
  by_cases hq : q = p
  · subst hq
    exact Or.inr (run_self t q)
  · by_cases h0 : q = swapproc
    · subst h0
      unfold run
      dsimp only
      split_ifs
      · exact Or.inl (by simp [modify, set, Function.update_of_ne hq])
      · exact Or.inr (by simp [modify, set, Function.update_of_ne hq])
    · exact Or.inl (run_other hq h0)

lemma wakeup_stirred (t : Table) (c : Chan) (q : ℕ) :
    Stirred (t.plist q) ((t.wakeup c).plist q) := by
  unfold wakeup
  generalize List.range nproc = L
  induction L generalizing t with
  | nil => exact Or.inl rfl
  | cons p L ih =>
      rw [List.foldl_cons]
      split_ifs
      · exact (run_stirred t p q).trans (ih _)
      · exact ih t

/-- **No wake-up is lost**: who waits on the channel is awake afterwards. -/
lemma wakeup_awake (hq : q < nproc) (h : (t.plist q).event = c) :
    ((t.wakeup c).plist q).mode.awake = true := by
  have key : ∀ (L : List ℕ) (t : Table),
      (q ∈ L ∧ (t.plist q).event = c) ∨ (t.plist q).mode.awake = true →
        ((L.foldl (fun t p => if (t.plist p).event = c then t.run p else t) t).plist q).mode.awake =
          true := by
    intro L
    induction L with
    | nil =>
        intro t h
        exact h.resolve_left fun h => List.not_mem_nil h.1
    | cons p L ih =>
        intro t h
        rw [List.foldl_cons]
        refine ih _ ?_
        by_cases hqp : q = p
        · subst hqp
          rcases h with ⟨-, he⟩ | ha
          · rw [if_pos he]
            exact Or.inr (by rw [run_self]; rfl)
          · split_ifs
            · exact Or.inr (by rw [run_self]; rfl)
            · exact Or.inr ha
        · have hmem : ((q ∈ L ∧ (t.plist q).event = c) ∨ (t.plist q).mode.awake = true) :=
            h.imp_left fun h => ⟨(List.mem_cons.mp h.1).resolve_left hqp, h.2⟩
          split_ifs
          · rcases run_stirred t p q with he | he
            · rwa [he]
            · exact Or.inr (by rw [he]; rfl)
          · exact hmem
  exact key _ _ (Or.inl ⟨List.mem_range.mpr hq, h⟩)

/-! ## What `fork` changes -/

lemma spawn_other {x d m : ℕ} (h : q ≠ d) :
    ((t.spawn x d m).plist q).mode = (t.plist q).mode ∧
      ((t.spawn x d m).plist q).event = (t.plist q).event ∧
      ((t.spawn x d m).plist q).parent = (t.plist q).parent ∧
      ((t.spawn x d m).plist q).status = (t.plist q).status := by
  by_cases hq : q = x
  · subst hq
    simp [spawn, modify, set, Function.update_of_ne h]
  · simp [spawn, modify, set, Function.update_of_ne h, Function.update_of_ne hq]

lemma spawn_child (t : Table) (x d frame : ℕ) :
    ((t.spawn x d frame).plist d).mode = (t.plist x).mode ∧
      ((t.spawn x d frame).plist d).parent = some x := by
  simp [spawn, modify, set]

end Table

namespace State

variable {s s' : State} {x c q : ℕ}

/-! ## The invariants -/

/-- The process has its name. -/
def Born (s : State) (p : ℕ) : Prop := (s.t.plist p).mode.alloc = true ∧ s.phase p ≠ .unborn

/-- The process is between its birth and its end. -/
def Lives (s : State) (p : ℕ) : Prop :=
  p ≠ Table.swapproc ∧ p < nproc ∧ (s.t.plist p).mode.alloc = true ∧
    (s.t.plist p).mode.alive = true

/-- The parent of a process lives, or it is init. -/
structure Family (s : State) : Prop where
  bound : ∀ p, (s.t.plist p).mode.alloc = true → p < nproc
  free : ∀ p, (s.t.plist p).mode.alloc = false → (s.t.plist p).parent = none
  swapper : (s.t.plist Table.swapproc).parent = none ∧ s.Born Table.swapproc
  init : (s.t.plist Table.initproc).parent = some Table.swapproc ∧ s.Born Table.initproc
  parent : ∀ p, p ≠ Table.swapproc → (s.t.plist p).mode.alloc = true → ∃ x,
    (s.t.plist p).parent = some x ∧ s.Born x ∧
      ((s.t.plist x).mode.alive = true ∨ x = Table.initproc)
  other : ∀ p, (s.t.plist p).parent ≠ some p
  busy : ∀ p, s.phase p ≠ .run → s.Lives p
  forking : ∀ x c, s.phase x = .forking c →
    s.phase c = .unborn ∧ (s.t.plist c).parent = some x
  unborn : ∀ c, s.phase c = .unborn → ∃ x, (s.t.plist c).parent = some x ∧ s.phase x = .forking c

/-- Who has a parent is in the table. -/
lemma Family.child {s : State} (hf : s.Family) {p x : ℕ} (hp : (s.t.plist p).parent = some x) :
    (s.t.plist p).mode.alloc = true ∧ p < nproc := by
  have ha : (s.t.plist p).mode.alloc = true := by
    by_contra hn
    rw [hf.free p (by simpa using hn)] at hp
    cases hp
  exact ⟨ha, hf.bound p ha⟩

/-- The process is no more, and this is what became of it. -/
def Gone (s : State) (b : ℕ) : Prop :=
  ∃ status, s.hist b = [.exited status, .reaped (s.father b) status] ∨
    s.hist b = [.exited status, .disposed (s.father b)]

/-- What is known of the processes by their names. -/
structure Named (s : State) : Prop where
  lt : ∀ p, s.Born p → s.name p < s.next
  inj : ∀ p q, s.Born p → s.Born q → s.name p = s.name q → p = q
  hist : ∀ p, s.Born p → s.hist (s.name p) =
    if (s.t.plist p).mode.alive then [] else [.exited (s.t.plist p).status]
  father : ∀ p x, s.Born p → (s.t.plist p).parent = some x → s.father (s.name p) = s.name x
  gone : ∀ b < s.next, (∃ p, s.Born p ∧ s.name p = b) ∨ s.Gone b
  new : ∀ b, s.next ≤ b → s.hist b = []

/-- A sleeper in `wait` waits for its children, and they all live. -/
def Patient (s : State) : Prop :=
  ∀ x, s.phase x = .waiting → (s.t.plist x).mode.awake = false →
    (s.t.plist x).event = .proc x ∧
      ∀ q, (s.t.plist q).parent = some x → (s.t.plist q).mode.alive = true

/-! ## Steps that touch no family ties -/

/-- No process comes, goes, exits or has its parent changed. -/
structure Mild (s s' : State) : Prop where
  alloc : ∀ p, (s'.t.plist p).mode.alloc = (s.t.plist p).mode.alloc
  alive : ∀ p, (s'.t.plist p).mode.alive = (s.t.plist p).mode.alive
  parent : ∀ p, (s'.t.plist p).parent = (s.t.plist p).parent
  status : ∀ p, (s.t.plist p).mode.alive = false → (s'.t.plist p).status = (s.t.plist p).status
  phase : ∀ p, s'.phase p = s.phase p ∨ s.Lives p ∧ (∀ c, s.phase p ≠ .forking c) ∧
    s.phase p ≠ .unborn ∧ (∀ c, s'.phase p ≠ .forking c) ∧ s'.phase p ≠ .unborn
  name : s'.name = s.name
  next : s'.next = s.next
  father : s'.father = s.father
  hist : s'.hist = s.hist

/-- What is known of the processes depends on those who have a name. -/
lemma Named.congr (hn : s.Named) (hb : ∀ p, s'.Born p ↔ s.Born p)
    (he : ∀ p, s.Born p → (s'.t.plist p).mode.alive = (s.t.plist p).mode.alive ∧
      (s'.t.plist p).parent = (s.t.plist p).parent ∧
      ((s.t.plist p).mode.alive = false → (s'.t.plist p).status = (s.t.plist p).status))
    (h1 : s'.name = s.name) (h2 : s'.next = s.next) (h3 : s'.father = s.father)
    (h4 : s'.hist = s.hist) : s'.Named := by
  constructor
  · intro p hp
    rw [h1, h2]
    exact hn.lt p ((hb p).mp hp)
  · intro p q hp hq he
    rw [h1] at he
    exact hn.inj p q ((hb p).mp hp) ((hb q).mp hq) he
  · intro p hp
    obtain ⟨ha, -, hst⟩ := he p ((hb p).mp hp)
    rw [h4, h1, hn.hist p ((hb p).mp hp), ha]
    cases hal : (s.t.plist p).mode.alive with
    | true => rfl
    | false => rw [hst hal]
  · intro p x hp hx
    rw [h3, h1]
    exact hn.father p x ((hb p).mp hp) ((he p ((hb p).mp hp)).2.1 ▸ hx)
  · intro b hlt
    rw [h2] at hlt
    rw [Gone, h4, h3, h1]
    exact (hn.gone b hlt).imp_left fun ⟨p, hp, he⟩ => ⟨p, (hb p).mpr hp, he⟩
  · intro b hle
    rw [h4]
    exact hn.new b (h2 ▸ hle)

namespace Mild

lemma unborn_iff (h : Mild s s') (p : ℕ) : s'.phase p = .unborn ↔ s.phase p = .unborn := by
  rcases h.phase p with he | ⟨-, -, h1, -, h2⟩
  · rw [he]
  · exact iff_of_false h2 h1

lemma forking_iff (h : Mild s s') (p c : ℕ) : s'.phase p = .forking c ↔ s.phase p = .forking c := by
  rcases h.phase p with he | ⟨-, h1, -, h2, -⟩
  · rw [he]
  · exact iff_of_false (h2 c) (h1 c)

lemma born_iff (h : Mild s s') (p : ℕ) : s'.Born p ↔ s.Born p := by
  rw [Born, Born, h.alloc, ne_eq, ne_eq, h.unborn_iff]

lemma lives_iff (h : Mild s s') (p : ℕ) : s'.Lives p ↔ s.Lives p := by
  rw [Lives, Lives, h.alloc, h.alive]

lemma family (h : Mild s s') (hf : s.Family) : s'.Family := by
  constructor
  · intro p hp
    exact hf.bound p (h.alloc p ▸ hp)
  · intro p hp
    rw [h.parent]
    exact hf.free p (h.alloc p ▸ hp)
  · rw [h.parent, h.born_iff]
    exact hf.swapper
  · rw [h.parent, h.born_iff]
    exact hf.init
  · intro p h0 hp
    obtain ⟨x, h1, h2, h3⟩ := hf.parent p h0 (h.alloc p ▸ hp)
    exact ⟨x, (h.parent p).trans h1, (h.born_iff x).mpr h2, by rwa [h.alive]⟩
  · intro p
    rw [h.parent]
    exact hf.other p
  · intro p hp
    rw [h.lives_iff]
    rcases h.phase p with he | ⟨hl, -⟩
    · exact hf.busy p (he ▸ hp)
    · exact hl
  · intro x c hx
    rw [h.unborn_iff, h.parent]
    exact hf.forking x c ((h.forking_iff x c).mp hx)
  · intro c hc
    obtain ⟨x, h1, h2⟩ := hf.unborn c ((h.unborn_iff c).mp hc)
    exact ⟨x, (h.parent c).trans h1, (h.forking_iff x c).mpr h2⟩

lemma named (h : Mild s s') (hn : s.Named) : s'.Named :=
  hn.congr h.born_iff (fun p _ => ⟨h.alive p, h.parent p, h.status p⟩) h.name h.next h.father h.hist

/-- Nobody starts to wait. -/
lemma patient (h : Mild s s') (hp : s.Patient)
    (hw : ∀ x, s'.phase x = .waiting → (s'.t.plist x).mode.awake = false →
      s.phase x = .waiting ∧ (s.t.plist x).mode.awake = false ∧
        (s'.t.plist x).event = (s.t.plist x).event) : s'.Patient := by
  intro x hx ha
  obtain ⟨h1, h2, h3⟩ := hw x hx ha
  obtain ⟨he, hall⟩ := hp x h1 h2
  refine ⟨h3.trans he, fun q hq => ?_⟩
  rw [h.alive]
  exact hall q (h.parent q ▸ hq)

end Mild

/-! ## A child is born -/

/-- The process in slot `x` gets a child in slot `c`, which had no name before. -/
structure Birth (s s' : State) (x c : ℕ) : Prop where
  parent : s.Born x ∧ s.Lives x ∧ s'.phase x = .run
  slot : c < nproc ∧ ¬s.Born c ∧ c ≠ x ∧ s'.phase c = .run
  before : (s.t.plist c).mode.alloc = false ∧ s.phase x = .run ∨
    (s.t.plist c).parent = some x ∧ s.phase x = .forking c
  phase : ∀ p, p ≠ x → p ≠ c → s'.phase p = s.phase p
  entry : ∀ p, p ≠ c → (s'.t.plist p).mode.alloc = (s.t.plist p).mode.alloc ∧
    (s'.t.plist p).mode.alive = (s.t.plist p).mode.alive ∧
    (s'.t.plist p).parent = (s.t.plist p).parent ∧
    ((s.t.plist p).mode.alive = false → (s'.t.plist p).status = (s.t.plist p).status)
  child : (s'.t.plist c).mode.alloc = true ∧ (s'.t.plist c).mode.alive = true ∧
    (s'.t.plist c).parent = some x
  name : s'.name = Function.update s.name c s.next
  next : s'.next = s.next + 1
  father : s'.father = Function.update s.father s.next (s.name x)
  hist : s'.hist = s.hist

namespace Birth

lemma born_iff (h : Birth s s' x c) {p : ℕ} (hp : p ≠ c) : s'.Born p ↔ s.Born p := by
  rw [Born, Born, (h.entry p hp).1]
  by_cases hpx : p = x
  · subst hpx
    simp [h.parent.2.2, h.parent.1.2]
  · rw [h.phase p hpx hp]

lemma born_child (h : Birth s s' x c) : s'.Born c :=
  ⟨h.child.1, by rw [h.slot.2.2.2]; simp⟩

/-- A slot of a process with a name is another one. -/
lemma ne_of_born (h : Birth s s' x c) {p : ℕ} (hp : s.Born p) : p ≠ c := by
  rintro rfl
  exact h.slot.2.1 hp

lemma family (h : Birth s s' x c) (hf : s.Family) : s'.Family := by
  have h0 := h.ne_of_born hf.swapper.2
  have h1 := h.ne_of_born hf.init.2
  have hforking : ∀ y d, s'.phase y = .forking d → y ≠ c ∧ y ≠ x ∧ s.phase y = .forking d := by
    intro y d hy
    have hyc : y ≠ c := by
      rintro rfl
      rw [h.slot.2.2.2] at hy
      exact absurd hy (by simp)
    have hyx : y ≠ x := by
      rintro rfl
      rw [h.parent.2.2] at hy
      exact absurd hy (by simp)
    exact ⟨hyc, hyx, h.phase y hyx hyc ▸ hy⟩
  constructor
  · intro p hp
    by_cases hpc : p = c
    · exact hpc ▸ h.slot.1
    · exact hf.bound p ((h.entry p hpc).1 ▸ hp)
  · intro p hp
    by_cases hpc : p = c
    · rw [hpc, h.child.1] at hp
      exact absurd hp (by simp)
    · rw [(h.entry p hpc).2.2.1]
      exact hf.free p ((h.entry p hpc).1 ▸ hp)
  · rw [(h.entry _ h0).2.2.1, h.born_iff h0]
    exact hf.swapper
  · rw [(h.entry _ h1).2.2.1, h.born_iff h1]
    exact hf.init
  · intro p hp0 hp
    by_cases hpc : p = c
    · subst hpc
      have hxc := h.slot.2.2.1.symm
      refine ⟨x, h.child.2.2, (h.born_iff hxc).mpr h.parent.1, Or.inl ?_⟩
      rw [(h.entry x hxc).2.1]
      exact h.parent.2.1.2.2.2
    · obtain ⟨y, hy, hb, hl⟩ := hf.parent p hp0 ((h.entry p hpc).1 ▸ hp)
      have hyc := h.ne_of_born hb
      refine ⟨y, (h.entry p hpc).2.2.1.trans hy, (h.born_iff hyc).mpr hb, ?_⟩
      rwa [(h.entry y hyc).2.1]
  · intro p
    by_cases hpc : p = c
    · rw [hpc, h.child.2.2]
      exact fun he => h.slot.2.2.1 (Option.some.inj he).symm
    · rw [(h.entry p hpc).2.2.1]
      exact hf.other p
  · intro p hp
    have hpc : p ≠ c := by
      rintro rfl
      exact hp h.slot.2.2.2
    have hpx : p ≠ x := by
      rintro rfl
      exact hp h.parent.2.2
    obtain ⟨h2, h3, h4, h5⟩ := hf.busy p (h.phase p hpx hpc ▸ hp)
    exact ⟨h2, h3, (h.entry p hpc).1.trans h4, (h.entry p hpc).2.1.trans h5⟩
  · intro y d hy
    obtain ⟨hyc, hyx, hold⟩ := hforking y d hy
    obtain ⟨hd, hpar⟩ := hf.forking y d hold
    have hdc : d ≠ c := by
      rintro rfl
      rcases h.before with ⟨hfree, -⟩ | ⟨hcx, -⟩
      · rw [hf.free _ hfree] at hpar
        exact absurd hpar (by simp)
      · rw [hcx] at hpar
        exact hyx (Option.some.inj hpar).symm
    have hdx : d ≠ x := by
      rintro rfl
      exact h.parent.1.2 hd
    rw [h.phase d hdx hdc, (h.entry d hdc).2.2.1]
    exact ⟨hd, hpar⟩
  · intro d hd
    have hdc : d ≠ c := by
      rintro rfl
      rw [h.slot.2.2.2] at hd
      exact absurd hd (by simp)
    have hdx : d ≠ x := by
      rintro rfl
      rw [h.parent.2.2] at hd
      exact absurd hd (by simp)
    rw [h.phase d hdx hdc] at hd
    obtain ⟨y, hpar, hy⟩ := hf.unborn d hd
    have hyc : y ≠ c := by
      rintro rfl
      rcases h.before with ⟨hfree, -⟩ | ⟨hcx, hxc⟩
      · rw [(hf.busy y (by rw [hy]; simp)).2.2.1] at hfree
        exact absurd hfree (by simp)
      · have hun := (hf.forking x y hxc).1
        rw [hy] at hun
        exact absurd hun (by simp)
    have hyx : y ≠ x := by
      rintro rfl
      rcases h.before with ⟨-, hrun⟩ | ⟨-, hfk⟩
      · rw [hrun] at hy
        exact absurd hy (by simp)
      · rw [hfk] at hy
        exact hdc (Phase.forking.inj hy).symm
    exact ⟨y, (h.entry d hdc).2.2.1.trans hpar, (h.phase y hyx hyc).trans hy⟩

lemma named (h : Birth s s' x c) (hf : s.Family) (hn : s.Named) : s'.Named := by
  have hlt : ∀ p, s.Born p → s.name p ≠ s.next := fun p hp => (hn.lt p hp).ne
  have hold : ∀ p, p ≠ c → s'.Born p → s.Born p ∧ s'.name p = s.name p := fun p hpc hp =>
    ⟨(h.born_iff hpc).mp hp, by rw [h.name, Function.update_of_ne hpc]⟩
  have hself : s'.name c = s.next := by rw [h.name, Function.update_self]
  constructor
  · intro p hp
    rw [h.next]
    by_cases hpc : p = c
    · rw [hpc, hself]
      exact Nat.lt_succ_self _
    · obtain ⟨hb, he⟩ := hold p hpc hp
      rw [he]
      exact (hn.lt p hb).trans (Nat.lt_succ_self _)
  · intro p q hp hq he
    by_cases hpc : p = c
    · by_cases hqc : q = c
      · rw [hpc, hqc]
      · obtain ⟨hb, hq'⟩ := hold q hqc hq
        rw [hpc, hself, hq'] at he
        exact absurd he.symm (hlt q hb)
    · obtain ⟨hb, hp'⟩ := hold p hpc hp
      by_cases hqc : q = c
      · rw [hqc, hself, hp'] at he
        exact absurd he (hlt p hb)
      · obtain ⟨hb', hq'⟩ := hold q hqc hq
        rw [hp', hq'] at he
        exact hn.inj p q hb hb' he
  · intro p hp
    rw [h.hist]
    by_cases hpc : p = c
    · rw [hpc, hself, h.child.2.1, if_pos rfl]
      exact hn.new _ le_rfl
    · obtain ⟨hb, hp'⟩ := hold p hpc hp
      obtain ⟨-, ha, -, hst⟩ := h.entry p hpc
      rw [hp', hn.hist p hb, ha]
      cases hal : (s.t.plist p).mode.alive with
      | true => rfl
      | false => rw [hst hal]
  · intro p y hp hy
    rw [h.father]
    by_cases hpc : p = c
    · rw [hpc, h.child.2.2] at hy
      cases hy
      rw [hpc, hself, Function.update_self, h.name, Function.update_of_ne h.slot.2.2.1.symm]
    · obtain ⟨hb, hp'⟩ := hold p hpc hp
      rw [(h.entry p hpc).2.2.1] at hy
      have hyb : s.Born y := by
        by_cases hp0 : p = Table.swapproc
        · rw [hp0, hf.swapper.1] at hy
          exact absurd hy (by simp)
        · obtain ⟨z, hz, hzb, -⟩ := hf.parent p hp0 hb.1
          rw [hy] at hz
          cases hz
          exact hzb
      rw [hp', Function.update_of_ne (hlt p hb), hn.father p y hb hy, h.name,
        Function.update_of_ne (h.ne_of_born hyb)]
  · intro b hb
    rw [h.next] at hb
    rcases Nat.lt_succ_iff_lt_or_eq.mp hb with hlt' | rfl
    · rcases hn.gone b hlt' with ⟨p, hp, rfl⟩ | hg
      · have hpc := h.ne_of_born hp
        exact Or.inl ⟨p, (h.born_iff hpc).mpr hp, by rw [h.name, Function.update_of_ne hpc]⟩
      · refine Or.inr ?_
        rw [Gone, h.hist, h.father, Function.update_of_ne hlt'.ne]
        exact hg
    · exact Or.inl ⟨c, h.born_child, hself⟩
  · intro b hb
    rw [h.hist]
    exact hn.new b (by rw [h.next] at hb; omega)

/-- No sleeper in `wait` is concerned. -/
lemma patient (h : Birth s s' x c) (hp : s.Patient)
    (hw : ∀ y, y ≠ c → y ≠ x → s'.phase y = .waiting → (s'.t.plist y).mode.awake = false →
      (s.t.plist y).mode.awake = false ∧ (s'.t.plist y).event = (s.t.plist y).event) :
    s'.Patient := by
  intro y hy ha
  have hyc : y ≠ c := by
    rintro rfl
    rw [h.slot.2.2.2] at hy
    exact absurd hy (by simp)
  have hyx : y ≠ x := by
    rintro rfl
    rw [h.parent.2.2] at hy
    exact absurd hy (by simp)
  obtain ⟨ha', he⟩ := hw y hyc hyx hy ha
  obtain ⟨hev, hall⟩ := hp y (h.phase y hyx hyc ▸ hy) ha'
  refine ⟨he.trans hev, fun q hq => ?_⟩
  by_cases hqc : q = c
  · rw [hqc, h.child.2.2] at hq
    exact absurd (Option.some.inj hq).symm hyx
  · rw [(h.entry q hqc).2.1]
    exact hall q ((h.entry q hqc).2.2.1 ▸ hq)

end Birth

/-! ## `wait` finds a dead child -/

/-- The dead child in slot `q` of the process in slot `x` is freed. -/
structure Reap (s s' : State) (x q : ℕ) : Prop where
  parent : s.Lives x ∧ s.Born x ∧ (s.phase x = .run ∨ s.phase x = .waiting)
  child : (s.t.plist q).parent = some x ∧ (s.t.plist q).mode.alive = false
  plist : s'.t.plist = Function.update s.t.plist q .zero
  phase : s'.phase = Function.update s.phase x .run
  name : s'.name = s.name
  next : s'.next = s.next
  father : s'.father = s.father
  hist : s'.hist = Function.update s.hist (s.name q)
    (s.hist (s.name q) ++ [.reaped (s.name x) (s.t.plist q).status])

namespace Reap

lemma facts (h : Reap s s' x q) (hf : s.Family) :
    q ≠ Table.swapproc ∧ q ≠ Table.initproc ∧ q ≠ x ∧ s.Born q := by
  obtain ⟨hpar, hdead⟩ := h.child
  have hrun : s.phase q = .run := by
    by_contra hp
    rw [(hf.busy q hp).2.2.2] at hdead
    exact absurd hdead (by simp)
  refine ⟨?_, ?_, ?_, ?_, ?_⟩
  · rintro rfl
    rw [hf.swapper.1] at hpar
    exact absurd hpar (by simp)
  · rintro rfl
    rw [hf.init.1] at hpar
    exact h.parent.1.1 (Option.some.inj hpar).symm
  · rintro rfl
    rw [h.parent.1.2.2.2] at hdead
    exact absurd hdead (by simp)
  · exact (hf.child hpar).1
  · rw [hrun]
    simp

lemma entry (h : Reap s s' x q) {p : ℕ} (hp : p ≠ q) : s'.t.plist p = s.t.plist p := by
  rw [h.plist, Function.update_of_ne hp]

lemma gone_entry (h : Reap s s' x q) : s'.t.plist q = .zero := by
  rw [h.plist, Function.update_self]

lemma unborn_iff (h : Reap s s' x q) (p : ℕ) : s'.phase p = .unborn ↔ s.phase p = .unborn := by
  rw [h.phase]
  by_cases hp : p = x
  · subst hp
    simp [h.parent.2.1.2]
  · rw [Function.update_of_ne hp]

lemma forking_iff (h : Reap s s' x q) (p c : ℕ) :
    s'.phase p = .forking c ↔ s.phase p = .forking c := by
  rw [h.phase]
  by_cases hp : p = x
  · subst hp
    rcases h.parent.2.2 with he | he <;> simp [he]
  · rw [Function.update_of_ne hp]

lemma born_iff (h : Reap s s' x q) (p : ℕ) : s'.Born p ↔ s.Born p ∧ p ≠ q := by
  by_cases hp : p = q
  · subst hp
    rw [Born, h.gone_entry]
    simp [Entry.zero]
  · rw [Born, h.entry hp, Born, ne_eq, ne_eq, h.unborn_iff]
    simp [hp]

lemma family (h : Reap s s' x q) (hf : s.Family) : s'.Family := by
  obtain ⟨h0, h1, hqx, hqb⟩ := h.facts hf
  have hne : ∀ p, (s'.t.plist p).mode.alloc = true → p ≠ q := by
    rintro p hp rfl
    rw [h.gone_entry] at hp
    exact absurd hp (by decide)
  constructor
  · intro p hp
    exact hf.bound p (h.entry (hne p hp) ▸ hp)
  · intro p hp
    by_cases hpq : p = q
    · rw [hpq, h.gone_entry]
      rfl
    · rw [h.entry hpq] at hp ⊢
      exact hf.free p hp
  · rw [h.entry h0.symm, h.born_iff]
    exact ⟨hf.swapper.1, hf.swapper.2, h0.symm⟩
  · rw [h.entry h1.symm, h.born_iff]
    exact ⟨hf.init.1, hf.init.2, h1.symm⟩
  · intro p hp0 hp
    have hpq := hne p hp
    rw [h.entry hpq] at hp ⊢
    obtain ⟨y, hy, hb, hl⟩ := hf.parent p hp0 hp
    -- the parent is not the dead process
    have hyq : y ≠ q := by
      rintro rfl
      rcases hl with hl | hl
      · rw [h.child.2] at hl
        exact absurd hl (by simp)
      · exact h1 hl
    refine ⟨y, hy, (h.born_iff y).mpr ⟨hb, hyq⟩, ?_⟩
    rwa [h.entry hyq]
  · intro p
    by_cases hpq : p = q
    · rw [hpq, h.gone_entry]
      simp [Entry.zero]
    · rw [h.entry hpq]
      exact hf.other p
  · intro p hp
    have hold : s.phase p ≠ .run := by
      intro hr
      refine hp ?_
      rw [h.phase]
      by_cases hpx : p = x
      · rw [hpx, Function.update_self]
      · rw [Function.update_of_ne hpx, hr]
    have hl := hf.busy p hold
    have hpq : p ≠ q := by
      rintro rfl
      have hlive := hl.2.2.2
      rw [h.child.2] at hlive
      exact absurd hlive (by simp)
    rw [Lives, h.entry hpq]
    exact hl
  · intro y d hy
    have hd := hf.forking y d ((h.forking_iff y d).mp hy)
    have hdq : d ≠ q := by
      rintro rfl
      exact hqb.2 hd.1
    rw [h.unborn_iff, h.entry hdq]
    exact hd
  · intro d hd
    have hd' := (h.unborn_iff d).mp hd
    obtain ⟨y, hpar, hy⟩ := hf.unborn d hd'
    have hdq : d ≠ q := by
      rintro rfl
      exact hqb.2 hd'
    exact ⟨y, h.entry hdq ▸ hpar, (h.forking_iff y d).mpr hy⟩

lemma named (h : Reap s s' x q) (hf : s.Family) (hn : s.Named) : s'.Named := by
  obtain ⟨-, -, -, hqb⟩ := h.facts hf
  constructor
  · intro p hp
    rw [h.name, h.next]
    exact hn.lt p ((h.born_iff p).mp hp).1
  · intro p r hp hr he
    rw [h.name] at he
    exact hn.inj p r ((h.born_iff p).mp hp).1 ((h.born_iff r).mp hr).1 he
  · intro p hp
    obtain ⟨hb, hpq⟩ := (h.born_iff p).mp hp
    have hne : s.name p ≠ s.name q := fun he => hpq (hn.inj p q hb hqb he)
    rw [h.name, h.hist, Function.update_of_ne hne, h.entry hpq]
    exact hn.hist p hb
  · intro p y hp hy
    obtain ⟨hb, hpq⟩ := (h.born_iff p).mp hp
    rw [h.name, h.father]
    exact hn.father p y hb (h.entry hpq ▸ hy)
  · intro b hb
    rw [h.next] at hb
    by_cases hbq : b = s.name q
    · refine Or.inr ⟨(s.t.plist q).status, Or.inl ?_⟩
      rw [hbq, h.hist, Function.update_self, hn.hist q hqb, h.child.2, h.father,
        hn.father q x hqb h.child.1]
      rfl
    · rcases hn.gone b hb with ⟨p, hp, rfl⟩ | hg
      · refine Or.inl ⟨p, (h.born_iff p).mpr ⟨hp, ?_⟩, by rw [h.name]⟩
        rintro rfl
        exact hbq rfl
      · refine Or.inr ?_
        rw [Gone, h.hist, Function.update_of_ne hbq, h.father]
        exact hg
  · intro b hb
    rw [h.next] at hb
    have hbq : b ≠ s.name q := by
      have := hn.lt q hqb
      omega
    rw [h.hist, Function.update_of_ne hbq]
    exact hn.new b hb

lemma patient (h : Reap s s' x q) (hf : s.Family) (hp : s.Patient) : s'.Patient := by
  intro y hy ha
  have hyx : y ≠ x := by
    rintro rfl
    rw [h.phase, Function.update_self] at hy
    exact absurd hy (by simp)
  rw [h.phase, Function.update_of_ne hyx] at hy
  have hyq : y ≠ q := by
    rintro rfl
    have := (hf.busy y (by rw [hy]; simp)).2.2.2
    rw [h.child.2] at this
    exact absurd this (by simp)
  rw [h.entry hyq] at ha ⊢
  obtain ⟨hev, hall⟩ := hp y hy ha
  refine ⟨hev, fun r hr => ?_⟩
  have hrq : r ≠ q := by
    rintro rfl
    rw [h.gone_entry] at hr
    exact absurd hr (by simp [Entry.zero])
  rw [h.entry hrq] at hr ⊢
  exact hall r hr

end Reap

end State

end Procs

end Micronix
