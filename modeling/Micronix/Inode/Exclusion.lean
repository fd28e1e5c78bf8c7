import Micronix.Inode.Discipline
import Micronix.Lib.Transition

/-!
# At most one process has a slot locked

`KInv` ties what each process believes it has locked to `IBUSY`.  A step keeps it when the calls of
`idec` without the lock find the slot free at the moment they release it.
-/

namespace Micronix

/-- What a process still has to do. -/
def Ctl.prog : Ctl → Prog
  | ready P => P
  | pending c k => .op c k

/-- The slot of the `idec` that it is about to call, or in which it sleeps. -/
def Ctl.frees : Ctl → Option ℕ
  | ready (.op (.idec i) _) | pending (.idec i) _ => some i
  | _ => none

/-- Where the process stands in the inode list. -/
def Ctl.At : Ctl → Stage → Prop
  | ready _, k => k = .idle
  | pending c _, k => Ilist.StageOf c k

namespace Kernel

/-- Process `p` stands between its `ilock` of slot `i` and its `irelse` or `idec`. -/
def Holds (s : Kernel) (p i : ℕ) : Prop := i ∈ s.held p ∨ (s.il.stage p).locks = some i

/-- The process that takes the step. -/
def Label.actor : Label → Option ℕ
  | start p _ | exec p _ | resume p _ => some p
  | env _ => none

/-- A call of `idec` without the lock finds the slot free when it releases it: at once, or after
the inode has been freed. -/
def Careful (s : Kernel) : Label → Prop
  | .exec p _ => ∀ i ∈ (s.ctl p).frees, i ∈ s.held p ∨ (s.il.slot i).busy = false ∨
      (s.il.slot i).count = 0 ∧ (s.il.slot i).nlink = 0
  | .resume p _ => ∀ i ∈ (s.ctl p).frees, i ∈ s.held p ∨ (s.il.slot i).busy = false
  | .start _ _ | .env _ => True

instance (s : Kernel) : ∀ l, Decidable (Careful s l)
  | .exec p _ => inferInstanceAs (Decidable (∀ i ∈ (s.ctl p).frees, _ ∨ _ ∨ _ ∧ _))
  | .resume p _ => inferInstanceAs (Decidable (∀ i ∈ (s.ctl p).frees, _ ∨ _))
  | .start _ _ | .env _ => inferInstanceAs (Decidable True)

/-- The kernel at a quiet time: every process is outside the kernel. -/
structure Boot (s : Kernel) : Prop where
  il : s.il.Quiet
  ctl : ∀ p, s.ctl p = .ready .done
  turn : s.turn = none
  held : ∀ p, s.held p = []
  loose : ∀ p, s.loose p = []

/-- The invariant; `bare` allows `idec` without the lock. -/
structure KInv (bare : Bool) (s : Kernel) : Prop where
  locked : s.il.Locked
  stage : ∀ p, (s.ctl p).At (s.il.stage p)
  disc : ∀ p, Prog.Disc bare (s.ctl p).prog (s.held p) (s.loose p)
  locks : ∀ p i, (s.il.stage p).locks = some i → s.il.own i = some p ∧ i ∉ s.held p
  held : ∀ p i, i ∈ s.held p → s.il.own i = some p
  nodup : ∀ p, (s.held p).Nodup
  loose : ∀ p i, i ∈ s.loose p → s.turn = some p ∧ (s.il.own i = none ∨ s.il.own i = some p)

variable {bare : Bool} {s s' t : Kernel} {il : Ilist} {p n i : ℕ} {c : Ilist.Call}
  {k : Option ℕ → Prog} {pre post : Option ℕ}

/-! ## One process moves -/

/-- On the way from `s` only process `p` has done something, and its account of what it has locked
is true. -/
structure Near (s t : Kernel) (p : ℕ) : Prop where
  locked : t.il.Locked
  stage : ∀ q, q ≠ p → t.il.stage q = s.il.stage q
  own : ∀ i q, q ≠ p → s.il.own i = some q → t.il.own i = some q
  ctl : ∀ q, q ≠ p → t.ctl q = s.ctl q
  others : ∀ q, q ≠ p → t.held q = s.held q ∧ t.loose q = s.loose q
  locks : ∀ i, (t.il.stage p).locks = some i → t.il.own i = some p ∧ i ∉ t.held p
  held : ∀ i, i ∈ t.held p → t.il.own i = some p
  nodup : (t.held p).Nodup

lemma KInv.near (h : KInv bare s) (p : ℕ) : Near s s p :=
  ⟨h.locked, fun _ _ => rfl, fun _ _ _ e => e, fun _ _ => rfl, fun _ _ => ⟨rfl, rfl⟩, h.locks p,
    h.held p, h.nodup p⟩

/-- A step that touches neither locks nor stages. -/
lemma Near.congr (h : Near s t p) (hb : ∀ i, (il.slot i).busy = (t.il.slot i).busy)
    (ho : il.own = t.il.own) (hs : il.stage = t.il.stage) : Near s { t with il := il } p where
  locked i := by
    rw [hb, ho]
    exact h.locked i
  stage q hq := by
    rw [hs]
    exact h.stage q hq
  own i q hq e := by
    rw [ho]
    exact h.own i q hq e
  ctl := h.ctl
  others := h.others
  locks i e := by
    rw [ho]
    exact h.locks i (by rwa [hs] at e)
  held i hi := by
    rw [ho]
    exact h.held i hi
  nodup := h.nodup

/-- Process `p` is at `x` now and has released the slots of `loose` since it last slept. -/
lemma KInv.move (h : KInv bare s) (ht : s.turn = none ∨ s.turn = some p) (hn : Near s t p)
    {x : Ctl} {loose : List ℕ} {turn : Option ℕ} (hx : x.At (t.il.stage p))
    (hd : Prog.Disc bare x.prog (t.held p) loose)
    (hl : ∀ i ∈ loose, turn = some p ∧ (t.il.own i = none ∨ t.il.own i = some p)) :
    KInv bare { t with
      ctl := Function.update t.ctl p x
      turn := turn
      loose := Function.update t.loose p loose } where
  locked := hn.locked
  stage q := by
    by_cases hq : q = p
    · subst hq
      simpa using hx
    · simpa [hq, hn.ctl q hq, hn.stage q hq] using h.stage q
  disc q := by
    by_cases hq : q = p
    · subst hq
      simpa using hd
    · simpa [hq, hn.ctl q hq, hn.others q hq] using h.disc q
  locks q i e := by
    by_cases hq : q = p
    · subst hq
      exact hn.locks i e
    · obtain ⟨ho, hi⟩ := h.locks q i (hn.stage q hq ▸ e)
      exact ⟨hn.own i q hq ho, by rwa [(hn.others q hq).1]⟩
  held q i hi := by
    by_cases hq : q = p
    · subst hq
      exact hn.held i hi
    · exact hn.own i q hq (h.held q i ((hn.others q hq).1 ▸ hi))
  nodup q := by
    by_cases hq : q = p
    · subst hq
      exact hn.nodup
    · exact (hn.others q hq).1 ▸ h.nodup q
  loose q i hi := by
    by_cases hq : q = p
    · subst hq
      exact hl i (by simpa using hi)
    · -- only the process that runs has released anything since it slept
      have hi' : i ∈ s.loose q := by simpa [hq, hn.others q hq] using hi
      have hs := (h.loose q i hi').1
      rcases ht with ht | ht <;> simp [hs, hq] at ht

lemma KInv.yield (h : KInv bare s) (ht : s.turn = none ∨ s.turn = some p) (hn : Near s t p)
    {x : Ctl} (hx : x.At (t.il.stage p)) (hd : Prog.Disc bare x.prog (t.held p) []) :
    KInv bare (t.yield p x) :=
  h.move ht hn hx hd (by simp)

/-- The process goes on. -/
lemma KInv.go (h : KInv bare s) (ht : s.turn = none ∨ s.turn = some p) (hn : Near s t p)
    {P : Prog} (hs : t.il.stage p = .idle) (hd : Prog.Disc bare P (t.held p) (t.loose p))
    (hl : ∀ i ∈ t.loose p, t.il.own i = none ∨ t.il.own i = some p) : KInv bare (t.go p P) := by
  unfold Kernel.go
  split_ifs with hP
  · cases P <;> simp only [Prog.isDone, Bool.false_eq_true] at hP
    exact h.yield ht hn hs hd
  · have hm := h.move (x := .ready P) ht hn hs hd fun i hi => ⟨rfl, hl i hi⟩
    rwa [Function.update_eq_self] at hm

/-- What has been released since the process last slept. -/
lemma KInv.released (h : KInv bare s) (p : ℕ) :
    ∀ i ∈ s.loose p, s.il.own i = none ∨ s.il.own i = some p := fun i hi => (h.loose p i hi).2

/-! ## A call of the inode list -/

lemma not_stageOf_idle (c : Ilist.Call) : ¬Ilist.StageOf c .idle := by
  cases c <;> simp [Ilist.StageOf]

/-- A call returns a slot only if it does not release one. -/
lemma grant_eq_none {s : Ilist} {i : ℕ} (h : c.drops = some i) : s.grant c = none := by
  cases c <;> simp_all [Ilist.Call.drops, Ilist.grant]

/-- What a process has locked after a call that has returned: the slot that it returns and those it
had before, except the one it released. -/
lemma mem_heldAfter {s : Ilist} {held : List ℕ} (hn : held.Nodup)
    (hi : i ∈ heldAfter c s.result held) :
    s.grant c = some i ∨ i ∈ held ∧ c.drops ≠ some i := by
  cases c with
  | iget num dev =>
      rcases List.mem_append.mp hi with hi | hi
      · exact Or.inl (by simpa [Ilist.grant] using hi)
      · exact Or.inr ⟨hi, by simp [Ilist.Call.drops]⟩
  | ilock j =>
      rcases List.mem_cons.mp hi with rfl | hi
      · exact Or.inl rfl
      · exact Or.inr ⟨hi, by simp [Ilist.Call.drops]⟩
  | irelse j | idec j =>
      obtain ⟨hj, hi⟩ := (hn.mem_erase_iff).mp hi
      exact Or.inr ⟨hi, by simpa [Ilist.Call.drops] using Ne.symm hj⟩
  | isync | iflush d => exact Or.inr ⟨hi, by simp [Ilist.Call.drops]⟩

lemma nodup_heldAfter {s : Ilist} {held : List ℕ} (hn : held.Nodup)
    (hg : ∀ i, s.grant c = some i → i ∉ held) : (heldAfter c s.result held).Nodup := by
  cases c with
  | iget num dev =>
      cases hr : s.result with
      | none => simpa [heldAfter, hr] using hn
      | some i => simpa [heldAfter, hr] using ⟨hg i hr, hn⟩
  | ilock j => exact List.nodup_cons.mpr ⟨hg j rfl, hn⟩
  | irelse j | idec j => exact hn.erase j
  | isync | iflush d => exact hn

lemma mem_looseAfter {loose : List ℕ} (hi : i ∈ looseAfter c loose) :
    c.drops = some i ∨ i ∈ loose ∧ c.drops ≠ none := by
  cases c with
  | irelse j =>
      rcases List.mem_cons.mp hi with rfl | hi
      · exact Or.inl rfl
      · exact Or.inr ⟨hi, by simp [Ilist.Call.drops]⟩
  | idec j =>
      obtain rfl : i = j := by simpa [looseAfter] using hi
      exact Or.inl rfl
  | iget num dev | ilock j | isync | iflush d => simp [looseAfter] at hi

/-- Nobody sleeps in `irelse`, the only call that looks at what was released before. -/
lemma looseAfter_of_stageOf {k : Stage} (h : Ilist.StageOf c k) (loose : List ℕ) :
    looseAfter c loose = looseAfter c [] := by
  cases c <;> simp [looseAfter, Ilist.StageOf] at h ⊢

lemma callOk_of_stageOf {k : Stage} {held loose : List ℕ} (h : Ilist.StageOf c k)
    (hc : Prog.CallOk bare held loose c) : Prog.CallOk bare held [] c := by
  cases c <;> simp_all [Prog.CallOk, Ilist.StageOf]

/-- The process still has what it has not given up. -/
lemma own_of_out {s il : Ilist} (ho : Ilist.Out s il p pre post) (hp : s.own i = some p)
    (hne : pre ≠ some i) : il.own i = some p := by
  rw [ho.own i]
  split_ifs
  · rfl
  · exact hp

/-- Another process still has what was not given up for it. -/
lemma own_of_others {s il : Ilist} {q : ℕ} (ho : Ilist.Out s il p pre post) (hq : s.own i = some q)
    (hne : pre ≠ some i) : il.own i = some q := by
  rw [ho.own i, if_neg hne, if_neg, hq]
  intro e
  rcases ho.free i e with e | e
  · exact hne e
  · simp [hq] at e

/-- **After a call.**  `pre` is what the process gives up and `post` what it has locked in the call
or returns; it gives up nothing that another has locked. -/
lemma KInv.after (h : KInv bare s) (ht : s.turn = none ∨ s.turn = some p)
    (hd : Prog.Disc bare (.op c k) (s.held p) (s.loose p)) (ho : Ilist.Out s.il il p pre post)
    (he : il.Ends p c post)
    (hpre : pre = c.drops ∧ il.stage p = .idle ∨
      (il.stage p ≠ .idle ∨ c.drops = none) ∧ ∀ i, pre = some i → i ∉ s.held p)
    (hothers : ∀ i q, q ≠ p → s.il.own i = some q → pre ≠ some i) :
    KInv bare (s.after p c k il) := by
  have hown : ∀ i q, q ≠ p → s.il.own i = some q → il.own i = some q := fun i q hq e =>
    own_of_others ho e (hothers i q hq e)
  have hnew : ∀ i, post = some i → (pre = some i → i ∉ s.held p) → i ∉ s.held p := by
    intro i e hi hm
    rcases ho.free i e with e' | e'
    · exact hi e' hm
    · simp [h.held p i hm] at e'
  rcases he with ⟨hidle, rfl⟩ | ⟨hst, rfl⟩
  · rw [Kernel.after, if_pos (by rw [hidle]; rfl)]
    have hgive : ∀ i, pre = some i → i ∈ s.held p → c.drops = some i := by
      intro i e hm
      rcases hpre with ⟨e', -⟩ | ⟨-, hn⟩
      · rw [← e', e]
      · exact absurd hm (hn i e)
    have hfresh : ∀ i, il.grant c = some i → i ∉ s.held p := fun i e =>
      hnew i e fun e' hm => by simp [grant_eq_none (hgive i e' hm)] at e
    refine h.go (t := { s with
        il := il
        held := Function.update s.held p (heldAfter c il.result (s.held p))
        loose := Function.update s.loose p (looseAfter c (s.loose p)) }) ht
      ⟨ho.locked, ho.stage, hown, fun _ _ => rfl, fun q hq => by simp [hq], fun i e => ?_,
        fun i hi => ?_, ?_⟩ hidle ?_ fun i hi => ?_
    · rw [hidle] at e
      simp [Stage.locks] at e
    · simp only [Function.update_self] at hi ⊢
      rcases mem_heldAfter (h.nodup p) hi with e | ⟨hm, hn⟩
      · rw [ho.own i, if_pos e]
      · exact own_of_out ho (h.held p i hm) fun e => hn (hgive i e hm)
    · simp only [Function.update_self]
      exact nodup_heldAfter (h.nodup p) hfresh
    · simpa only [Function.update_self] using hd.2 il.result
    · simp only [Function.update_self] at hi ⊢
      rw [ho.own i]
      split_ifs
      · exact Or.inr rfl
      · exact Or.inl rfl
      · rcases mem_looseAfter hi with e | ⟨hi, -⟩
        · -- the call has just released it
          rcases hpre with ⟨e', -⟩ | ⟨e', -⟩
          · exact absurd (e'.trans e) ‹_›
          · rcases e' with e' | e'
            · exact absurd hidle e'
            · simp [e] at e'
        · exact h.released p i hi
  · have hidle : il.stage p ≠ .idle := fun e => not_stageOf_idle c (e ▸ hst)
    have hb : (il.stage p).isIdle = false := by
      cases hk : il.stage p <;> first | rfl | exact absurd hk hidle
    rw [Kernel.after, if_neg (by simp [hb])]
    have hout : ∀ i, pre = some i → i ∉ s.held p := by
      rcases hpre with ⟨-, e⟩ | ⟨-, hn⟩
      · exact absurd e hidle
      · exact hn
    refine h.yield (t := { s with il := il }) ht ⟨ho.locked, ho.stage, hown, fun _ _ => rfl,
      fun _ _ => ⟨rfl, rfl⟩, fun i e => ⟨?_, hnew i e (hout i)⟩, fun i hi => ?_, h.nodup p⟩ hst
      ⟨?_, fun o => ?_⟩
    · rw [ho.own i, if_pos e]
    · exact own_of_out ho (h.held p i hi) fun e => hout i e hi
    · exact callOk_of_stageOf hst hd.1
    · rw [← looseAfter_of_stageOf hst (s.loose p)]
      exact hd.2 o

/-- What a step does to the locks of the others. -/
def Keeps (s s' : Kernel) (p : Option ℕ) : Prop :=
  ∀ i q, p ≠ some q → s.il.own i = some q → s'.il.own i = some q

@[simp] lemma after_il : (s.after p c k il).il = il := by
  unfold Kernel.after Kernel.go
  split_ifs <;> rfl

@[simp] lemma go_il {P : Prog} : (s.go p P).il = s.il := by
  unfold Kernel.go
  split_ifs <;> rfl

/-- **A process makes a call.** -/
lemma KInv.call (h : KInv bare s) (ht : s.turn = none ∨ s.turn = some p)
    (hs : s.il.stage p = .idle) (hd : Prog.Disc bare (.op c k) (s.held p) (s.loose p))
    (hc : bare = true → ∀ i, c = .idec i → i ∈ s.held p ∨ (s.il.slot i).busy = false ∨
      (s.il.slot i).count = 0 ∧ (s.il.slot i).nlink = 0)
    (he : s.il.step (.call p c) = some il) :
    KInv bare (s.after p c k il) ∧ Keeps s (s.after p c k il) (some p) := by
  obtain ⟨pre, post, ho, hends, hpre, hdec⟩ := Ilist.call_out h.locked hs he
  have hothers : ∀ i q, q ≠ p → s.il.own i = some q → pre ≠ some i := by
    intro i q hq e e'
    have hnot : ¬(s.il.own i = none ∨ s.il.own i = some p) := by
      rw [e]
      simpa using hq
    rcases hpre with ⟨hp, -⟩ | ⟨hp, -⟩ | ⟨hp, -⟩
    · -- `irelse` and `idec` release what the process has locked, or a free slot
      have hok := hd.1
      cases c with
      | irelse j =>
          obtain rfl : j = i := by simpa [Ilist.Call.drops, e'] using hp.symm
          rcases hok with hok | hok
          · exact hnot (Or.inr (h.held p j hok))
          · exact hnot (h.released p j hok)
      | idec j =>
          obtain rfl : j = i := by simpa [Ilist.Call.drops, e'] using hp.symm
          rcases hok with hok | hok
          · exact hnot (Or.inr (h.held p j hok))
          · rcases hc hok j rfl with hc | hc | hc
            · exact hnot (Or.inr (h.held p j hc))
            · exact absurd ((h.locked j).mpr (by simp [e])) (by simp [hc])
            · exact hdec j rfl e' hc
      | iget num dev | ilock j | isync | iflush d => simp [Ilist.Call.drops, e'] at hp
    · simp [hp] at e'
    · simp [hp] at e'
  refine ⟨h.after ht hd ho hends ?_ hothers, fun i q hq e => ?_⟩
  · rcases hpre with hp | ⟨hp, hk⟩ | ⟨hp, hk⟩
    · exact Or.inl hp
    · exact Or.inr ⟨Or.inl hk, by simp [hp]⟩
    · exact Or.inr ⟨Or.inr hk, by simp [hp]⟩
  · rw [after_il]
    exact own_of_others ho e (hothers i q (by simpa [eq_comm] using hq) e)

/-- **A process goes on in a call.** -/
lemma KInv.goOn {d : Option Bytes} (h : KInv bare s) (ht : s.turn = none)
    (hs : Ilist.StageOf c (s.il.stage p)) (hd : Prog.Disc bare (.op c k) (s.held p) (s.loose p))
    (hc : bare = true → ∀ i, c = .idec i → i ∈ s.held p ∨ (s.il.slot i).busy = false)
    (he : s.il.step (.run p d) = some il) :
    KInv bare (s.after p c k il) ∧ Keeps s (s.after p c k il) (some p) := by
  obtain ⟨pre, post, ho, hends, hpre⟩ :=
    Ilist.run_out h.locked hs (fun i e => (h.locks p i e).1) he
  have hothers : ∀ i q, q ≠ p → s.il.own i = some q → pre ≠ some i := by
    intro i q hq e e'
    have hnot : s.il.own i ≠ some p := by
      rw [e]
      simpa using hq
    rcases hpre with ⟨hp, -⟩ | ⟨hp, -⟩
    · exact hnot (h.locks p i (hp ▸ e')).1
    · cases c with
      | idec j =>
          obtain rfl : j = i := by simpa [Ilist.Call.drops, e'] using hp.symm
          rcases hd.1 with hok | hok
          · exact hnot (h.held p j hok)
          · rcases hc hok j rfl with hc | hc
            · exact hnot (h.held p j hc)
            · exact absurd ((h.locked j).mpr (by simp [e])) (by simp [hc])
      | irelse j => exact hs
      | iget num dev | ilock j | isync | iflush d => simp [Ilist.Call.drops, e'] at hp
  refine ⟨h.after (Or.inl ht) hd ho hends ?_ hothers, fun i q hq e => ?_⟩
  · rcases hpre with ⟨hp, hk⟩ | hp
    · exact Or.inr ⟨Or.inr hk, fun i e => (h.locks p i (hp ▸ e)).2⟩
    · exact Or.inl hp
  · rw [after_il]
    exact own_of_others ho e (hothers i q (by simpa [eq_comm] using hq) e)

/-! ## Steps and runs -/

/-- The rest of the kernel does not lock. -/
lemma act_run (a : Act) (s : Ilist) : (∀ i, ((a.run s).slot i).busy = (s.slot i).busy) ∧
    (a.run s).own = s.own ∧ (a.run s).stage = s.stage := by
  cases a with
  | mtab d m | wake i => exact ⟨fun _ => rfl, rfl, rfl⟩
  | ref i | unref i | modify i f | graft i d | prune i | alloc i | want i =>
      refine ⟨fun j => ?_, rfl, rfl⟩
      by_cases hj : j = i <;> simp [Act.run, Ilist.ref, Ilist.unref, Ilist.modify, Ilist.graft,
        Ilist.prune, Ilist.modSlot, hj]

lemma KInv.act (h : KInv bare s) (a : Act) (p : ℕ) : Near s { s with il := a.run s.il } p :=
  (h.near p).congr (act_run a s.il).1 (act_run a s.il).2.1 (act_run a s.il).2.2

end Kernel

/-- The system calls that call `idec` without the lock. -/
def Syscall.bare : Syscall → Bool
  | chdir _ _ _ | unlink _ _ | umount _ _ _ _ => true
  | «open» _ _ | close _ | link _ _ _ _ | creat _ _ _ | read _ _ | write _ _ | mount _ _ _ _
  | exit _ _ => false

/-- **Every system call keeps to the discipline**, most of them to the strict one. -/
lemma Syscall.disc {bare : Bool} (c : Syscall) (h : c.bare = true → bare = true) :
    Prog.Disc bare c.prog [] [] := by
  cases c with
  | «open» n ip => exact Prog.disc_open n ip
  | close ip => exact Prog.disc_fclose fun _ => rfl
  | chdir n ip cdir => exact h rfl ▸ Prog.disc_chdir n ip cdir
  | unlink n ip => exact h rfl ▸ Prog.disc_unlink n ip
  | link n ip n' ip' => exact Prog.disc_link n ip n' ip'
  | creat n ip m => exact Prog.disc_creat n ip m
  | read ip n =>
      intro pipe
      dsimp only
      split_ifs
      · exact rfl
      · exact Prog.disc_pread ip n []
  | write ip n =>
      intro pipe
      dsimp only
      split_ifs
      · exact rfl
      · exact Prog.disc_pwrite ip n []
  | mount n ip n' ip' => exact Prog.disc_mount n ip n' ip'
  | umount n ip d m => exact h rfl ▸ Prog.disc_umount n ip d m
  | exit cdir files => exact Prog.disc_exit cdir files []

namespace Kernel

variable {bare : Bool} {s s' : Kernel} {il : Ilist} {l : Label}

/-- **One step.** -/
lemma KInv.exec {p n : ℕ} {P : Prog} (h : KInv bare s) (hp : s.ctl p = .ready P)
    (ht : s.turn = none ∨ s.turn = some p) (hc : bare = true → Careful s (.exec p n))
    (he : s.exec p n P = some s') : KInv bare s' ∧ Keeps s s' (some p) := by
  have hs : s.il.stage p = .idle := by
    have := h.stage p
    rwa [hp] at this
  have hd : Prog.Disc bare P (s.held p) (s.loose p) := by
    have := h.disc p
    rwa [hp] at this
  cases P with
  | done => exact absurd he (by simp [Kernel.exec])
  | op c k =>
      obtain ⟨il, hil, rfl⟩ := Option.map_eq_some_iff.mp he
      refine h.call ht hs hd (fun hb i e => hc hb i ?_) hil
      subst e
      rw [hp]
      rfl
  | act a k =>
      simp only [Kernel.exec, Option.some.injEq] at he
      subst he
      have hrun := act_run a s.il
      refine ⟨h.go ht (h.act a p) ?_ hd fun i hi => ?_, fun i q _ e => ?_⟩
      · rw [hrun.2.2]
        exact hs
      · rw [hrun.2.1]
        exact h.released p i hi
      · rw [go_il, hrun.2.1]
        exact e
  | look f k =>
      simp only [Kernel.exec, Option.some.injEq] at he
      subst he
      exact ⟨h.go ht (h.near p) hs (hd _) (h.released p), fun i q _ e => by rwa [go_il]⟩
  | choose k =>
      simp only [Kernel.exec, Option.some.injEq] at he
      subst he
      exact ⟨h.go ht (h.near p) hs (hd n) (h.released p), fun i q _ e => by rwa [go_il]⟩
  | sleep k =>
      simp only [Kernel.exec, Option.some.injEq] at he
      subst he
      exact ⟨h.yield ht (h.near p) hs hd, fun i q _ e => e⟩

lemma KInv.step (h : KInv bare s) (hstart : ∀ p c, l = .start p c → c.bare = true → bare = true)
    (hc : bare = true → Careful s l) (he : step s l = some s') :
    KInv bare s' ∧ Keeps s s' l.actor := by
  cases l with
  | start p c =>
      simp only [Kernel.step] at he
      split at he
      · rename_i hp
        split_ifs at he with ht
        obtain rfl := Option.some.inj he
        -- the process has nothing locked
        have hs := h.stage p
        have hd := h.disc p
        rw [hp] at hs hd
        refine ⟨h.yield (Or.inl ht) (h.near p) hs ?_, fun i q _ e => e⟩
        rw [show s.held p = [] from hd]
        exact c.disc (hstart p c rfl)
      · simp at he
  | exec p n =>
      simp only [Kernel.step] at he
      split at he
      · rename_i P hp
        split_ifs at he with ht
        exact h.exec hp ht hc he
      · simp at he
  | resume p d =>
      simp only [Kernel.step] at he
      split at he
      · simp at he
      · rename_i c k hp
        split_ifs at he with ht
        obtain ⟨il, hil, rfl⟩ := Option.map_eq_some_iff.mp he
        have hs := h.stage p
        have hd := h.disc p
        rw [hp] at hs hd
        refine h.goOn ht hs hd (fun hb i e => hc hb i ?_) hil
        subst e
        rw [hp]
        rfl
  | env a =>
      simp only [Kernel.step] at he
      split_ifs at he with ht
      obtain rfl := Option.some.inj he
      obtain ⟨hb, ho, hst⟩ := act_run a s.il
      refine ⟨⟨fun i => ?_, fun p => ?_, h.disc, fun p i e => ?_, fun p i hi => ?_, h.nodup,
        fun p i hi => ?_⟩, fun i q _ e => ?_⟩
      · rw [hb, ho]
        exact h.locked i
      · rw [hst]
        exact h.stage p
      · rw [ho]
        exact h.locks p i (by rwa [hst] at e)
      · rw [ho]
        exact h.held p i hi
      · rw [ho]
        exact h.loose p i hi
      · rw [ho]
        exact e

lemma Boot.kinv (h : Boot s) : KInv bare s where
  locked i := by simp [h.il.busy i, h.il.own i]
  stage p := by
    rw [h.ctl p]
    exact h.il.stage p
  disc p := by
    rw [h.ctl p]
    exact h.held p
  locks p i e := by simp [h.il.stage p, Stage.locks] at e
  held p i hi := by simp [h.held p] at hi
  nodup p := by simp [h.held p]
  loose p i hi := by simp [h.loose p] at hi

/-- Whoever stands between `ilock` and `irelse` has set `IBUSY`. -/
lemma KInv.own_of_holds {p i : ℕ} (h : KInv bare s) (hi : s.Holds p i) : s.il.own i = some p := by
  rcases hi with hi | hi
  · exact h.held p i hi
  · exact (h.locks p i hi).1

/-- The kernel with the inode list `il` when nobody is in it. -/
def boot (il : Ilist) : Kernel :=
  { il, ctl := fun _ => .ready .done, turn := none, held := fun _ => [], loose := fun _ => [] }

lemma boot_boot (h : il.Quiet) : Boot (boot il) := ⟨h, fun _ => rfl, rfl, fun _ => rfl, fun _ => rfl⟩

/-- **Mutual exclusion**: in every run in which a call of `idec` without the lock finds the slot
free, `IBUSY` is cleared only by the process that set it, and no two processes stand between their
`ilock` and their `irelse` or `idec` of a slot. -/
theorem lock_exclusion (h : Transition.Reach step Boot Careful s) :
    (∀ i p q, s.Holds p i → s.Holds q i → p = q) ∧
    (∀ i p, s.Holds p i → (s.il.slot i).busy = true ∧ s.il.own i = some p) ∧
    ∀ l s', Careful s l → step s l = some s' → ∀ i, (s.il.slot i).busy = true →
      (s'.il.slot i).busy = false → ∃ p, s.il.own i = some p ∧ l.actor = some p := by
  have hk : KInv true s := h.invariant (fun _ hs => hs.kinv)
    fun s l s' hk hok he => (hk.step (fun _ _ _ _ => rfl) (fun _ => hok) he).1
  refine ⟨fun i p q hp hq => ?_, fun i p hp => ?_, fun l s' hok he i hb hb' => ?_⟩
  · simpa [hk.own_of_holds hp] using hk.own_of_holds hq
  · have ho := hk.own_of_holds hp
    exact ⟨(hk.locked i).mpr (by simp [ho]), ho⟩
  · obtain ⟨p, ho⟩ := Option.ne_none_iff_exists'.mp ((hk.locked i).mp hb)
    obtain ⟨hk', hkeeps⟩ := hk.step (fun _ _ _ _ => rfl) (fun _ => hok) he
    refine ⟨p, ho, ?_⟩
    by_contra hne
    have := (hk'.locked i).mpr (by simp [hkeeps i p hne ho])
    simp [hb'] at this

/-- An `open` that searches the directory in slot 2 while `chdir` gives up that in slot 0. -/
theorem chdir_exclusion : ∃ s, Transition.Reach step Boot Careful s ∧ s.Holds 2 2 ∧
    (s.il.slot 2).busy = true ∧ s.il.own 2 = some 2 := by
  have hrun : (Transition.run step Careful (boot (Ilist.full 50))
      [.env (.ref 0), .env (.ref 1), .env (.ref 2), .start 2 (.open 1 2), .exec 2 0, .exec 2 1,
        .exec 2 1, .exec 2 0, .start 1 (.chdir 0 1 0), .exec 1 0, .exec 1 1, .exec 1 1, .exec 1 0,
        .exec 1 0, .exec 1 0, .exec 1 0]).map (fun s => s.held 2) = some [2] := by
    decide +kernel
  obtain ⟨s, hs, he⟩ := Option.map_eq_some_iff.mp hrun
  have hr := Transition.Reach.of_run (boot_boot (Ilist.quiet_full 50)) hs
  have hh : s.Holds 2 2 := Or.inl (by simp [he])
  exact ⟨s, hr, hh, (lock_exclusion hr).2.1 2 2 hh⟩

/-- `chdir` gives up the current directory in slot 0, in which `open` of another process searches:
`idec` releases the lock of the latter, and a third process locks the slot as well. -/
theorem chdir_releases_other : ¬∀ s, Transition.Reachable step Boot s →
    ∀ i p q, s.Holds p i → s.Holds q i → p = q := by
  intro h
  have hrun : (Transition.run step (fun _ _ => True) (boot (Ilist.full 50))
      [.env (.ref 0), .env (.ref 0), .env (.ref 1), .start 2 (.open 1 0), .exec 2 0, .exec 2 1,
        .exec 2 1, .exec 2 0, .start 1 (.chdir 0 1 0), .exec 1 0, .exec 1 1, .exec 1 1, .exec 1 0,
        .exec 1 0, .exec 1 0, .exec 1 0, .start 3 (.open 0 0), .exec 3 0]).map
      (fun s => (s.held 2, s.held 3)) = some ([0], [0]) := by
    decide +kernel
  obtain ⟨s, hs, he⟩ := Option.map_eq_some_iff.mp hrun
  simp only [Prod.mk.injEq] at he
  have := h s (.of_run (boot_boot (Ilist.quiet_full 50)) hs) 0 2 3
    (Or.inl (by simp [he.1])) (Or.inl (by simp [he.2]))
  simp at this

/-- No guard is needed in runs without `chdir`, `unlink` and `umount`. -/
theorem lock_exclusion_strict (h : Transition.Reach step Boot
    (fun _ l => ∀ p c, l = .start p c → c.bare = false) s) {p q i : ℕ} (hp : s.Holds p i)
    (hq : s.Holds q i) : p = q := by
  have hk : KInv false s := h.invariant (fun _ hs => hs.kinv) fun s l s' hk hok he =>
    (hk.step (fun p c e hb => by simp [hok p c e] at hb) (by simp) he).1
  simpa [hk.own_of_holds hp] using hk.own_of_holds hq

end Kernel

end Micronix
