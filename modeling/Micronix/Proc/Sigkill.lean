import Micronix.Proc.Slist

/-!
# `SIGKILL`

The course of one process between user mode and the kernel: `trap`, `system`, `sleep` with `abort`,
and `sig`, which sends it to a handler or to an exit system call.  While a process sleeps, waits for
memory in `sig`, or has been preempted in `trap`, others run, and one of them may call `kill`.
Interrupts send signals at any time.
-/

namespace Micronix

namespace Sigkill

open Slist

/-- The priorities of system calls, of user mode, and of waiting for memory. -/
def PRISYS : UInt8 := 50
def PRIUSER : UInt8 := 40
def PRIMEM : UInt8 := 100

/-- What the process does in the kernel: a system call, `exit`, or an interrupt or a memory
fault. -/
inductive Ctx
  | call | exit | trap
  deriving DecidableEq

/-- What comes after `sig`: user mode, the end of the call that it has aborted, or, after `SIGTINT`,
the rest of what was interrupted. -/
inductive After
  | user
  | aborted
  | on (c : Ctx)
  deriving DecidableEq

/-- Where the process is. -/
inductive Place
  | user
  | run (c : Ctx)
  | asleep (c : Ctx)
  /-- in the `valid` of `sig`, which is to send it to `f` -/
  | memory (f : Proc.Func) (k : After)
  /-- in `trap`, before its look for a signal -/
  | resched
  | dead
  deriving DecidableEq

/-- A process: its entry, `u.pc`, and whether `kill` has posted `SIGKILL`. -/
structure State where
  proc : Proc
  pc : Proc.Func
  place : Place
  killed : Bool

namespace State

/-- Another process can run. -/
def Suspended (s : State) : Prop :=
  match s.place with
  | .asleep _ | .memory .. | .resched => True
  | .user | .run _ | .dead => False

instance (s : State) : Decidable s.Suspended := by
  unfold Suspended
  split <;> infer_instance

/-- After `sig` has put the process on its way. -/
def proceed (s : State) : After → State
  | .user => { s with place := .user }
  | .aborted => { s with place := .resched, proc := { s.proc with pri := PRIUSER } }
  | .on c => { s with place := .run c }

/-- `sig`, which may wait for memory on the way.  With no signal to process it is `k₀` that comes
after, else `k`. -/
def sig (s : State) (mem : Bool) (k₀ k : After) : State :=
  match s.proc.sig with
  | (p, none) => { s with proc := p }.proceed k₀
  | (p, some f) =>
      if mem then { s with proc := { p with pri := PRIMEM }, place := .memory f k }
      else { s with proc := p, pc := f }.proceed k

/-- `abort`, in `sleep`. -/
def abort (s : State) (mem : Bool) (c : Ctx) : State :=
  s.sig mem (.on c) (if char (s.proc.slist 0) = SIGTINT then .on c else .aborted)

end State

/-- What happens. -/
inductive Label
  /-- another process posts `SIGKILL` -/
  | kill
  /-- any signal from an interrupt, from another process or from this one -/
  | post (sig : Fin 16)
  /-- user code goes on elsewhere -/
  | code (a : UInt16)
  | syscall
  /-- an interrupt or a fault in user mode -/
  | trap
  | signal (sig func : UInt16)
  /-- `exec` has come to `setusr` -/
  | setusr (a : UInt16)
  | sleep (pri : UInt8)
  | wake (mem : Bool)
  /-- the end of the call, or of what `trap` has done before -/
  | ret
  /-- there is memory for `sig` -/
  | memory
  /-- the end of `trap` -/
  | go (mem : Bool)
  /-- the end of `exit` -/
  | exit
  deriving DecidableEq

/-- The step function. -/
def step (s : State) : Label → Option State
  | .kill =>
      if s.Suspended ∧ s.proc.mode &&& ALIVE ≠ 0 then
        let p := s.proc.send SIGKILL
        some { s with proc := p, killed := s.killed || p.slist 0 == word SIGKILL }
      else none
  | .post sig => some { s with proc := s.proc.send sig }
  | .code a =>
      match s.place, s.pc with
      | .user, .user _ => some { s with pc := .user a }
      | _, _ => none
  | .syscall =>
      if s.place = .user then
        some { s with
          place := .run (if s.pc = .exit then .exit else .call)
          proc := { s.proc with pri := PRISYS } }
      else none
  | .trap => if s.place = .user then some { s with place := .run .trap } else none
  | .signal sig func =>
      if s.place = .run .call then some { s with proc := (s.proc.signal sig func).1 } else none
  | .setusr a =>
      if s.place = .run .call then some { s with proc := s.proc.setusr, pc := .user a } else none
  | .sleep pri =>
      match s.place with
      | .run c =>
          if c = .trap → pri = PRIMEM then
            some { s with
              place := .asleep c, proc := { s.proc with pri, mode := s.proc.mode &&& ~~~AWAKE } }
          else none
      | _ => none
  | .wake mem =>
      match s.place with
      | .asleep c =>
          some (State.abort { s with proc := { s.proc with mode := s.proc.mode ||| AWAKE } } mem c)
      | _ => none
  | .ret =>
      match s.place with
      | .run .call => some { s with place := .resched, proc := { s.proc with pri := PRIUSER } }
      | .run .trap => some { s with place := .resched }
      | _ => none
  | .memory =>
      match s.place with
      | .memory f k => some (State.proceed { s with pc := f } k)
      | _ => none
  | .go mem => if s.place = .resched then some (s.sig mem .user .user) else none
  | .exit =>
      if s.place = .run .exit then
        some { s with
          place := .dead, proc := { s.proc with mode := s.proc.mode &&& ~~~(ALIVE ||| AWAKE) } }
      else none

/-- A new process, in its `fork`. -/
structure Start (s : State) : Prop where
  within : s.proc.used = []
  waits : (s.proc.slist 0).toNat < 16
  sigkill : s.proc.slist SIGKILL = TERMIN
  place : s.place = .run .call
  killed : s.killed = false

/-- The signal has a handler. -/
def Caught (p : Proc) (sig : ℤ) : Prop :=
  sig ≠ 0 ∧ p.slist sig ≠ TERMIN ∧ p.slist sig ≠ IGNORE

instance (p : Proc) (sig : ℤ) : Decidable (Caught p sig) := inferInstanceAs (Decidable (_ ∧ _))

/-- On the way to a handler, with no more look for a signal before it. -/
def Place.toHandler : Place → Bool
  | memory (.user _) .user => true
  | _ => false

/-- `kill` does not come while `sig` waits for memory on the way to a handler; and once it has
posted `SIGKILL`, no `exec` forgets it, no return to user mode is at the priority of a wait for
memory, and when it has been delivered no signal with a handler comes. -/
def Careful (s : State) : Label → Prop
  | .kill => s.place.toHandler = false
  | .post sig =>
      s.killed → s.place = .dead ∨ s.proc.slist 0 = word SIGKILL ∨ ¬Caught s.proc sig
  | .setusr _ => s.killed → s.proc.slist 0 ≠ word SIGKILL
  | .go _ => s.killed → s.proc.slist 0 = word SIGKILL → s.proc.pri < SIGPRI ∨ s.pc = .exit
  | .code _ | .syscall | .trap | .signal .. | .sleep _ | .wake _ | .ret | .memory | .exit => True

instance (s : State) : ∀ l, Decidable (Careful s l)
  | .kill => inferInstanceAs (Decidable (_ = _))
  | .post _ => inferInstanceAs (Decidable (_ → _ ∨ _ ∨ _))
  | .setusr _ => inferInstanceAs (Decidable (_ → _))
  | .go _ => inferInstanceAs (Decidable (_ → _ → _))
  | .code _ | .syscall | .trap | .signal .. | .sleep _ | .wake _ | .ret | .memory | .exit =>
      .isTrue trivial

/-! ## The entry -/

/-- The numbers are in the table, and nobody has a handler for `SIGKILL`. -/
structure Good (p : Proc) : Prop where
  sound : p.Sound
  sigkill : p.slist SIGKILL = TERMIN

section Entry

variable {p : Proc} {n : ℤ}

lemma sigkill_ne : SIGKILL ≠ 0 := by decide

lemma char_word (h : InTable n) : char (word n) = n := by
  have hw := Proc.word_toNat h
  obtain ⟨h0, h1⟩ := h
  rw [NSIG] at h1
  rw [Proc.char_eq (by omega), hw]
  omega

lemma Good.congr {q : Proc} (h : Good p) (hs : q.slist = p.slist) (hu : q.used = p.used) : Good q :=
  ⟨⟨fun i hi => h.sound.within i (hu ▸ hi), by rw [hs]; exact h.sound.waits⟩,
    by rw [hs]; exact h.sigkill⟩

lemma Good.send (h : Good p) (hn : InTable n) : Good (p.send n) := by
  refine ⟨h.sound.send fun _ => hn, ?_⟩
  rcases Proc.send_slist p n with e | e <;> rw [e]
  · exact h.sigkill
  · rw [Function.update_of_ne sigkill_ne]
    exact h.sigkill

/-- A waiting `SIGKILL` stays. -/
lemma send_waiting (h : p.slist 0 = word SIGKILL) : (p.send n).slist = p.slist := by
  unfold Proc.send
  dsimp only
  split_ifs with h1 h2 h3
  · rfl
  · rfl
  · rfl
  · exact absurd h h3
  · exact absurd h h3

lemma Good.signal (h : Good p) (sig func : UInt16) : Good (p.signal sig func).1 ∧
    (p.slist 0 = word SIGKILL → (p.signal sig func).1.slist 0 = word SIGKILL) := by
  have hs := (h.sound.signal sig func).1
  suffices hk : (p.signal sig func).1.slist SIGKILL = p.slist SIGKILL ∧
      (p.slist 0 = word SIGKILL → (p.signal sig func).1.slist 0 = word SIGKILL) from
    ⟨⟨hs, hk.1.trans h.sigkill⟩, hk.2⟩
  unfold Proc.signal
  by_cases hbad : 16 ≤ sig ∨ sig = word SIGKILL ∨ sig = 0
  · rw [if_pos hbad]
    exact ⟨rfl, id⟩
  rw [if_neg hbad]
  rw [not_or, not_or] at hbad
  have h9 : SIGKILL ≠ (sig.toNat : ℤ) := by
    intro e
    exact hbad.2.1 (UInt16.toNat_inj.mp (by rw [Proc.word_toNat (by decide), e, Int.toNat_natCast]))
  have h0 : (0 : ℤ) ≠ sig.toNat := by
    intro e
    exact hbad.2.2 (UInt16.toNat_inj.mp (by rw [UInt16.toNat_zero]; omega))
  dsimp only
  generalize (if func = TERMIN ∧ ((sig.toNat : ℤ) = SIGTINT ∨ (sig.toNat : ℤ) = SIGBACK) then IGNORE
    else func) = f
  have hk : (((p.look sig.toNat).set sig.toNat f).look 0).slist SIGKILL = p.slist SIGKILL :=
    Proc.set_ne h9
  have hz : (((p.look sig.toNat).set sig.toNat f).look 0).slist 0 = p.slist 0 := Proc.set_ne h0
  split_ifs with hc
  · refine ⟨by rw [Proc.set_ne sigkill_ne, hk], fun e => ?_⟩
    exact absurd (hc.1.symm.trans (hz.trans e)) hbad.2.1
  · exact ⟨hk, fun e => hz.trans e⟩

lemma Good.setusr (h : Good p) : Good p.setusr := by
  refine ⟨h.sound.setusr.1, ?_⟩
  rw [Proc.setusr]
  dsimp only
  split_ifs
  · rfl
  · exact h.sigkill

/-- **`sig`** finds nothing to process, or it sends the process to a handler or to `exit`. -/
lemma sig_cases (h : Good p) : Good p.sig.1 ∧
    ((p.sig.2 = none ∧ p.sig.1.slist = p.slist ∧
        (p.slist 0 = word SIGKILL → SIGPRI ≤ p.pri)) ∨
      ∃ f, p.sig.2 = some f ∧ p.sig.1.slist 0 = 0 ∧
        (f = .exit ∨ Caught p (char (p.slist 0)))) := by
  have hs := h.sound.sig.1
  suffices hk : p.sig.1.slist SIGKILL = TERMIN ∧
      ((p.sig.2 = none ∧ p.sig.1.slist = p.slist ∧ (p.slist 0 = word SIGKILL → SIGPRI ≤ p.pri)) ∨
        ∃ f, p.sig.2 = some f ∧ p.sig.1.slist 0 = 0 ∧
          (f = .exit ∨ Caught p (char (p.slist 0)))) from ⟨⟨hs, hk.1⟩, hk.2⟩
  have h9 : p.slist 0 = word SIGKILL → char (p.slist 0) = SIGKILL := fun e => by
    rw [e, char_word (by decide)]
  unfold Proc.sig
  dsimp only
  rw [show (p.look 0).slist 0 = p.slist 0 from rfl]
  generalize char (p.slist 0) = n at h9
  by_cases h0 : n = 0
  · rw [if_pos h0]
    exact ⟨h.sigkill, Or.inl ⟨rfl, rfl, fun e => absurd (h9 e) (by rw [h0]; decide)⟩⟩
  rw [if_neg h0]
  set q := (p.look 0).look n with hq
  by_cases hi : q.slist n = IGNORE ∨ SIGPRI ≤ q.pri
  · rw [if_pos hi]
    refine ⟨h.sigkill, Or.inl ⟨rfl, rfl, fun e => hi.resolve_left fun he => ?_⟩⟩
    rw [h9 e] at he
    exact absurd (h.sigkill.symm.trans he) (by decide)
  rw [if_neg hi]
  have hrest (r : Proc) (hr : r.slist = p.slist) :
      (if n ≠ SIGTINT then (r.set 0 0).set n 0 else r.set 0 0).slist SIGKILL = TERMIN ∧
        (if n ≠ SIGTINT then (r.set 0 0).set n 0 else r.set 0 0).slist 0 = 0 := by
    have hk : (r.set 0 0).slist SIGKILL = TERMIN := by
      rw [Proc.set_ne sigkill_ne, hr]
      exact h.sigkill
    split_ifs
    · refine ⟨?_, by rw [Proc.set_ne (Ne.symm h0), Proc.set_self]⟩
      by_cases hn : SIGKILL = n
      · rw [hn, Proc.set_self]
        rfl
      · rw [Proc.set_ne hn, hk]
    · exact ⟨hk, Proc.set_self ..⟩
  by_cases ht : q.slist n = TERMIN
  · rw [if_pos ht]
    obtain ⟨h1, h2⟩ := hrest { q with status := word n } rfl
    exact ⟨h1, Or.inr ⟨.exit, rfl, h2, Or.inl rfl⟩⟩
  · rw [if_neg ht]
    obtain ⟨h1, h2⟩ := hrest q rfl
    exact ⟨h1, Or.inr ⟨_, rfl, h2, Or.inr ⟨h0, ht, fun he => hi (Or.inl he)⟩⟩⟩

end Entry

/-! ## The course -/

namespace State

variable {s s' : State} {l : Label}

/-- `SIGKILL` waits. -/
def Held (s : State) : Prop :=
  s.proc.slist 0 = word SIGKILL ∧ (s.place = .user → s.pc = .exit) ∧ s.place.toHandler = false

/-- From here the process comes to user mode only at the exit system call. -/
def Leaving (pc : Proc.Func) : Place → Prop
  | .user | .resched | .run .trap | .run .exit | .asleep .trap | .asleep .exit => pc = .exit
  | .memory f k => f = .exit ∧ k ≠ .on .call
  | .run .call | .asleep .call | .dead => False

/-- `SIGKILL` has been delivered, and no signal that waits has a handler. -/
def Gone (s : State) : Prop :=
  ¬Caught s.proc (char (s.proc.slist 0)) ∧ Leaving s.pc s.place

/-- What holds in every state. -/
structure Inv (s : State) : Prop where
  good : Good s.proc
  killed : s.killed = true → s.place = .dead ∨ Held s ∨ Gone s

lemma not_caught_of_zero {p : Proc} (h : p.slist 0 = 0) : ¬Caught p (char (p.slist 0)) := by
  rw [h, show char 0 = 0 by decide]
  exact fun hc => hc.1 rfl

/-- The signal that waits has no handler. -/
lemma Held.not_caught (h : Held s) (hg : Good s.proc) :
    ¬Caught s.proc (char (s.proc.slist 0)) := by
  rw [h.1, char_word (by decide)]
  exact fun hc => hc.2.1 hg.sigkill

@[simp] lemma proceed_slist (s : State) (k : After) : (s.proceed k).proc.slist = s.proc.slist := by
  cases k <;> rfl

@[simp] lemma proceed_used (s : State) (k : After) : (s.proceed k).proc.used = s.proc.used := by
  cases k <;> rfl

@[simp] lemma proceed_pc (s : State) (k : After) : (s.proceed k).pc = s.pc := by
  cases k <;> rfl

@[simp] lemma proceed_killed (s : State) (k : After) : (s.proceed k).killed = s.killed := by
  cases k <;> rfl

/-- Where `sig` leads: with no signal to process it is as if it had not been called; else to a
handler or to `exit`, at once or when there is memory. -/
lemma sig_spec (hg : Good s.proc) (mem : Bool) (k₀ k : After) :
    (∃ p, Good p ∧ p.slist = s.proc.slist ∧ (p.slist 0 = word SIGKILL → SIGPRI ≤ s.proc.pri) ∧
      s.sig mem k₀ k = { s with proc := p }.proceed k₀) ∨
    ∃ p f, Good p ∧ p.slist 0 = 0 ∧ (f = .exit ∨ Caught s.proc (char (s.proc.slist 0))) ∧
      (s.sig mem k₀ k = { s with proc := p, place := .memory f k } ∨
        s.sig mem k₀ k = { s with proc := p, pc := f }.proceed k) := by
  obtain ⟨hp, hcases⟩ := sig_cases hg
  unfold State.sig
  generalize s.proc.sig = r at hp hcases
  obtain ⟨p, o⟩ := r
  cases o with
  | none =>
      obtain ⟨-, hslist, hpri⟩ | ⟨f, hf, -⟩ := hcases
      · exact Or.inl ⟨p, hp, hslist, fun e => hpri (by rw [← hslist]; exact e), rfl⟩
      · cases hf
  | some f =>
      obtain ⟨hf, -⟩ | ⟨f', hf, hz, hcase⟩ := hcases
      · cases hf
      · obtain rfl := Option.some.inj hf
        right
        cases mem with
        | true => exact ⟨{ p with pri := PRIMEM }, f, hp.congr rfl rfl, hz, hcase, Or.inl rfl⟩
        | false => exact ⟨p, f, hp, hz, hcase, Or.inr rfl⟩

lemma leaving_proceed (hpc : s.pc = .exit) {k : After} (hk : k ≠ .on .call) :
    Leaving (s.proceed k).pc (s.proceed k).place := by
  rw [proceed_pc]
  cases k with
  | user | aborted => exact hpc
  | on c =>
      cases c with
      | call => exact absurd rfl hk
      | exit | trap => exact hpc

/-- A process that is to be killed goes on after `sig`, or it is on its way to `exit`. -/
lemma inv_sig (hg : Good s.proc) (mem : Bool) {k₀ k : After} (hk : s.killed = true → k ≠ .on .call)
    (h : s.killed = true → (Held s ∧ (k₀ = .user → SIGPRI ≤ s.proc.pri → s.pc = .exit)) ∨
      (¬Caught s.proc (char (s.proc.slist 0)) ∧ s.pc = .exit ∧ k₀ ≠ .on .call)) :
    Inv (s.sig mem k₀ k) := by
  rcases sig_spec hg mem k₀ k with ⟨p, hp, hslist, hpri, he⟩ | ⟨p, f, hp, hz, hcase, he⟩
  · rw [he]
    refine ⟨hp.congr (proceed_slist ..) (proceed_used ..), fun hkill => Or.inr ?_⟩
    rw [proceed_killed] at hkill
    rcases h hkill with ⟨hheld, hret⟩ | ⟨hc, hpc, hk₀⟩
    · have hw : p.slist 0 = word SIGKILL := by rw [hslist, hheld.1]
      refine Or.inl ⟨by rw [proceed_slist]; exact hw, fun hu => ?_, ?_⟩
      · rw [proceed_pc]
        cases k₀ with
        | user => exact hret rfl (hpri hw)
        | aborted | on c => cases hu
      · cases k₀ <;> rfl
    · refine Or.inr ⟨?_, leaving_proceed (s := { s with proc := p }) hpc hk₀⟩
      rw [Caught, proceed_slist]
      show ¬Caught p (char (p.slist 0))
      rw [Caught, hslist]
      exact hc
  · have hexit : s.killed = true → f = .exit := fun hkill => by
      refine hcase.resolve_right ?_
      rcases h hkill with ⟨hheld, -⟩ | ⟨hc, -, -⟩
      · exact hheld.not_caught hg
      · exact hc
    rcases he with he | he <;> rw [he]
    · exact ⟨hp, fun hkill => Or.inr (Or.inr ⟨not_caught_of_zero hz, hexit hkill, hk hkill⟩)⟩
    · refine ⟨hp.congr (proceed_slist ..) (proceed_used ..), fun hkill => Or.inr (Or.inr ?_)⟩
      rw [proceed_killed] at hkill
      exact ⟨not_caught_of_zero (by rw [proceed_slist]; exact hz),
        leaving_proceed (hexit hkill) (hk hkill)⟩

/-- Another signal. -/
lemma Inv.send (h : Inv s) {n : ℤ} (hn : InTable n)
    (hc : s.killed = true →
      s.place = .dead ∨ s.proc.slist 0 = word SIGKILL ∨ ¬Caught s.proc n) :
    Inv { s with proc := s.proc.send n } := by
  refine ⟨h.good.send hn, fun hk => or_iff_not_imp_left.mpr fun hlive => ?_⟩
  have hc := (hc hk).resolve_left hlive
  rcases (h.killed hk).resolve_left hlive with hheld | ⟨hcaught, hleave⟩
  · refine Or.inl ⟨?_, hheld.2⟩
    rw [send_waiting hheld.1]
    exact hheld.1
  · refine Or.inr ⟨?_, hleave⟩
    show ¬Caught (s.proc.send n) (char ((s.proc.send n).slist 0))
    rcases hc with hw | hc
    · rw [Caught, send_waiting hw]
      exact hcaught
    · rcases Proc.send_slist s.proc n with e | e
      · rw [Caught, e]
        exact hcaught
      · rw [Caught, e, Function.update_self, char_word hn]
        rintro ⟨h0, h1⟩
        rw [Function.update_of_ne h0] at h1
        exact hc ⟨h0, h1⟩

lemma Inv.alive (h : Inv s) (hk : s.killed = true) (hp : s.place ≠ .dead) : Held s ∨ Gone s :=
  (h.killed hk).resolve_left hp

lemma Gone.ne_call (h : Gone s) : s.place ≠ .run .call := fun hp => by
  have := h.2
  rw [hp] at this
  exact this

/-- User code is at the exit system call. -/
lemma Inv.exits (h : Inv s) (hk : s.killed = true) (hp : s.place = .user) : s.pc = .exit := by
  rcases h.alive hk (by rw [hp]; nofun) with hheld | hgone
  · exact hheld.2.1 hp
  · have := hgone.2
    rwa [hp] at this

lemma Inv.kill (h : Inv s) (hs : s.place ≠ .user) (hc : s.place.toHandler = false) :
    Inv { s with
      proc := s.proc.send SIGKILL
      killed := s.killed || (s.proc.send SIGKILL).slist 0 == word SIGKILL } := by
  refine ⟨h.good.send (by decide), fun hk => ?_⟩
  by_cases hw : (s.proc.send SIGKILL).slist 0 = word SIGKILL
  · exact Or.inr (Or.inl ⟨hw, fun hu => absurd hu hs, hc⟩)
  · have hk' : s.killed = true := by simpa [hw] using hk
    have hsame : (s.proc.send SIGKILL).slist = s.proc.slist := by
      rcases Proc.send_slist s.proc SIGKILL with e | e
      · exact e
      · rw [e, Function.update_self] at hw
        exact absurd rfl hw
    rcases h.killed hk' with hdead | hheld | ⟨hcaught, hleave⟩
    · exact Or.inl hdead
    · exact absurd (by rw [hsame]; exact hheld.1) hw
    · refine Or.inr (Or.inr ⟨?_, hleave⟩)
      show ¬Caught (s.proc.send SIGKILL) (char ((s.proc.send SIGKILL).slist 0))
      rw [Caught, hsame]
      exact hcaught

/-- The process goes elsewhere in the kernel, and its signals are as they were. -/
lemma Inv.move (h : Inv s) {p : Proc} {q : Place} (hslist : p.slist = s.proc.slist)
    (hused : p.used = s.proc.used) (hp : s.place ≠ .dead) (hq : q ≠ .user)
    (hto : q.toHandler = false) (hleave : Leaving s.pc s.place → Leaving s.pc q) :
    Inv { s with proc := p, place := q } := by
  refine ⟨h.good.congr hslist hused, fun hk => Or.inr ?_⟩
  rcases h.alive hk hp with hheld | ⟨hcaught, hl⟩
  · refine Or.inl ⟨?_, fun hu => absurd hu hq, hto⟩
    show p.slist 0 = _
    rw [hslist, hheld.1]
  · refine Or.inr ⟨?_, hleave hl⟩
    show ¬Caught p (char (p.slist 0))
    rw [Caught, hslist]
    exact hcaught

/-- Nothing has come of the sleep, or `sig` ends it. -/
lemma Inv.wake (h : Inv s) {c : Ctx} (hp : s.place = .asleep c) (mem : Bool) :
    Inv (State.abort { s with proc := { s.proc with mode := s.proc.mode ||| AWAKE } } mem c) := by
  have hg : Good { s.proc with mode := s.proc.mode ||| AWAKE } := h.good.congr rfl rfl
  have halive : s.place ≠ .dead := by rw [hp]; nofun
  refine inv_sig (s := { s with proc := { s.proc with mode := s.proc.mode ||| AWAKE } }) hg mem
    (fun hk => ?_) fun hk => ?_
  · rcases h.alive hk halive with hheld | hgone
    · have h9 : char (s.proc.slist 0) ≠ SIGTINT := by
        rw [hheld.1, char_word (by decide)]
        decide
      exact (if_neg h9).trans_ne nofun
    · have hpc := hgone.2
      rw [hp] at hpc
      split_ifs
      · rintro ⟨⟩
        exact hpc
      · nofun
  · rcases h.alive hk halive with hheld | hgone
    · exact Or.inl ⟨⟨hheld.1, fun hu => absurd (hp.symm.trans hu) nofun, hheld.2.2⟩, nofun⟩
    · have hpc := hgone.2
      rw [hp] at hpc
      refine Or.inr ⟨hgone.1, ?_, ?_⟩
      · cases c with
        | call => exact hpc.elim
        | exit | trap => exact hpc
      · rintro ⟨⟩
        exact hpc

/-- `sig` has its memory. -/
lemma Inv.memory (h : Inv s) {f : Proc.Func} {k : After} (hp : s.place = .memory f k) :
    Inv (State.proceed { s with pc := f } k) := by
  refine ⟨h.good.congr (proceed_slist ..) (proceed_used ..), fun hk => Or.inr ?_⟩
  rw [proceed_killed] at hk
  rcases h.alive hk (by rw [hp]; nofun) with hheld | hgone
  · have hto := hheld.2.2
    rw [hp] at hto
    refine Or.inl ⟨by rw [proceed_slist]; exact hheld.1, fun hu => ?_, ?_⟩
    · rw [proceed_pc]
      cases k with
      | user =>
          cases f with
          | exit => rfl
          | user a => cases hto
      | aborted | on c => cases hu
    · cases k <;> rfl
  · have hpc := hgone.2
    rw [hp] at hpc
    refine Or.inr ⟨?_, leaving_proceed hpc.1 hpc.2⟩
    rw [Caught, proceed_slist]
    exact hgone.1

/-- **The step lemma**, one case for each thing that can happen. -/
lemma Inv.step (h : Inv s) (hc : Careful s l) (he : step s l = some s') : Inv s' := by
  cases l with
  | kill =>
      rw [Sigkill.step] at he
      split_ifs at he with hs
      obtain rfl := Option.some.inj he
      refine h.kill (fun hu => ?_) hc
      have := hs.1
      rwa [Suspended, hu] at this
  | post sig =>
      obtain rfl := Option.some.inj he
      exact h.send ⟨by omega, by rw [NSIG]; omega⟩ hc
  | code a =>
      rw [Sigkill.step] at he
      split at he
      · rename_i b hplace hpc
        obtain rfl := Option.some.inj he
        -- a process that is to be killed is at the exit system call, and not in its own code
        exact ⟨h.good, fun hk => by cases hpc.symm.trans (h.exits hk hplace)⟩
      · cases he
  | syscall =>
      rw [Sigkill.step] at he
      split_ifs at he with hplace hpc <;> obtain rfl := Option.some.inj he <;>
        refine h.move rfl rfl (by rw [hplace]; rintro ⟨⟩) (by rintro ⟨⟩) rfl fun hl => ?_ <;> rw [hplace] at hl
      · exact hl
      · exact absurd hl hpc
  | trap =>
      rw [Sigkill.step] at he
      split_ifs at he with hplace
      obtain rfl := Option.some.inj he
      exact h.move rfl rfl (by rw [hplace]; rintro ⟨⟩) (by rintro ⟨⟩) rfl fun hl => by rwa [hplace] at hl
  | signal sig func =>
      rw [Sigkill.step] at he
      split_ifs at he with hplace
      obtain rfl := Option.some.inj he
      obtain ⟨hg, hw⟩ := h.good.signal sig func
      refine ⟨hg, fun hk => Or.inr ?_⟩
      rcases h.alive hk (by rw [hplace]; rintro ⟨⟩) with hheld | hgone
      · exact Or.inl ⟨hw hheld.1, hheld.2⟩
      · exact absurd hplace hgone.ne_call
  | setusr a =>
      rw [Sigkill.step] at he
      split_ifs at he with hplace
      obtain rfl := Option.some.inj he
      refine ⟨h.good.setusr, fun hk => ?_⟩
      rcases h.alive hk (by rw [hplace]; rintro ⟨⟩) with hheld | hgone
      · exact absurd hheld.1 (hc hk)
      · exact absurd hplace hgone.ne_call
  | sleep pri =>
      rw [Sigkill.step] at he
      split at he
      · rename_i c hplace
        split_ifs at he
        obtain rfl := Option.some.inj he
        refine h.move rfl rfl (by rw [hplace]; rintro ⟨⟩) (by rintro ⟨⟩) rfl fun hl => ?_
        rw [hplace] at hl
        cases c with
        | call => exact hl.elim
        | exit | trap => exact hl
      · cases he
  | wake mem =>
      rw [Sigkill.step] at he
      split at he
      · rename_i c hplace
        obtain rfl := Option.some.inj he
        exact h.wake hplace mem
      · cases he
  | ret =>
      rw [Sigkill.step] at he
      split at he
      · rename_i hplace
        obtain rfl := Option.some.inj he
        exact h.move rfl rfl (by rw [hplace]; rintro ⟨⟩) (by rintro ⟨⟩) rfl fun hl => by
          rw [hplace] at hl
          exact hl.elim
      · rename_i hplace
        obtain rfl := Option.some.inj he
        exact h.move rfl rfl (by rw [hplace]; rintro ⟨⟩) (by rintro ⟨⟩) rfl fun hl => by rwa [hplace] at hl
      · cases he
  | memory =>
      rw [Sigkill.step] at he
      split at he
      · rename_i f k hplace
        obtain rfl := Option.some.inj he
        exact h.memory hplace
      · cases he
  | go mem =>
      rw [Sigkill.step] at he
      split_ifs at he with hplace
      obtain rfl := Option.some.inj he
      refine inv_sig h.good mem (fun _ => by rintro ⟨⟩) fun hk => ?_
      rcases h.alive hk (by rw [hplace]; rintro ⟨⟩) with hheld | hgone
      · refine Or.inl ⟨hheld, fun _ hpri => (hc hk hheld.1).resolve_left fun hlt => ?_⟩
        exact absurd hpri (UInt8.not_le.mpr hlt)
      · have hpc := hgone.2
        rw [hplace] at hpc
        exact Or.inr ⟨hgone.1, hpc, by rintro ⟨⟩⟩
  | exit =>
      rw [Sigkill.step] at he
      split_ifs at he
      obtain rfl := Option.some.inj he
      exact ⟨h.good.congr rfl rfl, fun _ => Or.inl rfl⟩

end State

open State

lemma Start.inv {s : State} (h : Start s) : Inv s where
  good := ⟨⟨fun _ hi => absurd (h.within ▸ hi) List.not_mem_nil, h.waits⟩, h.sigkill⟩
  killed hk := absurd (h.killed.symm.trans hk) nofun

/-- A new process that catches `SIGALRM`, signal 14. -/
def init : State where
  proc :=
    { mode := ALLOC ||| ALIVE ||| AWAKE, uid := 5, pid := 4, tty := 0, event := 0, pri := 50
      status := 0, slist := fun i => if i = 14 then 0x1234 else 0, used := [] }
  pc := .user 0x100
  place := .run .call
  killed := false

lemma start_init : Start init := ⟨rfl, by decide, rfl, rfl, rfl⟩

/-- `kill` finds the process in a sleep of low priority. -/
def killed : List Label := [.sleep 40, .kill, .wake false, .go false]

end Sigkill

end Micronix
