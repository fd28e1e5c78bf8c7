import Micronix.Lib.Arbiter
import Micronix.Lib.Transition
import Mathlib.Logic.Function.Basic

/-!
# The bus, `sys/mw.c` and `sys/dj.c`

The controllers of the hard disk and of the floppy disks share the bus.  `busget` and `busgive` keep its
master and one heir.  The contenders are the two drivers, `mwstart` and `djint`, and `busready` for the
processes that use the floppy controller directly (`djstty`, `djmread` and `djmwrite`).

Interrupts are disabled from `di` to the `ei` that balances it, so that such a section is one step, and so
is a handler as far as it leaves them disabled.  What the interrupted code still has to do is on a stack
of frames.  The kernel switches processes only in `sleep`, so that a process makes a call only when the
stack is empty.
-/

namespace Micronix

namespace Bus

/-- Who contends for the bus. -/
inductive Contender
  | mwstart
  | djint
  | busready
deriving DecidableEq

/-- `mwstate` -/
inductive MwState
  | virgin
  | stopped
  | active
  | intrpt
  | late
  | toolate
deriving DecidableEq

/-- A request: the drive and the cylinder. -/
structure Buf where
  dev : ℕ
  cyl : ℕ
deriving DecidableEq

/-- Where code goes on after an interrupt. -/
inductive Frame
  /-- in `busgive`, at `(*bus)()` -/
  | call
  /-- in `djint`, with a request in `curbuf` -/
  | work
  /-- in `djint`, with a request done and others in the queue -/
  | give
  /-- in `djint`, at `busget` after `busgive` found no heir -/
  | regain
  /-- in `djint`, after `busgive` gave the bus away -/
  | handed
  /-- in `djint`, at `request` -/
  | request
  /-- in `djint`, at `busgive` when no request is left -/
  | last
deriving DecidableEq

/-- What comes of an interrupt of the hard disk: another command for the same request, or the end of the
request; `ready` says which drives answer when `newdrv` selects them. -/
inductive Outcome
  | again
  | done (ready : ℕ → Bool)

end Bus

open Bus in
/-- The bus, the two drivers, and the processes that use the floppy controller. -/
structure Bus where
  /-- the bus master -/
  bus : Option Contender
  /-- the bus heir -/
  next : Option Contender
  mwstate : MwState
  /-- `cmd.stat` is `BUSY` -/
  busy : Bool
  mwbuf : List Bus.Buf
  djtaken : Bool
  inservice : Bool
  curbuf : Option Bus.Buf
  qtail : List Bus.Buf
  /-- `dm[i].flags & ISOPEN` -/
  isopen : Fin 8 → Bool
  frames : List Frame
  /-- The processes asleep in `busplease`. -/
  asleep : List ℕ
  /-- The processes between `busplease` and `busthanks`. -/
  users : List ℕ
  /-- Who got 0 from `busget` and has not been called back since; not in the code. -/
  turned : Contender → Bool

namespace Bus

/-! ## `mw.c` -/

/-- `busget(func)` -/
def busget (s : Bus) (f : Contender) : Bus × Bool :=
  if s.bus ≠ none ∧ s.bus ≠ some f then
    ({ s with
        next := if s.next = none then some f else s.next
        turned := Function.update s.turned f true }, false)
  else ({ s with bus := some f, turned := Function.update s.turned f false }, true)

/-- `busgive(func)` up to the call of the new master. -/
def busgive (s : Bus) (func : Option Contender) : Bus × Bool :=
  match s.next with
  | some heir =>
      ({ s with
          bus := some heir
          next := func
          turned := Function.update s.turned heir false
          frames := .call :: s.frames }, true)
  | none => ({ s with bus := none }, false)

/-- `bsort(h, b)` for the queue after its head `p`. -/
def bsort (b p : Buf) : List Buf → List Buf
  | [] => [b]
  | f :: l =>
      if p.cyl ≤ b.cyl ∧ b.cyl ≤ f.cyl ∨ b.cyl ≤ p.cyl ∧ f.cyl ≤ b.cyl then b :: f :: l
      else f :: bsort b f l

/-- `mwstart()` -/
def mwstart (s : Bus) : Bus :=
  let (t, got) := s.busget .mwstart
  if got then { t with mwstate := .active, busy := true } else t

/-- `mwstrat(b)` -/
def mwstrat (s : Bus) (b : Buf) : Bus :=
  let s := { s with mwbuf := match s.mwbuf with
                             | [] => [b]
                             | p :: l => p :: bsort b p l }
  if s.mwstate = .virgin ∨ s.mwstate = .stopped then s.mwstart else s

/-- `mwstop()` -/
def mwstop (s : Bus) : Bus := ({ s with mwstate := .stopped }.busgive none).1

/-- `advque()`: `newdrv` passes over the requests whose drive is not ready. -/
def advque (s : Bus) (ready : ℕ → Bool) : Bus :=
  let s := { s with mwbuf := s.mwbuf.tail.dropWhile fun b => !ready b.dev }
  if s.mwbuf = [] then s.mwstop else { s with mwstate := .active, busy := true }

/-- `mwint()` -/
def mwint (s : Bus) (o : Outcome) : Bus :=
  if s.mwstate = .stopped ∨ s.mwstate = .intrpt ∨ s.busy then s
  else
    let s := { s with mwstate := .intrpt }
    match o with
    | .again => { s with mwstate := .active, busy := true }
    | .done ready => s.advque ready

/-- `mwcheck()`, with the controller reset when a command is too late; in the state `TOOLATE` it
panics. -/
def mwcheck (s : Bus) (o : Outcome) : Option Bus :=
  match s.mwstate with
  | .active => some { s with mwstate := .late }
  | .late => some ({ s with mwstate := .toolate, busy := false }.mwint o)
  | .toolate => none
  | _ => some s

/-! ## `dj.c` -/

/-- `djint` does not return before `busget`; `done` says that `INTSTAT` is set. -/
def Due (s : Bus) (done : Bool) : Prop :=
  s.djtaken = false ∧ s.inservice = false ∧ (s.curbuf ≠ none → done = true) ∧
    (s.curbuf = none → s.qtail ≠ [])

instance (s : Bus) (done : Bool) : Decidable (s.Due done) :=
  inferInstanceAs (Decidable (_ ∧ _ ∧ _ ∧ _))

/-- `djint()` up to `inservice = 1`.  When `djtaken` is set it only wakes up the process in `djstty`. -/
def djint (s : Bus) (done : Bool) : Bus :=
  if s.Due done then
    let (t, got) := s.busget .djint
    if got then
      { t with
        inservice := true
        frames := (if t.curbuf = none then .request else .work) :: t.frames }
    else t
  else s

/-- `djstrat(b)` -/
def djstrat (s : Bus) (b : Buf) (done : Bool) : Bus :=
  { s with qtail := s.qtail ++ [b] }.djint done

/-- `djmopen()` -/
def djmopen (s : Bus) : Bus :=
  if s.curbuf ≠ none ∨ ∃ i, s.isopen i = true then s else { s with djtaken := true }

/-- `busready()`: those who sleep go on. -/
def busready (s : Bus) : Bus := { s with asleep := [], users := s.users ++ s.asleep }

/-- `busplease()` -/
def busplease (s : Bus) (p : ℕ) : Bus :=
  let (t, got) := s.busget .busready
  if got then { t with users := p :: t.users } else { t with asleep := p :: t.asleep }

/-- `busthanks()` -/
def busthanks (s : Bus) (p : ℕ) : Bus := ({ s with users := s.users.erase p }.busgive none).1

/-- The code of the topmost frame up to the next point where interrupts are enabled.  `done` is as for
`djint`, and `finished` says that the request in `curbuf` is done, where otherwise the controller gets a
command for it. -/
def exec (s : Bus) (done finished : Bool) : Frame → Option Bus
  | .call =>
      match s.bus with
      | some .mwstart => some s.mwstart
      | some .djint => some (s.djint done)
      | some .busready => some s.busready
      | none => none
  | .work =>
      if finished then
        some { s with
          curbuf := none
          frames := (if s.qtail = [] then .request else .give) :: s.frames }
      else some { s with inservice := false }
  | .give =>
      if s.next = none then some ({ s with frames := .regain :: s.frames }.busgive (some .djint)).1
      else some ({ s with frames := .handed :: s.frames }.busgive (some .djint)).1
  | .regain =>
      let (t, got) := s.busget .djint
      if got then some { t with frames := .request :: t.frames } else some { t with inservice := false }
  | .handed => some { s with inservice := false }
  | .request =>
      match s.qtail with
      | [] => some { s with inservice := false, frames := .last :: s.frames }
      | b :: q => some { s with curbuf := some b, qtail := q, frames := .work :: s.frames }
  | .last => some (s.busgive none).1

/-! ## Runs -/

/-- What happens next: a call by a process, an interrupt, or the code of the topmost frame.  `mwdone` is
the end of a command of the hard disk. -/
inductive Label
  | mwstrat (b : Buf)
  | mwdone
  | mwint (o : Outcome)
  | mwcheck (o : Outcome)
  | djstrat (b : Buf) (done : Bool)
  | djint (done : Bool)
  | djopen (i : Fin 8)
  | djclose (i : Fin 8)
  | djmopen
  | djmclose
  | busplease (p : ℕ)
  | busthanks (p : ℕ)
  | go (done finished : Bool)

/-- A process is about to make a call. -/
def Idle (s : Bus) : Prop := s.frames = []

instance (s : Bus) : Decidable s.Idle := inferInstanceAs (Decidable (_ = _))

def step (s : Bus) : Label → Option Bus
  | .mwstrat b => if s.Idle then some (s.mwstrat b) else none
  | .mwdone =>
      if s.mwstate = .active ∨ s.mwstate = .late then some { s with busy := false } else none
  | .mwint o => some (s.mwint o)
  | .mwcheck o => s.mwcheck o
  | .djstrat b done => if s.Idle then some (s.djstrat b done) else none
  | .djint done => some (s.djint done)
  | .djopen i => if s.Idle then some { s with isopen := Function.update s.isopen i true } else none
  | .djclose i => if s.Idle then some { s with isopen := Function.update s.isopen i false } else none
  | .djmopen => if s.Idle then some s.djmopen else none
  | .djmclose => if s.Idle then some { s with djtaken := false } else none
  | .busplease p =>
      if s.Idle ∧ p ∉ s.asleep ∧ p ∉ s.users then some (s.busplease p) else none
  | .busthanks p => if s.Idle ∧ p ∈ s.users then some (s.busthanks p) else none
  | .go done finished =>
      match s.frames with
      | [] => none
      | F :: frames => { s with frames := frames }.exec done finished F

/-- As the kernel starts. -/
def boot : Bus where
  bus := none
  next := none
  mwstate := .virgin
  busy := true
  mwbuf := []
  djtaken := false
  inservice := false
  curbuf := none
  qtail := []
  isopen := fun _ => false
  frames := []
  asleep := []
  users := []
  turned := fun _ => false

/-- The step calls `busget` for this contender, which may be turned away. -/
def asks (s : Bus) : Label → Option Contender
  | .mwstrat _ => if s.mwstate = .virgin ∨ s.mwstate = .stopped then some .mwstart else none
  | .djstrat b done => if { s with qtail := s.qtail ++ [b] }.Due done then some .djint else none
  | .djint done => if s.Due done then some .djint else none
  | .busplease _ => some .busready
  | .go _ _ => if s.frames.head? = some .regain then some .djint else none
  | _ => none

/-- The heir is no other contender, or there is no need for one. -/
def Room (s : Bus) (f : Contender) : Prop :=
  s.bus = none ∨ s.bus = some f ∨ s.next = none ∨ s.next = some f

instance (s : Bus) (f : Contender) : Decidable (s.Room f) :=
  inferInstanceAs (Decidable (_ ∨ _ ∨ _ ∨ _))

/-- Nobody is turned away who is not the heir, and `busthanks` is called only when no other process is
between `busplease` and `busthanks`. -/
def Meets (s : Bus) (l : Label) : Prop :=
  (∀ f ∈ s.asks l, s.Room f) ∧
    match l with
    | .busthanks p => s.users = [p]
    | _ => True

instance (s : Bus) (l : Label) : Decidable (s.Meets l) := by
  cases l <;> dsimp only [Meets] <;> infer_instance

end Bus

end Micronix
