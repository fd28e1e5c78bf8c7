import Micronix.Proc.Pids

/-!
# `exit` and `wait`

Processes that fork, exit and wait, switching where they sleep: a `fork` until its child is on the swap
device, an `exit` while it closes files, a `wait` for a child to exit.  Beside the table runs, for the
statements, what became of each process there has been: its name is the number of its birth, `father`
is the name of its parent, and `hist` lists its exit and what freed its slot.
-/

namespace Micronix

namespace Procs

open Transition

/-- Where a process is in the kernel: nowhere or in a call that does not matter here, asleep in `fork`
for a child, in `exit`, in `wait`, not yet on the swap device. -/
inductive Phase
  | run
  | forking (child : ℕ)
  | closing
  | waiting
  | unborn
  deriving DecidableEq

/-- What becomes of a process: it exits with a status, a `wait` of its parent returns that status, or
the exit of its parent disposes of it. -/
inductive Fate
  | exited (status : ℕ)
  | reaped (parent status : ℕ)
  | disposed (parent : ℕ)
  deriving DecidableEq

structure State where
  t : Table
  phase : ℕ → Phase
  name : ℕ → ℕ
  next : ℕ
  father : ℕ → ℕ
  hist : ℕ → List Fate

/-- What comes of the copy in `fork`: memory, nothing, or swap space to be written. -/
inductive Copy
  | room
  | full
  | swap

/-- What process `x` does, or what happens to it. -/
inductive Label
  /-- `fork` -/
  | fork (x frame : ℕ) (c : Copy)
  /-- the copy to the swap device is written, or not -/
  | forked (x : ℕ) (ok : Bool)
  /-- `exit(stat)` begins -/
  | exit (x stat : ℕ)
  /-- it sleeps in a `close` -/
  | nap (x : ℕ)
  /-- and is woken -/
  | rouse (x : ℕ)
  /-- the end of `exit` -/
  | quit (x : ℕ)
  /-- `wait` -/
  | wait (x : ℕ)
  /-- it goes on with `wait` after a sleep -/
  | resume (x : ℕ)
  /-- a signal ends the `wait` after the sleep -/
  | abort (x : ℕ)
  /-- `send` to a process in `wait` -/
  | signal (x : ℕ)
  /-- `sig` finds a signal that terminates the process -/
  | fatal (x sig : ℕ)
  /-- the swapper -/
  | swap (x : ℕ) (loaded swapped locked swapping : Bool)

/-- `sleep` on a channel, up to the switch. -/
def Entry.await (e : Entry) (c : Chan) : Entry :=
  { e with mode := { e.mode with awake := false }, event := c }

namespace State

/-- The process can do something.  The swapper makes no calls. -/
def Ready (s : State) (x : ℕ) : Prop :=
  x ≠ Table.swapproc ∧ x < nproc ∧ (s.t.plist x).mode.alloc = true ∧
    (s.t.plist x).mode.alive = true ∧ (s.t.plist x).mode.awake = true

instance (s : State) (x : ℕ) : Decidable (s.Ready x) := inferInstanceAs (Decidable (_ ∧ _))

def setPhase (s : State) (x : ℕ) (p : Phase) : State :=
  { s with phase := Function.update s.phase x p }

def mod (s : State) (x : ℕ) (f : Entry → Entry) : State := { s with t := s.t.modify x f }

/-- The child in slot `c` of the process in slot `x` has its name. -/
def bear (s : State) (x c : ℕ) : State :=
  { s with
    phase := Function.update s.phase c .run
    name := Function.update s.name c s.next
    next := s.next + 1
    father := Function.update s.father s.next (s.name x) }

/-- The dead and the living children of the process in slot `x`. -/
def zombies (t : Table) (x : ℕ) : List ℕ :=
  (List.range nproc).filter fun q => (t.plist q).parent = some x && !(t.plist q).mode.alive

def living (t : Table) (x : ℕ) : List ℕ :=
  (List.range nproc).filter fun q => (t.plist q).parent = some x && (t.plist q).mode.alive

/-- The loop of `wait` in process `x`, up to a return or a sleep. -/
def scan (s : State) (x : ℕ) : State :=
  match s.t.zombie x with
  | some q =>
      { s with
        t := s.t.set q .zero
        phase := Function.update s.phase x .run
        hist := Function.update s.hist (s.name q)
          (s.hist (s.name q) ++ [.reaped (s.name x) (s.t.plist q).status]) }
  | none =>
      if living s.t x = [] then s.setPhase x .run
      else (s.mod x fun e => e.await (.proc x)).setPhase x .waiting

/-- The end of `exit` in process `x`. -/
def quit (s : State) (x : ℕ) : State :=
  { s with
    t := s.t.quit x
    phase := Function.update s.phase x .run
    father := fun b => if b ∈ (living s.t x).map s.name then s.name Table.initproc else s.father b
    hist := fun b =>
      if b = s.name x then s.hist b ++ [.exited (s.t.plist x).status]
      else if b ∈ (zombies s.t x).map s.name then s.hist b ++ [.disposed (s.name x)]
      else s.hist b }

/-- `fork` in process `x`. -/
def fork (s : State) (x frame : ℕ) (k : Copy) : State :=
  match s.t.slot with
  | none => s
  | some c =>
      let t := s.t.spawn x c frame
      match k with
      | .room => { s with t }.bear x c
      | .full => { s with t := t.set c .zero }
      | .swap =>
          let t := t.modify c fun e => { e with mode := { e.mode with loaded := false } }
          { s with
            t := t.modify x fun e => e.await (.other 0)
            phase := Function.update (Function.update s.phase c .unborn) x (.forking c) }

/-- The end of a `fork` through swap space. -/
def forked (s : State) (x c : ℕ) (ok : Bool) : State :=
  let s := { s with phase := Function.update s.phase x .run }
  if ok then
    let t := s.t.modify c fun e => { e with mode := { e.mode with swapped := true } }
    { s with t := t.run x }.bear x c
  else { s with t := (s.t.set c .zero).run x, phase := Function.update s.phase c .run }

end State

/-- The step function. -/
def State.step (s : State) : Label → Option State
  | .fork x frame k => if s.Ready x ∧ s.phase x = .run then some (s.fork x frame k) else none
  | .forked x ok =>
      match s.phase x with
      | .forking c => some (s.forked x c ok)
      | _ => none
  | .exit x stat =>
      if s.Ready x ∧ s.phase x = .run then
        some ((s.mod x fun e => { e with status := e.status ||| stat <<< 8 }).setPhase x .closing)
      else none
  | .nap x =>
      if s.Ready x ∧ s.phase x = .closing then some (s.mod x fun e => e.await (.other 0)) else none
  | .rouse x => if s.phase x = .closing then some { s with t := s.t.run x } else none
  | .quit x => if s.Ready x ∧ s.phase x = .closing then some (s.quit x) else none
  | .wait x => if s.Ready x ∧ s.phase x = .run then some (s.scan x) else none
  | .resume x => if s.Ready x ∧ s.phase x = .waiting then some (s.scan x) else none
  | .abort x => if s.Ready x ∧ s.phase x = .waiting then some (s.setPhase x .run) else none
  | .signal x => if s.phase x = .waiting then some { s with t := s.t.run x } else none
  | .fatal x sig =>
      if s.Ready x ∧ s.phase x = .run then some (s.mod x fun e => { e with status := sig }) else none
  | .swap x loaded swapped locked swapping =>
      if (s.t.plist x).mode.alive = true then
        some { s with
          t := { s.t.modify x fun e => { e with mode := { e.mode with loaded, swapped, locked } } with
            swapping } }
      else none

/-- The swapper has forked init. -/
def State.Start (s : State) : Prop :=
  s.t.plist = (fun p =>
    if p = 0 then { Entry.zero with mode := ⟨true, true, true, true, false, true, true, false⟩ }
    else if p = 1 then
      { Entry.zero with
        mode := ⟨true, true, true, true, false, false, true, false⟩
        parent := some 0
        pid := 1 }
    else .zero) ∧
  s.phase = (fun _ => .run) ∧ s.name = id ∧ s.next = 2 ∧ s.father = (fun _ => 0) ∧
  s.hist = fun _ => []

end Procs

end Micronix
