import Micronix.Mem.Segments
import Micronix.Proc.World

/-!
# The process table, `sys/fork.c` and `sys/sleep.c`

`plist` and the counter of `newpid`, with what `fork`, `exit` and `wait` do to them.  A process is
its slot.
-/

namespace Micronix

namespace Procs

/-- The bits of `p->mode`. -/
structure Mode where
  alloc : Bool
  alive : Bool
  awake : Bool
  loaded : Bool
  swapped : Bool
  locked : Bool
  sys : Bool
  back : Bool
  deriving DecidableEq

/-- What a process sleeps for: nothing, a child of the process in this slot, something else. -/
inductive Chan
  | none
  | proc (p : ℕ)
  | other (n : ℕ)
  deriving DecidableEq

/-- `struct proc`.  `pid` is a byte.  `frame` are the two pointers that `saveframe` stores, `rest`
the other fields, which are copied as they are. -/
structure Entry where
  mode : Mode
  event : Chan
  status : ℕ
  frame : ℕ
  parent : Option ℕ
  swap : ℕ
  nsegs : ℕ
  mem : ℕ → Memory.Seg
  time : ℕ
  pid : UInt8
  rest : ℕ

/-- `zero(p, sizeof(*p))` -/
def Entry.zero : Entry :=
  ⟨⟨false, false, false, false, false, false, false, false⟩, .none, 0, 0, none, 0, 0,
    fun _ => ⟨0, .none⟩, 0, 0, 0⟩

/-- `p->mode |= AWAKE; p->event = 0` -/
def Entry.rouse (e : Entry) : Entry :=
  { e with mode := { e.mode with awake := true }, event := .none }

/-- `p->mode &= ~(ALIVE | AWAKE)` -/
def Entry.die (e : Entry) : Entry :=
  { e with mode := { e.mode with alive := false, awake := false } }

/-- `plist`, the counter of `newpid` and `swapping`. -/
@[ext] structure Table where
  plist : ℕ → Entry
  pid : ℕ
  swapping : Bool

namespace Table

/-- `swapproc` and `initproc` -/
def swapproc : ℕ := 0
def initproc : ℕ := 1

def set (t : Table) (p : ℕ) (e : Entry) : Table := { t with plist := Function.update t.plist p e }

def modify (t : Table) (p : ℕ) (f : Entry → Entry) : Table := t.set p (f (t.plist p))

/-- `procptr(id)`: the first process in the table with that id. -/
def procptr (t : Table) (id : ℕ) : Option ℕ :=
  (List.range nproc).find? fun p => (t.plist p).pid.toNat == id && (t.plist p).mode.alloc

/-- The first free slot. -/
def slot (t : Table) : Option ℕ := (List.range nproc).find? fun p => !(t.plist p).mode.alloc

/-- The loop of `newpid`: the number and the new counter. -/
def newpidFrom (t : Table) : ℕ → ℕ → ℕ × ℕ
  | 0, pid => (pid, pid)
  | fuel + 1, pid =>
      let next := if pid + 1 > 30000 then 1 else pid + 1
      if (t.procptr pid).isNone then (pid, next) else newpidFrom t fuel next

/-- `newpid()`.  No pid is as large as 256, so that the loop ends. -/
def newpid (t : Table) : ℕ × ℕ := t.newpidFrom 30000 t.pid

/-- `run(p)` -/
def run (t : Table) (p : ℕ) : Table :=
  let t := t.modify p .rouse
  if (t.plist p).mode.loaded || t.swapping then t else t.modify swapproc .rouse

/-- `wakeup(event)` -/
def wakeup (t : Table) (c : Chan) : Table :=
  (List.range nproc).foldl (fun t p => if (t.plist p).event = c then t.run p else t) t

/-- The beginning of `procopy(child)` in process `p`, whose frame is `frame`. -/
def spawn (t : Table) (p child frame : ℕ) : Table :=
  let t := t.modify p fun e => { e with frame }
  let t := t.set child { t.plist p with time := 0, parent := some p }
  let n := t.newpid
  { t.modify child fun e => { e with pid := UInt8.ofNat n.1 } with pid := n.2 }

/-- `procid(p)` -/
def procid (t : Table) (p : ℕ) : ℕ := (t.plist p).pid.toNat

/-- The second loop of `exit` in process `p`: dead children go, others get a new parent. -/
def disown (t : Table) (p : ℕ) : Table :=
  { t with
    plist := fun q =>
      if q < nproc ∧ (t.plist q).parent = some p then
        if (t.plist q).mode.alive then { t.plist q with parent := some initproc } else .zero
      else t.plist q }

/-- The end of `exit` in process `p`. -/
def quit (t : Table) (p : ℕ) : Table :=
  let t := (t.disown p).modify p .die
  match (t.plist p).parent with
  | some q => t.wakeup (.proc q)
  | none => t.wakeup .none

/-- The search of `wait` in process `p`: a dead child. -/
def zombie (t : Table) (p : ℕ) : Option ℕ :=
  (List.range nproc).find? fun q => (t.plist q).parent = some p && !(t.plist q).mode.alive

end Table

end Procs

end Micronix
