import Mathlib.Logic.Function.Basic
import Mathlib.Tactic.Common

/-!
# The user-mode simulator

`usersim` runs a program of Micronix on the host: `emulate` executes one instruction after the other,
delivers a signal when one is pending, and serves a system call when the program has halted.

The processor itself is the generated core of `z80.h` behind `z80_run`, the service of a system call
is the host's; both are parameters (`Core`).  What is left of the processor's registers, and of the
host, is `rest`.
-/

namespace Micronix

namespace Usersim

abbrev Byte := BitVec 8
abbrev Word := BitVec 16

/-- The instruction at location 8. -/
def HALT : Byte := 0x76

/-- The instruction that makes a system call, and a call of three bytes. -/
def RST1 : Byte := 0xcf
def CALL : Byte := 0xcd

def NSYS : ℕ := 64

/-- The processor and its memory. -/
structure Z80 (ρ : Type) where
  pc : Word
  sp : Word
  mem : Word → Byte
  /-- the HALT pin -/
  halt : Bool
  /-- `S_HLTA` of the status -/
  hlta : Bool
  /-- the next tick takes the processor out of its halt -/
  unhalt : Bool
  rest : ρ

variable {ρ : Type}

namespace Z80

/-- Halted, and not about to be taken out of it. -/
def stopped (c : Z80 ρ) : Bool :=
  c.halt && !c.unhalt

/-- `get_word`; at the last byte it reads behind `memory[]`. -/
def getWord (c : Z80 ρ) (addr : Word) : Option Word :=
  if addr = 0xffff then none else some (c.mem (addr + 1) ++ c.mem addr)

/-- `put_word`, whose addresses wrap. -/
def putWord (c : Z80 ρ) (addr value : Word) : Z80 ρ :=
  { c with
    mem := Function.update (Function.update c.mem addr (value.setWidth 8)) (addr + 1)
      ((value >>> 8).setWidth 8) }

def push (c : Z80 ρ) (s : Word) : Z80 ρ :=
  { c with sp := c.sp - 2 }.putWord (c.sp - 2) s

def pop (c : Z80 ρ) : Option (Word × Z80 ρ) :=
  (c.getWord c.sp).map fun i => (i, { c with sp := c.sp + 2 })

/-- The word on top of the stack as the processor reads it. -/
def top (c : Z80 ρ) : Word :=
  c.mem (c.sp + 1) ++ c.mem c.sp

end Z80

/-- The bytes of a system call behind its RST. -/
def argbytes : List Word :=
  [3, 1, 1, 5, 5, 5, 1, 1, 5, 5, 3, 5, 3, 1, 7, 5, 5, 3, 5, 5, 1, 7, 3, 1, 1, 1, 7, 1, 3, 1, 1, 3, 3, 5,
    1, 1, 1, 3, 1, 1, 1, 1, 1, 3, 9, 1, 1, 1, 5, 3, 1, 0]

/-- The simulated process. -/
structure Process (ρ : Type) where
  cpu : Z80 ρ
  signalled : Word
  /-- the program's handlers; 0 is none -/
  handler : ℕ → Word
  /-- where the system calls that were served stood -/
  calls : List Word

/-- `z80_run` and the service of a system call: its number, where its arguments begin, the processor
and the handlers.  No result is the end of the simulator. -/
structure Core (ρ : Type) where
  run : Z80 ρ → Z80 ρ
  serve : ℕ → Word → Z80 ρ → (ℕ → Word) → Option (Z80 ρ × (ℕ → Word))

namespace Process

/-- The number of a system call and where its arguments begin; `true` for one through `indir`. -/
def descriptor (c : Z80 ρ) (sc : Word) : Option (ℕ × Word × Bool) :=
  if c.mem (sc + 1) = 0 then
    match c.getWord (sc + 2) with
    | some sc => if c.mem sc = RST1 then some ((c.mem (sc + 1)).toNat, sc, true) else none
    | none => none
  else some ((c.mem (sc + 1)).toNat, sc, false)

/-- `SystemCall`.  No result is an exit of the simulator, or an index outside of an array. -/
def systemCall (core : Core ρ) (p : Process ρ) : Option (Process ρ) := do
  let (sc, cpu) ← p.cpu.pop
  let cpu := cpu.push sc
  let sc := sc - 1
  guard (cpu.mem sc = RST1 ∨ cpu.mem (sc - 2) = CALL)
  let (code, args, indirect) ← descriptor cpu sc
  guard (code < NSYS)
  let (ret, cpu) ← cpu.pop
  let skip ← argbytes[if indirect then 0 else code]?
  let (cpu, handler) ← core.serve code args (cpu.push (ret + skip)) p.handler
  let (pc, cpu) ← cpu.pop
  pure { p with
    cpu := { cpu with pc := pc, unhalt := cpu.unhalt || cpu.hlta }
    handler := handler
    calls := p.calls ++ [sc] }

/-- The lowest signal that is pending. -/
def pending (signalled : Word) : Option ℕ :=
  (List.range 16).find? fun i => signalled.getLsbD i

/-- Deliver the lowest signal that is pending.  `pc` is that of the instruction that was executed. -/
def deliver (p : Process ρ) (pc : Word) : Process ρ :=
  match pending p.signalled with
  | some i =>
      { p with
        cpu := if p.handler i = 0 then p.cpu else { p.cpu.push pc with pc := p.handler i }
        signalled := p.signalled &&& ~~~(1#16 <<< i) }
  | none => p

/-- One turn of the loop of `emulate`. -/
def emulate (core : Core ρ) (p : Process ρ) : Option (Process ρ) :=
  let q := { p with cpu := core.run p.cpu }.deliver p.cpu.pc
  if q.cpu.hlta then q.systemCall core else some q

end Process

end Usersim

end Micronix
