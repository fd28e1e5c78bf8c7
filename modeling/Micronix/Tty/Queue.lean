import Mathlib.Data.UInt
import Mathlib.Tactic.SplitIfs
import Micronix.Lib.Linked

/-!
# Terminal queues

The queues keep their characters in cblocks of 16 bytes, a link and 14 characters.  `first` and
`last` point to a character, or to the end of a cblock when the character is the first one of the
next.

A cblock has a multiple of 16 as its address.  Its link is in a map of its own (`next`); the
characters are at the addresses from 2 to 15 beyond it.
-/

namespace Micronix

namespace Tty

def TTYHOG : ℕ := 200

/-- The cblocks, with `cfree`. -/
structure Clist where
  next : ℕ → ℕ
  byte : ℕ → UInt8
  cfree : ℕ

/-- `struct que` -/
structure Que where
  count : ℕ
  first : ℕ
  last : ℕ
  deriving DecidableEq

/-- What an operation on a queue works on. -/
structure View extends Clist, Que

/-- The part of `u` that the bulk operations use, and user memory. -/
structure User where
  base : UInt16
  count : UInt16
  core : UInt16 → UInt8

/-- `calign(a)` -/
def calign (a : ℕ) : ℕ := (a - 1) / 16 * 16

namespace View

/-- `qinit(q)` -/
def qinit (v : View) : View := { v with count := 0, first := 0, last := 0 }

/-- `qfree(q)` -/
def qfree (v : View) : Bool × View :=
  if v.first = 0 then (false, v.qinit)
  else
    let old := v.first - 16
    let new := v.next old
    let v := { v with next := Function.update v.next old v.cfree, cfree := old }
    if new ≠ 0 then (true, { v with first := new + 2 }) else (false, v.qinit)

/-- `qrelse(q)` -/
def qrelse (v : View) : View :=
  if v.first ≠ 0 then
    let b := calign v.first + 16
    (qfree { v with first := b, last := b }).2
  else v

/-- The end of `qalloc`. -/
def link (v : View) (new : ℕ) : View :=
  let v :=
    if v.last ≠ 0 then { v with next := Function.update v.next (v.last - 16) new }
    else { v with first := new + 2 }
  { v with last := new + 2, next := Function.update v.next new 0 }

/-- `qalloc(q)` -/
def qalloc (v : View) : Bool × View :=
  if v.count = 0 ∧ v.last ≠ 0 then (true, { v with last := 0 }.link (v.last - 16))
  else if v.cfree = 0 then (false, v)
  else (true, { v with cfree := v.next v.cfree }.link v.cfree)

/-- `((int) (q->last) & 15) || qalloc(q)` -/
def room (v : View) : Bool × View := if v.last % 16 ≠ 0 then (true, v) else v.qalloc

/-- `((int) (q->first) & 15) || qfree(q)` -/
def turn (v : View) : Bool × View := if v.first % 16 ≠ 0 then (true, v) else v.qfree

/-- `putc(q, c)`, false for -1. -/
def putc (v : View) (c : UInt8) : Bool × View :=
  if v.count < TTYHOG then
    let (ok, v) := v.room
    if ok then
      (true, { v with
        count := v.count + 1, byte := Function.update v.byte v.last c, last := v.last + 1 })
    else (false, v)
  else (false, v)

/-- `getc(q)`, `none` for -1. -/
def getc (v : View) : Option UInt8 × View :=
  let (c, v) :=
    if v.count ≠ 0 then
      let (ok, v) := v.turn
      if ok then (some (v.byte v.first), { v with count := v.count - 1, first := v.first + 1 })
      else (none, v)
    else (none, v)
  (c, if v.count = 0 then v.qrelse else v)

/-- `drain(q)` -/
def drain (v : View) : View :=
  let x := v.first
  let y := v.last
  let v :=
    if x ≠ 0 ∧ y ≠ 0 then
      { v with next := Function.update v.next (calign y) v.cfree, cfree := calign x }
    else v
  v.qinit

/-- `copyin(from, to, n)` -/
def copyin (v : View) (core : UInt16 → UInt8) (src : UInt16) (dst n : ℕ) : View :=
  { v with
    byte := fun a =>
      if dst ≤ a ∧ a < dst + n then core (src + UInt16.ofNat (a - dst)) else v.byte a }

/-- The loop of `fillque`; the result is `from`.  A round copies at least one of the `cleft`
characters, so that there are no more than `cleft` rounds. -/
def fill (core : UInt16 → UInt8) : ℕ → View → UInt16 → ℕ → UInt16 × View
  | 0, v, src, _ => (src, v)
  | n + 1, v, src, cleft =>
      if cleft ≠ 0 then
        let (ok, v) := v.room
        if ok then
          let togo := 16 - v.last % 16
          let togo := if cleft < togo then cleft else togo
          let v := v.copyin core src v.last togo
          fill core n { v with last := v.last + togo, count := v.count + togo }
            (src + UInt16.ofNat togo) (cleft - togo)
        else (src, v)
      else (src, v)

/-- `fillque(q)` -/
def fillque (v : View) (u : User) : User × View :=
  let cleft := u.count.toNat
  let qspace := TTYHOG - v.count
  let cleft := if cleft > qspace then qspace else cleft
  let (src, v) := fill u.core cleft v u.base cleft
  let nfill := src - u.base
  ({ u with count := u.count - nfill, base := src }, v)

/-- `copyout(from, to, n)` -/
def copyout (v : View) (core : UInt16 → UInt8) (src : ℕ) (dst : UInt16) (n : ℕ) : UInt16 → UInt8 :=
  fun a => if (a - dst).toNat < n then v.byte (src + (a - dst).toNat) else core a

/-- The loop of `sendque`; the result is `to` and user memory. -/
def send : ℕ → View → (UInt16 → UInt8) → UInt16 → ℕ → (UInt16 × (UInt16 → UInt8)) × View
  | 0, v, core, dst, _ => ((dst, core), v)
  | n + 1, v, core, dst, cleft =>
      if cleft ≠ 0 then
        let (ok, v) := v.turn
        if ok then
          let togo := 16 - v.first % 16
          let togo := if cleft < togo then cleft else togo
          send n { v with first := v.first + togo, count := v.count - togo }
            (v.copyout core v.first dst togo) (dst + UInt16.ofNat togo) (cleft - togo)
        else ((dst, core), v)
      else ((dst, core), v)

/-- `sendque(q)` -/
def sendque (v : View) (u : User) : User × View :=
  let cleft := u.count.toNat
  let cleft := if cleft > v.count then v.count else cleft
  let ((dst, core), v) := send cleft v u.core u.base cleft
  let nsent := dst - u.base
  ({ base := dst, count := u.count - nsent, core := core }, if v.count = 0 then v.qrelse else v)

/-- The next `n` characters from the address `a` on. -/
def chars (v : View) : ℕ → ℕ → List UInt8
  | 0, _ => []
  | n + 1, a =>
      let a := if a % 16 = 0 then v.next (a - 16) + 2 else a
      v.byte a :: chars v n (a + 1)

end View

/-- The cblock that a queue begins with, or 0. -/
def Que.head (q : Que) : ℕ := if q.first = 0 then 0 else calign q.first

/-- The queues, and the cblocks that they share. -/
structure State (ι : Type*) extends Clist where
  que : ι → Que

variable {ι : Type*}

namespace State

def view (s : State ι) (q : ι) : View := { s.toClist with toQue := s.que q }

/-- The characters of a queue. -/
def chars (s : State ι) (q : ι) : List UInt8 := (s.view q).chars (s.que q).count (s.que q).first

variable [DecidableEq ι]

def put (s : State ι) (q : ι) (v : View) : State ι :=
  { v.toClist with que := Function.update s.que q v.toQue }

def putc (s : State ι) (q : ι) (c : UInt8) : Bool × State ι :=
  let (ok, v) := (s.view q).putc c
  (ok, s.put q v)

def getc (s : State ι) (q : ι) : Option UInt8 × State ι :=
  let (c, v) := (s.view q).getc
  (c, s.put q v)

def fillque (s : State ι) (q : ι) (u : User) : User × State ι :=
  let (u, v) := (s.view q).fillque u
  (u, s.put q v)

def sendque (s : State ι) (q : ι) (u : User) : User × State ι :=
  let (u, v) := (s.view q).sendque u
  (u, s.put q v)

def drain (s : State ι) (q : ι) : State ι := s.put q (s.view q).drain

end State

end Tty

end Micronix
