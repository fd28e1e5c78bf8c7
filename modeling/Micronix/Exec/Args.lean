import Micronix.Lib.Bytes
import Micronix.Lib.Packed
import Mathlib.Logic.Function.Basic
import Mathlib.Data.UInt

/-!
# The arguments of exec

`getargs` copies the arguments of the old program, each with its terminator, into buffers of 512
bytes.  `putargs` copies them from there to the top of the new program's memory, below them the
table of pointers, and `arelse` gives the buffers back.

The buffers are the elements of a static array `bp` of `NBLKS` pointers, used from index 1 on.  An
index that is not one of the array's has no meaning: the run stops with a `Fault`.  The buffers that
`bget` hands out are locked, hence different, and are named by the index of the pointer to them.
-/

namespace Micronix

namespace Exec

/-- Elements of `bp`. -/
def NBLKS : ℕ := 4

/-- The top of a program's memory. -/
def usrtop : ℕ := 0xffff

/-- `bp[n]` is not an element of the array. -/
inductive Fault
  | outside (n : ℕ)
  deriving DecidableEq, Repr

/-- An index of the array. -/
def index (n : ℕ) : Except Fault ℕ :=
  if n < NBLKS then .ok n else .error (.outside n)

/-- The statics of `exec.c`, with the data of the buffers. -/
structure Args where
  nargs : ℕ
  nbytes : ℕ
  nblks : ℕ
  /-- the data of the buffer that `bp[n]` points to -/
  data : ℕ → Bytes
  /-- where `d` points to in the last buffer -/
  d : ℕ

namespace Args

/-- `*d++ = c`, in the last buffer. -/
def store (g : Args) (c : UInt8) : Args :=
  { g with
    data := Function.update g.data g.nblks (Function.update (g.data g.nblks) g.d c)
    d := g.d + 1
    nbytes := g.nbytes + 1 }

/-- One turn of the inner loop of `getargs`; `false` is `E2BIG`. -/
def getbyte (g : Args) (c : UInt8) : Except Fault (Args × Bool) :=
  if g.nbytes % 512 = 0 then
    if g.nblks < NBLKS then
      match index (g.nblks + 1) with
      | .ok n => .ok ({ g with nblks := n, d := 0 }.store c, true)
      | .error e => .error e
    else .ok (g, false)
  else .ok (g.store c, true)

/-- The inner loop, over the bytes up to the terminator. -/
def getstring (g : Args) : List UInt8 → Except Fault (Args × Bool)
  | [] => .ok (g, true)
  | c :: cs =>
      match g.getbyte c with
      | .ok (g, true) => g.getstring cs
      | r => r

/-- The outer loop of `getargs`. -/
def getargsLoop (g : Args) : List (Text UInt8) → Except Fault (Args × Bool)
  | [] => .ok (g, true)
  | s :: args =>
      match { g with nargs := g.nargs + 1 }.getstring (s.1 ++ [0]) with
      | .ok (g, true) => g.getargsLoop args
      | r => r

/-- `getargs`. -/
def getargs (g : Args) (args : List (Text UInt8)) : Except Fault (Args × Bool) :=
  { g with nargs := 0, nbytes := 0, nblks := 0 }.getargsLoop args

/-- The indices that `arelse` uses. -/
def arelse (g : Args) : Except Fault (List ℕ) :=
  (List.range g.nblks).mapM fun n => index (n + 1)

end Args

/-! ## The new stack -/

/-- `putword`. -/
def putword (mem : Bytes) (v addr : ℕ) : Bytes :=
  Function.update (Function.update mem addr (UInt8.ofNat v)) (addr + 1) (UInt8.ofNat (v / 256))

/-- `getword`. -/
def getword (mem : Bytes) (addr : ℕ) : ℕ :=
  (mem addr).toNat + 256 * (mem (addr + 1)).toNat

/-- The variables of the loops of `putargs`, with the memory. -/
structure Put where
  c : UInt8
  ac : ℕ
  a : ℕ
  d : ℕ
  nbytes : ℕ
  mem : Bytes

namespace Put

/-- The inner loop of `putargs` over the last `left` bytes of a buffer. -/
def scan (z : Put) (nargs av : ℕ) (data : Bytes) : ℕ → Put
  | 0 => z
  | left + 1 =>
      if z.c = 0 then
        let z := { z with mem := putword z.mem z.a (av + 2 * z.ac), ac := z.ac + 1 }
        if nargs ≤ z.ac then z
        else { z with c := data (511 - left), a := z.a + 1 }.scan nargs av data left
      else { z with c := data (511 - left), a := z.a + 1 }.scan nargs av data left

/-- `copyout` of what is in the buffer. -/
def copyout (z : Put) (data : Bytes) : Put :=
  let count := min 512 z.nbytes
  { z with
    mem := Bytes.copyBytes data 0 z.mem z.d count
    nbytes := z.nbytes - count
    d := z.d + count }

/-- The outer loop of `putargs`, over the indices of the buffers. -/
def blocks (nargs av : ℕ) (data : ℕ → Bytes) : List ℕ → Put → Except Fault Put
  | [], z => .ok z
  | n :: ns, z =>
      match index n with
      | .ok n => blocks nargs av data ns ((z.scan nargs av (data n) 512).copyout (data n))
      | .error e => .error e

end Put

/-- What `putargs` leaves. -/
structure Stack where
  mem : Bytes
  /-- the new stack pointer -/
  sp : ℕ
  /-- the beginning of the arguments, for `ps` -/
  args : List UInt8

/-- `putargs`. -/
def Args.putargs (g : Args) (mem : Bytes) : Except Fault Stack :=
  let a := usrtop - g.nbytes
  let av := a - 2 * g.nargs - 2
  match Put.blocks g.nargs av g.data (List.range' 1 g.nblks) ⟨0, 0, a, a, g.nbytes, mem⟩ with
  | .ok z =>
      match index 1 with
      | .ok n =>
          .ok ⟨putword (putword z.mem 0xffff (av + 2 * g.nargs)) g.nargs (av - 2), av - 2,
            Bytes.slice (g.data n) 0 8⟩
      | .error e => .error e
  | .error e => .error e

end Exec

end Micronix
