import Mathlib.Data.Finset.Card
import Mathlib.Order.Interval.Finset.Nat
import Micronix.Lib.Transition

/-!
# Memory segments, `sys/malloc.c`

Primary memory comes in 4K segments.  `segmap` and `nsegs` say which of them are free and how many,
and the memory map of a process has an entry for each of its 16 segments of address space and one
for its user structure.  Entries marked `GROW` are not in use yet and all stand for one segment.
`fork`, `exec`, `exit`, memory faults and the swapper take segments and give them back; the last
three can be asleep in the middle.
-/

namespace Micronix.Memory

/-- `MAXSEG`; the first 16 segments are the kernel's. -/
def maxseg : ℕ := 256

/-- `NONE`, `FULL` and `GROW`. -/
inductive Per
  | none
  | full
  | grow
deriving DecidableEq

/-- `struct mem`, an entry of a memory map. -/
structure Seg where
  seg : ℕ
  per : Per
deriving DecidableEq

/-- What the bits `ALLOC`, `ALIVE`, `LOADED` and `SWAPPED` of `p->mode` say together. -/
inductive Stat
  /-- none of them -/
  | free
  /-- `ALLOC | ALIVE | LOADED` -/
  | core
  /-- `ALLOC | ALIVE`, while the swapper writes the process to the swap device -/
  | leaving
  /-- `ALLOC | ALIVE`, while the process' parent writes its own memory to the swap device for it -/
  | forked
  /-- `ALLOC | ALIVE | SWAPPED` -/
  | swapped
  /-- `ALLOC | ALIVE`, while the swapper reads the process from the swap device -/
  | entering
  /-- `ALLOC | LOADED`, after `exit` -/
  | zombie
deriving DecidableEq

/-- Where a process is asleep: nowhere, in `grow` for memory, having made an entry `FULL`, or in
`fork` until its child is on the swap device, and then it is `LOCKED`. -/
inductive Sleep
  | no
  | grow (seg : ℕ)
  | fork (child : ℕ)
deriving DecidableEq

/-- `struct proc` -/
structure Proc where
  stat : Stat
  nsegs : ℕ
  mem : ℕ → Seg
  swap : ℕ
  sleep : Sleep

/-- An entry of `plist` after `zero`. -/
def Proc.zero : Proc := ⟨.free, 0, fun _ => ⟨0, .none⟩, 0, .no⟩

/-- `nsegs`, `segmap[]` and `lastseg`. -/
structure Pool where
  nsegs : ℕ
  segmap : ℕ → Bool
  lastseg : ℕ

namespace Pool

/-- The loop of `segalloc`, with `limit` rounds left. -/
def scan (segmap : ℕ → Bool) : ℕ → ℕ → Option ℕ
  | 0, _ => none
  | limit + 1, n =>
      let n := if maxseg ≤ n then 16 else n
      if segmap n then scan segmap limit (n + 1) else some n

/-- `segalloc()`.  Where no segment is free the code returns no value; 0 stands for it. -/
def segalloc (p : Pool) : ℕ × Pool :=
  match scan p.segmap (maxseg - 16) p.lastseg with
  | some n => (n, ⟨p.nsegs - 1, Function.update p.segmap n true, n + 1⟩)
  | none => (0, p)

/-- `segfree(n)` -/
def segfree (p : Pool) (n : ℕ) : Pool :=
  if p.segmap n then ⟨p.nsegs + 1, Function.update p.segmap n false, n⟩ else p

/-- The loop of `mfree` with entries `k - 1, ..., 0` to go. -/
def mfreeDown (mem : ℕ → Seg) : ℕ → Pool → Pool
  | 0, p => p
  | k + 1, p => mfreeDown mem k (p.segfree (mem k).seg)

/-- The loop of `mrelse` with entries `k, ..., 1` to go. -/
def mrelseDown (mem : ℕ → Seg) (grow : ℕ) : ℕ → Pool → Pool
  | 0, p => p
  | k + 1, p =>
      mrelseDown mem grow k (if (mem (k + 1)).seg ≠ grow then p.segfree (mem (k + 1)).seg else p)

/-- The loop of `mget` after `k` rounds: the pool, `grow` and the map. -/
def mgetUpTo (p : Pool) (mem : ℕ → Seg) : ℕ → Pool × ℕ × (ℕ → Seg)
  | 0 => (p, 0, mem)
  | i + 1 =>
      let (p, grow, mem) := mgetUpTo p mem i
      if (mem i).per = .grow then
        let (grow, p) := if grow = 0 then p.segalloc else (grow, p)
        (p, grow, Function.update mem i ⟨grow, .grow⟩)
      else
        let (n, p) := p.segalloc
        (p, grow, Function.update mem i ⟨n, (mem i).per⟩)

/-- `mfree(p)` -/
def mfree (p : Pool) (x : Proc) : Pool × Proc :=
  (mfreeDown x.mem 17 p,
    { x with mem := fun i => if i < 17 then ⟨0, (x.mem i).per⟩ else x.mem i })

/-- `mrelse()` -/
def mrelse (p : Pool) (x : Proc) : Pool × Proc :=
  let grow := (x.mem 0).seg
  (mrelseDown x.mem grow 14 p,
    { x with mem := fun i => if i ≤ 14 then ⟨grow, .grow⟩ else x.mem i, nsegs := 3 })

/-- `mget(p)`, with no result where it returns 0. -/
def mget (p : Pool) (x : Proc) : Option (Pool × Proc) :=
  if p.nsegs < x.nsegs then none
  else
    let (p, _, mem) := mgetUpTo p x.mem 17
    some (p, { x with mem := mem })

/-- `grow` from the loop on, which is also where a process asleep in it goes on. -/
def growOn (p : Pool) (x : Proc) : Pool × Proc :=
  if p.nsegs = 0 then (p, x)
  else if x.swap ≠ 0 then (p, { x with sleep := .no })
  else
    let (n, p) := p.segalloc
    (p, { x with
          mem := fun i => if i < 16 ∧ (x.mem i).per = .grow then ⟨n, .grow⟩ else x.mem i,
          sleep := .no })

/-- `grow(seg)`, given the segments of `u.brake` and `u.sp`. -/
def grow (p : Pool) (x : Proc) (seg brakeseg stackseg : ℕ) : Pool × Proc :=
  if (x.mem seg).per = .full then (p, x)
  else if brakeseg < seg ∧ seg < stackseg then (p, x)
  else
    let mem := Function.update x.mem seg ⟨(x.mem seg).seg, .full⟩
    if x.nsegs = 17 then (p, { x with mem := mem })
    else growOn p { x with mem := mem, nsegs := x.nsegs + 1, swap := 0, sleep := .grow seg }

end Pool

/-- The memory of the machine and its processes.  Process 0 is the swapper. -/
structure State where
  pool : Pool
  proc : ℕ → Proc

/-- Process `x` and the pool after an operation on both. -/
def State.put (s : State) (x : ℕ) (r : Pool × Proc) : State :=
  ⟨r.1, Function.update s.proc x r.2⟩

/-- What happens next.  Where a system call or the swapper sleeps for the swap device there is a
label for each side of the sleep; `blk` is what `salloc` finds, 0 for nothing. -/
inductive Label
  | fork (x child blk : ℕ)
  | forked (x : ℕ)
  | exec (x : ℕ)
  | grow (x seg brakeseg stackseg : ℕ)
  | wake (x : ℕ)
  | exit (x : ℕ)
  | reap (x : ℕ)
  | swapout (x blk : ℕ)
  | swappedOut (x : ℕ)
  | swapin (x : ℕ)
  | swappedIn (x : ℕ)

/-- The process can make a system call. -/
def Proc.Runs (p : Proc) : Prop := p.stat = .core ∧ p.sleep = .no

instance (p : Proc) : Decidable p.Runs := inferInstanceAs (Decidable (_ ∧ _))

/-- The process is asleep in `grow`. -/
def Proc.Waits (p : Proc) : Bool :=
  match p.sleep with
  | .grow _ => true
  | _ => false

/-- `LOCKED` -/
def Proc.Locked (p : Proc) : Bool :=
  match p.sleep with
  | .fork _ => true
  | _ => false

/-- `procopy(child)`.  Where there is neither memory nor swap space the entry of the child is
zeroed again. -/
def procopy (s : State) (x c blk : ℕ) : State :=
  match s.pool.mget { s.proc x with stat := .core } with
  | some r => s.put c r
  | none =>
      if blk = 0 then s.put c (s.pool, .zero)
      else (s.put c (s.pool, { s.proc x with stat := .forked, swap := blk })).put x
        (s.pool, { s.proc x with sleep := .fork c })

/-- `swapout(n)` for the swapper up to the sleep. -/
def swapout (p : Proc) (blk : ℕ) : Proc :=
  if blk = 0 then { p with swap := 0 } else { p with stat := .leaving, swap := blk }

def step (s : State) : Label → Option State
  | .fork x c blk =>
      if (s.proc x).Runs ∧ (s.proc c).stat = .free then some (procopy s x c blk) else none
  | .forked x =>
      match (s.proc x).sleep with
      | .fork c =>
          if (s.proc c).stat = .forked then
            some ((s.put c (s.pool, { s.proc c with stat := .swapped })).put x
              (s.pool, { s.proc x with sleep := .no }))
          else none
      | _ => none
  | .exec x =>
      if x ≠ 0 ∧ (s.proc x).Runs then some (s.put x (s.pool.mrelse (s.proc x))) else none
  | .grow x seg b t =>
      if x ≠ 0 ∧ (s.proc x).Runs ∧ seg < 16 then some (s.put x (s.pool.grow (s.proc x) seg b t))
      else none
  | .wake x =>
      if x ≠ 0 ∧ (s.proc x).stat = .core ∧ (s.proc x).Waits then
        some (s.put x (s.pool.growOn (s.proc x)))
      else none
  | .exit x =>
      if x ≠ 0 ∧ (s.proc x).Runs then
        some (s.put x (s.pool.mfree { s.proc x with stat := .zombie }))
      else none
  | .reap x => if (s.proc x).stat = .zombie then some (s.put x (s.pool, .zero)) else none
  | .swapout x blk =>
      if x ≠ 0 ∧ (s.proc x).stat = .core ∧ ¬ (s.proc x).Locked then
        some (s.put x (s.pool, swapout (s.proc x) blk))
      else none
  | .swappedOut x =>
      if (s.proc x).stat = .leaving then
        some (s.put x (s.pool.mfree { s.proc x with stat := .swapped }))
      else none
  | .swapin x =>
      if (s.proc x).stat = .swapped then
        some (match s.pool.mget { s.proc x with stat := .entering } with
          | some r => s.put x r
          | none => s)
      else none
  | .swappedIn x =>
      if (s.proc x).stat = .entering then
        some (s.put x (s.pool, { s.proc x with stat := .core }))
      else none

/-- `USERSEG` -/
def userseg : ℕ := 3

/-- `pinit()`: the process that becomes the swapper. -/
def pinit : Proc :=
  { stat := .core, nsegs := 17, mem := fun i => ⟨if i = 16 then userseg else i, .full⟩,
    swap := 0, sleep := .no }

/-- `meminit()`: the segments that are missing or bad are marked. -/
def meminit (bad : ℕ → Bool) : Pool :=
  { nsegs := ((Finset.Ico 16 maxseg).filter fun n => bad n = false).card
    segmap := fun n => decide (16 ≤ n) && decide (n < maxseg) && bad n
    lastseg := 16 }

/-- After `pinit` and `meminit`. -/
def Start (bad : ℕ → Bool) (s : State) : Prop :=
  s = ⟨meminit bad, fun x => if x = 0 then pinit else .zero⟩

end Micronix.Memory
