import Micronix.Lib.Window
import Micronix.Mem.Segments
import Micronix.Mem.Swapmap

/-!
# Swapping, `sys/swap.c`

What is in memory and on the swap device, with the segments and the swap map as in their own files.
`swapio` is called by the swapper and by a process whose `fork` finds no memory.  It waits for the buffer
`lock`, gives a request for each `FULL` entry to the driver, and waits for the requests one after the
other, with the number of the entry in a static variable.  The device serves the requests in any order.
-/

namespace Micronix

namespace Swapping

open Memory

/-- The contents of a segment: 8 blocks. -/
abbrev Page (β : Type*) := Fin 8 → β

/-- One of the buffers `swab[]` while the driver has it. -/
structure Buf where
  /-- `BREAD` -/
  read : Bool
  /-- `data` and `xmem` -/
  seg : ℕ
  blk : ℕ
deriving DecidableEq

/-- Memory, the swap device and `swapio`. -/
structure State (β : Type*) where
  mem : Memory.State
  swapmap : Swapmap
  core : ℕ → Page β
  disk : ℕ → β
  /-- The process for whose image somebody holds `lock`. -/
  lock : Option ℕ
  /-- the static `i` of `swapio` -/
  i : ℕ
  swab : ℕ → Option Buf
  /-- The extents in use; not in the code. -/
  live : List Extent
  /-- The extent that `salloc` gave for a process; not in the code. -/
  given : ℕ → Extent
  /-- What the `FULL` entries of a process held when it was swapped out, or those of its parent when it was
  forked; not in the code. -/
  image : ℕ → ℕ → Option (Page β)

variable {β : Type*}

namespace State

/-- `salloc(size)` for process `t`: the first block, or 0. -/
def salloc (s : State β) (t size : ℕ) : Option (ℕ × State β) :=
  (s.swapmap.salloc size).map fun
    | (some blk, m) =>
        (blk, { s with
          swapmap := m
          live := ⟨size, blk⟩ :: s.live
          given := Function.update s.given t ⟨size, blk⟩ })
    | (none, m) => (0, { s with swapmap := m })

/-- What the `FULL` entries of process `t` hold. -/
def pages (s : State β) (t : ℕ) : ℕ → Option (Page β) := fun i =>
  if ((s.mem.proc t).mem i).per = .full then some (s.core ((s.mem.proc t).mem i).seg) else none

/-- The image of process `t` is that of process `x` now. -/
def keep (s : State β) (t x : ℕ) : State β :=
  { s with image := Function.update s.image t (s.pages x) }

end State

/-- The loop of `bankcopy` after `k` rounds. -/
def bankcopy (parent child : ℕ → Seg) (core : ℕ → Page β) : ℕ → ℕ → Page β
  | 0 => core
  | i + 1 =>
      let core := bankcopy parent child core i
      if (parent i).per = .full then Function.update core (child i).seg (core (parent i).seg) else core

/-- The first loop of `swapio` after `k` rounds: `blk`, and the requests. -/
def requests (read : Bool) (mem : ℕ → Seg) (swap : ℕ) : ℕ → ℕ × (ℕ → Option Buf)
  | 0 => (swap, fun _ => none)
  | i + 1 =>
      let (blk, swab) := requests read mem swap i
      if (mem i).per ≠ .full then (blk, swab)
      else ((blk + 8) % 65536, Function.update swab i (some ⟨read, (mem i).seg, blk⟩))

namespace State

/-- A process is on its way between memory and the swap device. -/
def Moves (st : Stat) : Prop := st = .leaving ∨ st = .forked ∨ st = .entering

instance (st : Stat) : Decidable (Moves st) := inferInstanceAs (Decidable (_ ∨ _ ∨ _))

/-- `fork()` of process `x` with the entry `c` for the child. -/
def fork (s : State β) (x c : ℕ) : Option (State β) :=
  match s.mem.pool.mget { s.mem.proc x with stat := .core } with
  | some r =>
      (Memory.step s.mem (.fork x c 0)).map fun m =>
        { s.keep c x with
          mem := m
          core := bankcopy (s.mem.proc x).mem r.2.mem s.core 17 }
  | none =>
      (s.salloc c ((s.mem.proc x).nsegs * 8)).bind fun r =>
        (Memory.step s.mem (.fork x c r.1)).map fun m => { r.2.keep c x with mem := m }

/-- `swapout(x)` up to `swapio`. -/
def swapout (s : State β) (x : ℕ) : Option (State β) :=
  (s.salloc x ((s.mem.proc x).nsegs * 8)).bind fun r =>
    (Memory.step s.mem (.swapout x r.1)).map fun m => { r.2.keep x x with mem := m }

/-- `block(&lock)` in `swapio(flag, t)`, and the first loop. -/
def block (s : State β) (t : ℕ) : State β :=
  { s with
    lock := some t
    i := 0
    swab := (requests (decide ((s.mem.proc t).stat = .entering)) (s.mem.proc t).mem
      (s.mem.proc t).swap 17).2 }

/-- The device serves a request. -/
def transfer (s : State β) (j : ℕ) (b : Buf) : State β :=
  let s := { s with swab := Function.update s.swab j none }
  if b.read then { s with core := Function.update s.core b.seg (Window.get 8 s.disk b.blk) }
  else { s with disk := Window.put s.disk b.blk (s.core b.seg) }

/-- The second loop of `swapio` is at its end, and `lock` is released. -/
def finished (s : State β) (t : ℕ) : Prop := s.lock = some t ∧ s.i = 17

instance (s : State β) (t : ℕ) : Decidable (s.finished t) := inferInstanceAs (Decidable (_ ∧ _))

end State

/-- What happens next.  `mem` is a step of a process or of the swapper that has nothing to do with the
swap device. -/
inductive Label (β : Type*)
  | mem (l : Memory.Label)
  | run (x i : ℕ) (page : Page β)
  | fork (x c : ℕ)
  | forked (x c : ℕ)
  | swapout (x : ℕ)
  | swappedOut (x : ℕ)
  | swapin (x : ℕ)
  | swappedIn (x : ℕ)
  | block (x : ℕ)
  | transfer (j : ℕ)
  | bwait

/-- The steps of `Memory` that have nothing to do with the swap device. -/
def Local : Memory.Label → Prop
  | .exec _ | .grow .. | .wake _ | .exit _ | .reap _ => True
  | _ => False

instance : DecidablePred Local := fun l => by
  cases l <;> unfold Local <;> infer_instance

open State in
/-- The step function.  A process changes its memory only while it runs. -/
def step (s : State β) : Label β → Option (State β)
  | .mem l => if Local l then (Memory.step s.mem l).map fun m => { s with mem := m } else none
  | .run x i page =>
      if (s.mem.proc x).Runs ∧ i < 17 ∧ ((s.mem.proc x).mem i).per = .full then
        some { s with core := Function.update s.core ((s.mem.proc x).mem i).seg page }
      else none
  | .fork x c => s.fork x c
  | .forked x c =>
      if s.finished c ∧ (s.mem.proc x).sleep = .fork c then
        (Memory.step s.mem (.forked x)).map fun m => { s with mem := m, lock := none }
      else none
  | .swapout x => s.swapout x
  | .swappedOut x =>
      if s.finished x then
        (Memory.step s.mem (.swappedOut x)).map fun m => { s with mem := m, lock := none }
      else none
  | .swapin x => (Memory.step s.mem (.swapin x)).map fun m => { s with mem := m }
  | .swappedIn x =>
      if s.finished x then
        (s.swapmap.sfree ((s.mem.proc x).nsegs * 8) (s.mem.proc x).swap).bind fun map =>
          (Memory.step s.mem (.swappedIn x)).map fun m =>
            { s with mem := m, lock := none, swapmap := map, live := s.live.erase (s.given x) }
      else none
  | .block x =>
      if s.lock = none ∧ Moves (s.mem.proc x).stat then some (s.block x) else none
  | .transfer j => (s.swab j).map (s.transfer j)
  | .bwait =>
      match s.lock with
      | none => none
      | some t =>
          if s.i < 17 ∧ (((s.mem.proc t).mem s.i).per = .full → s.swab s.i = none) then
            some { s with i := s.i + 1 }
          else none

/-- After `pinit`, `meminit` and `swapinit`, whatever is in memory and on the swap device. -/
structure Start (bad : ℕ → Bool) (swapsize swapaddr : ℕ) (s : State β) : Prop where
  mem : Memory.Start bad s.mem
  map : s.swapmap = Swapmap.swapinit swapsize swapaddr
  lock : s.lock = none
  swab : ∀ j, s.swab j = none
  live : s.live = []

end Swapping

end Micronix
