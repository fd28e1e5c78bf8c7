import Micronix.Cache.Solo
import Micronix.Inode.Modified

/-!
# `sync`

`isync` stores the modified inodes in the buffers of their blocks, and `bsync` starts the writing of
the buffers.  The buffer cache and the inode list are those of `Micronix.Cache.Uio` and
`Micronix.Inode.Iget`, which run side by side until a process calls `sync` with nobody else running;
then `iio` calls `bread` and `bdwrite`.
-/

namespace Micronix

open Bytes

/-! ## Both caches -/

namespace Cache

/-- `bzero(b)`, which leaves the buffer its data. -/
def bzero (s : Cache) (b : ℕ) : Cache :=
  { s.modBuf b fun x => { freshBuf with data := x.data } with time := Function.update s.time b 0 }

/-- `sp->s_flock = ronly`, the byte at offset 408. -/
def setFlock (s : Cache) (b : ℕ) (ronly : UInt8) : Cache :=
  s.modBuf b fun x => { x with data := Function.update x.data 408 ronly }

end Cache

/-- The buffer cache and the inode list. -/
structure Caches where
  cache : Cache
  ilist : Ilist

namespace Caches

/-- What happens in the one or in the other; besides, `tmount` sets `s_flock` in the superblock that
it holds, and `bflush` zeroes a buffer that it has released. -/
inductive Label
  | cache (l : Cache.Label)
  | ilist (l : Ilist.Label)
  | flock (p b : ℕ) (ronly : UInt8)
  | bzero (b : ℕ)

/-- The step function. -/
def step (s : Caches) : Label → Option Caches
  | .cache l => (s.cache.step l).map fun c => { s with cache := c }
  | .ilist l => (s.ilist.step l).map fun l => { s with ilist := l }
  | .flock p b ronly =>
      if s.cache.pc p = .idle ∧ s.cache.own b = some p then
        some { s with cache := s.cache.setFlock b ronly }
      else none
  | .bzero b =>
      if (s.cache.buf b).busy = false ∧ (s.cache.buf b).delwri = false then
        some { s with cache := s.cache.bzero b }
      else none

/-- The caches at boot. -/
structure Start (s : Caches) : Prop where
  cache : s.cache.Start
  slot : ∀ i, s.ilist.slot i = Incore.zero
  stage : ∀ p, s.ilist.stage p = .idle
  event : ∀ p, s.ilist.event p = none

/-- Numbers are in range and no transfer fails; modified slots carry inodes that can be written;
`tmount` sets `s_flock` as it finds it, and no buffer carries block 0 of device 0, which is `nodev`. -/
def Errorless (s : Caches) : Label → Prop
  | .cache l => s.cache.Errorless l
  | .ilist l => s.ilist.Tidy l
  | .flock _ b ronly => (s.cache.buf b).data 408 = ronly
  | .bzero _ => ∀ c < s.cache.nbuf, (s.cache.buf c).dev = 0 → (s.cache.buf c).blk = 0 →
      (s.cache.buf c).busy = false ∧ (s.cache.buf c).delwri = false ∧ (s.cache.buf c).done = false

instance (s : Caches) : ∀ l, Decidable (s.Errorless l)
  | .cache _ => inferInstanceAs (Decidable (s.cache.Errorless _))
  | .ilist _ => inferInstanceAs (Decidable (s.ilist.Tidy _))
  | .flock .. => inferInstanceAs (Decidable (_ = _))
  | .bzero _ => inferInstanceAs (Decidable (∀ c < _, _ → _ → _))

/-- Besides, no read is started into delayed-write data. -/
def Careful (s : Caches) (l : Label) : Prop :=
  s.Errorless l ∧ match l with
    | .cache l => s.cache.Careful l
    | _ => True

instance (s : Caches) : ∀ l, Decidable (s.Careful l)
  | .cache _ => inferInstanceAs (Decidable (_ ∧ s.cache.Careful _))
  | .ilist _ | .flock .. | .bzero _ => inferInstanceAs (Decidable (_ ∧ True))

/-- Nobody holds a buffer or has an inode locked, and `p` is awake and in no routine of the caches. -/
structure Resting (s : Caches) (p : ℕ) : Prop where
  own : ∀ b < s.cache.nbuf, s.cache.own b = none
  busy : ∀ i < s.ilist.n, (s.ilist.slot i).busy = false
  pc : s.cache.pc p = .idle
  stage : (s.ilist.stage p).isIdle = true
  awake : s.cache.event p = none ∧ s.ilist.event p = none

instance (s : Caches) (p : ℕ) : Decidable (s.Resting p) :=
  decidable_of_iff ((∀ b < s.cache.nbuf, s.cache.own b = none) ∧
      (∀ i < s.ilist.n, (s.ilist.slot i).busy = false) ∧ s.cache.pc p = .idle ∧
      (s.ilist.stage p).isIdle = true ∧ s.cache.event p = none ∧ s.ilist.event p = none)
    ⟨fun ⟨h1, h2, h3, h4, h5⟩ => ⟨h1, h2, h3, h4, h5⟩, fun ⟨h1, h2, h3, h4, h5⟩ => ⟨h1, h2, h3, h4, h5⟩⟩

end Caches

/-! ## What readers find, and what is stored -/

namespace Cache

/-- What a reader finds: the data of a buffer that carries the block and is valid or dirty, or else
what is on the disk. -/
def cached (s : Cache) (dev blk : ℕ) : Bytes :=
  match (List.range s.nbuf).find? fun b => (s.buf b).dev == dev && (s.buf b).blk == blk &&
      ((s.buf b).done && !(s.buf b).error || (s.buf b).delwri || s.queue b && !(s.buf b).read) with
  | some b => (s.buf b).data
  | none => s.disk dev blk

/-- The buffer that a process holds. -/
def held (s : Cache) (p : ℕ) : Option ℕ :=
  (List.range s.nbuf).find? fun b => s.own b == some p

end Cache

namespace Incore

/-- The block of an inode, as `iio` computes it. -/
def iblock (x : Incore) : ℕ := (x.inum + 31) % 65536 / 16

/-- The block with the inode stored in it. -/
def put (x : Incore) (d : Bytes) : Bytes :=
  copyBytes (Ilist.x4to3 x.size x.node) 0 d ((x.inum + 31) % 16 * 32) 32

end Incore

namespace Ilist

/-- The inode of a slot stored in its block. -/
def putSlot (l : Ilist) (i : ℕ) (v : ℕ → ℕ → Bytes) : ℕ → ℕ → Bytes := fun dev blk =>
  if dev = (l.slot i).dev ∧ blk = ((l.slot i).inum + 31) / 16 then (l.slot i).put (v dev blk)
  else v dev blk

/-- The modified inodes of the first `n` slots stored in their blocks. -/
def stored (l : Ilist) (v : ℕ → ℕ → Bytes) : ℕ → ℕ → ℕ → Bytes
  | 0 => v
  | n + 1 => if (l.slot n).mod then l.putSlot n (l.stored v n) else l.stored v n

end Ilist

/-! ## The call -/

/-- Where a process stands in `sync`: before it, in `isync` (where in it, its stage says), in the
`bread` that `iio` calls for a slot, in `bsync`, and at the end. -/
inductive SyncPc
  | sync
  | isync
  | bread (i : ℕ)
  | bsync
  | done
  deriving DecidableEq

/-- The caches while a process is in `sync`. -/
structure Syncing extends Caches where
  pc : SyncPc

/-- The process goes on, a transfer ends, or the clock ticks. -/
inductive SyncLabel
  | run
  | iodone (b : ℕ)
  | tick
  deriving DecidableEq

namespace Syncing

/-- The end of `iio(IWRITE)`, with the buffer that `bread` has returned, and `isync` from there. -/
def iioEnd (s : Syncing) (p i : ℕ) : Option Syncing :=
  match s.cache.held p with
  | some b => do
      let d := (s.cache.buf b).data
      let c ← s.cache.step (.release p b (.bdwrite ((s.ilist.slot i).put d)))
      let l ← s.ilist.step (.run p (some d))
      return { cache := c, ilist := l, pc := .isync }
  | none => (s.ilist.step (.run p none)).map fun l => { s with ilist := l, pc := .isync }

/-- The process goes on. -/
def run (s : Syncing) (p : ℕ) : Option Syncing :=
  match s.pc with
  | .sync => (s.ilist.step (.call p .isync)).map fun l => { s with ilist := l, pc := .isync }
  | .isync =>
      match s.ilist.stage p with
      | .syncWrite i =>
          (s.cache.step (.call p (.bread (s.ilist.slot i).iblock (s.ilist.slot i).dev))).map
            fun c => { s with cache := c, pc := .bread i }
      | _ => (s.cache.step (.call p .bsync)).map fun c => { s with cache := c, pc := .bsync }
  | .bread i =>
      if s.cache.pc p = .idle then s.iioEnd p i
      else (s.cache.step (.run p)).map fun c => { s with cache := c }
  | .bsync =>
      if s.cache.pc p = .idle then some { s with pc := .done }
      else (s.cache.step (.run p)).map fun c => { s with cache := c }
  | .done => none

/-- The step function. -/
def step (p : ℕ) (s : Syncing) : SyncLabel → Option Syncing
  | .run => s.run p
  | .iodone b => (s.cache.step (.iodone b none)).map fun c => { s with cache := c }
  | .tick => (s.cache.step .tick).map fun c => { s with cache := c }

/-- `sync` has ended, and so have the transfers. -/
def Finished (s : Syncing) : Prop := s.pc = .done ∧ ∀ b < s.cache.nbuf, s.cache.queue b = false

instance (s : Syncing) : Decidable s.Finished := inferInstanceAs (Decidable (_ ∧ _))

/-- The disks are current: nothing is modified in core, and they have what readers found in `s` with
the modified inodes stored, but for the time in the superblock. -/
def Current (s : Caches) (x : Syncing) : Prop :=
  (∀ i < x.ilist.n, (x.ilist.slot i).mod = false) ∧
    (∀ b < x.cache.nbuf, (x.cache.buf b).delwri = false) ∧
    ∃ seconds, x.cache.disk =
      Cache.stamp (s.ilist.stored s.cache.cached s.ilist.n) s.cache.rootdev seconds

end Syncing

/-- `sync` is called. -/
def Caches.sync (s : Caches) : Syncing := { s with pc := .sync }

end Micronix
