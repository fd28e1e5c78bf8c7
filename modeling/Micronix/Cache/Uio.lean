import Micronix.Lib.Bytes
import Mathlib.Logic.Function.Basic

/-!
# The buffer cache, `sys/uio.c`

Any number of processes call `bget`, `bread`, `aread`, `bsync` and release their buffers; the
drivers complete transfers in any order.  A process runs from one sleep to the next without
interruption, so a step is what one process does between two sleeps, or one completion.

A process asleep in `block` will search again from `loop:` when it wakes; one asleep in `bwait`
tests `BDONE` again.  `Pc` records which, and `event` is `p->event`, the buffer slept on.
-/

namespace Micronix

/-- A buffer header with its data.  The flags are those of `buf.h`: `BREAD`, `BBUSY`, `BSYNC`,
`BDELWRI`, `BDONE`, `BLOCK`, `BWANT`, `BERROR`. -/
structure Buf where
  read : Bool
  busy : Bool
  sync : Bool
  delwri : Bool
  done : Bool
  lock : Bool
  want : Bool
  error : Bool
  dev : ℕ
  blk : ℕ
  data : Bytes

/-- What is done with the buffer that `bget` returns. -/
inductive Kont
  | bget
  | bread
  | aread
  | bsync
  deriving DecidableEq

/-- Where a process stands. -/
inductive Pc
  | idle
  | loop (blk dev : ℕ) (k : Kont)
  | evict (b blk dev : ℕ) (k : Kont)
  | read (b blk dev : ℕ) (k : Kont)
  | write (b : ℕ)
  deriving DecidableEq

/-- The state of the cache.  `time` is `b->time` and `count` the counter of `btime`; `queue b` says
that the driver has a request for buffer `b`; `own b` is the process that holds `b`.  Two fields
are for the statements only: `view dev blk` is the contents most recently released for a block,
and `last` what a `bread` that has returned in the last step gave for which block. -/
structure Cache where
  nbuf : ℕ
  rootdev : ℕ
  buf : ℕ → Buf
  time : ℕ → ℕ
  count : ℕ
  seconds : ℕ
  disk : ℕ → ℕ → Bytes
  queue : ℕ → Bool
  pc : ℕ → Pc
  event : ℕ → Option ℕ
  own : ℕ → Option ℕ
  view : ℕ → ℕ → Bytes
  last : Option (ℕ × ℕ × Bytes)

namespace Cache

/-! ## The pieces -/

/-- Change the header of one buffer. -/
def modBuf (s : Cache) (b : ℕ) (f : Buf → Buf) : Cache :=
  { s with buf := Function.update s.buf b (f (s.buf b)) }

/-- `wakeup(b)` -/
def wakeup (s : Cache) (b : ℕ) : Cache :=
  { s with event := fun p => if s.event p = some b then none else s.event p }

/-- `b->time = btime()`.  When the count recycles all times are reset. -/
def btime (s : Cache) (b : ℕ) : Cache :=
  let count := (s.count + 1) % 65536
  { s with
    count := count
    time := Function.update (if count = 0 then fun _ => 0 else s.time) b count }

/-- `brelse(b)` -/
def brelse (s : Cache) (b : ℕ) : Cache :=
  if (s.buf b).busy = false then s
  else
    let s := if (s.buf b).want then s.wakeup b else s
    let s := s.modBuf b fun x => { x with busy := false, want := false }
    { s.btime b with own := Function.update s.own b none }

/-- The first buffer that carries the block.  `bget` takes its arguments as `UINT8`. -/
def hit (s : Cache) (blk dev : ℕ) : Option ℕ :=
  (List.range s.nbuf).find? fun b => (s.buf b).blk == blk % 256 && (s.buf b).dev == dev % 256

/-- The least recently used buffer that is neither busy nor locked in core. -/
def victim (s : Cache) : Option ℕ :=
  (List.range s.nbuf).foldl
    (fun f b =>
      if (s.buf b).busy || (s.buf b).lock then f
      else match f with
        | none => some b
        | some g => if s.time b < s.time g then some b else f)
    none

/-- A successful `block(b)`. -/
def block (s : Cache) (p b : ℕ) : Cache :=
  { s.modBuf b fun x => { x with busy := true } with own := Function.update s.own b (some p) }

/-- The victim becomes the buffer of another block. -/
def retag (s : Cache) (b blk dev : ℕ) : Cache :=
  s.modBuf b fun x => { x with blk := blk % 256, dev := dev % 256, done := false }

/-- Set `BREAD` and `BSYNC` as given, then `strat(b)`. -/
def strat (s : Cache) (b : ℕ) (rd sy : Bool) : Cache :=
  { s.modBuf b fun x =>
      { x with read := rd, sync := sy, busy := true, done := false, error := false } with
    queue := Function.update s.queue b true }

/-- `b->flags |= BWANT; sleep(b)`, to go on at `pc`. -/
def sleep (s : Cache) (p b : ℕ) (pc : Pc) : Cache :=
  { s.modBuf b fun x => { x with want := true } with
    event := Function.update s.event p (some b)
    pc := Function.update s.pc p pc }

/-- Go on at `pc` without sleeping. -/
def setPc (s : Cache) (p : ℕ) (pc : Pc) : Cache := { s with pc := Function.update s.pc p pc }

/-- The holder's changes to the buffer, which become the contents of the block. -/
def store (s : Cache) (b : ℕ) (d : Bytes) : Cache :=
  { s.modBuf b fun x => { x with data := d } with
    view := fun dev blk =>
      if dev = (s.buf b).dev ∧ blk = (s.buf b).blk then d else s.view dev blk }

/-- `bdwrite(b)` -/
def bdwrite (s : Cache) (b : ℕ) : Cache :=
  (s.modBuf b fun x => { x with delwri := true, done := true }).brelse b

/-- `bawrite(b)`: the buffer is the driver's from here on. -/
def bawrite (s : Cache) (b : ℕ) : Cache :=
  { s.strat b false false with own := Function.update s.own b none }

/-- `bwrite(b)` up to its sleep. -/
def bwrite (s : Cache) (p b : ℕ) (pc : Pc) : Cache := (s.strat b false true).sleep p b pc

/-! ## `bsync` after its `getsb` -/

/-- `s->s_time = seconds`: the long at offset 411, bytes in the order 2 3 0 1. -/
def stampTime (d : Bytes) (seconds : ℕ) : Bytes := fun i =>
  if i = 411 then UInt8.ofNat (seconds / 65536)
  else if i = 412 then UInt8.ofNat (seconds / 16777216)
  else if i = 413 then UInt8.ofNat seconds
  else if i = 414 then UInt8.ofNat (seconds / 256)
  else d i

/-- The loop of `bsync`: start the writing of buffers `0, ..., n - 1`. -/
def bsyncLoop (s : Cache) : ℕ → Cache
  | 0 => s
  | n + 1 =>
      let s := s.bsyncLoop n
      if (s.buf n).busy = false ∧ (s.buf n).delwri = true then s.bawrite n else s

/-- `bsync` with the superblock's buffer in hand; byte 408 is `s_flock`. -/
def bsyncRest (s : Cache) (p b : ℕ) : Cache :=
  let s := s.setPc p .idle
  let s :=
    if (s.buf b).data 408 = 0 then (s.store b (stampTime (s.buf b).data s.seconds)).bdwrite b
    else s.brelse b
  s.bsyncLoop s.nbuf

/-! ## `bget`, `bread` and `aread` -/

/-- The end of `bread`: `geterror(b)`, and the buffer or 0 for the caller. -/
def breadEnd (s : Cache) (p b blk dev : ℕ) (k : Kont) : Option Cache :=
  if (s.buf b).error then
    -- `getsb` panics
    if k = .bsync then none else some ((s.setPc p .idle).brelse b)
  else if k = .bsync then some (s.bsyncRest p b)
  else some { s.setPc p .idle with last := some (dev, blk, (s.buf b).data) }

/-- Go on with the buffer that `bget` returned. -/
def got (s : Cache) (p b blk dev : ℕ) : Kont → Option Cache
  | .bget => some (s.setPc p .idle)
  | .aread => some ({ s.strat b true false with own := Function.update s.own b none }.setPc p .idle)
  | k =>
      if (s.buf b).done = true ∧ (s.buf b).error = false then s.breadEnd p b blk dev k
      else some ((s.strat b true true).sleep p b (.read b blk dev k))

/-- `loop:` of `bget`, up to the next sleep or to the end of the call.  `none` when there is no
buffer to be had: the search is repeated until an interrupt releases one. -/
def search (s : Cache) (p blk dev : ℕ) (k : Kont) : Option Cache :=
  match s.hit blk dev with
  | some b =>
      if (s.buf b).busy then some (s.sleep p b (.loop blk dev k))
      else (s.block p b).got p b blk dev k
  | none =>
      match s.victim with
      | none => none
      | some f =>
          let s := s.block p f
          if (s.buf f).delwri then some (s.bwrite p f (.evict f blk dev k))
          else
            (s.retag f blk dev).got p f blk dev k

/-! ## Steps -/

/-- The calls that a process can make. -/
inductive Call
  | bget (blk dev : ℕ)
  | bread (blk dev : ℕ)
  | aread (blk dev : ℕ)
  | bsync

/-- The ways to release a buffer, with the contents the holder leaves in it. -/
inductive Release
  | brelse
  | bdwrite (d : Bytes)
  | bawrite (d : Bytes)
  | bwrite (d : Bytes)

/-- What can happen next.  A completion is with or without an error; after a failed transfer what
was to be filled holds anything. -/
inductive Label
  | call (p : ℕ) (c : Call)
  | release (p b : ℕ) (r : Release)
  | setLock (p b : ℕ) (v : Bool)
  | run (p : ℕ)
  | iodone (b : ℕ) (err : Option Bytes)
  | tick

/-- Whether a buffer carries the block, as `aread` tests it. -/
def present (s : Cache) (blk dev : ℕ) : Bool :=
  (List.range s.nbuf).any fun b => (s.buf b).blk == blk && (s.buf b).dev == dev

/-- The call of a process that is in no routine of the cache. -/
def call (s : Cache) (p : ℕ) : Call → Option Cache
  | .bget blk dev => s.search p blk dev .bget
  | .bread blk dev => s.search p blk dev .bread
  | .aread blk dev => if s.present blk dev then some s else s.search p blk dev .aread
  | .bsync => s.search p 1 s.rootdev .bsync

/-- The release of a buffer. -/
def release (s : Cache) (p b : ℕ) : Release → Cache
  | .brelse => s.brelse b
  | .bdwrite d => (s.store b d).bdwrite b
  | .bawrite d => (s.store b d).bawrite b
  | .bwrite d => (s.store b d).bwrite p b (.write b)

/-- A process that has been woken goes on. -/
def resume (s : Cache) (p : ℕ) : Option Cache :=
  match s.pc p with
  | .idle => none
  | .loop blk dev k => s.search p blk dev k
  | .evict b blk dev k =>
      if (s.buf b).done then ((s.setPc p (.loop blk dev k)).brelse b).search p blk dev k
      else some (s.sleep p b (s.pc p))
  | .read b blk dev k =>
      if (s.buf b).done then s.breadEnd p b blk dev k else some (s.sleep p b (s.pc p))
  | .write b =>
      if (s.buf b).done then some ((s.setPc p .idle).brelse b) else some (s.sleep p b (s.pc p))

/-- The transfer itself. -/
def transfer (s : Cache) (b : ℕ) (err : Option Bytes) : Cache :=
  let x := s.buf b
  let s := { s with queue := Function.update s.queue b false }
  let s := if err.isSome then s.modBuf b fun x => { x with error := true } else s
  if x.read then s.modBuf b fun y => { y with data := err.getD (s.disk x.dev x.blk) }
  else
    { s with disk := fun dev blk =>
        if dev = x.dev ∧ blk = x.blk then err.getD x.data else s.disk dev blk }

/-- A transfer ends: the driver calls `iodone(b)`. -/
def iodone (s : Cache) (b : ℕ) (err : Option Bytes) : Cache :=
  let s := (s.transfer b err).modBuf b fun x => { x with done := true, delwri := false }
  if (s.buf b).sync then s.wakeup b else s.brelse b

/-- The step function. -/
def step (s : Cache) (l : Label) : Option Cache :=
  let s := { s with last := none }
  match l with
  | .call p c => if s.pc p = .idle then s.call p c else none
  | .release p b r =>
      if s.pc p = .idle ∧ s.own b = some p then some (s.release p b r) else none
  | .setLock p b v =>
      if s.pc p = .idle ∧ s.own b = some p then
        some (s.modBuf b fun x => { x with lock := v })
      else none
  | .run p => if s.event p = none then s.resume p else none
  | .iodone b err => if s.queue b then some (s.iodone b err) else none
  | .tick => some { s with seconds := s.seconds + 1 }

/-- A buffer as `binit` leaves it. -/
def freshBuf : Buf :=
  ⟨false, false, false, false, false, false, false, false, 0, 0, Bytes.zero⟩

/-- The cache after `binit`, over a disk with any contents. -/
structure Start (s : Cache) : Prop where
  buf : ∀ b, s.buf b = freshBuf
  queue : ∀ b, s.queue b = false
  pc : ∀ p, s.pc p = .idle
  event : ∀ p, s.event p = none
  own : ∀ b, s.own b = none
  view : s.view = s.disk
  last : s.last = none

/-- Such a cache, with its clocks at 0. -/
def binit (nbuf rootdev : ℕ) (disk : ℕ → ℕ → Bytes) : Cache :=
  { nbuf, rootdev, disk, buf := fun _ => freshBuf, time := fun _ => 0, count := 0, seconds := 0,
    queue := fun _ => false, pc := fun _ => .idle, event := fun _ => none, own := fun _ => none,
    view := disk, last := none }

lemma start_binit (nbuf rootdev : ℕ) (disk : ℕ → ℕ → Bytes) : Start (binit nbuf rootdev disk) :=
  ⟨fun _ => rfl, fun _ => rfl, fun _ => rfl, fun _ => rfl, fun _ => rfl, rfl, rfl⟩

end Cache

end Micronix
