import Micronix.Lib.Bytes
import Mathlib.Logic.Function.Basic

/-!
# The inode list, `sys/iget.c`

Any number of processes call `iget`, `ilock`, `irelse`, `idec`, `isync` and `iflush`.  As in the
model of the buffer cache a step takes one process from one sleep to the next.  The block i/o of
`iio`, `itrunc` and `ifree` is one sleep each, which may end in an error: the buffer may be in the
cache, and then the process goes on at once, or not, and then any others run.

`i_count` and the counter of `itime` are kept in 8 and 16 bits.
-/

namespace Micronix

/-- A slot of `ilist`.  `node` is the disk inode (32 bytes) and `mount` the device whose file
system is mounted here. -/
structure Incore where
  inum : ℕ
  dev : ℕ
  node : Bytes
  busy : Bool
  mod : Bool
  want : Bool
  ronly : Bool
  count : ℕ
  mount : Option ℕ
  size : ℕ
  time : ℕ

/-- `zero(i, sizeof(*i))` -/
def Incore.zero : Incore := ⟨0, 0, Bytes.zero, false, false, false, false, 0, none, 0, 0⟩

/-- `i_nlink` -/
def Incore.nlink (x : Incore) : ℕ := (x.node 2).toNat

/-- What the mount table has on a device. -/
structure Mount where
  isize : ℕ
  ronly : Bool

/-- A call of `iget`: what it looks for, and for the statements what it was called with and the
mounts it has gone through, each the inode that a slot carried with the device mounted there. -/
structure Request where
  num : ℕ
  dev : ℕ
  orig : ℕ × ℕ
  via : List ((ℕ × ℕ) × ℕ)

/-- Where a process stands; for the statements `lockWait` also has the inode it came for. -/
inductive Stage
  | idle
  | getWait (i : ℕ) (r : Request)
  | getWrite (i : ℕ) (r : Request)
  | getRead (i : ℕ) (r : Request)
  | lockWait (i : ℕ) (tag : ℕ × ℕ)
  | freeing (i : ℕ)
  | syncWrite (i : ℕ)
  | flushWait (i dev : ℕ)
  | flushWrite (i dev : ℕ)

/-- The stage of a process that is in no routine. -/
def Stage.isIdle : Stage → Bool
  | .idle => true
  | _ => false

/-- The state.  `mlook` is the mount table and `event` is `p->event`.  For the statements: `own i`
is the process that set `IBUSY` in slot `i`, `refs i` the number of references that open files,
current directories and mounts have on it, and `last` is the
request of an `iget` that has returned in the last step, with the process and the slot. -/
structure Ilist where
  n : ℕ
  slot : ℕ → Incore
  icount : ℕ
  mlook : ℕ → Option Mount
  stage : ℕ → Stage
  event : ℕ → Option ℕ
  own : ℕ → Option ℕ
  refs : ℕ → ℕ
  last : Option (ℕ × Request × Option ℕ)

namespace Ilist

/-! ## The pieces -/

/-- Change one slot. -/
def modSlot (s : Ilist) (i : ℕ) (f : Incore → Incore) : Ilist :=
  { s with slot := Function.update s.slot i (f (s.slot i)) }

/-- Go on at a stage. -/
def goto (s : Ilist) (p : ℕ) (k : Stage) : Ilist :=
  { s with stage := Function.update s.stage p k }

/-- `wakeup(i)` -/
def wakeup (s : Ilist) (i : ℕ) : Ilist :=
  { s with event := fun p => if s.event p = some i then none else s.event p }

/-- `i->time = itime()`.  When the count recycles all times are reset. -/
def itime (s : Ilist) (i : ℕ) : Ilist :=
  let count := (s.icount + 1) % 65536
  let s := if count = 0 then { s with slot := fun j => { s.slot j with time := 0 } } else s
  { s.modSlot i fun x => { x with time := count } with icount := count }

/-- `irelse(i)` -/
def irelse (s : Ilist) (i : ℕ) : Ilist :=
  let s := if (s.slot i).want then s.wakeup i else s
  let s := s.modSlot i fun x => { x with busy := false, want := false }
  { s.itime i with own := Function.update s.own i none }

/-- `ilock(i)` on a slot that is not busy: the count goes up and down again. -/
def lock (s : Ilist) (p i : ℕ) : Ilist :=
  { s.modSlot i fun x => { x with busy := true } with own := Function.update s.own i (some p) }

/-- `i->flags |= IWANT; sleep(i)`, to go on at a stage. -/
def sleep (s : Ilist) (p i : ℕ) (k : Stage) : Ilist :=
  { (s.modSlot i fun x => { x with want := true }).goto p k with
    event := Function.update s.event p (some i) }

/-- `ilock(i)` on a slot that is busy, up to the sleep. -/
def await (s : Ilist) (p i : ℕ) (k : Stage) : Ilist :=
  (s.modSlot i fun x => { x with count := (x.count + 1) % 256 }).sleep p i k

/-- The end of `ilock(i)` after a sleep. -/
def relock (s : Ilist) (p i : ℕ) : Ilist :=
  (s.lock p i).modSlot i fun x => { x with count := (x.count + 255) % 256 }

/-- `iget` returns. -/
def ret (s : Ilist) (p : ℕ) (r : Request) (i : Option ℕ) : Ilist :=
  { s with last := some (p, r, i) }

/-! ## `iio` -/

/-- Whether `iio` prints `Bad inumber` and returns 0; `none` when it panics. -/
def badInum (s : Ilist) (i : ℕ) : Option Bool :=
  (s.mlook (s.slot i).dev).map fun m =>
    (s.slot i).inum == 0 || decide (m.isize * 16 % 65536 < (s.slot i).inum)

/-- `iio` up to its `bread`. -/
def iio (s : Ilist) (i : ℕ) : Ilist :=
  s.modSlot i fun x => { x with ronly := ((s.mlook x.dev).map Mount.ronly).getD x.ronly }

/-- `x3to4(&ip->i_size0, &ip->i_size)`: byte 5 of the inode is the high byte of the size, bytes 6
and 7 are its low word. -/
def x3to4 (d : Bytes) : ℕ := (d 5).toNat * 65536 + (d 7).toNat * 256 + (d 6).toNat

/-- `x4to3(&ip->i_size, &ip->i_size0)` -/
def x4to3 (size : ℕ) (d : Bytes) : Bytes := fun k =>
  if k = 5 then UInt8.ofNat (size / 65536)
  else if k = 6 then UInt8.ofNat size
  else if k = 7 then UInt8.ofNat (size / 256)
  else d k

/-- `iio(IREAD, i)` with the block in hand. -/
def readNode (s : Ilist) (i : ℕ) (d : Bytes) : Ilist :=
  s.modSlot i fun x => { x with node := d, size := x3to4 d, mod := false }

/-- `iio(IWRITE, i)` with the block in hand. -/
def writeNode (s : Ilist) (i : ℕ) : Ilist :=
  s.modSlot i fun x => { x with node := x4to3 x.size x.node, mod := false }

/-! ## `iget` -/

/-- The first slot that carries the inode. -/
def hit (s : Ilist) (num dev : ℕ) : Option ℕ :=
  (List.range s.n).find? fun i => (s.slot i).inum == num && (s.slot i).dev == dev

/-- The least recently used slot that is neither in use nor locked. -/
def victim (s : Ilist) : Option ℕ :=
  (List.range s.n).foldl
    (fun f i =>
      if (s.slot i).count > 0 || (s.slot i).busy then f
      else match f with
        | none => some i
        | some g => if (s.slot i).time < (s.slot g).time then some i else f)
    none

/-- The slot is marked for other searchers. -/
def retag (s : Ilist) (i : ℕ) (r : Request) : Ilist :=
  s.modSlot i fun x => { x with inum := r.num, dev := r.dev, count := 0, mount := none }

/-- `zero(i, sizeof(*i)); irelse(i); return 0;` -/
def giveUp (s : Ilist) (p i : ℕ) (r : Request) : Ilist :=
  ((s.modSlot i fun _ => Incore.zero).irelse i).ret p r none

/-- `iget` from where it takes the locked slot over. -/
def claim (s : Ilist) (p i : ℕ) (r : Request) : Option Ilist :=
  let s := s.retag i r
  (s.badInum i).map fun bad => if bad then s.giveUp p i r else (s.iio i).goto p (.getRead i r)

/-- What `iget` does with a slot that carries the inode, once it is locked; `again` is `loop:`. -/
def found (s : Ilist) (p i : ℕ) (r : Request) (again : Ilist → Request → Option Ilist) :
    Option Ilist :=
  match (s.slot i).mount with
  | some d => again (s.irelse i) ⟨1, d, r.orig, (((s.slot i).inum, (s.slot i).dev), d) :: r.via⟩
  | none => some (s.ret p r (some i))

/-- `loop:` of `iget`, up to the next sleep or to the end of the call.  Every turn goes to the
slot of another mounted root: with no fuel left they form a cycle and `iget` never ends. -/
def iget (p : ℕ) : ℕ → Ilist → Request → Option Ilist
  | 0, _, _ => none
  | fuel + 1, s, r =>
      match s.hit r.num r.dev with
      | some i =>
          if (s.slot i).busy then some (s.await p i (.getWait i r))
          else (s.lock p i).found p i r (iget p fuel)
      | none =>
          match s.victim with
          | none => some (s.ret p r none)
          | some f =>
              let s := s.lock p f
              if (s.slot f).mod then
                (s.badInum f).map fun bad =>
                  if bad then (s.irelse f).ret p r none
                  else (s.iio f).goto p (.getWrite f r)
              else s.claim p f r

/-! ## `idec`, `isync` and `iflush` -/

/-- `idec(i)` up to the freeing of the inode, or to its end. -/
def idec (s : Ilist) (p i : ℕ) : Ilist :=
  if (s.slot i).count = 0 ∧ (s.slot i).nlink = 0 then s.goto p (.freeing i) else s.irelse i

/-- `itrunc` and `ifree` have freed the inode and its blocks. -/
def ifree (s : Ilist) (i : ℕ) : Ilist :=
  s.modSlot i fun x => { x with node := Bytes.zero, size := 0, mod := true }

/-- `isync` from slot `n - left` on. -/
def isync (p : ℕ) : ℕ → Ilist → Option Ilist
  | 0, s => some s
  | left + 1, s =>
      let i := s.n - (left + 1)
      if (s.slot i).mod ∧ (s.slot i).busy = false then
        let s := s.lock p i
        match s.badInum i with
        | none => none
        | some true => isync p left (s.irelse i)
        | some false => some ((s.iio i).goto p (.syncWrite i))
      else isync p left s

/-- `irelse(ip); zero(ip, sizeof(*ip));` in `iflush`. -/
def expel (s : Ilist) (i : ℕ) : Ilist := (s.irelse i).modSlot i fun _ => Incore.zero

/-- `iflush(dev)` from slot `n - left` on. -/
def iflush (p dev : ℕ) : ℕ → Ilist → Option Ilist
  | 0, s => some s
  | left + 1, s =>
      let i := s.n - (left + 1)
      if (s.slot i).dev = dev then
        if (s.slot i).busy then some (s.await p i (.flushWait i dev))
        else
          let s := s.lock p i
          if (s.slot i).mod then
            match s.badInum i with
            | none => none
            | some true => iflush p dev left (s.expel i)
            | some false => some ((s.iio i).goto p (.flushWrite i dev))
          else iflush p dev left (s.expel i)
      else iflush p dev left s

/-! ## What the rest of the kernel does to a slot -/

/-- A reference is taken. -/
def ref (s : Ilist) (i : ℕ) : Ilist :=
  { s.modSlot i fun x => { x with count := (x.count + 1) % 256 } with
    refs := Function.update s.refs i (s.refs i + 1) }

/-- A reference is given back. -/
def unref (s : Ilist) (i : ℕ) : Ilist :=
  { s.modSlot i fun x => { x with count := (x.count + 255) % 256 } with
    refs := Function.update s.refs i (s.refs i - 1) }

/-- The inode is modified. -/
def modify (s : Ilist) (i : ℕ) (d : Bytes) (size : ℕ) : Ilist :=
  s.modSlot i fun x => { x with node := d, size := size, mod := true }

/-- The file system on device `d` is mounted here. -/
def graft (s : Ilist) (i d : ℕ) : Ilist := s.modSlot i fun x => { x with mount := some d }

/-- What is mounted here is unmounted. -/
def prune (s : Ilist) (i : ℕ) : Ilist := s.modSlot i fun x => { x with mount := none }

/-! ## Steps -/

/-- The calls that a process can make. -/
inductive Call
  | iget (num dev : ℕ)
  | ilock (i : ℕ)
  | irelse (i : ℕ)
  | idec (i : ℕ)
  | isync
  | iflush (dev : ℕ)

/-- What can happen next: a call, a change to a slot by the rest of the kernel (a reference taken
or given back, the inode modified, a file system mounted on it or unmounted), a change of the
mount table, or a woken process that goes on; `d` is what its block i/o has brought, if no error. -/
inductive Label
  | call (p : ℕ) (c : Call)
  | ref (i : ℕ)
  | unref (i : ℕ)
  | modify (i : ℕ) (d : Bytes) (size : ℕ)
  | graft (i d : ℕ)
  | prune (i : ℕ)
  | mtab (dev : ℕ) (m : Option Mount)
  | run (p : ℕ) (d : Option Bytes)

/-- The call of a process that is in no routine of the inode list. -/
def call (s : Ilist) (p : ℕ) : Call → Option Ilist
  | .iget num dev => iget p (s.n + 1) s ⟨num, dev, (num, dev), []⟩
  | .ilock i =>
      some (if (s.slot i).busy then s.await p i (.lockWait i ((s.slot i).inum, (s.slot i).dev))
        else s.lock p i)
  | .irelse i => some (s.irelse i)
  | .idec i => some (s.idec p i)
  | .isync => isync p s.n s
  | .iflush dev => iflush p dev s.n s

/-- A process that has been woken goes on from where it slept. -/
def resume (s : Ilist) (p : ℕ) (k : Stage) (d : Option Bytes) : Option Ilist :=
  match k with
  | .idle => none
  | .getWait i r =>
      if (s.slot i).busy then some (s.sleep p i k) else (s.relock p i).found p i r (iget p (s.n + 1))
  | .getWrite i r =>
      if d.isSome then (s.writeNode i).claim p i r else some ((s.irelse i).ret p r none)
  | .getRead i r =>
      match d with
      | some d => some ((s.readNode i d).ret p r (some i))
      | none => some (s.giveUp p i r)
  | .lockWait i _ => some (if (s.slot i).busy then s.sleep p i k else s.relock p i)
  | .freeing i => some ((s.ifree i).irelse i)
  | .syncWrite i =>
      isync p (s.n - (i + 1)) ((if d.isSome then s.writeNode i else s).irelse i)
  | .flushWait i dev =>
      if (s.slot i).busy then some (s.sleep p i k)
      else
        let s := s.relock p i
        if (s.slot i).mod then
          match s.badInum i with
          | none => none
          | some true => iflush p dev (s.n - (i + 1)) (s.expel i)
          | some false => some ((s.iio i).goto p (.flushWrite i dev))
        else iflush p dev (s.n - (i + 1)) (s.expel i)
  | .flushWrite i dev =>
      iflush p dev (s.n - (i + 1)) ((if d.isSome then s.writeNode i else s).expel i)

/-- The step function. -/
def step (s : Ilist) (l : Label) : Option Ilist :=
  let s := { s with last := none }
  match l with
  | .call p c => if (s.stage p).isIdle then s.call p c else none
  | .ref i => some (s.ref i)
  | .unref i => if 0 < s.refs i then some (s.unref i) else none
  | .modify i d size => some (s.modify i d size)
  | .graft i d => some (s.graft i d)
  | .prune i => some (s.prune i)
  | .mtab dev m => some { s with mlook := Function.update s.mlook dev m }
  | .run p d => if s.event p = none then (s.goto p .idle).resume p (s.stage p) d else none

/-- The slot that an `iget` has returned. -/
def result (s : Ilist) : Option ℕ := s.last.bind fun x => x.2.2

/-- The inode that a slot carries. -/
def tag (s : Ilist) (i : ℕ) : ℕ × ℕ := ((s.slot i).inum, (s.slot i).dev)

/-- No two slots carry the same inode. -/
def Uniq (s : Ilist) : Prop :=
  ∀ i j, i < s.n → j < s.n → (s.slot i).inum ≠ 0 → s.tag i = s.tag j → i = j

/-- The list at a quiet time: nobody is in a routine and nothing is locked, no inode is in core
twice, and each count is the number of references.  The list of zeros at the start is one case. -/
structure Quiet (s : Ilist) : Prop where
  stage : ∀ p, s.stage p = .idle
  event : ∀ p, s.event p = none
  own : ∀ i, s.own i = none
  busy : ∀ i, (s.slot i).busy = false
  count : ∀ i, (s.slot i).count = s.refs i ∧ s.refs i < 256
  uniq : Uniq s
  last : s.last = none

/-- A regular file with one link. -/
def plain : Bytes := fun k => if k = 1 then 128 else if k = 2 then 1 else 0

/-- The list of `n` slots full of modified inodes 2, ..., `n + 1` of device 1, which nobody uses. -/
def full (n : ℕ) : Ilist :=
  { n, slot := fun i => ⟨i + 2, 1, plain, false, true, false, false, 0, none, 0, 0⟩, icount := 0,
    mlook := fun d => if d = 1 then some ⟨20, false⟩ else none, stage := fun _ => .idle,
    event := fun _ => none, own := fun _ => none, refs := fun _ => 0, last := none }

lemma quiet_full (n : ℕ) : Quiet (full n) where
  stage _ := rfl
  event _ := rfl
  own _ := rfl
  busy _ := rfl
  count _ := ⟨rfl, Nat.zero_lt_succ _⟩
  uniq i j _ _ _ h := by
    simp only [tag, full, Prod.mk.injEq] at h
    omega
  last := rfl

end Ilist

end Micronix
