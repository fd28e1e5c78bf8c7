import Mathlib.Data.Finset.Basic
import Micronix.Fs.Balloc
import Micronix.Inode.Iget

/-!
# The allocators with their buffers

`balloc.c`, `imap.c` and the first half of `ialloc.c` once more, now with the buffers that the
process holds and with reads that fail.  A routine has no result where the process would wait for a
buffer or an inode that it holds itself, and where the kernel panics.  The inodes are those of `ilist`, with
their 32 bytes as on disk.
-/

namespace Micronix

open Bytes Super

/-! ## The fields of an inode -/

namespace Incore

/-- `i_mode` -/
def mode (x : Incore) : ℕ := word x.node 0

/-- `i_mode & IIO` -/
def iio (x : Incore) : Bool := x.mode.testBit 13

/-- `i_mode & ILARG` -/
def larg (x : Incore) : Bool := x.mode.testBit 12

/-- `i_mode & IALLOC` -/
def alloc (x : Incore) : Bool := x.mode.testBit 15

/-- `i_addr[n]` -/
def addr (x : Incore) (n : ℕ) : ℕ := word x.node (4 + n)

/-- `i_addr[n] = v` -/
def setAddr (x : Incore) (n v : ℕ) : Incore := { x with node := setWord x.node (4 + n) v }

/-- `zero(i_addr, 16)` -/
def zeroAddr (x : Incore) : Incore :=
  { x with node := fun k => if 8 ≤ k ∧ k < 24 then 0 else x.node k }

end Incore

namespace Super

/-- `s_ninode` -/
def ninode (sb : Bytes) : ℕ := word sb 103

/-- `s_inode[k]` -/
def inode (sb : Bytes) (k : ℕ) : ℕ := word sb (104 + k)

def setNinode (sb : Bytes) (v : ℕ) : Bytes := setWord sb 103 v

def setInode (sb : Bytes) (k v : ℕ) : Bytes := setWord sb (104 + k) v

end Super

/-! ## Buffers -/

/-- The blocks, the inode list and the process: `held` are the buffers it has busy, by device and
block, and `ok n` says whether the block is there when it calls `bread` for the `n`-th time. -/
structure Kern where
  blk : ℕ → ℕ → Bytes
  ilist : Ilist
  lastiblock : ℕ
  error : ℕ
  seconds : ℕ
  stack : ℕ
  me : ℕ
  held : Finset (ℕ × ℕ)
  ok : ℕ → Bool
  reads : ℕ

namespace Kern

/-- Store block `n` of device `dev`. -/
def put (w : Kern) (dev n : ℕ) (b : Bytes) : Kern :=
  { w with blk := fun d m => if d = dev ∧ m = n then b else w.blk d m }

/-- `EIO`, `ENFILE`, `EFBIG`, `ENOSPC` and `EROFS`. -/
def eio : ℕ := 5
def enfile : ℕ := 23
def efbig : ℕ := 27
def enospc : ℕ := 28
def erofs : ℕ := 30

/-- Set `u.error`. -/
def setError (w : Kern) (e : ℕ) : Kern := { w with error := e }

/-- Change the inode in a slot. -/
def modify (w : Kern) (ip : ℕ) (f : Incore → Incore) : Kern :=
  { w with ilist := w.ilist.modSlot ip f }

/-- `bget(n, dev)` -/
def bget (w : Kern) (dev n : ℕ) : Option Kern :=
  if (dev, n) ∈ w.held then none else some { w with held := insert (dev, n) w.held }

/-- `brelse`; `bdwrite` and `bawrite` release the buffer as well, the last one when the block has
been written. -/
def brelse (w : Kern) (dev n : ℕ) : Kern := { w with held := w.held.erase (dev, n) }

def bdwrite (w : Kern) (dev n : ℕ) : Kern := w.brelse dev n

def bawrite (w : Kern) (dev n : ℕ) : Kern := w.brelse dev n

/-- `bread(n, dev)`: `false` where it returns 0, having released the buffer. -/
def bread (w : Kern) (dev n : ℕ) : Option (Bool × Kern) :=
  (w.bget dev n).map fun w' =>
    if w.ok w.reads then (true, { w' with error := 0, reads := w.reads + 1 })
    else (false, { w'.brelse dev n with error := eio, reads := w.reads + 1 })

/-- `getsb(dev)`, which panics if it cannot read the block. -/
def getsb (w : Kern) (dev : ℕ) : Option Kern :=
  (w.bread dev 1).bind fun r => if r.1 then some r.2 else none

/-- The superblock. -/
def sb (w : Kern) (dev : ℕ) : Bytes := w.blk dev 1

/-! ## `balloc.c` -/

/-- `bad:` in `balloc` -/
def ballocBad (w : Kern) (dev : ℕ) : ℕ × Kern :=
  (0, (w.put dev 1 (setNfree (w.sb dev) 0)).bdwrite dev 1)

/-- `full:` in `balloc` -/
def ballocFull (w : Kern) (dev : ℕ) : ℕ × Kern := (w.setError enospc).ballocBad dev

/-- The end of `balloc`, with the block taken in a buffer. -/
def ballocTake (w : Kern) (dev bn : ℕ) : ℕ × Kern :=
  (bn, ((w.put dev bn zero).bdwrite dev bn).bdwrite dev 1)

/-- `balloc(dev)`.  The superblock stays busy where the file system is mounted read-only. -/
def balloc (w : Kern) (dev : ℕ) : Option (ℕ × Kern) := do
  let w ← w.getsb dev
  let sup := w.sb dev
  if flock sup then return (0, w.setError erofs)
  else if nfree sup = 0 then return w.ballocFull dev
  else
    let n := nfree sup - 1
    let bn := free sup n
    let w := w.put dev 1 (setNfree sup n)
    if bn = 0 ∨ bcheck bn sup = false then return w.ballocFull dev
    else if n = 0 then
      let (ok, w) ← w.bread dev bn
      if ok then return (w.put dev 1 (refill (w.sb dev) (w.blk dev bn))).ballocTake dev bn
      else return w.ballocBad dev
    else
      let w ← w.bget dev bn
      return w.ballocTake dev bn

/-- `bfree(bn, dev)` -/
def bfree (w : Kern) (bn dev : ℕ) : Option Kern :=
  if bn = 0 then some w
  else do
    let w ← w.getsb dev
    let sup := w.sb dev
    if bcheck bn sup = false then return w.bdwrite dev 1
    else if nfree sup = 0 then
      let sup := setNfree (setFree sup 0 0) 1
      return (w.put dev 1 (setNfree (setFree sup 1 bn) 2)).bdwrite dev 1
    else if nfree sup ≥ 100 then
      let w ← w.bget dev bn
      let w := (w.put dev bn (spill sup (w.blk dev bn))).bawrite dev bn
      let sup := setNfree (w.sb dev) 0
      return (w.put dev 1 (setNfree (setFree sup 0 bn) 1)).bdwrite dev 1
    else
      let sup := setNfree (setFree sup (nfree sup) bn) (nfree sup + 1)
      return (w.put dev 1 sup).bdwrite dev 1

/-! ## `imap.c` -/

/-- What `int *p` points at: an entry of `i_addr[]` or a word of a block in a buffer. -/
inductive Slot
  | addr (ip n : ℕ)
  | word (dev bn k : ℕ)

/-- `*p` -/
def load (w : Kern) : Slot → ℕ
  | .addr ip n => (w.ilist.slot ip).addr n
  | .word dev bn k => Bytes.word (w.blk dev bn) k

/-- `*p = v` -/
def store (w : Kern) : Slot → ℕ → Kern
  | .addr ip n, v => w.modify ip fun x => x.setAddr n v
  | .word dev bn k, v => w.put dev bn (setWord (w.blk dev bn) k v)

/-- `plug(p, dev)`, which calls `bfree` without its device. -/
def plug (w : Kern) (p : Slot) (dev : ℕ) : Option (Bool × Kern) := do
  let (bn, w) ← w.balloc dev
  if bn = 0 then return (false, w)
  else if w.load p = 0 then return (true, w.store p bn)
  else
    let w ← w.bfree bn w.stack
    return (false, w)

/-- `if (*p == 0) if (plug(p, ip->i_dev)) ip->flags |= IMOD` -/
def imapiPlug (w : Kern) (ip n : ℕ) : Option Kern :=
  if w.load (.addr ip n) = 0 then do
    let (plugged, w) ← w.plug (.addr ip n) (w.ilist.slot ip).dev
    return if plugged then w.modify ip fun x => { x with mod := true } else w
  else some w

/-- `imapi(ip, n, rap)`: the block, and what `*rap` gets. -/
def imapi (w : Kern) (ip n : ℕ) : Option ((ℕ × ℕ) × Kern) := do
  let w ← w.imapiPlug ip n
  return ((w.load (.addr ip n), if n < 7 then w.load (.addr ip (n + 1)) else 0), w)

/-- `if (*p == 0 && plug(p, dev)) bdwrite(bp); else brelse(bp);` -/
def imapbPlug (w : Kern) (ind n dev : ℕ) : Option Kern :=
  if w.load (.word dev ind n) = 0 then do
    let (plugged, w) ← w.plug (.word dev ind n) dev
    return if plugged then w.bdwrite dev ind else w.brelse dev ind
  else some (w.brelse dev ind)

/-- `imapb(ind, n, dev, rap)` -/
def imapb (w : Kern) (ind n dev : ℕ) : Option ((ℕ × ℕ) × Kern) :=
  if ind = 0 then some ((0, 0), w)
  else do
    let (ok, w) ← w.bread dev ind
    if ok then do
      let w ← w.imapbPlug ind n dev
      return ((w.load (.word dev ind n),
        if n < 255 then w.load (.word dev ind (n + 1)) else 0), w)
    else return ((0, 0), w)

/-- `zero(bp->data, 512); copy(ip->i_addr, bp->data, 16)` -/
def addrBlock (x : Incore) : Bytes := copyBytes x.node 8 zero 0 16

/-- The conversion to large addressing in `imap`: `false` if there is no block for it. -/
def toLarge (w : Kern) (ip dev : ℕ) : Option (Bool × Kern) := do
  let (bn, w) ← w.balloc dev
  if bn = 0 then return (false, w)
  else
    let w ← w.bget dev bn
    let w := w.put dev bn (addrBlock (w.ilist.slot ip))
    let w := w.modify ip fun x => x.zeroAddr.setAddr 0 bn
    let w := w.bdwrite dev bn
    return (true, w.modify ip fun x =>
      { x with node := setWord x.node 0 (x.mode ||| 4096), mod := true })

/-- `imap` in large addressing. -/
def imapLarge (w : Kern) (ip log dev : ℕ) : Option ((ℕ × ℕ) × Kern) := do
  let (ind, w) ← w.imapi ip (min (log / 256) 7)
  if 7 ≤ log / 256 then do
    let (ind, w) ← w.imapb ind.1 (log / 256 - 7) dev
    w.imapb ind.1 (log % 256) dev
  else w.imapb ind.1 (log % 256) dev

/-- `imap(ip, log, rap)` -/
def imap (w : Kern) (ip log : ℕ) : Option ((ℕ × ℕ) × Kern) :=
  let x := w.ilist.slot ip
  if x.iio then some ((log, (log + 1) % 65536), w)
  else if 32768 ≤ log then some ((0, 0), w.setError efbig)
  else if x.larg then w.imapLarge ip log x.dev
  else if log < 8 then w.imapi ip log
  else do
    let (ok, w) ← w.toLarge ip x.dev
    if ok then w.imapLarge ip log x.dev else return ((0, 0), w)

/-! ## `iget.c` -/

/-- `ilock(i)`, the wait for another process included. -/
def ilock (w : Kern) (i : ℕ) : Kern := { w with ilist := w.ilist.lock w.me i }

def irelse (w : Kern) (i : ℕ) : Kern := { w with ilist := w.ilist.irelse i }

/-- `iio(flag, i)`; `write` is `flag == IWRITE`. -/
def iio (w : Kern) (write : Bool) (i : ℕ) : Option (Bool × Kern) := do
  let bad ← w.ilist.badInum i
  if bad then return (false, w.setError eio)
  else
    let w := { w with ilist := w.ilist.iio i }
    let dev := (w.ilist.slot i).dev
    let k := ((w.ilist.slot i).inum + 31) % 65536
    let (ok, w) ← w.bread dev (k / 16)
    if !ok then return (false, w)
    else if write then
      let w := { w with ilist := w.ilist.writeNode i }
      let b := copyBytes (w.ilist.slot i).node 0 (w.blk dev (k / 16)) (k % 16 * 32) 32
      return (true, (w.put dev (k / 16) b).bdwrite dev (k / 16))
    else
      let w := { w with
        ilist := w.ilist.readNode i fun j => w.blk dev (k / 16) (k % 16 * 32 + j) }
      return (true, w.brelse dev (k / 16))

/-- `isync()` from slot `n - left` on. -/
def isync : ℕ → Kern → Option Kern
  | 0, w => some w
  | left + 1, w =>
      let i := w.ilist.n - (left + 1)
      if (w.ilist.slot i).mod ∧ (w.ilist.slot i).busy = false then do
        let (_, w) ← (w.ilock i).iio true i
        isync left (w.irelse i)
      else isync left w

/-- `iget` from where it takes a locked slot over. -/
def claim (w : Kern) (i num dev : ℕ) : Option (Option ℕ × Kern) := do
  let w := w.modify i fun x => { x with inum := num, dev := dev, count := 0, mount := none }
  let (ok, w) ← w.iio false i
  if ok then return (some i, w)
  else return (none, (w.modify i fun _ => Incore.zero).irelse i)

/-- `if ((i->flags & IMOD) && !iio(IWRITE, i))`: `false` if so. -/
def writeBack (w : Kern) (i : ℕ) : Option (Bool × Kern) :=
  if (w.ilist.slot i).mod then w.iio true i else some (true, w)

/-- `iget(num, dev)` for a number of turns from one mounted file system to the next. -/
def iget : ℕ → Kern → ℕ → ℕ → Option (Option ℕ × Kern)
  | 0, _, _, _ => none
  | fuel + 1, w, num, dev =>
      match w.ilist.hit num dev with
      | some i =>
          if (w.ilist.slot i).busy ∧ w.ilist.own i = some w.me then none
          else
            let w := w.ilock i
            match (w.ilist.slot i).mount with
            | some d => iget fuel (w.irelse i) 1 d
            | none => some (some i, w)
      | none =>
          match w.ilist.victim with
          | none => some (none, w.setError enfile)
          | some f => do
              let (ok, w) ← (w.ilock f).writeBack f
              if ok then w.claim f num dev else return (none, w.irelse f)

/-! ## `ialloc.c` -/

/-- The scan of a block of the inode list in `ifill`, with `left` of its 16 inodes to go; `inum` begins
at `16 * iblk - 31`, in 16 bits. -/
def ifillBlock (b : Bytes) (iblk : ℕ) : ℕ → Bytes → Bytes
  | 0, sup => sup
  | left + 1, sup =>
      let k := 16 - (left + 1)
      ifillBlock b iblk left <|
        if (word b (16 * k)).testBit 15 = false ∧ ninode sup < 100 then
          setNinode (setInode sup (ninode sup) ((16 * iblk + 65505 + k) % 65536)) (ninode sup + 1)
        else sup

/-- The loop of `ifill` with `limit` blocks to go: the block at which it ends. -/
def ifillLoop (dev itop : ℕ) : ℕ → ℕ → Kern → Option (ℕ × Kern)
  | 0, iblk, w => some (iblk, w)
  | limit + 1, iblk, w => do
      let iblk := if itop < iblk then 2 else iblk
      let (ok, w) ← w.bread dev iblk
      if ok then
        let w := w.put dev 1 (ifillBlock (w.blk dev iblk) iblk 16 (w.sb dev))
        let w := w.brelse dev iblk
        if 100 ≤ ninode (w.sb dev) then return (iblk, w)
        else ifillLoop dev itop limit ((iblk + 1) % 65536) w
      else ifillLoop dev itop limit ((iblk + 1) % 65536) w

/-- `ifill(sup, dev)` -/
def ifill (w : Kern) (dev : ℕ) : Option (Bool × Kern) := do
  let w ← isync w.ilist.n w
  let limit := isize (w.sb dev)
  let (iblk, w) ← ifillLoop dev ((limit + 1) % 65536) limit w.lastiblock w
  let w := { w with lastiblock := iblk }
  if ninode (w.sb dev) ≠ 0 then return (true, w) else return (false, w.setError enospc)

/-- `if (sup->s_ninode <= 0 && ifill(sup, dev) == 0)`: `false` if so. -/
def candidates (w : Kern) (dev : ℕ) : Option (Bool × Kern) :=
  if ninode (w.sb dev) = 0 then w.ifill dev else some (true, w)

/-- The loop of `ialloc`, for a number of candidates. -/
def iallocLoop (dev : ℕ) : ℕ → Kern → Option (Option ℕ × Kern)
  | 0, _ => none
  | fuel + 1, w => do
      let (ok, w) ← w.candidates dev
      if ok then do
        let n := ninode (w.sb dev) - 1
        let num := inode (w.sb dev) n
        let (ip, w) ← iget (w.ilist.n + 1) (w.put dev 1 (setNinode (w.sb dev) n)) num dev
        match ip with
        | none => iallocLoop dev fuel w
        | some ip =>
            if (w.ilist.slot ip).alloc then iallocLoop dev fuel (w.irelse ip)
            else return (some ip, w)
      else return (none, w)

/-- A new inode, `IALLOC` in `i_mode` and nothing else; the times are left out. -/
def newNode : Bytes := setWord zero 0 32768

/-- `ialloc(dev)` -/
def ialloc (w : Kern) (dev fuel : ℕ) : Option (Option ℕ × Kern) := do
  let w ← w.getsb dev
  let (ip, w) ← iallocLoop dev fuel w
  let w := match ip with
    | some ip => w.modify ip fun x =>
        { x with node := newNode, mod := true, count := 0, mount := none, size := 0 }
    | none => w
  return (ip, w.bdwrite dev 1)

/-- `ifree(ip)` -/
def ifree (w : Kern) (ip : ℕ) : Option Kern := do
  let x := w.ilist.slot ip
  let w ← w.getsb x.dev
  let sup := w.sb x.dev
  let w :=
    if ninode sup < 100 then
      w.put x.dev 1 (setNinode (setInode sup (ninode sup) x.inum) (ninode sup + 1))
    else { w with lastiblock := min w.lastiblock ((x.inum + 31) % 65536 / 16) }
  let w := w.modify ip fun x => { x with node := zero, mod := true }
  return w.bdwrite x.dev 1

/-- The loop of `indfree`, with words `k - 1, ..., 0` of block `ind` to go. -/
def indWords (f : Kern → ℕ → Option Kern) (ind dev : ℕ) : ℕ → Kern → Option Kern
  | 0, w => some w
  | k + 1, w => do
      let w ← f w (word (w.blk dev ind) k)
      indWords f ind dev k w

/-- `indfree(ind, level, dev)` -/
def indfree (dev : ℕ) : ℕ → Kern → ℕ → Option Kern
  | 0, w, ind => if ind = 0 then some w else w.bfree ind dev
  | level + 1, w, ind =>
      if ind = 0 then some w
      else do
        let (ok, w) ← w.bread dev ind
        if ok then
          let w ← indWords (indfree dev level) ind dev 256 w
          (w.brelse dev ind).bfree ind dev
        else return w

/-- `for (n = k - 1; n >= 0; n--) f(ip->i_addr[n])` -/
def addrDown (f : Kern → ℕ → Option Kern) (ip : ℕ) : ℕ → Kern → Option Kern
  | 0, w => some w
  | n + 1, w => do
      let w ← f w ((w.ilist.slot ip).addr n)
      addrDown f ip n w

/-- The blocks of the inode in `itrunc`. -/
def freeBlocks (w : Kern) (ip : ℕ) : Option Kern :=
  let x := w.ilist.slot ip
  if x.larg then do
    let w ← indfree x.dev 2 w (x.addr 7)
    addrDown (indfree x.dev 1) ip 7 w
  else addrDown (fun w b => w.bfree b x.dev) ip 8 w

/-- `itrunc(ip)` -/
def itrunc (w : Kern) (ip : ℕ) : Option Kern :=
  if (w.ilist.slot ip).iio then some w
  else do
    let w ← w.freeBlocks ip
    return w.modify ip fun x =>
      { x.zeroAddr with
        node := setWord x.zeroAddr.node 0 (x.mode &&& 61439), size := 0, mod := true }

end Kern

end Micronix
