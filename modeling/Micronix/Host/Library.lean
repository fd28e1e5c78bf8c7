import Micronix.Fslib.Blocks
import Micronix.Lib.Program

/-!
# The host library as a program

`lib/fslib.c` with its statics and the images of the host, one for each opened file system.  It ends
in three ways: it returns, it loses (`lose` prints a message and exits), or it uses an array outside of
its bounds, and then nothing more is said of it.

Four statics keep a block each: `inodeblk`, `iblk`, `iiblk` and `dirbuf`, with the number of the block.
A look into them goes by the number alone.  `of` is the history that they do not keep: the file system
whose block the buffer holds, as long as nobody writes that block in another way.

`How` says whether a function looks into them, as it does, or reads the image each time.
-/

namespace Micronix

namespace Host

open Bytes Super
open Fslib (setFmod)

/-- An opened file system: the host's file, whether it is open for writing, and the copy of block 1. -/
structure Image where
  blk : ℕ → Bytes
  writable : Bool
  sb : Bytes

/-- The statics that keep a block. -/
inductive Static
  | inodeblk | iblk | iiblk | dirbuf
  deriving DecidableEq, Repr

/-- The number (`none` for -1), the block, and where it is from. -/
structure Kept where
  no : Option ℕ
  buf : Bytes
  of : Option ℕ

structure Lib where
  fs : ℕ → Image
  kept : Static → Kept
  /-- what an array on the stack holds before it is filled -/
  stack : Bytes
  /-- a look has found a number of which the block is another one by now -/
  foul : Bool

/-- How a program stops before its end. -/
inductive Stop
  | lose
  | outside
  deriving DecidableEq, Repr

abbrev M := EStateM Stop Lib

inductive How
  | cached | direct
  deriving DecidableEq, Repr

/-- `struct i_node`. -/
structure Inode where
  ondisk : Bytes
  fs : ℕ
  inum : ℕ

/-! ## The on-disk inode -/

namespace Dsknod

def mode (d : Bytes) : ℕ := word d 0
def addr (d : Bytes) (k : ℕ) : ℕ := word d (4 + k)
def filesize (d : Bytes) : ℕ := (d 5).toNat * 65536 + word d 3

def ialloc (d : Bytes) : Bool := (mode d).testBit 15
def ilarg (d : Bytes) : Bool := (mode d).testBit 12
def iio (d : Bytes) : Bool := (mode d).testBit 13

def setMode (d : Bytes) (v : ℕ) : Bytes := setWord d 0 v
def setAddr (d : Bytes) (k v : ℕ) : Bytes := setWord d (4 + k) v
def setSize (d : Bytes) (v : ℕ) : Bytes :=
  setWord (Function.update d 5 (UInt8.ofNat (v / 65536))) 3 v

end Dsknod

namespace Inode

def addr (ip : Inode) (k : ℕ) : ℕ := Dsknod.addr ip.ondisk k

def ilarg (ip : Inode) : Bool := Dsknod.ilarg ip.ondisk

def setAddr (ip : Inode) (k v : ℕ) : Inode := { ip with ondisk := Dsknod.setAddr ip.ondisk k v }

end Inode

/-! ## Blocks -/

namespace Lib

/-- The block as `readblk` gets it; block 0 is zeros. -/
def block (s : Lib) (f b : ℕ) : Bytes :=
  if b = 0 then zero else (s.fs f).blk b

def setSb (s : Lib) (f : ℕ) (sb : Bytes) : Lib :=
  { s with fs := Function.update s.fs f { s.fs f with sb := sb } }

def setKept (s : Lib) (c : Static) (k : Kept) : Lib :=
  { s with kept := Function.update s.kept c k }

/-- The block is written; who keeps it keeps the old one. -/
def put (s : Lib) (f b : ℕ) (buf : Bytes) : Lib :=
  { s with
    fs := Function.update s.fs f { s.fs f with blk := Function.update (s.fs f).blk b buf }
    kept := fun c =>
      if (s.kept c).no = some b ∧ (s.kept c).of = some f then { s.kept c with of := none }
      else s.kept c }

end Lib

def lose {α : Type} : M α := fun s => .error .lose s

def outside {α : Type} : M α := fun s => .error .outside s

def superblock (f : ℕ) : M Bytes := fun s => .ok (s.fs f).sb s

def setSuper (f : ℕ) (sb : Bytes) : M Unit := fun s => .ok () (s.setSb f sb)

def readblk (f b : ℕ) : M Bytes := fun s => .ok (s.block f b) s

def writeblk (f b : ℕ) (buf : Bytes) : M Unit := fun s =>
  if b = 0 ∨ (s.fs f).writable = false then .error .lose s else .ok () (s.put f b buf)

/-- What `buf[256]` holds. -/
def junk : M Bytes := fun s => .ok s.stack s

/-- Look for block `b` in a static, and read it if its number is another one. -/
def look (how : How) (c : Static) (f b : ℕ) : M Bytes := fun s =>
  if how = .cached ∧ (s.kept c).no = some b then
    .ok (s.kept c).buf { s with foul := s.foul || (b != 0 && (s.kept c).of != some f) }
  else .ok (s.block f b) (s.setKept c ⟨some b, s.block f b, some f⟩)

/-- Fill a static and write it as block `b`. -/
def install (c : Static) (f b : ℕ) (buf : Bytes) : M Unit := do
  writeblk f b buf
  fun s => .ok () (s.setKept c ⟨some b, buf, some f⟩)

/-- Set the number to -1. -/
def forget (c : Static) : M Unit := fun s => .ok () (s.setKept c { s.kept c with no := none })

/-! ## Inodes -/

def INODES_START : ℕ := 2
def I_PER_BLK : ℕ := 16

/-- The block of an inode, and its place there. -/
def inodeBlock (inum : ℕ) : ℕ := INODES_START + (inum - 1) / I_PER_BLK
def inodeIndex (inum : ℕ) : ℕ := (inum - 1) % I_PER_BLK

def iget (how : How) (f inum : ℕ) : M Inode := do
  let buf ← look how .inodeblk f (inodeBlock inum)
  pure ⟨copyBytes buf (32 * inodeIndex inum) zero 0 32, f, inum⟩

def iput (how : How) (ip : Inode) : M Unit := do
  let buf ← look how .inodeblk ip.fs (inodeBlock ip.inum)
  install .inodeblk ip.fs (inodeBlock ip.inum)
    (copyBytes ip.ondisk 0 buf (32 * inodeIndex ip.inum) 32)

/-! ## The free list -/

/-- `balloc(fs)`.  `s_nfree` is a 16-bit number, so that the test for `i < 0` never holds. -/
def balloc (f : ℕ) : M ℕ := do
  let sb ← superblock f
  let i := (nfree sb + 65535) % 65536
  let sb := setNfree sb i
  setSuper f sb
  if i ≥ 100 then pure 0
  else if free sb i = 0 then pure 0
  else if i = 0 then
    let buf ← readblk f (free sb i)
    setSuper f (setFmod (refill sb buf))
    writeblk f (free sb i) zero
    pure (free sb i)
  else
    setSuper f (setFmod sb)
    pure (free sb i)

def bfree (f blkno : ℕ) : M Unit := do
  let sb ← superblock f
  if nfree sb ≥ 100 then
    let buf ← junk
    setSuper f (setNfree sb 0)
    writeblk f blkno (spill sb buf)
    setSuper f (setFmod (setNfree (setFree (setNfree sb 0) 0 blkno) 1))
  else setSuper f (setFmod (setNfree (setFree sb (nfree sb) blkno) (nfree sb + 1)))

/-! ## The block map -/

/-- The first eight words of an indirect block are the addresses that the inode had. -/
def convertBlock (d : Bytes) : Bytes := copyBytes d 8 zero 0 16

/-- An inode with the single address `b`, and `ILARG`. -/
def convertInode (d : Bytes) (b : ℕ) : Bytes :=
  let d := copyBytes zero 0 d 8 16
  Dsknod.setMode (Dsknod.setAddr d 0 b) (Dsknod.mode d ||| 4096)

/-- `bmap` goes over to `ILARG`. -/
def convert (how : How) (ip : Inode) : M Inode := do
  let b ← balloc ip.fs
  let ip' := { ip with ondisk := convertInode ip.ondisk b }
  install .iblk ip.fs b (convertBlock ip.ondisk)
  iput how ip'
  pure ip'

/-- The block of the `k`-th word of the indirect block `b`. -/
def indirect (how : How) (f b k : ℕ) (alloc : Bool) : M ℕ := do
  let buf ← look how .iblk f b
  if word buf k = 0 ∧ alloc then
    let new ← balloc f
    install .iblk f b (setWord buf k new)
    pure new
  else pure (word buf k)

/-- The case of `ILARG`.  For the double indirect block `iindex -= 7 * 256` leaves `iiblk[]`, and from
index 8 on there is no `d_addr[]`. -/
def bmapLarge (how : How) (ip : Inode) (lblk : ℕ) (alloc : Bool) : M (ℕ × Inode) :=
  if lblk / 256 = 7 then
    if ip.addr 7 = 0 then
      if alloc then do
        let b ← balloc ip.fs
        install .iiblk ip.fs b zero
        iput how (ip.setAddr 7 b)
        let _ ← look how .iiblk ip.fs b
        outside
      else pure (0, ip)
    else do
      let _ ← look how .iiblk ip.fs (ip.addr 7)
      outside
  else if lblk / 256 > 7 then outside
  else if ip.addr (lblk / 256) = 0 then
    if alloc then do
      let b ← balloc ip.fs
      let ip := ip.setAddr (lblk / 256) b
      iput how ip
      let r ← indirect how ip.fs b (lblk % 256) alloc
      pure (r, ip)
    else pure (0, ip)
  else do
    let r ← indirect how ip.fs (ip.addr (lblk / 256)) (lblk % 256) alloc
    pure (r, ip)

/-- `bmap(dp, offset, alloc)`, and the inode as it leaves it. -/
def bmap (how : How) (ip : Inode) (offset : ℕ) (alloc : Bool) : M (ℕ × Inode) :=
  let lblk := offset / 512
  if ip.ilarg then bmapLarge how ip lblk alloc
  else if lblk ≤ 7 then
    if ip.addr lblk = 0 ∧ alloc then do
      let b ← balloc ip.fs
      pure (b, ip.setAddr lblk b)
    else pure (ip.addr lblk, ip)
  else if alloc then do
    let ip ← convert how ip
    bmapLarge how ip lblk alloc
  else pure (0, ip)

/-! ## Freeing a file -/

/-- `iblkfree(fs, &b)`.  `iblk` is but a buffer here: `filefree` has set its number to -1. -/
def iblkfree (f b : ℕ) : M Unit :=
  if b = 0 then pure ()
  else do
    let buf ← readblk f b
    let buf ← (List.range 256).foldlM (fun buf i =>
      if word buf i = 0 then pure buf
      else do
        bfree f (word buf i)
        pure (setWord buf i 0)) buf
    writeblk f b buf
    bfree f b

/-- The blocks of a small file. -/
def freeSmall (ip : Inode) : M Inode :=
  (List.range 8).foldlM (fun ip i =>
    if ip.addr i = 0 then pure ip
    else do
      bfree ip.fs (ip.addr i)
      pure (ip.setAddr i 0)) ip

/-- The blocks of a large file.  The double indirect block itself stays. -/
def freeLarge (ip : Inode) : M Inode := do
  forget .iblk
  forget .iiblk
  let ip ← (List.range 7).foldlM (fun (ip : Inode) i => do
    iblkfree ip.fs (ip.addr i)
    pure (ip.setAddr i 0)) ip
  if ip.addr 7 = 0 then pure ip
  else do
    let buf ← readblk ip.fs (ip.addr 7)
    let buf ← (List.range 256).foldlM (fun buf i => do
      iblkfree ip.fs (word buf i)
      pure (setWord buf i 0)) buf
    writeblk ip.fs (ip.addr 7) buf
    pure ip

/-- A file of size 0 without `ILARG`. -/
def emptied (ip : Inode) : Inode :=
  let d := ip.ondisk
  let d := Dsknod.setMode d (Dsknod.mode d % 4096 + Dsknod.mode d / 8192 * 8192)
  { ip with ondisk := Dsknod.setSize d 0 }

def filefree (how : How) (ip : Inode) : M Inode :=
  if Dsknod.iio ip.ondisk then pure ip
  else (if ip.ilarg then freeLarge ip else freeSmall ip) >>= fun ip => do
    iput how (emptied ip)
    pure (emptied ip)

/-! ## Files and directories -/

/-- `fileread`, of a block: how much of it is in the file, and the block. -/
def fileread (how : How) (ip : Inode) (offset : ℕ) : M (ℕ × Bytes) := do
  let (b, _) ← bmap how ip offset false
  let buf ← readblk ip.fs b
  pure (min (Dsknod.filesize ip.ondisk - offset) 512, buf)

def filewrite (how : How) (ip : Inode) (offset : ℕ) (buf : Bytes) : M Inode := do
  let (b, ip) ← bmap how ip offset true
  writeblk ip.fs b buf
  pure ip

/-- The blocks that a file of this size begins. -/
def blocks (size : ℕ) : ℕ := (size + 511) / 512

/-- `putdir`, of the whole directory. -/
def putdir (how : How) (ip : Inode) (dir : Bytes) : M Inode :=
  (List.range (blocks (Dsknod.filesize ip.ondisk))).foldlM (fun ip i => do
    let (b, ip) ← bmap how ip (512 * i) true
    writeblk ip.fs b (fun k => dir (512 * i + k))
    pure ip) ip

/-- `getdirent`: the 16 bytes of the `i`-th entry. -/
def getdirent (how : How) (ip : Inode) (i : ℕ) : M (Option (List UInt8)) :=
  if i * 16 > Dsknod.filesize ip.ondisk then pure none
  else do
    let (b, _) ← bmap how ip (i * 16) false
    let buf ← look how .dirbuf ip.fs b
    pure (some (slice buf (16 * (i % 32)) 16))

/-! ## What is on an image after a write -/

/-- Other blocks are as before. -/
lemma Lib.put_block (s : Lib) {f b f' b' : ℕ} (buf : Bytes) (h : ¬(f' = f ∧ b' = b)) :
    (s.put f b buf).block f' b' = s.block f' b' := by
  rw [Lib.block, Lib.block, Lib.put]
  dsimp only
  rcases eq_or_ne f' f with rfl | hf
  · rw [Function.update_self]
    dsimp only
    rw [Function.update_of_ne fun e => h ⟨rfl, e⟩]
  · rw [Function.update_of_ne hf]

lemma Lib.put_block_self (s : Lib) {f b : ℕ} (buf : Bytes) (hb : b ≠ 0) :
    (s.put f b buf).block f b = buf := by
  rw [Lib.block, if_neg hb, Lib.put]
  dsimp only
  rw [Function.update_self]
  dsimp only
  rw [Function.update_self]

/-- A static is filled and its block written in one go. -/
lemma install_apply (c : Static) (f b : ℕ) (buf : Bytes) (s : Lib) :
    install c f b buf s =
      if b = 0 ∨ (s.fs f).writable = false then .error .lose s
      else .ok () ((s.put f b buf).setKept c ⟨some b, buf, some f⟩) := by
  split_ifs with hlose
  · exact Program.bind_error (if_pos hlose)
  · exact Program.bind_ok (if_neg hlose)

end Host

end Micronix
