import Micronix.Lib.Bytes
import Mathlib.Tactic.Common

/-!
# The state the file-system routines work on

The routines of `balloc.c`, `imap.c`, `ialloc.c` and `fio.c` see four things: 512-byte blocks by
device and block number, the in-core inodes, `u.error` and the clock.  Here the buffer cache is a
faithful array: `bread` and `bget` give the current contents of a block and every way of
releasing a changed buffer (`bdwrite`, `bawrite`, or just letting go of it) stores it.  The cache
itself is the subject of `Micronix.Cache`.

Numbers the kernel keeps in 16 bits are naturals; where its arithmetic can wrap, the wrap is
written out (`% 65536`).
-/

namespace Micronix

/-- The values of `u.error` that the modelled routines set. -/
inductive Errno
  | EPERM
  | ENOENT
  | EIO
  | ENXIO
  | EACCES
  | EEXIST
  | EXDEV
  | ENOTDIR
  | EISDIR
  | ENFILE
  | EFBIG
  | ENOSPC
  | EROFS
  | EMLINK
  deriving DecidableEq, Repr

/-- The inode type, `i_mode & IFMT`. -/
inductive Ifmt
  | IFREG
  | IFCHR
  | IFDIR
  | IFBLK
  deriving DecidableEq, Repr

/-- The `IIO` bit: character and block special files have it. -/
def Ifmt.iio : Ifmt → Bool
  | IFCHR | IFBLK => true
  | IFREG | IFDIR => false

/-- The in-core inode, as far as the block map and file i/o use it.  `addr` is `i_addr[8]`,
`larg` the `ILARG` bit of `i_mode`. -/
structure Inode where
  dev : ℕ
  fmt : Ifmt
  larg : Bool
  addr : ℕ → ℕ
  size : ℕ
  rtime : ℕ
  mtime : ℕ
  imod : Bool
  ironly : Bool
  ipipe : Bool

/-- The state.  `blk d n` is block `n` of device `d`; `ino` gives the in-core inode at a slot;
`stack` is the word that a call with a missing argument finds where the argument should be. -/
structure Sys where
  blk : ℕ → ℕ → Bytes
  ino : ℕ → Inode
  error : Option Errno
  seconds : ℕ
  stack : ℕ

namespace Sys

/-- Store block `bn` of device `dev`. -/
def put (s : Sys) (dev bn : ℕ) (b : Bytes) : Sys :=
  { s with blk := fun d n => if d = dev ∧ n = bn then b else s.blk d n }

/-- Change the in-core inode at slot `ip`. -/
def setIno (s : Sys) (ip : ℕ) (i : Inode) : Sys :=
  { s with ino := fun k => if k = ip then i else s.ino k }

/-- Set `u.error`. -/
def setError (s : Sys) (e : Option Errno) : Sys := { s with error := e }

@[simp] lemma put_ino (s : Sys) (d n : ℕ) (b : Bytes) : (s.put d n b).ino = s.ino := rfl
@[simp] lemma put_error (s : Sys) (d n : ℕ) (b : Bytes) : (s.put d n b).error = s.error := rfl
@[simp] lemma put_seconds (s : Sys) (d n : ℕ) (b : Bytes) : (s.put d n b).seconds = s.seconds := rfl
@[simp] lemma put_stack (s : Sys) (d n : ℕ) (b : Bytes) : (s.put d n b).stack = s.stack := rfl
@[simp] lemma setIno_blk (s : Sys) (k : ℕ) (i : Inode) : (s.setIno k i).blk = s.blk := rfl
@[simp] lemma setIno_error (s : Sys) (k : ℕ) (i : Inode) : (s.setIno k i).error = s.error := rfl
@[simp] lemma setIno_seconds (s : Sys) (k : ℕ) (i : Inode) :
    (s.setIno k i).seconds = s.seconds := rfl
@[simp] lemma setError_blk (s : Sys) (e : Option Errno) : (s.setError e).blk = s.blk := rfl
@[simp] lemma setError_ino (s : Sys) (e : Option Errno) : (s.setError e).ino = s.ino := rfl
@[simp] lemma setError_error (s : Sys) (e : Option Errno) : (s.setError e).error = e := rfl
@[simp] lemma setError_seconds (s : Sys) (e : Option Errno) :
    (s.setError e).seconds = s.seconds := rfl

@[simp] lemma put_blk_self (s : Sys) (d n : ℕ) (b : Bytes) : (s.put d n b).blk d n = b :=
  if_pos ⟨rfl, rfl⟩

lemma put_blk_ne {s : Sys} {d n d' n' : ℕ} {b : Bytes} (h : ¬(d' = d ∧ n' = n)) :
    (s.put d n b).blk d' n' = s.blk d' n' :=
  if_neg h

/-- On the same device, only the block stored changes. -/
lemma put_blk_other {s : Sys} {d n n' : ℕ} {b : Bytes} (h : n' ≠ n) :
    (s.put d n b).blk d n' = s.blk d n' :=
  put_blk_ne fun e => h e.2

@[simp] lemma setIno_ino_self (s : Sys) (k : ℕ) (i : Inode) : (s.setIno k i).ino k = i :=
  if_pos rfl

lemma setIno_ino_ne {s : Sys} {k k' : ℕ} {i : Inode} (h : k' ≠ k) :
    (s.setIno k i).ino k' = s.ino k' :=
  if_neg h

end Sys

/-! ## The superblock

Block 1 of a file system, read in place through the word view.  The layout is that of
`struct super`: `s_isize`, `s_fsize`, `s_nfree`, `s_free[100]`, `s_ninode`, `s_inode[100]` and
then the byte `s_flock` at offset 408.
-/

namespace Super

open Bytes

def isize (sb : Bytes) : ℕ := word sb 0
def fsize (sb : Bytes) : ℕ := word sb 1
def nfree (sb : Bytes) : ℕ := word sb 2
def free (sb : Bytes) (k : ℕ) : ℕ := word sb (3 + k)
def flock (sb : Bytes) : Bool := sb 408 != 0

def setNfree (sb : Bytes) (v : ℕ) : Bytes := setWord sb 2 v
def setFree (sb : Bytes) (k v : ℕ) : Bytes := setWord sb (3 + k) v

@[simp] lemma nfree_setNfree {sb : Bytes} {v : ℕ} (h : v < 65536) : nfree (setNfree sb v) = v :=
  word_setWord_self h

@[simp] lemma free_setNfree (sb : Bytes) (v k : ℕ) : free (setNfree sb v) k = free sb k :=
  word_setWord_ne (by omega)

@[simp] lemma isize_setNfree (sb : Bytes) (v : ℕ) : isize (setNfree sb v) = isize sb :=
  word_setWord_ne (by omega)

@[simp] lemma fsize_setNfree (sb : Bytes) (v : ℕ) : fsize (setNfree sb v) = fsize sb :=
  word_setWord_ne (by omega)

@[simp] lemma nfree_setFree (sb : Bytes) (k v : ℕ) : nfree (setFree sb k v) = nfree sb :=
  word_setWord_ne (by omega)

lemma free_setFree {sb : Bytes} {k v : ℕ} (h : v < 65536) (j : ℕ) :
    free (setFree sb k v) j = if j = k then v else free sb j := by
  rw [free, setFree, word_setWord h]
  simp only [Nat.add_left_cancel_iff]
  rfl

@[simp] lemma isize_setFree (sb : Bytes) (k v : ℕ) : isize (setFree sb k v) = isize sb :=
  word_setWord_ne (by omega)

@[simp] lemma fsize_setFree (sb : Bytes) (k v : ℕ) : fsize (setFree sb k v) = fsize sb :=
  word_setWord_ne (by omega)

end Super

namespace Sys

/-- The device's superblock. -/
def sb (s : Sys) (dev : ℕ) : Bytes := s.blk dev 1

@[simp] lemma setError_sb (s : Sys) (e : Option Errno) (dev : ℕ) :
    (s.setError e).sb dev = s.sb dev := rfl
@[simp] lemma setIno_sb (s : Sys) (k : ℕ) (i : Inode) (dev : ℕ) :
    (s.setIno k i).sb dev = s.sb dev := rfl
@[simp] lemma put_sb_self (s : Sys) (dev : ℕ) (b : Bytes) : (s.put dev 1 b).sb dev = b :=
  put_blk_self s dev 1 b

lemma put_sb_other {s : Sys} {dev n : ℕ} {b : Bytes} (h : n ≠ 1) :
    (s.put dev n b).sb dev = s.sb dev :=
  put_blk_other h.symm

end Sys

end Micronix
