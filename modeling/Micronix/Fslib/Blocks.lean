import Micronix.Fs.FreeList
import Micronix.Fs.Imap

/-!
# Blocks in the host library, `lib/fslib.c`

The library works on the same file systems as the kernel, with its own `balloc`, `bfree` and `bmap`.
Its copy of the superblock is block 1, and an inode that it has read is an in-core inode.  `bmap` is
the one without allocation, `alloc == 0`.
-/

namespace Micronix

namespace Fslib

open Bytes Super

/-- `fs->s_fmod = 1` -/
def setFmod (sb : Bytes) : Bytes := fun k => if k = 410 then 1 else sb k

/-- `balloc(fs)`.  `s_nfree` is a 16-bit number, so that the test for `i < 0` never holds. -/
def balloc (s : Sys) (dev : ℕ) : ℕ × Sys :=
  let i := (nfree (s.sb dev) + 65535) % 65536
  let sup := setNfree (s.sb dev) i
  if i ≥ 100 then (0, s.put dev 1 sup)
  else
    let b := free sup i
    if b = 0 then (0, s.put dev 1 sup)
    else if i = 0 then
      (b, (s.put dev b zero).put dev 1 (setFmod (refill sup (s.blk dev b))))
    else (b, s.put dev 1 (setFmod sup))

/-- `bfree(fs, blkno)`; `junk` is what `buf[256]` holds before it is filled. -/
def bfree (s : Sys) (junk : Bytes) (blkno dev : ℕ) : Sys :=
  let sup := s.sb dev
  if nfree sup ≥ 100 then
    let s := s.put dev blkno (spill sup junk)
    s.put dev 1 (setFmod (setNfree (setFree (setNfree sup 0) 0 blkno) 1))
  else s.put dev 1 (setFmod (setNfree (setFree sup (nfree sup) blkno) (nfree sup + 1)))

/-- The cheap read cache: `iblkno`, `iblk[256]`, `iiblkno` and `iiblk[256]`; a number of -1 is
`none`. -/
structure Bcache where
  iblkno : Option ℕ
  iblk : ℕ → ℕ
  iiblkno : Option ℕ
  iiblk : ℕ → ℕ

/-- The words that lie around an array, by their distance from its start. -/
structure Around where
  addr : ℕ → UInt16
  iiblk : ℤ → UInt16

/-- `readblk(fs, blkno, buf)`, as words. -/
def readblk (s : Sys) (dev blkno k : ℕ) : ℕ := if blkno = 0 then 0 else word (s.blk dev blkno) k

/-- The end of `bmap`: word `k` of the indirect block `b`. -/
def fetch (s : Sys) (c : Bcache) (dev b k : ℕ) : ℕ × Bcache :=
  if b = 0 then (0, c)
  else
    let c := if c.iblkno = some b then c else { c with iblkno := b, iblk := readblk s dev b }
    (c.iblk k, c)

/-- `bmap(dp, offset, 0)`.  In the double indirect case it goes on with
`iindex -= 7 * 256`. -/
def bmap (a : Around) (s : Sys) (c : Bcache) (ip offset : ℕ) : ℕ × Bcache :=
  let i := s.ino ip
  let lblk := offset / 512
  if i.larg = false then (if lblk ≤ 7 then i.addr lblk else 0, c)
  else
    let iindex := lblk / 256
    if iindex = 7 then
      if i.addr 7 = 0 then (0, c)
      else
        let c := if c.iiblkno = some (i.addr 7) then c
          else { c with iiblkno := i.addr 7, iiblk := readblk s i.dev (i.addr 7) }
        let k : ℤ := (iindex : ℤ) - 7 * 256
        fetch s c i.dev (if 0 ≤ k ∧ k < 256 then c.iiblk k.toNat else (a.iiblk k).toNat) (lblk % 256)
    else fetch s c i.dev (if iindex < 8 then i.addr iindex else (a.addr iindex).toNat) (lblk % 256)

end Fslib

end Micronix
