import Micronix.Fs.Sys

/-!
# The free list of blocks, `sys/balloc.c`

`balloc` and `bfree` as the kernel runs them.  The free list is the stack `s_free[0..s_nfree)` in
the superblock; when it runs empty the block just taken is itself the storage of the next 100
entries (`copy(fb->data, &sup->s_nfree, 202)`: a count and 100 numbers), and when it is full it is
spilled into the block being freed.
-/

namespace Micronix

open Bytes Super

/-- `bcheck`: the kernel's validity test of a file block number.  The sum is taken in 16 bits. -/
def bcheck (bn : ℕ) (sb : Bytes) : Bool :=
  (isize sb + 1) % 65536 < bn && bn < fsize sb

/-- `copy(fb->data, &sup->s_nfree, 202)`: a chain block becomes the stack. -/
def refill (sb fb : Bytes) : Bytes := copyBytes fb 0 sb 4 202

/-- `copy(&sup->s_nfree, fb->data, 202)`: the stack is spilled into a block. -/
def spill (sb fb : Bytes) : Bytes := copyBytes sb 4 fb 0 202

/-- The exits `full:` and `bad:` of `balloc`: the list is declared empty. -/
def ballocFull (s : Sys) (dev : ℕ) : ℕ × Sys :=
  (0, (s.setError (some .ENOSPC)).put dev 1 (setNfree (s.sb dev) 0))

/-- `balloc(dev)`: take a block from the free list and zero it.  Returns 0 on failure. -/
def balloc (s : Sys) (dev : ℕ) : ℕ × Sys :=
  let s := s.setError none                          -- getsb reads the superblock
  let sup := s.sb dev
  if flock sup then (0, s.setError (some .EROFS))
  else if nfree sup = 0 then ballocFull s dev
  else
    let n := nfree sup - 1
    let bn := free sup n
    let s := s.put dev 1 (setNfree sup n)           -- --sup->s_nfree
    if bn = 0 ∨ bcheck bn sup = false then ballocFull s dev
    else
      -- the last entry is the block that holds the next chunk of the list
      let s := if n = 0 then s.put dev 1 (refill (s.sb dev) (s.blk dev bn)) else s
      (bn, s.put dev bn zero)

/-- `bfree(bn, dev)`: put a block on the free list. -/
def bfree (s : Sys) (bn dev : ℕ) : Sys :=
  if bn = 0 then s
  else
    let s := s.setError none                        -- getsb
    let sup := s.sb dev
    if bcheck bn sup = false then s
    else if nfree sup = 0 then
      let sup := setNfree (setFree sup 0 0) 1
      s.put dev 1 (setNfree (setFree sup 1 bn) 2)
    else if nfree sup ≥ 100 then
      let s := s.put dev bn (spill sup (s.blk dev bn))
      let sup := setNfree (s.sb dev) 0
      s.put dev 1 (setNfree (setFree sup 0 bn) 1)
    else
      s.put dev 1 (setNfree (setFree sup (nfree sup) bn) (nfree sup + 1))

end Micronix
