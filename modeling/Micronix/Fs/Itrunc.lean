import Micronix.Fs.Balloc
import Micronix.Fs.Imap

/-!
# Freeing the blocks of an inode, `itrunc` and `indfree` of `sys/ialloc.c`
-/

namespace Micronix

open Bytes

/-- The loop of `indfree`: apply `f` to the words `k - 1, ..., 0` of block `ind`, reading each
word when its turn comes. -/
def indWords (f : Sys → ℕ → Sys) (ind dev : ℕ) : ℕ → Sys → Sys
  | 0, s => s
  | k + 1, s => indWords f ind dev k (f s (word (s.blk dev ind) k))

/-- `indfree(ind, level, dev)`: free everything below the `level`-th indirect block `ind`, then
`ind` itself. -/
def indfree (dev : ℕ) : ℕ → Sys → ℕ → Sys
  | 0, s, ind => if ind = 0 then s else bfree s ind dev
  | level + 1, s, ind =>
      if ind = 0 then s
      else
        let s := s.setError none                    -- bread
        bfree (indWords (indfree dev level) ind dev 256 s) ind dev

/-- `for (n = k - 1; n >= 0; n--) f(ip->i_addr[n])` -/
def addrDown (f : Sys → ℕ → Sys) (ip : ℕ) : ℕ → Sys → Sys
  | 0, s => s
  | n + 1, s => addrDown f ip n (f s ((s.ino ip).addr n))

/-- `itrunc(ip)`: free all blocks of the inode and empty it. -/
def itrunc (s : Sys) (ip : ℕ) : Sys :=
  let i := s.ino ip
  if i.fmt.iio then s
  else
    let dev := i.dev
    let s :=
      if i.larg then addrDown (indfree dev 1) ip 7 (indfree dev 2 s (i.addr 7))
      else addrDown (fun s b => bfree s b dev) ip 8 s
    let i := s.ino ip
    s.setIno ip { i with
      addr := fun _ => 0, size := 0, larg := false, imod := true, mtime := s.seconds }

end Micronix
