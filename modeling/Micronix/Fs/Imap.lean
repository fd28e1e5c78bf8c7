import Micronix.Fs.Balloc

/-!
# The block map of an inode, `sys/imap.c`

`imap` translates a logical block of a file to a disk block, filling holes and converting a full
small file to large addressing on the way.  `Ptr` stands for the C `int *p` that `plug` gets: it
points into `i_addr[]` or at a word of a buffered block.
-/

namespace Micronix

open Bytes

/-- What `int *p` points at: an entry of `i_addr[]` or a word of a block. -/
inductive Ptr
  | addr (ip n : ℕ)
  | word (dev bn k : ℕ)

/-- Replace entry `n` of `i_addr[]`. -/
def Inode.setAddr (i : Inode) (n v : ℕ) : Inode :=
  { i with addr := fun m => if m = n then v else i.addr m }

namespace Sys

/-- `*p` -/
def load (s : Sys) : Ptr → ℕ
  | .addr ip n => (s.ino ip).addr n
  | .word dev bn k => Bytes.word (s.blk dev bn) k

/-- `*p = v` -/
def store (s : Sys) : Ptr → ℕ → Sys
  | .addr ip n, v => s.setIno ip ((s.ino ip).setAddr n v)
  | .word dev bn k, v => s.put dev bn (setWord (s.blk dev bn) k v)

end Sys

/-- `plug(p, dev)`: allocate a block for a hole.  The slot is tested again after `balloc`; if it
was filled meanwhile the block is given back by `bfree(bn)`, a call without its device. -/
def plug (s : Sys) (p : Ptr) (dev : ℕ) : Bool × Sys :=
  let r := balloc s dev
  if r.1 = 0 then (false, r.2)
  else if r.2.load p = 0 then (true, r.2.store p r.1)
  else (false, bfree r.2 r.1 r.2.stack)

/-- `ip->flags |= IMOD` -/
def setImod (s : Sys) (ip : ℕ) : Sys := s.setIno ip { s.ino ip with imod := true }

/-- `imapi(ip, n, rap)`: the block number in `i_addr[n]`, plugged if it is a hole, and `*rap`. -/
def imapi (s : Sys) (ip n : ℕ) : (ℕ × ℕ) × Sys :=
  let p := Ptr.addr ip n
  let s :=
    if s.load p = 0 then
      let r := plug s p (s.ino ip).dev
      if r.1 then setImod r.2 ip else r.2
    else s
  ((s.load p, if n < 7 then s.load (.addr ip (n + 1)) else 0), s)

/-- `imapb(ind, n, dev, rap)`: the number in word `n` of the indirect block `ind`. -/
def imapb (s : Sys) (ind n dev : ℕ) : (ℕ × ℕ) × Sys :=
  if ind = 0 then ((0, 0), s)
  else
    let s := s.setError none                        -- bread
    let p := Ptr.word dev ind n
    let s := if s.load p = 0 then (plug s p dev).2 else s
    ((s.load p, if n < 255 then s.load (.word dev ind (n + 1)) else 0), s)

/-- `zero(bp->data, 512); copy(ip->i_addr, bp->data, 16)`: a block that starts with the eight
addresses of the inode. -/
def addrBlock (a : ℕ → ℕ) : Bytes := fun i =>
  if i < 16 then UInt8.ofNat (if i % 2 = 0 then a (i / 2) else a (i / 2) / 256) else 0

/-- The conversion to large addressing in `imap`: the eight direct addresses move into a new
indirect block.  `false` if there is no block for it. -/
def toLarge (s : Sys) (ip dev : ℕ) : Bool × Sys :=
  let r := balloc s dev
  if r.1 = 0 then (false, r.2)
  else
    let s := r.2
    let i := s.ino ip
    let s := s.put dev r.1 (addrBlock i.addr)
    (true, s.setIno ip
      { i with addr := fun n => if n = 0 then r.1 else 0, larg := true, imod := true })

/-- The walk of `imap` in large addressing: the indirect block `i_addr[min(log >> 8, 7)]`, a second
one for a huge file, and the entry in it. -/
def imapLarge (s : Sys) (ip log dev : ℕ) : (ℕ × ℕ) × Sys :=
  let index := log / 256
  let r := imapi s ip (min index 7)
  let r := if index ≥ 7 then imapb r.2 r.1.1 (index - 7) dev else r
  imapb r.2 r.1.1 (log % 256) dev

/-- `imap(ip, log, rap)`: the physical block of logical block `log`, 0 on error, and `*rap`.
`log` is a 16-bit int, negative from 32768 on. -/
def imap (s : Sys) (ip log : ℕ) : (ℕ × ℕ) × Sys :=
  let i := s.ino ip
  if i.fmt.iio then ((log, (log + 1) % 65536), s)   -- don't map io file
  else if log ≥ 32768 then ((0, 0), s.setError (some .EFBIG))
  else if i.larg then imapLarge s ip log i.dev
  else if log < 8 then imapi s ip log
  else
    let r := toLarge s ip i.dev
    if r.1 then imapLarge r.2 ip log i.dev else ((0, 0), r.2)

end Micronix
