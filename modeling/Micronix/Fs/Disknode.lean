import Micronix.Fs.Holes
import Micronix.Fs.Ownership
import Micronix.Inode.Iget
import Micronix.Lib.Transition

/-!
# The inode on the disk, `iio` of `sys/iget.c`

In core the size of a file has 32 bits and on the disk three bytes.  `iio` moves the 32 bytes of
`struct dsknod` and shuffles the size with `x4to3` and `x3to4`; `iwrite` lets the size follow
`u.offset`, and `imap` refuses the blocks from 2^24 bytes on, which is "just right for 24-bit file
size".  A write may still leave `u.offset` at 2^24 or beyond, and such a size is not kept.
-/

namespace Micronix

open Bytes Super

/-- The fields of an in-core inode that file i/o does not use: the inumber, `IALLOC` and the lower
bits of `i_mode`, `i_nlink`, `i_uid` and `i_gid`. -/
structure Rest where
  inum : ℕ
  alloc : Bool
  perm : Fin 4096
  nlink : UInt8
  uid : UInt8
  gid : UInt8

/-- The state, with the whole of each in-core inode; `mlook` is the mount table. -/
structure Inodes where
  sys : Sys
  rest : ℕ → Rest
  mlook : ℕ → Option Mount

/-! ## `struct dsknod` -/

/-- `i_mode & IFMT`, divided by 8192. -/
def Ifmt.code : Ifmt → ℕ
  | .IFREG => 0
  | .IFCHR => 1
  | .IFDIR => 2
  | .IFBLK => 3

/-- The type of an inode from its mode. -/
def Ifmt.ofMode (m : ℕ) : Ifmt :=
  match m / 8192 % 4 with
  | 0 => .IFREG
  | 1 => .IFCHR
  | 2 => .IFDIR
  | _ => .IFBLK

/-- `i_mode`. -/
def imode (i : Inode) (r : Rest) : ℕ :=
  r.perm.val + 4096 * i.larg.toNat + 8192 * i.fmt.code + 32768 * r.alloc.toNat

/-- The 16 words of `struct dsknod`, of which the three bytes `d_nlink`, `d_uid` and `d_gid` and the
three of the size are stored one by one.  A long has its high word first. -/
def dsknodWord (i : Inode) (r : Rest) (k : ℕ) : ℕ :=
  if k = 0 then imode i r
  else if 4 ≤ k ∧ k < 12 then i.addr (k - 4)
  else if k = 12 then i.rtime / 65536
  else if k = 13 then i.rtime
  else if k = 14 then i.mtime / 65536
  else if k = 15 then i.mtime
  else 0

/-- `struct dsknod` in the in-core inode.  The bytes of its size are those `x4to3` will store. -/
def dsknod (i : Inode) (r : Rest) : Bytes := fun b =>
  if b = 2 then r.nlink
  else if b = 3 then r.uid
  else if b = 4 then r.gid
  else UInt8.ofNat (if b % 2 = 0 then dsknodWord i r (b / 2) else dsknodWord i r (b / 2) / 256)

/-- The fields that `copy(dp, &ip->i_mode, 32)` and `x3to4` give the in-core inode. -/
def Inode.ofDsknod (i : Inode) (d : Bytes) : Inode :=
  { i with
    fmt := .ofMode (word d 0)
    larg := (word d 0).testBit 12
    addr := fun n => word d (4 + n)
    size := Ilist.x3to4 d
    rtime := word d 12 * 65536 + word d 13
    mtime := word d 14 * 65536 + word d 15
    imod := false }

/-- The same for the rest. -/
def Rest.ofDsknod (r : Rest) (d : Bytes) : Rest :=
  { r with
    alloc := (word d 0).testBit 15
    perm := ⟨word d 0 % 4096, Nat.mod_lt _ (by decide)⟩
    nlink := d 2
    uid := d 3
    gid := d 4 }

/-! ## `iio` -/

/-- `i = inum + 31`: the block of the inode is `i >> 4`, and there it has the 32 bytes from
`(i & 15) << 5` on. -/
def Rest.index (r : Rest) : ℕ := (r.inum + 31) % 65536

namespace Inodes

/-- `iio(IWRITE, ip)` with the block in hand. -/
def writeNode (s : Inodes) (m : Mount) (ip : ℕ) : Inodes :=
  let i := s.sys.ino ip
  let k := (s.rest ip).index
  let d := Ilist.x4to3 i.size (dsknod i (s.rest ip))
  let b := copyBytes d 0 (s.sys.blk i.dev (k / 16)) (k % 16 * 32) 32
  let i := { i with ironly := m.ronly, imod := false }
  { s with sys := ((s.sys.setError none).setIno ip i).put i.dev (k / 16) b }

/-- `iio(IREAD, ip)` with the block in hand. -/
def readNode (s : Inodes) (m : Mount) (ip : ℕ) : Inodes :=
  let i := s.sys.ino ip
  let k := (s.rest ip).index
  let d : Bytes := fun j => s.sys.blk i.dev (k / 16) (k % 16 * 32 + j)
  { s with
    sys := (s.sys.setError none).setIno ip (Inode.ofDsknod { i with ironly := m.ronly } d)
    rest := fun j => if j = ip then (s.rest ip).ofDsknod d else s.rest j }

/-- `iio(flag, ip)`; `write` is `flag == IWRITE`.  It panics where the device is not mounted, and
returns 0 where the inumber is bad. -/
def iio (s : Inodes) (write : Bool) (ip : ℕ) : Option (Bool × Inodes) :=
  (s.mlook (s.sys.ino ip).dev).map fun m =>
    if (s.rest ip).inum = 0 ∨ m.isize * 16 % 65536 < (s.rest ip).inum then
      (false, { s with sys := s.sys.setError (some Errno.EIO) })
    else if write then (true, s.writeNode m ip)
    else (true, s.readNode m ip)

/-- The in-core inode of slot `ip` is the same as before: its mode, link count, owner, size and block
addresses. -/
structure Same (s s' : Inodes) (ip : ℕ) : Prop where
  fmt : (s'.sys.ino ip).fmt = (s.sys.ino ip).fmt
  larg : (s'.sys.ino ip).larg = (s.sys.ino ip).larg
  alloc : (s'.rest ip).alloc = (s.rest ip).alloc
  perm : (s'.rest ip).perm = (s.rest ip).perm
  nlink : (s'.rest ip).nlink = (s.rest ip).nlink
  uid : (s'.rest ip).uid = (s.rest ip).uid
  gid : (s'.rest ip).gid = (s.rest ip).gid
  size : (s'.sys.ino ip).size = (s.sys.ino ip).size
  addr : ∀ n < 8, (s'.sys.ino ip).addr n = (s.sys.ino ip).addr n

/-- What `iio` writes it reads back. -/
def RoundTrip (s : Inodes) (ip : ℕ) : Prop :=
  ∀ s', s.iio true ip = some (true, s') →
    ∃ s'', s'.iio false ip = some (true, s'') ∧ Same s s'' ip

end Inodes

/-! ## The bytes of an inode -/

section Bytes

variable {i : Inode} {r : Rest} {d : Bytes}

lemma imode_lt (i : Inode) (r : Rest) : imode i r < 65536 := by
  have hp := r.perm.isLt
  have hl := Bool.toNat_lt i.larg
  have ha := Bool.toNat_lt r.alloc
  have hc : i.fmt.code < 4 := by cases i.fmt <;> decide
  unfold imode
  omega

lemma imode_perm (i : Inode) (r : Rest) : imode i r % 4096 = r.perm.val := by
  have hp := r.perm.isLt
  unfold imode
  omega

lemma imode_larg (i : Inode) (r : Rest) : (imode i r).testBit 12 = i.larg := by
  have hp := r.perm.isLt
  have hl := Bool.toNat_lt i.larg
  have h : imode i r / 2 ^ 12 % 2 = i.larg.toNat := by
    unfold imode
    omega
  rw [Nat.testBit_eq_decide_div_mod_eq, h]
  cases i.larg <;> rfl

lemma imode_alloc (i : Inode) (r : Rest) : (imode i r).testBit 15 = r.alloc := by
  have hp := r.perm.isLt
  have hl := Bool.toNat_lt i.larg
  have ha := Bool.toNat_lt r.alloc
  have hc : i.fmt.code < 4 := by cases i.fmt <;> decide
  have h : imode i r / 2 ^ 15 % 2 = r.alloc.toNat := by
    unfold imode
    omega
  rw [Nat.testBit_eq_decide_div_mod_eq, h]
  cases r.alloc <;> rfl

lemma imode_fmt (i : Inode) (r : Rest) : Ifmt.ofMode (imode i r) = i.fmt := by
  have hp := r.perm.isLt
  have hl := Bool.toNat_lt i.larg
  have hc : i.fmt.code < 4 := by cases i.fmt <;> decide
  have h : imode i r / 8192 % 4 = i.fmt.code := by
    unfold imode
    omega
  rw [Ifmt.ofMode, h]
  cases i.fmt <;> rfl

/-- A word of `struct dsknod` that holds none of the single bytes. -/
lemma word_dsknod {k : ℕ} (hk : k ≠ 1 ∧ k ≠ 2) (hv : dsknodWord i r k < 65536) :
    word (dsknod i r) k = dsknodWord i r k := by
  have h0 : dsknod i r (2 * k) = UInt8.ofNat (dsknodWord i r k) := by
    rw [dsknod, if_neg (by omega), if_neg (by omega), if_neg (by omega), if_pos (by omega),
      show 2 * k / 2 = k by omega]
  have h1 : dsknod i r (2 * k + 1) = UInt8.ofNat (dsknodWord i r k / 256) := by
    rw [dsknod, if_neg (by omega), if_neg (by omega), if_neg (by omega), if_neg (by omega),
      show (2 * k + 1) / 2 = k by omega]
  rw [word, h0, h1]
  simp only [UInt8.toNat_ofNat']
  omega

/-- `x4to3` changes the three bytes of the size. -/
lemma x4to3_other {size k : ℕ} (hk : k < 5 ∨ 8 ≤ k) : Ilist.x4to3 size d k = d k := by
  unfold Ilist.x4to3
  rw [if_neg (by omega), if_neg (by omega), if_neg (by omega)]

/-- Three bytes keep the size up to 2^24. -/
lemma x3to4_x4to3 (size : ℕ) (d : Bytes) :
    Ilist.x3to4 (Ilist.x4to3 size d) = size % 16777216 := by
  have h5 : Ilist.x4to3 size d 5 = UInt8.ofNat (size / 65536) := rfl
  have h6 : Ilist.x4to3 size d 6 = UInt8.ofNat size := rfl
  have h7 : Ilist.x4to3 size d 7 = UInt8.ofNat (size / 256) := rfl
  rw [Ilist.x3to4, h5, h6, h7]
  simp only [UInt8.toNat_ofNat']
  omega

/-- The words outside the size, after `x4to3`. -/
lemma word_x4to3 {size k : ℕ} (hk : k < 2 ∨ 4 ≤ k) :
    word (Ilist.x4to3 size d) k = word d k :=
  word_congr (x4to3_other (by omega)) (x4to3_other (by omega))

end Bytes

/-! ## What is read back -/

namespace Inodes

variable {s s' : Inodes} {ip : ℕ}

/-- The bytes that `iio` stores for an inode. -/
def stored (s : Inodes) (ip : ℕ) : Bytes :=
  Ilist.x4to3 (s.sys.ino ip).size (dsknod (s.sys.ino ip) (s.rest ip))

lemma writeNode_dev (s : Inodes) (m : Mount) (ip : ℕ) :
    ((s.writeNode m ip).sys.ino ip).dev = (s.sys.ino ip).dev := by
  unfold writeNode
  dsimp only
  rw [Sys.put_ino, Sys.setIno_ino_self]

/-- The block now has the bytes that were stored. -/
lemma writeNode_blk (s : Inodes) (m : Mount) (ip : ℕ) {j : ℕ} (hj : j < 32) :
    (s.writeNode m ip).sys.blk (s.sys.ino ip).dev ((s.rest ip).index / 16)
      ((s.rest ip).index % 16 * 32 + j) = s.stored ip j := by
  unfold writeNode
  dsimp only
  rw [Sys.put_blk_self, copyBytes_inside (by omega) (by omega)]
  rw [Nat.add_sub_cancel_left, Nat.zero_add]
  rfl

/-- After a write, a read succeeds, on the bytes that were stored. -/
lemma iio_write_read (h : s.iio true ip = some (true, s')) :
    ∃ m, s' = s.writeNode m ip ∧ s'.iio false ip = some (true, s'.readNode m ip) := by
  obtain ⟨m, hm, he⟩ := Option.map_eq_some_iff.mp h
  by_cases hbad : (s.rest ip).inum = 0 ∨ m.isize * 16 % 65536 < (s.rest ip).inum
  · rw [if_pos hbad] at he
    cases he
  · rw [if_neg hbad, if_pos rfl] at he
    cases he
    refine ⟨m, rfl, ?_⟩
    have hm' : (s.writeNode m ip).mlook ((s.writeNode m ip).sys.ino ip).dev = some m := by
      rw [writeNode_dev]
      exact hm
    have hrest : (s.writeNode m ip).rest = s.rest := rfl
    rw [iio, hm', Option.map_some, hrest, if_neg hbad, if_neg (by decide)]

/-- The inode that is read back comes from the bytes that were stored. -/
lemma readBack (s : Inodes) (m : Mount) (ip : ℕ) : ∃ (d : Bytes) (i : Inode),
    (∀ j < 32, d j = s.stored ip j) ∧
      ((s.writeNode m ip).readNode m ip).sys.ino ip = i.ofDsknod d ∧
      ((s.writeNode m ip).readNode m ip).rest ip = (s.rest ip).ofDsknod d := by
  refine ⟨_, _, fun j hj => ?_, Sys.setIno_ino_self _ _ _, if_pos rfl⟩
  rw [← writeNode_blk s m ip hj, writeNode_dev]
  rfl

/-- Three bytes of the size are read back. -/
lemma readBack_size (s : Inodes) (m : Mount) (ip : ℕ) :
    (((s.writeNode m ip).readNode m ip).sys.ino ip).size = (s.sys.ino ip).size % 16777216 := by
  obtain ⟨d, i, hd, hino, -⟩ := readBack s m ip
  rw [hino]
  show Ilist.x3to4 d = _
  rw [← x3to4_x4to3 _ (dsknod (s.sys.ino ip) (s.rest ip)), Ilist.x3to4, hd 5 (by decide),
    hd 6 (by decide), hd 7 (by decide)]
  rfl

/-- With a size below 2^24 the inode is read back as it was. -/
lemma readBack_same (m : Mount) (hsize : (s.sys.ino ip).size < 16777216)
    (haddr : ∀ n < 8, (s.sys.ino ip).addr n < 65536) :
    Same s ((s.writeNode m ip).readNode m ip) ip := by
  obtain ⟨d, i, hd, hino, hrest⟩ := readBack s m ip
  have hword : ∀ k, k < 2 ∨ 4 ≤ k → k < 16 →
      word d k = word (dsknod (s.sys.ino ip) (s.rest ip)) k := by
    intro k hk hk'
    have hst : word d k = word (s.stored ip) k := word_congr (hd _ (by omega)) (hd _ (by omega))
    rw [hst, stored, word_x4to3 hk]
  have hmode : word d 0 = imode (s.sys.ino ip) (s.rest ip) := by
    have h0 : dsknodWord (s.sys.ino ip) (s.rest ip) 0 = imode (s.sys.ino ip) (s.rest ip) := rfl
    rw [hword 0 (by omega) (by omega), word_dsknod (by omega) (h0 ▸ imode_lt _ _), h0]
  have haddr' : ∀ n < 8, word d (4 + n) = (s.sys.ino ip).addr n := by
    intro n hn
    have hw : dsknodWord (s.sys.ino ip) (s.rest ip) (4 + n) = (s.sys.ino ip).addr n := by
      rw [dsknodWord, if_neg (by omega), if_pos (by omega), Nat.add_sub_cancel_left]
    rw [hword (4 + n) (by omega) (by omega), word_dsknod (by omega) (hw ▸ haddr n hn), hw]
  constructor
  · rw [hino]
    exact (congrArg Ifmt.ofMode hmode).trans (imode_fmt _ _)
  · rw [hino]
    exact (congrArg (Nat.testBit · 12) hmode).trans (imode_larg _ _)
  · rw [hrest]
    exact (congrArg (Nat.testBit · 15) hmode).trans (imode_alloc _ _)
  · rw [hrest]
    exact Fin.ext ((congrArg (· % 4096) hmode).trans (imode_perm _ _))
  · rw [hrest]
    exact (hd 2 (by decide)).trans (x4to3_other (by decide))
  · rw [hrest]
    exact (hd 3 (by decide)).trans (x4to3_other (by decide))
  · rw [hrest]
    exact (hd 4 (by decide)).trans (x4to3_other (by decide))
  · rw [readBack_size, Nat.mod_eq_of_lt hsize]
  · intro n hn
    rw [hino]
    exact haddr' n hn

/-- **What three bytes keep.**  An inode that can be written is read back as it was if and only if
its size is below 2^24. -/
lemma roundTrip_iff (haddr : ∀ n < 8, (s.sys.ino ip).addr n < 65536)
    (hw : s.iio true ip = some (true, s')) :
    s.RoundTrip ip ↔ (s.sys.ino ip).size < 16777216 := by
  constructor
  · intro h
    obtain ⟨s'', hr, hsame⟩ := h s' hw
    obtain ⟨m, rfl, hr'⟩ := iio_write_read hw
    rw [hr'] at hr
    cases hr
    rw [← hsame.size, readBack_size]
    exact Nat.mod_lt _ (by decide)
  · intro hsize t ht
    obtain ⟨m, rfl, hr⟩ := iio_write_read ht
    exact ⟨_, hr, readBack_same m hsize haddr⟩

end Inodes

/-! ## The sizes that `iwrite` gives -/

/-- What the routines below `iwrite` keep of the in-core inodes: the sizes, and that block numbers
have 16 bits. -/
structure Steady (s s' : Sys) : Prop where
  size : ∀ k, (s'.ino k).size = (s.ino k).size
  narrow : ∀ k, (∀ n < 8, (s.ino k).addr n < 65536) → ∀ n < 8, (s'.ino k).addr n < 65536

section Steady

variable {s s' s'' : Sys} {dev ip n ind log : ℕ}

lemma Steady.of_ino (h : s'.ino = s.ino) : Steady s s' :=
  ⟨fun k => by rw [h], fun k => by rw [h]; exact id⟩

lemma Steady.trans (h : Steady s s') (h' : Steady s' s'') : Steady s s'' :=
  ⟨fun k => (h'.size k).trans (h.size k), fun k hk => h'.narrow k (h.narrow k hk)⟩

lemma setError_steady (s : Sys) (e : Option Errno) : Steady s (s.setError e) := .of_ino rfl

lemma put_steady (s : Sys) (d b : ℕ) (x : Bytes) : Steady s (s.put d b x) := .of_ino rfl

lemma setIno_steady {i : Inode} (hsize : i.size = (s.ino ip).size)
    (haddr : (∀ n < 8, (s.ino ip).addr n < 65536) → ∀ n < 8, i.addr n < 65536) :
    Steady s (s.setIno ip i) := by
  constructor
  · intro k
    by_cases hk : k = ip
    · rw [hk, Sys.setIno_ino_self, hsize]
    · rw [Sys.setIno_ino_ne hk]
  · intro k
    by_cases hk : k = ip
    · rw [hk, Sys.setIno_ino_self]
      exact haddr
    · rw [Sys.setIno_ino_ne hk]
      exact id

lemma balloc_lt (s : Sys) (dev : ℕ) : (balloc s dev).1 < 65536 := by
  unfold balloc ballocFull
  dsimp only
  split_ifs
  · exact Nat.zero_lt_succ _
  · exact Nat.zero_lt_succ _
  · exact Nat.zero_lt_succ _
  · exact word_lt _ _
  · exact word_lt _ _

lemma setAddr_lt {i : Inode} {v : ℕ} (hv : v < 65536) (h : ∀ n < 8, i.addr n < 65536) :
    ∀ m < 8, (i.setAddr n v).addr m < 65536 := by
  intro m hm
  unfold Inode.setAddr
  dsimp only
  split_ifs
  · exact hv
  · exact h m hm

lemma plug_steady (s : Sys) (p : Ptr) (dev : ℕ) : Steady s (plug s p dev).2 := by
  have hb : Steady s (balloc s dev).2 := .of_ino (balloc_ino s dev)
  unfold plug
  dsimp only
  split_ifs
  · exact hb
  · cases p with
    | addr ip n => exact hb.trans (setIno_steady rfl (setAddr_lt (balloc_lt s dev)))
    | word d bn k => exact hb.trans (.of_ino rfl)
  · exact hb.trans (.of_ino (bfree_ino _ _ _))

lemma imapi_steady (s : Sys) (ip n : ℕ) : Steady s (imapi s ip n).2 := by
  have hp := plug_steady s (.addr ip n) (s.ino ip).dev
  unfold imapi
  dsimp only
  split_ifs
  · exact hp.trans (setIno_steady rfl id)
  · exact hp
  · exact .of_ino rfl

lemma imapb_steady (s : Sys) (ind n dev : ℕ) : Steady s (imapb s ind n dev).2 := by
  have hp := plug_steady (s.setError none) (.word dev ind n) dev
  unfold imapb
  dsimp only
  split_ifs
  · exact .of_ino rfl
  · exact (setError_steady s none).trans hp
  · exact (setError_steady s none).trans hp
  all_goals exact setError_steady s none

lemma imapLarge_steady (s : Sys) (ip log dev : ℕ) : Steady s (imapLarge s ip log dev).2 := by
  unfold imapLarge
  dsimp only
  split_ifs
  · exact ((imapi_steady s ip _).trans (imapb_steady ..)).trans (imapb_steady ..)
  · exact (imapi_steady s ip _).trans (imapb_steady ..)

lemma toLarge_steady (s : Sys) (ip dev : ℕ) : Steady s (toLarge s ip dev).2 := by
  have hb : Steady s (balloc s dev).2 := .of_ino (balloc_ino s dev)
  unfold toLarge
  dsimp only
  split_ifs
  · exact hb
  · refine (hb.trans (put_steady ..)).trans (setIno_steady rfl fun _ n _ => ?_)
    dsimp only
    split_ifs
    · exact balloc_lt s dev
    · decide

lemma imap_steady (s : Sys) (ip log : ℕ) : Steady s (imap s ip log).2 := by
  unfold imap
  dsimp only
  split_ifs
  · exact .of_ino rfl
  · exact .of_ino rfl
  · exact imapLarge_steady ..
  · exact imapi_steady ..
  · exact (toLarge_steady ..).trans (imapLarge_steady ..)
  · exact toLarge_steady ..

lemma iwriteLoop_steady : ∀ (fuel log into : ℕ) (s : Sys) (io : Io),
    Steady s (iwriteLoop ip dev fuel log into s io).1
  | 0, _, _, _, _ => .of_ino rfl
  | fuel + 1, log, into, s, io => by
      have hi := imap_steady s ip log
      unfold iwriteLoop
      dsimp only
      split_ifs
      · exact .of_ino rfl
      · exact hi
      · exact (hi.trans (put_steady ..)).trans (iwriteLoop_steady fuel ..)
      · exact ((hi.trans (setError_steady ..)).trans (put_steady ..)).trans
          (iwriteLoop_steady fuel ..)

variable (dev ip) in
/-- The loop leaves `u.offset` after some of the bytes it was asked for. -/
lemma iwriteLoop_advance : ∀ (fuel log into : ℕ) (s : Sys) (io : Io), io.offset < 4294967296 →
    ∃ n ≤ io.count, (iwriteLoop ip dev fuel log into s io).2 = io.advance n
  | 0, _, _, _, _, hof => ⟨0, Nat.zero_le _, (Io.advance_zero hof).symm⟩
  | fuel + 1, log, into, s, io, hof => by
      have hrest : ∀ (t : Sys) (n : ℕ), n ≤ io.count → ∃ m ≤ io.count,
          (iwriteLoop ip dev fuel ((log + 1) % 65536) 0 t (io.advance n)).2 = io.advance m := by
        intro t n hn
        obtain ⟨m, hm, he⟩ := iwriteLoop_advance fuel ((log + 1) % 65536) 0 t (io.advance n)
          (Nat.mod_lt _ (by decide))
        have hc : (io.advance n).count = io.count - n := rfl
        exact ⟨n + m, by omega, he.trans (Io.advance_advance ..)⟩
      unfold iwriteLoop
      dsimp only
      split_ifs
      · exact ⟨0, Nat.zero_le _, (Io.advance_zero hof).symm⟩
      · exact ⟨0, Nat.zero_le _, (Io.advance_zero hof).symm⟩
      · exact hrest _ _ (Nat.min_le_left ..)
      · exact hrest _ _ (Nat.min_le_left ..)

/-- A write to a block special file moves all its bytes. -/
lemma iwriteLoop_raw_all : ∀ (fuel log into : ℕ) (s : Sys) (io : Io), io.count ≤ fuel → into < 512 →
    io.offset < 4294967296 → (s.ino ip).fmt.iio = true → s.error = none →
      (iwriteLoop ip dev fuel log into s io).2 = io.advance io.count
  | 0, _, _, _, io, hc, _, hof, _, _ => by
      rw [Nat.le_zero.mp hc]
      exact (Io.advance_zero hof).symm
  | fuel + 1, log, into, s, io, hc, hinto, hof, hio, he => by
      by_cases h0 : io.count = 0
      · rw [iwriteLoop, if_pos h0, h0]
        exact (Io.advance_zero hof).symm
      · set n := min io.count (512 - into) with hn
        have hcnt : (io.advance n).count = io.count - n := rfl
        have hrest : ∀ t : Sys, t.ino = s.ino → t.error = none →
            (iwriteLoop ip dev fuel ((log + 1) % 65536) 0 t (io.advance n)).2
              = io.advance io.count := by
          intro t ht hte
          rw [iwriteLoop_raw_all fuel _ 0 t (io.advance n) (by omega) (by decide)
            (Nat.mod_lt _ (by decide)) (by rw [ht, hio]) hte, Io.advance_advance, hcnt,
            Nat.add_sub_cancel' (Nat.min_le_left ..)]
        rw [iwriteLoop, if_neg h0]
        simp only [imap_iio hio, he, ne_eq, not_true_eq_false, if_false, writeTurn_eq s _ he]
        exact hrest _ rfl he

lemma indfree_ino : ∀ (level : ℕ) (s : Sys) (ind : ℕ), (indfree dev level s ind).ino = s.ino
  | 0, s, ind => by
      rw [indfree]
      split_ifs
      · rfl
      · exact bfree_ino ..
  | level + 1, s, ind => by
      have hwords : ∀ (k : ℕ) (t : Sys), (indWords (indfree dev level) ind dev k t).ino = t.ino := by
        intro k
        induction k with
        | zero => exact fun t => rfl
        | succ k ih =>
            intro t
            rw [indWords, ih, indfree_ino level]
      rw [indfree]
      dsimp only
      split_ifs
      · rfl
      · rw [bfree_ino, hwords]
        rfl

lemma addrDown_ino {f : Sys → ℕ → Sys} (hf : ∀ s b, (f s b).ino = s.ino) :
    ∀ (k : ℕ) (s : Sys), (addrDown f ip k s).ino = s.ino
  | 0, _ => rfl
  | k + 1, s => by rw [addrDown, addrDown_ino hf k, hf]

/-- The walk of `itrunc` changes no inode. -/
lemma freeAll_ino (s : Sys) (ip : ℕ) : (freeAll s ip).ino = s.ino := by
  unfold freeAll
  dsimp only
  split_ifs
  · rw [addrDown_ino (indfree_ino 1), indfree_ino]
  · rw [addrDown_ino fun s b => bfree_ino ..]

end Steady

/-- One more than the largest size that three bytes hold. -/
def sizeLimit : ℕ := 16777216

/-- The sizes fit in three bytes, and the block numbers in a word. -/
def Stores (s : Sys) : Prop :=
  ∀ k, (s.ino k).size < sizeLimit ∧ ∀ n < 8, (s.ino k).addr n < 65536

section Sizes

variable {drv : CharDriver} {s s' : Sys} {ip : ℕ} {io : Io}

/-- **The size follows `u.offset`**, and nothing else of the map gets wider. -/
lemma iwrite_nodes (drv : CharDriver) (s : Sys) (ip : ℕ) (io : Io) (k : ℕ) :
    ((iwrite drv s ip io).2.1.ino k).size = (if k = ip ∧ io.count ≠ 0
        then max (s.ino ip).size (iwrite drv s ip io).2.2.offset else (s.ino k).size) ∧
      ((∀ n < 8, (s.ino k).addr n < 65536) →
        ∀ n < 8, ((iwrite drv s ip io).2.1.ino k).addr n < 65536) := by
  have htouch : ∀ (t : Sys) (o : ℕ), Steady s t →
      ((touchWrite t ip o).ino k).size =
          (if k = ip then max (s.ino ip).size o else (s.ino k).size) ∧
        ((∀ n < 8, (s.ino k).addr n < 65536) →
          ∀ n < 8, ((touchWrite t ip o).ino k).addr n < 65536) := by
    intro t o ht
    have htt := touchWrite_touched t ip o
    constructor
    · by_cases hk : k = ip
      · rw [if_pos hk, hk, touchWrite_size, ht.size]
      · rw [if_neg hk, htt.other k hk, ht.size]
    · intro ha n hn
      rw [(htt.sameMap k).2.2.2]
      exact ht.narrow k ha n hn
  by_cases h0 : io.count = 0
  · have hi : iwrite drv s ip io = (0, s, io) := by simp [iwrite, h0]
    rw [hi, if_neg fun e => e.2 h0]
    exact ⟨rfl, id⟩
  · have hk : (k = ip ∧ io.count ≠ 0) ↔ k = ip := and_iff_left h0
    simp only [hk]
    unfold iwrite
    dsimp only
    rw [if_neg h0]
    by_cases hchr : (s.ino ip).fmt = .IFCHR
    · rw [if_pos hchr]
      exact htouch _ _ (setError_steady ..)
    · rw [if_neg hchr]
      exact htouch _ _ (iwriteLoop_steady ..)

/-- `itrunc` empties the inode. -/
lemma itrunc_nodes (h : Stores s) : Stores (itrunc s ip) := by
  by_cases hio : (s.ino ip).fmt.iio = true
  · have hi : itrunc s ip = s := by simp [itrunc, hio]
    rw [hi]
    exact h
  · rw [itrunc_eq (by simpa using hio)]
    intro k
    by_cases hk : k = ip
    · rw [hk, Sys.setIno_ino_self]
      exact ⟨Nat.zero_lt_succ _, fun n _ => Nat.zero_lt_succ _⟩
    · rw [Sys.setIno_ino_ne hk, freeAll_ino]
      exact h k

/-- The write ends below 2^24.  A driver says itself where it ends and a block special file takes all
bytes.  A mapped file takes those for which there are blocks: in a sound file system the holes tell
how many these are, and otherwise it should not matter. -/
def Fits (drv : CharDriver) (s : Sys) (ip : ℕ) (io : Io) : Prop :=
  let i := s.ino ip
  match i.fmt with
  | .IFCHR => (drv.cwrite (i.addr 0) io).1.offset < sizeLimit
  | .IFBLK => (io.advance io.count).offset < sizeLimit
  | .IFREG | .IFDIR =>
      (∀ n ≤ io.count, (io.advance n).offset < sizeLimit) ∨
        ∃ L F, Owned s i.dev L F ∧ (io.advance ((holesOf s i.dev ip L).moves io.count
          (io.offset / 512 % 65536) (io.offset % 512) io.count)).offset < sizeLimit

/-- Where a write of a mapped file ends. -/
lemma iwrite_loop (h0 : io.count ≠ 0) (hchr : (s.ino ip).fmt ≠ .IFCHR) :
    (iwrite drv s ip io).2.2 = (iwriteLoop ip (ioDev (s.ino ip)) io.count
      (io.offset / 512 % 65536) (io.offset % 512) s io).2 := by
  simp [iwrite, h0, hchr]

/-- In a sound file system the holes tell where it ends. -/
lemma iwrite_moves {dev : ℕ} {L : List ℕ} {F : Set ℕ} (h0 : io.count ≠ 0)
    (hio : (s.ino ip).fmt.iio = false) (hd : (s.ino ip).dev = dev) (ho : Owned s dev L F)
    (he : s.error = none) (hof : io.offset < 4294967296) :
    (iwrite drv s ip io).2.2 = io.advance ((holesOf s dev ip L).moves io.count
      (io.offset / 512 % 65536) (io.offset % 512) io.count) := by
  have hchr : (s.ino ip).fmt ≠ .IFCHR := by
    intro e
    rw [e] at hio
    exact absurd hio (by decide)
  have hdev : ioDev (s.ino ip) = dev := by rw [ioDev, hio, if_neg (by simp), hd]
  rw [iwrite_loop h0 hchr, hdev]
  exact iwriteLoop_moves _ _ _ (Nat.mod_lt _ (by decide)) hof ho hd hio he (looks_holesOf ..)

/-- A write to a block special file takes all bytes. -/
lemma iwrite_blk (h0 : io.count ≠ 0) (hblk : (s.ino ip).fmt = .IFBLK) (he : s.error = none)
    (hof : io.offset < 4294967296) : (iwrite drv s ip io).2.2 = io.advance io.count := by
  rw [iwrite_loop h0 (by rw [hblk]; decide)]
  exact iwriteLoop_raw_all _ _ _ _ _ le_rfl (Nat.mod_lt _ (by decide)) hof
    (by rw [hblk]; rfl) he

lemma iwrite_chr (h0 : io.count ≠ 0) (hchr : (s.ino ip).fmt = .IFCHR) :
    (iwrite drv s ip io).2.2 = (drv.cwrite ((s.ino ip).addr 0) io).1 := by
  simp [iwrite, h0, hchr]

/-- A write that fits ends below 2^24. -/
lemma Fits.offset_lt (hf : Fits drv s ip io) (h0 : io.count ≠ 0) (he : s.error = none)
    (hof : io.offset < 4294967296) : (iwrite drv s ip io).2.2.offset < sizeLimit := by
  have hmapped : ∀ (_ : (s.ino ip).fmt.iio = false),
      ((∀ n ≤ io.count, (io.advance n).offset < sizeLimit) ∨
        ∃ L F, Owned s (s.ino ip).dev L F ∧ (io.advance ((holesOf s (s.ino ip).dev ip L).moves
          io.count (io.offset / 512 % 65536) (io.offset % 512) io.count)).offset < sizeLimit) →
        (iwrite drv s ip io).2.2.offset < sizeLimit := by
    rintro hio (hall | ⟨L, F, ho, hend⟩)
    · have hchr : (s.ino ip).fmt ≠ .IFCHR := by
        intro e
        rw [e] at hio
        exact absurd hio (by decide)
      obtain ⟨n, hn, hadv⟩ := iwriteLoop_advance (ioDev (s.ino ip)) ip io.count
        (io.offset / 512 % 65536) (io.offset % 512) s io hof
      rw [iwrite_loop h0 hchr, hadv]
      exact hall n hn
    · rw [iwrite_moves h0 hio rfl ho he hof]
      exact hend
  unfold Fits at hf
  dsimp only at hf
  cases hfmt : (s.ino ip).fmt with
  | IFREG =>
      rw [hfmt] at hf
      exact hmapped (by rw [hfmt]; rfl) hf
  | IFCHR =>
      rw [hfmt] at hf
      rw [iwrite_chr h0 hfmt]
      exact hf
  | IFDIR =>
      rw [hfmt] at hf
      exact hmapped (by rw [hfmt]; rfl) hf
  | IFBLK =>
      rw [hfmt] at hf
      rw [iwrite_blk h0 hfmt he hof]
      exact hf

end Sizes

/-! ## Runs -/

namespace Inodes

/-- `ip->i_nlink = n; ip->i_flags |= IMOD;` -/
def relink (s : Inodes) (ip : ℕ) (n : UInt8) : Inodes :=
  { s with
    sys := setImod s.sys ip
    rest := fun k => if k = ip then { s.rest ip with nlink := n } else s.rest k }

/-- What `link` does to the inode. -/
def link (s : Inodes) (ip : ℕ) : Inodes :=
  if (s.rest ip).nlink = 127 then { s with sys := s.sys.setError (some .EMLINK) }
  else s.relink ip ((s.rest ip).nlink + 1)

/-- What `unlink` does to the inode. -/
def unlink (s : Inodes) (ip : ℕ) : Inodes :=
  if (s.rest ip).nlink > 0 then s.relink ip ((s.rest ip).nlink - 1) else s

/-- An operation on an inode. -/
inductive Op
  | iwrite (ip : ℕ) (x : Xfer)
  | itrunc (ip : ℕ)
  | link (ip : ℕ)
  | unlink (ip : ℕ)

/-- Run one operation; a system call starts with `u.error = 0`. -/
def step (drv : CharDriver) (s : Inodes) : Op → Option Inodes
  | .iwrite ip x => some { s with sys := (iwrite drv (s.sys.setError none) ip x.io).2.1 }
  | .itrunc ip => some { s with sys := itrunc (s.sys.setError none) ip }
  | .link ip => some (s.link ip)
  | .unlink ip => some (s.unlink ip)

/-- The inodes have been read from the disk. -/
def Start (s : Inodes) : Prop := Stores s.sys

/-- The writes of the run end below 2^24. -/
def EndsLow (drv : CharDriver) (s : Inodes) : Op → Prop
  | .iwrite ip x => x.count = 0 ∨ Fits drv (s.sys.setError none) ip x.io
  | _ => True

variable {drv : CharDriver} {s s' s'' : Inodes} {ip : ℕ}

lemma relink_stores (h : Stores s.sys) (n : UInt8) : Stores (s.relink ip n).sys := by
  intro k
  have hs : Steady s.sys (setImod s.sys ip) := setIno_steady rfl id
  refine ⟨?_, hs.narrow k (h k).2⟩
  show ((setImod s.sys ip).ino k).size < sizeLimit
  rw [hs.size]
  exact (h k).1

/-- Every operation that keeps to the limit keeps the sizes. -/
lemma step_stores {op : Op} (h : Stores s.sys) (hok : EndsLow drv s op)
    (hs : step drv s op = some s') : Stores s'.sys := by
  cases op with
  | iwrite ip x =>
      cases hs
      intro k
      obtain ⟨hsize, haddr⟩ := iwrite_nodes drv (s.sys.setError none) ip x.io k
      refine ⟨?_, haddr (h k).2⟩
      dsimp only
      rw [hsize]
      split_ifs with hk
      · obtain ⟨rfl, h0⟩ := hk
        rcases hok with hok | hok
        · exact absurd (congrArg UInt16.toNat hok) h0
        · exact max_lt (h k).1 (hok.offset_lt h0 rfl x.offset.toNat_lt)
      · exact (h k).1
  | itrunc ip =>
      cases hs
      exact itrunc_nodes h
  | link ip =>
      cases hs
      unfold link
      split_ifs
      · exact h
      · exact relink_stores h _
  | unlink ip =>
      cases hs
      unfold unlink
      split_ifs
      · exact relink_stores h _
      · exact h

/-- **The size that can be stored.**  In every run whose writes all end below 2^24, every in-core
inode is read back as it was written. -/
theorem roundTrip_kept (drv : CharDriver)
    (h : Transition.Reach (step drv) Start (EndsLow drv) s) (ip : ℕ) : s.RoundTrip ip := by
  have hst : Stores s.sys :=
    h.invariant (I := fun s => Stores s.sys) (fun _ hs => hs) fun _ _ _ hs hok he =>
      step_stores hs hok he
  intro t ht
  obtain ⟨m, rfl, hr⟩ := iio_write_read ht
  exact ⟨_, hr, readBack_same m (hst ip).1 (hst ip).2⟩

/-- The condition is exact: after a write that does not end below 2^24, in a sound file system or on a
special file, the inode is not read back. -/
lemma not_roundTrip_of_high {x : Xfer} (hs : step drv s (.iwrite ip x) = some s')
    (hno : ¬EndsLow drv s (.iwrite ip x)) (haddr : ∀ n < 8, (s.sys.ino ip).addr n < 65536)
    (hsound : (s.sys.ino ip).fmt.iio = true ∨ ∃ L F, Owned s.sys (s.sys.ino ip).dev L F)
    (hw : s'.iio true ip = some (true, s'')) : ¬s'.RoundTrip ip := by
  obtain ⟨h0, hno⟩ := not_or.mp hno
  have h0' : x.io.count ≠ 0 := fun e => h0 (UInt16.toNat_inj.mp e)
  have hof : x.io.offset < 4294967296 := x.offset.toNat_lt
  cases hs
  set t := s.sys.setError none with ht
  obtain ⟨hsize, hnarrow⟩ := iwrite_nodes drv t ip x.io ip
  rw [if_pos ⟨rfl, h0'⟩] at hsize
  have hend : sizeLimit ≤ (iwrite drv t ip x.io).2.2.offset := by
    refine Nat.le_of_not_lt fun hlt => hno ?_
    unfold Fits
    dsimp only
    cases hfmt : (t.ino ip).fmt with
    | IFCHR => rwa [iwrite_chr h0' hfmt] at hlt
    | IFBLK => rwa [iwrite_blk h0' hfmt rfl hof] at hlt
    | IFREG | IFDIR =>
        obtain hiio | ⟨L, F, ho⟩ := hsound
        · have hiio' : (t.ino ip).fmt.iio = true := hiio
          rw [hfmt] at hiio'
          cases hiio'
        · rw [iwrite_moves h0' (by rw [hfmt]; rfl) rfl (ho.setError none) rfl hof] at hlt
          exact Or.inr ⟨L, F, ho.setError none, hlt⟩
  rw [roundTrip_iff (hnarrow haddr) hw]
  dsimp only
  rw [hsize]
  exact fun hlt => absurd (lt_of_le_of_lt (le_max_right _ _) hlt) (Nat.not_lt.mpr hend)

/-! ## One file -/

/-- A device with one block of inodes, block 2, a free block, and an empty file, inode 1. -/
def oneFile : Inodes where
  sys := { smallDisk .IFREG with
    blk := fun _ n => if n = 1
      then setWord (setFree (setNfree (setWord zero 1 4) 2) 1 3) 0 1 else zero }
  rest _ := ⟨1, true, 420, 1, 0, 0⟩
  mlook _ := some ⟨1, false⟩

lemma oneFile_start : Start oneFile := fun _ => ⟨Nat.zero_lt_succ _, fun _ _ => Nat.zero_lt_succ _⟩

/-- Ten bytes written at the beginning of the file, which then gets a second link. -/
theorem oneFile_kept : ∃ s s', step nullDriver oneFile (.iwrite 0 ⟨10, 0, 0, zero⟩) = some s ∧
    step nullDriver s (.link 0) = some s' ∧ (s'.sys.ino 0).size = 10 ∧ s'.RoundTrip 0 := by
  refine ⟨_, _, rfl, rfl, by decide, roundTrip_kept nullDriver (.step (l := .link 0) (.step
    (l := .iwrite 0 ⟨10, 0, 0, zero⟩) (.start oneFile_start) (.inr (.inl ?_)) rfl) trivial rfl) 0⟩
  decide

/-- One byte at offset 2^24 is refused, and the size is 2^24. -/
theorem write_at_limit_loses_size :
    ¬∀ (drv : CharDriver) (s : Inodes), Transition.Reachable (step drv) Start s →
      ∀ ip, s.RoundTrip ip := by
  intro hall
  have hrun : step nullDriver oneFile (.iwrite 0 ⟨1, 16777216, 0, zero⟩) = some _ := rfl
  have h := hall nullDriver _ (.step (.start oneFile_start) trivial hrun) 0
  rw [roundTrip_iff (by decide) rfl] at h
  exact absurd h (by decide)

end Inodes

end Micronix
