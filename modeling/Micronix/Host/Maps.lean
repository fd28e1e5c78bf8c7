import Micronix.Fs.Place
import Micronix.Host.Library

/-!
# The block map of an on-disk inode

What an inode and the blocks of an image say about the blocks of a file, without any caches, and what
this depends on: the inode's addresses and the contents of its indirect blocks.
-/

namespace Micronix

namespace Host

open Bytes Super

/-- The on-disk inode `inum`. -/
def dsknod (blk : ℕ → Bytes) (inum : ℕ) : Bytes :=
  copyBytes (blk (inodeBlock inum)) (32 * inodeIndex inum) zero 0 32

/-- The block of logical block `l`, 0 for a hole. -/
def mapOf (blk : ℕ → Bytes) (d : Bytes) (l : ℕ) : ℕ :=
  if Dsknod.ilarg d then
    if l / 256 < 7 then sub blk (Dsknod.addr d (l / 256)) (l % 256)
    else sub blk (sub blk (Dsknod.addr d 7) (l / 256 - 7)) (l % 256)
  else if l < 8 then Dsknod.addr d l else 0

/-- `b` is an indirect or double indirect block of the inode. -/
def Meta (blk : ℕ → Bytes) (d : Bytes) (b : ℕ) : Prop :=
  b ≠ 0 ∧ Dsknod.ilarg d = true ∧
    ((∃ i < 8, Dsknod.addr d i = b) ∨ ∃ k < 256, sub blk (Dsknod.addr d 7) k = b)

/-- The inode is allocated and has a block map. -/
def Live (blk : ℕ → Bytes) (sb : Bytes) (inum : ℕ) : Prop :=
  1 ≤ inum ∧ inum ≤ I_PER_BLK * isize sb ∧ Dsknod.ialloc (dsknod blk inum) = true ∧
    Dsknod.iio (dsknod blk inum) = false

variable {blk blk' : ℕ → Bytes} {d : Bytes}

lemma sub_congr {b : ℕ} (h : b ≠ 0 → blk' b = blk b) (k : ℕ) : sub blk' b k = sub blk b k := by
  rcases eq_or_ne b 0 with rfl | hb
  · rw [Micronix.sub_zero, Micronix.sub_zero]
  · rw [sub, sub, h hb]

lemma sub_of_lt {b k : ℕ} (hb : b ≠ 0) (hk : k < 256) : sub blk b k = word (blk b) k :=
  if_pos ⟨hb, hk⟩

/-- The map follows from the inode and its indirect blocks. -/
lemma mapOf_congr (h : ∀ b, Meta blk d b → blk' b = blk b) (l : ℕ) :
    mapOf blk' d l = mapOf blk d l := by
  rw [mapOf, mapOf]
  split_ifs with hl h7 h8
  · exact sub_congr (fun hb => h _ ⟨hb, hl, Or.inl ⟨_, by omega, rfl⟩⟩) _
  · have hdouble : ∀ k, sub blk' (Dsknod.addr d 7) k = sub blk (Dsknod.addr d 7) k :=
      sub_congr fun hb => h _ ⟨hb, hl, Or.inl ⟨7, by omega, rfl⟩⟩
    rw [hdouble]
    refine sub_congr (fun hb => h _ ⟨hb, hl, Or.inr ⟨l / 256 - 7, ?_, rfl⟩⟩) _
    by_contra hk
    exact hb (if_neg fun hc => hk hc.2)
  · rfl
  · rfl

/-- Which blocks are indirect ones follows from the inode and its double indirect block. -/
lemma meta_congr (h : Dsknod.ilarg d = true → Dsknod.addr d 7 ≠ 0 →
    blk' (Dsknod.addr d 7) = blk (Dsknod.addr d 7)) (b : ℕ) : Meta blk' d b ↔ Meta blk d b := by
  rw [Meta, Meta]
  refine and_congr_right fun _ => and_congr_right fun hl => ?_
  simp only [sub_congr (h hl)]

/-! ## The words of an inode -/

section Words

open Dsknod

@[simp] lemma addr_setAddr {k v j : ℕ} (hv : v < 65536) :
    addr (setAddr d k v) j = if j = k then v else addr d j := by
  rw [addr, setAddr, word_setWord hv]
  simp [addr]

@[simp] lemma mode_setAddr (k v : ℕ) : mode (setAddr d k v) = mode d := by
  rw [mode, setAddr, word_setWord_ne (by omega)]
  rfl

@[simp] lemma ilarg_setAddr (k v : ℕ) : ilarg (setAddr d k v) = ilarg d := by
  rw [ilarg, mode_setAddr]
  rfl

/-- A converted inode: `ILARG`, and the address of the new block before zeros. -/
lemma ilarg_convert (b : ℕ) : ilarg (convertInode d b) = true := by
  have hmode : mode (copyBytes zero 0 d 8 16) ||| 4096 < 2 ^ 16 :=
    Nat.or_lt_two_pow (word_lt _ 0) (by omega)
  rw [ilarg, convertInode, mode, setMode, word_setWord_self hmode, Nat.testBit_or]
  exact Bool.or_eq_true_iff.mpr (Or.inr (by decide))

lemma addr_convert {b j : ℕ} (hb : b < 65536) (hj : j < 8) :
    addr (convertInode d b) j = if j = 0 then b else 0 := by
  have hcopy := word_copyBytes zero d 0 4 8 (4 + j)
  rw [if_pos ⟨by omega, by omega⟩, word_zero] at hcopy
  rw [addr, convertInode, setMode, word_setWord_ne (by omega)]
  change addr (setAddr (copyBytes zero 0 d 8 16) 0 b) j = _
  rw [addr_setAddr hb]
  split_ifs
  · rfl
  · exact hcopy

/-- Its first eight words are the old addresses. -/
lemma word_convertBlock (k : ℕ) : word (convertBlock d) k = if k < 8 then addr d k else 0 := by
  have h := word_copyBytes d zero 4 0 8 k
  rw [convertBlock]
  simpa [addr] using h

@[simp] lemma setAddr_fs (ip : Inode) (k v : ℕ) : (ip.setAddr k v).fs = ip.fs := rfl

@[simp] lemma setAddr_inum (ip : Inode) (k v : ℕ) : (ip.setAddr k v).inum = ip.inum := rfl

end Words

/-! ## The inodes in their block -/

lemma inodeBlock_ge (inum : ℕ) : 2 ≤ inodeBlock inum := Nat.le_add_right _ _

lemma inodeBlock_lt {sb : Bytes} {inum : ℕ} (h1 : 1 ≤ inum) (h : inum ≤ I_PER_BLK * isize sb) :
    inodeBlock inum < isize sb + 2 := by
  rw [inodeBlock, INODES_START, I_PER_BLK] at *
  omega

/-- A block for files holds no inode. -/
lemma ne_inodeBlock {sb : Bytes} {b inum : ℕ} (h1 : 1 ≤ inum) (h : inum ≤ I_PER_BLK * isize sb)
    (hb : InRange sb b) : b ≠ inodeBlock inum := by
  have hlt := inodeBlock_lt h1 h
  have hge := hb.1
  omega

/-- The other inodes of the block in which one is stored. -/
lemma dsknod_put {inum j : ℕ} (d : Bytes) (h1 : 1 ≤ inum) (hj : 1 ≤ j) (hne : j ≠ inum) :
    dsknod (Function.update blk (inodeBlock inum)
      (copyBytes d 0 (blk (inodeBlock inum)) (32 * inodeIndex inum) 32)) j = dsknod blk j := by
  rw [dsknod, dsknod]
  rcases eq_or_ne (inodeBlock j) (inodeBlock inum) with hblock | hblock
  · have hindex : inodeIndex j ≠ inodeIndex inum := by
      intro hi
      rw [inodeBlock, inodeBlock] at hblock
      rw [inodeIndex, inodeIndex] at hi
      rw [I_PER_BLK] at hblock hi
      omega
    rw [hblock, Function.update_self]
    funext k
    rcases lt_or_ge k 32 with hk | hk
    · rw [copyBytes_inside (Nat.zero_le k) (by omega), copyBytes_inside (Nat.zero_le k) (by omega)]
      exact copyBytes_outside (by omega)
    · rw [copyBytes_outside (by omega), copyBytes_outside (by omega)]
  · rw [Function.update_of_ne hblock]

lemma dsknod_congr {inum : ℕ} (h : blk' (inodeBlock inum) = blk (inodeBlock inum)) :
    dsknod blk' inum = dsknod blk inum := by
  rw [dsknod, dsknod, h]

end Host

end Micronix
