import Micronix.Host.Maps

/-!
# `icheck -s`

The repair of the free list: an empty one, then a block for each that no inode has.  `check` opens the
image with `openfs`, which is for reading only, so that the first block that it writes is the end of
it, and the image is what it was (`free_list_rebuild`).
-/

namespace Micronix

namespace Host

namespace Icheck

open Bytes Super Program

/-- Which blocks have been seen, `bitmap`. -/
abbrev Bitmap := ℕ → Bool

/-- `blockcheck`, whose argument has 16 bits. -/
def blockcheck (f : ℕ) (seen : Bitmap) (blkno : ℕ) : M Bitmap := do
  let sb ← superblock f
  let b := blkno % 65536
  if b < isize sb + 2 ∨ b ≥ fsize sb then pure seen
  else pure (Function.update seen b true)

/-- The same unless it is 0. -/
def blockcheckIf (f : ℕ) (seen : Bitmap) (b : ℕ) : M Bitmap :=
  if b = 0 then pure seen else blockcheck f seen b

/-- `pass`, over one inode. -/
def pass (ip : Inode) (seen : Bitmap) : M Bitmap :=
  if Dsknod.ialloc ip.ondisk = false then pure seen
  else if Dsknod.iio ip.ondisk then pure seen
  else do
    let seen ← (List.range (blocks (Dsknod.filesize ip.ondisk))).foldlM (fun seen i => do
      let (b, _) ← bmap .cached ip (512 * i) false
      blockcheckIf ip.fs seen b) seen
    if ip.ilarg = false then pure seen
    else do
      let seen ← (List.range 7).foldlM (fun seen i => blockcheckIf ip.fs seen (ip.addr i)) seen
      if ip.addr 7 = 0 then pure seen
      else do
        let seen ← blockcheck ip.fs seen (ip.addr 7)
        let buf ← readblk ip.fs (ip.addr 7)
        (List.range 256).foldlM (fun seen i => blockcheckIf ip.fs seen (word buf i)) seen

/-- `while ((b = fl[i]) != 0)`, from `i = -1` down, over the words that lie below `fl`. -/
def scan (f : ℕ) : List ℕ → Bitmap → M Bitmap
  | [], _ => outside
  | b :: below, seen =>
      if b = 0 then pure seen
      else do
        let seen ← blockcheck f seen b
        scan f below seen

def closefs (f : ℕ) : M Unit := do
  let sb ← superblock f
  if sb 410 = 0 then pure ()
  else writeblk f 1 sb

/-- `check` with `sflg`, after `openfs`. -/
def check (f : ℕ) (below : List ℕ) : M Unit := do
  let sb ← superblock f
  setSuper f (setFree (setNfree sb 0) 0 0)
  let seen ← scan f below fun _ => false
  let seen ← (List.range' 1 (isize sb * I_PER_BLK - 1)).foldlM (fun seen ino => do
    let ip ← iget .cached f ino
    pass ip seen) seen
  (List.range' (isize sb + 2) (fsize sb - (isize sb + 2))).foldlM (fun _ b =>
    if seen b then pure () else bfree f b) ()
  closefs f

/-- `openfs`: the image is open for reading. -/
def openfs (img : ℕ → Bytes) (stack : Bytes) : Lib where
  fs _ := ⟨img, false, img 1⟩
  kept c := ⟨if c = .inodeblk then some 0 else none, zero, none⟩
  stack := stack
  foul := false

/-- The image after `icheck -s`. -/
def after (img : ℕ → Bytes) (stack : Bytes) (below : List ℕ) : ℕ → Bytes :=
  ((final (check 0 below (openfs img stack))).fs 0).blk

/-! ## The image is only read -/

/-- What is not open for writing is not written. -/
def Untouched (s t : Lib) : Prop :=
  ∀ f, (s.fs f).writable = false → (t.fs f).writable = false ∧ (t.fs f).blk = (s.fs f).blk

lemma Untouched.refl (s : Lib) : Untouched s s := fun _ h => ⟨h, rfl⟩

lemma Untouched.trans (s t u : Lib) (h : Untouched s t) (h' : Untouched t u) : Untouched s u := by
  intro f hf
  obtain ⟨hw, hblk⟩ := h f hf
  obtain ⟨hw', hblk'⟩ := h' f hw
  exact ⟨hw', hblk'.trans hblk⟩

/-- The program writes nothing that is open for reading only. -/
def Reads {α : Type} (m : M α) : Prop := Keeps Untouched m

section Reads

variable {α β : Type}

lemma Reads.pure (a : α) : Reads (pure a : M α) := Keeps.pure Untouched.refl a

lemma Reads.bind {m : M α} {g : α → M β} (hm : Reads m) (hg : ∀ a, Reads (g a)) :
    Reads (m >>= g) :=
  Keeps.bind Untouched.trans hm hg

lemma Reads.ite {c : Prop} [Decidable c] {m m' : M α} (h : Reads m) (h' : Reads m') :
    Reads (if c then m else m') :=
  Keeps.ite h h'

lemma Reads.foldlM {g : β → α → M β} (h : ∀ b a, Reads (g b a)) (l : List α) (b : β) :
    Reads (l.foldlM g b) :=
  Keeps.foldlM Untouched.refl Untouched.trans h l b

lemma reads_outside : Reads (outside : M α) := Untouched.refl

lemma reads_superblock (f : ℕ) : Reads (superblock f) := Untouched.refl

lemma reads_setSuper (f : ℕ) (sb : Bytes) : Reads (setSuper f sb) := by
  intro s f' hf'
  change ((s.setSb f sb).fs f').writable = false ∧ ((s.setSb f sb).fs f').blk = (s.fs f').blk
  rw [Lib.setSb]
  dsimp only
  rcases eq_or_ne f' f with rfl | hne
  · rw [Function.update_self]
    exact ⟨hf', rfl⟩
  · rw [Function.update_of_ne hne]
    exact ⟨hf', rfl⟩

lemma reads_readblk (f b : ℕ) : Reads (readblk f b) := Untouched.refl

lemma reads_junk : Reads junk := Untouched.refl

/-- A block of another file system may be written. -/
lemma reads_writeblk (f b : ℕ) (buf : Bytes) : Reads (writeblk f b buf) := by
  intro s
  rw [writeblk]
  split_ifs with hlose
  · exact Untouched.refl s
  · intro f' hf'
    have hne : f' ≠ f := fun e => hlose (Or.inr (e ▸ hf'))
    change ((s.put f b buf).fs f').writable = false ∧ ((s.put f b buf).fs f').blk = (s.fs f').blk
    rw [Lib.put]
    dsimp only
    rw [Function.update_of_ne hne]
    exact ⟨hf', rfl⟩

lemma reads_look (how : How) (c : Static) (f b : ℕ) : Reads (look how c f b) := by
  intro s
  rw [look]
  split_ifs <;> exact Untouched.refl s

lemma reads_install (c : Static) (f b : ℕ) (buf : Bytes) : Reads (install c f b buf) :=
  .bind (reads_writeblk f b buf) fun _ => Untouched.refl

lemma reads_iget (how : How) (f inum : ℕ) : Reads (iget how f inum) :=
  .bind (reads_look _ _ _ _) fun _ => .pure _

lemma reads_iput (how : How) (ip : Inode) : Reads (iput how ip) :=
  .bind (reads_look _ _ _ _) fun _ => reads_install _ _ _ _

lemma reads_balloc (f : ℕ) : Reads (balloc f) := by
  refine .bind (reads_superblock f) fun sb => .bind (reads_setSuper f _) fun _ => ?_
  refine .ite (.pure _) (.ite (.pure _) (.ite ?_ ?_))
  · refine .bind (reads_readblk f _) fun buf => .bind (reads_setSuper f _) fun _ => ?_
    exact .bind (reads_writeblk f _ _) fun _ => .pure _
  · exact .bind (reads_setSuper f _) fun _ => .pure _

lemma reads_bfree (f b : ℕ) : Reads (bfree f b) := by
  refine .bind (reads_superblock f) fun sb => .ite ?_ (reads_setSuper f _)
  refine .bind reads_junk fun buf => .bind (reads_setSuper f _) fun _ => ?_
  exact .bind (reads_writeblk f b _) fun _ => reads_setSuper f _

lemma reads_convert (how : How) (ip : Inode) : Reads (convert how ip) := by
  refine .bind (reads_balloc _) fun b => .bind (reads_install _ _ _ _) fun _ => ?_
  exact .bind (reads_iput _ _) fun _ => .pure _

lemma reads_indirect (how : How) (f b k : ℕ) (alloc : Bool) : Reads (indirect how f b k alloc) := by
  refine .bind (reads_look _ _ _ _) fun buf => .ite ?_ (.pure _)
  exact .bind (reads_balloc f) fun new => .bind (reads_install _ _ _ _) fun _ => .pure _

lemma reads_bmapLarge (how : How) (ip : Inode) (lblk : ℕ) (alloc : Bool) :
    Reads (bmapLarge how ip lblk alloc) := by
  refine .ite (.ite (.ite ?_ (.pure _)) ?_) (.ite reads_outside (.ite (.ite ?_ (.pure _)) ?_))
  · refine .bind (reads_balloc _) fun b => .bind (reads_install _ _ _ _) fun _ => ?_
    exact .bind (reads_iput _ _) fun _ => .bind (reads_look _ _ _ _) fun _ => reads_outside
  · exact .bind (reads_look _ _ _ _) fun _ => reads_outside
  · refine .bind (reads_balloc _) fun b => .bind (reads_iput _ _) fun _ => ?_
    exact .bind (reads_indirect _ _ _ _ _) fun _ => .pure _
  · exact .bind (reads_indirect _ _ _ _ _) fun _ => .pure _

lemma reads_bmap (how : How) (ip : Inode) (offset : ℕ) (alloc : Bool) :
    Reads (bmap how ip offset alloc) := by
  refine .ite (reads_bmapLarge _ _ _ _) (.ite (.ite ?_ (.pure _)) (.ite ?_ (.pure _)))
  · exact .bind (reads_balloc _) fun _ => .pure _
  · exact .bind (reads_convert _ _) fun _ => reads_bmapLarge _ _ _ _

end Reads

/-! ## The steps of `check` -/

lemma reads_blockcheck (f : ℕ) (seen : Bitmap) (b : ℕ) : Reads (blockcheck f seen b) :=
  .bind (reads_superblock f) fun _ => .ite (.pure _) (.pure _)

lemma reads_blockcheckIf (f : ℕ) (seen : Bitmap) (b : ℕ) : Reads (blockcheckIf f seen b) :=
  .ite (.pure _) (reads_blockcheck f seen b)

lemma reads_pass (ip : Inode) (seen : Bitmap) : Reads (pass ip seen) := by
  refine .ite (.pure _) (.ite (.pure _) (.bind (.foldlM (fun seen i => ?_) _ _) fun seen => ?_))
  · exact .bind (reads_bmap _ _ _ _) fun _ => reads_blockcheckIf _ _ _
  · refine .ite (.pure _) (.bind (.foldlM (fun _ _ => reads_blockcheckIf _ _ _) _ _) fun seen => ?_)
    refine .ite (.pure _) (.bind (reads_blockcheck _ _ _) fun seen => ?_)
    exact .bind (reads_readblk _ _) fun buf => .foldlM (fun _ _ => reads_blockcheckIf _ _ _) _ _

lemma reads_scan (f : ℕ) (below : List ℕ) (seen : Bitmap) : Reads (scan f below seen) := by
  induction below generalizing seen with
  | nil => exact reads_outside
  | cons b below ih => exact .ite (.pure _) (.bind (reads_blockcheck f seen b) fun seen => ih seen)

lemma reads_closefs (f : ℕ) : Reads (closefs f) :=
  .bind (reads_superblock f) fun _ => .ite (.pure _) (reads_writeblk _ _ _)

lemma reads_check (f : ℕ) (below : List ℕ) : Reads (check f below) := by
  refine .bind (reads_superblock f) fun sb => .bind (reads_setSuper f _) fun _ => ?_
  refine .bind (reads_scan f below _) fun seen => ?_
  refine .bind (.foldlM (fun seen ino => ?_) _ _) fun seen => ?_
  · exact .bind (reads_iget _ _ _) fun ip => reads_pass ip seen
  · refine .bind (.foldlM (fun _ b => ?_) _ _) fun _ => reads_closefs f
    exact .ite (.pure _) (reads_bfree f b)

/-- **`icheck -s` changes nothing.** -/
lemma after_eq (img : ℕ → Bytes) (stack : Bytes) (below : List ℕ) : after img stack below = img :=
  (reads_check 0 below (openfs img stack) 0 rfl).2

/-! ## A free list that is right -/

/-- A stack of `n` entries that stands for the list `L` and ends in a 0. -/
def Ends (blk : ℕ → Bytes) : ℕ → (ℕ → ℕ) → List ℕ → Prop
  | n, free, [] => 0 < n ∧ n ≤ 100 ∧ free (n - 1) = 0
  | n, free, b :: L =>
      0 < n ∧ n ≤ 100 ∧ free (n - 1) = b ∧ b ≠ 0 ∧
        if n = 1 then Ends blk (word (blk b) 0) (fun k => word (blk b) (1 + k)) L
        else Ends blk (n - 1) free L

/-- An allocated inode has the block `b`, for data, as indirect or as double indirect block. -/
def Used (img : ℕ → Bytes) (b : ℕ) : Prop :=
  ∃ inum, Live img (img 1) inum ∧ b ≠ 0 ∧
    (Meta img (dsknod img inum) b ∨ ∃ l, mapOf img (dsknod img inum) l = b)

/-- The free list ends in its 0, its counts are in range, and it has each block that no allocated inode
has, once. -/
def Right (img : ℕ → Bytes) : Prop :=
  ∃ L, Ends img (nfree (img 1)) (free (img 1)) L ∧ L.Nodup ∧
    ∀ b, b ∈ L ↔ InRange (img 1) b ∧ ¬Used img b

/-- The free list is right after `icheck -s` if and only if it was before. -/
theorem free_list_rebuild (img : ℕ → Bytes) (stack : Bytes) (below : List ℕ) :
    Right (after img stack below) ↔ Right img := by
  rw [after_eq]

/-- Three blocks for files, of which none is free and none is used. -/
def lost : ℕ → Bytes :=
  fun b => if b = 1 then setNfree (setWord (setWord zero 0 1) 1 6) 1 else zero

/-- No inode is allocated there. -/
lemma lost_unused (b : ℕ) : ¬Used lost b := by
  rintro ⟨inum, ⟨-, -, halloc, -⟩, -⟩
  have hge := inodeBlock_ge inum
  have hblock : lost (inodeBlock inum) = zero := if_neg (by omega)
  have hzero : dsknod lost inum = zero := by
    funext k
    rw [dsknod, hblock, copyBytes]
    exact ite_self _
  rw [hzero] at halloc
  exact absurd halloc (by decide)

lemma lost_not_right : ¬Right lost := by
  rintro ⟨L, hends, -, hmem⟩
  cases L with
  | nil =>
      have h3 : InRange (lost 1) 3 := by decide
      exact List.not_mem_nil ((hmem 3).mpr ⟨h3, lost_unused 3⟩)
  | cons b L =>
      have hfree : free (lost 1) (nfree (lost 1) - 1) = 0 := by decide
      exact hends.2.2.2.1 (hends.2.2.1 ▸ hfree)

/-- **Blocks that stay lost.**  `bfree` has the superblock written in the end, which fails, and the
image is as it was. -/
theorem lost_stays_lost :
    (match check 0 [0] (openfs lost zero) with
      | .ok _ _ => none
      | .error e _ => some e) = some Stop.lose ∧
    ¬Right (after lost zero [0]) := by
  refine ⟨by decide +kernel, ?_⟩
  rw [after_eq]
  exact lost_not_right

end Icheck

end Host

end Micronix
