import Micronix.Fslib.FreeList
import Micronix.Host.Maps

/-!
# Blocks taken from the free list

`balloc` on an image that is open for writing, with what it does to the list (`pop`) apart from what it
does to the statics of the library (nothing).
-/

namespace Micronix

namespace Host

open Bytes Super Program
open Fslib (setFmod SameRange)

/-! ## The image -/

namespace Image

/-- The block that `balloc` returns, and the image after it. -/
def pop (im : Image) : ℕ × Image :=
  let i := (nfree im.sb + 65535) % 65536
  let sb := setNfree im.sb i
  if i ≥ 100 then (0, { im with sb := sb })
  else if free sb i = 0 then (0, { im with sb := sb })
  else if i = 0 then
    (free sb i, { im with
      sb := setFmod (refill sb (im.blk (free sb i)))
      blk := Function.update im.blk (free sb i) zero })
  else (free sb i, { im with sb := setFmod sb })

/-- The free list of the image is `L`: blocks for files, each once. -/
structure Free (im : Image) (L : List ℕ) : Prop where
  list : Represents im.blk (nfree im.sb) (free im.sb) L
  kept : Lifo.Kept (InRange im.sb) L

/-- What taking block `b` changes. -/
structure Takes (im im' : Image) (b : ℕ) : Prop where
  writable : im'.writable = im.writable
  range : SameRange im.sb im'.sb
  blk : im'.blk = im.blk ∨ im'.blk = Function.update im.blk b zero

variable {im : Image} {b : ℕ} {L : List ℕ}

lemma Takes.other {im' : Image} (h : Takes im im' b) {c : ℕ} (hc : c ≠ b) :
    im'.blk c = im.blk c := by
  rcases h.blk with hblk | hblk
  · rw [hblk]
  · rw [hblk, Function.update_of_ne hc]

lemma Free.ne_zero (h : im.Free L) (hb : b ∈ L) : b ≠ 0 := (h.kept.2 b hb).ne_zero

/-- A list that has not ended: its first block is taken. -/
lemma Free.pop_cons (h : im.Free (b :: L)) :
    im.pop.1 = b ∧ im.pop.2.Free L ∧ Takes im im.pop.2 b := by
  obtain ⟨hpos, hle, htop, hb0, hrest⟩ := h.list
  have hnd := List.nodup_cons.mp h.kept.1
  have hout : ∀ c ∈ L, c ≠ b := fun c hc e => hnd.1 (e ▸ hc)
  have hi : (nfree im.sb + 65535) % 65536 = nfree im.sb - 1 := by omega
  by_cases hn : nfree im.sb = 1
  · -- the block holds the next chunk
    rw [if_pos hn] at hrest
    rw [hn] at htop
    have hpop : im.pop = (b, { im with
        sb := setFmod (refill (setNfree im.sb 0) (im.blk b))
        blk := Function.update im.blk b zero }) := by
      simp [pop, hn, show free im.sb 0 = b from htop, hb0]
    have hrange : SameRange im.sb (setFmod (refill (setNfree im.sb 0) (im.blk b))) :=
      Fslib.sameRange_setFmod ((sameOutside_setNfree _ 0).trans (sameOutside_refill _ _))
    rw [hpop]
    refine ⟨rfl, ⟨?_, hrange.kept h.kept.alloc⟩, rfl, hrange, Or.inr rfl⟩
    have hle' := hrest.le
    dsimp only
    rw [Fslib.nfree_setFmod, nfree_refill]
    refine hrest.congr ?_ fun c hc => Function.update_of_ne (hout c hc) _ _
    intro k hk
    rw [Fslib.free_setFmod _ (by omega), free_refill _ _ (by omega)]
  · rw [if_neg hn] at hrest
    have hpop : im.pop = (b, { im with sb := setFmod (setNfree im.sb (nfree im.sb - 1)) }) := by
      simp [pop, hi, htop, hb0, show ¬nfree im.sb - 1 ≥ 100 by omega,
        show nfree im.sb - 1 ≠ 0 by omega]
    have hrange : SameRange im.sb (setFmod (setNfree im.sb (nfree im.sb - 1))) :=
      Fslib.sameRange_setFmod (sameOutside_setNfree _ _)
    rw [hpop]
    refine ⟨rfl, ⟨?_, hrange.kept h.kept.alloc⟩, rfl, hrange, Or.inl rfl⟩
    dsimp only
    rw [Fslib.nfree_setFmod, nfree_setNfree (by omega)]
    refine hrest.congr ?_ fun _ _ => rfl
    intro k hk
    rw [Fslib.free_setFmod _ (by omega), free_setNfree]

/-- A list that has ended. -/
lemma Free.pop_nil (h : im.Free []) : im.pop.1 = 0 ∧ im.pop.2.blk = im.blk := by
  by_cases hn : nfree im.sb = 0
  · simp [pop, hn]
  · obtain ⟨hle, h0⟩ := h.list.resolve_left hn
    have hi : (nfree im.sb + 65535) % 65536 = nfree im.sb - 1 := by omega
    simp [pop, hi, h0, show ¬nfree im.sb - 1 ≥ 100 by omega]

/-- Whatever is returned. -/
lemma pop_writable (im : Image) : im.pop.2.writable = im.writable := by
  rw [pop]
  split_ifs <;> rfl

end Image

/-! ## The library -/

/-- The statics keep what they kept. -/
def SameStatics (s t : Lib) : Prop :=
  ∀ c, (t.kept c).no = (s.kept c).no ∧ (t.kept c).buf = (s.kept c).buf

lemma SameStatics.trans {s t u : Lib} (h : SameStatics s t) (h' : SameStatics t u) :
    SameStatics s u :=
  fun c => ⟨(h' c).1.trans (h c).1, (h' c).2.trans (h c).2⟩

lemma sameStatics_put (s : Lib) (f b : ℕ) (buf : Bytes) : SameStatics s (s.put f b buf) := by
  intro c
  rw [Lib.put]
  dsimp only
  split_ifs <;> exact ⟨rfl, rfl⟩

section Steps

variable {α : Type} (s : Lib) (f : ℕ)

lemma superblock_bind (g : Bytes → M α) : (superblock f >>= g) s = g (s.fs f).sb s := rfl

lemma setSuper_bind (sb : Bytes) (g : Unit → M α) :
    (setSuper f sb >>= g) s = g () (s.setSb f sb) := rfl

lemma readblk_bind (b : ℕ) (g : Bytes → M α) : (readblk f b >>= g) s = g (s.block f b) s := rfl

lemma writeblk_bind {b : ℕ} (hb : b ≠ 0) (hw : (s.fs f).writable = true) (buf : Bytes)
    (g : Unit → M α) : (writeblk f b buf >>= g) s = g () (s.put f b buf) := by
  refine bind_ok ?_
  rw [writeblk, if_neg (by simp [hb, hw])]

@[simp] lemma setSb_fs (sb : Bytes) : (s.setSb f sb).fs f = { s.fs f with sb := sb } := by
  rw [Lib.setSb]
  dsimp only
  rw [Function.update_self]

@[simp] lemma put_fs (b : ℕ) (buf : Bytes) :
    (s.put f b buf).fs f = { s.fs f with blk := Function.update (s.fs f).blk b buf } := by
  rw [Lib.put]
  dsimp only
  rw [Function.update_self]

@[simp] lemma setKept_fs (c : Static) (k : Kept) : (s.setKept c k).fs = s.fs := rfl

end Steps

/-- `balloc` takes a block from the image and leaves the statics alone. -/
lemma balloc_apply {s : Lib} {f : ℕ} (hw : (s.fs f).writable = true) :
    ∃ t, balloc f s = .ok (s.fs f).pop.1 t ∧ t.fs f = (s.fs f).pop.2 ∧ SameStatics s t := by
  have hset : ∀ t sb, SameStatics t (t.setSb f sb) := fun _ _ _ => ⟨rfl, rfl⟩
  rw [balloc, superblock_bind, setSuper_bind, Image.pop]
  split_ifs with h100 h0 hi
  · exact ⟨_, rfl, setSb_fs s f _, hset _ _⟩
  · exact ⟨_, rfl, setSb_fs s f _, hset _ _⟩
  · rw [readblk_bind, setSuper_bind, writeblk_bind _ _ h0 (by simpa using hw)]
    refine ⟨_, rfl, ?_, ((hset _ _).trans (hset _ _)).trans (sameStatics_put _ _ _ _)⟩
    rw [put_fs, setSb_fs, setSb_fs, Lib.block, if_neg h0, setSb_fs]
  · exact ⟨_, rfl, by simp, (hset _ _).trans (hset _ _)⟩

/-! ## A file system at rest -/

/-- The file system `f` is open for writing with the free list `L`, and what the statics for inodes and
for indirect blocks keep is as on its image, the latter a block for files that is not free. -/
structure Ready (s : Lib) (f : ℕ) (L : List ℕ) : Prop where
  writable : (s.fs f).writable = true
  free : (s.fs f).Free L
  inodeblk : ∀ b, (s.kept .inodeblk).no = some b →
    b < isize (s.fs f).sb + 2 ∧ (s.kept .inodeblk).buf = s.block f b
  iblk : ∀ b, (s.kept .iblk).no = some b →
    isize (s.fs f).sb + 2 ≤ b ∧ b ∉ L ∧ (s.kept .iblk).buf = s.block f b

variable {s t : Lib} {f b : ℕ} {L : List ℕ}

/-- A block is taken. -/
lemma Ready.balloc (h : Ready s f (b :: L)) :
    ∃ t, balloc f s = .ok b t ∧ Ready t f L ∧ t.fs f = (s.fs f).pop.2 ∧
      Image.Takes (s.fs f) (t.fs f) b := by
  obtain ⟨t, hrun, hfs, hsame⟩ := balloc_apply h.writable
  obtain ⟨hb, hfree, htakes⟩ := h.free.pop_cons
  rw [hb] at hrun
  rw [← hfs] at hfree htakes
  have hin := h.free.kept.2 b List.mem_cons_self
  have hblock : ∀ c, c ≠ b → t.block f c = s.block f c := by
    intro c hc
    rw [Lib.block, Lib.block, htakes.other hc]
  refine ⟨t, hrun, ?_, hfs, htakes⟩
  refine ⟨htakes.writable.trans h.writable, hfree, ?_, ?_⟩
  · intro c hc
    rw [(hsame .inodeblk).1] at hc
    obtain ⟨hlt, hbuf⟩ := h.inodeblk c hc
    rw [htakes.range.1]
    have hne : c ≠ b := by have := hin.1; omega
    exact ⟨hlt, by rw [(hsame .inodeblk).2, hbuf, hblock c hne]⟩
  · intro c hc
    rw [(hsame .iblk).1] at hc
    obtain ⟨hge, hout, hbuf⟩ := h.iblk c hc
    obtain ⟨hne, hL⟩ := not_or.mp (List.mem_cons.not.mp hout)
    rw [htakes.range.1]
    exact ⟨hge, hL, by rw [(hsame .iblk).2, hbuf, hblock c hne]⟩

/-- A block that is not free is written. -/
lemma Image.Free.put {im : Image} (h : im.Free L) (hb : b ∉ L) (buf : Bytes) :
    { im with blk := Function.update im.blk b buf }.Free L where
  list := h.list.congr (fun _ _ => rfl) fun _ hc =>
    Function.update_of_ne (ne_of_mem_of_not_mem hc hb) buf im.blk
  kept := h.kept

/-- A look for the block of an inode. -/
lemma Ready.look_inodeblk (h : Ready s f L) (hb : b < isize (s.fs f).sb + 2) :
    ∃ t, look .cached .inodeblk f b s = .ok (s.block f b) t ∧ Ready t f L ∧ t.fs f = s.fs f := by
  rw [look]
  split_ifs with hhit
  · obtain ⟨-, hbuf⟩ := h.inodeblk b hhit.2
    rw [hbuf]
    exact ⟨_, rfl, ⟨h.writable, h.free, h.inodeblk, h.iblk⟩, rfl⟩
  · refine ⟨_, rfl, ⟨h.writable, h.free, ?_, ?_⟩, rfl⟩
    · rintro c hc
      obtain rfl : b = c := Option.some.inj hc
      exact ⟨hb, rfl⟩
    · exact h.iblk

/-- A look for an indirect block. -/
lemma Ready.look_iblk (h : Ready s f L) (hb : isize (s.fs f).sb + 2 ≤ b) (hL : b ∉ L) :
    ∃ t, look .cached .iblk f b s = .ok (s.block f b) t ∧ Ready t f L ∧ t.fs f = s.fs f := by
  rw [look]
  split_ifs with hhit
  · obtain ⟨-, -, hbuf⟩ := h.iblk b hhit.2
    rw [hbuf]
    exact ⟨_, rfl, ⟨h.writable, h.free, h.inodeblk, h.iblk⟩, rfl⟩
  · refine ⟨_, rfl, ⟨h.writable, h.free, h.inodeblk, ?_⟩, rfl⟩
    rintro c hc
    obtain rfl : b = c := Option.some.inj hc
    exact ⟨hb, hL, rfl⟩

/-- A block is written through `iblk`. -/
lemma Ready.install_iblk (h : Ready s f L) (hb : isize (s.fs f).sb + 2 ≤ b) (hL : b ∉ L)
    (buf : Bytes) :
    ∃ t, install .iblk f b buf s = .ok () t ∧ Ready t f L ∧
      t.fs f = { s.fs f with blk := Function.update (s.fs f).blk b buf } := by
  have hb0 : b ≠ 0 := by omega
  have hrun := install_apply .iblk f b buf s
  rw [if_neg (by simp [hb0, h.writable])] at hrun
  have hfs := put_fs s f b buf
  refine ⟨_, hrun, ⟨?_, ?_, ?_, ?_⟩, hfs⟩
  · rw [setKept_fs, hfs]
    exact h.writable
  · rw [setKept_fs, hfs]
    exact h.free.put hL buf
  · intro c hc
    have hkeep := sameStatics_put s f b buf .inodeblk
    obtain ⟨hlt, hbuf⟩ := h.inodeblk c (hkeep.1 ▸ hc)
    rw [setKept_fs, hfs]
    refine ⟨hlt, (hkeep.2.trans hbuf).trans ?_⟩
    exact (Lib.put_block s buf (by omega)).symm
  · rintro c hc
    obtain rfl : b = c := Option.some.inj hc
    rw [setKept_fs, hfs]
    exact ⟨hb, hL, (Lib.put_block_self s buf hb0).symm⟩

/-- A block of inodes is written through `inodeblk`. -/
lemma Ready.install_inodeblk (h : Ready s f L) (hb : b < isize (s.fs f).sb + 2) (hb0 : b ≠ 0)
    (buf : Bytes) :
    ∃ t, install .inodeblk f b buf s = .ok () t ∧ Ready t f L ∧
      t.fs f = { s.fs f with blk := Function.update (s.fs f).blk b buf } := by
  have hL : b ∉ L := by
    intro hmem
    have hge := (h.free.kept.2 b hmem).1
    omega
  have hrun := install_apply .inodeblk f b buf s
  rw [if_neg (by simp [hb0, h.writable])] at hrun
  have hfs := put_fs s f b buf
  refine ⟨_, hrun, ⟨?_, ?_, ?_, ?_⟩, hfs⟩
  · rw [setKept_fs, hfs]
    exact h.writable
  · rw [setKept_fs, hfs]
    exact h.free.put hL buf
  · rintro c hc
    obtain rfl : b = c := Option.some.inj hc
    rw [setKept_fs, hfs]
    exact ⟨hb, (Lib.put_block_self s buf hb0).symm⟩
  · intro c hc
    have hkeep := sameStatics_put s f b buf .iblk
    obtain ⟨hge, hout, hbuf⟩ := h.iblk c (hkeep.1 ▸ hc)
    rw [setKept_fs, hfs]
    refine ⟨hge, hout, (hkeep.2.trans hbuf).trans ?_⟩
    exact (Lib.put_block s buf (by omega)).symm

/-- The block of inodes with an inode stored into it. -/
def storeInode (blk : ℕ → Bytes) (ip : Inode) : ℕ → Bytes :=
  Function.update blk (inodeBlock ip.inum)
    (copyBytes ip.ondisk 0 (blk (inodeBlock ip.inum)) (32 * inodeIndex ip.inum) 32)

/-- An inode is written. -/
lemma Ready.iput {ip : Inode} (h : Ready s ip.fs L)
    (hb : inodeBlock ip.inum < isize (s.fs ip.fs).sb + 2) :
    ∃ t, iput .cached ip s = .ok () t ∧ Ready t ip.fs L ∧
      t.fs ip.fs = { s.fs ip.fs with blk := storeInode (s.fs ip.fs).blk ip } := by
  obtain ⟨t, hlook, ht, hfs⟩ := h.look_inodeblk hb
  have hb0 : inodeBlock ip.inum ≠ 0 := by
    have := inodeBlock_ge ip.inum
    omega
  have hblock : s.block ip.fs (inodeBlock ip.inum) = (s.fs ip.fs).blk (inodeBlock ip.inum) :=
    if_neg hb0
  rw [← hfs] at hb
  obtain ⟨u, hinst, hu, hfs'⟩ := ht.install_inodeblk hb hb0
    (copyBytes ip.ondisk 0 (s.block ip.fs (inodeBlock ip.inum)) (32 * inodeIndex ip.inum) 32)
  refine ⟨u, (bind_ok hlook).trans hinst, hu, ?_⟩
  rw [hfs', hfs, hblock]
  rfl

end Host

end Micronix
