import Micronix.Host.Reading

/-!
# Removing a name

`fileunlink` compares the entries of the directory with the whole path, and what it finds it removes
from the inode of the directory instead of from its entries.  So it comes to an end only if it has found
nothing, and then it has done nothing.
-/

namespace Micronix

namespace Host

open Bytes Program

/-! ## What is asked of it -/

/-- A path names the inode `j`: it is in the directory `dir` as `name`. -/
structure Names (blk : ℕ → Bytes) (path : List UInt8) (dir : ℕ) (name : List UInt8) (j : ℕ) :
    Prop where
  parent : dirOf blk path = .ok (some dir, name)
  isdir : Dsknod.ifdir (dsknod blk dir) = true
  entry : nameIn blk (dsknod blk dir) name = j
  live : j ≠ 0

/-- The name is gone, the other names of the directory are for the same inodes as before, and the
inode has a link less. -/
structure Unlinks (blk blk' : ℕ → Bytes) (path : List UInt8) (dir : ℕ) (name : List UInt8) (j : ℕ) :
    Prop where
  gone : resolve blk' path = .ok none
  others : ∀ name', Tree.chars name' ≠ Tree.chars name →
    nameIn blk' (dsknod blk' dir) name' = nameIn blk (dsknod blk dir) name'
  nlink : Dsknod.nlink (dsknod blk' j) + 1 = Dsknod.nlink (dsknod blk j)

/-! ## What only reads -/

section Still

/-- The images stay. -/
abbrev Still {α : Type} (m : M α) : Prop := Keeps (fun s t : Lib => t.fs = s.fs) m

variable {α β : Type} {how : How} {f : ℕ}

lemma still_pure (a : α) : Still (pure a : M α) := fun _ => rfl

lemma Still.bind {m : M α} {g : α → M β} (hm : Still m) (hg : ∀ a, Still (g a)) :
    Still (m >>= g) :=
  Keeps.bind (fun _ _ _ h h' => h'.trans h) hm hg

lemma still_outside : Still (outside : M α) := fun _ => rfl

lemma still_look (how : How) (c : Static) (f b : ℕ) : Still (look how c f b) := by
  intro s
  rw [look]
  split_ifs <;> rfl

lemma still_iget (how : How) (f inum : ℕ) : Still (iget how f inum) :=
  (still_look _ _ _ _).bind fun _ => still_pure _

lemma still_readblk (f b : ℕ) : Still (readblk f b) := fun _ => rfl

lemma still_bmap (how : How) (ip : Inode) (off : ℕ) : Still (bmap how ip off false) := by
  have hind : ∀ b k, Still (indirect how ip.fs b k false) := fun b k => by
    refine (still_look _ _ _ _).bind fun buf => ?_
    rw [if_neg (by simp)]
    exact still_pure _
  rw [bmap, bmapLarge]
  simp only [Bool.false_eq_true, and_false, if_false]
  refine .ite ?_ (.ite (still_pure _) (still_pure _))
  refine .ite (.ite (still_pure _) ?_) (.ite still_outside (.ite (still_pure _) ?_))
  · exact (still_look _ _ _ _).bind fun _ => still_outside
  · exact (hind _ _).bind fun _ => still_pure _

lemma still_getdir (how : How) (ip : Inode) : Still (getdir how ip) := by
  refine Still.bind (Keeps.foldlM (I := fun s t : Lib => t.fs = s.fs) (fun _ => rfl)
    (fun _ _ _ h h' => h'.trans h) ?_ _ _) fun _ => still_pure _
  exact fun _ _ => (still_bmap _ _ _).bind fun _ => (still_readblk _ _).bind fun _ => still_pure _

lemma still_lookup (how : How) (ip : Inode) (name : List UInt8) : Still (lookup how ip name) :=
  .ite (still_pure _) ((still_getdir _ _).bind fun _ => still_pure _)

lemma still_nameiLoop (how : How) (f n : ℕ) (ip : Inode) (name : List UInt8) :
    Still (nameiLoop how f n ip name) := by
  induction n generalizing ip name with
  | zero => exact still_pure _
  | succ n ih =>
      refine .ite (still_pure _) (.ite still_outside (.ite (still_pure _) ?_))
      refine (still_lookup _ _ _).bind fun inum => .ite (still_pure _) ?_
      exact (still_iget _ _ _).bind fun ip => ih ip _

lemma still_namei (how : How) (f : ℕ) (name : List UInt8) : Still (namei how f name) :=
  (still_iget _ _ _).bind fun _ => still_nameiLoop _ _ _ _ _

lemma still_dirname (how : How) (f : ℕ) (path : List UInt8) : Still (dirname how f path) := by
  rw [dirname]
  split
  · exact (still_iget _ _ _).bind fun _ => still_pure _
  · exact (still_namei _ _ _).bind fun _ => still_pure _

/-- If such a program comes to its end. -/
lemma Still.ok {m : M α} (h : Still m) {s t : Lib} {a : α} (hrun : m s = .ok a t) :
    t.fs = s.fs := by
  have hs := h s
  rw [hrun] at hs
  exact hs

end Still

/-! ## An entry that is found -/

/-- **The move of the entries** leaves the inode, or leaves it with a size for which `dirp` is too
small. -/
lemma delete_stops (how : How) (dp : Inode) (dirp : Buffer) {i : ℕ}
    (hi : i < Dsknod.filesize dp.ondisk / 16)
    (hsize : dirp.size = 512 * blocks (Dsknod.filesize dp.ondisk)) :
    Stops (delete how dp dirp i) := by
  rw [delete, compact]
  split_ifs with hin
  · have hone : Dsknod.filesize dp.ondisk / 16 = 1 := by omega
    set d := copyBytes zero 0 dp.ondisk 0 16 with hd
    have hsize1 : (Dsknod.size1 d + 65520) % 65536 = 65520 := by
      have hword := word_copyBytes zero dp.ondisk 0 0 8 3
      rw [if_pos (by omega), word_zero] at hword
      rw [Dsknod.size1, show word d 3 = 0 from hword]
    have hfile : Dsknod.filesize (Dsknod.setSize1 d 65520) = 65520 := by
      have h5 : setWord d 3 65520 5 = 0 := rfl
      rw [Dsknod.filesize, Dsknod.setSize1, word_setWord_self (by omega), h5, UInt8.toNat_zero,
        Nat.zero_mul, Nat.zero_add]
    have hshrink : shrink { dp with ondisk := Dsknod.setSize1 d 65520 } =
        pure { dp with ondisk := Dsknod.setSize1 d 65520 } := by
      rw [shrink]
      dsimp only
      rw [hfile, if_neg (by omega)]
    rw [pure_bind]
    dsimp only
    rw [hsize1, hshrink, pure_bind]
    refine .after _ fun _ => .bind (putdir_stops how ?_) _
    dsimp only
    rw [hfile, hsize, blocks, blocks]
    omega
  · exact .bind (fun s => ⟨Stop.outside, s, rfl⟩) _

/-- The size of what `getdir` returns. -/
lemma getdir_size (how : How) (ip : Inode) :
    Yields (fun dirp : Buffer => dirp.size = 512 * blocks (Dsknod.filesize ip.ondisk))
      (getdir how ip) :=
  .after _ fun _ => .pure rfl

/-- **If `fileunlink` comes to its end, it has not changed any image.** -/
lemma fileunlink_still {how : How} {f : ℕ} {path : List UInt8} {s t : Lib}
    (hrun : fileunlink how f path s = .ok () t) : t.fs = s.fs := by
  obtain ⟨⟨o, name⟩, u, hdir, hrun⟩ := of_bind_ok hrun
  have hu := (still_dirname how f path).ok hdir
  cases o with
  | none => cases hrun
  | some dp =>
      dsimp only at hrun
      split_ifs at hrun with hfmt
      · cases hrun
        exact hu
      · obtain ⟨dirp, v, hget, hrun⟩ := of_bind_ok hrun
        have hv := ((still_getdir how dp).ok hget).trans hu
        cases hfind : dirp.find (Dsknod.filesize dp.ondisk / 16) path with
        | none =>
            rw [hfind] at hrun
            cases hrun
            exact hv
        | some i =>
            rw [hfind] at hrun
            dsimp only at hrun
            split_ifs at hrun with h0
            · cases hrun
              exact hv
            · -- it has been found
              have hi := List.mem_range.mp (List.mem_of_find?_eq_some hfind)
              obtain ⟨e, w, hstop⟩ := delete_stops how dp dirp hi (getdir_size how dp _ _ _ hget) v
              rw [bind_error hstop] at hrun
              cases hrun

lemma not_unlinks {how : How} {f dir j : ℕ} {path name : List UInt8} {s t : Lib}
    (hrun : fileunlink how f path s = .ok () t) :
    ¬Unlinks (s.fs f).blk (t.fs f).blk path dir name j := by
  intro h
  have hn := h.nlink
  rw [fileunlink_still hrun] at hn
  omega

/-- **Removing a name** never comes about. -/
theorem unlink_never (s : Lib) (f : ℕ) (path : List UInt8) (dir : ℕ) (name : List UInt8) (j : ℕ) :
    ¬∃ t, fileunlink .cached f path s = .ok () t ∧
      Unlinks (s.fs f).blk (t.fs f).blk path dir name j := by
  rintro ⟨t, hrun, h⟩
  exact not_unlinks hrun h

/-! ## A file in the root -/

namespace Sample

/-- The root with the file `a`, which is inode 2. -/
def inodes : Bytes :=
  ofList ([255, 193, 1, 0, 0, 0, 16, 0, 10] ++ List.replicate 23 0 ++ [255, 129, 1])

def root : Bytes := ofList [2, 0, 97]

def blk (b : ℕ) : Bytes := if b = 2 then inodes else if b = 10 then root else zero

/-- A library that has opened the image and done nothing yet. -/
def lib : Lib where
  fs _ := ⟨blk, true, ofList [1, 0, 100, 0]⟩
  kept _ := ⟨none, zero, none⟩
  stack := zero
  foul := false

lemma coherent : Coherent 0 lib := fun _ _ h => nomatch h

end Sample

/-- `/a` is not removed. -/
theorem unlink_path : ¬∀ (s : Lib) (f : ℕ) (path : List UInt8) (dir : ℕ) (name : List UInt8) (j : ℕ),
    Coherent f s → Names (s.fs f).blk path dir name j →
      ∃ t, fileunlink .cached f path s = .ok () t ∧
        Unlinks (s.fs f).blk (t.fs f).blk path dir name j := by
  intro h
  have hnames : Names Sample.blk [47, 97] 1 [97] 2 :=
    ⟨by rfl, by decide, by decide, by decide⟩
  obtain ⟨t, hrun, hu⟩ := h Sample.lib 0 [47, 97] 1 [97] 2 Sample.coherent hnames
  exact not_unlinks hrun hu

end Host

end Micronix
