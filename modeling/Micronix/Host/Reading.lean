import Micronix.Host.Directory
import Micronix.Host.Maps
import Mathlib.Data.List.Find

/-!
# What the functions that only read come to

`lookup` and `namei` change no image, and what they return is a function of the image, as long as the
statics keep what is on it.  The same holds when the statics have to keep more than that, for those
inodes with which they do (`Viewed`).
-/

namespace Micronix

namespace Host

open Bytes Program
open Tree (slash component advance direqu)

/-! ## On the image -/

/-- The arrays of `bmap` have a place for logical block `l`. -/
def Reached (d : Bytes) (l : ℕ) : Prop :=
  Dsknod.ilarg d = true → l < 1792 ∨ l < 2048 ∧ Dsknod.addr d 7 = 0

instance (d : Bytes) : DecidablePred (Reached d) := fun l =>
  inferInstanceAs (Decidable (Dsknod.ilarg d = true → l < 1792 ∨ l < 2048 ∧ Dsknod.addr d 7 = 0))

/-- All blocks of the file are within the arrays. -/
abbrev Within (d : Bytes) : Prop := ∀ l < blocks (Dsknod.filesize d), Reached d l

/-- The block of a number, block 0 being zeros. -/
def blockOf (blk : ℕ → Bytes) (b : ℕ) : Bytes := if b = 0 then zero else blk b

/-- The bytes of a file. -/
def contents (blk : ℕ → Bytes) (d : Bytes) : Bytes := fun k =>
  blockOf blk (mapOf blk d (k / 512)) (k % 512)

/-- An entry of a directory. -/
def entryOf (blk : ℕ → Bytes) (d : Bytes) (k : ℕ) : Dirent := direntAt (contents blk d) (16 * k)

/-- The number in the first entry with the name, live or not. -/
def nameIn (blk : ℕ → Bytes) (d : Bytes) (name : List UInt8) : ℕ :=
  match (List.range (Dsknod.filesize d / 16)).find? fun i => direqu (entryOf blk d i).name name 14 with
  | some i => (entryOf blk d i).inum
  | none => 0

/-- What `lookup` comes to. -/
def lookupOf (blk : ℕ → Bytes) (d : Bytes) (name : List UInt8) : Except Stop ℕ :=
  if Dsknod.ifdir d = false then .ok 0
  else if Within d then .ok (nameIn blk d name)
  else .error .outside

/-- What the loop of `namei` comes to. -/
def resolveLoop (blk : ℕ → Bytes) : ℕ → ℕ → List UInt8 → Except Stop (Option ℕ)
  | 0, j, _ => .ok (some j)
  | n + 1, j, name =>
      if name.headD 0 = 0 then .ok (some j)
      else if 20 ≤ (component name).length then .error .outside
      else if component name = [] then .ok (some j)
      else do
        let inum ← lookupOf blk (dsknod blk j) (component name)
        if inum = 0 then .ok none else resolveLoop blk n inum (advance name)

/-- What `namei` comes to: the number of the inode. -/
def resolve (blk : ℕ → Bytes) (name : List UInt8) : Except Stop (Option ℕ) :=
  resolveLoop blk name.length 1 (name.dropWhile (· = slash))

/-- An inode as `iget` gets it. -/
def inodeOf (blk : ℕ → Bytes) (f j : ℕ) : Inode := ⟨dsknod blk j, f, j⟩

/-- What `dirname` comes to. -/
def dirOf (blk : ℕ → Bytes) (path : List UInt8) : Except Stop (Option ℕ × List UInt8) :=
  match rindex path with
  | none => .ok (some 1, path)
  | some (dir, name) => (resolve blk dir).map fun j => (j, name)

/-- In the states of `I` the inode `j` of an image can be read, and its blocks if it is a
directory. -/
structure Seen (I : Lib → Prop) (f : ℕ) (blk : ℕ → Bytes) (j : ℕ) : Prop where
  inode : Reads I (iget .cached f j) (.ok (inodeOf blk f j))
  indirect : Dsknod.ifdir (dsknod blk j) = true → ∀ b, Meta blk (dsknod blk j) b →
    Reads I (look .cached .iblk f b) (.ok (blk b))
  block : ∀ b, Reads I (readblk f b) (.ok (blockOf blk b))

/-- So can the inodes `N`, and from the root the names lead to no others. -/
structure Viewed (I : Lib → Prop) (f : ℕ) (blk : ℕ → Bytes) (N : ℕ → Prop) : Prop where
  root : N 1
  seen : ∀ j, N j → Seen I f blk j
  entry : ∀ j, N j → Dsknod.ifdir (dsknod blk j) = true →
    ∀ k < Dsknod.filesize (dsknod blk j) / 16, (entryOf blk (dsknod blk j) k).inum ≠ 0 →
      N (entryOf blk (dsknod blk j) k).inum

variable {I : Lib → Prop} {f j : ℕ} {blk : ℕ → Bytes} {N : ℕ → Prop}

/-! ## The block map -/

/-- A look into a static does not fail. -/
lemma look_outside {α : Type} (how : How) (c : Static) (f b : ℕ) :
    Reads I (look how c f b >>= fun _ => (outside : M α)) (.error .outside) := by
  intro s _
  cases hlook : look how c f b s with
  | ok buf t => exact ⟨t, bind_ok hlook⟩
  | error e t =>
      rw [look] at hlook
      split_ifs at hlook

/-- `bmap` without allocation. -/
lemma Seen.bmap (h : Seen I f blk j) (hdir : Dsknod.ifdir (dsknod blk j) = true) (off : ℕ) :
    Reads I (bmap .cached (inodeOf blk f j) off false)
      (if Reached (dsknod blk j) (off / 512) then
        .ok (mapOf blk (dsknod blk j) (off / 512), inodeOf blk f j) else .error .outside) := by
  rw [Host.bmap]
  set d := dsknod blk j with hd
  set l := off / 512 with hl
  by_cases hlarg : Dsknod.ilarg d = true
  · rw [if_pos (show (inodeOf blk f j).ilarg = true from hlarg), bmapLarge]
    rcases lt_trichotomy (l / 256) 7 with h7 | h7 | h7
    · -- one of the seven single indirect blocks
      have hreach : Reached d l := fun _ => Or.inl (by omega)
      have hmap : mapOf blk d l = sub blk (Dsknod.addr d (l / 256)) (l % 256) := by
        rw [mapOf, if_pos hlarg, if_pos h7]
      rw [if_neg (by omega), if_neg (by omega), if_pos hreach, hmap]
      by_cases h0 : Dsknod.addr d (l / 256) = 0
      · rw [if_pos (show (inodeOf blk f j).addr (l / 256) = 0 from h0), h0, Micronix.sub_zero]
        exact .pure _
      · rw [if_neg (show (inodeOf blk f j).addr (l / 256) ≠ 0 from h0),
          sub_of_lt h0 (Nat.mod_lt _ (by omega))]
        have hmeta : Meta blk d (Dsknod.addr d (l / 256)) :=
          ⟨h0, hlarg, Or.inl ⟨_, by omega, rfl⟩⟩
        refine Reads.bind ((h.indirect hdir _ hmeta).bind ?_) (.pure _)
        rw [if_neg (by simp)]
        exact .pure _
    · rw [if_pos h7]
      by_cases h0 : Dsknod.addr d 7 = 0
      · have hreach : Reached d l := fun _ => Or.inr ⟨by omega, h0⟩
        have hmap : mapOf blk d l = 0 := by
          rw [mapOf, if_pos hlarg, if_neg (by omega), h0, Micronix.sub_zero, Micronix.sub_zero]
        rw [if_pos (show (inodeOf blk f j).addr 7 = 0 from h0), if_pos hreach, hmap]
        exact .pure _
      · have hreach : ¬Reached d l := fun hr => by
          rcases hr hlarg with hlt | hlt
          · omega
          · exact h0 hlt.2
        rw [if_neg (show (inodeOf blk f j).addr 7 ≠ 0 from h0), if_neg hreach]
        exact look_outside _ _ _ _
    · have hreach : ¬Reached d l := fun hr => by
        rcases hr hlarg with hlt | hlt <;> omega
      rw [if_neg (by omega), if_pos h7, if_neg hreach]
      exact fun s _ => ⟨s, rfl⟩
  · have hreach : Reached d l := fun hc => absurd hc hlarg
    rw [if_neg (show ¬(inodeOf blk f j).ilarg = true from hlarg), if_pos hreach, mapOf,
      if_neg hlarg]
    by_cases h8 : l ≤ 7
    · rw [if_pos h8, if_neg (by simp), if_pos (by omega)]
      exact .pure _
    · rw [if_neg h8, if_neg Bool.false_ne_true, if_neg (by omega)]
      exact .pure _

/-! ## A whole directory -/

/-- What `getdir` comes to. -/
def bufferOf (blk : ℕ → Bytes) (d : Bytes) : Buffer :=
  ⟨512 * blocks (Dsknod.filesize d),
    fun k => if k < 512 * blocks (Dsknod.filesize d) then contents blk d k else 0⟩

lemma le_blocks (size : ℕ) : size ≤ 512 * blocks size := by
  rw [blocks]
  omega

lemma bufferOf_entry {d : Bytes} {i : ℕ} (hi : i < Dsknod.filesize d / 16) :
    (bufferOf blk d).entry i = entryOf blk d i := by
  have hle := le_blocks (Dsknod.filesize d)
  refine direntAt_congr fun k hk => ?_
  exact if_pos (by omega)

/-- The memory with one more block of the file. -/
lemma copyBytes_contents (d : Bytes) (i : ℕ) :
    copyBytes (blockOf blk (mapOf blk d i)) 0
      (fun k => if k < 512 * i then contents blk d k else 0) (512 * i) 512 =
      fun k => if k < 512 * (i + 1) then contents blk d k else 0 := by
  funext k
  rw [copyBytes]
  split_ifs with hin hlt hlt hlt
  · rw [contents, show k / 512 = i by omega, show k % 512 = 0 + (k - 512 * i) by omega]
  · omega
  · rfl
  · omega
  · omega
  · rfl

lemma Seen.getdir (h : Seen I f blk j) (hdir : Dsknod.ifdir (dsknod blk j) = true) :
    Reads I (getdir .cached (inodeOf blk f j))
      (if Within (dsknod blk j) then .ok (bufferOf blk (dsknod blk j)) else .error .outside) := by
  refine Reads.bind_ite (Reads.range
    (a := fun n k => if k < 512 * n then contents blk (dsknod blk j) k else 0) fun i _ => ?_)
    fun _ => .pure _
  have hmap := h.bmap hdir (512 * i)
  rw [show 512 * i / 512 = i by omega] at hmap
  rw [← copyBytes_contents]
  exact hmap.bind_ite fun _ => (h.block _).bind (.pure _)

/-! ## Names -/

lemma bufferOf_find (d : Bytes) (name : List UInt8) :
    (bufferOf blk d).find (Dsknod.filesize d / 16) name =
      (List.range (Dsknod.filesize d / 16)).find? fun i =>
        direqu (entryOf blk d i).name name 14 := by
  refine List.find?_congr fun i hi => ?_
  rw [bufferOf_entry (List.mem_range.mp hi)]

lemma bufferOf_name (d : Bytes) (name : List UInt8) :
    (match (bufferOf blk d).find (Dsknod.filesize d / 16) name with
      | some i => ((bufferOf blk d).entry i).inum
      | none => 0) = nameIn blk d name := by
  rw [nameIn, bufferOf_find]
  split
  · rename_i i hi
    rw [bufferOf_entry (List.mem_range.mp (List.mem_of_find?_eq_some hi))]
  · rfl

lemma Seen.lookup (h : Seen I f blk j) (name : List UInt8) :
    Reads I (lookup .cached (inodeOf blk f j) name) (lookupOf blk (dsknod blk j) name) := by
  rw [Host.lookup, lookupOf]
  by_cases hdir : Dsknod.ifdir (dsknod blk j) = false
  · rw [if_pos hdir, if_pos (show Dsknod.ifdir (inodeOf blk f j).ondisk = false from hdir)]
    exact .pure _
  · rw [if_neg hdir, if_neg (show ¬Dsknod.ifdir (inodeOf blk f j).ondisk = false from hdir)]
    refine (h.getdir (Bool.eq_true_of_not_eq_false hdir)).bind_ite fun _ => ?_
    rw [← bufferOf_name]
    exact .pure _

/-- What is found is an inode of the view. -/
lemma Viewed.found (h : Viewed I f blk N) (hj : N j) {name : List UInt8} {inum : ℕ}
    (hlook : lookupOf blk (dsknod blk j) name = .ok inum) (h0 : inum ≠ 0) : N inum := by
  rw [lookupOf] at hlook
  split_ifs at hlook with hdir hw
  · cases hlook
    exact absurd rfl h0
  · cases hlook
    rw [nameIn] at h0 ⊢
    split at h0
    · rename_i i hi
      refine h.entry j hj (Bool.eq_true_of_not_eq_false hdir) i ?_ h0
      exact List.mem_range.mp (List.mem_of_find?_eq_some hi)
    · exact absurd rfl h0

lemma Viewed.nameiLoop (h : Viewed I f blk N) (n : ℕ) (hj : N j) (name : List UInt8) :
    Reads I (nameiLoop .cached f n (inodeOf blk f j) name)
      ((resolveLoop blk n j name).map (Option.map (inodeOf blk f))) := by
  induction n generalizing j name with
  | zero => exact .pure _
  | succ n ih =>
      rw [Host.nameiLoop, resolveLoop]
      split_ifs
      · exact .pure _
      · exact fun s _ => ⟨s, rfl⟩
      · exact .pure _
      · have hlook := (h.seen j hj).lookup (component name)
        cases hres : lookupOf blk (dsknod blk j) (component name) with
        | error e =>
            rw [hres] at hlook
            exact hlook.bind_error
        | ok inum =>
            rw [hres] at hlook
            refine hlook.bind ?_
            rw [show (Except.ok inum >>= fun inum =>
              if inum = 0 then (.ok none : Except Stop (Option ℕ))
              else resolveLoop blk n inum (advance name)) =
              if inum = 0 then .ok none else resolveLoop blk n inum (advance name) from rfl]
            split_ifs with h0
            · exact .pure _
            · exact (h.seen _ (h.found hj hres h0)).inode.bind (ih (h.found hj hres h0) _)

/-- **`namei`** follows the path on the image. -/
lemma Viewed.namei (h : Viewed I f blk N) (name : List UInt8) :
    Reads I (namei .cached f name) ((resolve blk name).map (Option.map (inodeOf blk f))) :=
  (h.seen 1 h.root).inode.bind (h.nameiLoop _ h.root _)

lemma Viewed.dirname (h : Viewed I f blk N) (path : List UInt8) :
    Reads I (dirname .cached f path)
      ((dirOf blk path).map fun r => (r.1.map (inodeOf blk f), r.2)) := by
  rw [Host.dirname, dirOf]
  cases rindex path with
  | none => exact (h.seen 1 h.root).inode.bind (.pure _)
  | some r =>
      have hnamei := h.namei r.1
      dsimp only
      cases hres : resolve blk r.1 with
      | ok o =>
          rw [hres] at hnamei
          exact hnamei.bind (.pure _)
      | error e =>
          rw [hres] at hnamei
          exact hnamei.bind_error

/-! ## Statics that keep what is on the image -/

/-- Whatever a static keeps is as on the image of `f`. -/
def Coherent (f : ℕ) (s : Lib) : Prop :=
  ∀ c b, (s.kept c).no = some b → (s.kept c).buf = s.block f b

lemma Coherent.look {s : Lib} (h : Coherent f s) (c : Static) (b : ℕ) :
    ∃ t, look .cached c f b s = .ok (s.block f b) t ∧ Coherent f t ∧ t.fs = s.fs := by
  rw [Host.look]
  split_ifs with hhit
  · rw [h c b hhit.2]
    exact ⟨_, rfl, h, rfl⟩
  · refine ⟨_, rfl, fun c' b' hno => ?_, rfl⟩
    rcases eq_or_ne c' c with rfl | hc
    · rw [Lib.setKept] at hno ⊢
      dsimp only at hno ⊢
      rw [Function.update_self] at hno ⊢
      cases hno
      rfl
    · rw [Lib.setKept] at hno ⊢
      dsimp only at hno ⊢
      rw [Function.update_of_ne hc] at hno ⊢
      exact h c' b' hno

/-- Then every inode can be read. -/
lemma viewed_coherent (fs : ℕ → Image) (f : ℕ) :
    Viewed (fun s => s.fs = fs ∧ Coherent f s) f (fs f).blk fun _ => True := by
  have hlook : ∀ c b, Reads (fun s => s.fs = fs ∧ Coherent f s) (look .cached c f b)
      (.ok (blockOf (fs f).blk b)) := by
    rintro c b s ⟨rfl, hs⟩
    obtain ⟨t, hrun, ht, hfs⟩ := hs.look c b
    exact ⟨t, hrun, hfs, ht⟩
  refine ⟨trivial, fun j _ => ⟨?_, fun _ b hb => ?_, fun b s hs => ?_⟩, fun _ _ _ _ _ _ => trivial⟩
  · have hblock : blockOf (fs f).blk (inodeBlock j) = (fs f).blk (inodeBlock j) :=
      if_neg (by have := inodeBlock_ge j; omega)
    have hinode := hlook .inodeblk (inodeBlock j)
    rw [hblock] at hinode
    exact hinode.bind (.pure _)
  · have hblock : blockOf (fs f).blk b = (fs f).blk b := if_neg hb.1
    rw [← hblock]
    exact hlook .iblk b
  · obtain ⟨rfl, hs⟩ := hs
    exact ⟨s, rfl, rfl, hs⟩

end Host

end Micronix
