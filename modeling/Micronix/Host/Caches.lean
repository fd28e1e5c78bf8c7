import Micronix.Host.Library
import Micronix.Lib.Transition

/-!
# The statics that keep blocks

Every function of the library does with its statics as it would do if it read the image each time, as
long as no look is foul: a number that is found there is that of a block of the same file system, and
nobody has written that block since but through the static itself (`caches_transparent`).
-/

namespace Micronix

namespace Host

open Bytes Program

/-- Two libraries with the same images; what the first one keeps is as on the image, unless that block
has been written since. -/
structure Alike (s d : Lib) : Prop where
  fs : s.fs = d.fs
  stack : s.stack = d.stack
  kept : ∀ c f b, (s.kept c).no = some b → b = 0 ∨ (s.kept c).of = some f →
    (s.kept c).buf = s.block f b

/-- `m` does as `m'` in a library that need not look. -/
abbrev Does {α : Type} (m m' : M α) : Prop :=
  Follows Alike (fun s => s.foul = true) m m'

/-! ## The parts -/

section Parts

variable {α : Type} {s d : Lib}

lemma Alike.block (h : Alike s d) (f b : ℕ) : s.block f b = d.block f b := by
  rw [Lib.block, Lib.block, h.fs]

lemma Lib.setSb_block (s : Lib) (f : ℕ) (sb : Bytes) (f' b : ℕ) :
    (s.setSb f sb).block f' b = s.block f' b := by
  rw [Lib.block, Lib.block, Lib.setSb]
  dsimp only
  rcases eq_or_ne f' f with rfl | hf
  · rw [Function.update_self]
  · rw [Function.update_of_ne hf]

lemma Alike.setSb (h : Alike s d) (f : ℕ) (sb : Bytes) : Alike (s.setSb f sb) (d.setSb f sb) where
  fs := by
    rw [Lib.setSb, Lib.setSb]
    dsimp only
    rw [h.fs]
  stack := h.stack
  kept c f' b hno hof := by
    rw [Lib.setSb_block]
    exact h.kept c f' b hno hof

/-- Whoever keeps the block that is written does not count on it any more. -/
lemma Alike.put (h : Alike s d) {f b : ℕ} (buf : Bytes) (hb : b ≠ 0) :
    Alike (s.put f b buf) (d.put f b buf) where
  fs := by
    rw [Lib.put, Lib.put]
    dsimp only
    rw [h.fs]
  stack := h.stack
  kept c f' b' hno hof := by
    by_cases hhit : (s.kept c).no = some b ∧ (s.kept c).of = some f
    · have hkept : (s.put f b buf).kept c = { s.kept c with of := none } := if_pos hhit
      rw [hkept] at hno hof
      have hb' : b' = b := Option.some.inj (hno.symm.trans hhit.1)
      rcases hof with h0 | hof
      · exact absurd (hb' ▸ h0) hb
      · cases hof
    · have hkept : (s.put f b buf).kept c = s.kept c := if_neg hhit
      rw [hkept] at hno hof ⊢
      rw [h.kept c f' b' hno hof]
      by_cases hsame : f' = f ∧ b' = b
      · obtain ⟨rfl, rfl⟩ := hsame
        rcases hof with h0 | hof
        · exact absurd h0 hb
        · exact absurd ⟨hno, hof⟩ hhit
      · exact (Lib.put_block s buf hsame).symm

/-- A static that is filled with the block as it is. -/
lemma Alike.setKept (h : Alike s d) (c : Static) {f b : ℕ} {buf : Bytes} (hbuf : buf = s.block f b)
    (k : Kept) : Alike (s.setKept c ⟨some b, buf, some f⟩) (d.setKept c k) where
  fs := h.fs
  stack := h.stack
  kept c' f' b' hno hof := by
    rw [Lib.setKept] at hno hof ⊢
    dsimp only at hno hof ⊢
    rcases eq_or_ne c' c with rfl | hc
    · rw [Function.update_self] at hno hof ⊢
      cases hno
      rcases hof with rfl | hof
      · exact hbuf
      · cases hof
        exact hbuf
    · rw [Function.update_of_ne hc] at hno hof ⊢
      exact h.kept c' f' b' hno hof

lemma does_stop (k : Stop) : Does (fun s => .error k s : M α) (fun s => .error k s) where
  stays _ := id
  agree _ _ hr _ := ⟨rfl, hr⟩

lemma does_superblock (f : ℕ) : Does (superblock f) (superblock f) where
  stays _ := id
  agree _ _ hr _ := ⟨by rw [hr.fs], hr⟩

lemma does_setSuper (f : ℕ) (sb : Bytes) : Does (setSuper f sb) (setSuper f sb) where
  stays _ := id
  agree _ _ hr _ := ⟨rfl, hr.setSb f sb⟩

lemma does_readblk (f b : ℕ) : Does (readblk f b) (readblk f b) where
  stays _ := id
  agree _ _ hr _ := ⟨hr.block f b, hr⟩

lemma does_junk : Does junk junk where
  stays _ := id
  agree _ _ hr _ := ⟨hr.stack, hr⟩

lemma does_writeblk (f b : ℕ) (buf : Bytes) : Does (writeblk f b buf) (writeblk f b buf) where
  stays s := by
    rw [writeblk]
    split_ifs <;> exact id
  agree s d hr _ := by
    rw [writeblk, writeblk, ← hr.fs]
    split_ifs with hlose
    · exact ⟨rfl, hr⟩
    · exact ⟨rfl, hr.put buf fun e => hlose (Or.inl e)⟩

lemma does_forget (c : Static) : Does (forget c) (forget c) where
  stays _ := id
  agree s d hr _ := by
    refine ⟨rfl, hr.fs, hr.stack, ?_⟩
    intro c' f b hno hof
    rw [Lib.setKept] at hno hof ⊢
    dsimp only at hno hof ⊢
    rcases eq_or_ne c' c with rfl | hc
    · rw [Function.update_self] at hno
      cases hno
    · rw [Function.update_of_ne hc] at hno hof ⊢
      exact hr.kept c' f b hno hof

/-- **A look.**  Unless it is foul it finds what is on the image. -/
lemma does_look (c : Static) (f b : ℕ) : Does (look .cached c f b) (look .direct c f b) where
  stays s := by
    rw [look]
    split_ifs
    · intro hf
      simp [final, hf]
    · exact id
  agree s d hr hgood := by
    have hdirect : look .direct c f b d = .ok (d.block f b)
        (d.setKept c ⟨some b, d.block f b, some f⟩) := if_neg fun h => nomatch h.1
    rw [hdirect]
    rw [look] at hgood ⊢
    split_ifs at hgood ⊢ with hhit
    · simp only [final, Bool.or_eq_true, Bool.and_eq_true, bne_iff_ne, ne_eq, not_or, not_and,
        not_not] at hgood
      have hof : b = 0 ∨ (s.kept c).of = some f := by
        by_cases h0 : b = 0
        · exact Or.inl h0
        · exact Or.inr (hgood.2 h0)
      have hbuf := hr.kept c f b hhit.2 hof
      exact ⟨hbuf.trans (hr.block f b), hr.fs, hr.stack, hr.kept⟩
    · exact ⟨hr.block f b, hr.setKept c rfl _⟩

/-- What is written through a static is kept there. -/
lemma does_install (c : Static) (f b : ℕ) (buf : Bytes) :
    Does (install c f b buf) (install c f b buf) where
  stays s := by
    rw [install_apply]
    split_ifs <;> exact id
  agree s d hr _ := by
    rw [install_apply, install_apply, ← hr.fs]
    split_ifs with hlose
    · exact ⟨rfl, hr⟩
    · have hb : b ≠ 0 := fun e => hlose (Or.inl e)
      exact ⟨rfl, (hr.put buf hb).setKept c (s.put_block_self buf hb).symm _⟩

end Parts

/-! ## The functions -/

lemma does_iget (f inum : ℕ) : Does (iget .cached f inum) (iget .direct f inum) :=
  .bind (does_look _ _ _) fun _ => .pure _

lemma does_iput (ip : Inode) : Does (iput .cached ip) (iput .direct ip) :=
  .bind (does_look _ _ _) fun _ => does_install _ _ _ _

lemma does_balloc (f : ℕ) : Does (balloc f) (balloc f) := by
  refine .bind (does_superblock f) fun sb => ?_
  refine .bind (does_setSuper f _) fun _ => ?_
  refine .ite (.pure _) (.ite (.pure _) (.ite ?_ ?_))
  · refine .bind (does_readblk f _) fun buf => ?_
    refine .bind (does_setSuper f _) fun _ => ?_
    exact .bind (does_writeblk f _ _) fun _ => .pure _
  · exact .bind (does_setSuper f _) fun _ => .pure _

lemma does_bfree (f b : ℕ) : Does (bfree f b) (bfree f b) := by
  refine .bind (does_superblock f) fun sb => ?_
  refine .ite ?_ (does_setSuper f _)
  refine .bind does_junk fun buf => ?_
  refine .bind (does_setSuper f _) fun _ => ?_
  exact .bind (does_writeblk f b _) fun _ => does_setSuper f _

lemma does_convert (ip : Inode) : Does (convert .cached ip) (convert .direct ip) := by
  refine .bind (does_balloc ip.fs) fun b => ?_
  refine .bind (does_install _ _ _ _) fun _ => ?_
  exact .bind (does_iput _) fun _ => .pure _

lemma does_indirect (f b k : ℕ) (alloc : Bool) :
    Does (indirect .cached f b k alloc) (indirect .direct f b k alloc) := by
  refine .bind (does_look _ _ _) fun buf => ?_
  refine .ite ?_ (.pure _)
  refine .bind (does_balloc f) fun new => ?_
  exact .bind (does_install _ _ _ _) fun _ => .pure _

lemma does_bmapLarge (ip : Inode) (lblk : ℕ) (alloc : Bool) :
    Does (bmapLarge .cached ip lblk alloc) (bmapLarge .direct ip lblk alloc) := by
  rw [bmapLarge, bmapLarge]
  refine .ite (.ite (.ite ?_ (.pure _)) ?_) (.ite (does_stop _) (.ite (.ite ?_ (.pure _)) ?_))
  · refine .bind (does_balloc _) fun b => ?_
    refine .bind (does_install _ _ _ _) fun _ => ?_
    refine .bind (does_iput _) fun _ => ?_
    exact .bind (does_look _ _ _) fun _ => does_stop _
  · exact .bind (does_look _ _ _) fun _ => does_stop _
  · refine .bind (does_balloc _) fun b => ?_
    refine .bind (does_iput _) fun _ => ?_
    exact .bind (does_indirect _ _ _ _) fun _ => .pure _
  · exact .bind (does_indirect _ _ _ _) fun _ => .pure _

lemma does_bmap (ip : Inode) (offset : ℕ) (alloc : Bool) :
    Does (bmap .cached ip offset alloc) (bmap .direct ip offset alloc) := by
  rw [bmap, bmap]
  refine .ite (does_bmapLarge _ _ _) (.ite (.ite ?_ (.pure _)) (.ite ?_ (.pure _)))
  · exact .bind (does_balloc _) fun _ => .pure _
  · exact .bind (does_convert _) fun _ => does_bmapLarge _ _ _

lemma does_iblkfree (f b : ℕ) : Does (iblkfree f b) (iblkfree f b) := by
  refine .ite (.pure _) (.bind (does_readblk f b) fun buf => ?_)
  refine .bind (.foldlM (fun buf i => ?_) _ _) fun buf => ?_
  · exact .ite (.pure _) (.bind (does_bfree _ _) fun _ => .pure _)
  · exact .bind (does_writeblk _ _ _) fun _ => does_bfree _ _

lemma does_freeSmall (ip : Inode) : Does (freeSmall ip) (freeSmall ip) :=
  .foldlM (fun _ _ => .ite (.pure _) (.bind (does_bfree _ _) fun _ => .pure _)) _ _

lemma does_freeLarge (ip : Inode) : Does (freeLarge ip) (freeLarge ip) := by
  refine .bind (does_forget _) fun _ => .bind (does_forget _) fun _ => ?_
  refine .bind (.foldlM (fun ip i => ?_) _ _) fun ip => ?_
  · exact .bind (does_iblkfree _ _) fun _ => .pure _
  · refine .ite (.pure _) (.bind (does_readblk _ _) fun buf => ?_)
    refine .bind (.foldlM (fun buf i => ?_) _ _) fun buf => ?_
    · exact .bind (does_iblkfree _ _) fun _ => .pure _
    · exact .bind (does_writeblk _ _ _) fun _ => .pure _

lemma does_filefree (ip : Inode) : Does (filefree .cached ip) (filefree .direct ip) := by
  refine .ite (.pure _) (.bind (.ite (does_freeLarge _) (does_freeSmall _)) fun ip => ?_)
  exact .bind (does_iput _) fun _ => .pure _

lemma does_filewrite (ip : Inode) (offset : ℕ) (buf : Bytes) :
    Does (filewrite .cached ip offset buf) (filewrite .direct ip offset buf) :=
  .bind (does_bmap _ _ _) fun _ => .bind (does_writeblk _ _ _) fun _ => .pure _

lemma does_putdir (ip : Inode) (dir : Bytes) :
    Does (putdir .cached ip dir) (putdir .direct ip dir) :=
  .foldlM (fun _ _ => .bind (does_bmap _ _ _) fun _ => .bind (does_writeblk _ _ _) fun _ => .pure _)
    _ _

lemma does_getdirent (ip : Inode) (i : ℕ) :
    Does (getdirent .cached ip i) (getdirent .direct ip i) := by
  refine .ite (.pure _) (.bind (does_bmap _ _ _) fun r => ?_)
  exact .bind (does_look _ _ _) fun _ => .pure _

/-! ## Sequences of calls -/

/-- A call of the library; an inode is named by where the caller keeps the pointer. -/
inductive Call
  | iget (h f inum : ℕ)
  | iput (h : ℕ)
  | bmap (h offset : ℕ) (alloc : Bool)
  | getdirent (h i : ℕ)
  | putdir (h : ℕ) (dir : Bytes)
  | filewrite (h offset : ℕ) (buf : Bytes)
  | filefree (h : ℕ)
  /-- the caller stores into the inode -/
  | store (h : ℕ) (d : Bytes)

/-- What a call returns. -/
inductive Answer
  | done
  | block (b : ℕ)
  | entry (e : Option (List UInt8))
  deriving DecidableEq, Repr

abbrev Inodes := ℕ → Option Inode

/-- One call, with the inodes that the caller has. -/
def serve (how : How) (c : Call) (inodes : Inodes) : M (Answer × Inodes) :=
  match c with
  | .iget h f inum => do
      let ip ← iget how f inum
      pure (.done, Function.update inodes h (some ip))
  | .iput h =>
      match inodes h with
      | some ip => do
          iput how ip
          pure (.done, inodes)
      | none => outside
  | .bmap h offset alloc =>
      match inodes h with
      | some ip => do
          let r ← bmap how ip offset alloc
          pure (.block r.1, Function.update inodes h (some r.2))
      | none => outside
  | .getdirent h i =>
      match inodes h with
      | some ip => do
          let e ← getdirent how ip i
          pure (.entry e, inodes)
      | none => outside
  | .putdir h dir =>
      match inodes h with
      | some ip => do
          let ip ← putdir how ip dir
          pure (.done, Function.update inodes h (some ip))
      | none => outside
  | .filewrite h offset buf =>
      match inodes h with
      | some ip => do
          let ip ← filewrite how ip offset buf
          pure (.done, Function.update inodes h (some ip))
      | none => outside
  | .filefree h =>
      match inodes h with
      | some ip => do
          let ip ← filefree how ip
          pure (.done, Function.update inodes h (some ip))
      | none => outside
  | .store h d =>
      match inodes h with
      | some ip => pure (.done, Function.update inodes h (some { ip with ondisk := d }))
      | none => outside

/-- A process of the host: the library, and the inodes that it has read. -/
structure Client where
  lib : Lib
  inodes : Inodes

namespace Client

/-- The call as the library serves it; the process is over when it stops. -/
def step (w : Client) (c : Call) : Option Client :=
  match serve .cached c w.inodes w.lib with
  | .ok r lib => some ⟨lib, r.2⟩
  | .error _ _ => none

/-- The statics before the first call. -/
structure Boot (w : Client) : Prop where
  inodeblk : (w.lib.kept .inodeblk).no = some 0 ∧ (w.lib.kept .inodeblk).buf = zero
  others : ∀ c, c ≠ .inodeblk → (w.lib.kept c).no = none
  foul : w.lib.foul = false

/-- No look of the call is foul. -/
def Clean (w : Client) (c : Call) : Prop :=
  (final (serve .cached c w.inodes w.lib)).foul = false

end Client

/-- The same images, and copies of their block 1. -/
def SameImages (s d : Lib) : Prop := s.fs = d.fs

lemma does_serve (c : Call) (inodes : Inodes) :
    Does (serve .cached c inodes) (serve .direct c inodes) := by
  cases c with
  | iget h f inum => exact .bind (does_iget f inum) fun _ => .pure _
  | iput h =>
      rw [serve, serve]
      cases inodes h with
      | none => exact does_stop _
      | some ip => exact .bind (does_iput ip) fun _ => .pure _
  | bmap h offset alloc =>
      rw [serve, serve]
      cases inodes h with
      | none => exact does_stop _
      | some ip => exact .bind (does_bmap ip offset alloc) fun _ => .pure _
  | getdirent h i =>
      rw [serve, serve]
      cases inodes h with
      | none => exact does_stop _
      | some ip => exact .bind (does_getdirent ip i) fun _ => .pure _
  | putdir h dir =>
      rw [serve, serve]
      cases inodes h with
      | none => exact does_stop _
      | some ip => exact .bind (does_putdir ip dir) fun _ => .pure _
  | filewrite h offset buf =>
      rw [serve, serve]
      cases inodes h with
      | none => exact does_stop _
      | some ip => exact .bind (does_filewrite ip offset buf) fun _ => .pure _
  | filefree h =>
      rw [serve, serve]
      cases inodes h with
      | none => exact does_stop _
      | some ip => exact .bind (does_filefree ip) fun _ => .pure _
  | store h d =>
      rw [serve, serve]
      cases inodes h with
      | none => exact does_stop _
      | some ip => exact .pure _

namespace Client

variable {w w' : Client}

lemma Boot.alike (h : Boot w) : Alike w.lib w.lib where
  fs := rfl
  stack := rfl
  kept c f b hno _ := by
    by_cases hc : c = .inodeblk
    · subst hc
      obtain rfl : 0 = b := Option.some.inj (h.inodeblk.1.symm.trans hno)
      exact h.inodeblk.2
    · rw [h.others c hc] at hno
      cases hno

/-- What is kept after a clean call is as on the image. -/
lemma alike_step (h : Alike w.lib w.lib) {c : Call} (hc : Clean w c) (hs : w.step c = some w') :
    Alike w'.lib w'.lib := by
  have hagree := (does_serve c w.inodes).agree w.lib w.lib h (by simpa [Clean] using hc)
  rw [step] at hs
  cases hcached : serve .cached c w.inodes w.lib with
  | error e s => simp [hcached] at hs
  | ok r s =>
      rw [hcached] at hs hagree
      obtain rfl := Option.some.inj hs
      cases hdirect : serve .direct c w.inodes w.lib with
      | error e t =>
          rw [hdirect] at hagree
          exact hagree.elim
      | ok r' t =>
          rw [hdirect] at hagree
          obtain ⟨-, hst⟩ := hagree
          refine ⟨rfl, rfl, ?_⟩
          intro c' f b hno hof
          exact hst.kept c' f b hno hof

/-- In a run of calls without a foul look, the next call that has none returns what it would return if
it read the images each time, and leaves them as it would then. -/
theorem caches_transparent (h : Transition.Reach step Boot Clean w) {c : Call} (hc : Clean w c) :
    Agree SameImages (serve .cached c w.inodes w.lib) (serve .direct c w.inodes w.lib) := by
  have halike : Alike w.lib w.lib :=
    h.invariant (fun _ => Boot.alike) fun _ _ _ hi hok he => alike_step hi hok he
  have hgood : ¬(final (serve .cached c w.inodes w.lib)).foul = true := by simpa [Clean] using hc
  exact ((does_serve c w.inodes).agree w.lib w.lib halike hgood).mono fun _ _ h => h.fs

instance (w : Client) (c : Call) : Decidable (Clean w c) :=
  inferInstanceAs (Decidable (_ = _))

/-- Two file systems.  Inode 1 of the first one has the single block 10 and two entries; on the second
one all blocks are zeros. -/
def twoFs : Client where
  lib := {
    fs := fun f => {
      blk := fun b => if f = 0 ∧ b = 2 then setWord (setWord (setWord zero 0 0xc000) 3 32) 4 10 else zero
      writable := true
      sb := zero }
    kept := fun c => ⟨if c = .inodeblk then some 0 else none, zero, none⟩
    stack := zero
    foul := false }
  inodes _ := none

lemma twoFs_boot : Boot twoFs where
  inodeblk := ⟨rfl, rfl⟩
  others _ hc := if_neg hc
  foul := rfl

/-- After inode 1 inode 2 is found in the same block. -/
theorem caches_transparent_iget : ∃ w, Transition.run step Clean twoFs [.iget 0 0 1] = some w ∧
    Agree SameImages (serve .cached (.iget 1 0 2) w.inodes w.lib)
      (serve .direct (.iget 1 0 2) w.inodes w.lib) := by
  have hr : (Transition.run step Clean twoFs [.iget 0 0 1]).map
      (fun w => decide (Clean w (.iget 1 0 2))) = some true := by
    decide
  obtain ⟨w, hw, hclean⟩ := Option.map_eq_some_iff.mp hr
  exact ⟨w, hw, caches_transparent (.of_run twoFs_boot hw) (of_decide_eq_true hclean)⟩

/-- The mode of an inode that the caller has, and the answer. -/
def outcome (h : ℕ) (r : EStateM.Result Stop Lib (Answer × Inodes)) : Answer × ℕ :=
  match r with
  | .ok a _ => (a.1, ((a.2 h).map fun ip => Dsknod.mode ip.ondisk).getD 0)
  | .error _ _ => (.done, 0)

lemma outcome_agree {h : ℕ} {r r' : EStateM.Result Stop Lib (Answer × Inodes)}
    (hr : Agree SameImages r r') : outcome h r = outcome h r' := by
  cases r with
  | ok a s =>
      cases r' with
      | ok a' s' => rw [outcome, outcome, hr.1]
      | error e' s' => exact hr.elim
  | error e s =>
      cases r' with
      | ok a' s' => exact hr.elim
      | error e' s' => rfl

/-- **A foreign and a stale block.**  After inode 1 of the first file system has been read, inode 1 of
the second one is not read at all; and an entry of a directory is what it was before its block was
written. -/
theorem keeps_foreign_and_stale :
    (∃ w, Transition.Reachable step Boot w ∧
      ¬Agree SameImages (serve .cached (.iget 1 1 1) w.inodes w.lib)
        (serve .direct (.iget 1 1 1) w.inodes w.lib)) ∧
    ∃ w, Transition.Reachable step Boot w ∧
      ¬Agree SameImages (serve .cached (.getdirent 0 0) w.inodes w.lib)
        (serve .direct (.getdirent 0 0) w.inodes w.lib) := by
  constructor
  · have hr : (Transition.run step (fun _ _ => True) twoFs [.iget 0 0 1]).map (fun w =>
        (outcome 1 (serve .cached (.iget 1 1 1) w.inodes w.lib),
          outcome 1 (serve .direct (.iget 1 1 1) w.inodes w.lib))) =
        some ((.done, 0xc000), (.done, 0)) := by
      decide
    obtain ⟨w, hw, hout⟩ := Option.map_eq_some_iff.mp hr
    refine ⟨w, .of_run twoFs_boot hw, fun hagree => ?_⟩
    have hsame := outcome_agree (h := 1) hagree
    rw [(Prod.mk.inj hout).1, (Prod.mk.inj hout).2] at hsame
    exact absurd hsame (by decide)
  · have hr : (Transition.run step (fun _ _ => True) twoFs
        [.iget 0 0 1, .getdirent 0 0, .filewrite 0 0 fun _ => 1]).map (fun w =>
        (outcome 0 (serve .cached (.getdirent 0 0) w.inodes w.lib),
          outcome 0 (serve .direct (.getdirent 0 0) w.inodes w.lib))) =
        some ((.entry (some (List.replicate 16 0)), 0xc000),
          (.entry (some (List.replicate 16 1)), 0xc000)) := by
      decide
    obtain ⟨w, hw, hout⟩ := Option.map_eq_some_iff.mp hr
    refine ⟨w, .of_run twoFs_boot hw, fun hagree => ?_⟩
    have hsame := outcome_agree (h := 0) hagree
    rw [(Prod.mk.inj hout).1, (Prod.mk.inj hout).2] at hsame
    exact absurd hsame (by decide)

end Client

end Host

end Micronix
