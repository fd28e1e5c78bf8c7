import Micronix.Dir.Lookup
import Micronix.Lib.Transition
import Mathlib.Data.Set.Card
import Mathlib.Logic.Function.Basic

/-!
# Link counts

A call that succeeds changes one directory entry and the link count of the inode that it names, and
one that fails changes neither, if and only if the directory write succeeds where a call comes to
one.  The calls raise or lower the link count first, and nothing takes that back.

So the link counts are the numbers of entries after every sequence of calls without such a failure.
-/

namespace Micronix

namespace Tree

open Function

variable {t t' : Tree} {i d : Ino} {k n : ℕ} {e : Dirent} {f : Dnode → Dnode}

/-! ## Entries and links -/

/-- An allocated directory. -/
def IsDir (t : Tree) (d : Ino) : Prop := (t.node d).alloc = true ∧ (t.node d).fmt = .IFDIR

instance (t : Tree) (d : Ino) : Decidable (t.IsDir d) := inferInstanceAs (Decidable (_ ∧ _))

/-- The `k`-th entry of a directory, when it is not free. -/
def entry (t : Tree) (d : Ino) (k : ℕ) : Option Dirent :=
  if t.IsDir d then (t.node d).ents[k]?.filter fun e => e.inum ≠ 0 else none

/-- The link count; a free inode has none. -/
def links (t : Tree) (i : Ino) : ℕ := if (t.node i).alloc then (t.node i).nlink else 0

/-- All entries and link counts are as they were. -/
def Unchanged (t t' : Tree) : Prop := t'.entry = t.entry ∧ t'.links = t.links

/-- One entry has been made in a directory, and the inode that it names has one link more. -/
def Makes (d : Ino) (t t' : Tree) : Prop :=
  ∃ k e i, t.entry d k = none ∧ i.dev = d.dev ∧ i.inum = e.inum ∧
    t'.entry = update t.entry d (update (t.entry d) k (some e)) ∧
    t'.links = update t.links i (t.links i + 1)

/-- The path names an inode. -/
def Exists (t : Tree) (w : Walk) : Prop :=
  match t.iname w none with
  | .inode _ _ _ _ _ => True
  | .missing _ _ _ _ => False

/-- What a call does when it succeeds, in the directory that the path leads to. -/
def Does (t t' : Tree) : Call → Prop
  | .link old new l => ∃ p, t.linkCheck old new l = .ok p ∧ Makes p.parent t t'
  | .mknod w _ l => ∃ p, t.imkfileCheck (t.iname w none) l = .ok p ∧ Makes p.parent t t'
  | .unlink w l => ∃ p, t.unlinkCheck w l = .ok p ∧ Makes p.parent t' t
  | .creat w l => (t.Exists w → Unchanged t t') ∧ (¬t.Exists w →
      ∃ p, t.imkfileCheck (t.iname w none) l = .ok p ∧ Makes p.parent t t')

/-- A call succeeds and does this, or fails and does nothing. -/
def Atomic (t : Tree) (c : Call) : Prop :=
  ((t.run c).2 = none → Does t (t.run c).1 c) ∧ ((t.run c).2 ≠ none → Unchanged t (t.run c).1)

/-! ## When the calls are atomic -/

/-- The new entry of a directory has a free place. -/
def Room (t : Tree) (p : Place) : Prop := t.IsDir p.parent ∧ t.entry p.parent (p.offset / 16) = none

/-- `idec` in `unlink` frees the inode. -/
def Frees (t : Tree) (p : Place) : Prop :=
  (t.node p.ip).count = 0 ∧ p.ip ≠ p.parent ∧ (t.node p.ip).nlink ≤ 1

/-- `unlink` comes to its end without error: the path and the blocks of the inode can be read, and
the directory block be written. -/
def Writes (t : Tree) (p : Place) (l : Luck) : Prop :=
  p.error = none ∧ (t.Frees p → l.fault = none) ∧ l.write = none

/-- The condition: the directory write that the call comes to, if it comes to one, succeeds, or
there is no link count to change.  Besides, `u.offset` is the offset of a free entry or of that of
the inode, nothing is mounted on the inode, its count of links can be raised or lowered, a directory
that `unlink` frees has no entries, and what `creat` has made can be opened. -/
def Clean (t : Tree) : Call → Prop
  | .link old new l => ∀ p, t.linkCheck old new l = .ok p →
      (l.write = none → t.Room p ∧ t.iget p.ip = p.ip ∧ (t.node p.ip).alloc = true ∧
        (t.node p.ip).nlink < 255) ∧
      (l.write ≠ none → (t.node (t.iget p.ip)).alloc = false)
  | .unlink w l => ∀ p, t.unlinkCheck w l = .ok p →
      (t.Frees p → ∀ k, t.entry p.ip k = none) ∧
      (t.Writes p l → 0 < t.links p.ip ∧ ∃ e, t.entry p.parent (p.offset / 16) = some e ∧
        p.ip.dev = p.parent.dev ∧ p.ip.inum = e.inum) ∧
      (¬t.Writes p l → t.links p.ip = 0)
  | .creat w l => ¬t.Exists w → ∀ p, t.imkfileCheck (t.iname w none) l = .ok p →
      p.error = none ∧ l.write = none ∧ l.iopen = none ∧ t.Room p
  | .mknod w _ l => l.super = true → ∀ p, t.imkfileCheck (t.iname w none) l = .ok p →
      p.error = none ∧ l.write = none ∧ t.Room p

lemma entry_eq_none (h : ∀ e, (t.node d).ents[k]? = some e → e.inum = 0) : t.entry d k = none := by
  unfold entry
  split_ifs
  · cases he : (t.node d).ents[k]? with
    | none => rfl
    | some e => simp [h e he]
  · rfl

/-- In an allocated directory with less than 4096 entries, all blocks of which can be read, there is
room for a link. -/
lemma room_of_link {old new : Walk} {l : Luck} {p : Place} (hw : new.Readable)
    (h : t.linkCheck old new l = .ok p) (hd : t.IsDir p.parent)
    (hlen : (t.node p.parent).ents.length < 4096) : t.Room p :=
  ⟨hd, entry_eq_none (linkCheck_free hw h hlen)⟩

/-- The same for a new file. -/
lemma room_of_imkfile {w : Walk} {l : Luck} {p : Place} (hw : w.Readable)
    (h : t.imkfileCheck (t.iname w none) l = .ok p) (hd : t.IsDir p.parent)
    (hlen : (t.node p.parent).ents.length < 4096) : t.Room p :=
  ⟨hd, entry_eq_none (imkfileCheck_free hw h hlen)⟩

/-- The entry that `unlink` removes names the inode, unless something is mounted there. -/
lemma named_of_unlink {w : Walk} {l : Luck} {p : Place} (hw : w.Readable)
    (h : t.unlinkCheck w l = .ok p) (hd : t.IsDir p.parent)
    (hlen : (t.node p.parent).ents.length < 4096) (hm : ∀ i, t.mount i = none) : ∃ e, t.entry p.parent (p.offset / 16) = some e ∧
      p.ip.dev = p.parent.dev ∧ p.ip.inum = e.inum := by
  obtain ⟨e, hpos, hent, hi⟩ := unlinkCheck_named hw h hlen
  have hip : p.ip = ⟨p.parent.dev, e.inum, hpos⟩ := by
    rw [← hi]
    simp only [iget, cross, hm]
  refine ⟨e, ?_, by rw [hip], by rw [hip]⟩
  rw [entry, if_pos hd, hent, Option.filter_some, if_pos (by simpa using hpos.ne')]

/-! ## What changes -/

lemma modNode_self (f : Dnode → Dnode) : (t.modNode i f).node i = f (t.node i) := update_self ..

lemma modNode_ne (f : Dnode → Dnode) (h : d ≠ i) : (t.modNode i f).node d = t.node d :=
  update_of_ne h ..

lemma links_modNode (f : Dnode → Dnode) : (t.modNode i f).links = update t.links i
    (if (f (t.node i)).alloc then (f (t.node i)).nlink else 0) := by
  funext j
  by_cases h : j = i
  · subst h
    rw [update_self, links, modNode_self]
  · rw [update_of_ne h, links, modNode_ne f h, links]

/-- A change that leaves the links of the inode. -/
lemma links_same (h : (f (t.node i)).alloc = (t.node i).alloc)
    (hn : (f (t.node i)).nlink = (t.node i).nlink) : (t.modNode i f).links = t.links := by
  rw [links_modNode, h, hn]
  exact update_eq_self i t.links

lemma entry_modNode (f : Dnode → Dnode) : (t.modNode i f).entry = update t.entry i fun k =>
    if (f (t.node i)).alloc = true ∧ (f (t.node i)).fmt = .IFDIR then
      (f (t.node i)).ents[k]?.filter fun e => e.inum ≠ 0 else none := by
  funext j k
  by_cases h : j = i
  · subst h
    simp only [update_self, entry, IsDir, modNode_self]
  · simp only [update_of_ne h, entry, IsDir, modNode_ne f h]
    rfl

/-- A change that leaves the entries of the inode. -/
lemma entry_same (ha : (f (t.node i)).alloc = (t.node i).alloc)
    (hf : (f (t.node i)).fmt = (t.node i).fmt) (he : (f (t.node i)).ents = (t.node i).ents) :
    (t.modNode i f).entry = t.entry := by
  rw [entry_modNode, ha, hf, he]
  exact update_eq_self i t.entry

/-- One entry of the list is written, and what is added to reach it is free. -/
lemma putEnt_get (l : List Dirent) (k j : ℕ) (e : Dirent) :
    (putEnt l k e)[j]?.filter (fun e => e.inum ≠ 0) =
      update (fun j => l[j]?.filter fun e => e.inum ≠ 0) k ((some e).filter fun e => e.inum ≠ 0) j := by
  unfold putEnt
  split_ifs with hk
  · by_cases hj : j = k
    · subst hj
      rw [update_self, List.getElem?_set_self hk]
    · rw [update_of_ne hj, List.getElem?_set_ne (Ne.symm hj)]
  · have hlen : (l ++ List.replicate (k - l.length) (⟨0, []⟩ : Dirent)).length = k := by
      simp only [List.length_append, List.length_replicate]
      omega
    by_cases hj : j = k
    · subst hj
      rw [update_self, List.getElem?_append_right hlen.le, hlen, Nat.sub_self]
      rfl
    · rw [update_of_ne hj]
      by_cases hjl : j < l.length
      · rw [List.getElem?_append_left (by omega), List.getElem?_append_left hjl]
      · rw [List.getElem?_eq_none (Nat.le_of_not_lt hjl)]
        by_cases hjk : j < k
        · rw [List.getElem?_append_left (by omega),
            List.getElem?_append_right (Nat.le_of_not_lt hjl), List.getElem?_replicate,
            if_pos (by omega)]
          rfl
        · have hle : (l ++ List.replicate (k - l.length) (⟨0, []⟩ : Dirent) ++ [e]).length ≤ j := by
            rw [List.length_append, hlen, List.length_singleton]
            omega
          rw [List.getElem?_eq_none hle]

/-- The entry that `ilink` writes. -/
def written (p : Place) (inum : ℕ) : Option Dirent :=
  (some ⟨inum, p.name⟩ : Option Dirent).filter fun e => e.inum ≠ 0

lemma ilink_some (t : Tree) (p : Place) (inum : ℕ) {a b : Option Errno}
    (h : ¬(a = none ∧ b = none)) :
    ∃ e, ilink t p inum a b = (t, some e) := by
  unfold ilink
  cases a with
  | some e => exact ⟨e, rfl⟩
  | none =>
      cases b with
      | some e => exact ⟨e, rfl⟩
      | none => exact absurd ⟨rfl, rfl⟩ h

lemma ilink_none (t : Tree) (p : Place) (inum : ℕ) :
    (ilink t p inum none none).2 = none ∧ (ilink t p inum none none).1.links = t.links ∧
      (ilink t p inum none none).1.entry = if t.IsDir p.parent then
        update t.entry p.parent (update (t.entry p.parent) (p.offset / 16) (written p inum))
        else t.entry := by
  refine ⟨rfl, links_same (f := fun x =>
    { x with ents := putEnt x.ents (p.offset / 16) ⟨inum, p.name⟩ }) rfl rfl, ?_⟩
  simp only [ilink, entry_modNode]
  by_cases hd : t.IsDir p.parent
  · have ht : t.entry p.parent = fun j => (t.node p.parent).ents[j]?.filter fun e => e.inum ≠ 0 :=
      funext fun j => if_pos hd
    rw [if_pos hd]
    refine congrArg _ (funext fun k => ?_)
    refine (if_pos hd).trans ?_
    rw [putEnt_get, ht]
    rfl
  · have ht : t.entry p.parent = fun _ => none := funext fun j => if_neg hd
    rw [if_neg hd]
    refine (congrArg _ (funext fun k => ?_)).trans (update_eq_self p.parent t.entry)
    refine (if_neg hd).trans ?_
    rw [ht]

/-! ## `link` -/

/-- A count that has changed is not as it was. -/
lemma update_ne {α β : Type*} [DecidableEq α] {g : α → β} {a : α} {b : β} (h : b ≠ g a) :
    update g a b ≠ g := fun e => h (by rw [← congrFun e a, update_self])

lemma Makes.entry_ne (h : Makes d t t') : t'.entry ≠ t.entry := by
  obtain ⟨k, e, i, h0, -, -, he, -⟩ := h
  intro hs
  have := congrFun (congrFun he d) k
  rw [hs, h0, update_self, update_self] at this
  simp at this

/-- The inode whose count has changed. -/
lemma Makes.links_of_update (h : Makes d t t') (hl : t'.links = update t.links i n) :
    ∃ k e, t.entry d k = none ∧ i.dev = d.dev ∧ i.inum = e.inum ∧
      t'.entry = update t.entry d (update (t.entry d) k (some e)) ∧ n = t.links i + 1 := by
  obtain ⟨k, e, i', h0, hdev, hinum, he, hl'⟩ := h
  have hi : i' = i := by
    by_contra hne
    have := congrFun (hl.symm.trans hl') i'
    rw [update_self, update_of_ne hne] at this
    omega
  subst hi
  have hn := congrFun (hl.symm.trans hl') i'
  simp only [update_self] at hn
  exact ⟨k, e, h0, hdev, hinum, he, hn⟩

/-- The inode that has one link more is the one that the entry names. -/
lemma Makes.of_update (h : Makes d t t') {w : Option Dirent}
    (he : t'.entry = update t.entry d (update (t.entry d) k w)) (hl : t'.links = update t.links i n) :
    t.entry d k = none ∧ (∃ e, w = some e ∧ i.dev = d.dev ∧ i.inum = e.inum) ∧ n = t.links i + 1 := by
  obtain ⟨k', e, h0, hdev, hinum, he', hn⟩ := h.links_of_update hl
  have hk : k' = k := by
    by_contra hne
    have h1 := congrFun (congrFun (he.symm.trans he') d) k'
    rw [update_self, update_self, update_self, update_of_ne hne, h0] at h1
    simp at h1
  subst hk
  have hw := congrFun (congrFun (he.symm.trans he') d) k'
  simp only [update_self] at hw
  exact ⟨h0, ⟨e, hw, hdev, hinum⟩, hn⟩

lemma isDir_modNode (ha : (f (t.node i)).alloc = (t.node i).alloc)
    (hf : (f (t.node i)).fmt = (t.node i).fmt) : (t.modNode i f).IsDir d ↔ t.IsDir d := by
  unfold IsDir
  by_cases h : d = i
  · subst h
    rw [modNode_self, ha, hf]
  · rw [modNode_ne f h]

lemma written_inum (p : Place) (i : Ino) : written p i.inum = some ⟨i.inum, p.name⟩ := by
  have := i.pos
  simp only [written, Option.filter_some, ne_eq]
  rw [if_pos (by simpa using this.ne')]

lemma written_zero (p : Place) : written p 0 = none := rfl

lemma Ino.ext_iff' {i j : Ino} : i = j ↔ i.dev = j.dev ∧ i.inum = j.inum := by
  cases i
  cases j
  simp

lemma unchanged_self (t : Tree) : Unchanged t t := ⟨rfl, rfl⟩

variable {c : Call} {p : Place} {l : Luck} {old new w : Walk} {err : Errno}

/-- A call that is refused. -/
lemma atomic_of_refused (h : t.run c = (t, some err)) : t.Atomic c := by
  rw [Atomic, h]
  exact ⟨fun hn => absurd hn (by simp), fun _ => unchanged_self t⟩

lemma atomic_of_some (h : t.run c = (t', some err)) : t.Atomic c ↔ Unchanged t t' := by
  rw [Atomic, h]
  simp

lemma atomic_of_none (h1 : (t.run c).1 = t') (h2 : (t.run c).2 = none) :
    t.Atomic c ↔ Does t t' c := by
  rw [Atomic, h1, h2]
  simp

/-- The checks of `link` have found both directories on one device. -/
lemma linkCheck_dev (h : t.linkCheck old new l = .ok p) :
    p.parent.dev = p.ip.dev ∧ p.error = none := by
  unfold linkCheck at h
  split at h
  · simp at h
  · split at h
    · simp at h
    · split at h
      · simp at h
      · split at h
        · simp at h
        · simp at h
        · split_ifs at h with h1 h2 h3 h4
          obtain rfl := Except.ok.inj h
          exact ⟨not_not.mp h2, rfl⟩

/-- **`link`.** -/
lemma link_atomic : t.Atomic (.link old new l) ↔ t.Clean (.link old new l) := by
  cases hc : t.linkCheck old new l with
  | error e =>
      have hr : t.run (.link old new l) = (t, some e) := by simp only [run, link, hc]
      refine iff_of_true (atomic_of_refused hr) fun p hp => ?_
      rw [hc] at hp
      exact absurd hp (by simp)
  | ok p =>
      set g : Dnode → Dnode := fun x => { x with nlink := (x.nlink + 1) % 256 } with hg
      set j := t.iget p.ip with hj
      have hrun : t.run (.link old new l)
          = ilink (t.modNode j g) p p.ip.inum none l.write := by
        simp only [run, link, hc, hj, hg]
      have hlinks : (t.modNode j g).links = update t.links j
          (if (t.node j).alloc then ((t.node j).nlink + 1) % 256 else 0) := links_modNode g
      have hentry : (t.modNode j g).entry = t.entry := entry_same rfl rfl rfl
      have hclean : t.Clean (.link old new l) ↔
          (l.write = none → t.Room p ∧ j = p.ip ∧ (t.node p.ip).alloc = true ∧
            (t.node p.ip).nlink < 255) ∧ (l.write ≠ none → (t.node j).alloc = false) := by
        refine ⟨fun h => h p hc, fun h q hq => ?_⟩
        obtain rfl := Except.ok.inj (hc.symm.trans hq)
        exact h
      rw [hclean]
      obtain ⟨hdev, -⟩ := linkCheck_dev hc
      cases hw : l.write with
      | some e =>
          obtain ⟨e', he'⟩ := ilink_some (t.modNode j g) p p.ip.inum (a := none)
            (b := some e) (by simp)
          rw [hw, he'] at hrun
          rw [atomic_of_some hrun, Unchanged, hlinks, hentry]
          simp only [reduceCtorEq, IsEmpty.forall_iff, true_and, ne_eq, not_false_eq_true,
            forall_const]
          constructor
          · intro hu
            by_contra ha
            rw [Bool.not_eq_false] at ha
            have := congrFun hu j
            rw [update_self, if_pos ha, links, if_pos ha] at this
            omega
          · intro ha
            rw [if_neg (by simp [ha])]
            exact update_eq_self_iff.mpr (by simp [links, ha])
      | none =>
          rw [hw] at hrun
          obtain ⟨h2, hl, he⟩ := ilink_none (t.modNode j g) p p.ip.inum
          rw [hentry] at he
          rw [atomic_of_none (congrArg Prod.fst hrun) ((congrArg Prod.snd hrun).trans h2)]
          simp only [forall_const, ne_eq, not_true_eq_false, IsEmpty.forall_iff, and_true]
          have hdoes : Does t (ilink (t.modNode j g) p p.ip.inum none none).1 (.link old new l) ↔
              Makes p.parent t (ilink (t.modNode j g) p p.ip.inum none none).1 := by
            refine ⟨?_, fun h => ⟨p, hc, h⟩⟩
            rintro ⟨q, hq, h⟩
            obtain rfl := Except.ok.inj (hc.symm.trans hq)
            exact h
          rw [hdoes]
          rw [hlinks] at hl
          rw [written_inum, if_congr (isDir_modNode rfl rfl) rfl rfl] at he
          constructor
          · intro hm
            have hdir : t.IsDir p.parent := by
              by_contra hd
              rw [if_neg hd] at he
              exact hm.entry_ne he
            rw [if_pos hdir] at he
            obtain ⟨h0, ⟨e, hwr, hd1, hd2⟩, hn⟩ := hm.of_update he hl
            obtain rfl := Option.some.inj hwr
            have hji : j = p.ip := Ino.ext_iff'.mpr ⟨hd1.trans hdev, hd2⟩
            have ha : (t.node j).alloc = true := by
              by_contra ha
              rw [if_neg ha] at hn
              omega
            rw [if_pos ha, links, if_pos ha] at hn
            rw [← hji]
            exact ⟨⟨hdir, h0⟩, rfl, ha, by omega⟩
          · rintro ⟨⟨hdir, h0⟩, hji, ha, hn⟩
            rw [if_pos hdir] at he
            refine ⟨p.offset / 16, _, p.ip, h0, hdev.symm, rfl, he, hl.trans ?_⟩
            rw [hji, links, if_pos ha, if_pos ha, Nat.mod_eq_of_lt (by omega)]

/-! ## `unlink` -/

/-- What `idec` leaves of the entries. -/
def freedEntry (t : Tree) (p : Place) [Decidable (t.Frees p)] : Ino → ℕ → Option Dirent :=
  if t.Frees p then update t.entry p.ip fun _ => none else t.entry

instance (t : Tree) (p : Place) : Decidable (t.Frees p) := inferInstanceAs (Decidable (_ ∧ _ ∧ _))

/-- `unlink` up to the directory write: the link count is lowered, and an inode without links and
references is freed. -/
lemma unlink_spec (h : t.unlinkCheck w l = .ok p) :
    ∃ u err, t.run (.unlink w l) = ilink u p 0 err l.write ∧
      u.links = update t.links p.ip (t.links p.ip - 1) ∧ u.entry = t.freedEntry p ∧
      (u.IsDir p.parent ↔ t.IsDir p.parent) ∧
      (err = none ↔ p.error = none ∧ (t.Frees p → l.fault = none)) := by
  set g : Dnode → Dnode := fun x =>
    { x with nlink := if 0 < x.nlink then x.nlink - 1 else x.nlink } with hg
  set up : Dnode → Dnode := fun x => { x with count := x.count + 1 } with hup
  set down : Dnode → Dnode := fun x => { x with count := x.count - 1 } with hdown
  set t₁ := (t.modNode p.ip g).modNode p.parent up with ht₁
  have hl₁ : t₁.links = update t.links p.ip (t.links p.ip - 1) := by
    rw [ht₁, links_same rfl rfl, links_modNode]
    refine congrArg _ ?_
    unfold links
    split_ifs
    all_goals simp only [hg] at *
    all_goals first | omega | simp_all
  have he₁ : t₁.entry = t.entry := by
    rw [ht₁, entry_same rfl rfl rfl, entry_same rfl rfl rfl]
  have hd₁ : t₁.IsDir p.parent ↔ t.IsDir p.parent := by
    rw [ht₁, isDir_modNode rfl rfl, isDir_modNode rfl rfl]
  have hfrees : ((t₁.node p.ip).count = 0 ∧ (t₁.node p.ip).nlink = 0) ↔ t.Frees p := by
    by_cases hip : p.ip = p.parent
    · -- the parent has one more reference
      rw [ht₁, hip, modNode_self]
      exact iff_of_false (fun h0 => Nat.succ_ne_zero _ h0.1) fun hf => hf.2.1 hip
    · rw [ht₁, modNode_ne up hip, modNode_self]
      refine and_congr_right fun _ => ⟨fun h0 => ⟨hip, ?_⟩, fun h0 => ?_⟩
      · simp only [hg] at h0
        split_ifs at h0 <;> omega
      · have := h0.2
        simp only [hg]
        split_ifs <;> omega
  have hrun : t.run (.unlink w l) = ilink ((t₁.idec p.ip p.error l.fault).1.modNode p.parent down) p
      0 (t₁.idec p.ip p.error l.fault).2 l.write := by
    simp only [run, unlink, h, ht₁, hg, hup, hdown]
  have hd : ∀ v : Tree, (v.modNode p.parent down).links = v.links ∧
      (v.modNode p.parent down).entry = v.entry ∧
      ((v.modNode p.parent down).IsDir p.parent ↔ v.IsDir p.parent) := fun v =>
    ⟨links_same rfl rfl, entry_same rfl rfl rfl, isDir_modNode rfl rfl⟩
  refine ⟨_, _, hrun, ?_⟩
  rw [(hd _).1, (hd _).2.1, (hd _).2.2]
  by_cases hF : t.Frees p
  · have hidec : t₁.idec p.ip p.error l.fault = _ := if_pos (hfrees.mpr hF)
    have h0 : t.links p.ip - 1 = 0 := by
      have := hF.2.2
      unfold links
      split_ifs <;> omega
    rw [hidec, links_modNode, entry_modNode, hl₁, he₁, h0, freedEntry, if_pos hF]
    refine ⟨update_idem .., rfl, ?_, ?_⟩
    · rw [← hd₁, IsDir, IsDir, modNode_ne _ (Ne.symm hF.2.1)]
    · cases l.fault with
      | some e => simp [hF]
      | none => simp
  · have hidec : t₁.idec p.ip p.error l.fault = (t₁, p.error) := if_neg fun h0 => hF (hfrees.mp h0)
    rw [hidec, freedEntry, if_neg hF]
    exact ⟨hl₁, he₁, hd₁, by simp [hF]⟩

/-- What holds of the place that the checks have found. -/
lemma exists_place {P : Place → Prop} {r : Except Errno Place} (h : r = .ok p) :
    ((∃ q, r = .ok q ∧ P q) ↔ P p) ∧ ((∀ q, r = .ok q → P q) ↔ P p) := by
  subst h
  refine ⟨⟨?_, fun h => ⟨p, rfl, h⟩⟩, fun h => h p rfl, ?_⟩
  · rintro ⟨q, hq, h⟩
    obtain rfl := Except.ok.inj hq
    exact h
  · intro h q hq
    obtain rfl := Except.ok.inj hq
    exact h

/-- **`unlink`.** -/
lemma unlink_atomic : t.Atomic (.unlink w l) ↔ t.Clean (.unlink w l) := by
  cases hc : t.unlinkCheck w l with
  | error e =>
      have hr : t.run (.unlink w l) = (t, some e) := by simp only [run, unlink, hc]
      refine iff_of_true (atomic_of_refused hr) fun p hp => ?_
      rw [hc] at hp
      exact absurd hp (by simp)
  | ok p =>
      obtain ⟨u, err, hrun, hl, he, hd, herr⟩ := unlink_spec hc
      rw [Clean, (exists_place hc).2]
      have hfreed : t.freedEntry p = t.entry ↔ (t.Frees p → ∀ k, t.entry p.ip k = none) := by
        unfold freedEntry
        split_ifs with hF
        · rw [update_eq_self_iff]
          exact ⟨fun h _ k => by rw [← h], fun h => (funext (h hF)).symm⟩
        · exact iff_of_true rfl fun h => absurd h hF
      by_cases hw : t.Writes p l
      · have herr0 : err = none := herr.mpr ⟨hw.1, hw.2.1⟩
        rw [herr0, hw.2.2] at hrun
        obtain ⟨h2, hl', he'⟩ := ilink_none u p 0
        set t' := (ilink u p 0 none none).1 with ht'
        rw [atomic_of_none (congrArg Prod.fst hrun) ((congrArg Prod.snd hrun).trans h2), Does,
          (exists_place hc).1]
        rw [hl] at hl'
        rw [if_congr hd rfl rfl, he, written_zero] at he'
        have hparent : t.freedEntry p p.parent = t.entry p.parent := by
          unfold freedEntry
          split_ifs with hF
          · exact update_of_ne (Ne.symm hF.2.1) ..
          · rfl
        simp only [hw, forall_const, not_true_eq_false, IsEmpty.forall_iff, and_true]
        constructor
        · intro hm
          have hback : t.links = update t'.links p.ip (t.links p.ip) := by
            rw [hl', update_idem, update_eq_self]
          obtain ⟨k, e, h0, hdev, hinum, hent, hn⟩ := hm.links_of_update hback
          have hsome : t.entry p.parent k = some e := by
            rw [hent, update_self, update_self]
          have hdir : t.IsDir p.parent := by
            by_contra hdir
            simp [entry, if_neg hdir] at hsome
          rw [if_pos hdir] at he'
          have hk : k = p.offset / 16 := by
            by_contra hk
            rw [he', update_self, update_of_ne hk, hparent, hsome] at h0
            simp at h0
          refine ⟨fun hF k' => ?_, by omega, e, hk ▸ hsome, hdev, hinum⟩
          rw [hent, update_of_ne hF.2.1, he', update_of_ne hF.2.1, freedEntry, if_pos hF, update_self]
        · rintro ⟨hF, hpos, e, hsome, hdev, hinum⟩
          have hdir : t.IsDir p.parent := by
            by_contra hdir
            simp [entry, if_neg hdir] at hsome
          rw [if_pos hdir, hfreed.mpr hF] at he'
          refine ⟨p.offset / 16, e, p.ip, ?_, hdev, hinum, ?_, ?_⟩
          · rw [he', update_self, update_self]
          · rw [he', update_self, update_idem, update_idem, ← hsome, update_eq_self, update_eq_self]
          · rw [hl', update_self, update_idem, Nat.sub_add_cancel hpos, update_eq_self]
      · have hne : ¬(err = none ∧ l.write = none) := fun h =>
          hw ⟨(herr.mp h.1).1, (herr.mp h.1).2, h.2⟩
        obtain ⟨e', he'⟩ := ilink_some u p 0 hne
        rw [he'] at hrun
        rw [atomic_of_some hrun, Unchanged, he, hl, hfreed, update_eq_self_iff]
        simp only [hw, IsEmpty.forall_iff, not_false_eq_true, forall_const, true_and]
        exact and_congr_right fun _ => by omega

/-! ## `creat` and `mknod` -/

/-- The inode that `ialloc` gets is free, and on the device of the directory. -/
lemma imkfileCheck_spec {f : Found} (h : t.imkfileCheck f l = .ok p) :
    (t.node p.ip).alloc = false ∧ p.ip.dev = p.parent.dev ∧ p.ip ≠ p.parent := by
  unfold imkfileCheck at h
  split at h
  · simp at h
  · simp at h
  · split_ifs at h
    split at h
    · simp at h
    · split_ifs at h with h1 h2
      obtain rfl := Except.ok.inj h
      obtain ⟨ha, hp⟩ := not_or.mp h2
      exact ⟨by simpa using ha, rfl, hp⟩

lemma ilink_node_ne {inum : ℕ} {error write : Option Errno} (h : d ≠ p.parent) :
    (ilink t p inum error write).1.node d = t.node d := by
  unfold ilink
  split
  · rfl
  · split
    · rfl
    · exact modNode_ne (fun x =>
        { x with ents := putEnt x.ents (p.offset / 16) ⟨inum, p.name⟩ }) h

/-- `imkfile`: the new inode has one link, and an entry if the directory write succeeds. -/
lemma imkfile_spec {f : Found} {m : Ifmt} (h : t.imkfileCheck f l = .ok p) :
    (imkfile t p m l).1.links = update t.links p.ip (t.links p.ip + 1) ∧
      ((imkfile t p m l).2 = none ↔ p.error = none ∧ l.write = none) ∧
      (p.error = none ∧ l.write = none → (imkfile t p m l).1.entry = if t.IsDir p.parent then
        update t.entry p.parent (update (t.entry p.parent) (p.offset / 16)
          (some ⟨p.ip.inum, p.name⟩)) else t.entry) := by
  obtain ⟨ha, -, hne⟩ := imkfileCheck_spec h
  have h0 : t.links p.ip = 0 := if_neg (by simp [ha])
  have hip : t.entry p.ip = fun _ => none := funext fun k => if_neg fun hd => by simp [hd.1] at ha
  set t₁ := t.modNode p.ip fun _ => ⟨true, .IFREG, 0, 0, []⟩ with ht₁
  set r := ilink t₁ p p.ip.inum p.error l.write with hr
  have hrun : imkfile t p m l = (r.1.modNode p.ip fun x => { x with nlink := 1, fmt := m }, r.2) := rfl
  have hl₁ : t₁.links = t.links := by
    rw [ht₁, links_modNode]
    exact update_eq_self_iff.mpr h0.symm
  have he₁ : t₁.entry = t.entry := by
    rw [ht₁, entry_modNode, update_eq_self_iff, hip]
    exact funext fun k => if_neg (by simp)
  have hd₁ : t₁.IsDir p.parent ↔ t.IsDir p.parent := by
    rw [IsDir, IsDir, ht₁, modNode_ne _ hne.symm]
  have hnode : r.1.node p.ip = ⟨true, .IFREG, 0, 0, []⟩ := by
    rw [hr, ilink_node_ne hne, ht₁, modNode_self]
  rw [hrun]
  by_cases hw : p.error = none ∧ l.write = none
  · obtain ⟨h2, hl, he⟩ := ilink_none t₁ p p.ip.inum
    have hr' : r = ilink t₁ p p.ip.inum none none := by rw [hr, hw.1, hw.2]
    rw [← hr'] at h2 hl he
    rw [links_modNode, entry_modNode, hnode, hl, hl₁, h0, he, he₁, written_inum,
      if_congr hd₁ rfl rfl]
    refine ⟨rfl, iff_of_true h2 hw, fun _ => ?_⟩
    refine update_eq_self_iff.mpr (funext fun k => ?_)
    have hk : (if t.IsDir p.parent then update t.entry p.parent (update (t.entry p.parent)
        (p.offset / 16) (some ⟨p.ip.inum, p.name⟩)) else t.entry) p.ip k = none := by
      split_ifs
      · rw [update_of_ne hne, hip]
      · rw [hip]
    rw [hk]
    split_ifs <;> rfl
  · obtain ⟨e, he⟩ := ilink_some t₁ p p.ip.inum hw
    have hr' : r = (t₁, some e) := he
    rw [links_modNode, hnode, hr', hl₁, h0]
    exact ⟨rfl, iff_of_false (by simp) hw, fun h => absurd h hw⟩

/-- A new entry for an inode that has one link more. -/
lemma makes_iff (hdev : p.ip.dev = p.parent.dev)
    (hl : t'.links = update t.links p.ip (t.links p.ip + 1))
    (he : t'.entry = if t.IsDir p.parent then
      update t.entry p.parent (update (t.entry p.parent) (p.offset / 16)
        (some ⟨p.ip.inum, p.name⟩)) else t.entry) : Makes p.parent t t' ↔ t.Room p := by
  constructor
  · intro hm
    have hdir : t.IsDir p.parent := by
      by_contra hdir
      rw [if_neg hdir] at he
      exact hm.entry_ne he
    rw [if_pos hdir] at he
    exact ⟨hdir, (hm.of_update he hl).1⟩
  · rintro ⟨hdir, h0⟩
    rw [if_pos hdir] at he
    exact ⟨_, _, p.ip, h0, hdev, rfl, he, hl⟩

/-- A file that has been made has a link, whether it has an entry or not. -/
lemma not_unchanged (hl : t'.links = update t.links i (t.links i + 1)) : ¬Unchanged t t' := fun h =>
  update_ne (Nat.succ_ne_self _) (hl.symm.trans h.2)

/-- **`mknod`.** -/
lemma mknod_atomic {fmt : Ifmt} : t.Atomic (.mknod w fmt l) ↔ t.Clean (.mknod w fmt l) := by
  by_cases hs : l.super = true
  · cases hc : t.imkfileCheck (t.iname w none) l with
    | error e =>
        have hr : t.run (.mknod w fmt l) = (t, some e) := by
          simp only [run, mknod, hc, hs, not_true_eq_false, if_false]
        refine iff_of_true (atomic_of_refused hr) fun _ p hp => ?_
        rw [hc] at hp
        exact absurd hp (by simp)
    | ok p =>
        have hr : t.run (.mknod w fmt l) = imkfile t p fmt l := by
          simp only [run, mknod, hc, hs, not_true_eq_false, if_false]
        obtain ⟨hl, herr, he⟩ := imkfile_spec (m := fmt) hc
        rw [Clean, (exists_place hc).2]
        simp only [hs, forall_const]
        by_cases hw : p.error = none ∧ l.write = none
        · rw [atomic_of_none (congrArg Prod.fst hr) ((congrArg Prod.snd hr).trans (herr.mpr hw)),
            Does, (exists_place hc).1, makes_iff (imkfileCheck_spec hc).2.1 hl (he hw)]
          exact ⟨fun h => ⟨hw.1, hw.2, h⟩, fun h => h.2.2⟩
        · obtain ⟨e, hsome⟩ := Option.ne_none_iff_exists'.mp fun h => hw (herr.mp h)
          rw [atomic_of_some (hr.trans (Prod.ext rfl hsome))]
          exact iff_of_false (not_unchanged hl) fun h => hw ⟨h.1, h.2.1⟩
  · have hr : t.run (.mknod w fmt l) = (t, some .EPERM) := by
      simp only [run, mknod]
      exact if_pos hs
    exact iff_of_true (atomic_of_refused hr) fun h => absurd h hs

lemma iopen_spec (t : Tree) (ip : Ino) (error : Option Errno) (l : Luck) :
    (iopen t ip error l).1.links = t.links ∧ (iopen t ip error l).1.entry = t.entry ∧
      ((iopen t ip error l).2 = none ↔ error = none ∧ l.iopen = none) := by
  unfold iopen
  cases error with
  | some e => simp
  | none =>
      cases l.iopen with
      | some e => simp
      | none =>
          set g : Dnode → Dnode := fun x => { x with count := x.count + 1 }
          exact ⟨links_same (f := g) rfl rfl, entry_same (f := g) rfl rfl rfl, by simp⟩

/-- **`creat`.** -/
lemma creat_atomic : t.Atomic (.creat w l) ↔ t.Clean (.creat w l) := by
  cases hf : t.iname w none with
  | inode ip parent offset name e =>
      have hex : t.Exists w := by simp only [Exists, hf]
      have hu : Unchanged t (t.run (.creat w l)).1 := by
        simp only [run, creat, hf]
        split_ifs
        · exact unchanged_self t
        · exact ⟨(iopen_spec ..).2.1, (iopen_spec ..).1⟩
        · exact unchanged_self t
      exact iff_of_true ⟨fun _ => ⟨fun _ => hu, fun h => absurd hex h⟩, fun _ => hu⟩
        fun h => absurd hex h
  | missing parent offset name e =>
      have hex : ¬t.Exists w := by simp only [Exists, hf, not_false_eq_true]
      cases hc : t.imkfileCheck (t.iname w none) l with
      | error e =>
          have hr : t.run (.creat w l) = (t, some e) := by
            rw [hf] at hc
            simp only [run, creat, hf, hc]
          refine iff_of_true (atomic_of_refused hr) fun _ p hp => ?_
          rw [hc] at hp
          exact absurd hp (by simp)
      | ok p =>
          obtain ⟨hl, herr, he⟩ := imkfile_spec (m := .IFREG) hc
          have hr : t.run (.creat w l)
              = iopen (imkfile t p .IFREG l).1 p.ip (imkfile t p .IFREG l).2 l := by
            rw [hf] at hc
            simp only [run, creat, hf, hc]
          obtain ⟨hl', he', herr'⟩ := iopen_spec (imkfile t p .IFREG l).1 p.ip
            (imkfile t p .IFREG l).2 l
          rw [← hr] at hl' he' herr'
          rw [hl] at hl'
          rw [Clean, (exists_place hc).2]
          simp only [hex, not_false_eq_true, forall_const]
          by_cases hw : (p.error = none ∧ l.write = none) ∧ l.iopen = none
          · rw [he hw.1] at he'
            rw [atomic_of_none rfl (herr'.mpr ⟨herr.mpr hw.1, hw.2⟩), Does]
            simp only [hex, IsEmpty.forall_iff, not_false_eq_true, forall_const, true_and]
            rw [(exists_place hc).1, makes_iff (imkfileCheck_spec hc).2.1 hl' he']
            exact ⟨fun h => ⟨hw.1.1, hw.1.2, hw.2, h⟩, fun h => h.2.2.2⟩
          · obtain ⟨e, hsome⟩ := Option.ne_none_iff_exists'.mp fun h =>
              hw ⟨herr.mp (herr'.mp h).1, (herr'.mp h).2⟩
            rw [atomic_of_some (Prod.ext rfl hsome)]
            exact iff_of_false (not_unchanged hl') fun h => hw ⟨⟨h.1, h.2.1⟩, h.2.2.1⟩

/-- **When a call is atomic.** -/
lemma atomic_iff (t : Tree) (c : Call) : t.Atomic c ↔ t.Clean c := by
  cases c with
  | link old new l => exact link_atomic
  | unlink w l => exact unlink_atomic
  | creat w l => exact creat_atomic
  | mknod w fmt l => exact mknod_atomic

/-! ## Runs -/

/-- The entries that name an inode. -/
def names (t : Tree) (i : Ino) : Set (Ino × ℕ) :=
  { x | ∃ e, t.entry x.1 x.2 = some e ∧ i.dev = x.1.dev ∧ i.inum = e.inum }

/-- The link counts are the numbers of entries. -/
def Counted (t : Tree) : Prop := ∀ i, (t.names i).encard = t.links i

/-- The system goes from call to call. -/
def step (t : Tree) (c : Call) : Option Tree := some (t.run c).1

lemma names_of_entry (h : t'.entry = t.entry) (i : Ino) : t'.names i = t.names i := by
  simp only [names, h]

/-- A new entry names one inode. -/
lemma Makes.names (h : Makes d t t') : ∃ k i, (d, k) ∉ t.names i ∧
    t'.links = update t.links i (t.links i + 1) ∧
    ∀ j, t'.names j = if j = i then insert (d, k) (t.names j) else t.names j := by
  obtain ⟨k, e, i, h0, hdev, hinum, he, hl⟩ := h
  refine ⟨k, i, ?_, hl, fun j => Set.ext fun x => ?_⟩
  · rintro ⟨e', he', -⟩
    simp [h0] at he'
  · have hx : t'.entry x.1 x.2 = if x = (d, k) then some e else t.entry x.1 x.2 := by
      obtain ⟨a, b⟩ := x
      rw [he]
      by_cases ha : a = d
      · subst ha
        by_cases hb : b = k
        · subst hb
          simp
        · simp [hb]
      · simp [ha]
    simp only [Tree.names, Set.mem_ofPred_eq, hx]
    split_ifs with h1 h2 h2
    · subst h1 h2
      simp [hdev, hinum]
    · subst h1
      simp only [Option.some.injEq, exists_eq_left', Set.mem_ofPred_eq, h0, reduceCtorEq, false_and,
        exists_false, iff_false]
      exact fun hji => h2 (Ino.ext_iff'.mpr ⟨hji.1.trans hdev.symm, hji.2.trans hinum.symm⟩)
    · rw [Set.mem_insert_iff, or_iff_right h1]
      rfl
    · rfl

/-- Making an entry keeps the counts right, and so does removing one. -/
lemma Makes.counted (h : Makes d t t') : Counted t ↔ Counted t' := by
  obtain ⟨k, i, hnot, hl, hn⟩ := h.names
  have hj : ∀ j, (t'.names j).encard = t'.links j ↔ (t.names j).encard = t.links j := by
    intro j
    rw [hn, hl]
    by_cases hji : j = i
    · subst hji
      rw [if_pos rfl, update_self, Set.encard_insert_of_notMem hnot, Nat.cast_add, Nat.cast_one]
      exact (ENat.add_left_injective_of_ne_top ENat.one_ne_top).eq_iff
    · rw [if_neg hji, update_of_ne hji]
  exact ⟨fun h j => (hj j).mpr (h j), fun h j => (hj j).mp (h j)⟩

lemma Unchanged.counted (h : Unchanged t t') (hc : Counted t) : Counted t' := fun i => by
  rw [names_of_entry h.1, h.2]
  exact hc i

/-- One call. -/
lemma Counted.step (h : Counted t) (hc : t.Clean c) : Counted (t.run c).1 := by
  obtain ⟨hs, hf⟩ := (atomic_iff t c).mpr hc
  by_cases h2 : (t.run c).2 = none
  · have hd := hs h2
    cases c with
    | link old new l | mknod w fmt l =>
        obtain ⟨p, -, hm⟩ := hd
        exact hm.counted.mp h
    | unlink w l =>
        obtain ⟨p, -, hm⟩ := hd
        exact hm.counted.mpr h
    | creat w l =>
        by_cases hex : t.Exists w
        · exact (hd.1 hex).counted h
        · obtain ⟨p, -, hm⟩ := hd.2 hex
          exact hm.counted.mp h
  · exact (hf h2).counted h

/-- An empty root directory, inode 1 of device 0. -/
def empty : Tree where
  node i := if i.dev = 0 ∧ i.inum = 1 then ⟨true, .IFDIR, 0, 1, []⟩ else ⟨false, .IFREG, 0, 0, []⟩
  mount _ := none

def root : Ino := ⟨0, 1, by decide⟩

/-- The first file. -/
def file : Ino := ⟨0, 2, by decide⟩

/-- A path of one name from the root. -/
def at_ (c : UInt8) : Walk := ⟨root, [[c]], fun _ => true, fun _ _ => true, fun _ => true⟩

/-- Everything that is asked for is had, and `ialloc` gets inode 2. -/
def luck : Luck := ⟨true, true, true, some (2, none), none, none, none⟩

lemma counted_empty : Counted empty := by
  intro i
  have hents : ∀ d, (empty.node d).ents = [] := fun d => by
    simp only [empty]
    split_ifs <;> rfl
  have hn : empty.names i = ∅ := by
    refine Set.eq_empty_of_forall_notMem ?_
    rintro x ⟨e, he, -⟩
    rw [entry_eq_none (by simp [hents])] at he
    simp at he
  have hl : empty.links i = 0 := by
    simp only [links, empty]
    split_ifs <;> rfl
  rw [hn, hl, Set.encard_empty]
  rfl

/-- The file system with one file, `a`. -/
def single : Tree := (empty.run (.creat (at_ 97) luck)).1

lemma clean_creat : empty.Clean (.creat (at_ 97) luck) := by
  intro _ p hp
  have hcheck : empty.imkfileCheck (empty.iname (at_ 97) none) luck
      = .ok ⟨file, root, 0, [97], none⟩ := by rfl
  obtain rfl := Except.ok.inj (hcheck.symm.trans hp)
  exact ⟨rfl, rfl, rfl, ⟨rfl, rfl⟩, rfl⟩

lemma reach_single : Transition.Reach step Counted Clean single :=
  .step (.start counted_empty) clean_creat rfl

end Tree

end Micronix
