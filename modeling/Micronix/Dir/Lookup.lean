import Micronix.Dir.Tree

/-!
# Where `dlook` leaves `u.offset`

In a directory of less than 4096 entries whose blocks can be read, `u.offset` is the offset of the
entry that has been found, or of a free one.  With more entries it wraps.
-/

namespace Micronix

namespace Tree

variable {name : Name} {ents : List Dirent} {place slot inum offset n : ℕ} {error : Option Errno}

/-! ## The loops -/

lemma dlookBlock_append (a b : List Dirent) (place slot : ℕ) :
    dlookBlock name (a ++ b) place slot =
      match dlookBlock name a place slot with
      | .found inum offset => .found inum offset
      | .missing place slot => dlookBlock name b place slot := by
  induction a generalizing place slot with
  | nil => rfl
  | cons d ds ih =>
      simp only [List.cons_append, dlookBlock]
      by_cases h0 : d.inum = 0
      · rw [if_pos h0, if_pos h0]
        exact ih ..
      · rw [if_neg h0, if_neg h0]
        split_ifs
        · rfl
        · exact ih ..

/-- Blocks that can be read are searched as one. -/
lemma dlookLoop_spec {bread : ℕ → Bool} {log : ℕ} (hb : ∀ l, bread l = true)
    (hn : ents.length ≤ 32 * n) :
    (dlookLoop name bread n log ents place slot error).1 = dlookBlock name ents place slot := by
  induction n generalizing log ents place slot error with
  | zero =>
      obtain rfl := List.length_eq_zero_iff.mp (Nat.le_zero.mp hn)
      rfl
  | succ n ih =>
      have hsplit : dlookBlock name (ents.take 32 ++ ents.drop 32) place slot = _ :=
        dlookBlock_append _ _ place slot
      rw [List.take_append_drop] at hsplit
      rw [dlookLoop, if_pos (hb log), hsplit]
      cases hblock : dlookBlock name (ents.take 32) place slot with
      | found inum offset => rfl
      | missing place' slot' => exact ih (by rw [List.length_drop]; omega)

/-- What is found is the entry at the place that the search has come to. -/
lemma dlookBlock_found {b : ℕ} (hp : place = 16 * b) (hlen : b + ents.length < 4096)
    (h : dlookBlock name ents place slot = .found inum offset) :
    ∃ k e, offset = 16 * (b + k) ∧ ents[k]? = some e ∧ e.inum = inum ∧ inum ≠ 0 := by
  induction ents generalizing place slot b with
  | nil => simp [dlookBlock] at h
  | cons d ds ih =>
      rw [List.length_cons] at hlen
      have hnext : (place + 16) % 65536 = 16 * (b + 1) := by omega
      have hrest : ∀ {slot}, dlookBlock name ds ((place + 16) % 65536) slot = .found inum offset →
          ∃ k e, offset = 16 * (b + k) ∧ (d :: ds)[k]? = some e ∧ e.inum = inum ∧ inum ≠ 0 := by
        intro slot h
        obtain ⟨k, e, ho, he, hi⟩ := ih hnext (by omega) h
        exact ⟨k + 1, e, by omega, by simpa using he, hi⟩
      rw [dlookBlock] at h
      by_cases h0 : d.inum = 0
      · rw [if_pos h0] at h
        exact hrest h
      · rw [if_neg h0] at h
        split_ifs at h
        · simp only [Look.found.injEq] at h
          exact ⟨0, d, by omega, rfl, h.1, h.1 ▸ h0⟩
        · exact hrest h

/-- When nothing is found `place` is the end, and `slot` a free entry if it is not 0. -/
lemma dlookBlock_missing {b p s : ℕ} (hp : place = 16 * b) (hlen : b + ents.length < 4096)
    (h : dlookBlock name ents place slot = .missing p s) :
    p = 16 * (b + ents.length) ∧
      (s = slot ∨ ∃ k e, s = 16 * (b + k) ∧ ents[k]? = some e ∧ e.inum = 0) := by
  induction ents generalizing place slot b with
  | nil =>
      simp only [dlookBlock, Look.missing.injEq] at h
      exact ⟨by rw [← h.1, hp]; rfl, Or.inl h.2.symm⟩
  | cons d ds ih =>
      rw [List.length_cons] at hlen ⊢
      have hnext : (place + 16) % 65536 = 16 * (b + 1) := by omega
      have hshift : ∀ {s}, (∃ k e, s = 16 * (b + 1 + k) ∧ ds[k]? = some e ∧ e.inum = 0) →
          ∃ k e, s = 16 * (b + k) ∧ (d :: ds)[k]? = some e ∧ e.inum = 0 := by
        rintro s ⟨k, e, hs, he, h0⟩
        exact ⟨k + 1, e, by omega, by simpa using he, h0⟩
      rw [dlookBlock] at h
      by_cases h0 : d.inum = 0
      · rw [if_pos h0] at h
        obtain ⟨hpl, hs⟩ := ih hnext (by omega) h
        refine ⟨by omega, ?_⟩
        rcases hs with hs | hs
        · split_ifs at hs
          · exact Or.inr ⟨0, d, by omega, rfl, h0⟩
          · exact Or.inl hs
        · exact Or.inr (hshift hs)
      · rw [if_neg h0] at h
        split_ifs at h
        obtain ⟨hpl, hs⟩ := ih hnext (by omega) h
        exact ⟨by omega, hs.imp id hshift⟩

/-! ## `dlook` -/

variable {last : Bool} {bread : ℕ → Bool}

lemma dlook_found {o : Option Errno} (hb : ∀ l, bread l = true) (hlen : ents.length < 4096)
    (h : dlook ents name last bread error = (some inum, offset, o)) :
    inum ≠ 0 ∧ ∃ e, ents[offset / 16]? = some e ∧ e.inum = inum := by
  unfold dlook at h
  split at h
  · rename_i p e hl
    simp only [Prod.mk.injEq, Option.some.injEq] at h
    obtain ⟨rfl, rfl, rfl⟩ := h
    have h1 : (dlookLoop name bread ((ents.length + 31) / 32) 0 ents 0 0 error).1 = _ :=
      dlookLoop_spec hb (by omega)
    rw [hl] at h1
    obtain ⟨k, e, ho, he, hi, h0⟩ := dlookBlock_found (b := 0) rfl (by omega) h1.symm
    exact ⟨h0, e, by rw [ho, Nat.mul_div_cancel_left _ (by omega), Nat.zero_add]; exact he, hi⟩
  · simp at h

/-- The last name of a path is not there: a new entry has a free place. -/
lemma dlook_missing {o : Option Errno} (hb : ∀ l, bread l = true) (hlen : ents.length < 4096)
    (h : dlook ents name last bread error = (none, offset, o)) :
    ∀ e, ents[offset / 16]? = some e → e.inum = 0 := by
  unfold dlook at h
  split at h
  · simp at h
  · rename_i p s e hl
    simp only [Prod.mk.injEq, true_and] at h
    obtain ⟨hoff, -⟩ := h
    have h1 : (dlookLoop name bread ((ents.length + 31) / 32) 0 ents 0 0 error).1 = _ :=
      dlookLoop_spec hb (by omega)
    rw [hl] at h1
    obtain ⟨hp, hs⟩ := dlookBlock_missing (b := 0) rfl (by omega) h1.symm
    intro e' he'
    by_cases hs0 : s = 0
    · rw [if_neg (not_not.mpr hs0)] at hoff
      rw [← hoff, hp, Nat.mul_div_cancel_left _ (by omega), Nat.zero_add,
        List.getElem?_eq_none le_rfl] at he'
      simp at he'
    · rw [if_pos hs0] at hoff
      rcases hs with hs | ⟨k, e₀, hs, he₀, h0⟩
      · exact absurd hs hs0
      · rw [← hoff, hs, Nat.mul_div_cancel_left _ (by omega), Nat.zero_add, he₀] at he'
        exact Option.some.inj he' ▸ h0

/-! ## `iname` -/

variable {t : Tree} {w : Walk} {i d ip : Ino} {parent : Option Ino}

/-- The entry at `offset` names the inode. -/
def Named (t : Tree) (d : Ino) (offset : ℕ) (i : Ino) : Prop :=
  (t.node d).ents.length < 4096 →
    ∃ e h, (t.node d).ents[offset / 16]? = some e ∧ t.iget ⟨d.dev, e.inum, h⟩ = i

/-- All blocks of the directories on the way can be read. -/
def Walk.Readable (w : Walk) : Prop := ∀ k l, w.bread k l = true

/-- The path names an inode, by induction on the names to come. -/
lemma inameLoop_found {cs : List Name} {k offset' : ℕ} {name' : Name} {o : Option Errno}
    (hw : w.Readable) (h0 : ∀ d, parent = some d → t.Named d offset ip)
    (h : inameLoop t w cs k ip parent offset name error = .inode i (some d) offset' name' o) :
    t.Named d offset' i := by
  induction cs generalizing k ip parent offset name error with
  | nil =>
      simp only [inameLoop, Found.inode.injEq] at h
      obtain ⟨rfl, hp, rfl, -, -⟩ := h
      exact h0 d hp
  | cons c cs ih =>
      rw [inameLoop] at h
      split at h
      · simp at h
      split at h
      · simp at h
      split at h
      · simp at h
      · rename_i inum o e hl
        split_ifs at h with hpos
        refine ih (fun d' hd' hlen => ?_) h
        obtain rfl := Option.some.inj hd'
        obtain ⟨-, e, hent, hi⟩ := dlook_found (hw k) hlen hl
        subst hi
        exact ⟨e, hpos, hent, rfl⟩

/-- The last name is not there: `u.offset` is that of a free entry. -/
lemma inameLoop_missing {cs : List Name} {k offset' : ℕ} {name' : Name} (hw : w.Readable)
    (h : inameLoop t w cs k ip parent offset name error = .missing (some d) offset' name' .ENOENT)
    (hlen : (t.node d).ents.length < 4096) :
    ∀ e, (t.node d).ents[offset' / 16]? = some e → e.inum = 0 := by
  induction cs generalizing k ip parent offset name error with
  | nil => simp [inameLoop] at h
  | cons c cs ih =>
      rw [inameLoop] at h
      split at h
      · simp at h
      split at h
      · simp at h
      split at h
      · rename_i o e hl
        simp only [Found.missing.injEq, Option.some.injEq] at h
        obtain ⟨rfl, rfl, -, -⟩ := h
        exact dlook_missing (hw k) hlen hl
      · split at h
        · split at h
          · exact ih h
          · simp at h
        · simp at h

/-! ## The calls -/

variable {old new : Walk} {l : Luck} {p : Place}

/-- The places that `link`, `creat` and `mknod` write to are free. -/
lemma linkCheck_free (hw : new.Readable) (h : t.linkCheck old new l = .ok p)
    (hlen : (t.node p.parent).ents.length < 4096) :
    ∀ e, (t.node p.parent).ents[p.offset / 16]? = some e → e.inum = 0 := by
  unfold linkCheck at h
  split at h
  · simp at h
  split at h
  · simp at h
  split at h
  · simp at h
  split at h
  · simp at h
  · simp at h
  · rename_i hnew
    split_ifs at h with h1
    obtain rfl := Except.ok.inj h
    rw [not_not.mp h1] at hnew
    exact inameLoop_missing hw hnew hlen

lemma imkfileCheck_free (hw : w.Readable) (h : t.imkfileCheck (t.iname w none) l = .ok p)
    (hlen : (t.node p.parent).ents.length < 4096) :
    ∀ e, (t.node p.parent).ents[p.offset / 16]? = some e → e.inum = 0 := by
  unfold imkfileCheck at h
  split at h
  · simp at h
  · simp at h
  · rename_i hf
    split_ifs at h with h1
    split at h
    · simp at h
    · split_ifs at h
      obtain rfl := Except.ok.inj h
      rw [not_not.mp h1] at hf
      exact inameLoop_missing hw hf hlen

/-- The entry that `unlink` writes over names the inode. -/
lemma unlinkCheck_named (hw : w.Readable) (h : t.unlinkCheck w l = .ok p) :
    t.Named p.parent p.offset p.ip := by
  unfold unlinkCheck at h
  split at h
  · simp at h
  · simp at h
  · rename_i hf
    split_ifs at h
    obtain rfl := Except.ok.inj h
    exact inameLoop_found hw (by simp) hf

end Tree

end Micronix
