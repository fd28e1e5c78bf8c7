import Mathlib.Data.List.Pairwise
import Mathlib.Data.List.Perm.Subperm
import Mathlib.Tactic.Common

/-!
# Extents

An extent is an address and a size.  A list of extents *tiles* an interval when each number of the
interval is in exactly one extent of the list and no other number is in any.  Tiling is stated with
a count, so it does not depend on the order of the list, and the moves that an allocator makes
(cutting an extent in two, joining two neighbours) keep the count.
-/

/-- The numbers `addr, ..., addr + size - 1`. -/
structure Extent where
  size : ℕ
  addr : ℕ
  deriving DecidableEq

namespace Extent

/-- The first number after the extent. -/
def top (e : Extent) : ℕ := e.addr + e.size

/-- The extent contains the number. -/
def Has (e : Extent) (b : ℕ) : Prop := e.addr ≤ b ∧ b < e.top

instance (e : Extent) (b : ℕ) : Decidable (e.Has b) :=
  inferInstanceAs (Decidable (_ ≤ _ ∧ _ < _))

/-- One extent is below the other. -/
def Below (e f : Extent) : Prop := e.top ≤ f.addr

/-- One extent is below the other, and there is something in between. -/
def Gap (e f : Extent) : Prop := e.top < f.addr

/-- The extents have no number in common. -/
def Apart (e f : Extent) : Prop := ∀ b, ¬(e.Has b ∧ f.Has b)

/-- How many extents of the list contain the number. -/
def cover (L : List Extent) (b : ℕ) : ℕ := L.countP fun e => e.Has b

/-- The extents of the list divide the interval from `lo` up to `hi` among them. -/
def Tiles (lo hi : ℕ) (L : List Extent) : Prop := ∀ b, cover L b = if lo ≤ b ∧ b < hi then 1 else 0

/-- The first extent takes in those that follow it without a gap. -/
def absorb : Extent → List Extent → List Extent
  | e, [] => [e]
  | e, f :: L => if e.top = f.addr then absorb ⟨e.size + f.size, e.addr⟩ L else e :: f :: L

variable {e f : Extent} {L M : List Extent} {lo hi b : ℕ}

@[simp] lemma cover_nil (b : ℕ) : cover [] b = 0 := rfl

lemma cover_cons (e : Extent) (L : List Extent) (b : ℕ) :
    cover (e :: L) b = (if e.Has b then 1 else 0) + cover L b := by
  simp only [cover, List.countP_cons, decide_eq_true_eq]
  exact Nat.add_comm ..

@[simp] lemma cover_append (L M : List Extent) (b : ℕ) : cover (L ++ M) b = cover L b + cover M b :=
  List.countP_append

lemma cover_perm (h : L.Perm M) (b : ℕ) : cover L b = cover M b := h.countP_eq _

lemma Tiles.perm (h : Tiles lo hi L) (hp : M.Perm L) : Tiles lo hi M := fun b =>
  (cover_perm hp b).trans (h b)

/-- Cutting an extent in two. -/
lemma cover_cut {a n k : ℕ} (hk : k ≤ n) (L : List Extent) (b : ℕ) :
    cover (⟨k, a⟩ :: ⟨n - k, a + k⟩ :: L) b = cover (⟨n, a⟩ :: L) b := by
  have hone : (⟨n, a⟩ : Extent).Has b ↔ (⟨k, a⟩ : Extent).Has b ∨ (⟨n - k, a + k⟩ : Extent).Has b := by
    simp only [Has, top]
    omega
  have hboth : ¬((⟨k, a⟩ : Extent).Has b ∧ (⟨n - k, a + k⟩ : Extent).Has b) := by
    simp only [Has, top]
    omega
  simp only [cover_cons, hone]
  by_cases h1 : (⟨k, a⟩ : Extent).Has b
  · have h2 : ¬(⟨n - k, a + k⟩ : Extent).Has b := fun h2 => hboth ⟨h1, h2⟩
    simp [h1, h2]
  · by_cases h2 : (⟨n - k, a + k⟩ : Extent).Has b <;> simp [h1, h2]

/-- In a tiling two extents at different places are apart. -/
lemma Tiles.pairwise (h : Tiles lo hi L) : L.Pairwise Apart := by
  rw [List.pairwise_iff_forall_sublist]
  rintro e f hs b ⟨he, hf⟩
  have hle : cover [e, f] b ≤ cover L b := hs.countP_le
  have hone : cover L b ≤ 1 := by
    rw [h b]
    split_ifs <;> omega
  have htwo : cover [e, f] b = 2 := by
    rw [cover_cons, cover_cons, if_pos he, if_pos hf, cover_nil]
  omega

/-- The extents of a tiling lie in the interval. -/
lemma Tiles.mem (h : Tiles lo hi L) (he : e ∈ L) (hb : e.Has b) : lo ≤ b ∧ b < hi := by
  by_contra hn
  have hz := h b
  rw [if_neg hn, cover, List.countP_eq_zero] at hz
  exact hz e he (by simpa using hb)

lemma Tiles.bounds (h : Tiles lo hi L) (he : e ∈ L) (hpos : 0 < e.size) :
    lo ≤ e.addr ∧ e.top ≤ hi := by
  have hfirst := (h.mem he (b := e.addr) ⟨Nat.le_refl _, by unfold top; omega⟩).1
  have hlast := (h.mem he (b := e.top - 1) ⟨by unfold top; omega, by unfold top; omega⟩).2
  exact ⟨hfirst, by unfold top at hlast ⊢; omega⟩

/-- Extents that are apart and not empty lie one below the other. -/
lemma Apart.below (h : Apart e f) (he : 0 < e.size) (hf : 0 < f.size) : e.Below f ∨ f.Below e := by
  by_contra hn
  rw [not_or] at hn
  unfold Below top at hn
  refine h (max e.addr f.addr) ⟨?_, ?_⟩ <;> unfold Has top <;> omega

/-! ## Gaps -/

/-- An extent below others with gaps between them takes in the first of them at most. -/
lemma absorb_gap (hL : L.Pairwise Gap) (h : ∀ f ∈ L, e.Below f) : (absorb e L).Pairwise Gap := by
  cases L with
  | nil => exact List.pairwise_singleton ..
  | cons f L =>
      obtain ⟨hf, hL⟩ := List.pairwise_cons.mp hL
      have hbelow := h f List.mem_cons_self
      rw [absorb]
      split_ifs with ht
      · have htop : ∀ g ∈ L, Gap ⟨e.size + f.size, e.addr⟩ g := by
          intro g hg
          have := hf g hg
          unfold Gap top at this ⊢
          unfold top at ht
          dsimp only
          omega
        cases L with
        | nil => exact List.pairwise_singleton ..
        | cons g L =>
            rw [absorb, if_neg (Nat.ne_of_lt (htop g List.mem_cons_self))]
            exact List.pairwise_cons.mpr ⟨htop, hL⟩
      · refine List.pairwise_cons.mpr ⟨fun g hg => ?_, List.pairwise_cons.mpr ⟨hf, hL⟩⟩
        have hfirst : Gap e f := Nat.lt_of_le_of_ne hbelow ht
        rcases List.mem_cons.mp hg with rfl | hg
        · exact hfirst
        · have := hf g hg
          unfold Gap top at hfirst this ⊢
          omega

/-- In a tiling by extents with gaps between them and others, each of the first but the last is
followed by one of the others. -/
lemma Tiles.follows (h : Tiles lo hi (L ++ M)) (hgap : L.Pairwise Gap) (hL : ∀ e ∈ L, 0 < e.size)
    (he : e ∈ L.dropLast) : ∃ f ∈ M, f.addr = e.top := by
  obtain ⟨A, B, hAB⟩ := List.append_of_mem he
  have hne : L ≠ [] := by
    rintro rfl
    simp at he
  have hsplit : L = A ++ e :: (B ++ [L.getLast hne]) := by
    conv_lhs => rw [← List.dropLast_append_getLast hne, hAB]
    simp
  have hmem : e ∈ L := List.dropLast_subset L he
  have hpos := hL e hmem
  -- the number after the extent is below the last one, hence in the interval
  have hlast : Gap e (L.getLast hne) := by
    rw [hsplit] at hgap
    exact (List.pairwise_cons.mp (List.pairwise_append.mp hgap).2.1).1 _ (by simp)
  have hbe := h.bounds (List.mem_append_left M hmem) hpos
  have hbl := h.bounds (List.mem_append_left M (List.getLast_mem hne))
    (hL _ (List.getLast_mem hne))
  have hone := h e.top
  unfold Gap top at hlast
  rw [if_pos (by unfold top at hbe hbl ⊢; omega), cover_append] at hone
  have hzero : cover L e.top = 0 := by
    rw [cover, List.countP_eq_zero]
    intro f hf hhas
    have hhas : f.Has e.top := by simpa using hhas
    have hord : f = e ∨ Gap f e ∨ Gap e f := by
      rw [hsplit] at hf hgap
      obtain ⟨-, hB, hA⟩ := List.pairwise_append.mp hgap
      rcases List.mem_append.mp hf with hf | hf
      · exact Or.inr (Or.inl (hA f hf e List.mem_cons_self))
      · rcases List.mem_cons.mp hf with rfl | hf
        · exact Or.inl rfl
        · exact Or.inr (Or.inr ((List.pairwise_cons.mp hB).1 f hf))
    unfold Has at hhas
    rcases hord with rfl | hord | hord
    · omega
    · unfold Gap top at hord
      unfold top at hhas
      omega
    · unfold Gap at hord
      omega
  obtain ⟨f, hf, hhas⟩ := List.countP_pos_iff.mp (show 0 < cover M e.top by omega)
  have hhas : f.Has e.top := by simpa using hhas
  refine ⟨f, hf, ?_⟩
  -- an extent that began earlier would have the last number of `e`
  by_contra hne'
  refine (List.pairwise_append.mp h.pairwise).2.2 e hmem f hf (e.top - 1) ⟨?_, ?_⟩
  · unfold Has top
    omega
  · unfold Has at hhas ⊢
    omega

/-- So there is at most one more of the first than of the others. -/
lemma Tiles.length_le (h : Tiles lo hi (L ++ M)) (hgap : L.Pairwise Gap)
    (hL : ∀ e ∈ L, 0 < e.size) : L.length ≤ M.length + 1 := by
  have hnodup : (L.dropLast.map top).Nodup := by
    have hlt : (L.map top).Pairwise (· < ·) := by
      rw [List.pairwise_map]
      refine hgap.imp_of_mem fun {a b} _ hb hab => ?_
      have := hL b hb
      unfold Gap top at hab
      unfold top
      omega
    rw [List.map_dropLast]
    exact (hlt.imp Nat.ne_of_lt).sublist (List.dropLast_sublist _)
  have hsub : L.dropLast.map top ⊆ M.map addr := by
    intro b hb
    obtain ⟨e, he, rfl⟩ := List.mem_map.mp hb
    obtain ⟨f, hf, hfe⟩ := h.follows hgap hL he
    exact List.mem_map.mpr ⟨f, hf, hfe⟩
  have hle := (List.subperm_of_subset hnodup hsub).length_le
  simp only [List.length_map, List.length_dropLast] at hle
  omega

end Extent
