import Mathlib.Data.Set.Insert
import Mathlib.Data.List.Nodup
import Mathlib.Logic.Function.Basic

/-!
# Ownership of a set of items

Items are owned in three ways: they stand in a list (the free ones), they are *in hand* (a set:
taken but not yet installed), or they are installed at a place.  `val x` is the item installed at
place `x`, 0 if the place is empty.  `Divided R L F val` says that the items of `R` are divided
among the three without overlap and without loss, and that no place shares its item with another.

The moves an allocator's client makes are `take` (list to hand), `give` (hand to list), `install`
and `remove` (hand to place and back) and `rearrange`, which moves installed items between places.
-/

/-- The items of `R` are divided among the list `L`, the hand `F` and the places. -/
structure Divided {α ι : Type*} [Zero α] (R : α → Prop) (L : List α) (F : Set α)
    (val : ι → α) : Prop where
  zero_notMem : ¬ R 0
  nodup : L.Nodup
  list_range : ∀ b ∈ L, R b
  hand_range : ∀ b ∈ F, R b
  place_range : ∀ x, val x ≠ 0 → R (val x)
  list_hand : ∀ b ∈ L, b ∉ F
  place_list : ∀ x, val x ≠ 0 → val x ∉ L
  place_hand : ∀ x, val x ≠ 0 → val x ∉ F
  inj : ∀ x y, val x ≠ 0 → val x = val y → x = y
  cover : ∀ b, R b → b ∈ L ∨ b ∈ F ∨ ∃ x, val x = b

namespace Divided

variable {α ι : Type*} [Zero α] {R : α → Prop} {L : List α} {F : Set α} {val : ι → α} {b : α}

/-- Taking the head of the list into the hand. -/
theorem take (h : Divided R (b :: L) F val) : Divided R L (insert b F) val where
  zero_notMem := h.zero_notMem
  nodup := (List.nodup_cons.mp h.nodup).2
  list_range c hc := h.list_range c (List.mem_cons_of_mem b hc)
  hand_range c hc := by
    rcases hc with rfl | hc
    · exact h.list_range c List.mem_cons_self
    · exact h.hand_range c hc
  place_range := h.place_range
  list_hand c hc := by
    rintro (rfl | hF)
    · exact (List.nodup_cons.mp h.nodup).1 hc
    · exact h.list_hand c (List.mem_cons_of_mem b hc) hF
  place_list x hx hm := h.place_list x hx (List.mem_cons_of_mem b hm)
  place_hand x hx := by
    rintro (hb | hF)
    · exact h.place_list x hx (hb ▸ List.mem_cons_self)
    · exact h.place_hand x hx hF
  inj := h.inj
  cover c hc := by
    rcases h.cover c hc with hL | hF | hx
    · rcases List.mem_cons.mp hL with rfl | hL
      · exact Or.inr (Or.inl (Set.mem_insert c F))
      · exact Or.inl hL
    · exact Or.inr (Or.inl (Set.mem_insert_of_mem b hF))
    · exact Or.inr (Or.inr hx)

/-- Putting an item in hand back on the list. -/
theorem give (h : Divided R L F val) (hb : b ∈ F) : Divided R (b :: L) (F \ {b}) val where
  zero_notMem := h.zero_notMem
  nodup := List.nodup_cons.mpr ⟨fun hL => h.list_hand b hL hb, h.nodup⟩
  list_range c hc := by
    rcases List.mem_cons.mp hc with rfl | hc
    · exact h.hand_range c hb
    · exact h.list_range c hc
  hand_range c hc := h.hand_range c hc.1
  place_range := h.place_range
  list_hand c hc hF := by
    rcases List.mem_cons.mp hc with rfl | hc
    · exact hF.2 rfl
    · exact h.list_hand c hc hF.1
  place_list x hx hm := by
    rcases List.mem_cons.mp hm with hm | hm
    · exact h.place_hand x hx (hm ▸ hb)
    · exact h.place_list x hx hm
  place_hand x hx hF := h.place_hand x hx hF.1
  inj := h.inj
  cover c hc := by
    rcases h.cover c hc with hL | hF | hx
    · exact Or.inl (List.mem_cons_of_mem b hL)
    · by_cases hcb : c = b
      · exact Or.inl (hcb ▸ List.mem_cons_self)
      · exact Or.inr (Or.inl ⟨hF, hcb⟩)
    · exact Or.inr (Or.inr hx)

/-- Moving installed items between places: every new holding was an old one, found at `f x`, and
no old one is dropped. -/
theorem rearrange (h : Divided R L F val) {val' : ι → α} (f : ι → ι)
    (hold : ∀ x, val' x ≠ 0 → val (f x) = val' x)
    (hinj : ∀ x y, val' x ≠ 0 → val' y ≠ 0 → f x = f y → x = y)
    (hkeep : ∀ y, val y ≠ 0 → ∃ x, val' x = val y) : Divided R L F val' where
  zero_notMem := h.zero_notMem
  nodup := h.nodup
  list_range := h.list_range
  hand_range := h.hand_range
  place_range x hx := by
    have e := hold x hx
    exact e ▸ h.place_range (f x) (e ▸ hx)
  list_hand := h.list_hand
  place_list x hx := by
    have e := hold x hx
    exact e ▸ h.place_list (f x) (e ▸ hx)
  place_hand x hx := by
    have e := hold x hx
    exact e ▸ h.place_hand (f x) (e ▸ hx)
  inj x y hx hxy := by
    have ex := hold x hx
    have ey := hold y (hxy ▸ hx)
    exact hinj x y hx (hxy ▸ hx) (h.inj _ _ (ex ▸ hx) (by rw [ex, ey, hxy]))
  cover c hc := by
    rcases h.cover c hc with hL | hF | ⟨x, rfl⟩
    · exact Or.inl hL
    · exact Or.inr (Or.inl hF)
    · have hx : val x ≠ 0 := fun e => h.zero_notMem (e ▸ hc)
      exact Or.inr (Or.inr (hkeep x hx))

/-- Emptying a set of places takes their items into the hand. -/
theorem remove (h : Divided R L F val) (val' : ι → α) (P : ι → Prop)
    (hout : ∀ x, P x → val' x = 0) (hin : ∀ x, ¬ P x → val' x = val x) :
    Divided R L (F ∪ {b | b ≠ 0 ∧ ∃ x, P x ∧ val x = b}) val' := by
  have hval : ∀ x, val' x ≠ 0 → ¬ P x ∧ val x ≠ 0 ∧ val' x = val x := by
    intro x hx
    have hP : ¬ P x := fun hP => hx (hout x hP)
    exact ⟨hP, hin x hP ▸ hx, hin x hP⟩
  constructor
  · exact h.zero_notMem
  · exact h.nodup
  · exact h.list_range
  · rintro c (hc | ⟨hc0, x, -, rfl⟩)
    · exact h.hand_range c hc
    · exact h.place_range x hc0
  · intro x hx
    obtain ⟨-, hv, e⟩ := hval x hx
    exact e ▸ h.place_range x hv
  · rintro c hc (hF | ⟨hc0, x, -, rfl⟩)
    · exact h.list_hand c hc hF
    · exact h.place_list x hc0 hc
  · intro x hx
    obtain ⟨-, hv, e⟩ := hval x hx
    exact e ▸ h.place_list x hv
  · intro x hx
    obtain ⟨hP, hv, e⟩ := hval x hx
    rw [e]
    rintro (hF | ⟨-, y, hPy, hxy⟩)
    · exact h.place_hand x hv hF
    · exact hP (h.inj x y hv hxy.symm ▸ hPy)
  · intro x y hx hxy
    obtain ⟨-, hv, e⟩ := hval x hx
    obtain ⟨-, -, e'⟩ := hval y (hxy ▸ hx)
    exact h.inj x y hv (by rw [← e, ← e', hxy])
  · intro c hc
    rcases h.cover c hc with hL | hF | ⟨x, rfl⟩
    · exact Or.inl hL
    · exact Or.inr (Or.inl (Or.inl hF))
    · by_cases hP : P x
      · by_cases h0 : val x = 0
        · exact Or.inr (Or.inr ⟨x, by rw [hout x hP, h0]⟩)
        · exact Or.inr (Or.inl (Or.inr ⟨h0, x, hP, rfl⟩))
      · exact Or.inr (Or.inr ⟨x, hin x hP⟩)

variable [DecidableEq ι]

/-- Installing an item in hand at an empty place. -/
theorem install (h : Divided R L F val) (hb : b ∈ F) {x : ι} (hx : val x = 0) :
    Divided R L (F \ {b}) (Function.update val x b) := by
  have hupd : ∀ y, Function.update val x b y ≠ 0 → y = x ∧ Function.update val x b y = b ∨
      y ≠ x ∧ val y ≠ 0 ∧ Function.update val x b y = val y := by
    intro y hy
    by_cases hyx : y = x
    · subst hyx
      exact Or.inl ⟨rfl, Function.update_self ..⟩
    · have e : Function.update val x b y = val y := Function.update_of_ne hyx ..
      exact Or.inr ⟨hyx, e ▸ hy, e⟩
  constructor
  · exact h.zero_notMem
  · exact h.nodup
  · exact h.list_range
  · exact fun c hc => h.hand_range c hc.1
  · intro y hy
    rcases hupd y hy with ⟨-, e⟩ | ⟨-, hv, e⟩
    · rw [e]
      exact h.hand_range b hb
    · rw [e]
      exact h.place_range y hv
  · exact fun c hc hF => h.list_hand c hc hF.1
  · intro y hy hL
    rcases hupd y hy with ⟨-, e⟩ | ⟨-, hv, e⟩
    · exact h.list_hand b (e ▸ hL) hb
    · exact h.place_list y hv (e ▸ hL)
  · intro y hy hF
    rcases hupd y hy with ⟨-, e⟩ | ⟨-, hv, e⟩
    · exact hF.2 e
    · exact h.place_hand y hv (e ▸ hF.1)
  · intro y z hy hyz
    rcases hupd y hy with ⟨rfl, e⟩ | ⟨hyx, hv, e⟩ <;>
      rcases hupd z (hyz ▸ hy) with ⟨rfl, e'⟩ | ⟨hzx, hv', e'⟩
    · rfl
    · exact absurd (by rw [← e', ← hyz, e]; exact hb) (h.place_hand z hv')
    · exact absurd (by rw [← e, hyz, e']; exact hb) (h.place_hand y hv)
    · exact h.inj y z hv (by rw [← e, ← e', hyz])
  · intro c hc
    rcases h.cover c hc with hL | hF | ⟨y, rfl⟩
    · exact Or.inl hL
    · by_cases hcb : c = b
      · exact Or.inr (Or.inr ⟨x, by rw [hcb, Function.update_self]⟩)
      · exact Or.inr (Or.inl ⟨hF, hcb⟩)
    · have hyx : y ≠ x := by
        rintro rfl
        exact h.zero_notMem (hx ▸ hc)
      exact Or.inr (Or.inr ⟨y, Function.update_of_ne hyx ..⟩)

end Divided
