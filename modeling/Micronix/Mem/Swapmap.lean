import Micronix.Lib.Extent
import Micronix.Lib.Transition

/-!
# The swap map, `sys/malloc.c`

The array `swapmap` lists the free extents of swap space in order of address and ends with an entry
of size 0.  `salloc` cuts blocks off the first entry that is large enough, `sfree` inserts an entry
and joins it with its neighbours, and both shift the array in place.  `List` relates the array from
an index on to a list of extents, by recursion on the list as the loops of the code go.
-/

namespace Micronix

/-- `swapmap[]`; a `struct map` is an extent. -/
abbrev Swapmap := ℕ → Extent

namespace Swapmap

/-- `MAPSIZE`, that is `NPROC + 2`. -/
def mapsize : ℕ := 22

/-! ## The code -/

/-- `lshift(mp)`: shift the map left, overwriting `*mp`.  No fuel is left when it has run off the
end of the array. -/
def lshift : ℕ → Swapmap → ℕ → Option Swapmap
  | 0, _, _ => none
  | fuel + 1, m, i =>
      if (m i).size ≠ 0 then lshift fuel (Function.update m i (m (i + 1))) (i + 1) else some m

/-- The first loop of `rshift`: the terminator at or after entry `i`. -/
def terminator : ℕ → Swapmap → ℕ → Option ℕ
  | 0, _, _ => none
  | fuel + 1, m, i => if (m i).size ≠ 0 then terminator fuel m (i + 1) else some i

/-- The second loop of `rshift`: entries `i, ..., i + k - 1` go up by one, the last one first. -/
def moveUp (m : Swapmap) (i : ℕ) : ℕ → Swapmap
  | 0 => m
  | k + 1 => moveUp (Function.update m (i + k + 1) (m (i + k))) i k

/-- `rshift(mp)`: shift the map right, duplicating `*mp`; the new terminator is in the array. -/
def rshift (m : Swapmap) (i : ℕ) : Option Swapmap :=
  (terminator (mapsize - i) m i).bind fun e =>
    if e + 1 < mapsize then some (m.moveUp i (e + 1 - i)) else none

/-- `salloc(size)` from entry `i` on: the first block of what was cut off, if any. -/
def sallocFrom (size : ℕ) : ℕ → Swapmap → ℕ → Option (Option ℕ × Swapmap)
  | 0, _, _ => none
  | fuel + 1, m, i =>
      if (m i).size = 0 then some (none, m)
      else if (m i).size = size then
        (lshift (fuel + 1) m i).map fun m' => (some (m i).addr, m')
      else if (m i).size > size then
        some (some (m i).addr,
          Function.update m i ⟨(m i).size - size, ((m i).addr + size) % 65536⟩)
      else sallocFrom size fuel m (i + 1)

/-- `salloc(size)`: the first block, or `none` where the code prints `Out of swap space` and
returns 0. -/
def salloc (m : Swapmap) (size : ℕ) : Option (Option ℕ × Swapmap) := sallocFrom size mapsize m 0

/-- The first loop of `sfree`. -/
def place (blk : ℕ) : ℕ → Swapmap → ℕ → Option ℕ
  | 0, _, _ => none
  | fuel + 1, m, i =>
      if (m i).addr < blk ∧ (m i).size ≠ 0 then place blk fuel m (i + 1) else some i

/-- The last loop of `sfree`: join entry `i` with the next as long as they touch. -/
def join : ℕ → Swapmap → ℕ → Option Swapmap
  | 0, _, _ => none
  | fuel + 1, m, i =>
      if ((m i).addr + (m i).size) % 65536 = (m (i + 1)).addr then
        (lshift (mapsize - (i + 1)) (Function.update m i
          ⟨((m i).size + (m (i + 1)).size) % 65536, (m i).addr⟩) (i + 1)).bind
            fun m => join fuel m i
      else some m

/-- `sfree(size, blk)` -/
def sfree (m : Swapmap) (size blk : ℕ) : Option Swapmap :=
  (place blk mapsize m 0).bind fun i =>
    (m.rshift i).bind fun m => join mapsize (Function.update m i ⟨size, blk⟩) (i - 1)

/-- `swapinit()`; the rest of the array is zero. -/
def swapinit (swapsize swapaddr : ℕ) : Swapmap :=
  fun i => if i = 0 then ⟨swapsize, swapaddr⟩ else ⟨0, 0⟩

/-! ## The array as a list -/

/-- From entry `i` on the array holds the extents of the list, none of them empty, and then a
terminator whose address is `z`. -/
def Lists (z : ℕ) (m : Swapmap) : ℕ → List Extent → Prop
  | i, [] => (m i).size = 0 ∧ (m i).addr = z
  | i, e :: L => m i = e ∧ 0 < e.size ∧ Lists z m (i + 1) L

variable {m m' : Swapmap} {i z size blk : ℕ} {e f : Extent} {L A B : List Extent}

lemma Lists.congr (h : Lists z m i L) (hm : ∀ j, i ≤ j → m' j = m j) : Lists z m' i L := by
  induction L generalizing i with
  | nil =>
      rw [Lists, hm i (Nat.le_refl i)]
      exact h
  | cons e L ih =>
      exact ⟨(hm i (Nat.le_refl i)).trans h.1, h.2.1, ih h.2.2 fun j hj => hm j (by omega)⟩

lemma Lists.pos (h : Lists z m i L) : ∀ e ∈ L, 0 < e.size := by
  induction L generalizing i with
  | nil => simp
  | cons e L ih =>
      intro f hf
      rcases List.mem_cons.mp hf with rfl | hf
      · exact h.2.1
      · exact ih h.2.2 f hf

/-- The entries after the first ones. -/
lemma Lists.tail (A : List Extent) : ∀ {i : ℕ}, Lists z m i (A ++ B) →
    Lists z m (i + A.length) B := by
  induction A with
  | nil => exact fun h => h
  | cons e A ih =>
      intro i h
      have := ih h.2.2
      rwa [show i + 1 + A.length = i + (e :: A).length by simp only [List.length_cons]; omega]
        at this

/-- Replacing what follows the first entries. -/
lemma Lists.replace {B' : List Extent} (A : List Extent) : ∀ {i : ℕ}, Lists z m i (A ++ B) →
    (∀ j, j < i + A.length → m' j = m j) → Lists z m' (i + A.length) B' →
    Lists z m' i (A ++ B') := by
  induction A with
  | nil => exact fun _ _ hB => hB
  | cons e A ih =>
      intro i h hlow hB
      simp only [List.length_cons] at hlow hB
      refine ⟨(hlow i (by omega)).trans h.1, h.2.1, ih h.2.2 (fun j hj => hlow j (by omega)) ?_⟩
      rwa [show i + 1 + A.length = i + (A.length + 1) by omega]

/-- `lshift` removes an entry. -/
lemma lshift_spec (L : List Extent) : ∀ {fuel i : ℕ} {m : Swapmap} {e : Extent},
    Lists z m i (e :: L) → L.length + 1 < fuel →
    ∃ m', lshift fuel m i = some m' ∧ Lists z m' i L ∧ ∀ j, j < i → m' j = m j := by
  induction L with
  | nil =>
      rintro (_ | _ | fuel) i m e ⟨h0, hpos, hend⟩ hf
      · simp at hf
      · simp at hf
      · have hs : (m i).size ≠ 0 := by
          rw [h0]
          omega
        have hstop : (Function.update m i (m (i + 1)) (i + 1)).size = 0 := by
          rw [Function.update_of_ne (by omega)]
          exact hend.1
        refine ⟨_, by rw [lshift, if_pos hs, lshift, if_neg (not_not.mpr hstop)], ?_,
          fun j hj => ?_⟩
        · rw [Lists, Function.update_self]
          exact hend
        · exact Function.update_of_ne (by omega) ..
  | cons f L ih =>
      rintro (_ | fuel) i m e ⟨h0, hpos, hrest⟩ hf
      · simp at hf
      · have hs : (m i).size ≠ 0 := by
          rw [h0]
          omega
        have hrest' : Lists z (Function.update m i (m (i + 1))) (i + 1) (f :: L) :=
          hrest.congr fun j hj => by rw [Function.update_of_ne (by omega)]
        have hfuel : L.length + 1 < fuel := by
          simp only [List.length_cons] at hf
          omega
        obtain ⟨m', he, hm', hlow⟩ := ih hrest' hfuel
        refine ⟨m', by rw [lshift, if_pos hs, he], ⟨?_, hrest.2.1, hm'⟩, fun j hj => ?_⟩
        · rw [hlow i (by omega), Function.update_self]
          exact hrest.1
        · rw [hlow j (by omega), Function.update_of_ne (by omega)]

lemma terminator_spec (L : List Extent) : ∀ {fuel i : ℕ}, Lists z m i L → L.length < fuel →
    terminator fuel m i = some (i + L.length) := by
  induction L with
  | nil =>
      rintro (_ | fuel) i h hf
      · simp at hf
      · rw [terminator, if_neg (by simp [h.1])]
        rfl
  | cons e L ih =>
      rintro (_ | fuel) i ⟨h0, hpos, hrest⟩ hf
      · simp at hf
      · rw [terminator, if_pos (by rw [h0]; omega), ih hrest (by simpa using hf)]
        simp only [List.length_cons]
        congr 1
        omega

lemma moveUp_apply (k : ℕ) : ∀ (m : Swapmap) (j : ℕ),
    m.moveUp i k j = if i < j ∧ j ≤ i + k then m (j - 1) else m j := by
  induction k with
  | zero =>
      intro m j
      rw [moveUp, if_neg (by omega)]
  | succ k ih =>
      intro m j
      rw [moveUp, ih]
      by_cases hj : j = i + k + 1
      · rw [if_neg (by omega), if_pos (by omega), hj, Function.update_self]
        congr 1
      · rw [Function.update_of_ne hj]
        split_ifs with h1 h2 h2
        · exact Function.update_of_ne (by omega) ..
        · omega
        · omega
        · rfl

/-- `rshift` makes room for an entry. -/
lemma rshift_spec (h : Lists z m i L) (hroom : i + L.length + 1 < mapsize) :
    ∃ m', m.rshift i = some m' ∧ Lists z m' (i + 1) L ∧ ∀ j, j < i → m' j = m j := by
  have hend := terminator_spec L h (show L.length < mapsize - i by omega)
  refine ⟨m.moveUp i (L.length + 1), ?_, ?_, fun j hj => ?_⟩
  · rw [rshift, hend, Option.bind_some, if_pos hroom]
    congr 2
    omega
  · have hmove : ∀ (L' : List Extent) (k : ℕ), i + k + L'.length ≤ i + L.length →
        Lists z m (i + k) L' → Lists z (m.moveUp i (L.length + 1)) (i + k + 1) L' := by
      intro L'
      induction L' with
      | nil =>
          intro k hk h'
          rw [Lists, moveUp_apply, if_pos (by simp only [List.length_nil] at hk; omega)]
          exact h'
      | cons e L' ih =>
          intro k hk h'
          simp only [List.length_cons] at hk
          refine ⟨?_, h'.2.1, ih (k + 1) (by omega) h'.2.2⟩
          rw [moveUp_apply, if_pos (by omega)]
          exact h'.1
    exact hmove L 0 (by omega) h
  · rw [moveUp_apply, if_neg (by omega)]

/-! ## The invariant -/

/-- The map lists the free extents in order, and with the extents in use they divide the interval
from `lo` up to `hi`; the terminator has address 0 unless there is no swap space at all. -/
structure Sound (lo hi : ℕ) (m : Swapmap) (live L : List Extent) : Prop where
  lists : ∃ z, Lists z m 0 L ∧ (z = 0 ∨ lo = hi)
  length : L.length < mapsize
  sorted : L.Pairwise Extent.Below
  tiles : Extent.Tiles lo hi (L ++ live)
  live : ∀ e ∈ live, 0 < e.size
  hi : hi ≤ 65535

variable {lo hi : ℕ} {live : List Extent}

/-! ## `salloc` -/

/-- What `salloc` does to the list: nothing is large enough, or the first extent that is gives its
first blocks. -/
def Cut (size : ℕ) (L : List Extent) (o : Option ℕ) (L' : List Extent) : Prop :=
  o = none ∧ L' = L ∨
  ∃ A e B, L = A ++ e :: B ∧ o = some e.addr ∧ size ≤ e.size ∧
    (size = e.size ∧ L' = A ++ B ∨
      size < e.size ∧ L' = A ++ ⟨e.size - size, e.addr + size⟩ :: B)

lemma Cut.cons {o : Option ℕ} {L' : List Extent} (h : Cut size L o L') (e : Extent) :
    Cut size (e :: L) o (e :: L') := by
  rcases h with ⟨ho, rfl⟩ | ⟨A, f, B, rfl, ho, hs, ⟨e1, rfl⟩ | ⟨e1, rfl⟩⟩
  · exact Or.inl ⟨ho, rfl⟩
  · exact Or.inr ⟨e :: A, f, B, rfl, ho, hs, Or.inl ⟨e1, rfl⟩⟩
  · exact Or.inr ⟨e :: A, f, B, rfl, ho, hs, Or.inr ⟨e1, rfl⟩⟩

/-- The loop of `salloc`, by induction on the entries to come. -/
lemma sallocFrom_spec (L : List Extent) : ∀ {fuel i : ℕ}, Lists z m i L → L.length < fuel →
    0 < size → (∀ e ∈ L, e.top < 65536) →
    ∃ o m' L', sallocFrom size fuel m i = some (o, m') ∧ Lists z m' i L' ∧ Cut size L o L' ∧
      ∀ j, j < i → m' j = m j := by
  induction L with
  | nil =>
      rintro (_ | fuel) i h hf hpos _
      · simp at hf
      · exact ⟨none, m, [], by rw [sallocFrom, if_pos h.1], h, Or.inl ⟨rfl, rfl⟩, fun _ _ => rfl⟩
  | cons e L ih =>
      rintro (_ | fuel) i ⟨h0, he, hrest⟩ hf hpos htop
      · simp at hf
      · have hne : ¬(m i).size = 0 := by
          rw [h0]
          omega
        simp only [List.length_cons] at hf
        by_cases heq : e.size = size
        · -- the entry is used up
          have hl : Lists z m i (e :: L) := ⟨h0, he, hrest⟩
          obtain ⟨m', hm, hm', hlow⟩ := lshift_spec L hl hf
          refine ⟨some e.addr, m', L, ?_, hm',
            Or.inr ⟨[], e, L, rfl, rfl, Nat.le_of_eq heq.symm, Or.inl ⟨heq.symm, rfl⟩⟩, hlow⟩
          rw [sallocFrom, if_neg hne, if_pos (by rw [h0]; exact heq), hm, h0]
          rfl
        · by_cases hgt : size < e.size
          · -- the entry gives its first blocks
            have hsum := htop e List.mem_cons_self
            unfold Extent.top at hsum
            have hmod : (e.addr + size) % 65536 = e.addr + size := Nat.mod_eq_of_lt (by omega)
            refine ⟨some e.addr, Function.update m i ⟨e.size - size, e.addr + size⟩,
              ⟨e.size - size, e.addr + size⟩ :: L, ?_, ⟨Function.update_self .., Nat.sub_pos_of_lt hgt,
                hrest.congr fun j hj => Function.update_of_ne (by omega) ..⟩,
              Or.inr ⟨[], e, L, rfl, rfl, Nat.le_of_lt hgt, Or.inr ⟨hgt, rfl⟩⟩,
              fun j hj => Function.update_of_ne (by omega) ..⟩
            rw [sallocFrom, if_neg hne, if_neg (by rw [h0]; exact heq), if_pos (by rw [h0]; exact hgt),
              h0, hmod]
          · obtain ⟨o, m', L', hs, hm', hcut, hlow⟩ := ih hrest (Nat.lt_of_succ_lt_succ hf) hpos
              fun f hf => htop f (List.mem_cons_of_mem e hf)
            refine ⟨o, m', e :: L', ?_, ⟨(hlow i (by omega)).trans h0, he, hm'⟩, hcut.cons e,
              fun j hj => hlow j (by omega)⟩
            rw [sallocFrom, if_neg hne, if_neg (by rw [h0]; exact heq),
              if_neg (by rw [h0]; exact hgt), hs]

/-- The tiling without the extent that was cut off: it is in use now. -/
lemma Cut.tiles {o : Option ℕ} {L' : List Extent} {a : ℕ} (h : Cut size L o L') (ho : o = some a)
    (ht : Extent.Tiles lo hi (L ++ live)) : Extent.Tiles lo hi (L' ++ ⟨size, a⟩ :: live) := by
  rcases h with ⟨hn, -⟩ | ⟨A, e, B, rfl, he, hs, hc⟩
  · simp [hn] at ho
  · obtain ⟨n, c⟩ := e
    obtain rfl : c = a := by simpa [he] using ho
    intro b
    rw [← ht b]
    rcases hc with ⟨rfl, rfl⟩ | ⟨hlt, rfl⟩
    · simp only [Extent.cover_append, Extent.cover_cons]
      omega
    · have hcut := Extent.cover_cut (a := c) hs B b
      simp only [Extent.cover_append, Extent.cover_cons] at hcut ⊢
      omega

lemma Cut.sorted {o : Option ℕ} {L' : List Extent} (h : Cut size L o L')
    (hs : L.Pairwise Extent.Below) : L'.Pairwise Extent.Below := by
  rcases h with ⟨-, rfl⟩ | ⟨A, e, B, rfl, -, hle, ⟨-, rfl⟩ | ⟨-, rfl⟩⟩
  · exact hs
  · exact hs.sublist ((List.sublist_cons_self e B).append_left A)
  · rw [List.pairwise_append, List.pairwise_cons] at hs ⊢
    obtain ⟨hA, ⟨he, hB⟩, hAB⟩ := hs
    refine ⟨hA, ⟨fun f hf => ?_, hB⟩, fun d hd f hf => ?_⟩
    · have := he f hf
      unfold Extent.Below Extent.top at this ⊢
      dsimp only
      omega
    · rcases List.mem_cons.mp hf with rfl | hf
      · have := hAB d hd e List.mem_cons_self
        unfold Extent.Below at this ⊢
        dsimp only
        omega
      · exact hAB d hd f (List.mem_cons_of_mem e hf)

lemma Cut.length {o : Option ℕ} {L' : List Extent} (h : Cut size L o L') : L'.length ≤ L.length := by
  rcases h with ⟨-, rfl⟩ | ⟨A, e, B, rfl, -, -, ⟨-, rfl⟩ | ⟨-, rfl⟩⟩ <;> simp

lemma Sound.top (h : Sound lo hi m live L) : ∀ e ∈ L, e.top < 65536 := by
  intro e he
  obtain ⟨z, hl, -⟩ := h.lists
  have := (h.tiles.bounds (List.mem_append_left live he) (hl.pos e he)).2
  have := h.hi
  omega

/-- **`salloc`.**  What it returns was free and is in use now; when it fails nothing changes. -/
lemma Sound.salloc (h : Sound lo hi m live L) (hpos : 0 < size) :
    ∃ o m' L', m.salloc size = some (o, m') ∧ Cut size L o L' ∧
      Sound lo hi m' ((o.map fun a => ⟨size, a⟩).toList ++ live) L' := by
  obtain ⟨z, hl, hz⟩ := h.lists
  obtain ⟨o, m', L', hs, hm', hcut, -⟩ := sallocFrom_spec L hl h.length hpos h.top
  refine ⟨o, m', L', hs, hcut, ⟨z, hm', hz⟩, Nat.lt_of_le_of_lt hcut.length h.length,
    hcut.sorted h.sorted, ?_, ?_, h.hi⟩
  · cases ho : o with
    | some a => exact hcut.tiles ho h.tiles
    | none =>
        rcases hcut with ⟨-, rfl⟩ | ⟨A, e, B, -, he, -⟩
        · exact h.tiles
        · simp [ho] at he
  · intro e he
    rcases List.mem_append.mp he with he | he
    · cases ho : o with
      | none => simp [ho] at he
      | some a =>
          obtain rfl : e = ⟨size, a⟩ := by simpa [ho] using he
          exact hpos
    · exact h.live e he

/-! ## `sfree` -/

/-- The entries that `sfree` passes have a smaller address, the next one has not. -/
lemma place_spec {b : ℕ} (L : List Extent) : ∀ {fuel i : ℕ}, Lists z m i L → L.length < fuel →
    ∃ A B, L = A ++ B ∧ place b fuel m i = some (i + A.length) ∧ (∀ e ∈ A, e.addr < b) ∧
      ∀ e ∈ B.head?, b ≤ e.addr := by
  induction L with
  | nil =>
      rintro (_ | fuel) i h hf
      · simp at hf
      · exact ⟨[], [], rfl, by rw [place, if_neg fun e => e.2 h.1]; rfl, by simp, by simp⟩
  | cons e L ih =>
      rintro (_ | fuel) i ⟨h0, he, hrest⟩ hf
      · simp at hf
      · simp only [List.length_cons] at hf
        by_cases hlt : e.addr < b
        · obtain ⟨A, B, rfl, hp, hA, hB⟩ := ih hrest (Nat.lt_of_succ_lt_succ hf)
          refine ⟨e :: A, B, rfl, ?_, fun f hf => ?_, hB⟩
          · rw [place, if_pos ⟨by rw [h0]; exact hlt, by rw [h0]; omega⟩, hp, List.length_cons]
            congr 1
            omega
          · rcases List.mem_cons.mp hf with rfl | hf
            · exact hlt
            · exact hA f hf
        · refine ⟨[], e :: L, rfl, ?_, by simp, ?_⟩
          · rw [place, if_neg fun h => hlt (by rw [← h0]; exact h.1)]
            rfl
          · rintro f ⟨⟩
            exact Nat.le_of_not_lt hlt

/-- The list is as good as another one for the map. -/
structure Like (L L' : List Extent) : Prop where
  sorted : L'.Pairwise Extent.Below
  cover : ∀ b, Extent.cover L' b = Extent.cover L b
  length : L'.length ≤ L.length

/-- Joining two neighbours that touch. -/
lemma like_join (hs : (A ++ e :: f :: B).Pairwise Extent.Below) (ht : e.top = f.addr) :
    Like (A ++ e :: f :: B) (A ++ ⟨e.size + f.size, e.addr⟩ :: B) := by
  unfold Extent.top at ht
  refine ⟨?_, fun b => ?_, by simp⟩
  · rw [List.pairwise_append, List.pairwise_cons, List.pairwise_cons] at hs
    obtain ⟨hA, ⟨-, hf, hB⟩, hAB⟩ := hs
    rw [List.pairwise_append, List.pairwise_cons]
    refine ⟨hA, ⟨fun d hd => ?_, hB⟩, fun d hd g hg => ?_⟩
    · have := hf d hd
      unfold Extent.Below Extent.top at this ⊢
      dsimp only
      omega
    · rcases List.mem_cons.mp hg with rfl | hg
      · exact hAB d hd e List.mem_cons_self
      · exact hAB d hd g (List.mem_cons_of_mem e (List.mem_cons_of_mem f hg))
  · have hcut := Extent.cover_cut (n := e.size + f.size) (a := e.addr) (Nat.le_add_right e.size f.size)
      B b
    rw [Nat.add_sub_cancel_left, ht] at hcut
    obtain ⟨n, a⟩ := e
    obtain ⟨k, c⟩ := f
    simp only [Extent.cover_append, Extent.cover_cons] at hcut ⊢
    omega

/-- The joining loop, by induction on the entries after the one that grows.  It stops at the
terminator because no extent ends at 65536. -/
lemma join_spec (A B : List Extent) : ∀ {fuel : ℕ} {m : Swapmap} {e : Extent},
    Lists 0 m 0 (A ++ e :: B) → B.length < fuel → (A ++ e :: B).length < mapsize →
    (A ++ e :: B).Pairwise Extent.Below → (∀ d ∈ A ++ e :: B, d.top < 65536) →
    ∃ m', join fuel m A.length = some m' ∧ Lists 0 m' 0 (A ++ e.absorb B) ∧
      Like (A ++ e :: B) (A ++ e.absorb B) := by
  induction B with
  | nil =>
      rintro (_ | fuel) m e hl hf hlen hs htop
      · simp at hf
      · obtain ⟨h0, hpos, -, hz⟩ := hl.tail A
        rw [Nat.zero_add] at h0 hz
        have hsum := htop e (by simp)
        unfold Extent.top at hsum
        refine ⟨m, ?_, hl, hs, fun _ => rfl, Nat.le_refl _⟩
        rw [join, if_neg]
        rw [hz, h0, Nat.mod_eq_of_lt hsum]
        omega
  | cons f B ih =>
      rintro (_ | fuel) m e hl hf hlen hs htop
      · simp at hf
      · have hl' := hl.tail A
        rw [Nat.zero_add] at hl'
        obtain ⟨h0, hpos, hrest⟩ := hl'
        have hsum := htop e (by simp)
        have hsum' := htop f (by simp)
        unfold Extent.top at hsum hsum'
        rw [join, hrest.1, h0, Nat.mod_eq_of_lt hsum]
        by_cases ht : e.addr + e.size = f.addr
        · have hmod : (e.size + f.size) % 65536 = e.size + f.size := Nat.mod_eq_of_lt (by omega)
          rw [if_pos ht, hmod]
          set g : Extent := ⟨e.size + f.size, e.addr⟩ with hg
          have hrest' : Lists 0 (Function.update m A.length g) (A.length + 1) (f :: B) :=
            hrest.congr fun j hj => Function.update_of_ne (by omega) ..
          simp only [List.length_append, List.length_cons] at hlen hf
          obtain ⟨m', hm, hm', hlow⟩ := lshift_spec B hrest'
            (show B.length + 1 < mapsize - (A.length + 1) by omega)
          have hjoin := like_join hs ht
          have hl2 : Lists 0 m' 0 (A ++ g :: B) := by
            refine hl.replace A (fun j hj => ?_) ⟨?_, Nat.add_pos_left hpos _, ?_⟩
            · rw [hlow j (by omega), Function.update_of_ne (by omega)]
            · rw [Nat.zero_add, hlow _ (by omega), Function.update_self]
            · rwa [Nat.zero_add]
          have htop2 : ∀ d ∈ A ++ g :: B, d.top < 65536 := by
            intro d hd
            simp only [List.mem_append, List.mem_cons] at hd
            rcases hd with hd | rfl | hd
            · exact htop d (by simp [hd])
            · unfold Extent.top
              rw [hg]
              dsimp only
              omega
            · exact htop d (by simp [hd])
          obtain ⟨m2, hj, hl3, hlike⟩ := ih hl2 (show B.length < fuel by omega)
            (by simp only [List.length_append, List.length_cons]; omega) hjoin.sorted htop2
          have habs : e.absorb (f :: B) = g.absorb B := if_pos ht
          rw [habs]
          refine ⟨m2, ?_, hl3, hlike.sorted, fun b => (hlike.cover b).trans (hjoin.cover b),
            Nat.le_trans hlike.length hjoin.length⟩
          rw [hm, Option.bind_some, hj]
        · have habs : e.absorb (f :: B) = e :: f :: B := if_neg ht
          rw [if_neg ht, habs]
          exact ⟨m, rfl, hl, hs, fun _ => rfl, Nat.le_refl _⟩

/-- The list after `sfree`, with the entries before and after the new one: joining begins one entry
earlier, if there is one. -/
def freed (e : Extent) (A B : List Extent) : List Extent :=
  match A.getLast? with
  | none => e.absorb B
  | some d => A.dropLast ++ d.absorb (e :: B)

/-- **`sfree`** of an extent that is in use, while the map has room: it is free now. -/
lemma Sound.sfree (h : Sound lo hi m live L) (he : e ∈ live) (hroom : L.length + 2 ≤ mapsize) :
    ∃ A B m', L = A ++ B ∧ (A ++ e :: B).Pairwise Extent.Below ∧
      m.sfree e.size e.addr = some m' ∧ Sound lo hi m' (live.erase e) (freed e A B) := by
  obtain ⟨z, hl, hz⟩ := h.lists
  have hpos := h.live e he
  have hbounds := h.tiles.bounds (List.mem_append_right L he) hpos
  -- there is swap space, so the terminator has address 0
  obtain rfl : z = 0 := by
    rcases hz with hz | hz
    · exact hz
    · unfold Extent.top at hbounds
      omega
  obtain ⟨A, B, rfl, hp, hA, hB⟩ := place_spec (b := e.addr) L hl h.length
  rw [Nat.zero_add] at hp
  have hl' := hl.tail A
  rw [Nat.zero_add] at hl'
  simp only [List.length_append] at hroom
  obtain ⟨m1, hr, hm1, hlow⟩ := rshift_spec hl' (by omega)
  have hlists : Lists 0 (Function.update m1 A.length e) 0 (A ++ e :: B) := by
    refine hl.replace A (fun j hj => ?_) ⟨?_, hpos, ?_⟩
    · rw [Function.update_of_ne (by omega), hlow j (by omega)]
    · rw [Nat.zero_add, Function.update_self]
    · rw [Nat.zero_add]
      exact hm1.congr fun j hj => Function.update_of_ne (by omega) ..
  -- the extent is apart from the free ones, so its place is between them
  have hperm : (A ++ e :: B ++ live.erase e).Perm (A ++ B ++ live) := by
    have h1 : (A ++ e :: B).Perm (e :: (A ++ B)) := List.perm_middle
    have h2 : (e :: live.erase e).Perm live := (List.perm_cons_erase he).symm
    calc (A ++ e :: B ++ live.erase e).Perm (e :: (A ++ B) ++ live.erase e) := h1.append_right _
      List.Perm _ (A ++ B ++ e :: live.erase e) := List.perm_middle.symm
      List.Perm _ (A ++ B ++ live) := h2.append_left _
  have htiles := h.tiles.perm hperm
  have hapart : ∀ f ∈ A ++ B, e.Apart f := by
    intro f hf b hb
    have hp := (List.pairwise_append.mp h.tiles.pairwise).2.2 f hf e he b
    exact hp ⟨hb.2, hb.1⟩
  have hsorted : (A ++ e :: B).Pairwise Extent.Below := by
    obtain ⟨hsA, hsB, hAB⟩ := List.pairwise_append.mp h.sorted
    have heB : ∀ f ∈ B, e.Below f := by
      cases B with
      | nil => simp
      | cons g B =>
          have hge : e.addr ≤ g.addr := hB g rfl
          have hgpos := hl.pos g (by simp)
          have heg : e.Below g := by
            rcases (hapart g (by simp)).below hpos hgpos with hb | hb
            · exact hb
            · unfold Extent.Below Extent.top at hb
              omega
          intro f hf
          rcases List.mem_cons.mp hf with rfl | hf
          · exact heg
          · have := (List.pairwise_cons.mp hsB).1 f hf
            unfold Extent.Below Extent.top at heg this ⊢
            omega
    refine List.pairwise_append.mpr ⟨hsA, List.pairwise_cons.mpr ⟨heB, hsB⟩, fun d hd f hf => ?_⟩
    rcases List.mem_cons.mp hf with rfl | hf
    · have hlt := hA d hd
      rcases (hapart d (by simp [hd])).below hpos (hl.pos d (by simp [hd])) with hb | hb
      · unfold Extent.Below Extent.top at hb
        omega
      · exact hb
    · exact hAB d hd f hf
  have htop : ∀ d ∈ A ++ e :: B, d.top < 65536 := by
    intro d hd
    have hd' : d ∈ A ++ e :: B ++ live.erase e := List.mem_append_left _ hd
    have := (htiles.bounds hd' (hlists.pos d hd)).2
    have := h.hi
    omega
  have hlen : (A ++ e :: B).length < mapsize := by
    simp only [List.length_append, List.length_cons]
    omega
  -- the loop starts one entry earlier, if there is one
  obtain ⟨m', hj, hl3, hlike⟩ : ∃ m', join mapsize (Function.update m1 A.length e)
      (A.length - 1) = some m' ∧ Lists 0 m' 0 (freed e A B) ∧ Like (A ++ e :: B) (freed e A B) := by
    rcases List.eq_nil_or_concat A with rfl | ⟨A, d, rfl⟩
    · exact join_spec [] B hlists (by simp only [List.length_append] at hlen; omega) hlen hsorted htop
    · simp only [List.concat_eq_append, List.append_assoc, List.singleton_append] at *
      have hd := join_spec A (e :: B) hlists
        (show (e :: B).length < mapsize by simp only [List.length_append, List.length_cons] at hlen ⊢; omega)
        hlen hsorted htop
      simpa [freed] using hd
  refine ⟨A, B, m', rfl, hsorted, ?_, ⟨0, hl3, Or.inl rfl⟩, Nat.lt_of_le_of_lt hlike.length hlen,
    hlike.sorted, fun b => ?_, fun f hf => h.live f (List.mem_of_mem_erase hf), h.hi⟩
  · rw [Swapmap.sfree, hp, Option.bind_some, hr, Option.bind_some]
    exact hj
  · rw [Extent.cover_append, hlike.cover b, ← Extent.cover_append]
    exact htiles b

/-- Without room for another entry `rshift` would run off the end. -/
lemma Sound.sfree_full (h : Sound lo hi m live L) (hroom : ¬L.length + 2 ≤ mapsize) :
    m.sfree e.size e.addr = none := by
  obtain ⟨z, hl, -⟩ := h.lists
  have hlen := h.length
  obtain ⟨A, B, rfl, hp, -, -⟩ := place_spec (b := e.addr) L hl h.length
  have hl' := hl.tail A
  rw [Nat.zero_add] at hp hl'
  simp only [List.length_append] at hroom hlen
  have hend := terminator_spec B hl' (show B.length < mapsize - A.length by omega)
  rw [Swapmap.sfree, hp, Option.bind_some, rshift, hend, Option.bind_some, if_neg (by omega)]
  rfl

lemma sound_swapinit {swapsize swapaddr : ℕ} (h : swapaddr + swapsize ≤ 65535) :
    ∃ L, Sound swapaddr (swapaddr + swapsize) (swapinit swapsize swapaddr) [] L := by
  by_cases hz : swapsize = 0
  · subst hz
    refine ⟨[], ⟨swapaddr, ⟨rfl, rfl⟩, Or.inr rfl⟩, by decide, .nil, fun b => ?_, by simp, h⟩
    rw [if_neg (by omega)]
    rfl
  · refine ⟨[⟨swapsize, swapaddr⟩], ⟨0, ⟨rfl, by simpa using Nat.pos_of_ne_zero hz, rfl, rfl⟩, Or.inl rfl⟩,
      show 1 < mapsize by decide, List.pairwise_singleton .., fun b => ?_, by simp, h⟩
    rw [List.append_nil, Extent.cover_cons, Extent.cover_nil]
    rfl

end Swapmap

/-! ## Runs -/

/-- The swap map, and for the statements the extents in use. -/
structure Swap where
  map : Swapmap
  live : List Extent

namespace Swap

/-- What the kernel asks for: blocks of swap space, or to take back an extent. -/
inductive Label
  | salloc (size : ℕ)
  | sfree (e : Extent)

/-- The step function: sizes are not 0 and only extents in use are freed. -/
def step (s : Swap) : Label → Option Swap
  | .salloc size =>
      if 0 < size then
        (s.map.salloc size).map fun x => ⟨x.2, (x.1.map fun a => ⟨size, a⟩).toList ++ s.live⟩
      else none
  | .sfree e =>
      if e ∈ s.live then (s.map.sfree e.size e.addr).map fun m => ⟨m, s.live.erase e⟩ else none

/-- The map after `swapinit`. -/
def Start (swapsize swapaddr : ℕ) (s : Swap) : Prop :=
  s = ⟨Swapmap.swapinit swapsize swapaddr, []⟩

variable {s s' : Swap} {l : Label} {swapsize swapaddr lo hi : ℕ}

lemma step_sound {L : List Extent} (h : Swapmap.Sound lo hi s.map s.live L)
    (he : s.step l = some s') : ∃ L', Swapmap.Sound lo hi s'.map s'.live L' := by
  cases l with
  | salloc size =>
      rw [step] at he
      split_ifs at he with hpos
      obtain ⟨o, m', L', hs, -, h'⟩ := h.salloc hpos
      rw [hs, Option.map_some] at he
      obtain rfl := Option.some.inj he
      exact ⟨L', h'⟩
  | sfree e =>
      rw [step] at he
      split_ifs at he with hmem
      obtain ⟨m, hm, rfl⟩ := Option.map_eq_some_iff.mp he
      -- a map without room is not written to
      by_cases hroom : L.length + 2 ≤ Swapmap.mapsize
      · obtain ⟨A, B, m', -, -, hs, h'⟩ := h.sfree hmem hroom
        rw [hs] at hm
        obtain rfl := Option.some.inj hm
        exact ⟨_, h'⟩
      · exact absurd hm (by rw [h.sfree_full hroom]; simp)

/-- **The swap map.**  In every state that is reached from `swapinit` by `salloc` and by `sfree` of
extents in use, the map is sorted with disjoint entries and ends with its terminator, the free
extents and those in use divide the swap space among them, and no two extents in use overlap.  And
`salloc` always ends, and `sfree` does as long as the map has room. -/
theorem swapmap_sound (hspace : swapaddr + swapsize ≤ 65535)
    (h : Transition.Reachable step (Start swapsize swapaddr) s) :
    ∃ L, (∃ z, Swapmap.Lists z s.map 0 L) ∧ L.Pairwise Extent.Below ∧
      Extent.Tiles swapaddr (swapaddr + swapsize) (L ++ s.live) ∧ s.live.Pairwise Extent.Apart ∧
      (∀ size, 0 < size → (s.step (.salloc size)).isSome) ∧
      ∀ e ∈ s.live, L.length + 2 ≤ Swapmap.mapsize → (s.step (.sfree e)).isSome := by
  obtain ⟨L, hs⟩ : ∃ L, Swapmap.Sound swapaddr (swapaddr + swapsize) s.map s.live L := by
    refine h.invariant (I := fun s => ∃ L, Swapmap.Sound _ _ s.map s.live L) ?_ ?_
    · rintro s rfl
      exact Swapmap.sound_swapinit hspace
    · rintro s l s' ⟨L, hL⟩ - he
      exact step_sound hL he
  obtain ⟨z, hl, -⟩ := hs.lists
  refine ⟨L, ⟨z, hl⟩, hs.sorted, hs.tiles, (List.pairwise_append.mp hs.tiles.pairwise).2.1,
    fun size hpos => ?_, fun e he hroom => ?_⟩
  · obtain ⟨o, m', L', hm, -⟩ := hs.salloc hpos
    simp [step, hpos, hm]
  · obtain ⟨A, B, m', -, -, hm, -⟩ := hs.sfree he hroom
    simp [step, he, hm]

/-- Two extents of 8 and 16 blocks; the first is freed and its beginning used again. -/
theorem swapmap_sound_reuse : ∃ s : Swap, s.live = [⟨4, 100⟩, ⟨16, 108⟩] ∧
    ∃ L, (∃ z, Swapmap.Lists z s.map 0 L) ∧ L.Pairwise Extent.Below ∧
      Extent.Tiles 100 150 (L ++ s.live) ∧ s.live.Pairwise Extent.Apart := by
  have hrun : (Transition.run step (fun _ _ => True) ⟨Swapmap.swapinit 50 100, []⟩
      [.salloc 8, .salloc 16, .sfree ⟨8, 100⟩, .salloc 4]).map (fun s => s.live)
      = some [⟨4, 100⟩, ⟨16, 108⟩] := by
    decide +kernel
  obtain ⟨s, hs, hlive⟩ := Option.map_eq_some_iff.mp hrun
  obtain ⟨L, hl, hsort, ht, hap, -⟩ := swapmap_sound (by decide : 100 + 50 ≤ 65535) (.of_run rfl hs)
  exact ⟨s, hlive, L, hl, hsort, ht, hap⟩

end Swap

end Micronix
