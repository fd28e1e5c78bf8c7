import Mathlib.Data.List.Basic
import Mathlib.Data.Nat.Basic
import Mathlib.Tactic.SplitIfs

/-!
# Byte buffers with little-endian 16-bit words

A buffer is a function from byte offsets to bytes, so that a read or a write needs no bounds
proof.  Words are the two-byte little-endian view that a 16-bit machine has of the same memory;
`copyBytes` is the block move.  The lemmas say how the word view reacts to word stores and to
block moves at even offsets, and that is all a client needs to know of the byte layout.
-/

/-- A buffer of bytes, addressed from 0. -/
abbrev Bytes := ℕ → UInt8

namespace Bytes

/-- The buffer of zeros. -/
def zero : Bytes := fun _ => 0

/-- The `n`-th 16-bit word. -/
def word (b : Bytes) (n : ℕ) : ℕ := (b (2 * n)).toNat + 256 * (b (2 * n + 1)).toNat

/-- Store `v` (mod 2^16) as the `n`-th word. -/
def setWord (b : Bytes) (n v : ℕ) : Bytes := fun i =>
  if i = 2 * n then UInt8.ofNat v else if i = 2 * n + 1 then UInt8.ofNat (v / 256) else b i

/-- Move `count` bytes from offset `from'` of `src` to offset `to'` of `dst`. -/
def copyBytes (src : Bytes) (from' : ℕ) (dst : Bytes) (to' count : ℕ) : Bytes := fun i =>
  if to' ≤ i ∧ i < to' + count then src (from' + (i - to')) else dst i

lemma byte_lt (x : UInt8) : x.toNat < 256 := UInt8.toNat_lt x

lemma word_lt (b : Bytes) (n : ℕ) : word b n < 65536 := by
  have h0 := byte_lt (b (2 * n))
  have h1 := byte_lt (b (2 * n + 1))
  unfold word
  omega

@[simp] lemma word_zero (n : ℕ) : word zero n = 0 := rfl

lemma word_congr {b b' : Bytes} {n : ℕ} (h0 : b (2 * n) = b' (2 * n))
    (h1 : b (2 * n + 1) = b' (2 * n + 1)) : word b n = word b' n := by
  unfold word
  rw [h0, h1]

lemma word_setWord_self {b : Bytes} {n v : ℕ} (hv : v < 65536) : word (setWord b n v) n = v := by
  have h0 : setWord b n v (2 * n) = UInt8.ofNat v := by simp [setWord]
  have h1 : setWord b n v (2 * n + 1) = UInt8.ofNat (v / 256) := by simp [setWord]
  rw [word, h0, h1]
  simp only [UInt8.toNat_ofNat']
  omega

lemma word_setWord_ne {b : Bytes} {n m v : ℕ} (h : m ≠ n) :
    word (setWord b n v) m = word b m := by
  apply word_congr
  · rw [setWord, if_neg (by omega), if_neg (by omega)]
  · rw [setWord, if_neg (by omega), if_neg (by omega)]

lemma word_setWord {b : Bytes} {n m v : ℕ} (hv : v < 65536) :
    word (setWord b n v) m = if m = n then v else word b m := by
  split_ifs with h
  · subst h
    exact word_setWord_self hv
  · exact word_setWord_ne h

/-- A move of whole words at even offsets moves the word view. -/
lemma word_copyBytes (src dst : Bytes) (from' to' count n : ℕ) :
    word (copyBytes src (2 * from') dst (2 * to') (2 * count)) n
      = if to' ≤ n ∧ n < to' + count then word src (from' + (n - to')) else word dst n := by
  split_ifs with h
  · have e0 : 2 * from' + (2 * n - 2 * to') = 2 * (from' + (n - to')) := by omega
    have e1 : 2 * from' + (2 * n + 1 - 2 * to') = 2 * (from' + (n - to')) + 1 := by omega
    rw [word, word, copyBytes, copyBytes, if_pos (by omega), if_pos (by omega), e0, e1]
  · apply word_congr
    · rw [copyBytes, if_neg (by omega)]
    · rw [copyBytes, if_neg (by omega)]

lemma copyBytes_inside {src dst : Bytes} {from' to' count i : ℕ} (h : to' ≤ i)
    (h' : i < to' + count) : copyBytes src from' dst to' count i = src (from' + (i - to')) :=
  if_pos ⟨h, h'⟩

lemma copyBytes_outside {src dst : Bytes} {from' to' count i : ℕ}
    (h : i < to' ∨ to' + count ≤ i) : copyBytes src from' dst to' count i = dst i :=
  if_neg (by omega)

/-! ## Strings of bytes -/

/-- A list of bytes as a buffer. -/
def ofList (l : List UInt8) : Bytes := fun i => l.getD i 0

/-- The `count` bytes from offset `from'` on. -/
def slice (b : Bytes) (from' count : ℕ) : List UInt8 :=
  (List.range count).map fun i => b (from' + i)

@[simp] lemma slice_zero (b : Bytes) (from' : ℕ) : slice b from' 0 = [] := rfl

lemma slice_add (b : Bytes) (from' n m : ℕ) :
    slice b from' (n + m) = slice b from' n ++ slice b (from' + n) m := by
  simp [slice, List.range_add, Nat.add_assoc, Function.comp_def]

lemma slice_congr {b b' : Bytes} {from' n : ℕ} (h : ∀ i < n, b (from' + i) = b' (from' + i)) :
    slice b from' n = slice b' from' n :=
  List.map_congr_left fun i hi => h i (List.mem_range.mp hi)

/-- What has been stored is what is read. -/
lemma slice_copyBytes_self (l : List UInt8) (b : Bytes) (to' : ℕ) {n : ℕ} (h : n ≤ l.length) :
    slice (copyBytes (ofList l) 0 b to' n) to' n = l.take n := by
  refine List.ext_getElem (by simp [slice, h]) fun i hi _ => ?_
  have hlt : i < n := by simpa [slice] using hi
  simp only [slice, List.getElem_map, List.getElem_range, List.getElem_take]
  rw [copyBytes_inside (by omega) (by omega)]
  simp [ofList, show i < l.length by omega]

end Bytes
