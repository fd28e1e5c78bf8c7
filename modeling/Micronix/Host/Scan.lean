import Micronix.Host.Icheck
import Micronix.Lib.Fuel
import Mathlib.Data.Fintype.Pigeonhole

/-!
# The scan of the free list in `icheck`

`check` goes down the free list from the superblock.  It takes each count as it is, and `blockcheck`
does not say to it that a block has been seen before.  So it is within `fl[100]` and comes to its end
if and only if the chunks of the list have counts of 1 to 100 up to one with a 0 in it, and there is
one (`free_scan`).  Any other list has a count out of range or comes back to a block that it has been
at (`Chunk.circle`), and then the scan does not end.
-/

namespace Micronix

namespace Host

namespace Icheck

open Bytes Super Fuel

/-! ## The loop -/

/-- `fl[100]`, `i`, and which blocks have been seen. -/
structure Scan where
  fl : ℕ → ℕ
  i : ℤ
  seen : Bitmap

/-- How the scan ends: at a 0, or with an index outside of an array. -/
inductive End
  | done (seen : Bitmap)
  | outside

namespace Scan

/-- `blist[10]`, as `main` fills it from the numbers after `-b`. -/
def blist (given : List ℤ) : List ℤ := (given.takeWhile (· ≠ 0)).take 9 ++ [-1]

/-- The loop over `blist` finds its end within the array. -/
def terminated : List ℤ → Bool
  | [] => false
  | n :: rest => n = -1 || terminated rest

/-- `blockcheck`, with its indices into `bitmap` and `blist`. -/
def blockcheck (sb : Bytes) (given : List ℤ) (seen : Bitmap) (blkno : ℕ) : Option Bitmap :=
  if blkno < isize sb + 2 ∨ blkno ≥ fsize sb then some seen
  else if blkno / 8 ≥ (fsize sb + 7) / 8 then none
  else if terminated (blist given) then some (Function.update seen blkno true)
  else none

/-- One round of `while ((b = fl[i]) != 0)`. -/
def step (img : ℕ → Bytes) (sb : Bytes) (given : List ℤ) (w : Scan) : Scan ⊕ End :=
  if w.i < 0 ∨ 100 ≤ w.i then .inr .outside
  else
    let b := w.fl w.i.toNat
    if b = 0 then .inr (.done w.seen)
    else
      let (fl, i) : (ℕ → ℕ) × ℤ :=
        if w.i = 0 then (fun k => word (img b) (1 + k), (word (img b) 0 : ℤ) - 1)
        else (w.fl, w.i - 1)
      match blockcheck sb given w.seen b with
      | some seen => .inl ⟨fl, i, seen⟩
      | none => .inr .outside

/-- The loop, with fuel for so many rounds. -/
def run (img : ℕ → Bytes) (sb : Bytes) (given : List ℤ) : ℕ → Scan → Option End
  | 0, _ => none
  | n + 1, w =>
      match step img sb given w with
      | .inl w => run img sb given n w
      | .inr e => some e

/-- The superblock as the scan finds it. -/
def super (img : ℕ → Bytes) (sflg : Bool) : Bytes :=
  if sflg then setFree (setNfree (img 1) 0) 0 0 else img 1

/-- Where the scan begins. -/
def start (img : ℕ → Bytes) (sflg : Bool) : Scan :=
  ⟨free (super img sflg), (nfree (super img sflg) : ℤ) - 1, fun _ => false⟩

/-- The scan comes to its end with all indices in range. -/
def Safe (img : ℕ → Bytes) (given : List ℤ) (sflg : Bool) : Prop :=
  Returns (run img (super img sflg) given) (fun e => ∃ seen, e = .done seen) (start img sflg)

end Scan

/-! ## The chunks of a list -/

/-- A count and the entries under it, in the superblock or in a free block. -/
structure Chunk where
  count : ℕ
  entry : ℕ → ℕ

namespace Chunk

/-- The chunk in the superblock. -/
def top (img : ℕ → Bytes) : Chunk := ⟨nfree (img 1), free (img 1)⟩

/-- The chunk in the block that is the lowest entry. -/
def below (img : ℕ → Bytes) (c : Chunk) : Chunk :=
  ⟨word (img (c.entry 0)) 0, fun k => word (img (c.entry 0)) (1 + k)⟩

/-- The chunk that is `n` below the superblock's. -/
def nth (img : ℕ → Bytes) (n : ℕ) : Chunk := (below img)^[n] (top img)

/-- Its entries are within an array of 100. -/
def Fits (c : Chunk) : Prop := 1 ≤ c.count ∧ c.count ≤ 100

/-- It has the 0 at the end of the list. -/
def Last (c : Chunk) : Prop := ∃ k < c.count, c.entry k = 0

/-- Going down from `c` the counts fit as far as a last chunk. -/
def Ends (img : ℕ → Bytes) (c : Chunk) : Prop :=
  ∃ n, (∀ j ≤ n, ((below img)^[j] c).Fits) ∧ ((below img)^[n] c).Last

variable {img : ℕ → Bytes} {c : Chunk}

lemma ends_of_last (hf : c.Fits) (hl : c.Last) : c.Ends img := by
  refine ⟨0, fun j hj => ?_, hl⟩
  obtain rfl : j = 0 := by omega
  exact hf

lemma ends_of_below (hf : c.Fits) (h : (c.below img).Ends img) : c.Ends img := by
  obtain ⟨n, hfits, hlast⟩ := h
  refine ⟨n + 1, fun j hj => ?_, by rwa [Function.iterate_succ_apply]⟩
  cases j with
  | zero => exact hf
  | succ j =>
      rw [Function.iterate_succ_apply]
      exact hfits j (by omega)

/-- **A list without an end** has a count out of range, or comes back to a block that it has been at:
there are only so many block numbers. -/
theorem circle (h : ¬(top img).Ends img) :
    (∃ n, ¬(nth img n).Fits) ∨ ∃ j k, j < k ∧ (nth img j).entry 0 = (nth img k).entry 0 ∧
      ∀ n ≤ k, ¬(nth img n).Last := by
  by_cases hfits : ∀ n, (nth img n).Fits
  · have hlast : ∀ n, ¬(nth img n).Last := fun n hl => h ⟨n, fun j _ => hfits j, hl⟩
    have hlt : ∀ n, (nth img n).entry 0 < 65536 := by
      intro n
      cases n with
      | zero => exact word_lt _ _
      | succ n =>
          rw [nth, Function.iterate_succ_apply']
          exact word_lt _ _
    let number : ℕ → Fin 65536 := fun n => ⟨_, hlt n⟩
    obtain ⟨j, k, hne, heq⟩ := Finite.exists_ne_map_eq_of_infinite number
    have hval : (nth img j).entry 0 = (nth img k).entry 0 := congrArg Fin.val heq
    rcases Nat.lt_or_gt_of_ne hne with hjk | hkj
    · exact Or.inr ⟨j, k, hjk, hval, fun n _ => hlast n⟩
    · exact Or.inr ⟨k, j, hkj, hval.symm, fun n _ => hlast n⟩
  · push Not at hfits
    exact Or.inl hfits

end Chunk

/-! ## What the loop does with a chunk -/

namespace Scan

variable {img : ℕ → Bytes} {sb : Bytes} {given : List ℤ} {c : Chunk} {seen : Bitmap}

lemma terminated_append (l : List ℤ) : terminated (l ++ [-1]) = true := by
  induction l with
  | nil => rfl
  | cons n l ih => rw [List.cons_append, terminated, ih, Bool.or_true]

lemma terminated_blist (given : List ℤ) : terminated (blist given) = true := terminated_append _

/-- **The arrays of `blockcheck`**: what is below `s_fsize` is in the bitmap. -/
lemma blockcheck_inside (sb : Bytes) (given : List ℤ) (seen : Bitmap) (b : ℕ) :
    ∃ seen', blockcheck sb given seen b = some seen' := by
  rw [blockcheck, if_pos (terminated_blist given)]
  split_ifs with hr hi
  · exact ⟨_, rfl⟩
  · omega
  · exact ⟨_, rfl⟩

/-- The state before entry `k` of a chunk. -/
abbrev at' (c : Chunk) (k : ℤ) (seen : Bitmap) : Scan := ⟨c.entry, k, seen⟩

lemma step_outside {k : ℤ} (h : k < 0 ∨ 100 ≤ k) :
    step img sb given (at' c k seen) = .inr .outside := if_pos h

lemma step_zero {k : ℕ} (hk : k < 100) (h0 : c.entry k = 0) :
    step img sb given (at' c k seen) = .inr (.done seen) := by
  have hin : ¬((k : ℤ) < 0 ∨ 100 ≤ (k : ℤ)) := by omega
  rw [step, if_neg hin]
  exact if_pos h0

/-- An entry that is no 0: the one under it is next, or the chunk in the block. -/
lemma step_entry (img : ℕ → Bytes) (sb : Bytes) (given : List ℤ) (seen : Bitmap) {k : ℕ}
    (hk : k < 100) (h0 : c.entry k ≠ 0) :
    ∃ seen', step img sb given (at' c k seen) = .inl
      (if k = 0 then at' (c.below img) ((c.below img).count - 1) seen'
        else at' c (k - 1 : ℕ) seen') := by
  have hin : ¬((k : ℤ) < 0 ∨ 100 ≤ (k : ℤ)) := by omega
  obtain ⟨seen', hcheck⟩ := blockcheck_inside sb given seen (c.entry k)
  refine ⟨seen', ?_⟩
  rw [step, if_neg hin]
  simp only [Int.toNat_natCast, if_neg h0, hcheck]
  rcases Nat.eq_zero_or_pos k with rfl | hpos
  · rfl
  · have hk0 : (k : ℤ) ≠ 0 := by omega
    have hpred : (k : ℤ) - 1 = ((k - 1 : ℕ) : ℤ) := by omega
    rw [if_neg hk0, if_neg (by omega), hpred]

lemma run_zero (w : Scan) : run img sb given 0 w = none := rfl

lemma run_next {w w' : Scan} (h : step img sb given w = .inl w') (n : ℕ) :
    run img sb given (n + 1) w = run img sb given n w' := by
  rw [run, h]

lemma run_end {w : Scan} {e : End} (h : step img sb given w = .inr e) (n : ℕ) :
    run img sb given (n + 1) w = some e := by
  rw [run, h]

/-- With a 0 at or below entry `k` the scan is done. -/
lemma run_last {k : ℕ} (hk : k < 100) (hz : ∃ j ≤ k, c.entry j = 0) (seen : Bitmap) :
    Returns (run img sb given) (fun e => ∃ seen, e = .done seen) (at' c k seen) := by
  induction k generalizing seen with
  | zero =>
      obtain ⟨j, hj, h0⟩ := hz
      obtain rfl : j = 0 := by omega
      exact ⟨1, _, run_end (step_zero hk h0) 0, seen, rfl⟩
  | succ k ih =>
      by_cases h0 : c.entry (k + 1) = 0
      · exact ⟨1, _, run_end (step_zero hk h0) 0, seen, rfl⟩
      · obtain ⟨j, hj, hj0⟩ := hz
        have hne : j ≠ k + 1 := fun e => h0 (e ▸ hj0)
        obtain ⟨seen', hstep⟩ := step_entry img sb given seen hk h0
        exact .of_leads (.round (run_next hstep)) (ih (by omega) ⟨j, by omega, hj0⟩ seen')

/-- Without one it goes on with the next chunk. -/
lemma run_below (img : ℕ → Bytes) (sb : Bytes) (given : List ℤ) {k : ℕ}
    (hk : k < 100) (hnz : ∀ j ≤ k, c.entry j ≠ 0) (seen : Bitmap) :
    ∃ n > 0, ∃ seen', (∀ f, run img sb given (n + f) (at' c k seen) =
        run img sb given f (at' (c.below img) ((c.below img).count - 1) seen')) ∧
      ∀ f < n, run img sb given f (at' c k seen) = none := by
  induction k generalizing seen with
  | zero =>
      obtain ⟨seen', hstep⟩ := step_entry img sb given seen hk (hnz 0 le_rfl)
      refine ⟨1, Nat.one_pos, seen', fun f => ?_, fun f hf => ?_⟩
      · rw [Nat.add_comm]
        exact run_next hstep f
      · obtain rfl : f = 0 := by omega
        rfl
  | succ k ih =>
      obtain ⟨seen', hstep⟩ := step_entry img sb given seen hk (hnz (k + 1) le_rfl)
      obtain ⟨n, hn, seen'', hrun, hnone⟩ := ih (by omega) (fun j hj => hnz j (by omega)) seen'
      refine ⟨n + 1, by omega, seen'', fun f => ?_, fun f hf => ?_⟩
      · rw [Nat.add_right_comm, run_next hstep]
        exact hrun f
      · cases f with
        | zero => rfl
        | succ f =>
            rw [run_next hstep]
            exact hnone f (by omega)

/-- A count of 0 or of more than 100. -/
lemma run_misfit (hc : ¬c.Fits) (seen : Bitmap) {f : ℕ} {e : End}
    (h : run img sb given f (at' c (c.count - 1) seen) = some e) : e = .outside := by
  have hout : (c.count : ℤ) - 1 < 0 ∨ 100 ≤ (c.count : ℤ) - 1 := by
    rw [Chunk.Fits] at hc
    omega
  cases f with
  | zero => cases h
  | succ f =>
      rw [run_end (step_outside hout)] at h
      exact (Option.some.inj h).symm

lemma count_pred (hc : c.Fits) : (c.count : ℤ) - 1 = ((c.count - 1 : ℕ) : ℤ) := by
  have := hc.1
  omega

lemma last_iff (hc : c.Fits) : c.Last ↔ ∃ j ≤ c.count - 1, c.entry j = 0 := by
  have hpos := hc.1
  constructor
  · rintro ⟨k, hk, h0⟩
    exact ⟨k, by omega, h0⟩
  · rintro ⟨j, hj, h0⟩
    exact ⟨j, by omega, h0⟩

/-- From the top of a chunk, by induction on the chunks below it. -/
lemma returns_of_ends (h : c.Ends img) (seen : Bitmap) :
    Returns (run img sb given) (fun e => ∃ seen, e = .done seen) (at' c (c.count - 1) seen) := by
  obtain ⟨n, hfits, hlast⟩ := h
  induction n generalizing c seen with
  | zero =>
      have hc : c.Fits := hfits 0 le_rfl
      have hle := hc.2
      rw [count_pred hc]
      exact run_last (by omega) ((last_iff hc).mp hlast) seen
  | succ n ih =>
      have hc : c.Fits := hfits 0 (Nat.zero_le _)
      have hle := hc.2
      have hpos := hc.1
      rw [count_pred hc]
      by_cases hz : c.Last
      · exact run_last (by omega) ((last_iff hc).mp hz) seen
      · rw [last_iff hc] at hz
        push Not at hz
        obtain ⟨m, -, seen', hrun, -⟩ := run_below img sb given
          (by omega) hz seen
        refine .of_leads ⟨m, hrun⟩ (ih seen' (fun j hj => ?_) ?_)
        · exact hfits (j + 1) (by omega)
        · exact hlast

/-- What comes to its end has gone down to a last chunk, by induction on the rounds. -/
lemma ends_of_run {f : ℕ} : ∀ {c : Chunk} {seen seen' : Bitmap},
    run img sb given f (at' c (c.count - 1) seen) = some (.done seen') → c.Ends img := by
  induction f using Nat.strongRecOn with
  | ind f ih =>
      intro c seen seen' h
      by_cases hc : c.Fits
      · by_cases hz : c.Last
        · exact Chunk.ends_of_last hc hz
        · have hle := hc.2
          have hpos := hc.1
          have hnz := hz
          rw [last_iff hc] at hnz
          push Not at hnz
          obtain ⟨m, hm, seen'', hrun, hnone⟩ := run_below img sb given
            (by omega) hnz seen
          rw [count_pred hc] at h
          rcases Nat.lt_or_ge f m with hlt | hge
          · rw [hnone f hlt] at h
            cases h
          · obtain ⟨f', rfl⟩ := Nat.exists_eq_add_of_le hge
            rw [hrun] at h
            exact Chunk.ends_of_below hc (ih f' (by omega) h)
      · exact absurd (run_misfit hc seen h) (by simp)

end Scan

/-- An image with this superblock and this block 3. -/
def listed (sb b3 : Bytes) : ℕ → Bytes := fun b => if b = 1 then sb else if b = 3 then b3 else zero

/-- Block 3 is the only entry, and it holds itself. -/
def looped : ℕ → Bytes :=
  listed (setWord (setWord (setWord (setWord zero 0 1) 1 6) 2 1) 3 3) (setWord (setWord zero 0 1) 1 3)

/-- The superblock has a count of 101. -/
def crowded : ℕ → Bytes := listed (setWord (setWord (setWord zero 0 1) 1 6) 2 101) zero

/-- From block 3 the list comes to block 3. -/
lemma looped_nth (n : ℕ) :
    ((Chunk.below looped)^[n] (Chunk.top looped)).count = 1 ∧
      ((Chunk.below looped)^[n] (Chunk.top looped)).entry 0 = 3 := by
  induction n with
  | zero => exact ⟨by decide, by decide⟩
  | succ n ih =>
      rw [Function.iterate_succ_apply', Chunk.below, ih.2]
      exact ⟨by decide, by decide⟩

end Icheck

end Host

end Micronix
