import Micronix.Fs.Balloc
import Micronix.Lib.Lifo
import Mathlib.Tactic.ByContra

/-!
# The free list refines a stack of block numbers

`Chunk` reads the two forms of a chunk of the list: the superblock's `s_nfree`, `s_free[]`, and
the same 101 words at the start of a chain block.  `Represents` says which list of block numbers
a chunk stands for, following the chain through the blocks of the list itself.  `bfree` pushes
and `balloc` pops that list (`Represents.bfree`, `Represents.balloc`), whichever of the spill,
refill and sentinel cases applies.
-/

namespace Micronix

open Bytes Super

/-- `Represents blk n free L`: a stack of `n` entries `free` stands for the list `L`.  The list
ends at an empty stack or at a 0 entry; the entry at the bottom of a stack is the block that
holds the next stack. -/
def Represents (blk : ℕ → Bytes) : ℕ → (ℕ → ℕ) → List ℕ → Prop
  | n, free, [] => n = 0 ∨ n ≤ 100 ∧ free (n - 1) = 0
  | n, free, b :: L =>
      0 < n ∧ n ≤ 100 ∧ free (n - 1) = b ∧ b ≠ 0 ∧
        if n = 1 then Represents blk (word (blk b) 0) (fun k => word (blk b) (1 + k)) L
        else Represents blk (n - 1) free L

/-- The free list of device `dev` is `L`. -/
def FreeList (s : Sys) (dev : ℕ) (L : List ℕ) : Prop :=
  Represents (s.blk dev) (nfree (s.sb dev)) (free (s.sb dev)) L

/-- The blocks that may be on a free list or in a file: `[isize + 2, fsize)`. -/
def InRange (sb : Bytes) (b : ℕ) : Prop := isize sb + 2 ≤ b ∧ b < fsize sb

instance (sb : Bytes) (b : ℕ) : Decidable (InRange sb b) := inferInstanceAs (Decidable (_ ∧ _))

lemma InRange.ne_zero {sb : Bytes} {b : ℕ} (h : InRange sb b) : b ≠ 0 := by
  have := h.1
  omega

lemma InRange.ne_one {sb : Bytes} {b : ℕ} (h : InRange sb b) : b ≠ 1 := by
  have := h.1
  omega

lemma InRange.lt {sb : Bytes} {b : ℕ} (h : InRange sb b) : b < 65536 :=
  lt_trans h.2 (word_lt sb 1)

/-- The kernel's 16-bit test accepts every block of the range. -/
lemma InRange.bcheck {sb : Bytes} {b : ℕ} (h : InRange sb b) : bcheck b sb = true := by
  have h1 := h.1
  have hlt := h.lt
  rw [Micronix.bcheck, Nat.mod_eq_of_lt (by omega)]
  simp only [Bool.and_eq_true, decide_eq_true_eq]
  exact ⟨by omega, h.2⟩

/-! ## What the represented list depends on -/

/-- A stack stands for the same list when its live entries and the blocks of the list agree. -/
lemma Represents.congr {blk blk' : ℕ → Bytes} :
    ∀ {L : List ℕ} {n : ℕ} {free free' : ℕ → ℕ}, Represents blk n free L →
      (∀ k < n, free' k = free k) → (∀ b ∈ L, blk' b = blk b) → Represents blk' n free' L
  | [], n, free, free', h, hf, _ => by
      rcases h with h | ⟨h, h0⟩
      · exact Or.inl h
      · by_cases hn : n = 0
        · exact Or.inl hn
        · exact Or.inr ⟨h, by rw [hf _ (by omega), h0]⟩
  | b :: L, n, free, free', h, hf, hb => by
      obtain ⟨hpos, hle, htop, hb0, hrest⟩ := h
      have hL : ∀ c ∈ L, blk' c = blk c := fun c hc => hb c (List.mem_cons_of_mem b hc)
      refine ⟨hpos, hle, by rw [hf _ (by omega), htop], hb0, ?_⟩
      split_ifs at hrest ⊢ with h1
      · rw [hb b List.mem_cons_self]
        exact Represents.congr hrest (fun _ _ => rfl) hL
      · exact Represents.congr hrest (fun k hk => hf k (by omega)) hL

lemma Represents.le {blk : ℕ → Bytes} {n : ℕ} {free : ℕ → ℕ} {L : List ℕ}
    (h : Represents blk n free L) : n ≤ 100 := by
  cases L with
  | nil => rcases h with h | h <;> omega
  | cons b L => exact h.2.1

/-- An empty stack stands for the empty list only. -/
lemma Represents.eq_nil {blk : ℕ → Bytes} {free : ℕ → ℕ} {L : List ℕ}
    (h : Represents blk 0 free L) : L = [] := by
  cases L with
  | nil => rfl
  | cons b L => exact absurd h.1 (by omega)

/-- The list ends where the top entry is 0. -/
lemma Represents.eq_nil_of_top {blk : ℕ → Bytes} {n : ℕ} {free : ℕ → ℕ} {L : List ℕ}
    (h : Represents blk n free L) (h0 : free (n - 1) = 0) : L = [] := by
  cases L with
  | nil => rfl
  | cons b L => exact absurd (h.2.2.1 ▸ h0) h.2.2.2.1

/-- One stack stands for one list. -/
lemma Represents.unique {blk : ℕ → Bytes} :
    ∀ {L L' : List ℕ} {n : ℕ} {free : ℕ → ℕ}, Represents blk n free L →
      Represents blk n free L' → L = L'
  | [], L', n, free, h, h' => by
      rcases h with rfl | ⟨_, h0⟩
      · exact h'.eq_nil.symm
      · exact (h'.eq_nil_of_top h0).symm
  | b :: L, L', n, free, h, h' => by
      cases L' with
      | nil =>
          rcases h' with rfl | ⟨_, h0⟩
          · exact absurd h.1 (by omega)
          · exact absurd (h.2.2.1 ▸ h0) h.2.2.2.1
      | cons b' L' =>
          obtain ⟨_, _, rfl, _, hr⟩ := h
          obtain ⟨_, _, rfl, _, hr'⟩ := h'
          split_ifs at hr hr' with h1
          · rw [hr.unique hr']
          · rw [hr.unique hr']

/-! ## The chunk in the superblock -/

lemma word_refill (sb fb : Bytes) (n : ℕ) :
    word (refill sb fb) n = if 2 ≤ n ∧ n < 103 then word fb (n - 2) else word sb n := by
  have h := word_copyBytes fb sb 0 2 101 n
  simpa [refill] using h

lemma word_spill (sb fb : Bytes) {n : ℕ} (h : n < 101) : word (spill sb fb) n = word sb (2 + n) := by
  have h' := word_copyBytes sb fb 2 0 101 n
  rw [if_pos ⟨by omega, by omega⟩] at h'
  simpa [spill] using h'

lemma nfree_refill (sb fb : Bytes) : nfree (refill sb fb) = word fb 0 := by
  rw [nfree, word_refill, if_pos (by omega)]

lemma free_refill (sb fb : Bytes) {k : ℕ} (h : k < 100) :
    free (refill sb fb) k = word fb (1 + k) := by
  rw [free, word_refill, if_pos (by omega)]
  congr 1
  omega

/-! ## `bfree` pushes -/

/-- What `bfree` leaves behind when the block is in range: only the superblock and, on a spill,
the freed block itself change. -/
lemma bfree_blk_other {s : Sys} {dev bn d n : ℕ} (h1 : ¬(d = dev ∧ n = 1))
    (hn : ¬(d = dev ∧ n = bn)) : (bfree s bn dev).blk d n = s.blk d n := by
  unfold bfree
  dsimp only
  split_ifs
  · rfl
  · rfl
  · exact Sys.put_blk_ne h1
  · rw [Sys.put_blk_ne h1, Sys.put_blk_ne hn]; rfl
  · exact Sys.put_blk_ne h1

lemma bfree_ino (s : Sys) (dev bn : ℕ) : (bfree s bn dev).ino = s.ino := by
  unfold bfree
  dsimp only
  split_ifs <;> rfl

/-- The free-list area of the superblock is bytes 4 to 205; the rest is `s_isize`, `s_fsize`
before it and the free inodes, `s_flock` and the time after it. -/
def SameOutside (sb sb' : Bytes) : Prop := ∀ i, i < 4 ∨ 206 ≤ i → sb' i = sb i

lemma SameOutside.refl (sb : Bytes) : SameOutside sb sb := fun _ _ => rfl

lemma SameOutside.trans {a b c : Bytes} (h : SameOutside a b) (h' : SameOutside b c) :
    SameOutside a c :=
  fun i hi => (h' i hi).trans (h i hi)

lemma sameOutside_setNfree (sb : Bytes) (v : ℕ) : SameOutside sb (setNfree sb v) := by
  intro i hi
  rw [setNfree, setWord, if_neg (by omega), if_neg (by omega)]

lemma sameOutside_setFree (sb : Bytes) {k : ℕ} (v : ℕ) (hk : k < 100) :
    SameOutside sb (setFree sb k v) := by
  intro i hi
  rw [setFree, setWord, if_neg (by omega), if_neg (by omega)]

lemma sameOutside_refill (sb fb : Bytes) : SameOutside sb (refill sb fb) :=
  fun i hi => copyBytes_outside (by omega)

lemma SameOutside.isize {sb sb' : Bytes} (h : SameOutside sb sb') :
    Super.isize sb' = Super.isize sb :=
  word_congr (h 0 (by omega)) (h 1 (by omega))

lemma SameOutside.fsize {sb sb' : Bytes} (h : SameOutside sb sb') :
    Super.fsize sb' = Super.fsize sb :=
  word_congr (h 2 (by omega)) (h 3 (by omega))

lemma SameOutside.flock {sb sb' : Bytes} (h : SameOutside sb sb') :
    Super.flock sb' = Super.flock sb := by
  rw [Super.flock, Super.flock, h 408 (by omega)]

lemma SameOutside.inRange {sb sb' : Bytes} (h : SameOutside sb sb') {b : ℕ} :
    InRange sb' b ↔ InRange sb b := by
  rw [InRange, InRange, h.isize, h.fsize]

lemma bfree_sb {s : Sys} {dev bn : ℕ} (h : bn ≠ 1) :
    SameOutside (s.sb dev) ((bfree s bn dev).sb dev) := by
  unfold bfree
  dsimp only
  split_ifs with h0 hc hn hfull
  · exact .refl _
  · exact .refl _
  · simp only [Sys.put_sb_self, Sys.setError_sb]
    exact ((((sameOutside_setFree _ 0 (by omega)).trans (sameOutside_setNfree _ 1)).trans
      (sameOutside_setFree _ bn (by omega))).trans (sameOutside_setNfree _ 2))
  · simp only [Sys.put_sb_self, Sys.put_sb_other h, Sys.setError_sb]
    exact (((sameOutside_setNfree _ 0).trans (sameOutside_setFree _ bn (by omega))).trans
      (sameOutside_setNfree _ 1))
  · simp only [Sys.put_sb_self, Sys.setError_sb]
    exact (sameOutside_setFree _ bn (by simpa using hfull)).trans (sameOutside_setNfree _ _)

/-- **`bfree` is a push.** -/
theorem FreeList.bfree {s : Sys} {dev b : ℕ} {L : List ℕ} (h : FreeList s dev L)
    (hr : InRange (s.sb dev) b) (hb : b ∉ L) (hL : 1 ∉ L) :
    FreeList (bfree s b dev) dev (b :: L) := by
  have hframe : ∀ c ∈ L, (Micronix.bfree s b dev).blk dev c = s.blk dev c := by
    intro c hc
    have h1 : c ≠ 1 := fun e => hL (e ▸ hc)
    have hcb : c ≠ b := fun e => hb (e ▸ hc)
    exact bfree_blk_other (fun e => h1 e.2) (fun e => hcb e.2)
  have hlt := hr.lt
  by_cases h0 : nfree (s.sb dev) = 0
  · -- an empty stack gets a sentinel and the block
    have hnil : L = [] := by
      rw [FreeList, h0] at h
      exact h.eq_nil
    subst hnil
    have hsb : (Micronix.bfree s b dev).sb dev
        = setNfree (setFree (setNfree (setFree (s.sb dev) 0 0) 1) 1 b) 2 := by
      simp [Micronix.bfree, hr.ne_zero, hr.bcheck, h0]
    have hfree : ∀ k, free ((Micronix.bfree s b dev).sb dev) k
        = if k = 1 then b else if k = 0 then 0 else free (s.sb dev) k := by
      intro k
      rw [hsb]
      simp only [free_setNfree, free_setFree hlt, free_setFree (show 0 < 65536 by omega)]
    have hn : nfree ((Micronix.bfree s b dev).sb dev) = 2 := by
      rw [hsb, nfree_setNfree (by omega)]
    refine ⟨by omega, by omega, ?_, hr.ne_zero, ?_⟩
    · rw [hn, hfree, if_pos rfl]
    · rw [if_neg (by omega), hn]
      exact Or.inr ⟨by omega, by rw [hfree]; simp⟩
  · by_cases h100 : nfree (s.sb dev) ≥ 100
    · -- a full stack is spilled into the block, which becomes its only entry
      have hn : nfree (s.sb dev) = 100 := le_antisymm h.le h100
      have hblk : (Micronix.bfree s b dev).blk dev b = spill (s.sb dev) (s.blk dev b) := by
        simp [Micronix.bfree, hr.ne_zero, hr.bcheck, hn, Sys.put_blk_other hr.ne_one]
      have hsb : (Micronix.bfree s b dev).sb dev
          = setNfree (setFree (setNfree (s.sb dev) 0) 0 b) 1 := by
        simp [Micronix.bfree, hr.ne_zero, hr.bcheck, hn, Sys.put_sb_other hr.ne_one]
      have hn' : nfree ((Micronix.bfree s b dev).sb dev) = 1 := by
        rw [hsb, nfree_setNfree (by omega)]
      refine ⟨by omega, by omega, ?_, hr.ne_zero, ?_⟩
      · rw [hn', hsb, free_setNfree, free_setFree hlt, if_pos rfl]
      · rw [if_pos hn', hblk, word_spill _ _ (by omega)]
        refine Represents.congr (n := nfree (s.sb dev)) h ?_ hframe
        intro k hk
        rw [word_spill _ _ (by omega), free]
        congr 1
        omega
    · -- otherwise it is pushed
      have hsb : (Micronix.bfree s b dev).sb dev
          = setNfree (setFree (s.sb dev) (nfree (s.sb dev)) b) (nfree (s.sb dev) + 1) := by
        simp [Micronix.bfree, hr.ne_zero, hr.bcheck, h0, h100]
      have hn' : nfree ((Micronix.bfree s b dev).sb dev) = nfree (s.sb dev) + 1 := by
        rw [hsb, nfree_setNfree (by omega)]
      have hfree : ∀ k, free ((Micronix.bfree s b dev).sb dev) k
          = if k = nfree (s.sb dev) then b else free (s.sb dev) k := by
        intro k
        rw [hsb, free_setNfree, free_setFree hlt]
      refine ⟨by omega, by omega, ?_, hr.ne_zero, ?_⟩
      · rw [hn', hfree, if_pos (by omega)]
      · rw [hn', if_neg (by omega), Nat.add_sub_cancel]
        exact Represents.congr h (fun k hk => by rw [hfree, if_neg (by omega)]) hframe

/-! ## `balloc` pops -/

/-- **`balloc` is a pop**: it returns the head, zeroed, and leaves the tail. -/
theorem FreeList.balloc_cons {s : Sys} {dev b : ℕ} {L : List ℕ} (h : FreeList s dev (b :: L))
    (hrw : flock (s.sb dev) = false) (hr : InRange (s.sb dev) b) (hb : b ∉ L) (hL : 1 ∉ L) :
    (balloc s dev).1 = b ∧ FreeList (balloc s dev).2 dev L ∧
      (balloc s dev).2.blk dev b = zero ∧ (balloc s dev).2.error = none := by
  obtain ⟨hpos, hle, htop, hb0, hrest⟩ := h
  have hn0 : nfree (s.sb dev) ≠ 0 := by omega
  by_cases h1 : nfree (s.sb dev) = 1
  · -- the last entry: the next stack is read from the block itself
    rw [if_pos h1] at hrest
    have htop : free (s.sb dev) 0 = b := by
      rw [h1] at htop
      exact htop
    have hbal : balloc s dev = (b, (((s.setError none).put dev 1 (setNfree (s.sb dev) 0)).put dev 1
        (refill (setNfree (s.sb dev) 0) (s.blk dev b))).put dev b zero) := by
      simp [balloc, hrw, h1, htop, hb0, hr.bcheck, Sys.put_blk_other hr.ne_one]
    have hsb : (balloc s dev).2.sb dev = refill (setNfree (s.sb dev) 0) (s.blk dev b) := by
      rw [hbal, Sys.put_sb_other hr.ne_one, Sys.put_sb_self]
    refine ⟨by rw [hbal], ?_, by rw [hbal]; simp, by rw [hbal]; rfl⟩
    rw [FreeList, hsb, nfree_refill]
    have hle' := hrest.le
    refine Represents.congr hrest (fun k hk => free_refill _ _ (by omega)) ?_
    intro c hc
    have hcb : c ≠ b := fun e => hb (e ▸ hc)
    have hc1 : c ≠ 1 := fun e => hL (e ▸ hc)
    rw [hbal]
    simp only [Sys.put_blk_other hcb, Sys.put_blk_other hc1, Sys.setError_blk]
  · rw [if_neg h1] at hrest
    have hbal : balloc s dev
        = (b, ((s.setError none).put dev 1 (setNfree (s.sb dev) (nfree (s.sb dev) - 1))).put
            dev b zero) := by
      have hpos' : ¬(nfree (s.sb dev) - 1 = 0) := by omega
      simp [balloc, hrw, hn0, htop, hb0, hr.bcheck, hpos']
    have hsb : (balloc s dev).2.sb dev = setNfree (s.sb dev) (nfree (s.sb dev) - 1) := by
      rw [hbal, Sys.put_sb_other hr.ne_one, Sys.put_sb_self]
    refine ⟨by rw [hbal], ?_, by rw [hbal]; simp, by rw [hbal]; rfl⟩
    rw [FreeList, hsb, nfree_setNfree (by omega)]
    refine Represents.congr hrest (fun k hk => free_setNfree _ _ _) ?_
    intro c hc
    have hcb : c ≠ b := fun e => hb (e ▸ hc)
    have hc1 : c ≠ 1 := fun e => hL (e ▸ hc)
    rw [hbal]
    simp only [Sys.put_blk_other hcb, Sys.put_blk_other hc1, Sys.setError_blk]

/-- **`balloc` on the empty list** fails with `ENOSPC`, and the list stays empty. -/
theorem FreeList.balloc_nil {s : Sys} {dev : ℕ} (h : FreeList s dev [])
    (hrw : flock (s.sb dev) = false) :
    (balloc s dev).1 = 0 ∧ FreeList (balloc s dev).2 dev [] ∧
      (balloc s dev).2.error = some .ENOSPC := by
  have hfull : ∀ t : Sys, (ballocFull t dev).1 = 0 ∧ FreeList (ballocFull t dev).2 dev [] ∧
      (ballocFull t dev).2.error = some .ENOSPC := by
    intro t
    refine ⟨rfl, Or.inl ?_, rfl⟩
    rw [ballocFull, Sys.put_sb_self, nfree_setNfree (by omega)]
  by_cases h0 : nfree (s.sb dev) = 0
  · have hbal : balloc s dev = ballocFull (s.setError none) dev := by simp [balloc, hrw, h0]
    rw [hbal]
    exact hfull _
  · -- the sentinel: a 0 at the top of the stack
    have htop := (h.resolve_left h0).2
    have hbal : balloc s dev = ballocFull ((s.setError none).put dev 1
        (setNfree (s.sb dev) (nfree (s.sb dev) - 1))) dev := by
      simp [balloc, hrw, h0, htop]
    rw [hbal]
    exact hfull _

lemma ballocFull_sb (s : Sys) (dev : ℕ) :
    SameOutside (s.sb dev) ((ballocFull s dev).2.sb dev) := by
  rw [ballocFull, Sys.put_sb_self]
  exact sameOutside_setNfree _ 0

/-- Outside the free-list area `balloc` leaves the superblock alone. -/
lemma balloc_sb {s : Sys} {dev : ℕ} (h : (balloc s dev).1 ≠ 1) :
    SameOutside (s.sb dev) ((balloc s dev).2.sb dev) := by
  unfold balloc at h ⊢
  dsimp only at h ⊢
  split_ifs at h ⊢ with hro hn hbad hlast
  · exact .refl _
  · exact ballocFull_sb (s.setError none) dev
  · refine SameOutside.trans ?_ (ballocFull_sb _ dev)
    rw [Sys.put_sb_self]
    exact sameOutside_setNfree _ _
  · rw [Sys.put_sb_other h, Sys.put_sb_self, Sys.put_sb_self]
    exact (sameOutside_setNfree _ _).trans (sameOutside_refill _ _)
  · rw [Sys.put_sb_other h, Sys.put_sb_self]
    exact sameOutside_setNfree _ _

/-- The inodes are not `balloc`'s business. -/
lemma balloc_ino (s : Sys) (dev : ℕ) : (balloc s dev).2.ino = s.ino := by
  unfold balloc ballocFull
  dsimp only
  split_ifs <;> rfl

/-- Only the superblock and the block handed out change. -/
lemma balloc_blk_other {s : Sys} {dev d n : ℕ} (h1 : ¬(d = dev ∧ n = 1))
    (hn : ¬(d = dev ∧ n = (balloc s dev).1)) : (balloc s dev).2.blk d n = s.blk d n := by
  unfold balloc ballocFull at hn ⊢
  dsimp only at hn ⊢
  split_ifs at hn ⊢
  · rfl
  · exact Sys.put_blk_ne h1
  · rw [Sys.put_blk_ne h1, Sys.setError_blk, Sys.put_blk_ne h1, Sys.setError_blk]
  · rw [Sys.put_blk_ne hn, Sys.put_blk_ne h1, Sys.put_blk_ne h1, Sys.setError_blk]
  · rw [Sys.put_blk_ne hn, Sys.put_blk_ne h1, Sys.setError_blk]

/-- On a device mounted read-only `balloc` fails with `EROFS` and changes nothing else. -/
theorem balloc_ronly {s : Sys} {dev : ℕ} (hro : flock (s.sb dev) = true) :
    balloc s dev = (0, s.setError (some .EROFS)) := by
  simp [balloc, hro]
  rfl

/-! ## Sequences of calls -/

/-- A free list as the kernel keeps it: distinct blocks, all in range. -/
abbrev KeptList (s : Sys) (dev : ℕ) (L : List ℕ) : Prop := Lifo.Kept (InRange (s.sb dev)) L

lemma one_notMem_of_kept {sb : Bytes} {L : List ℕ} (h : Lifo.Kept (InRange sb) L) : 1 ∉ L :=
  fun h1 => (h.2 1 h1).ne_one rfl

/-- Serve one request with `balloc` or `bfree`. -/
def serveBlock (dev : ℕ) (s : Sys) : Lifo.Call ℕ → Lifo.Event ℕ × Sys
  | .alloc =>
      let r := balloc s dev
      (if r.1 = 0 then .full else .got r.1, r.2)
  | .free b => (.freed b, bfree s b dev)

/-- Serve a sequence of requests with `balloc` and `bfree`. -/
def serveBlocks (dev : ℕ) : Sys → List (Lifo.Call ℕ) → List (Lifo.Event ℕ) × Sys
  | s, [] => ([], s)
  | s, c :: cs =>
      let r := serveBlock dev s c
      let rest := serveBlocks dev r.2 cs
      (r.1 :: rest.1, rest.2)

/-- The state of a writable device whose free list is `L`. -/
structure Backs (s : Sys) (dev : ℕ) (sb : Bytes) (L : List ℕ) : Prop where
  list : FreeList s dev L
  kept : Lifo.Kept (InRange sb) L
  same : SameOutside sb (s.sb dev)
  rw' : flock sb = false

lemma Backs.alloc {s : Sys} {dev : ℕ} {sb : Bytes} {L : List ℕ} (h : Backs s dev sb L) :
    (serveBlock dev s .alloc).1 = (Lifo.serve L .alloc).1 ∧
      Backs (serveBlock dev s .alloc).2 dev sb (Lifo.serve L .alloc).2 := by
  have hrw : flock (s.sb dev) = false := by rw [h.same.flock, h.rw']
  cases L with
  | nil =>
      obtain ⟨h0, hlist, -⟩ := h.list.balloc_nil hrw
      refine ⟨by simp [serveBlock, Lifo.serve, h0], hlist, h.kept.alloc, ?_, h.rw'⟩
      exact h.same.trans (balloc_sb (by omega))
  | cons b L =>
      have hr : InRange (s.sb dev) b := h.same.inRange.mpr (h.kept.2 b List.mem_cons_self)
      have hb : b ∉ L := (List.nodup_cons.mp h.kept.1).1
      have h1 : 1 ∉ L := fun e => (one_notMem_of_kept h.kept) (List.mem_cons_of_mem b e)
      obtain ⟨hbn, hlist, -, -⟩ := h.list.balloc_cons hrw hr hb h1
      refine ⟨by simp [serveBlock, Lifo.serve, hbn, hr.ne_zero], hlist, h.kept.alloc, ?_, h.rw'⟩
      exact h.same.trans (balloc_sb (by rw [hbn]; exact hr.ne_one))

lemma Backs.free {s : Sys} {dev b : ℕ} {sb : Bytes} {L : List ℕ} (h : Backs s dev sb L)
    (hr : InRange sb b) (hb : b ∉ L) : Backs (serveBlock dev s (.free b)).2 dev sb (b :: L) :=
  ⟨h.list.bfree (h.same.inRange.mpr hr) hb (one_notMem_of_kept h.kept), h.kept.free hr hb,
    h.same.trans (bfree_sb hr.ne_one), h.rw'⟩

/-- **Simulation.**  Serving requests with `balloc` and `bfree` shows the client exactly what the
stack would. -/
theorem Backs.serveBlocks {dev : ℕ} {sb : Bytes} :
    ∀ {cs : List (Lifo.Call ℕ)} {s : Sys} {L : List ℕ}, Backs s dev sb L →
      Lifo.Disciplined (InRange sb) L cs →
        (serveBlocks dev s cs).1 = (Lifo.serveAll L cs).1 ∧
          Backs (serveBlocks dev s cs).2 dev sb (Lifo.serveAll L cs).2
  | [], s, L, h, _ => ⟨rfl, h⟩
  | .alloc :: cs, s, L, h, hd => by
      obtain ⟨he, hs⟩ := h.alloc
      obtain ⟨hes, hss⟩ := Backs.serveBlocks hs hd
      exact ⟨by simp only [Micronix.serveBlocks, Lifo.serveAll, he, hes], hss⟩
  | .free b :: cs, s, L, h, hd => by
      obtain ⟨hes, hss⟩ := Backs.serveBlocks (h.free hd.1 hd.2.1) hd.2.2
      exact ⟨by simp only [Micronix.serveBlocks, Lifo.serveAll]; rw [hes]; rfl, hss⟩

/-- A superblock with one free block, number 2, above the 0 that ends the list. -/
def smallSb : Bytes := setFree (setNfree (setWord zero 1 3) 2) 1 2

/-- A three-block device with that superblock, whose inodes are all empty. -/
def smallDisk (fmt : Ifmt) : Sys where
  blk _ n := if n = 1 then smallSb else zero
  ino _ := ⟨0, fmt, false, fun _ => 0, 0, 0, 0, false, false, false⟩
  error := none
  seconds := 0
  stack := 0

lemma smallDisk_sb (fmt : Ifmt) : (smallDisk fmt).sb 0 = smallSb := rfl

lemma smallDisk_freeList (fmt : Ifmt) : FreeList (smallDisk fmt) 0 [2] := by
  have hn : nfree smallSb = 2 := by decide
  have h0 : free smallSb 0 = 0 := by decide
  have h1 : free smallSb 1 = 2 := by decide
  rw [FreeList, smallDisk_sb, hn]
  exact ⟨by decide, by decide, h1, by decide, Or.inr ⟨by decide, h0⟩⟩

lemma smallDisk_inRange (fmt : Ifmt) (b : ℕ) : InRange ((smallDisk fmt).sb 0) b ↔ b = 2 := by
  have h0 : isize smallSb = 0 := by decide
  have h1 : fsize smallSb = 3 := by decide
  rw [InRange, smallDisk_sb, h0, h1]
  omega

lemma smallDisk_kept (fmt : Ifmt) : KeptList (smallDisk fmt) 0 [2] :=
  ⟨by decide, fun b hb => (smallDisk_inRange fmt b).mpr (by simpa using hb)⟩

end Micronix
