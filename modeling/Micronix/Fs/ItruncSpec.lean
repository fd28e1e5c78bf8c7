import Micronix.Fs.Itrunc
import Micronix.Fs.Moves
import Mathlib.Data.Set.BooleanAlgebra
import Mathlib.Order.CompletePartialOrder

/-!
# What `itrunc` does

`itrunc` first takes all blocks of the inode into its hand and then gives them back to the free
list one by one; the inode is emptied only at the end.  So while it works the map of the inode is
no longer counted (`Freeing`), and the blocks not yet freed keep their contents, which is what the
three-level walk of `indfree` reads.  `tree` is the set of blocks `indfree` visits.
-/

namespace Micronix

open Bytes Super

/-- The blocks at and below the `level`-th indirect block `b`. -/
def tree (blk : ℕ → Bytes) : ℕ → ℕ → Set ℕ
  | 0, b => {c | b ≠ 0 ∧ c = b}
  | level + 1, b =>
      {c | b ≠ 0 ∧ (c = b ∨ ∃ k < 256, c ∈ tree blk level (word (blk b) k))}

/-- No block occurs twice in the tree below `b`. -/
def Proper (blk : ℕ → Bytes) : ℕ → ℕ → Prop
  | 0, _ => True
  | level + 1, b =>
      b ≠ 0 → (∀ k < 256, b ∉ tree blk level (word (blk b) k) ∧
          Proper blk level (word (blk b) k)) ∧
        ∀ j < 256, ∀ k < 256, j ≠ k →
          Disjoint (tree blk level (word (blk b) j)) (tree blk level (word (blk b) k))

/-- `s` is on the way of freeing blocks from `s₀`: the list is `L`, the blocks of `F` are still in
hand, `val` are the places that are not given up, and no block that is not on the list has
changed. -/
structure Freeing (s₀ : Sys) (dev : ℕ) (val : ℕ × Slot → ℕ) (s : Sys) (L : List ℕ) (F : Set ℕ) :
    Prop where
  list : FreeList s dev L
  part : Divided (InRange (s₀.sb dev)) L F val
  sb : SameOutside (s₀.sb dev) (s.sb dev)
  ino : s.ino = s₀.ino
  seconds : s.seconds = s₀.seconds
  blk : ∀ c, c ≠ 1 → c ∉ L → s.blk dev c = s₀.blk dev c

section Freeing

variable {s₀ s : Sys} {dev : ℕ} {val : ℕ × Slot → ℕ} {L : List ℕ} {F : Set ℕ}

/-- Blocks in hand still hold what they held at the start. -/
lemma Freeing.blk_hand (h : Freeing s₀ dev val s L F) {b : ℕ} (hb : b ∈ F) :
    s.blk dev b = s₀.blk dev b :=
  h.blk b (h.part.hand_range b hb).ne_one fun hL => h.part.list_hand b hL hb

lemma Freeing.setError (h : Freeing s₀ dev val s L F) (e : Option Errno) :
    Freeing s₀ dev val (s.setError e) L F :=
  ⟨h.list, h.part, h.sb, h.ino, h.seconds, h.blk⟩

/-- `bfree` of a block in hand. -/
lemma Freeing.bfree (h : Freeing s₀ dev val s L F) {b : ℕ} (hb : b ∈ F) :
    Freeing s₀ dev val (bfree s b dev) (b :: L) (F \ {b}) := by
  have hr : InRange (s₀.sb dev) b := h.part.hand_range b hb
  have h1 : 1 ∉ L := fun e => (h.part.list_range 1 e).ne_one rfl
  have hbL : b ∉ L := fun e => h.part.list_hand b e hb
  refine ⟨h.list.bfree (h.sb.inRange.mpr hr) hbL h1, h.part.give hb,
    h.sb.trans (bfree_sb hr.ne_one), ?_, ?_, ?_⟩
  · rw [bfree_ino, h.ino]
  · rw [bfree_seconds, h.seconds]
  · intro c hc1 hc
    have hcb : c ≠ b := fun e => hc (e ▸ List.mem_cons_self)
    have hcL : c ∉ L := fun e => hc (List.mem_cons_of_mem b e)
    rw [bfree_blk_other (fun e => hc1 e.2) (fun e => hcb e.2), h.blk c hc1 hcL]

/-- `f` frees exactly the blocks of `T` when they are all in hand. -/
def Frees (s₀ : Sys) (dev : ℕ) (val : ℕ × Slot → ℕ) (f : Sys → Sys) (T : Set ℕ) : Prop :=
  ∀ s L F, Freeing s₀ dev val s L F → T ⊆ F → ∃ L', Freeing s₀ dev val (f s) L' (F \ T)

/-- The blocks of the first `n` sets. -/
def upTo (T : ℕ → Set ℕ) (n : ℕ) : Set ℕ := {c | ∃ k < n, c ∈ T k}

lemma diff_upTo_succ (T : ℕ → Set ℕ) (n : ℕ) (F : Set ℕ) :
    F \ upTo T (n + 1) = (F \ T n) \ upTo T n := by
  ext c
  simp only [upTo, Set.mem_sdiff, Set.mem_ofPred_eq, not_exists, not_and]
  constructor
  · intro ⟨hF, h⟩
    exact ⟨⟨hF, h n (by omega)⟩, fun k hk => h k (by omega)⟩
  · intro ⟨⟨hF, hn⟩, h⟩
    refine ⟨hF, fun k hk => ?_⟩
    rcases Nat.lt_succ_iff_lt_or_eq.mp hk with hk | rfl
    · exact h k hk
    · exact hn

/-- The blocks of the lower sets are still in hand after the highest set was freed. -/
lemma upTo_subset {T : ℕ → Set ℕ} {n : ℕ} (hsub : upTo T (n + 1) ⊆ F)
    (hdisj : ∀ j < n + 1, ∀ k < n + 1, j ≠ k → Disjoint (T j) (T k)) : upTo T n ⊆ F \ T n := by
  rintro c ⟨k, hk, hc⟩
  refine ⟨hsub ⟨k, by omega, hc⟩, fun hn => ?_⟩
  exact Set.disjoint_left.mp (hdisj k (by omega) n (by omega) (by omega)) hc hn

/-- The loop of `indfree`. -/
lemma indWords_frees {f : Sys → ℕ → Sys} {ind : ℕ} {T : ℕ → Set ℕ} :
    ∀ {n : ℕ} {s : Sys} {L : List ℕ} {F : Set ℕ},
      (∀ k < n, Frees s₀ dev val (fun s => f s (word (s₀.blk dev ind) k)) (T k)) →
      (∀ j < n, ∀ k < n, j ≠ k → Disjoint (T j) (T k)) → Freeing s₀ dev val s L F →
      ind ∈ F → (∀ k < n, ind ∉ T k) → upTo T n ⊆ F →
        ∃ L', Freeing s₀ dev val (indWords f ind dev n s) L' (F \ upTo T n)
  | 0, s, L, F, _, _, h, _, _, _ => by
      refine ⟨L, ?_⟩
      have h0 : F \ upTo T 0 = F := by
        ext c
        simp [upTo]
      rw [h0]
      exact h
  | n + 1, s, L, F, hf, hdisj, h, hind, hnot, hsub => by
      have hn : T n ⊆ F := fun c hc => hsub ⟨n, by omega, hc⟩
      obtain ⟨L1, h1⟩ := hf n (by omega) s L F h hn
      rw [indWords, h.blk_hand hind, diff_upTo_succ]
      exact indWords_frees (fun k hk => hf k (by omega))
        (fun j hj k hk => hdisj j (by omega) k (by omega)) h1 ⟨hind, hnot n (by omega)⟩
        (fun k hk => hnot k (by omega)) (upTo_subset hsub hdisj)

/-- The loops of `itrunc`. -/
lemma addrDown_frees {f : Sys → ℕ → Sys} {ip : ℕ} {T : ℕ → Set ℕ} :
    ∀ {n : ℕ} {s : Sys} {L : List ℕ} {F : Set ℕ},
      (∀ k < n, Frees s₀ dev val (fun s => f s ((s₀.ino ip).addr k)) (T k)) →
      (∀ j < n, ∀ k < n, j ≠ k → Disjoint (T j) (T k)) → Freeing s₀ dev val s L F →
      upTo T n ⊆ F → ∃ L', Freeing s₀ dev val (addrDown f ip n s) L' (F \ upTo T n)
  | 0, s, L, F, _, _, h, _ => by
      refine ⟨L, ?_⟩
      have h0 : F \ upTo T 0 = F := by
        ext c
        simp [upTo]
      rw [h0]
      exact h
  | n + 1, s, L, F, hf, hdisj, h, hsub => by
      have hn : T n ⊆ F := fun c hc => hsub ⟨n, by omega, hc⟩
      obtain ⟨L1, h1⟩ := hf n (by omega) s L F h hn
      rw [addrDown, h.ino, diff_upTo_succ]
      exact addrDown_frees (fun k hk => hf k (by omega))
        (fun j hj k hk => hdisj j (by omega) k (by omega)) h1 (upTo_subset hsub hdisj)

/-- `bfree` of a block or of 0. -/
lemma bfree_frees (b : ℕ) :
    Frees s₀ dev val (fun s => bfree s b dev) (tree (s₀.blk dev) 0 b) := by
  intro s L F h hsub
  by_cases h0 : b = 0
  · refine ⟨L, ?_⟩
    have hT : F \ tree (s₀.blk dev) 0 b = F := by
      ext c
      simp [tree, h0]
    rw [hT]
    simpa [Micronix.bfree, h0] using h
  · have hT : tree (s₀.blk dev) 0 b = {b} := by
      ext c
      simp [tree, h0]
    rw [hT] at hsub ⊢
    exact ⟨b :: L, h.bfree (hsub rfl)⟩

/-- **`indfree`** frees the tree below its block, whichever its level. -/
theorem indfree_frees : ∀ {level b : ℕ}, Proper (s₀.blk dev) level b →
    Frees s₀ dev val (fun s => indfree dev level s b) (tree (s₀.blk dev) level b)
  | 0, b, _ => by
      intro s L F h hsub
      obtain ⟨L', h'⟩ := bfree_frees b s L F h hsub
      refine ⟨L', ?_⟩
      by_cases h0 : b = 0
      · simpa [indfree, h0, Micronix.bfree] using h'
      · simpa [indfree, h0] using h'
  | level + 1, b, hp => by
      intro s L F h hsub
      by_cases h0 : b = 0
      · refine ⟨L, ?_⟩
        have hT : F \ tree (s₀.blk dev) (level + 1) b = F := by
          ext c
          simp [tree, h0]
        rw [hT]
        simpa [indfree, h0] using h
      · obtain ⟨hbelow, hdisj⟩ := hp h0
        have hbF : b ∈ F := hsub ⟨h0, Or.inl rfl⟩
        have hwords : upTo (fun k => tree (s₀.blk dev) level (word (s₀.blk dev b) k)) 256 ⊆ F :=
          fun c hc => hsub ⟨h0, Or.inr hc⟩
        obtain ⟨L1, h1⟩ := indWords_frees (f := indfree dev level)
          (fun k hk => indfree_frees (hbelow k hk).2) hdisj (h.setError none) hbF
          (fun k hk => (hbelow k hk).1) hwords
        have hb1 : b ∈ F \ upTo (fun k => tree (s₀.blk dev) level (word (s₀.blk dev b) k)) 256 := by
          refine ⟨hbF, ?_⟩
          rintro ⟨k, hk, hc⟩
          exact (hbelow k hk).1 hc
        refine ⟨b :: L1, ?_⟩
        have hT : F \ tree (s₀.blk dev) (level + 1) b
            = (F \ upTo (fun k => tree (s₀.blk dev) level (word (s₀.blk dev b) k)) 256) \ {b} := by
          ext c
          simp only [tree, upTo, Set.mem_sdiff, Set.mem_ofPred_eq, Set.mem_singleton_iff]
          constructor
          · rintro ⟨hF, hno⟩
            exact ⟨⟨hF, fun hk => hno ⟨h0, Or.inr hk⟩⟩, fun e => hno ⟨h0, Or.inl e⟩⟩
          · rintro ⟨⟨hF, hno⟩, hne⟩
            exact ⟨hF, fun e => e.2.elim hne hno⟩
        rw [hT]
        simpa [indfree, h0] using h1.bfree hb1

end Freeing

/-! ## The trees of an inode -/

section Trees

variable {s : Sys} {dev ip : ℕ} {L : List ℕ} {F : Set ℕ}

lemma addr_eq_place (hd : (s.ino ip).dev = dev) (hio : (s.ino ip).fmt.iio = false) {n : ℕ}
    (hn : n < 8) : (s.ino ip).addr n = place s dev (ip, .addr n) := by
  rw [place_of_dev hd, mapVal, addrVal, if_pos ⟨hn, hio⟩]

lemma place_addr_lt {n : ℕ} (h0 : place s dev (ip, .addr n) ≠ 0) : n < 8 := by
  by_contra hn
  apply h0
  unfold place
  split_ifs
  · rw [mapVal, addrVal, if_neg (fun e => hn e.1)]
  · rfl

lemma sub_up {blk : ℕ → Bytes} {b k : ℕ} (h : sub blk b k ≠ 0) : b ≠ 0 ∧ k < 256 := by
  unfold sub at h
  split_ifs at h with hb
  · exact hb
  · exact absurd rfl h

/-- A filled word of an indirect block lies in a block. -/
lemma place_ind_up {n k : ℕ} (h0 : place s dev (ip, .ind n k) ≠ 0) :
    place s dev (ip, .addr n) ≠ 0 ∧ k < 256 := by
  unfold place at h0 ⊢
  split_ifs at h0 ⊢ with hd
  · simp only [mapVal] at h0 ⊢
    split_ifs at h0
    · exact sub_up h0
    · exact absurd rfl h0
  · exact absurd rfl h0

/-- A filled word of a second-level block lies in a block. -/
lemma place_dbl_up {k j : ℕ} (h0 : place s dev (ip, .dbl k j) ≠ 0) :
    place s dev (ip, .ind 7 k) ≠ 0 ∧ j < 256 := by
  unfold place at h0 ⊢
  split_ifs at h0 ⊢ with hd
  · simp only [mapVal] at h0 ⊢
    split_ifs at h0 ⊢
    · exact sub_up h0
    · exact absurd rfl h0
  · exact absurd rfl h0

variable (hd : (s.ino ip).dev = dev) (hl : (s.ino ip).larg = true)

include hd hl in
lemma word_addr {n k : ℕ} (h0 : place s dev (ip, .addr n) ≠ 0) (hk : k < 256) :
    word (s.blk dev (place s dev (ip, .addr n))) k = place s dev (ip, .ind n k) :=
  (Points.ind hd hl hk h0).load

include hd in
lemma word_ind {k j : ℕ} (h0 : place s dev (ip, .ind 7 k) ≠ 0) (hj : j < 256) :
    word (s.blk dev (place s dev (ip, .ind 7 k))) j = place s dev (ip, .dbl k j) :=
  (Points.dbl hd hj h0).load

lemma mem_tree_zero {blk : ℕ → Bytes} {b c : ℕ} : c ∈ tree blk 0 b ↔ c ≠ 0 ∧ c = b := by
  constructor
  · rintro ⟨h0, rfl⟩
    exact ⟨h0, rfl⟩
  · rintro ⟨h0, rfl⟩
    exact ⟨h0, rfl⟩

include hd hl in
/-- The tree below one of the first seven addresses of a large inode. -/
lemma mem_tree_addr {n c : ℕ} : c ∈ tree (s.blk dev) 1 (place s dev (ip, .addr n)) ↔
    c ≠ 0 ∧ (c = place s dev (ip, .addr n) ∨ ∃ k, c = place s dev (ip, .ind n k)) := by
  constructor
  · rintro ⟨h0, rfl | ⟨k, hk, hc⟩⟩
    · exact ⟨h0, Or.inl rfl⟩
    · rw [word_addr hd hl h0 hk, mem_tree_zero] at hc
      exact ⟨hc.1, Or.inr ⟨k, hc.2⟩⟩
  · rintro ⟨hc0, rfl | ⟨k, rfl⟩⟩
    · exact ⟨hc0, Or.inl rfl⟩
    · obtain ⟨h0, hk⟩ := place_ind_up hc0
      exact ⟨h0, Or.inr ⟨k, hk, by rw [word_addr hd hl h0 hk]; exact ⟨hc0, rfl⟩⟩⟩

include hd in
/-- The tree below a second-level block. -/
lemma mem_tree_ind {k c : ℕ} : c ∈ tree (s.blk dev) 1 (place s dev (ip, .ind 7 k)) ↔
    c ≠ 0 ∧ (c = place s dev (ip, .ind 7 k) ∨ ∃ j, c = place s dev (ip, .dbl k j)) := by
  constructor
  · rintro ⟨h0, rfl | ⟨j, hj, hc⟩⟩
    · exact ⟨h0, Or.inl rfl⟩
    · rw [word_ind hd h0 hj, mem_tree_zero] at hc
      exact ⟨hc.1, Or.inr ⟨j, hc.2⟩⟩
  · rintro ⟨hc0, rfl | ⟨j, rfl⟩⟩
    · exact ⟨hc0, Or.inl rfl⟩
    · obtain ⟨h0, hj⟩ := place_dbl_up hc0
      exact ⟨h0, Or.inr ⟨j, hj, by rw [word_ind hd h0 hj]; exact ⟨hc0, rfl⟩⟩⟩

include hd hl in
/-- The tree below the last address of a large inode. -/
lemma mem_tree_last {c : ℕ} : c ∈ tree (s.blk dev) 2 (place s dev (ip, .addr 7)) ↔
    c ≠ 0 ∧ (c = place s dev (ip, .addr 7) ∨ (∃ k, c = place s dev (ip, .ind 7 k)) ∨
      ∃ k j, c = place s dev (ip, .dbl k j)) := by
  constructor
  · rintro ⟨h0, rfl | ⟨k, hk, hc⟩⟩
    · exact ⟨h0, Or.inl rfl⟩
    · rw [word_addr hd hl h0 hk, mem_tree_ind hd] at hc
      obtain ⟨hc0, hc | ⟨j, hc⟩⟩ := hc
      · exact ⟨hc0, Or.inr (Or.inl ⟨k, hc⟩)⟩
      · exact ⟨hc0, Or.inr (Or.inr ⟨k, j, hc⟩)⟩
  · have hbelow : ∀ k, place s dev (ip, .ind 7 k) ≠ 0 →
        ∀ c ∈ tree (s.blk dev) 1 (place s dev (ip, .ind 7 k)),
          c ∈ tree (s.blk dev) 2 (place s dev (ip, .addr 7)) := by
      intro k hk0 c hc
      obtain ⟨h0, hk⟩ := place_ind_up hk0
      exact ⟨h0, Or.inr ⟨k, hk, by rw [word_addr hd hl h0 hk]; exact hc⟩⟩
    rintro ⟨hc0, rfl | ⟨k, rfl⟩ | ⟨k, j, rfl⟩⟩
    · exact ⟨hc0, Or.inl rfl⟩
    · exact hbelow k hc0 _ ((mem_tree_ind hd).mpr ⟨hc0, Or.inl rfl⟩)
    · exact hbelow k (place_dbl_up hc0).1 _ ((mem_tree_ind hd).mpr ⟨hc0, Or.inr ⟨j, rfl⟩⟩)

variable (h : Owned s dev L F)

include h in
/-- One block at two places of an inode: they are the same. -/
lemma Owned.slot_inj {c : ℕ} {q q' : Slot} (hc : c ≠ 0) (e : c = place s dev (ip, q))
    (e' : c = place s dev (ip, q')) : q = q' :=
  congrArg Prod.snd (h.place_inj (e ▸ hc) (e.symm.trans e'))

include h hd hl in
lemma proper_addr (n : ℕ) : Proper (s.blk dev) 1 (place s dev (ip, .addr n)) := by
  intro h0
  refine ⟨fun k hk => ⟨?_, trivial⟩, fun j hj k hk hjk => Set.disjoint_left.mpr ?_⟩
  · rw [word_addr hd hl h0 hk, mem_tree_zero]
    intro hc
    exact absurd (h.slot_inj hc.1 rfl hc.2) (by simp)
  · intro c hcj hck
    rw [word_addr hd hl h0 hj, mem_tree_zero] at hcj
    rw [word_addr hd hl h0 hk, mem_tree_zero] at hck
    exact hjk (by simpa using h.slot_inj hcj.1 hcj.2 hck.2)

include h hd in
lemma proper_ind (k : ℕ) : Proper (s.blk dev) 1 (place s dev (ip, .ind 7 k)) := by
  intro h0
  refine ⟨fun j hj => ⟨?_, trivial⟩, fun i hi j hj hij => Set.disjoint_left.mpr ?_⟩
  · rw [word_ind hd h0 hj, mem_tree_zero]
    intro hc
    exact absurd (h.slot_inj hc.1 rfl hc.2) (by simp)
  · intro c hci hcj
    rw [word_ind hd h0 hi, mem_tree_zero] at hci
    rw [word_ind hd h0 hj, mem_tree_zero] at hcj
    exact hij (by simpa using h.slot_inj hci.1 hci.2 hcj.2)

include h hd hl in
lemma proper_last : Proper (s.blk dev) 2 (place s dev (ip, .addr 7)) := by
  intro h0
  refine ⟨fun k hk => ?_, fun j hj k hk hjk => Set.disjoint_left.mpr ?_⟩
  · rw [word_addr hd hl h0 hk, mem_tree_ind hd]
    refine ⟨?_, proper_ind hd h k⟩
    rintro ⟨hc, e | ⟨j, e⟩⟩
    · exact absurd (h.slot_inj hc rfl e) (by simp)
    · exact absurd (h.slot_inj hc rfl e) (by simp)
  · intro c hcj hck
    rw [word_addr hd hl h0 hj, mem_tree_ind hd] at hcj
    rw [word_addr hd hl h0 hk, mem_tree_ind hd] at hck
    obtain ⟨hc, e | ⟨i, e⟩⟩ := hcj <;> obtain ⟨-, e' | ⟨i', e'⟩⟩ := hck
    · exact hjk (by simpa using h.slot_inj hc e e')
    · exact absurd (h.slot_inj hc e e') (by simp)
    · exact absurd (h.slot_inj hc e e') (by simp)
    · have := h.slot_inj hc e e'
      simp only [Slot.dbl.injEq] at this
      exact hjk this.1

end Trees

/-! ## `itrunc` -/

/-- The places when those of inode `ip` are given up. -/
def without (s : Sys) (dev ip : ℕ) (x : ℕ × Slot) : ℕ := if x.1 = ip then 0 else place s dev x

/-- The blocks of inode `ip`. -/
def blocksOf (s : Sys) (dev ip : ℕ) : Set ℕ := {b | b ≠ 0 ∧ ∃ q, place s dev (ip, q) = b}

/-- At the start all blocks of the inode are in hand. -/
lemma Owned.detach {s : Sys} {dev : ℕ} {L : List ℕ} {F : Set ℕ} (h : Owned s dev L F) (ip : ℕ) :
    Freeing s dev (without s dev ip) s L (F ∪ blocksOf s dev ip) := by
  have hp := h.part.remove (without s dev ip) (fun x => x.1 = ip)
    (fun x hx => if_pos hx) (fun x hx => if_neg hx)
  have hF : {b | b ≠ 0 ∧ ∃ x : ℕ × Slot, x.1 = ip ∧ place s dev x = b} = blocksOf s dev ip := by
    ext b
    constructor
    · rintro ⟨h0, ⟨_, q⟩, rfl, e⟩
      exact ⟨h0, q, e⟩
    · rintro ⟨h0, q, e⟩
      exact ⟨h0, (ip, q), rfl, e⟩
  rw [hF] at hp
  exact ⟨h.list, hp, .refl _, rfl, rfl, fun _ _ _ => rfl⟩

/-- The walk of `itrunc`, before the inode is emptied. -/
def freeAll (s : Sys) (ip : ℕ) : Sys :=
  let i := s.ino ip
  if i.larg then addrDown (indfree i.dev 1) ip 7 (indfree i.dev 2 s (i.addr 7))
  else addrDown (fun s b => bfree s b i.dev) ip 8 s

/-- **The walk frees exactly the blocks of the inode.** -/
theorem freeAll_spec {s : Sys} {dev ip : ℕ} {L : List ℕ} {F : Set ℕ} (h : Owned s dev L F)
    (hd : (s.ino ip).dev = dev) (hio : (s.ino ip).fmt.iio = false) :
    ∃ L', Freeing s dev (without s dev ip) (freeAll s ip) L' F := by
  have h0 := h.detach ip
  have hF : ∀ T : Set ℕ, T = blocksOf s dev ip → (F ∪ blocksOf s dev ip) \ T = F := by
    rintro T rfl
    ext c
    constructor
    · rintro ⟨hc | hc, hno⟩
      · exact hc
      · exact absurd hc hno
    · intro hc
      refine ⟨Or.inl hc, ?_⟩
      rintro ⟨hc0, q, rfl⟩
      exact h.part.place_hand _ hc0 hc
  by_cases hl : (s.ino ip).larg = true
  · have hA := fun n hn => addr_eq_place (n := n) hd hio hn
    set T : ℕ → Set ℕ := fun n => tree (s.blk dev) 1 (place s dev (ip, .addr n)) with hT
    set T7 : Set ℕ := tree (s.blk dev) 2 (place s dev (ip, .addr 7)) with hT7
    have hall : T7 ∪ upTo T 7 = blocksOf s dev ip := by
      ext c
      constructor
      · rintro (hc | ⟨n, -, hc⟩)
        · obtain ⟨hc0, e | ⟨k, e⟩ | ⟨k, j, e⟩⟩ := (mem_tree_last hd hl).mp hc
          · exact ⟨hc0, _, e.symm⟩
          · exact ⟨hc0, _, e.symm⟩
          · exact ⟨hc0, _, e.symm⟩
        · obtain ⟨hc0, e | ⟨k, e⟩⟩ := (mem_tree_addr hd hl).mp hc
          · exact ⟨hc0, _, e.symm⟩
          · exact ⟨hc0, _, e.symm⟩
      · rintro ⟨hc0, q, rfl⟩
        cases q with
        | addr n =>
            have hn := place_addr_lt hc0
            by_cases h7 : n = 7
            · subst h7
              exact Or.inl ((mem_tree_last hd hl).mpr ⟨hc0, Or.inl rfl⟩)
            · exact Or.inr ⟨n, by omega, (mem_tree_addr hd hl).mpr ⟨hc0, Or.inl rfl⟩⟩
        | ind n k =>
            have hn := place_addr_lt (place_ind_up hc0).1
            by_cases h7 : n = 7
            · subst h7
              exact Or.inl ((mem_tree_last hd hl).mpr ⟨hc0, Or.inr (Or.inl ⟨k, rfl⟩)⟩)
            · exact Or.inr ⟨n, by omega, (mem_tree_addr hd hl).mpr ⟨hc0, Or.inr ⟨k, rfl⟩⟩⟩
        | dbl k j =>
            exact Or.inl ((mem_tree_last hd hl).mpr ⟨hc0, Or.inr (Or.inr ⟨k, j, rfl⟩)⟩)
    have hdisj : ∀ j < 7, ∀ k < 7, j ≠ k → Disjoint (T j) (T k) := by
      intro j _ k _ hjk
      refine Set.disjoint_left.mpr fun c hcj hck => ?_
      obtain ⟨hc, e | ⟨i, e⟩⟩ := (mem_tree_addr hd hl).mp hcj <;>
        obtain ⟨-, e' | ⟨i', e'⟩⟩ := (mem_tree_addr hd hl).mp hck
      · exact hjk (by simpa using h.slot_inj hc e e')
      · exact absurd (h.slot_inj hc e e') (by simp)
      · exact absurd (h.slot_inj hc e e') (by simp)
      · have := h.slot_inj hc e e'
        simp only [Slot.ind.injEq] at this
        exact hjk this.1
    have hdisj7 : Disjoint T7 (upTo T 7) := by
      refine Set.disjoint_left.mpr ?_
      rintro c hc7 ⟨n, hn, hcn⟩
      obtain ⟨hc, e | ⟨i, e⟩⟩ := (mem_tree_addr hd hl).mp hcn <;>
        obtain ⟨-, e' | ⟨k, e'⟩ | ⟨k, j, e'⟩⟩ := (mem_tree_last hd hl).mp hc7 <;>
        have := h.slot_inj hc e e' <;> simp at this <;> omega
    obtain ⟨L1, h1⟩ := indfree_frees (proper_last hd hl h) s L _ h0
      fun c hc => Or.inr (hall ▸ Or.inl hc)
    have hfrees : ∀ n < 7, Frees s dev (without s dev ip)
        (fun t => indfree dev 1 t ((s.ino ip).addr n)) (T n) := by
      intro n hn
      rw [hA n (by omega)]
      exact indfree_frees (proper_addr hd hl h n)
    have hsub : upTo T 7 ⊆ (F ∪ blocksOf s dev ip) \ T7 := by
      intro c hc
      exact ⟨Or.inr (hall ▸ Or.inr hc), fun hc7 => Set.disjoint_left.mp hdisj7 hc7 hc⟩
    obtain ⟨L2, h2⟩ := addrDown_frees hfrees hdisj h1 hsub
    refine ⟨L2, ?_⟩
    rw [Set.sdiff_sdiff, hF _ hall] at h2
    rw [freeAll]
    simpa only [hl, if_true, hd, hA 7 (by omega)] using h2
  · have hall : upTo (fun n => tree (s.blk dev) 0 (place s dev (ip, .addr n))) 8
        = blocksOf s dev ip := by
      ext c
      constructor
      · rintro ⟨n, -, hc⟩
        rw [mem_tree_zero] at hc
        exact ⟨hc.1, _, hc.2.symm⟩
      · rintro ⟨hc0, q, rfl⟩
        cases q with
        | addr n => exact ⟨n, place_addr_lt hc0, mem_tree_zero.mpr ⟨hc0, rfl⟩⟩
        | ind n k => exact absurd (larg_of_ind_ne hc0) hl
        | dbl k j => exact absurd (larg_of_ind_ne (place_dbl_up hc0).1) hl
    have hdisj : ∀ j < 8, ∀ k < 8, j ≠ k →
        Disjoint (tree (s.blk dev) 0 (place s dev (ip, .addr j)))
          (tree (s.blk dev) 0 (place s dev (ip, .addr k))) := by
      intro j _ k _ hjk
      refine Set.disjoint_left.mpr fun c hcj hck => ?_
      rw [mem_tree_zero] at hcj hck
      exact hjk (by simpa using h.slot_inj hcj.1 hcj.2 hck.2)
    have hfrees : ∀ n < 8, Frees s dev (without s dev ip)
        (fun t => (fun s b => bfree s b dev) t ((s.ino ip).addr n))
        (tree (s.blk dev) 0 (place s dev (ip, .addr n))) := by
      intro n hn
      rw [addr_eq_place hd hio hn]
      exact bfree_frees _
    obtain ⟨L1, h1⟩ := addrDown_frees (f := fun s b => bfree s b dev) hfrees hdisj h0
      (fun c hc => Or.inr (hall ▸ hc))
    refine ⟨L1, ?_⟩
    rw [hF _ hall] at h1
    rw [freeAll]
    simpa [hl, hd] using h1

/-- The inode as `itrunc` leaves it. -/
def Inode.emptied (i : Inode) (now : ℕ) : Inode :=
  { i with addr := fun _ => 0, size := 0, larg := false, imod := true, mtime := now }

lemma itrunc_eq {s : Sys} {ip : ℕ} (hio : (s.ino ip).fmt.iio = false) :
    itrunc s ip = (freeAll s ip).setIno ip
      (((freeAll s ip).ino ip).emptied (freeAll s ip).seconds) := by
  simp only [itrunc, hio, Bool.false_eq_true, if_false]
  rfl

/-- An emptied inode holds no block. -/
lemma place_emptied (s : Sys) (dev ip now : ℕ) :
    place (s.setIno ip ((s.ino ip).emptied now)) dev = without s dev ip := by
  funext ⟨k, q⟩
  by_cases hk : k = ip
  · subst hk
    have h0 : ∀ n, addrVal ((s.ino k).emptied now) n = 0 := by
      intro n
      unfold addrVal Inode.emptied
      split_ifs <;> rfl
    rw [without, if_pos rfl, place, Sys.setIno_ino_self]
    cases q with
    | addr n => simp [mapVal, h0]
    | ind n j => simp [mapVal, Inode.emptied]
    | dbl i j => simp [mapVal, Inode.emptied]
  · simp only [without, hk, if_false, place, Sys.setIno_ino_ne hk, Sys.setIno_blk]

/-- **`itrunc`.**  It empties the inode, puts all its blocks back on the free list, and changes no
byte of another file. -/
theorem itrunc_spec {s : Sys} {dev ip : ℕ} {L : List ℕ} {F : Set ℕ} (h : Owned s dev L F)
    (hd : (s.ino ip).dev = dev) (hio : (s.ino ip).fmt.iio = false) :
    (∃ L', Owned (itrunc s ip) dev L' F) ∧ SameOutside (s.sb dev) ((itrunc s ip).sb dev) ∧
      (itrunc s ip).ino ip = (s.ino ip).emptied s.seconds ∧
      (∀ k, k ≠ ip → (itrunc s ip).ino k = s.ino k) ∧
      ∀ k, k ≠ ip → ∀ o, byteAt (itrunc s ip) dev k o = byteAt s dev k o := by
  obtain ⟨L', hf⟩ := freeAll_spec h hd hio
  have hkeep : ∀ x, without s dev ip x ≠ 0 →
      (freeAll s ip).blk dev (without s dev ip x) = s.blk dev (without s dev ip x) :=
    fun x hx => hf.blk _ (hf.part.place_range x hx).ne_one (hf.part.place_list x hx)
  have hother : ∀ k, k ≠ ip → (itrunc s ip).ino k = s.ino k := by
    intro k hk
    rw [itrunc_eq hio, Sys.setIno_ino_ne hk, hf.ino]
  have hself : (itrunc s ip).ino ip = (s.ino ip).emptied s.seconds := by
    rw [itrunc_eq hio, Sys.setIno_ino_self, hf.ino, hf.seconds]
  have hsb : (itrunc s ip).sb dev = (freeAll s ip).sb dev := by rw [itrunc_eq hio]; rfl
  have hpl : place (itrunc s ip) dev = without s dev ip := by
    rw [← place_emptied s dev ip s.seconds]
    refine place_congr (fun k => ?_) fun x _ hx => ?_
    · by_cases hk : k = ip
      · subst hk
        rw [Sys.setIno_ino_self, hself]
        exact .refl _
      · rw [Sys.setIno_ino_ne hk, hother k hk]
        exact .refl _
    · rw [place_emptied] at hx ⊢
      rw [itrunc_eq hio, Sys.setIno_blk, Sys.setIno_blk]
      exact hkeep x hx
  refine ⟨⟨L', ?_, ?_⟩, ?_, hself, hother, ?_⟩
  · rw [FreeList, hsb, itrunc_eq hio]
    exact hf.list
  · have hR : InRange ((itrunc s ip).sb dev) = InRange (s.sb dev) := by
      funext b
      rw [hsb]
      exact propext hf.sb.inRange
    rw [hpl, hR]
    exact hf.part
  · rw [hsb]
    exact hf.sb
  · intro k hk o
    have hlook : ∀ log, lookup (itrunc s ip) dev k log = lookup s dev k log := by
      intro log
      rw [lookup, lookup, hother k hk, hpl, without, if_neg hk]
    refine byteAt_congr (fun log h0 => ⟨hlook log, ?_⟩)
      (fun log h0 => Or.inl (by rw [hlook, h0])) o
    have hw : without s dev ip (k, dataSlot (s.ino k).larg log) = lookup s dev k log := if_neg hk
    rw [itrunc_eq hio, Sys.setIno_blk, ← hw]
    exact hkeep _ (by rw [hw]; exact h0)

/-- **`itrunc` keeps a file system well formed.** -/
theorem WellFormed.itrunc {s : Sys} {dev ip : ℕ} (h : WellFormed s dev)
    (hd : (s.ino ip).dev = dev) : WellFormed (itrunc s ip) dev := by
  obtain ⟨L, ho⟩ := h
  by_cases hio : (s.ino ip).fmt.iio = true
  · have he : Micronix.itrunc s ip = s := by simp [Micronix.itrunc, hio]
    rw [he]
    exact ⟨L, ho⟩
  · exact (itrunc_spec ho hd (by simpa using hio)).1

end Micronix
