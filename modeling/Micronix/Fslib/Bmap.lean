import Micronix.Fs.ImapSpec
import Micronix.Fslib.Blocks
import Mathlib.Tactic.Push
import Mathlib.Algebra.Group.Nat.Defs

/-!
# `bmap` and `imap`

The two agree up to block 1791 of a file.  From there on `bmap` reads its indirect block number from
memory outside the array: it subtracts `7 * 256` where it means 7, and takes only the index 7 for
double indirect.
-/

namespace Micronix

open Bytes

/-! ## What the kernel computes -/

variable {s : Sys} {ip dev : ℕ}

@[simp] lemma sub_no_block (blk : ℕ → Bytes) (k : ℕ) : sub blk 0 k = 0 := by
  simp [sub]

/-- `balloc` starts with `u.error` cleared. -/
lemma balloc_setError (s : Sys) (dev : ℕ) (e : Option Errno) :
    (balloc (s.setError e) dev).1 = (balloc s dev).1 := by
  unfold balloc ballocFull
  dsimp only
  rfl

/-- A hole stays a hole when no block can be had. -/
lemma plug_full {p : Ptr} (h : (balloc s dev).1 = 0) : plug s p dev = (false, (balloc s dev).2) := by
  simp [plug, h]

/-- A word that is 0 stays 0 in a `balloc` that fails. -/
lemma balloc_fail_word {b k : ℕ} (h : (balloc s dev).1 = 0) (h0 : word (s.blk dev b) k = 0) :
    word ((balloc s dev).2.blk dev b) k = 0 := by
  have hset : ∀ (t : Sys) (n : ℕ), word (t.blk dev b) k = 0 → n = 0 ∨ b ≠ 1 ∨ k ≠ 2 →
      word ((t.put dev 1 (Super.setNfree (t.sb dev) n)).blk dev b) k = 0 := by
    intro t n ht hn
    by_cases hb : b = 1
    · subst hb
      rw [Sys.put_blk_self, Super.setNfree]
      by_cases hk : k = 2
      · subst hk
        have : n = 0 := by tauto
        rw [this, word_setWord_self (by omega)]
      · rw [word_setWord_ne hk]
        exact ht
    · rw [Sys.put_blk_other hb]
      exact ht
  have hpos : ∀ e n, word (((s.setError e).put dev 1 (Super.setNfree (s.sb dev) n)).blk dev b) k = 0 ∨
      b = 1 ∧ k = 2 := by
    intro e n
    by_cases hb : b = 1 ∧ k = 2
    · exact Or.inr hb
    · exact Or.inl (hset (s.setError e) n h0 (by tauto))
  unfold balloc ballocFull at h ⊢
  dsimp only at h ⊢
  split_ifs at h ⊢ with h1 h2 h3 h4
  · exact h0
  · exact hset ((s.setError none).setError _) 0 h0 (Or.inl rfl)
  · rcases hpos none (Super.nfree (s.sb dev) - 1) with e | ⟨rfl, rfl⟩
    · exact hset _ 0 e (Or.inl rfl)
    · rw [Sys.put_blk_self, Super.setNfree, word_setWord_self (by omega)]
  · simp only [Sys.setError_sb] at h h3
    tauto
  · simp only [Sys.setError_sb] at h h3
    tauto

/-- An entry of `i_addr[]` that is no hole. -/
lemma imapi_hit {n : ℕ} (h : (s.ino ip).addr n ≠ 0) :
    (imapi s ip n).1.1 = (s.ino ip).addr n ∧ (imapi s ip n).2 = s := by
  have hl : s.load (.addr ip n) ≠ 0 := h
  simp only [imapi, if_neg hl]
  exact ⟨rfl, trivial⟩

lemma imapi_full {n : ℕ} (hf : (balloc s (s.ino ip).dev).1 = 0) (h : (s.ino ip).addr n = 0) :
    (imapi s ip n).1.1 = 0 := by
  have hl : s.load (.addr ip n) = 0 := h
  simp only [imapi, if_pos hl, plug_full hf, Bool.false_eq_true, if_false]
  show (((balloc s (s.ino ip).dev).2.ino ip).addr n) = 0
  rw [balloc_ino]
  exact h

/-- A word of an indirect block that is no hole. -/
lemma imapb_hit {b k : ℕ} (hb : b ≠ 0) (h : word (s.blk dev b) k ≠ 0) :
    (imapb s b k dev).1.1 = word (s.blk dev b) k ∧ (imapb s b k dev).2 = s.setError none := by
  have hl : (s.setError none).load (.word dev b k) ≠ 0 := h
  simp only [imapb, if_neg hb, if_neg hl]
  exact ⟨rfl, trivial⟩

lemma imapb_full {b k : ℕ} (hf : (balloc s dev).1 = 0)
    (h : b = 0 ∨ word (s.blk dev b) k = 0) : (imapb s b k dev).1.1 = 0 := by
  by_cases hb : b = 0
  · simp [imapb, hb]
  · have hl : (s.setError none).load (.word dev b k) = 0 := h.resolve_left hb
    have hf' : (balloc (s.setError none) dev).1 = 0 := (balloc_setError s dev none).trans hf
    simp only [imapb, if_neg hb, if_pos hl, plug_full hf']
    exact balloc_fail_word hf' (h.resolve_left hb)

/-- Word `k` of the block `b`, which `imapb` finds or cannot fill. -/
lemma imapb_sub {b k : ℕ} (hk : k < 256) (h : sub (s.blk dev) b k ≠ 0 ∨ (balloc s dev).1 = 0) :
    (imapb s b k dev).1.1 = sub (s.blk dev) b k ∧
      (sub (s.blk dev) b k ≠ 0 → (imapb s b k dev).2 = s.setError none) := by
  by_cases h0 : sub (s.blk dev) b k = 0
  · have hf := h.resolve_left (absurd h0)
    refine ⟨?_, absurd h0⟩
    rw [h0]
    refine imapb_full hf ?_
    by_contra hne
    push Not at hne
    exact hne.2 (by simpa [sub, hne.1, hk] using h0)
  · have hb : b ≠ 0 := fun e => h0 (by simp [sub, e])
    have hw : sub (s.blk dev) b k = word (s.blk dev b) k := by simp [sub, hb, hk]
    obtain ⟨h1, h2⟩ := imapb_hit hb (hw ▸ h0)
    exact ⟨h1.trans hw.symm, fun _ => h2⟩

/-- **What `imap` computes**: the block that the map holds, and 0 for a hole that cannot be
filled. -/
lemma imap_eq_lookup {log : ℕ} (hio : (s.ino ip).fmt.iio = false) (hlog : log < 32768)
    (h : lookup s (s.ino ip).dev ip log ≠ 0 ∨ (balloc s (s.ino ip).dev).1 = 0) :
    (imap s ip log).1.1 = lookup s (s.ino ip).dev ip log := by
  set dev := (s.ino ip).dev with hdev
  have haddr : ∀ n < 8, addrVal (s.ino ip) n = (s.ino ip).addr n := fun n hn => by
    simp [addrVal, hn, hio]
  rw [imap]
  simp only [hio, Bool.false_eq_true, if_false, if_neg (show ¬log ≥ 32768 by omega), ← hdev]
  rw [lookup, place, if_pos hdev.symm] at h ⊢
  cases hl : (s.ino ip).larg with
  | false =>
      simp only [Bool.false_eq_true, if_false]
      simp only [hl, dataSlot, Bool.false_eq_true, if_false, mapVal] at h ⊢
      split_ifs with h8 hr
      · rw [haddr log h8] at h ⊢
        by_cases h0 : (s.ino ip).addr log = 0
        · rw [h0]
          exact imapi_full (h.resolve_left (absurd h0)) h0
        · exact (imapi_hit h0).1
      · -- no block for the conversion
        have hz : addrVal (s.ino ip) log = 0 := by simp [addrVal, h8]
        have hf := h.resolve_left (absurd hz)
        simp [toLarge, hf] at hr
      · simp [addrVal, h8]
  | true =>
      simp only [if_true]
      simp only [hl, dataSlot, if_true] at h ⊢
      have hfirst : ∀ n < 8, (s.ino ip).addr n ≠ 0 ∨ (balloc s dev).1 = 0 →
          (imapi s ip n).1.1 = (s.ino ip).addr n ∧
            ((s.ino ip).addr n ≠ 0 → (imapi s ip n).2 = s) := by
        intro n _ hn
        by_cases h0 : (s.ino ip).addr n = 0
        · rw [h0]
          exact ⟨imapi_full (hn.resolve_left (absurd h0)) h0, absurd rfl⟩
        · exact ⟨(imapi_hit h0).1, fun _ => (imapi_hit h0).2⟩
      rw [imapLarge]
      by_cases h7 : log / 256 < 7
      · simp only [if_pos h7, if_neg (show ¬log / 256 ≥ 7 by omega), mapVal, hl, if_true,
          haddr _ (show log / 256 < 8 by omega), Nat.min_eq_left (show log / 256 ≤ 7 by omega)] at h ⊢
        have hne : (s.ino ip).addr (log / 256) ≠ 0 ∨ (balloc s dev).1 = 0 :=
          h.imp_left fun h e => h (by simp [e])
        obtain ⟨h1, h2⟩ := hfirst _ (by omega) hne
        rw [h1]
        by_cases h0 : (s.ino ip).addr (log / 256) = 0
        · simp [h0, imapb_zero]
        · rw [h2 h0]
          exact (imapb_sub (Nat.mod_lt _ (by omega)) h).1
      · have hmin : min (log / 256) 7 = 7 := by omega
        simp only [if_neg h7, if_pos (show log / 256 ≥ 7 by omega), mapVal, hl, if_true,
          haddr 7 (by omega), hmin] at h ⊢
        have hne : (s.ino ip).addr 7 ≠ 0 ∨ (balloc s dev).1 = 0 :=
          h.imp_left fun h e => h (by simp [e])
        obtain ⟨h1, h2⟩ := hfirst 7 (by omega) hne
        rw [h1]
        by_cases h0 : (s.ino ip).addr 7 = 0
        · simp [h0, imapb_zero]
        · rw [h2 h0]
          have hsub : sub (s.blk dev) ((s.ino ip).addr 7) (log / 256 - 7) ≠ 0 ∨
              (balloc s dev).1 = 0 := h.imp_left fun h e => h (by simp [e])
          obtain ⟨h3, h4⟩ := imapb_sub (show log / 256 - 7 < 256 by omega) hsub
          rw [h3]
          by_cases h5 : sub (s.blk dev) ((s.ino ip).addr 7) (log / 256 - 7) = 0
          · simp [h5, imapb_zero]
          · rw [h4 h5]
            exact (imapb_sub (s := s.setError none) (Nat.mod_lt _ (by omega))
              (h.imp_right (balloc_setError s dev none).trans)).1

/-! ## What the library computes -/

namespace Fslib

variable {a : Around} {c : Bcache}

/-- The cached blocks are as on the disk. -/
structure Bcache.Fresh (s : Sys) (dev : ℕ) (c : Bcache) : Prop where
  iblk : ∀ n, c.iblkno = some n → ∀ k < 256, c.iblk k = readblk s dev n k
  iiblk : ∀ n, c.iiblkno = some n → ∀ k < 256, c.iiblk k = readblk s dev n k

lemma readblk_eq_sub {b k : ℕ} (hk : k < 256) : readblk s dev b k = sub (s.blk dev) b k := by
  by_cases hb : b = 0 <;> simp [readblk, sub, hb, hk]

/-- Reading the indirect block into `iblk`. -/
lemma Bcache.Fresh.read (h : c.Fresh s dev) (b : ℕ) :
    Bcache.Fresh s dev
      (if c.iblkno = some b then c else { c with iblkno := b, iblk := readblk s dev b }) := by
  split_ifs with hb
  · exact h
  · refine ⟨?_, h.iiblk⟩
    rintro n hn k -
    cases hn
    rfl

/-- Reading the double indirect block into `iiblk`. -/
lemma Bcache.Fresh.readii (h : c.Fresh s dev) (b : ℕ) :
    Bcache.Fresh s dev
      (if c.iiblkno = some b then c else { c with iiblkno := b, iiblk := readblk s dev b }) := by
  split_ifs with hb
  · exact h
  · refine ⟨h.iblk, ?_⟩
    rintro n hn k -
    cases hn
    rfl

/-- The end of `bmap` computes a word of the indirect block, and the cache stays fresh. -/
lemma Bcache.Fresh.fetch (h : c.Fresh s dev) {b k : ℕ} (hk : k < 256) :
    (fetch s c dev b k).1 = sub (s.blk dev) b k ∧ (fetch s c dev b k).2.Fresh s dev := by
  by_cases hb : b = 0
  · subst hb
    simpa [Fslib.fetch] using h
  · have hr := h.read b
    simp only [Fslib.fetch, if_neg hb]
    refine ⟨?_, hr⟩
    rw [← readblk_eq_sub hk]
    refine hr.iblk b ?_ k hk
    split_ifs with hc
    · exact hc
    · rfl

/-- The word that `bmap` takes for the number of the indirect block from `iindex` 7 on. -/
def Around.stray (a : Around) (iindex : ℕ) : UInt16 :=
  if iindex = 7 then a.iiblk (7 - 7 * 256) else a.addr iindex

lemma bmap_small {off : ℕ} (hl : (s.ino ip).larg = false) :
    bmap a s c ip off = (if off / 512 ≤ 7 then (s.ino ip).addr (off / 512) else 0, c) := by
  simp [bmap, hl]

lemma bmap_indirect {off : ℕ} (hl : (s.ino ip).larg = true) (h7 : off / 512 / 256 < 7) :
    bmap a s c ip off =
      fetch s c (s.ino ip).dev ((s.ino ip).addr (off / 512 / 256)) (off / 512 % 256) := by
  simp [bmap, hl, show off / 512 / 256 ≠ 7 by omega, show off / 512 / 256 < 8 by omega]

lemma bmap_no_double {off : ℕ} (hl : (s.ino ip).larg = true) (h7 : off / 512 / 256 = 7)
    (h0 : (s.ino ip).addr 7 = 0) : bmap a s c ip off = (0, c) := by
  simp [bmap, hl, h7, h0]

/-- From block 1792 on the number of the indirect block comes from outside the arrays. -/
lemma bmap_stray {off : ℕ} (h : c.Fresh s (s.ino ip).dev) (hl : (s.ino ip).larg = true)
    (h7 : 7 ≤ off / 512 / 256) (h0 : ¬(off / 512 / 256 = 7 ∧ (s.ino ip).addr 7 = 0)) :
    ∃ c' : Bcache, c'.Fresh s (s.ino ip).dev ∧ bmap a s c ip off =
      fetch s c' (s.ino ip).dev (a.stray (off / 512 / 256)).toNat (off / 512 % 256) := by
  by_cases he : off / 512 / 256 = 7
  · refine ⟨_, h.readii ((s.ino ip).addr 7), ?_⟩
    have ha : (s.ino ip).addr 7 ≠ 0 := fun e => h0 ⟨he, e⟩
    simp [bmap, hl, he, ha, Around.stray]
  · refine ⟨c, h, ?_⟩
    simp [bmap, hl, he, Around.stray, show ¬off / 512 / 256 < 8 by omega]

/-- **The cache stays fresh.** -/
lemma Bcache.Fresh.bmap {off : ℕ} (h : c.Fresh s (s.ino ip).dev) :
    (bmap a s c ip off).2.Fresh s (s.ino ip).dev := by
  have hk : off / 512 % 256 < 256 := Nat.mod_lt _ (by omega)
  cases hl : (s.ino ip).larg with
  | false => rwa [bmap_small hl]
  | true =>
      rcases lt_or_ge (off / 512 / 256) 7 with h7 | h7
      · rw [bmap_indirect hl h7]
        exact (h.fetch hk).2
      · by_cases h0 : off / 512 / 256 = 7 ∧ (s.ino ip).addr 7 = 0
        · rwa [bmap_no_double hl h0.1 h0.2]
        · obtain ⟨c', hc', he⟩ := bmap_stray (a := a) h hl h7 h0
          rw [he]
          exact (hc'.fetch hk).2

/-- Up to block 1791, and in small inodes, `bmap` computes the block that the map holds. -/
lemma bmap_eq_lookup {off : ℕ} (h : c.Fresh s (s.ino ip).dev) (hio : (s.ino ip).fmt.iio = false)
    (hoff : (s.ino ip).larg = false ∨ off / 512 < 1792) :
    (bmap a s c ip off).1 = lookup s (s.ino ip).dev ip (off / 512) := by
  have hk : off / 512 % 256 < 256 := Nat.mod_lt _ (by omega)
  rw [lookup, place, if_pos rfl]
  cases hl : (s.ino ip).larg with
  | false =>
      rw [bmap_small hl]
      simp only [dataSlot, Bool.false_eq_true, if_false, mapVal, addrVal, hio, and_true,
        Nat.lt_succ_iff]
  | true =>
      have h7 : off / 512 / 256 < 7 := by
        rcases hoff with hf | hlt
        · exact absurd hl (by simp [hf])
        · omega
      rw [bmap_indirect hl h7, (h.fetch hk).1]
      simp [dataSlot, h7, mapVal, hl, addrVal, hio, show off / 512 / 256 < 8 by omega]

/-- The block number at a place is a word, if it is not an address. -/
lemma lookup_huge {log : ℕ} (hl : (s.ino ip).larg = true) (h7 : 7 ≤ log / 256) :
    ∃ b < 65536, lookup s (s.ino ip).dev ip log = sub (s.blk (s.ino ip).dev) b (log % 256) := by
  refine ⟨sub (s.blk (s.ino ip).dev) (addrVal (s.ino ip) 7) (log / 256 - 7), ?_, ?_⟩
  · unfold sub
    split_ifs
    · exact word_lt _ _
    · decide
  · rw [lookup, place, if_pos rfl]
    simp [dataSlot, hl, show ¬log / 256 < 7 by omega, mapVal]

/-- **Where `bmap` computes the block map**: from block 1792 of a large inode on only if the file
has no double indirect block and `iindex` is 7, or if no block could give it a wrong number. -/
theorem bmap_eq_lookup_iff {off : ℕ} (h : c.Fresh s (s.ino ip).dev)
    (hio : (s.ino ip).fmt.iio = false) :
    (∀ a, (bmap a s c ip off).1 = lookup s (s.ino ip).dev ip (off / 512)) ↔
      ((s.ino ip).larg = false ∨ off / 512 < 1792) ∨
        (off / 512 / 256 = 7 ∧ (s.ino ip).addr 7 = 0) ∨
        ∀ b, b ≠ 0 → b < 65536 → word (s.blk (s.ino ip).dev b) (off / 512 % 256) = 0 := by
  have hk : off / 512 % 256 < 256 := Nat.mod_lt _ (by omega)
  by_cases hin : (s.ino ip).larg = false ∨ off / 512 < 1792
  · simp only [hin, true_or, iff_true]
    exact fun a => bmap_eq_lookup h hio hin
  · have hl : (s.ino ip).larg = true := by simpa using fun e => hin (Or.inl e)
    have h7 : 7 ≤ off / 512 / 256 := by omega
    obtain ⟨d, hd, hmap⟩ := lookup_huge (s := s) hl h7
    by_cases h0 : off / 512 / 256 = 7 ∧ (s.ino ip).addr 7 = 0
    · simp only [h0, and_self, true_or, or_true, iff_true]
      intro a
      rw [bmap_no_double hl h0.1 h0.2, lookup, place, if_pos rfl]
      simp [dataSlot, hl, h0.1, mapVal, addrVal, hio, h0.2]
    · simp only [hin, h0, false_or]
      have hval : ∀ a : Around, (bmap a s c ip off).1 =
          sub (s.blk (s.ino ip).dev) (a.stray (off / 512 / 256)).toNat (off / 512 % 256) := by
        intro a
        obtain ⟨c', hc', he⟩ := bmap_stray (a := a) h hl h7 h0
        rw [he, (hc'.fetch hk).1]
      have hconst : ∀ v : UInt16, (⟨fun _ => v, fun _ => v⟩ : Around).stray (off / 512 / 256) = v :=
        fun v => ite_self v
      constructor
      · -- two memories around the arrays: all words 0, and all words `b`
        intro hall b hb hlt
        have hz := hall ⟨fun _ => 0, fun _ => 0⟩
        have hw := hall ⟨fun _ => UInt16.ofNat b, fun _ => UInt16.ofNat b⟩
        rw [hval, hconst] at hz hw
        rw [← hz] at hw
        simpa [sub, hb, hk, Nat.mod_eq_of_lt hlt] using hw
      · intro hzero a
        have hsub : ∀ b < 65536, sub (s.blk (s.ino ip).dev) b (off / 512 % 256) = 0 := by
          intro b hb
          unfold sub
          split_ifs with hc
          · exact hzero b hc.1 hb
          · rfl
        rw [hval, hmap, hsub _ (UInt16.toNat_lt _), hsub d hd]

/-- A cache that has read nothing, and zeros around the arrays. -/
def Bcache.none : Bcache := ⟨Option.none, fun _ => 0, Option.none, fun _ => 0⟩

lemma Bcache.none_fresh (s : Sys) (dev : ℕ) : Bcache.none.Fresh s dev :=
  ⟨fun _ h => absurd h (by simp [Bcache.none]), fun _ h => absurd h (by simp [Bcache.none])⟩

/-- A large inode whose address 7 is block 5; word 0 of block 5 is 6 and word 0 of block 6 is 7. -/
def hugeFile : Sys where
  blk _ n := if n = 5 ∨ n = 6 then setWord zero 0 (n + 1) else zero
  ino _ := ⟨0, .IFREG, true, fun n => if n = 7 then 5 else 0, 0, 0, 0, false, false, false⟩
  error := Option.none
  seconds := 0
  stack := 0

end Fslib

end Micronix
