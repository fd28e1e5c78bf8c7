import Micronix.Dir.Tree
import Micronix.Fs.FioSpec

/-!
# The directory write

A directory is a file of 16-byte entries.  `nwrite` of one entry, at an offset that is a multiple of
16, stores the entry and nothing else, or stores nothing and sets `u.error`.  This is what `ilink`
of `Micronix.Dir.Tree` does.
-/

namespace Micronix

open Tree

/-- The entry that starts at `base`. -/
def direntAt (b : Bytes) (base : ℕ) : Dirent where
  inum := (b base).toNat + 256 * (b (base + 1)).toNat
  name := (List.range 14).map fun j => b (base + 2 + j)

/-- The `k`-th entry of the directory `ip`. -/
def entryAt (s : Sys) (dev ip k : ℕ) : Dirent := direntAt (byteAt s dev ip) (16 * k)

lemma direntAt_congr {a b : Bytes} {m n : ℕ} (h : ∀ j < 16, a (m + j) = b (n + j)) :
    direntAt a m = direntAt b n := by
  have h0 := h 0 (by omega)
  have h1 := h 1 (by omega)
  simp only [Nat.add_zero] at h0
  unfold direntAt
  rw [h0, h1]
  refine congrArg _ (List.map_congr_left fun j hj => ?_)
  have := h (2 + j) (by have := List.mem_range.mp hj; omega)
  rwa [← Nat.add_assoc, ← Nat.add_assoc] at this

lemma iwriteLoop_done {ip dev fuel log into : ℕ} {s : Sys} {io : Io} (h : io.count = 0) :
    iwriteLoop ip dev fuel log into s io = (s, io) := by
  cases fuel with
  | zero => rfl
  | succ fuel => rw [iwriteLoop, if_pos h]

/-- What fits in one block is written in one turn of the loop, or not at all. -/
lemma iwriteLoop_one {ip dev fuel log into : ℕ} {s : Sys} {io : Io} (h : into + io.count ≤ 512)
    (hf : io.count ≤ fuel) : (iwriteLoop ip dev fuel log into s io).2 = io ∨
      (iwriteLoop ip dev fuel log into s io).2 = io.advance io.count := by
  cases fuel with
  | zero => exact Or.inl rfl
  | succ fuel =>
      rw [iwriteLoop]
      by_cases h0 : io.count = 0
      · rw [if_pos h0]
        exact Or.inl rfl
      · rw [if_neg h0]
        dsimp only
        by_cases herr : (imap s ip log).2.error ≠ none
        · rw [if_pos herr]
          exact Or.inl rfl
        · have hmin : min io.count (512 - into) = io.count := by omega
          rw [if_neg herr, hmin, iwriteLoop_done (Nat.sub_self io.count)]
          exact Or.inr rfl

/-- **The directory write**: all or nothing. -/
theorem nwrite_entry (drv : CharDriver) {s : Sys} {dev ip k base : ℕ} {mem : Bytes} {L : List ℕ}
    {F : Set ℕ} (ho : Owned s dev L F) (hd : (s.ino ip).dev = dev) (hfmt : (s.ino ip).fmt = .IFDIR)
    (he : s.error = none) (hk : k < 4096) :
    let s' := (iwrite drv s ip ⟨16, 16 * k, base, mem⟩).2.1
    (s'.error = none ∧ ∀ i j, entryAt s' dev i j = if i = ip ∧ j = k then direntAt mem base
      else entryAt s dev i j) ∨ s'.error ≠ none ∧ ∀ i j, entryAt s' dev i j = entryAt s dev i j := by
  intro s'
  set io : Io := ⟨16, 16 * k, base, mem⟩ with hio
  have hiio : (s.ino ip).fmt.iio = false := by rw [hfmt]; rfl
  obtain ⟨n, hn, -, hadv, -, -, -, -, -, hbytes, hend, -⟩ := iwrite_spec drv io ho hd hiio he
    (by simp only [hio]; omega)
  have hpos : startPos (16 * k) = 16 * k := startPos_eq (by omega)
  have hone : (iwrite drv s ip io).2.2 = io ∨ (iwrite drv s ip io).2.2 = io.advance 16 := by
    have hchr : (s.ino ip).fmt ≠ .IFCHR := by rw [hfmt]; decide
    rw [iwrite, if_neg (by simp [hio])]
    dsimp only
    rw [if_neg hchr]
    exact iwriteLoop_one (by simp only [hio]; omega) le_rfl
  have hcases : n = 0 ∨ n = 16 := by
    have hc : (io.advance n).count = 16 - n := rfl
    rcases hone with h | h
    · rw [hadv] at h
      have := congrArg Io.count h
      rw [hc] at this
      change 16 - n = 16 at this
      change n ≤ 16 at hn
      omega
    · rw [hadv] at h
      have := congrArg Io.count h
      rw [hc] at this
      change 16 - n = 0 at this
      change n ≤ 16 at hn
      omega
  rcases hcases with rfl | rfl
  · refine Or.inr ⟨?_, fun i j => direntAt_congr fun x _ => ?_⟩
    · rcases hend with ⟨h, -⟩ | ⟨-, h⟩
      · exact absurd h (by simp [hio])
      · exact h
    · rw [hbytes, if_neg (by omega)]
  · refine Or.inl ⟨?_, fun i j => ?_⟩
    · rcases hend with ⟨-, h⟩ | ⟨h, -⟩
      · exact h
      · exact absurd h (by simp [hio])
    · have hb : ∀ x, byteAt s' dev i x = if i = ip ∧ 16 * k ≤ x ∧ x < 16 * k + 16 then
          mem (base + (x - 16 * k)) else byteAt s dev i x := fun x => by
        rw [hbytes, hpos]
      split_ifs with h
      · obtain ⟨rfl, rfl⟩ := h
        refine direntAt_congr fun x hx => ?_
        rw [hb, if_pos ⟨rfl, by omega, by omega⟩]
        congr 1
        omega
      · refine direntAt_congr fun x hx => ?_
        rw [hb, if_neg]
        rintro ⟨rfl, h1, h2⟩
        exact h ⟨rfl, by omega⟩

end Micronix
