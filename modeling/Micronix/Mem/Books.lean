import Micronix.Mem.Segments

/-!
# What the operations on memory segments do

`Pool.Books` says that `nsegs` is the number of free segments.  Every operation keeps it, and has a
lemma that says which segments are marked afterwards.
-/

namespace Micronix.Memory

namespace Pool

/-- The free segments. -/
def frees (p : Pool) : Finset ℕ := (Finset.Ico 16 maxseg).filter fun n => p.segmap n = false

/-- The count is right and `segalloc` starts its search in the map. -/
structure Books (p : Pool) : Prop where
  nsegs : p.nsegs = p.frees.card
  low : 16 ≤ p.lastseg
  high : p.lastseg ≤ maxseg

variable {p : Pool} {n k : ℕ} {mem : ℕ → Seg}

lemma mem_frees : n ∈ p.frees ↔ (16 ≤ n ∧ n < maxseg) ∧ p.segmap n = false := by
  simp [frees]

/-! ## One segment -/

lemma scan_some {segmap : ℕ → Bool} : ∀ {limit n r : ℕ}, 16 ≤ n → scan segmap limit n = some r →
    16 ≤ r ∧ r < maxseg ∧ segmap r = false := by
  intro limit
  induction limit with
  | zero => simp [scan]
  | succ limit ih =>
      intro n r hn h
      simp only [scan] at h
      split at h
      · split at h
        · exact ih (by omega) h
        · cases h
          rename_i hf
          exact ⟨by omega, by decide, by simpa using hf⟩
      · split at h
        · exact ih (by omega) h
        · cases h
          rename_i hle hf
          exact ⟨hn, by omega, by simpa using hf⟩

/-- A search without result has seen the segments that follow, around the end of the map. -/
lemma scan_none {segmap : ℕ → Bool} : ∀ {limit n : ℕ}, 16 ≤ n → n ≤ maxseg → limit ≤ maxseg - 16 →
    scan segmap limit n = none → ∀ j, j < limit →
      segmap (if n + j < maxseg then n + j else n + j - (maxseg - 16)) = true := by
  intro limit
  induction limit with
  | zero => simp
  | succ limit ih =>
      intro n hn hn' hlim h j hj
      have hmax : maxseg = 256 := rfl
      -- the segment looked at first
      obtain ⟨m, hm, hm16, hmlt⟩ : ∃ m, m = (if maxseg ≤ n then 16 else n) ∧ 16 ≤ m ∧ m < maxseg := by
        refine ⟨_, rfl, ?_, ?_⟩ <;> split <;> omega
      rw [scan, ← hm] at h
      have hfull : segmap m = true := by
        by_contra hc
        simp [hc] at h
      simp only [hfull, if_true] at h
      have hrest := ih (by omega) (by omega) (by omega) h
      cases j with
      | zero =>
          have : (if n + 0 < maxseg then n + 0 else n + 0 - (maxseg - 16)) = m := by
            split at hm <;> split <;> omega
          rw [this]
          exact hfull
      | succ j =>
          have hj' := hrest j (by omega)
          have : (if n + (j + 1) < maxseg then n + (j + 1) else n + (j + 1) - (maxseg - 16)) =
              if m + 1 + j < maxseg then m + 1 + j else m + 1 + j - (maxseg - 16) := by
            split at hm <;> split <;> split <;> omega
          rw [this]
          exact hj'

/-- `segalloc` finds a free segment as long as there is one. -/
lemma segalloc_spec (h : p.Books) (hpos : 0 < p.nsegs) :
    ∃ n p', p.segalloc = (n, p') ∧ 16 ≤ n ∧ n < maxseg ∧ p.segmap n = false ∧
      p'.segmap = Function.update p.segmap n true ∧ p'.nsegs + 1 = p.nsegs ∧ p'.Books := by
  have hmax : maxseg = 256 := rfl
  cases hs : scan p.segmap (maxseg - 16) p.lastseg with
  | none =>
      rw [h.nsegs] at hpos
      obtain ⟨m, hm⟩ := Finset.card_pos.mp hpos
      obtain ⟨⟨hm16, hmlt⟩, hfree⟩ := mem_frees.mp hm
      have hlow := h.low
      have hhigh := h.high
      obtain ⟨j, hj, hjm⟩ : ∃ j < maxseg - 16, (if p.lastseg + j < maxseg then p.lastseg + j
          else p.lastseg + j - (maxseg - 16)) = m := by
        rcases Nat.lt_or_ge m p.lastseg with hlt | hge
        · refine ⟨m + (maxseg - 16) - p.lastseg, by omega, ?_⟩
          rw [if_neg (by omega)]
          omega
        · refine ⟨m - p.lastseg, by omega, ?_⟩
          rw [if_pos (by omega)]
          omega
      have := scan_none h.low h.high (Nat.le_refl _) hs j hj
      rw [hjm, hfree] at this
      cases this
  | some r =>
      obtain ⟨hr, hr', hfree⟩ := scan_some h.low hs
      have hfrees : Pool.frees ⟨p.nsegs - 1, Function.update p.segmap r true, r + 1⟩ =
          p.frees.erase r := by
        ext m
        simp only [Finset.mem_erase, mem_frees, Function.update_apply]
        split <;> simp_all
      have hmem : r ∈ p.frees := mem_frees.mpr ⟨⟨hr, hr'⟩, hfree⟩
      refine ⟨r, ⟨p.nsegs - 1, Function.update p.segmap r true, r + 1⟩, by simp [segalloc, hs], hr,
        hr', hfree, rfl, ?_, ?_, ?_, ?_⟩
      · exact Nat.succ_pred_eq_of_pos hpos
      · rw [hfrees, Finset.card_erase_of_mem hmem, h.nsegs]
      · show 16 ≤ r + 1
        omega
      · exact hr'

/-- `segfree` -/
lemma segfree_spec (h : p.Books) (hn : 16 ≤ n) (hn' : n < maxseg) :
    (p.segfree n).Books ∧ (p.segfree n).segmap = Function.update p.segmap n false := by
  cases hm : p.segmap n with
  | false =>
      have : p.segfree n = p := by simp [segfree, hm]
      rw [this]
      exact ⟨h, (by rw [← hm, Function.update_eq_self])⟩
  | true =>
      have heq : p.segfree n = ⟨p.nsegs + 1, Function.update p.segmap n false, n⟩ := by
        simp [segfree, hm]
      have hfrees : Pool.frees ⟨p.nsegs + 1, Function.update p.segmap n false, n⟩ =
          insert n p.frees := by
        ext m
        simp only [Finset.mem_insert, mem_frees, Function.update_apply]
        split <;> simp_all
      have hnot : n ∉ p.frees := by simp [mem_frees, hm]
      rw [heq]
      refine ⟨⟨?_, hn, Nat.le_of_lt hn'⟩, rfl⟩
      rw [hfrees, Finset.card_insert_of_notMem hnot, ← h.nsegs]

/-! ## The loops -/

/-- The segments of the entries below `k` are in the map. -/
def InMap (mem : ℕ → Seg) (k : ℕ) : Prop := ∀ i < k, 16 ≤ (mem i).seg ∧ (mem i).seg < maxseg

/-- The loop of `mfree` unmarks the segments of the entries to go. -/
lemma mfreeDown_spec : ∀ {k : ℕ} {p : Pool}, p.Books → InMap mem k →
    (mfreeDown mem k p).Books ∧ ∀ n, (mfreeDown mem k p).segmap n = true ↔
      p.segmap n = true ∧ ∀ i < k, (mem i).seg ≠ n := by
  intro k
  induction k with
  | zero =>
      intro p h _
      simp [mfreeDown, h]
  | succ k ih =>
      intro p h hin
      obtain ⟨hb, hseg⟩ := segfree_spec h (hin k (by omega)).1 (hin k (by omega)).2
      obtain ⟨hb', hseg'⟩ := ih hb fun i hi => hin i (by omega)
      refine ⟨hb', fun n => ?_⟩
      rw [mfreeDown, hseg', hseg, Function.update_apply]
      constructor
      · rintro ⟨hn, hlow⟩
        split at hn
        · cases hn
        · rename_i hne
          refine ⟨hn, fun i hi => ?_⟩
          rcases Nat.lt_succ_iff_lt_or_eq.mp hi with hlt | rfl
          · exact hlow i hlt
          · exact fun h => hne h.symm
      · rintro ⟨hn, hlow⟩
        exact ⟨(by rw [if_neg fun h => hlow k (by omega) h.symm]; exact hn),
          fun i hi => hlow i (by omega)⟩

/-- The loop of `mrelse` unmarks the segments of the entries to go, but not the grow segment. -/
lemma mrelseDown_spec {grow : ℕ} : ∀ {k : ℕ} {p : Pool}, p.Books → InMap mem (k + 1) →
    (mrelseDown mem grow k p).Books ∧ ∀ n, (mrelseDown mem grow k p).segmap n = true ↔
      p.segmap n = true ∧ (n = grow ∨ ∀ i, 1 ≤ i → i ≤ k → (mem i).seg ≠ n) := by
  intro k
  induction k with
  | zero =>
      intro p h _
      refine ⟨h, fun n => ⟨fun hn => ⟨hn, Or.inr fun i hi hi' => ?_⟩, fun hn => hn.1⟩⟩
      omega
  | succ k ih =>
      intro p h hin
      obtain ⟨q, hq, hb, hseg⟩ : ∃ q, (if (mem (k + 1)).seg ≠ grow then
          p.segfree (mem (k + 1)).seg else p) = q ∧ q.Books ∧
          ∀ n, q.segmap n = true ↔ p.segmap n = true ∧ (n = grow ∨ (mem (k + 1)).seg ≠ n) := by
        by_cases hg : (mem (k + 1)).seg = grow
        · refine ⟨p, if_neg (not_not.mpr hg), h, fun n => ⟨fun hn => ⟨hn, ?_⟩, And.left⟩⟩
          rw [hg]
          exact (eq_or_ne n grow).imp_right Ne.symm
        · obtain ⟨hb, hseg⟩ := segfree_spec h (hin (k + 1) (by omega)).1 (hin (k + 1) (by omega)).2
          refine ⟨_, if_pos hg, hb, fun n => ?_⟩
          rw [hseg, Function.update_apply]
          split
          · rename_i hn
            simp [hn, hg]
          · rename_i hn
            simp [Ne.symm hn]
      obtain ⟨hb', hseg'⟩ := ih hb fun i hi => hin i (by omega)
      rw [mrelseDown, hq]
      refine ⟨hb', fun n => ?_⟩
      rw [hseg', hseg, and_assoc]
      refine and_congr_right fun _ => ⟨?_, ?_⟩
      · rintro ⟨hn | hn, hlow⟩
        · exact Or.inl hn
        · refine hlow.imp_right fun hlow i hi hi' => ?_
          rcases Nat.le_succ_iff.mp hi' with hle | rfl
          · exact hlow i hi hle
          · exact hn
      · rintro (hn | hlow)
        · exact ⟨Or.inl hn, Or.inl hn⟩
        · exact ⟨Or.inr (hlow (k + 1) (by omega) (Nat.le_refl _)),
            Or.inr fun i hi hi' => hlow i hi (by omega)⟩

/-- The entries below `k` that take a segment of their own, and one for the others if there are
any. -/
def needs (mem : ℕ → Seg) (k : ℕ) : ℕ :=
  ((Finset.range k).filter fun i => (mem i).per ≠ .grow).card +
    if ∃ i < k, (mem i).per = .grow then 1 else 0

lemma needs_succ : needs mem (k + 1) = needs mem k +
    if (mem k).per = .grow ∧ ∃ i < k, (mem i).per = .grow then 0 else 1 := by
  have hex : (∃ i < k + 1, (mem i).per = .grow) ↔
      (∃ i < k, (mem i).per = .grow) ∨ (mem k).per = .grow := by
    constructor
    · rintro ⟨i, hi, hp⟩
      rcases Nat.lt_succ_iff_lt_or_eq.mp hi with hlt | rfl
      · exact Or.inl ⟨i, hlt, hp⟩
      · exact Or.inr hp
    · rintro (⟨i, hi, hp⟩ | hp)
      · exact ⟨i, by omega, hp⟩
      · exact ⟨k, by omega, hp⟩
  rw [needs, needs, Finset.range_add_one, Finset.filter_insert]
  simp only [hex]
  by_cases hk : (mem k).per = .grow
  · by_cases hany : ∃ i < k, (mem i).per = .grow <;> simp only [hk, hany] <;> simp
  · rw [if_pos hk, Finset.card_insert_of_notMem (by simp)]
    simp only [hk, false_and, or_false, if_false]
    omega

lemma needs_mono {j : ℕ} (h : j ≤ k) : needs mem j ≤ needs mem k := by
  induction h with
  | refl => exact Nat.le_refl _
  | step _ ih =>
      rw [needs_succ]
      omega

/-- The state of the loop of `mget` after `k` rounds. -/
structure Got (p : Pool) (mem : ℕ → Seg) (k : ℕ) (q : Pool) (grow : ℕ) (mem' : ℕ → Seg) : Prop where
  books : q.Books
  nsegs : q.nsegs + needs mem k = p.nsegs
  per : ∀ i, (mem' i).per = (mem i).per
  inMap : InMap mem' k
  fresh : ∀ i < k, p.segmap (mem' i).seg = false
  unused : (¬ ∃ i < k, (mem i).per = .grow) → grow = 0
  used : ∀ i < k, (mem i).per = .grow → (mem' i).seg = grow
  apart : ∀ i < k, ∀ j < k, (mem' i).seg = (mem' j).seg →
    i = j ∨ (mem i).per = .grow ∧ (mem j).per = .grow
  segmap : ∀ n, q.segmap n = true ↔ p.segmap n = true ∨ ∃ i < k, (mem' i).seg = n

variable {q q' : Pool} {g g' : ℕ} {mem' : ℕ → Seg}

/-- A round that takes the segment `n`. -/
lemma Got.take (h : Got p mem k q g mem') (hn : 16 ≤ n) (hn' : n < maxseg)
    (hfree : q.segmap n = false) (hseg : q'.segmap = Function.update q.segmap n true)
    (hcount : q'.nsegs + 1 = q.nsegs) (hb : q'.Books)
    (hfirst : (mem k).per = .grow → ¬ ∃ i < k, (mem i).per = .grow)
    (hg : g' = if (mem k).per = .grow then n else g) :
    Got p mem (k + 1) q' g' (Function.update mem' k ⟨n, (mem k).per⟩) := by
  have hat : Function.update mem' k ⟨n, (mem k).per⟩ k = ⟨n, (mem k).per⟩ := by simp
  have hbelow : ∀ i < k, Function.update mem' k ⟨n, (mem k).per⟩ i = mem' i := by
    intro i hi
    simp [show i ≠ k by omega]
  have hlow : ¬ (p.segmap n = true ∨ ∃ i < k, (mem' i).seg = n) := by
    rw [← h.segmap]
    simp [hfree]
  have hcases : ∀ {i}, i < k + 1 → i < k ∨ i = k := Nat.lt_succ_iff_lt_or_eq.mp
  refine ⟨hb, ?_, ?_, ?_, ?_, ?_, ?_, ?_, ?_⟩
  · have := h.nsegs
    rw [needs_succ, if_neg fun hc => hfirst hc.1 hc.2]
    omega
  · intro i
    by_cases hi : i = k
    · subst hi
      rw [hat]
    · rw [Function.update_of_ne hi, h.per]
  · intro i hi
    rcases hcases hi with hi | rfl
    · rw [hbelow i hi]
      exact h.inMap i hi
    · rw [hat]
      exact ⟨hn, hn'⟩
  · intro i hi
    rcases hcases hi with hi | rfl
    · rw [hbelow i hi]
      exact h.fresh i hi
    · rw [hat]
      by_contra hc
      exact hlow (Or.inl (by simpa using hc))
  · intro hno
    rw [hg, if_neg fun hp => hno ⟨k, by omega, hp⟩]
    exact h.unused fun ⟨i, hi, hp⟩ => hno ⟨i, by omega, hp⟩
  · intro i hi hp
    rcases hcases hi with hi | rfl
    · rw [hbelow i hi, hg, if_neg fun hk => hfirst hk ⟨i, hi, hp⟩]
      exact h.used i hi hp
    · rw [hat, hg, if_pos hp]
  · intro i hi j hj he
    rcases hcases hi with hi | rfl <;> rcases hcases hj with hj | rfl
    · rw [hbelow i hi, hbelow j hj] at he
      exact h.apart i hi j hj he
    · rw [hbelow i hi, hat] at he
      exact absurd (Or.inr ⟨i, hi, he⟩) hlow
    · rw [hbelow j hj, hat] at he
      exact absurd (Or.inr ⟨j, hj, he.symm⟩) hlow
    · exact Or.inl rfl
  · intro m
    rw [hseg, Function.update_apply]
    constructor
    · intro hm
      split at hm
      · rename_i he
        exact Or.inr ⟨k, by omega, by rw [hat, he]⟩
      · refine ((h.segmap m).mp hm).imp_right fun ⟨i, hi, he⟩ => ⟨i, by omega, ?_⟩
        rw [hbelow i hi, he]
    · rintro (hm | ⟨i, hi, he⟩)
      · split
        · rfl
        · exact (h.segmap m).mpr (Or.inl hm)
      · rcases hcases hi with hi | rfl
        · rw [hbelow i hi] at he
          split
          · rfl
          · exact (h.segmap m).mpr (Or.inr ⟨i, hi, he⟩)
        · rw [hat] at he
          exact if_pos he.symm

/-- A round for one more `GROW` entry. -/
lemma Got.share (h : Got p mem k q g mem') (hk : (mem k).per = .grow)
    (hany : ∃ i < k, (mem i).per = .grow) :
    Got p mem (k + 1) q g (Function.update mem' k ⟨g, .grow⟩) := by
  obtain ⟨a, ha, hpa⟩ := hany
  have hag := h.used a ha hpa
  have hat : Function.update mem' k ⟨g, .grow⟩ k = ⟨g, .grow⟩ := by simp
  have hbelow : ∀ i < k, Function.update mem' k ⟨g, .grow⟩ i = mem' i := by
    intro i hi
    simp [show i ≠ k by omega]
  have hcases : ∀ {i}, i < k + 1 → i < k ∨ i = k := Nat.lt_succ_iff_lt_or_eq.mp
  -- the new entry has the segment of entry `a`
  refine ⟨h.books, ?_, ?_, ?_, ?_, ?_, ?_, ?_, ?_⟩
  · rw [needs_succ, if_pos ⟨hk, a, ha, hpa⟩]
    exact h.nsegs
  · intro i
    by_cases hi : i = k
    · subst hi
      rw [hat, hk]
    · rw [Function.update_of_ne hi, h.per]
  · intro i hi
    rcases hcases hi with hi | rfl
    · rw [hbelow i hi]
      exact h.inMap i hi
    · rw [hat, ← hag]
      exact h.inMap a ha
  · intro i hi
    rcases hcases hi with hi | rfl
    · rw [hbelow i hi]
      exact h.fresh i hi
    · rw [hat, ← hag]
      exact h.fresh a ha
  · intro hno
    exact absurd ⟨a, by omega, hpa⟩ hno
  · intro i hi hp
    rcases hcases hi with hi | rfl
    · rw [hbelow i hi]
      exact h.used i hi hp
    · rw [hat]
  · intro i hi j hj he
    rcases hcases hi with hi | rfl <;> rcases hcases hj with hj | rfl
    · rw [hbelow i hi, hbelow j hj] at he
      exact h.apart i hi j hj he
    · rw [hbelow i hi, hat] at he
      refine Or.inr ⟨?_, hk⟩
      rcases h.apart i hi a ha (he.trans hag.symm) with rfl | hp
      · exact hpa
      · exact hp.1
    · rw [hbelow j hj, hat] at he
      refine Or.inr ⟨hk, ?_⟩
      rcases h.apart j hj a ha (he.symm.trans hag.symm) with rfl | hp
      · exact hpa
      · exact hp.1
    · exact Or.inl rfl
  · intro m
    rw [h.segmap]
    refine or_congr_right ⟨fun ⟨i, hi, he⟩ => ⟨i, by omega, by rw [hbelow i hi, he]⟩, ?_⟩
    rintro ⟨i, hi, he⟩
    rcases hcases hi with hi | rfl
    · rw [hbelow i hi] at he
      exact ⟨i, hi, he⟩
    · rw [hat] at he
      exact ⟨a, ha, hag.trans he⟩

/-- The loop of `mget`, if there are segments enough. -/
lemma mgetUpTo_spec (h : p.Books) : ∀ {k : ℕ}, needs mem k ≤ p.nsegs →
    ∃ q g mem', mgetUpTo p mem k = (q, g, mem') ∧ Got p mem k q g mem' := by
  intro k
  induction k with
  | zero =>
      intro _
      refine ⟨p, 0, mem, rfl, h, ?_, fun _ => rfl, ?_, ?_, fun _ => rfl, ?_, ?_, ?_⟩ <;>
        simp [needs, InMap]
  | succ k ih =>
      intro hle
      obtain ⟨q, g, mem', hloop, hgot⟩ := ih (Nat.le_trans (needs_mono (by omega)) hle)
      have hper := hgot.per k
      by_cases hshare : (mem k).per = .grow ∧ ∃ i < k, (mem i).per = .grow
      · obtain ⟨hk, a, ha, hpa⟩ := hshare
        have hg : g ≠ 0 := by
          rw [← hgot.used a ha hpa]
          have := (hgot.inMap a ha).1
          omega
        refine ⟨q, g, _, ?_, hgot.share hk ⟨a, ha, hpa⟩⟩
        simp [mgetUpTo, hloop, hper, hk, hg]
      · have hpos : 0 < q.nsegs := by
          have := hgot.nsegs
          rw [needs_succ, if_neg hshare] at hle
          omega
        obtain ⟨n, q', halloc, hn, hn', hfree, hseg, hcount, hb⟩ := segalloc_spec hgot.books hpos
        have hfirst : (mem k).per = .grow → ¬ ∃ i < k, (mem i).per = .grow :=
          fun hk hany => hshare ⟨hk, hany⟩
        refine ⟨q', _, _, ?_, hgot.take hn hn' hfree hseg hcount hb hfirst rfl⟩
        by_cases hk : (mem k).per = .grow
        · simp [mgetUpTo, hloop, hper, hk, halloc, hgot.unused (hfirst hk)]
        · simp [mgetUpTo, hloop, hper, hk, halloc]

end Pool

end Micronix.Memory
