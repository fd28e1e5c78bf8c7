import Micronix.Mem.Books

/-!
# No segment is used twice

The invariant of the machine's memory: what the map of a process looks like, that the segments of
the processes that hold memory are marked and good, and that no two processes have one in common.
A change of one process and the pool keeps it if it is a `Trade`: segments are unmarked only if the
process had them, and the process has segments afterwards that it had or that were free.
-/

namespace Micronix.Memory

/-! ## The map of a process -/

/-- The number of `FULL` entries. -/
def Proc.fulls (p : Proc) : ℕ := ((Finset.range 17).filter fun i => (p.mem i).per = .full).card

/-- There is a `GROW` entry. -/
def Proc.Grows (p : Proc) : Prop := ∃ i < 17, (p.mem i).per = .grow

instance (p : Proc) : Decidable p.Grows := inferInstanceAs (Decidable (∃ i < 17, _))

/-- The entry has the segment that stands for all `GROW` entries: it is one of them, or `grow` has
made it `FULL` and waits for a segment.  A process that `grow` finds swapped out since then has got
one. -/
def Proc.Shares (p : Proc) (i : ℕ) : Prop :=
  (p.mem i).per = .grow ∨ p.sleep = .grow i ∧ p.swap = 0

/-- What the map of a process that is alive always looks like. -/
structure Shape (p : Proc) : Prop where
  per : ∀ i < 17, (p.mem i).per = .full ∨ (p.mem i).per = .grow
  top : (p.mem 15).per = .full
  user : (p.mem 16).per = .full
  nsegs : p.nsegs = p.fulls + if p.Grows then 1 else 0

/-- The `GROW` entries share a segment and the others have one each. -/
structure Layout (p : Proc) : Prop where
  grow : ∀ i < 17, ∀ j < 17, (p.mem i).per = .grow → (p.mem j).per = .grow →
    (p.mem i).seg = (p.mem j).seg
  apart : ∀ i < 17, ∀ j < 17, (p.mem i).seg = (p.mem j).seg → i = j ∨ p.Shares i ∧ p.Shares j

/-- The segments of the process are in the map, marked and not bad. -/
structure Owns (bad : ℕ → Bool) (q : Pool) (p : Proc) : Prop where
  inMap : Pool.InMap p.mem 17
  marked : ∀ i < 17, q.segmap (p.mem i).seg = true
  good : ∀ i < 17, bad (p.mem i).seg = false

variable {bad : ℕ → Bool} {p q : Pool} {x y : Proc} {i j n : ℕ}

/-- The shape is a matter of the permissions and of `nsegs`. -/
lemma Shape.congr (h : Shape x) (hp : ∀ i, (y.mem i).per = (x.mem i).per)
    (hn : y.nsegs = x.nsegs) : Shape y := by
  refine ⟨fun i hi => ?_, ?_, ?_, ?_⟩
  · rw [hp]
    exact h.per i hi
  · rw [hp]
    exact h.top
  · rw [hp]
    exact h.user
  · have hf : y.fulls = x.fulls := by simp only [Proc.fulls, hp]
    have hg : y.Grows ↔ x.Grows := by simp only [Proc.Grows, hp]
    rw [hn, h.nsegs, hf]
    simp only [hg]

/-- `mget` needs `p->nsegs` segments. -/
lemma Shape.needs_eq (h : Shape x) : Pool.needs x.mem 17 = x.nsegs := by
  have hfilter : (Finset.range 17).filter (fun i => (x.mem i).per ≠ .grow) =
      (Finset.range 17).filter fun i => (x.mem i).per = .full := by
    refine Finset.filter_congr fun i hi => ?_
    rcases h.per i (Finset.mem_range.mp hi) with hp | hp <;> simp [hp]
  rw [h.nsegs, Pool.needs, hfilter]
  rfl

/-- There are `GROW` entries as long as not all are `FULL`. -/
lemma Shape.grows_iff (h : ∀ i < 17, (x.mem i).per = .full ∨ (x.mem i).per = .grow) :
    x.Grows ↔ x.fulls < 17 := by
  have hle : x.fulls ≤ 17 := by
    have := Finset.card_filter_le (Finset.range 17) fun i => (x.mem i).per = .full
    simpa [Proc.fulls] using this
  constructor
  · rintro ⟨i, hi, hp⟩
    refine Nat.lt_of_le_of_ne hle fun he => ?_
    have := Finset.card_filter_eq_iff.mp (he.trans (Finset.card_range 17).symm) i
      (Finset.mem_range.mpr hi)
    simp [hp] at this
  · intro hlt
    by_contra hno
    refine absurd (Finset.card_filter_eq_iff.mpr fun i hi => ?_)
      (Nat.ne_of_lt (Nat.lt_of_lt_of_eq hlt (Finset.card_range 17).symm))
    exact (h i (Finset.mem_range.mp hi)).resolve_right fun hp =>
      hno ⟨i, Finset.mem_range.mp hi, hp⟩

/-- `FULL` entries but the one that `grow` is at share nothing. -/
lemma Layout.own (h : Layout x) (hi : i < 17) (hj : j < 17) (hs : ¬ x.Shares i)
    (he : (x.mem i).seg = (x.mem j).seg) : i = j :=
  (h.apart i hi j hj he).resolve_right fun hs' => hs hs'.1

/-- The layout is a matter of the map and of where the process sleeps. -/
lemma Layout.congr (h : Layout x) (hm : y.mem = x.mem) (hs : ∀ i, x.Shares i → y.Shares i) :
    Layout y := by
  refine ⟨?_, fun i hi j hj he => ?_⟩
  · rw [hm]
    exact h.grow
  · rw [hm] at he
    exact (h.apart i hi j hj he).imp_right fun ⟨h1, h2⟩ => ⟨hs i h1, hs j h2⟩

/-! ## The machine -/

/-- `ALIVE` -/
def Stat.Alive : Stat → Prop
  | .free | .zombie => False
  | _ => True

/-- The process has segments, and not only numbers of segments in its map. -/
def Stat.Holds : Stat → Prop
  | .core | .leaving | .entering => True
  | _ => False

/-- What is true of the machine's memory between any two steps. -/
structure Inv (bad : ℕ → Bool) (s : State) : Prop where
  books : s.pool.Books
  defects : ∀ n, 16 ≤ n → n < maxseg → bad n = true → s.pool.segmap n = true
  core : (s.proc 0).stat = .core
  swapper : (s.proc 0).mem = pinit.mem
  shape : ∀ x, (s.proc x).stat.Alive → Shape (s.proc x)
  layout : ∀ x ≠ 0, (s.proc x).stat = .core ∨ (s.proc x).stat = .entering → Layout (s.proc x)
  owns : ∀ x ≠ 0, (s.proc x).stat.Holds → Owns bad s.pool (s.proc x)
  apart : ∀ x ≠ 0, ∀ y ≠ 0, x ≠ y → (s.proc x).stat.Holds → (s.proc y).stat.Holds →
    ∀ i < 17, ∀ j < 17, ((s.proc x).mem i).seg ≠ ((s.proc y).mem j).seg

/-- A segment of the process. -/
def Proc.Has (p : Proc) (n : ℕ) : Prop := p.stat.Holds ∧ ∃ i < 17, (p.mem i).seg = n

/-- A change of the pool from `p` to `q` and of a process from `x` to `y` that leaves the other
processes what they have. -/
structure Trade (p : Pool) (x : Proc) (q : Pool) (y : Proc) : Prop where
  books : q.Books
  shape : y.stat.Alive → Shape y
  layout : y.stat = .core ∨ y.stat = .entering → Layout y
  kept : ∀ n, p.segmap n = true → q.segmap n = true ∨ x.Has n
  inMap : y.stat.Holds → Pool.InMap y.mem 17
  marked : ∀ n, y.Has n → q.segmap n = true
  origin : ∀ n, y.Has n → p.segmap n = false ∨ x.Has n

variable {s : State} {a : ℕ}

/-- **The frame.**  A trade by a process other than the swapper keeps the invariant. -/
lemma Inv.put (h : Inv bad s) (ha : a ≠ 0) (ht : Trade s.pool (s.proc a) q y) :
    Inv bad (s.put a (q, y)) := by
  have hself : (s.put a (q, y)).proc a = y := by simp [State.put]
  have hother : ∀ b ≠ a, (s.put a (q, y)).proc b = s.proc b := by
    intro b hb
    simp [State.put, hb]
  have hgood : ∀ n, (s.proc a).Has n → bad n = false := by
    rintro n ⟨hh, i, hi, rfl⟩
    exact (h.owns a ha hh).good i hi
  -- no other process has a segment of the one that changes, before
  have hforeign : ∀ b ≠ 0, b ≠ a → ∀ n, (s.proc b).Has n → ¬ (s.proc a).Has n := by
    rintro b hb0 hba n ⟨hh, i, hi, rfl⟩ ⟨hh', j, hj, he⟩
    exact h.apart b hb0 a ha hba hh hh' i hi j hj he.symm
  have hmarked : ∀ b ≠ 0, ∀ n, (s.proc b).Has n → s.pool.segmap n = true := by
    rintro b hb0 n ⟨hh, i, hi, rfl⟩
    exact (h.owns b hb0 hh).marked i hi
  -- nor after
  have hnew : ∀ b ≠ 0, b ≠ a → ∀ n, (s.proc b).Has n → ¬ y.Has n := by
    intro b hb0 hba n hn hy
    rcases ht.origin n hy with hfree | hold
    · have := hmarked b hb0 n hn
      rw [hfree] at this
      cases this
    · exact hforeign b hb0 hba n hn hold
  have hbad : ∀ n, 16 ≤ n → n < maxseg → bad n = true → q.segmap n = true := by
    intro n hn hn' hb
    refine (ht.kept n (h.defects n hn hn' hb)).resolve_right fun hold => ?_
    rw [hgood n hold] at hb
    cases hb
  refine ⟨ht.books, hbad, ?_, ?_, ?_, ?_, ?_, ?_⟩
  · rw [hother 0 ha.symm]
    exact h.core
  · rw [hother 0 ha.symm]
    exact h.swapper
  · intro b hb
    by_cases hba : b = a
    · subst hba
      rw [hself] at hb ⊢
      exact ht.shape hb
    · rw [hother b hba] at hb ⊢
      exact h.shape b hb
  · intro b hb0 hb
    by_cases hba : b = a
    · subst hba
      rw [hself] at hb ⊢
      exact ht.layout hb
    · rw [hother b hba] at hb ⊢
      exact h.layout b hb0 hb
  · intro b hb0 hb
    by_cases hba : b = a
    · subst hba
      rw [hself] at hb ⊢
      refine ⟨ht.inMap hb, fun i hi => ht.marked _ ⟨hb, i, hi, rfl⟩, fun i hi => ?_⟩
      rcases ht.origin _ ⟨hb, i, hi, rfl⟩ with hfree | hold
      · by_contra hc
        have hin := ht.inMap hb i hi
        rw [h.defects _ hin.1 hin.2 (by simpa using hc)] at hfree
        cases hfree
      · exact hgood _ hold
    · rw [hother b hba] at hb ⊢
      refine ⟨(h.owns b hb0 hb).inMap, fun i hi => ?_, (h.owns b hb0 hb).good⟩
      have hhas : (s.proc b).Has ((s.proc b).mem i).seg := ⟨hb, i, hi, rfl⟩
      exact (ht.kept _ (hmarked b hb0 _ hhas)).resolve_right (hforeign b hb0 hba _ hhas)
  · intro b hb0 c hc0 hbc hb hc i hi j hj he
    by_cases hba : b = a
    · subst hba
      rw [hself] at hb he
      rw [hother c hbc.symm] at hc he
      exact hnew c hc0 hbc.symm _ ⟨hc, j, hj, rfl⟩ ⟨hb, i, hi, he⟩
    · rw [hother b hba] at hb he
      by_cases hca : c = a
      · subst hca
        rw [hself] at hc he
        exact hnew b hb0 hba _ ⟨hb, i, hi, rfl⟩ ⟨hc, j, hj, he.symm⟩
      · rw [hother c hca] at hc he
        exact h.apart b hb0 c hc0 hbc hb hc i hi j hj he

/-! ## The operations -/

/-- The pool stays as it is. -/
lemma Trade.still (hb : p.Books) (hs : y.stat.Alive → Shape y)
    (hl : y.stat = .core ∨ y.stat = .entering → Layout y)
    (hy : y.stat.Holds → x.stat.Holds ∧ Owns bad p x ∧ ∀ i, (y.mem i).seg = (x.mem i).seg) :
    Trade p x p y := by
  refine ⟨hb, hs, hl, fun n hn => Or.inl hn, fun h i hi => ?_, ?_, ?_⟩
  · rw [(hy h).2.2]
    exact (hy h).2.1.inMap i hi
  · rintro n ⟨h, i, hi, rfl⟩
    rw [(hy h).2.2]
    exact (hy h).2.1.marked i hi
  · rintro n ⟨h, i, hi, rfl⟩
    exact Or.inr ⟨(hy h).1, i, hi, ((hy h).2.2 i).symm⟩

/-- The pool stays as it is and the process holds nothing afterwards. -/
lemma Trade.gone (hb : p.Books) (hs : y.stat.Alive → Shape y) (hy : ¬ y.stat.Holds) :
    Trade p x p y := by
  refine ⟨hb, hs, ?_, fun n hn => Or.inl hn, fun h => absurd h hy, fun n h => absurd h.1 hy,
    fun n h => absurd h.1 hy⟩
  rintro (h | h) <;> exact absurd (by rw [h]; trivial) hy

/-- `mfree`, by a process that holds nothing afterwards. -/
lemma Trade.mfree (hb : p.Books) (hx : x.stat.Holds) (ho : Owns bad p x) (hm : y.mem = x.mem)
    (hy : ¬ y.stat.Holds) (hs : y.stat.Alive → Shape y) :
    Trade p x (p.mfree y).1 (p.mfree y).2 := by
  obtain ⟨hb', hseg⟩ := Pool.mfreeDown_spec hb ho.inMap
  have hq : (p.mfree y).1 = Pool.mfreeDown x.mem 17 p := by rw [Pool.mfree, hm]
  have hstat : (p.mfree y).2.stat = y.stat := rfl
  rw [hq]
  refine ⟨hb', fun h => ?_, ?_, fun n hn => ?_, fun h => absurd h hy, fun n h => absurd h.1 hy,
    fun n h => absurd h.1 hy⟩
  · refine (hs h).congr (fun i => ?_) rfl
    show (if i < 17 then (⟨0, (y.mem i).per⟩ : Seg) else y.mem i).per = (y.mem i).per
    split <;> rfl
  · rw [hstat]
    rintro (h | h) <;> exact absurd (by rw [h]; trivial) hy
  · by_cases hhas : ∃ i < 17, (x.mem i).seg = n
    · exact Or.inr ⟨hx, hhas⟩
    · exact Or.inl ((hseg n).mpr ⟨hn, fun i hi he => hhas ⟨i, hi, he⟩⟩)

/-- The map after `mrelse`. -/
lemma mrelse_low (hi : i ≤ 14) : (p.mrelse x).2.mem i = ⟨(x.mem 0).seg, .grow⟩ := if_pos hi

lemma mrelse_high (hi : 14 < i) : (p.mrelse x).2.mem i = x.mem i := if_neg (by omega)

/-- Two `FULL` entries are left, and the `GROW` entries. -/
lemma Shape.mrelse (hs : Shape x) : Shape (p.mrelse x).2 := by
  have hper : ∀ i < 17, ((p.mrelse x).2.mem i).per = if i ≤ 14 then .grow else .full := by
    intro i hi
    by_cases hle : i ≤ 14
    · rw [mrelse_low hle, if_pos hle]
    · rw [mrelse_high (by omega), if_neg hle]
      obtain rfl | rfl : i = 15 ∨ i = 16 := by omega
      · exact hs.top
      · exact hs.user
  have hfulls : (p.mrelse x).2.fulls = 2 := by
    have : (Finset.range 17).filter (fun i => ((p.mrelse x).2.mem i).per = .full) =
        (Finset.range 17).filter fun i => 14 < i := by
      refine Finset.filter_congr fun i hi => ?_
      rw [hper i (Finset.mem_range.mp hi)]
      split <;> simp <;> omega
    rw [Proc.fulls, this]
    rfl
  have hgrows : (p.mrelse x).2.Grows := ⟨0, by omega, by rw [mrelse_low (by omega)]⟩
  refine ⟨fun i hi => ?_, hper 15 (by omega), hper 16 (by omega), ?_⟩
  · rw [hper i hi]
    split
    · exact Or.inr rfl
    · exact Or.inl rfl
  · rw [hfulls, if_pos hgrows]
    rfl

/-- `mrelse`, by a process that is awake. -/
lemma Trade.mrelse (hb : p.Books) (hx : x.Runs) (hs : Shape x) (hl : Layout x)
    (ho : Owns bad p x) : Trade p x (p.mrelse x).1 (p.mrelse x).2 := by
  have hholds : x.stat.Holds := by
    rw [hx.1]
    trivial
  obtain ⟨hb', hseg⟩ : (p.mrelse x).1.Books ∧ ∀ n, (p.mrelse x).1.segmap n = true ↔
      p.segmap n = true ∧ (n = (x.mem 0).seg ∨ ∀ i, 1 ≤ i → i ≤ 14 → (x.mem i).seg ≠ n) :=
    Pool.mrelseDown_spec hb fun i hi => ho.inMap i (by omega)
  -- the entries that `mrelse` does not look at have segments of their own
  have hown : ∀ i < 17, ∀ j < 17, 14 < i → (x.mem i).seg = (x.mem j).seg → i = j := by
    intro i hi j hj hgt
    refine hl.own hi hj ?_
    rintro (hp | hp)
    · obtain rfl | rfl : i = 15 ∨ i = 16 := by omega
      · rw [hs.top] at hp
        cases hp
      · rw [hs.user] at hp
        cases hp
    · rw [hx.2] at hp
      cases hp.1
  -- every entry has a segment that one of the same kind had before
  have hfrom : ∀ i < 17, ∃ j < 17, (14 < i ∧ j = i ∨ i ≤ 14 ∧ j = 0) ∧
      ((p.mrelse x).2.mem i).seg = (x.mem j).seg := by
    intro i hi
    by_cases hle : i ≤ 14
    · exact ⟨0, by omega, Or.inr ⟨hle, rfl⟩, by rw [mrelse_low hle]⟩
    · exact ⟨i, hi, Or.inl ⟨by omega, rfl⟩, by rw [mrelse_high (by omega)]⟩
  have hgrow : ∀ i ≤ 14, ((p.mrelse x).2.mem i).per = .grow := by
    intro i hi
    rw [mrelse_low hi]
  refine ⟨hb', fun _ => hs.mrelse, fun _ => ⟨?_, ?_⟩, fun n hn => ?_, fun _ i hi => ?_, ?_, ?_⟩
  · intro i hi j hj hpi hpj
    have hle : ∀ k < 17, ((p.mrelse x).2.mem k).per = .grow → k ≤ 14 := by
      intro k hk hp
      by_contra hgt
      rw [mrelse_high (by omega)] at hp
      obtain rfl | rfl : k = 15 ∨ k = 16 := by omega
      · rw [hs.top] at hp
        cases hp
      · rw [hs.user] at hp
        cases hp
    rw [mrelse_low (hle i hi hpi), mrelse_low (hle j hj hpj)]
  · intro i hi j hj he
    obtain ⟨i', hi', hci, hei⟩ := hfrom i hi
    obtain ⟨j', hj', hcj, hej⟩ := hfrom j hj
    rw [hei, hej] at he
    rcases hci with ⟨hgt, rfl⟩ | ⟨hlei, rfl⟩
    · have := hown i' hi' j' hj' hgt he
      exact Or.inl (by omega)
    · rcases hcj with ⟨hgt, rfl⟩ | ⟨hlej, rfl⟩
      · have := hown j' hj' 0 hi' hgt he.symm
        exact Or.inl (by omega)
      · exact Or.inr ⟨Or.inl (hgrow i hlei), Or.inl (hgrow j hlej)⟩
  · by_cases hhas : ∃ i < 17, (x.mem i).seg = n
    · exact Or.inr ⟨hholds, hhas⟩
    · exact Or.inl ((hseg n).mpr ⟨hn, Or.inr fun i _ hi he => hhas ⟨i, by omega, he⟩⟩)
  · obtain ⟨i', hi', -, hei⟩ := hfrom i hi
    rw [hei]
    exact ho.inMap i' hi'
  · rintro n ⟨-, i, hi, rfl⟩
    obtain ⟨i', hi', hci, hei⟩ := hfrom i hi
    rw [hei]
    refine (hseg _).mpr ⟨ho.marked i' hi', ?_⟩
    rcases hci with ⟨hgt, rfl⟩ | ⟨-, rfl⟩
    · refine Or.inr fun k _ hk he => ?_
      have := hown i' hi' k (by omega) hgt he.symm
      omega
    · exact Or.inl rfl
  · rintro n ⟨-, i, hi, rfl⟩
    obtain ⟨i', hi', -, hei⟩ := hfrom i hi
    exact Or.inr ⟨hholds, i', hi', hei.symm⟩

/-- `mget` -/
lemma Trade.mget (hb : p.Books) (hs : Shape y) {r : Pool × Proc} (h : p.mget y = some r) :
    Trade p x r.1 r.2 ∧ r.2.stat = y.stat := by
  rw [Pool.mget] at h
  split at h
  · cases h
  · rename_i hle
    obtain ⟨q, g, mem, hloop, hgot⟩ := Pool.mgetUpTo_spec hb
      (show Pool.needs y.mem 17 ≤ p.nsegs by rw [hs.needs_eq]; omega)
    rw [hloop] at h
    cases h
    refine ⟨⟨hgot.books, fun _ => hs.congr hgot.per rfl, fun _ => ⟨?_, ?_⟩, fun n hn => ?_,
      fun _ => hgot.inMap, ?_, ?_⟩, rfl⟩
    · intro i hi j hj hpi hpj
      rw [hgot.per] at hpi hpj
      exact (hgot.used i hi hpi).trans (hgot.used j hj hpj).symm
    · intro i hi j hj he
      refine (hgot.apart i hi j hj he).imp_right fun ⟨hpi, hpj⟩ => ⟨Or.inl ?_, Or.inl ?_⟩
      · rw [hgot.per]
        exact hpi
      · rw [hgot.per]
        exact hpj
    · exact Or.inl ((hgot.segmap n).mpr (Or.inl hn))
    · rintro n ⟨-, i, hi, he⟩
      exact (hgot.segmap n).mpr (Or.inr ⟨i, hi, he⟩)
    · rintro n ⟨-, i, hi, rfl⟩
      exact Or.inl (hgot.fresh i hi)

/-- `grow` from the loop on. -/
lemma Trade.growOn (hb : p.Books) (hx : x.stat = .core) (hs : Shape x) (hl : Layout x)
    (ho : Owns bad p x) : Trade p x (p.growOn x).1 (p.growOn x).2 := by
  have hholds : x.stat.Holds := by
    rw [hx]
    trivial
  rw [Pool.growOn]
  by_cases h0 : p.nsegs = 0
  · rw [if_pos h0]
    exact .still hb (fun _ => hs) (fun _ => hl) fun _ => ⟨hholds, ho, fun _ => rfl⟩
  rw [if_neg h0]
  by_cases hswap : x.swap ≠ 0
  · rw [if_pos hswap]
    refine .still hb (fun _ => hs.congr (fun _ => rfl) rfl) (fun _ => hl.congr rfl ?_)
      fun _ => ⟨hholds, ho, fun _ => rfl⟩
    rintro i (hp | ⟨-, hp⟩)
    · exact Or.inl hp
    · exact absurd hp hswap
  rw [if_neg hswap]
  obtain ⟨m, q, halloc, hm, hm', hfree, hseg, -, hb'⟩ :=
    Pool.segalloc_spec hb (Nat.pos_of_ne_zero h0)
  rw [halloc]
  -- the map afterwards: the `GROW` entries have the new segment
  obtain ⟨mem, hmem⟩ : ∃ mem, mem = fun i => if i < 16 ∧ (x.mem i).per = .grow then
    (⟨m, .grow⟩ : Seg) else x.mem i := ⟨_, rfl⟩
  have hat : ∀ i < 17, (x.mem i).per = .grow → mem i = ⟨m, .grow⟩ := by
    intro i hi hp
    have : i ≠ 16 := by
      rintro rfl
      rw [hs.user] at hp
      cases hp
    rw [hmem]
    exact if_pos ⟨by omega, hp⟩
  have hold : ∀ i, (x.mem i).per ≠ .grow → mem i = x.mem i := by
    intro i hp
    rw [hmem]
    exact if_neg fun hc => hp hc.2
  have hper : ∀ i, (mem i).per = (x.mem i).per := by
    intro i
    rw [hmem]
    dsimp only
    split
    · rename_i hc
      exact hc.2.symm
    · rfl
  have hnew : ∀ i < 17, (x.mem i).seg ≠ m := by
    rintro i hi rfl
    rw [ho.marked i hi] at hfree
    cases hfree
  dsimp only
  rw [← hmem]
  refine ⟨hb', fun _ => hs.congr hper rfl, fun _ => ⟨?_, ?_⟩, fun k hk => ?_, fun _ i hi => ?_,
    ?_, ?_⟩
  · intro i hi j hj hpi hpj
    show (mem i).seg = (mem j).seg
    rw [hat i hi ((hper i).symm.trans hpi), hat j hj ((hper j).symm.trans hpj)]
  · intro i hi j hj (he : (mem i).seg = (mem j).seg)
    by_cases hpi : (x.mem i).per = .grow <;> by_cases hpj : (x.mem j).per = .grow
    · exact Or.inr ⟨Or.inl ((hper i).trans hpi), Or.inl ((hper j).trans hpj)⟩
    · rw [hat i hi hpi, hold j hpj] at he
      exact absurd he.symm (hnew j hj)
    · rw [hold i hpi, hat j hj hpj] at he
      exact absurd he (hnew i hi)
    · rw [hold i hpi, hold j hpj] at he
      refine Or.inl ((hl.apart i hi j hj he).elim id ?_)
      -- both were at the segment that `grow` made `FULL`
      rintro ⟨hsi | ⟨hsi, -⟩, hsj | ⟨hsj, -⟩⟩
      · exact absurd hsi hpi
      · exact absurd hsi hpi
      · exact absurd hsj hpj
      · rw [hsi] at hsj
        cases hsj
        rfl
  · refine Or.inl ?_
    rw [hseg, Function.update_apply]
    split
    · rfl
    · exact hk
  · by_cases hp : (x.mem i).per = .grow
    · show 16 ≤ (mem i).seg ∧ (mem i).seg < maxseg
      rw [hat i hi hp]
      exact ⟨hm, hm'⟩
    · show 16 ≤ (mem i).seg ∧ (mem i).seg < maxseg
      rw [hold i hp]
      exact ho.inMap i hi
  · rintro k ⟨-, i, hi, rfl⟩
    show q.segmap (mem i).seg = true
    rw [hseg, Function.update_apply]
    split
    · rfl
    · rename_i hne
      by_cases hp : (x.mem i).per = .grow
      · rw [hat i hi hp] at hne
        exact absurd rfl hne
      · rw [hold i hp]
        exact ho.marked i hi
  · rintro k ⟨-, i, hi, rfl⟩
    show p.segmap (mem i).seg = false ∨ x.Has (mem i).seg
    by_cases hp : (x.mem i).per = .grow
    · rw [hat i hi hp]
      exact Or.inl hfree
    · rw [hold i hp]
      exact Or.inr ⟨hholds, i, hi, rfl⟩

/-- The map of a process that `grow` makes entry `n` `FULL` for. -/
def nailed (x : Proc) (n : ℕ) : ℕ → Seg := Function.update x.mem n ⟨(x.mem n).seg, .full⟩

lemma nailed_seg : (nailed x n i).seg = (x.mem i).seg := by
  rw [nailed, Function.update_apply]
  split
  · rename_i h
    rw [h]
  · rfl

lemma nailed_per : (nailed x n i).per = if i = n then .full else (x.mem i).per := by
  rw [nailed, Function.update_apply]
  split <;> rfl

/-- One more entry is `FULL`, and `grow` counts it unless it was the last one. -/
lemma Shape.nail (hs : Shape x) (hn : n < 17) (hp : (x.mem n).per = .grow) (hm : y.mem = nailed x n)
    (hc : y.nsegs = if x.nsegs = 17 then 17 else x.nsegs + 1) :
    Shape y ∧ (x.nsegs = 17 → ¬ y.Grows) := by
  have hper : ∀ i < 17, (y.mem i).per = .full ∨ (y.mem i).per = .grow := by
    intro i hi
    rw [hm, nailed_per]
    split
    · exact Or.inl rfl
    · exact hs.per i hi
  have hfulls : y.fulls = x.fulls + 1 := by
    have : (Finset.range 17).filter (fun i => (y.mem i).per = .full) =
        insert n ((Finset.range 17).filter fun i => (x.mem i).per = .full) := by
      ext i
      simp only [Finset.mem_filter, Finset.mem_range, Finset.mem_insert, hm, nailed_per]
      split
      · rename_i h
        simp [h, hn]
      · rename_i h
        simp [h]
    rw [Proc.fulls, this, Finset.card_insert_of_notMem (by simp [hp])]
    rfl
  have hx := Shape.grows_iff hs.per
  have hy := Shape.grows_iff hper
  have hgx : x.Grows := ⟨n, hn, hp⟩
  have hlt := hx.mp hgx
  have hnx := hs.nsegs
  rw [if_pos hgx] at hnx
  refine ⟨⟨hper, ?_, ?_, ?_⟩, fun h17 hgy => ?_⟩
  · rw [hm, nailed_per]
    split
    · rfl
    · exact hs.top
  · rw [hm, nailed_per]
    split
    · rfl
    · exact hs.user
  · by_cases hgy : y.Grows
    · have := hy.mp hgy
      rw [if_pos hgy, hc]
      split <;> omega
    · have := mt hy.mpr hgy
      rw [if_neg hgy, hc]
      split <;> omega
  · have := hy.mp hgy
    omega

@[simp] lemma put_proc : (s.put a (q, y)).proc a = y := by simp [State.put]

lemma put_put {r : Pool × Proc} : (s.put a (q, y)).put a r = s.put a r := by simp [State.put]

lemma put_self : s.put a (s.pool, s.proc a) = s := by simp [State.put]

/-- A process in core that is not the swapper, with what the invariant says of it. -/
lemma Inv.of_core (h : Inv bad s) (ha : a ≠ 0) (hc : (s.proc a).stat = .core) :
    Shape (s.proc a) ∧ Layout (s.proc a) ∧ Owns bad s.pool (s.proc a) := by
  refine ⟨h.shape a ?_, h.layout a ha (Or.inl hc), h.owns a ha ?_⟩ <;> rw [hc] <;> trivial

/-- `grow` from the loop on keeps the invariant. -/
lemma Inv.growOn (h : Inv bad s) (ha : a ≠ 0) (hc : (s.proc a).stat = .core) :
    Inv bad (s.put a (s.pool.growOn (s.proc a))) := by
  obtain ⟨hs, hl, ho⟩ := h.of_core ha hc
  exact h.put ha (.growOn h.books hc hs hl ho)

/-- `grow` keeps the invariant. -/
lemma Inv.grow {b t : ℕ} (h : Inv bad s) (ha : a ≠ 0) (hr : (s.proc a).Runs) (hn : n < 16) :
    Inv bad (s.put a (s.pool.grow (s.proc a) n b t)) := by
  obtain ⟨hs, hl, ho⟩ := h.of_core ha hr.1
  have hholds : (s.proc a).stat.Holds := by
    rw [hr.1]
    trivial
  rw [Pool.grow]
  split
  · rwa [put_self]
  rename_i hfull
  split
  · rwa [put_self]
  have hp := (hs.per n (by omega)).resolve_left hfull
  show Inv bad (s.put a (if (s.proc a).nsegs = 17 then _ else _))
  split
  · -- the last `GROW` entry keeps the segment
    rename_i h17
    obtain ⟨hs', hno⟩ := hs.nail (y := { s.proc a with mem := nailed (s.proc a) n })
      (by omega) hp rfl (by rw [if_pos h17]; exact h17)
    have hno := hno h17
    refine h.put ha (.still h.books (fun _ => hs') (fun _ => ⟨?_, ?_⟩)
      fun _ => ⟨hholds, ho, fun i => nailed_seg⟩)
    · intro i hi j _ hpi
      exact absurd ⟨i, hi, hpi⟩ hno
    · intro i hi j hj (he : (nailed (s.proc a) n i).seg = (nailed (s.proc a) n j).seg)
      have honly : ∀ k < 17, (s.proc a).Shares k → k = n := by
        rintro k hk (hpk | ⟨hw, -⟩)
        · by_contra hne
          exact hno ⟨k, hk, by rw [nailed_per, if_neg hne, hpk]⟩
        · rw [hr.2] at hw
          cases hw
      rw [nailed_seg, nailed_seg] at he
      refine Or.inl ((hl.apart i hi j hj he).elim id fun ⟨h1, h2⟩ => ?_)
      rw [honly i hi h1, honly j hj h2]
  · rename_i h17
    obtain ⟨hs', -⟩ := hs.nail (y := ⟨(s.proc a).stat, (s.proc a).nsegs + 1, nailed (s.proc a) n, 0,
      .grow n⟩) (by omega) hp rfl (by rw [if_neg h17])
    have hasleep : Inv bad (s.put a (s.pool, ⟨(s.proc a).stat, (s.proc a).nsegs + 1,
        nailed (s.proc a) n, 0, .grow n⟩)) := by
      refine h.put ha (.still h.books (fun _ => hs') (fun _ => ⟨?_, ?_⟩)
        fun _ => ⟨hholds, ho, fun i => nailed_seg⟩)
      · intro i hi j hj hpi hpj
        have hgrow : ∀ k, (nailed (s.proc a) n k).per = .grow → ((s.proc a).mem k).per = .grow := by
          intro k hk
          rw [nailed_per] at hk
          split at hk
          · cases hk
          · exact hk
        rw [nailed_seg, nailed_seg]
        exact hl.grow i hi j hj (hgrow i hpi) (hgrow j hpj)
      · intro i hi j hj he
        rw [nailed_seg, nailed_seg] at he
        have hshares : ∀ k, (s.proc a).Shares k → Proc.Shares ⟨(s.proc a).stat,
            (s.proc a).nsegs + 1, nailed (s.proc a) n, 0, .grow n⟩ k := by
          rintro k (hpk | ⟨hw, -⟩)
          · by_cases hk : k = n
            · exact Or.inr ⟨by rw [hk], rfl⟩
            · exact Or.inl (by rw [nailed_per, if_neg hk, hpk])
          · rw [hr.2] at hw
            cases hw
        exact (hl.apart i hi j hj he).imp_right fun ⟨h1, h2⟩ => ⟨hshares i h1, hshares j h2⟩
    have := hasleep.growOn ha (by rw [put_proc]; exact hr.1)
    rwa [put_proc, put_put] at this

/-- Falling asleep in `fork` and waking up. -/
lemma Inv.sleep {w : Sleep} (h : Inv bad s) (hold : ∀ i, (s.proc a).sleep ≠ .grow i) :
    Inv bad (s.put a (s.pool, { s.proc a with sleep := w })) := by
  have hlay : Layout (s.proc a) → Layout { s.proc a with sleep := w } := fun hl =>
    hl.congr rfl fun i hi => Or.inl (hi.resolve_right fun hc => hold i hc.1)
  by_cases ha : a = 0
  · subst ha
    have hother : ∀ b ≠ 0, (s.put 0 (s.pool, { s.proc 0 with sleep := w })).proc b = s.proc b := by
      intro b hb
      simp [State.put, hb]
    refine ⟨h.books, h.defects, by rw [put_proc]; exact h.core, by rw [put_proc]; exact h.swapper,
      ?_, ?_, ?_, ?_⟩
    · intro b hb
      by_cases hb0 : b = 0
      · subst hb0
        rw [put_proc] at hb ⊢
        exact (h.shape 0 hb).congr (fun _ => rfl) rfl
      · rw [hother b hb0] at hb ⊢
        exact h.shape b hb
    · intro b hb0 hb
      rw [hother b hb0] at hb ⊢
      exact h.layout b hb0 hb
    · intro b hb0 hb
      rw [hother b hb0] at hb ⊢
      exact h.owns b hb0 hb
    · intro b hb0 c hc0 hbc hb hc
      rw [hother b hb0] at hb ⊢
      rw [hother c hc0] at hc ⊢
      exact h.apart b hb0 c hc0 hbc hb hc
  · exact h.put ha (.still h.books (fun hb => (h.shape a hb).congr (fun _ => rfl) rfl)
      (fun hb => hlay (h.layout a ha hb)) fun hb => ⟨hb, h.owns a ha hb, fun _ => rfl⟩)

end Micronix.Memory
