import Micronix.Dir.Lookup
import Mathlib.Data.List.TakeWhile
import Mathlib.Data.Nat.Count

/-!
# The directory search

`dlook` counts the entries as it goes, and what it leaves in `u.offset` is the count when it came to
the entry.  A block that cannot be mapped or read is not counted, `slot` is 0 as long as no free
entry has been seen, and both have 16 bits.  So the offset is that of the entry if and only if the
blocks before it can be read, it is below 64 K, and it is not 0 when it is that of a free entry.

A hole is a block of free entries, which `imap` fills, or else a block that cannot be mapped.
-/

namespace Micronix

namespace Tree

/-! ## The next name of a path -/

def slash : UInt8 := 47

/-- The loop over `nambuf`: the name up to its end, or to 14 characters, and what is left of the path
there. -/
def nambuf : ℕ → List UInt8 → Name × List UInt8
  | 0, p => ([], p)
  | _ + 1, [] => ([], [])
  | n + 1, c :: p =>
      if c = 0 ∨ c = slash then ([], c :: p)
      else ((c :: (nambuf n p).1), (nambuf n p).2)

/-- Past the name and any slashes. -/
def advance (p : List UInt8) : List UInt8 :=
  (p.dropWhile fun c => c ≠ 0 ∧ c ≠ slash).dropWhile (· = slash)

/-- `dlook(ip, np)` with the path that `np` points to. -/
def dlookPath (ents : List Dirent) (path : List UInt8) (bread : ℕ → Bool) (error : Option Errno) :
    (Option ℕ × ℕ × Option Errno) × List UInt8 :=
  let r := nambuf 14 path
  let np := advance r.2
  (dlook ents r.1 (np.headD 0 = 0) bread error, np)

/-- The first component of a path. -/
def component (path : List UInt8) : List UInt8 := path.takeWhile fun c => c ≠ 0 ∧ c ≠ slash

/-- The name in an entry: its 14 bytes up to a zero. -/
def chars (n : Name) : List UInt8 := (n.take 14).takeWhile (· ≠ 0)

lemma nambuf_name (n : ℕ) (p : List UInt8) : (nambuf n p).1 = (component p).take n := by
  induction n generalizing p with
  | zero => rw [List.take_zero, nambuf]
  | succ n ih =>
      cases p with
      | nil => rfl
      | cons c p =>
          rw [nambuf, component, List.takeWhile_cons]
          by_cases h : c = 0 ∨ c = slash
          · rw [if_pos h, if_neg (by simpa [or_iff_not_imp_left] using h)]
            rfl
          · obtain ⟨h0, hs⟩ := not_or.mp h
            rw [if_neg h, if_pos (by simp [h0, hs]), List.take_succ_cons, ih, component]

lemma direqu_iff (a b : Name) (n : ℕ) :
    direqu a b n = true ↔ (a.take n).takeWhile (· ≠ 0) = (b.take n).takeWhile (· ≠ 0) := by
  induction n generalizing a b with
  | zero => simp [direqu]
  | succ n ih =>
      rw [direqu]
      rcases a with _ | ⟨x, a⟩ <;> rcases b with _ | ⟨y, b⟩
      · simp
      · by_cases hy : y = 0
        · simp [hy]
        · simp [hy, Ne.symm hy]
      · by_cases hx : x = 0
        · simp [hx]
        · simp [hx]
      · by_cases hxy : x = y
        · subst hxy
          by_cases hx : x = 0
          · simp [hx]
          · simp [hx, ih]
        · by_cases hx : x = 0
          · subst hx
            simp [hxy, Ne.symm hxy]
          · by_cases hy : y = 0
            · subst hy
              simp [hx]
            · simp [hx, hy, hxy]

/-- The name that `dlook` looks for stops at no zero. -/
lemma chars_component (path : List UInt8) :
    chars ((component path).take 14) = (component path).take 14 := by
  have hne : ∀ c ∈ (component path).take 14, c ≠ 0 := by
    intro c hc
    have := List.mem_takeWhile_imp (List.mem_of_mem_take hc)
    simp only [ne_eq, decide_eq_true_eq] at this
    exact this.1
  rw [chars, List.take_take, Nat.min_self, List.takeWhile_eq_self_iff]
  simpa using hne

/-! ## What there is to be found -/

/-- The entry is live and has the name. -/
def hit (name : List UInt8) (x : Dirent × ℕ) : Bool := x.1.inum ≠ 0 ∧ chars x.1.name = name

/-- The entry can be used for a new name. -/
def reusable (x : Dirent × ℕ) : Bool := x.1.inum = 0

/-- The entries from the `b`-th on that are in blocks that can be read, with their indices. -/
def seenFrom (bread : ℕ → Bool) (b : ℕ) (ents : List Dirent) : List (Dirent × ℕ) :=
  (ents.zipIdx b).filter fun x => bread (x.2 / 32)

def seen (bread : ℕ → Bool) (ents : List Dirent) : List (Dirent × ℕ) := seenFrom bread 0 ents

/-- The index at which a new name belongs: the first reusable entry, or the end. -/
def wanted (bread : ℕ → Bool) (ents : List Dirent) : ℕ :=
  match (seen bread ents).find? reusable with
  | some x => x.2
  | none => ents.length

/-- `dlook` finds the first live entry with the name, or the place for a new one. -/
def Finds (ents : List Dirent) (path : List UInt8) (bread : ℕ → Bool) (error : Option Errno) : Prop :=
  let r := (dlookPath ents path bread error).1
  match (seen bread ents).find? (hit ((component path).take 14)) with
  | some x => r.1 = some x.1.inum ∧ r.2.1 = 16 * x.2
  | none => r.1 = none ∧ r.2.1 = 16 * wanted bread ents

/-! ## What `dlook` counts -/

/-- The number of entries that `dlook` has counted when it comes to the `k`-th. -/
def counted (bread : ℕ → Bool) (k : ℕ) : ℕ := Nat.count (fun i => bread (i / 32) = true) k

/-- Where `slot` is set: the first free entry whose count is not 0 in 16 bits.  If there is none,
`place` is used at the end. -/
def stop (bread : ℕ → Bool) (ents : List Dirent) : ℕ :=
  match (seen bread ents).find? fun x => reusable x ∧ counted bread x.2 % 4096 ≠ 0 with
  | some x => x.2
  | none => ents.length

section Count

variable {bread : ℕ → Bool} {ents : List Dirent} {name : Name} {b k slot : ℕ}
  {error : Option Errno}

lemma counted_le (bread : ℕ → Bool) (k : ℕ) : counted bread k ≤ k := Nat.count_le _

lemma counted_succ_of_read (h : bread (b / 32) = true) :
    counted bread (b + 1) = counted bread b + 1 := by
  rw [counted, Nat.count_succ, if_pos h]
  rfl

lemma counted_succ_of_not (h : ¬bread (b / 32) = true) :
    counted bread (b + 1) = counted bread b := by
  rw [counted, Nat.count_succ, if_neg h]
  rfl

lemma counted_eq_iff : counted bread k = k ↔ ∀ i < k, bread (i / 32) = true :=
  Nat.count_iff_forall

lemma seenFrom_cons_of_read {d : Dirent} (h : bread (b / 32) = true) :
    seenFrom bread b (d :: ents) = (d, b) :: seenFrom bread (b + 1) ents := by
  exact List.filter_cons_of_pos (a := (d, b)) (l := ents.zipIdx (b + 1)) h

lemma seenFrom_cons_of_not {d : Dirent} (h : ¬bread (b / 32) = true) :
    seenFrom bread b (d :: ents) = seenFrom bread (b + 1) ents := by
  exact List.filter_cons_of_neg (a := (d, b)) (l := ents.zipIdx (b + 1)) h

/-- The entries of one block are seen if it can be read. -/
lemma seenFrom_block {log : ℕ} (h : ents.length ≤ 32) :
    (seenFrom bread (32 * log) ents).map Prod.fst = if bread log then ents else [] := by
  have hin : ∀ x ∈ ents.zipIdx (32 * log), x.2 / 32 = log := by
    intro x hx
    have hlt := List.snd_lt_of_mem_zipIdx hx
    have hle := List.le_snd_of_mem_zipIdx hx
    omega
  rw [seenFrom, List.filter_congr fun x hx => by rw [hin x hx]]
  split_ifs with hb
  · rw [hb, List.filter_true, List.zipIdx_map_fst]
  · rw [Bool.not_eq_true] at hb
    rw [hb, List.filter_false, List.map_nil]

lemma seenFrom_append (a c : List Dirent) :
    seenFrom bread b (a ++ c) = seenFrom bread b a ++ seenFrom bread (b + a.length) c := by
  rw [seenFrom, List.zipIdx_append, List.filter_append, seenFrom, seenFrom]

/-- The loop over the blocks goes over the entries that it sees. -/
lemma dlookLoop_seen {n log place : ℕ} (hn : ents.length ≤ 32 * n) :
    (dlookLoop name bread n log ents place slot error).1 =
      dlookBlock name ((seenFrom bread (32 * log) ents).map Prod.fst) place slot := by
  induction n generalizing log ents place slot error with
  | zero =>
      obtain rfl := List.length_eq_zero_iff.mp (Nat.le_zero.mp hn)
      rfl
  | succ n ih =>
      have hsplit : seenFrom bread (32 * log) ents = seenFrom bread (32 * log) (ents.take 32) ++
          seenFrom bread (32 * (log + 1)) (ents.drop 32) := by
        conv_lhs => rw [← List.take_append_drop 32 ents, seenFrom_append]
        by_cases hlen : 32 ≤ ents.length
        · rw [List.length_take, Nat.min_eq_left hlen, Nat.mul_succ]
        · rw [List.drop_eq_nil_of_le (by omega)]
          rfl
      have hrest : (ents.drop 32).length ≤ 32 * n := by
        rw [List.length_drop]
        omega
      rw [hsplit, List.map_append, seenFrom_block (by rw [List.length_take]; omega), dlookLoop,
        dlookBlock_append]
      split_ifs
      · cases hblock : dlookBlock name (ents.take 32) place slot with
        | found inum offset => rfl
        | missing place' slot' => exact ih hrest
      · exact ih hrest

/-- The search over what is seen, by induction on the entries to come. -/
lemma dlookBlock_seen (hplace : 16 * counted bread b % 65536 = k) :
    dlookBlock name ((seenFrom bread b ents).map Prod.fst) k slot =
      match (seenFrom bread b ents).find? (hit (chars name)) with
      | some x => .found x.1.inum (16 * counted bread x.2 % 65536)
      | none => .missing (16 * counted bread (b + ents.length) % 65536)
          (if slot ≠ 0 then slot
          else match (seenFrom bread b ents).find? fun x =>
              reusable x ∧ counted bread x.2 % 4096 ≠ 0 with
            | some x => 16 * counted bread x.2 % 65536
            | none => 0) := by
  induction ents generalizing b k slot with
  | nil =>
      have hnil : seenFrom bread b [] = [] := rfl
      rw [hnil]
      simp only [List.map_nil, dlookBlock, List.find?_nil, List.length_nil, Nat.add_zero, hplace]
      split_ifs with h
      · rfl
      · rw [not_not.mp h]
  | cons d ds ih =>
      have hlen : b + (d :: ds).length = b + 1 + ds.length := by
        rw [List.length_cons]
        omega
      by_cases hb : bread (b / 32) = true
      · have hnext : 16 * counted bread (b + 1) % 65536 = (k + 16) % 65536 := by
          rw [counted_succ_of_read hb]
          omega
        rw [seenFrom_cons_of_read hb, List.map_cons, dlookBlock, hlen, List.find?_cons,
          List.find?_cons]
        by_cases h0 : d.inum = 0
        · have hno : hit (chars name) (d, b) = false := by simp [hit, h0]
          rw [if_pos h0, ih hnext, hno]
          dsimp only
          cases (seenFrom bread (b + 1) ds).find? (hit (chars name)) with
          | some x => rfl
          | none =>
              by_cases hs : slot = 0
              · by_cases hk : counted bread b % 4096 = 0
                · have hk0 : k = 0 := by omega
                  simp [reusable, h0, hs, hk, hk0]
                · have hk0 : k ≠ 0 := by omega
                  simp [reusable, h0, hs, hk, hk0, hplace]
              · simp [hs]
        · rw [if_neg h0]
          have hfree : (decide ((reusable (d, b) : Prop) ∧ counted bread b % 4096 ≠ 0)) = false := by
            simp [reusable, h0]
          by_cases heq : direqu d.name name 14 = true
          · have hyes : hit (chars name) (d, b) = true := by
              simpa [hit, h0, chars] using (direqu_iff d.name name 14).mp heq
            rw [if_pos heq, hyes]
            exact congrArg _ hplace.symm
          · have hno : hit (chars name) (d, b) = false := by
              simpa [hit, h0, chars] using fun h => heq ((direqu_iff d.name name 14).mpr h)
            rw [if_neg heq, ih hnext, hno, hfree]
      · rw [seenFrom_cons_of_not hb, hlen]
        exact ih (by rw [counted_succ_of_not hb, hplace])

end Count

/-! ## `dlook` -/

variable {ents : List Dirent} {path : List UInt8} {bread : ℕ → Bool} {error : Option Errno}

/-- The blocks before an entry can be read, and its offset has 16 bits. -/
def Clear (bread : ℕ → Bool) (k : ℕ) : Prop := (∀ i < k, bread (i / 32) = true) ∧ k < 4096

/-- The offset that `dlook` comes to is the right one.  A free entry at offset 0 is passed over: the
last case is that of another place which is counted, by accident, as the one that is wanted. -/
def InPlace (ents : List Dirent) (path : List UInt8) (bread : ℕ → Bool) : Prop :=
  match (seen bread ents).find? (hit ((component path).take 14)) with
  | some x => Clear bread x.2
  | none =>
      Clear bread (wanted bread ents) ∧ (wanted bread ents = 0 → ents = []) ∨
        (wanted bread ents < ents.length ∧ wanted bread ents < 4096 ∧
          counted bread (wanted bread ents) = 0 ∧
          counted bread (stop bread ents) % 4096 = wanted bread ents)

lemma clear_iff {k : ℕ} : Clear bread k ↔ counted bread k % 4096 = k := by
  have hle := counted_le bread k
  rw [Clear, ← counted_eq_iff]
  omega

variable (ents path bread error) in
/-- What `dlook` comes to, in terms of what it sees. -/
lemma dlookPath_eq :
    match (seen bread ents).find? (hit ((component path).take 14)) with
    | some x => (dlookPath ents path bread error).1.1 = some x.1.inum ∧
        (dlookPath ents path bread error).1.2.1 = 16 * (counted bread x.2 % 4096)
    | none => (dlookPath ents path bread error).1.1 = none ∧
        (dlookPath ents path bread error).1.2.1 = 16 * (counted bread (stop bread ents) % 4096) := by
  set name := (nambuf 14 path).1 with hname
  have hchars : (component path).take 14 = chars name := by
    rw [hname, nambuf_name, chars_component]
  have hmod : ∀ n, 16 * n % 65536 = 16 * (n % 4096) := fun n => by omega
  have hloop : (dlookLoop name bread ((ents.length + 31) / 32) 0 ents 0 0 error).1 = _ :=
    (dlookLoop_seen (by omega)).trans (dlookBlock_seen (b := 0) (by simp [counted]))
  have hp : (dlookPath ents path bread error).1 = dlook ents name
      ((advance (nambuf 14 path).2).headD 0 = 0) bread error := rfl
  rw [hp, hchars, seen, dlook]
  cases hfind : (seenFrom bread 0 ents).find? (hit (chars name)) with
  | some x =>
      rw [hfind] at hloop
      cases hl : dlookLoop name bread ((ents.length + 31) / 32) 0 ents 0 0 error with
      | mk look e =>
          rw [hl] at hloop
          obtain rfl := hloop
          exact ⟨rfl, hmod _⟩
  | none =>
      rw [hfind] at hloop
      cases hl : dlookLoop name bread ((ents.length + 31) / 32) 0 ents 0 0 error with
      | mk look e =>
          rw [hl] at hloop
          obtain rfl := hloop
          refine ⟨rfl, ?_⟩
          dsimp only
          rw [stop, seen]
          cases hs : (seenFrom bread 0 ents).find? fun x =>
              reusable x ∧ counted bread x.2 % 4096 ≠ 0 with
          | none => simp [hmod]
          | some x =>
              have hx := List.find?_some hs
              simp only [ne_eq, Bool.decide_and, Bool.decide_eq_true, decide_not, Bool.and_eq_true,
                Bool.not_eq_true', decide_eq_false_iff_not] at hx
              have hne : 16 * counted bread x.2 % 65536 ≠ 0 := by omega
              have hslot : (if (0 : ℕ) ≠ 0 then 0 else 16 * counted bread x.2 % 65536) =
                  16 * counted bread x.2 % 65536 := if_neg (not_not.mpr rfl)
              rw [hslot, if_pos hne, hmod]

/-- The free entry that `dlook` stops at, or the end, is counted as the wanted one exactly when it
is the wanted one, or by accident. -/
lemma stop_iff : counted bread (stop bread ents) % 4096 = wanted bread ents ↔
    Clear bread (wanted bread ents) ∧ (wanted bread ents = 0 → ents = []) ∨
      (wanted bread ents < ents.length ∧ wanted bread ents < 4096 ∧
        counted bread (wanted bread ents) = 0 ∧
        counted bread (stop bread ents) % 4096 = wanted bread ents) := by
  cases hfree : (seen bread ents).find? reusable with
  | none =>
      -- nothing is free: both are the end
      have hw : wanted bread ents = ents.length := by rw [wanted, hfree]
      have hs : stop bread ents = ents.length := by
        have hnone : (seen bread ents).find? (fun x =>
            reusable x ∧ counted bread x.2 % 4096 ≠ 0) = none := by
          rw [List.find?_eq_none] at hfree ⊢
          intro x hx
          simpa using fun h => absurd h (hfree x hx)
        rw [stop, hnone]
      rw [hw, hs, clear_iff, List.length_eq_zero_iff]
      simp
  | some x =>
      have hw : wanted bread ents = x.2 := by rw [wanted, hfree]
      have hmem : x.2 < ents.length := by
        have := List.mem_of_mem_filter (List.mem_of_find?_eq_some hfree)
        simpa using List.snd_lt_of_mem_zipIdx this
      have hne : ents ≠ [] := List.ne_nil_of_length_pos (by omega)
      have hle := counted_le bread x.2
      rw [hw, clear_iff]
      by_cases h0 : counted bread x.2 % 4096 = 0
      · -- it is taken for an entry at offset 0
        constructor
        · intro h
          exact Or.inr ⟨hmem, by omega, by omega, h⟩
        · rintro (⟨h, hnil⟩ | ⟨-, -, -, h⟩)
          · exact absurd (hnil (by omega)) hne
          · exact h
      · have hs : stop bread ents = x.2 := by
          obtain ⟨hx, as, bs, hl, has⟩ := List.find?_eq_some_iff_append.mp hfree
          have hfind : (seen bread ents).find? (fun x =>
              reusable x ∧ counted bread x.2 % 4096 ≠ 0) = some x := by
            refine List.find?_eq_some_iff_append.mpr ⟨by simp [hx, h0], as, bs, hl, fun a ha => ?_⟩
            simp [Bool.eq_false_of_not_eq_true' (has a ha)]
          rw [stop, hfind]
        rw [hs]
        constructor
        · intro h
          exact Or.inl ⟨h, fun hz => absurd (hz ▸ h) h0⟩
        · rintro (⟨h, -⟩ | ⟨-, -, -, h⟩) <;> exact h

/-- **Directory search.**  `dlook` finds what it looks for at its offset exactly when the blocks
before it can be read, the offset has 16 bits, and a free entry is not the first of all. -/
theorem directory_search (ents : List Dirent) (path : List UInt8) (bread : ℕ → Bool)
    (error : Option Errno) : Finds ents path bread error ↔ InPlace ents path bread := by
  have h := dlookPath_eq ents path bread error
  rw [Finds, InPlace]
  split <;> rename_i hfind
  · rw [hfind] at h
    obtain ⟨hnum, hoff⟩ := h
    rw [hnum, hoff, clear_iff, eq_self, true_and]
    omega
  · rw [hfind] at h
    obtain ⟨hnum, hoff⟩ := h
    rw [hnum, hoff, ← stop_iff, eq_self, true_and]
    omega

/-- A directory of two blocks, the first of which cannot be read: `x` is found at offset 0. -/
theorem offset_behind : ¬∀ ents path bread error, Finds ents path bread error := by
  intro h
  have hx := h (List.replicate 32 ⟨2, [97]⟩ ++ [⟨3, [120]⟩]) [120] (· = 1) none
  rw [Finds] at hx
  have hfind : (seen (· = 1) (List.replicate 32 ⟨2, [97]⟩ ++ [⟨3, [120]⟩])).find?
      (hit ((component [120]).take 14)) = some (⟨3, [120]⟩, 32) := by decide
  rw [hfind] at hx
  exact absurd hx.2 (by decide)

end Tree

end Micronix
