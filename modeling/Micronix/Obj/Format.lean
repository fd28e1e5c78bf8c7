import Micronix.Obj.Reloc

/-!
# The format of relocations, and what readreloc makes of it

The table above `readreloc` (`whitesmith.c`) says what the bytes of a stream of relocations stand for.
`table` is that list of places and targets.  `readreloc` collects the index of a symbol in a byte, so
that the largest indices come out modulo 256 (`stream_iff`).
-/

namespace Micronix

namespace Obj

/-- An entry of a stream: a line of the table. -/
inductive Entry
  /-- 1 - 31 -/
  | skip (n : Fin 31)
  /-- 32 - 63: pages, and the next byte -/
  | pages (n : Fin 32) (next : UInt8)
  | text
  | data
  | bss
  /-- 80 - 248 -/
  | short (n : Fin 43)
  /-- 252 and a byte from 0 to 127 -/
  | extended (n : Fin 128)
  /-- 252, a byte from 128 on, and the next byte -/
  | doubly (n : Fin 128) (next : UInt8)
  deriving DecidableEq, Repr

namespace Entry

def bytes : Entry → List UInt8
  | .skip n => [UInt8.ofNat (n + 1)]
  | .pages n next => [UInt8.ofNat (n + 32), next]
  | .text => [68]
  | .data => [72]
  | .bss => [76]
  | .short n => [UInt8.ofNat (80 + 4 * n)]
  | .extended n => [252, UInt8.ofNat n]
  | .doubly n next => [252, UInt8.ofNat (n + 128), next]

/-- What is relocated, if it is not a skip. -/
def target : Entry → Option Target
  | .skip _ => none
  | .pages _ _ => none
  | .text => some .text
  | .data => some .data
  | .bss => some .bss
  | .short n => some (.symbol n)
  | .extended n => some (.symbol (n + 43))
  | .doubly n next => some (.symbol (256 * n + 175 + next.toNat))

/-- How far it is to the next place.  The assembler takes 32 off a distance of two bytes (`outBump`)
and the readers add it again; the table does not mention it. -/
def distance (bias : ℕ) : Entry → ℕ
  | .skip n => n + 1
  | .pages n next => bias + 256 * n + next.toNat
  | _ => 2

end Entry

/-- The bytes of a stream. -/
def stream (es : List Entry) : List UInt8 := es.flatMap Entry.bytes ++ [0]

/-- The places and targets of a stream. -/
def table (bias modulus : ℕ) : ℕ → List Entry → List WsReloc
  | _, [] => []
  | location, e :: es =>
      (e.target.map (WsReloc.mk location)).toList ++
        table bias modulus ((location + e.distance bias) % modulus) es

/-- Repeated calls come to this result and take exactly these bytes: what follows is not looked at,
and less is not enough. -/
def Consumes {α : Type} (calls : List UInt8 → Option α) (bytes : List UInt8) (result : α) : Prop :=
  (∀ rest, calls (bytes ++ rest) = some result) ∧ ∀ q, q <+: bytes → q ≠ bytes → calls q = none

/-! ## One entry -/

/-- A target with the index in a byte. -/
def Target.low : Target → Target
  | .symbol value => .symbol (value % 256)
  | t => t

def WsReloc.low (r : WsReloc) : WsReloc := { r with target := r.target.low }

section

variable {location : ℕ} {e : Entry} {rest : List UInt8}

lemma toNat_ofNat {n : ℕ} (h : n < 256) : (UInt8.ofNat n).toNat = n :=
  UInt8.toNat_ofNat_of_lt' h

lemma Entry.bytes_ne_nil (e : Entry) : e.bytes ≠ [] := by
  cases e <;> exact List.cons_ne_nil _ _

lemma readreloc_skip (h : e.target = none) :
    readreloc location (e.bytes ++ rest) =
      readreloc ((location + e.distance 32) % 65536) rest := by
  cases e with
  | skip n =>
      have hn := toNat_ofNat (show n.val + 1 < 256 by omega)
      have hne : UInt8.ofNat (n + 1) ≠ 0 := fun h => by simp [h] at hn
      rw [Entry.bytes, List.singleton_append, readreloc_near hne (by omega), hn, Entry.distance]
  | pages n next =>
      have hn := toNat_ofNat (show n.val + 32 < 256 by omega)
      rw [Entry.bytes, List.cons_append, List.singleton_append, readreloc_page (by omega) (by omega),
        hn, Entry.distance, Nat.add_sub_cancel, ← Nat.add_assoc, ← Nat.add_assoc, ← Nat.add_assoc]
  | _ => cases h

lemma readreloc_target {t : Target} (h : e.target = some t) :
    readreloc location (e.bytes ++ rest) =
      .reloc ⟨location, t.low⟩ ((location + e.distance 32) % 65536) rest := by
  cases e with
  | skip n => cases h
  | pages n next => cases h
  | text =>
      cases h
      exact readreloc_type (n := 1) rfl
  | data =>
      cases h
      exact readreloc_type (n := 2) rfl
  | bss =>
      cases h
      exact readreloc_type (n := 3) rfl
  | short n =>
      cases h
      have hn := toNat_ofNat (show 80 + 4 * n.val < 256 by omega)
      have hc : (n + 4 + 252) % 256 = n.val % 256 := by omega
      rw [Entry.bytes, List.singleton_append, readreloc_type (n := n + 4) (by omega),
        if_neg (by omega), if_neg (by omega), if_neg (by omega), readSymbol_short (by omega), hc]
      rfl
  | extended n =>
      cases h
      have hn := toNat_ofNat (show n.val < 256 by omega)
      rw [Entry.bytes, List.cons_append, List.singleton_append, readreloc_type (n := 47) rfl]
      simp only [Nat.reduceEqDiff, if_false]
      rw [readSymbol_byte (by omega), hn]
      rfl
  | doubly n next =>
      cases h
      have hn := toNat_ofNat (show n.val + 128 < 256 by omega)
      have hindex : (n + 128 - 128) * 256 + 175 + next.toNat = 256 * n.val + 175 + next.toNat := by
        omega
      rw [Entry.bytes, List.cons_append, List.cons_append, List.singleton_append,
        readreloc_type (n := 47) rfl]
      simp only [Nat.reduceEqDiff, if_false]
      rw [readSymbol_word (by omega), hn, hindex]
      rfl

lemma eq_nil_of_short {a : UInt8} {q : List UInt8} (h : q <+: [a]) (hne : q ≠ [a]) : q = [] := by
  rcases List.prefix_cons_iff.mp h with rfl | ⟨t, rfl, ht⟩
  · rfl
  · rw [List.prefix_nil.mp ht] at hne
    exact absurd rfl hne

lemma readSymbol_cut {b : UInt8} (h : ¬b.toNat < 128) : readSymbol location 47 [b] = .past := by
  rw [readSymbol.eq_def]
  exact if_neg h

/-- Fewer bytes of an entry are not enough. -/
lemma readreloc_short {q : List UInt8} (h : q <+: e.bytes) (hne : q ≠ e.bytes) :
    readreloc location q = .past := by
  have hnil : readreloc location [] = .past := by rw [readreloc]
  cases e with
  | pages n next =>
      have hn := toNat_ofNat (show n.val + 32 < 256 by omega)
      have hne0 : UInt8.ofNat (n + 32) ≠ 0 := fun h => by simp [h] at hn
      rcases List.prefix_cons_iff.mp h with rfl | ⟨q, rfl, hq⟩
      · exact hnil
      · rw [eq_nil_of_short hq fun heq => hne (by rw [heq]; rfl), readreloc.eq_def]
        dsimp only
        rw [if_neg hne0, if_neg (by omega), if_pos (by omega)]
  | extended n =>
      rcases List.prefix_cons_iff.mp h with rfl | ⟨q, rfl, hq⟩
      · exact hnil
      · rw [eq_nil_of_short hq fun heq => hne (by rw [heq]; rfl), readreloc_type (n := 47) rfl]
        rfl
  | doubly n next =>
      have hn := toNat_ofNat (show n.val + 128 < 256 by omega)
      rcases List.prefix_cons_iff.mp h with rfl | ⟨q, rfl, hq⟩
      · exact hnil
      · rcases List.prefix_cons_iff.mp hq with rfl | ⟨u, rfl, hu⟩
        · rw [readreloc_type (n := 47) rfl]
          rfl
        · rw [eq_nil_of_short hu fun heq => hne (by rw [heq]; rfl), readreloc_type (n := 47) rfl]
          exact readSymbol_cut (by omega)
  | _ => rw [eq_nil_of_short h hne, hnil]

end

/-! ## A stream -/

section

variable {location location' : ℕ} {bytes bytes' : List UInt8} {e : Entry} {es : List Entry}

lemma stream_cons : stream (e :: es) = e.bytes ++ stream es := by
  rw [stream, stream, List.flatMap_cons, List.append_assoc]

lemma makerelocs_congr (h : readreloc location bytes = readreloc location' bytes') :
    makerelocs location bytes = makerelocs location' bytes' := by
  cases hread : readreloc location' bytes' with
  | done => rw [makerelocs_done (h.trans hread), makerelocs_done hread]
  | past => rw [makerelocs_past (h.trans hread), makerelocs_past hread]
  | reloc r next rp => rw [makerelocs_reloc (h.trans hread), makerelocs_reloc hread]

/-- An entry, and what follows. -/
lemma makerelocs_entry (location : ℕ) (e : Entry) (rest : List UInt8) :
    makerelocs location (e.bytes ++ rest) =
      (makerelocs ((location + e.distance 32) % 65536) rest).map
        (((e.target.map (WsReloc.mk location)).toList.map WsReloc.low) ++ ·) := by
  cases h : e.target with
  | none =>
      rw [makerelocs_congr (readreloc_skip h)]
      exact (congrFun Option.map_id (makerelocs _ rest)).symm
  | some t => exact makerelocs_reloc (readreloc_target h)

lemma makerelocs_stream (location : ℕ) (es : List Entry) (rest : List UInt8) :
    makerelocs location (stream es ++ rest) =
      some ((table 32 65536 location es).map WsReloc.low) := by
  induction es generalizing location with
  | nil => exact makerelocs_done readreloc_zero
  | cons e es ih =>
      rw [stream_cons, List.append_assoc, makerelocs_entry, ih, table, List.map_append]
      rfl

/-- Fewer bytes than the stream are not enough. -/
lemma makerelocs_short (location : ℕ) {es : List Entry} {q : List UInt8} (h : q <+: stream es)
    (hne : q ≠ stream es) : makerelocs location q = none := by
  induction es generalizing location q with
  | nil =>
      rcases List.prefix_cons_iff.mp h with rfl | ⟨t, rfl, ht⟩
      · exact makerelocs_past (by rw [readreloc])
      · rw [List.prefix_nil.mp ht] at hne
        exact absurd rfl hne
  | cons e es ih =>
      rw [stream_cons] at h hne
      by_cases hcut : q <+: e.bytes ∧ q ≠ e.bytes
      · exact makerelocs_past (readreloc_short hcut.1 hcut.2)
      · -- the entry is there
        have hentry : e.bytes <+: q := by
          rcases List.prefix_or_prefix_of_prefix h (List.prefix_append _ _) with hq | hq
          · by_contra hno
            exact hcut ⟨hq, fun heq => hno (heq ▸ List.prefix_rfl)⟩
          · exact hq
        obtain ⟨q, rfl⟩ := hentry
        rw [List.prefix_append_right_inj] at h
        have hne' : q ≠ stream es := fun heq => hne (by rw [heq])
        rw [makerelocs_entry, ih _ h hne']
        rfl

/-- What the calls of `readreloc` come to. -/
lemma consumes_stream (location : ℕ) (es : List Entry) :
    Consumes (makerelocs location) (stream es) ((table 32 65536 location es).map WsReloc.low) :=
  ⟨makerelocs_stream location es, fun _ => makerelocs_short location⟩

end

/-! ## Where that is the table -/

/-- The calls of `readreloc` give the list of the table. -/
def Decodes (bias location : ℕ) (es : List Entry) : Prop :=
  Consumes (makerelocs location) (stream es) (table bias 65536 location es)

/-- The number of two-byte skips. -/
def Entry.far : Entry → ℕ
  | .pages _ _ => 1
  | _ => 0

/-- Wherever something is relocated, the two-byte skips before it, `d` bytes each, come to a multiple
of 64K. -/
def Level (d : ℕ) : ℕ → List Entry → Prop
  | _, [] => True
  | k, e :: es => (e.target ≠ none → d * k % 65536 = 0) ∧ Level d (k + e.far) es

section

variable {e : Entry} {es : List Entry} {bias d k location location' : ℕ}

lemma level_zero (k : ℕ) (es : List Entry) : Level 0 k es := by
  induction es generalizing k with
  | nil => exact trivial
  | cons e es ih => exact ⟨fun _ => by rw [Nat.zero_mul], ih _⟩

lemma Entry.distance_eq (h : bias + d = 32) : e.distance 32 = e.distance bias + d * e.far := by
  cases e with
  | pages n next =>
      rw [distance, distance, far]
      omega
  | _ => rfl

/-- The places differ by what the two-byte skips differ. -/
lemma table_iff (hd : bias + d = 32) (hl : location = (location' + d * k) % 65536)
    (hl' : location' < 65536) :
    (table 32 65536 location es).map WsReloc.low = table bias 65536 location' es ↔
      (∀ e ∈ es, ∀ t, e.target = some t → t.low = t) ∧ Level d k es := by
  induction es generalizing location location' k with
  | nil => exact iff_of_true rfl ⟨fun e he => absurd he List.not_mem_nil, trivial⟩
  | cons e es ih =>
      have hdist := Entry.distance_eq (e := e) hd
      have hk : d * (k + e.far) = d * k + d * e.far := Nat.mul_add _ _ _
      have hrest : (table 32 65536 ((location + e.distance 32) % 65536) es).map WsReloc.low =
          table bias 65536 ((location' + e.distance bias) % 65536) es ↔
            (∀ e ∈ es, ∀ t, e.target = some t → t.low = t) ∧ Level d (k + e.far) es :=
        ih (by omega) (by omega)
      rw [table, table, List.map_append, List.forall_mem_cons, Level]
      cases ht : e.target with
      | none =>
          refine hrest.trans ⟨fun h => ⟨⟨fun t ht => ?_, h.1⟩, fun hne => absurd rfl hne, h.2⟩,
            fun h => ⟨h.1.2, h.2.2⟩⟩
          cases ht
      | some t =>
          have hplace : location = location' ↔ d * k % 65536 = 0 := by omega
          have hhead : (WsReloc.mk location t).low = ⟨location', t⟩ ↔
              t.low = t ∧ d * k % 65536 = 0 := by
            rw [WsReloc.low, WsReloc.mk.injEq, hplace]
            exact and_comm
          refine (List.cons.injEq _ _ _ _).to_iff.trans ?_
          rw [hhead]
          refine (and_congr_right fun _ => hrest).trans ?_
          constructor
          · rintro ⟨⟨hlow, hzero⟩, hes, hlevel⟩
            refine ⟨⟨fun t' h => ?_, hes⟩, fun _ => hzero, hlevel⟩
            cases h
            exact hlow
          · rintro ⟨⟨hlow, hes⟩, hzero, hlevel⟩
            exact ⟨⟨hlow t rfl, hzero (Option.some_ne_none t)⟩, hes, hlevel⟩

lemma low_iff : (∀ e ∈ es, ∀ t, e.target = some t → t.low = t) ↔
    ∀ n next, Entry.doubly n next ∈ es → 256 * n.val + 175 + next.toNat < 256 := by
  constructor
  · intro h n next hmem
    have hlow := h _ hmem _ rfl
    rw [Target.low, Target.symbol.injEq] at hlow
    omega
  · intro h e he t ht
    cases e with
    | doubly n next =>
        cases ht
        exact congrArg Target.symbol (Nat.mod_eq_of_lt (h n next he))
    | short n =>
        cases ht
        exact congrArg Target.symbol (Nat.mod_eq_of_lt (by omega))
    | extended n =>
        cases ht
        exact congrArg Target.symbol (Nat.mod_eq_of_lt (by omega))
    | _ => cases ht <;> rfl

lemma decodes_iff (hd : bias + d = 32) (hl : location < 65536) :
    Decodes bias location es ↔
      (∀ n next, Entry.doubly n next ∈ es → 256 * n.val + 175 + next.toNat < 256) ∧
        Level d 0 es := by
  have htable : (table 32 65536 location es).map WsReloc.low = table bias 65536 location es ↔
      (∀ e ∈ es, ∀ t, e.target = some t → t.low = t) ∧ Level d 0 es :=
    table_iff hd (by omega) hl
  rw [low_iff] at htable
  rw [← htable]
  constructor
  · intro h
    have hread := h.1 []
    rw [makerelocs_stream, Option.some.injEq] at hread
    exact hread
  · intro h
    have hread := consumes_stream location es
    rw [h] at hread
    exact hread

end

/-- **What `readreloc` decodes.**  With the 32 bytes that a distance of two bytes is short of: each
stream in which the doubly extended indices fit into a byte.  If the words of the table are taken as
they stand, nothing may be relocated behind a two-byte skip either. -/
theorem stream_iff (location : UInt16) (es : List Entry) :
    (Decodes 32 location.toNat es ↔
      ∀ n next, Entry.doubly n next ∈ es → 256 * n.val + 175 + next.toNat < 256) ∧
    (Decodes 0 location.toNat es ↔
      (∀ n next, Entry.doubly n next ∈ es → 256 * n.val + 175 + next.toNat < 256) ∧
        Level 32 0 es) := by
  have hl := location.toNat_lt
  exact ⟨(decodes_iff rfl hl).trans (and_iff_left (level_zero 0 es)), decodes_iff rfl hl⟩

/-- The index 430 comes out as 174. -/
theorem doubly_wraps : ¬∀ (location : UInt16) (es : List Entry),
    Decodes 32 location.toNat es ∨ Decodes 0 location.toNat es := by
  intro h
  rcases h 0 [.doubly 0 255] with h | h
  · exact absurd (((stream_iff 0 [.doubly 0 255]).1.mp h) 0 255 List.mem_cons_self) (by decide)
  · exact absurd (((stream_iff 0 [.doubly 0 255]).2.mp h).1 0 255 List.mem_cons_self) (by decide)

end Obj

end Micronix
