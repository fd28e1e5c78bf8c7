import Micronix.Obj.Format
import Mathlib.Order.Basic
import Mathlib.Tactic.Common
import Mathlib.Algebra.Group.Nat.Defs

/-!
# The disassembler's reader of relocations

`getwsreloc` (`disas.c`) reads the same streams as `readreloc`, from the file.  It asks for the code
of an extended index, 47, after it has taken 4 off, so that it never finds one: what is 252 for it is
the symbol 43, and the bytes that follow are control bytes.  The two come to the same exactly on the
streams without extended indices whose places are below 64K (`agrees_iff`).
-/

namespace Micronix

namespace Obj

/-- `nextbyte`: 0 behind the end of the file. -/
def nextbyte : List UInt8 → ℕ × List UInt8
  | [] => (0, [])
  | b :: file => (b.toNat, file)

/-- `WS_BIAS` to `WS_SYM`, with `wssym`. -/
inductive WsType
  | bias
  | text
  | data
  | bss
  | sym (wssym : ℕ)
  deriving DecidableEq, Repr

/-- What one call of `getwsreloc` comes to. -/
inductive Ws
  /-- `WS_END`, and the rest of the file -/
  | done (file : List UInt8)
  /-- `wswhere`, the type, `wscursor` after it and the rest of the file -/
  | reloc (wswhere : ℕ) (type : WsType) (wscursor : ℕ) (file : List UInt8)
  deriving Repr

/-- The word that a control byte names, `control` being what is left of it in a byte. -/
def wsType (control : ℕ) (file : List UInt8) : WsType × List UInt8 :=
  match control with
  | 0 => (.bias, file)
  | 1 => (.text, file)
  | 2 => (.data, file)
  | 3 => (.bss, file)
  | control + 4 =>
      if control = 47 then
        let (control, file) := nextbyte file
        if control < 128 then (.sym (control + 128), file)
        else
          let (low, file) := nextbyte file
          (.sym (175 + (control - 128) * 256 + low), file)
      else (.sym control, file)

/-- `getwsreloc`.  The cursor is an int of 32 bits. -/
def getwsreloc : ℕ → List UInt8 → Ws
  | _, [] => .done []
  | wscursor, control :: file =>
      if control = 0 then .done file
      else if control.toNat < 32 then getwsreloc ((wscursor + control.toNat) % 2 ^ 32) file
      else if control.toNat < 64 then
        match file with
        | [] => .done []
        | b :: file =>
            getwsreloc ((wscursor + (32 + (control.toNat - 32) * 256 + b.toNat)) % 2 ^ 32) file
      else
        let next := (wscursor + if control.toNat.testBit 1 then 4 else 2) % 2 ^ 32
        let (type, file) := wsType ((control.toNat - 64) / 4) file
        .reloc wscursor type next file

lemma nextbyte_length (file : List UInt8) : (nextbyte file).2.length ≤ file.length := by
  cases file with
  | nil => exact Nat.le_refl _
  | cons b file => exact Nat.le_succ _

/-- The word, if nothing is extended. -/
def plainType : ℕ → WsType
  | 0 => .bias
  | 1 => .text
  | 2 => .data
  | 3 => .bss
  | control + 4 => .sym control

/-- Of the bits of a control byte 47 is never left. -/
lemma wsType_eq {control : ℕ} (h : control < 48) (file : List UInt8) :
    wsType control file = (plainType control, file) := by
  match control, h with
  | 0, _ => rfl
  | 1, _ => rfl
  | 2, _ => rfl
  | 3, _ => rfl
  | control + 4, h =>
      rw [wsType]
      exact if_neg (by omega)

section

variable {wscursor : ℕ} {control b : UInt8} {file : List UInt8}

lemma getwsreloc_zero : getwsreloc wscursor (0 :: file) = .done file := by
  rw [getwsreloc.eq_def]
  exact if_pos rfl

lemma getwsreloc_near (h : control ≠ 0) (hlt : control.toNat < 32) :
    getwsreloc wscursor (control :: file) =
      getwsreloc ((wscursor + control.toNat) % 2 ^ 32) file := by
  rw [getwsreloc.eq_def]
  dsimp only
  rw [if_neg h, if_pos hlt]

lemma getwsreloc_page (hle : 32 ≤ control.toNat) (hlt : control.toNat < 64) :
    getwsreloc wscursor (control :: b :: file) =
      getwsreloc ((wscursor + (32 + (control.toNat - 32) * 256 + b.toNat)) % 2 ^ 32) file := by
  have h : control ≠ 0 := fun h => absurd (h ▸ hle) (by decide)
  rw [getwsreloc.eq_def]
  dsimp only
  rw [if_neg h, if_neg (by omega), if_pos hlt]

lemma getwsreloc_type (hle : 64 ≤ control.toNat) :
    getwsreloc wscursor (control :: file) =
      .reloc wscursor (plainType ((control.toNat - 64) / 4))
        ((wscursor + if control.toNat.testBit 1 then 4 else 2) % 2 ^ 32) file := by
  have h : control ≠ 0 := fun h => absurd (h ▸ hle) (by decide)
  have hlt := control.toNat_lt
  rw [getwsreloc.eq_def]
  dsimp only
  rw [if_neg h, if_neg (by omega), if_neg (by omega), wsType_eq (by omega)]

end

/-- A relocation takes at least one byte. -/
lemma getwsreloc_shorter {wscursor wswhere next : ℕ} {file rest : List UInt8} {type : WsType}
    (h : getwsreloc wscursor file = .reloc wswhere type next rest) : rest.length < file.length := by
  fun_induction getwsreloc wscursor file with
  | case1 => cases h
  | case2 => cases h
  | case3 wscursor control file _ _ ih => exact Nat.lt_succ_of_lt (ih h)
  | case4 => cases h
  | case5 wscursor control _ _ _ b file ih => exact Nat.lt_succ_of_lt (Nat.lt_succ_of_lt (ih h))
  | case6 wscursor control file _ _ hge next' type' file' htype =>
      have hlt := control.toNat_lt
      rw [wsType_eq (by omega)] at htype
      obtain ⟨-, -, -, rfl⟩ := Ws.reloc.inj h
      cases htype
      exact Nat.lt_succ_self _

/-- The calls of `getwsreloc` until `WS_END`, and the rest of the file. -/
def getwsrelocs (wscursor : ℕ) (file : List UInt8) : List (ℕ × WsType) × List UInt8 :=
  match _h : getwsreloc wscursor file with
  | .done rest => ([], rest)
  | .reloc wswhere type next rest =>
      let r := getwsrelocs next rest
      ((wswhere, type) :: r.1, r.2)
termination_by file.length
decreasing_by exact getwsreloc_shorter ‹_›

section

variable {wscursor wscursor' wswhere next : ℕ} {file file' rest : List UInt8} {type : WsType}

lemma getwsrelocs_done (h : getwsreloc wscursor file = .done rest) :
    getwsrelocs wscursor file = ([], rest) := by
  rw [getwsrelocs]
  split <;> simp_all

lemma getwsrelocs_reloc (h : getwsreloc wscursor file = .reloc wswhere type next rest) :
    getwsrelocs wscursor file =
      ((wswhere, type) :: (getwsrelocs next rest).1, (getwsrelocs next rest).2) := by
  rw [getwsrelocs]
  split <;> simp_all

lemma getwsrelocs_congr (h : getwsreloc wscursor file = getwsreloc wscursor' file') :
    getwsrelocs wscursor file = getwsrelocs wscursor' file' := by
  cases hread : getwsreloc wscursor' file' with
  | done rest => rw [getwsrelocs_done (h.trans hread), getwsrelocs_done hread]
  | reloc wswhere type next rest =>
      rw [getwsrelocs_reloc (h.trans hread), getwsrelocs_reloc hread]

end

/-! ## Where the readers agree -/

def Target.wsType : Target → WsType
  | .text => .text
  | .data => .data
  | .bss => .bss
  | .symbol value => .sym value

/-- A relocation as `getwsreloc` has it. -/
def WsReloc.ws (r : WsReloc) : ℕ × WsType := (r.offset, r.target.wsType)

/-- Both readers come to the same list and take just the stream. -/
def Agrees (location : ℕ) (es : List Entry) : Prop :=
  ∃ relocs, Consumes (makerelocs location) (stream es) relocs ∧
    ∀ rest, getwsrelocs location (stream es ++ rest) = (relocs.map WsReloc.ws, rest)

/-- Not 252. -/
def Entry.Plain : Entry → Prop
  | .extended _ => False
  | .doubly _ _ => False
  | _ => True

instance : DecidablePred Entry.Plain := fun e =>
  match e with
  | .extended _ => .isFalse id
  | .doubly _ _ => .isFalse id
  | .skip _ => .isTrue trivial
  | .pages _ _ => .isTrue trivial
  | .text => .isTrue trivial
  | .data => .isTrue trivial
  | .bss => .isTrue trivial
  | .short _ => .isTrue trivial

section

variable {wscursor wswhere next location : ℕ} {file rest : List UInt8} {type : WsType} {e : Entry}
  {es : List Entry}

lemma getwsreloc_skip (h : e.target = none) :
    getwsreloc wscursor (e.bytes ++ rest) =
      getwsreloc ((wscursor + e.distance 32) % 2 ^ 32) rest := by
  cases e with
  | skip n =>
      have hn := toNat_ofNat (show n.val + 1 < 256 by omega)
      have hne : UInt8.ofNat (n + 1) ≠ 0 := fun h => by simp [h] at hn
      rw [Entry.bytes, List.singleton_append, getwsreloc_near hne (by omega), hn, Entry.distance]
  | pages n next =>
      have hn := toNat_ofNat (show n.val + 32 < 256 by omega)
      have hdist : 32 + (n.val + 32 - 32) * 256 + next.toNat = 32 + 256 * n.val + next.toNat := by
        omega
      rw [Entry.bytes, List.cons_append, List.singleton_append,
        getwsreloc_page (by omega) (by omega), hn, hdist, Entry.distance]
  | _ => cases h

/-- A control byte whose low bits are clear. -/
lemma getwsreloc_control {control : UInt8} {n : ℕ} (hc : control.toNat = (n + 16) * 4) :
    getwsreloc wscursor (control :: file) =
      .reloc wscursor (plainType n) ((wscursor + 2) % 2 ^ 32) file := by
  have hn : (control.toNat - 64) / 4 = n := by omega
  have hbit : control.toNat.testBit 1 = false := by
    rw [Nat.testBit_eq_decide_div_mod_eq, hc, decide_eq_false_iff_not]
    omega
  rw [getwsreloc_type (by omega), hn, hbit]
  rfl

lemma getwsreloc_plain {t : Target} (h : e.target = some t) (hp : e.Plain) :
    getwsreloc wscursor (e.bytes ++ rest) =
      .reloc wscursor t.wsType ((wscursor + e.distance 32) % 2 ^ 32) rest := by
  cases e with
  | skip n => cases h
  | pages n next => cases h
  | text =>
      cases h
      exact getwsreloc_control (n := 1) rfl
  | data =>
      cases h
      exact getwsreloc_control (n := 2) rfl
  | bss =>
      cases h
      exact getwsreloc_control (n := 3) rfl
  | short n =>
      cases h
      have hn := toNat_ofNat (show 80 + 4 * n.val < 256 by omega)
      exact getwsreloc_control (n := n + 4) (by omega)
  | extended n => exact hp.elim
  | doubly n next => exact hp.elim

/-- A stream without 252. -/
lemma getwsrelocs_plain (wscursor : ℕ) (rest : List UInt8) (hp : ∀ e ∈ es, e.Plain) :
    getwsrelocs wscursor (stream es ++ rest) =
      ((table 32 (2 ^ 32) wscursor es).map WsReloc.ws, rest) := by
  induction es generalizing wscursor with
  | nil => exact getwsrelocs_done getwsreloc_zero
  | cons e es ih =>
      have hrest := ih ((wscursor + e.distance 32) % 2 ^ 32)
        fun e' he => hp e' (List.mem_cons_of_mem _ he)
      rw [stream_cons, List.append_assoc, table]
      cases ht : e.target with
      | none =>
          rw [getwsrelocs_congr (getwsreloc_skip ht), hrest]
          rfl
      | some t =>
          rw [getwsrelocs_reloc (getwsreloc_plain ht (hp e List.mem_cons_self)), hrest]
          rfl

/-! ## Extended indices -/

/-- A type that `getwsreloc` comes to. -/
lemma getwsreloc_found (h : getwsreloc wscursor file = .reloc wswhere type next rest) :
    ∃ n < 48, type = plainType n := by
  fun_induction getwsreloc wscursor file with
  | case1 => cases h
  | case2 => cases h
  | case3 wscursor control file _ _ ih => exact ih h
  | case4 => cases h
  | case5 wscursor control _ _ _ b file ih => exact ih h
  | case6 wscursor control file _ _ hge next' type' file' htype =>
      have hlt := control.toNat_lt
      rw [wsType_eq (by omega)] at htype
      obtain ⟨-, rfl, -, -⟩ := Ws.reloc.inj h
      cases htype
      exact ⟨_, by omega, rfl⟩

lemma mem_table {bias modulus : ℕ} (h : e ∈ es) {t : Target} (ht : e.target = some t) :
    ∃ r ∈ table bias modulus location es, r.target = t := by
  induction es generalizing location with
  | nil => exact absurd h List.not_mem_nil
  | cons e' es ih =>
      rw [table]
      rcases List.mem_cons.mp h with rfl | hmem
      · rw [ht]
        exact ⟨⟨location, t⟩, List.mem_cons_self, rfl⟩
      · have hrest : ∃ r ∈ table bias modulus ((location + e'.distance bias) % modulus) es,
            r.target = t := ih hmem
        obtain ⟨r, hr, htarget⟩ := hrest
        exact ⟨r, List.mem_append_right _ hr, htarget⟩

/-- No symbol beyond 43 is ever found. -/
lemma getwsrelocs_sym {v : ℕ} (h : (wswhere, .sym v) ∈ (getwsrelocs wscursor file).1) : v < 44 := by
  fun_induction getwsrelocs wscursor file with
  | case1 => exact absurd h List.not_mem_nil
  | case2 wscursor file wswhere' type next rest hread r ih =>
      rcases List.mem_cons.mp h with heq | hmem
      · obtain ⟨n, hn, htype⟩ := getwsreloc_found hread
        cases heq
        match n, hn, htype with
        | n + 4, hn, htype =>
            cases htype
            omega
      · exact ih hmem

/-- The extended indices that both could read as symbols up to 43. -/
def Entry.Tame : Entry → Prop
  | .extended n => n.val = 0
  | .doubly _ next => 81 ≤ next.toNat ∧ next.toNat ≤ 124
  | _ => True

/-- Of these `getwsreloc` makes too many relocations, or stops too early. -/
lemma getwsrelocs_tame (rest : List UInt8) (wscursor location : ℕ) (ht : ∀ e ∈ es, e.Tame) :
    rest.length < (getwsrelocs wscursor (stream es ++ rest)).2.length ∨
      (table 32 65536 location es).length ≤
          (getwsrelocs wscursor (stream es ++ rest)).1.length ∧
        ((getwsrelocs wscursor (stream es ++ rest)).1.length ≤
          (table 32 65536 location es).length → ∀ e ∈ es, e.Plain) := by
  induction es generalizing wscursor location with
  | nil => exact Or.inr ⟨Nat.zero_le _, fun _ e he => absurd he List.not_mem_nil⟩
  | cons e es ih =>
      have hrest := fun wscursor => ih wscursor ((location + e.distance 32) % 65536)
        fun e' he => ht e' (List.mem_cons_of_mem _ he)
      rw [stream_cons, List.append_assoc, table, List.forall_mem_cons]
      by_cases hp : e.Plain
      · cases htarget : e.target with
        | none =>
            rw [getwsrelocs_congr (getwsreloc_skip htarget)]
            exact (hrest _).imp_right fun h => ⟨h.1, fun hle => ⟨hp, h.2 hle⟩⟩
        | some t =>
            rw [getwsrelocs_reloc (getwsreloc_plain htarget hp)]
            exact (hrest _).imp_right fun h => ⟨Nat.succ_le_succ h.1,
              fun hle => ⟨hp, h.2 (Nat.le_of_succ_le_succ hle)⟩⟩
      · have htame := ht e List.mem_cons_self
        cases e with
        | extended n =>
            -- the byte 0 that follows is taken for the end
            have hn : n.val = 0 := htame
            have hend : getwsrelocs wscursor ((Entry.extended n).bytes ++ (stream es ++ rest)) =
                ([(wscursor, .sym 43)], stream es ++ rest) := by
              have hzero : UInt8.ofNat 0 = 0 := rfl
              rw [Entry.bytes, hn, hzero, List.cons_append, List.singleton_append,
                getwsrelocs_reloc (getwsreloc_control (n := 47) rfl),
                getwsrelocs_done getwsreloc_zero]
              rfl
            left
            rw [hend, List.length_append, stream, List.length_append, List.length_singleton]
            omega
        | doubly n next =>
            -- three relocations instead of one
            have hn := toNat_ofNat (show n.val + 128 < 256 by omega)
            have hnext : 64 ≤ next.toNat := by
              have : 81 ≤ next.toNat := htame.1
              omega
            rw [Entry.bytes, List.cons_append, List.cons_append, List.singleton_append,
              getwsrelocs_reloc (getwsreloc_control (n := 47) rfl),
              getwsrelocs_reloc (getwsreloc_type (by omega)),
              getwsrelocs_reloc (getwsreloc_type hnext)]
            refine (hrest _).imp_right fun h => ?_
            have htable : ((Entry.target (.doubly n next)).map (WsReloc.mk location)).toList.length = 1 :=
              rfl
            rw [List.length_append, htable, List.length_cons, List.length_cons, List.length_cons]
            have hmore := h.1
            exact ⟨by omega, fun hle => absurd hle (by omega)⟩
        | _ => exact absurd trivial hp

/-- What the readers agree on is tame. -/
lemma Agrees.tame (h : Agrees location es) : ∀ e ∈ es, e.Tame := by
  obtain ⟨relocs, hread, hws⟩ := h
  have hrelocs := hread.1 []
  rw [makerelocs_stream, Option.some.injEq] at hrelocs
  have hlt : ∀ r ∈ table 32 65536 location es, ∀ v, r.target.low = .symbol v → v < 44 := by
    intro r hr v hv
    have hsym : (r.offset, .sym v) ∈ (getwsrelocs location (stream es ++ [])).1 := by
      rw [hws []]
      refine List.mem_map.mpr ⟨r.low, hrelocs ▸ List.mem_map_of_mem hr, ?_⟩
      rw [WsReloc.ws, WsReloc.low, hv]
      rfl
    exact getwsrelocs_sym hsym
  intro e he
  cases e with
  | extended n =>
      obtain ⟨r, hr, htarget⟩ := mem_table he (t := .symbol (n + 43)) rfl
      have hlow := hlt r hr ((n + 43) % 256) (by rw [htarget]; rfl)
      show n.val = 0
      omega
  | doubly n next =>
      obtain ⟨r, hr, htarget⟩ := mem_table he (t := .symbol (256 * n + 175 + next.toNat)) rfl
      have hlow := hlt r hr ((256 * n + 175 + next.toNat) % 256) (by rw [htarget]; rfl)
      have hnext := next.toNat_lt
      show 81 ≤ next.toNat ∧ next.toNat ≤ 124
      omega
  | _ => exact trivial

lemma Agrees.plain (h : Agrees location es) : ∀ e ∈ es, e.Plain := by
  have htame := h.tame
  obtain ⟨relocs, hread, hws⟩ := h
  have hrelocs := hread.1 []
  rw [makerelocs_stream, Option.some.injEq] at hrelocs
  have hcount := getwsrelocs_tame [] location location htame
  rw [hws [], ← hrelocs, List.length_map, List.length_map] at hcount
  rcases hcount with hlt | hcount
  · exact absurd hlt (Nat.lt_irrefl _)
  · exact hcount.2 (Nat.le_refl _)

/-! ## Places in 16 and in 32 bits -/

def WsReloc.short (r : WsReloc) : WsReloc := { r with offset := r.offset % 65536 }

lemma table_short (wscursor : ℕ) (es : List Entry) :
    table 32 65536 (wscursor % 65536) es =
      (table 32 (2 ^ 32) wscursor es).map WsReloc.short := by
  induction es generalizing wscursor with
  | nil => rfl
  | cons e es ih =>
      have hnext : (wscursor % 65536 + e.distance 32) % 65536 =
          (wscursor + e.distance 32) % 2 ^ 32 % 65536 := by omega
      rw [table, table, List.map_append, hnext, ih]
      cases e.target <;> rfl

/-- Without 252 a byte holds the index. -/
lemma map_low_of_plain (hp : ∀ e ∈ es, e.Plain) (hl : location < 65536) :
    (table 32 65536 location es).map WsReloc.low = table 32 65536 location es :=
  (table_iff (d := 0) (k := 0) rfl (by omega) hl).mpr
    ⟨low_iff.mpr fun _ _ hmem => (hp _ hmem).elim, level_zero 0 es⟩

/-- The lists are the same if the places are. -/
lemma lists_iff (hp : ∀ e ∈ es, e.Plain) (hl : location < 65536) :
    ((table 32 65536 location es).map WsReloc.low).map WsReloc.ws =
        (table 32 (2 ^ 32) location es).map WsReloc.ws ↔
      ∀ r ∈ table 32 (2 ^ 32) location es, r.offset < 65536 := by
  have hshort := table_short location es
  rw [Nat.mod_eq_of_lt hl] at hshort
  rw [map_low_of_plain hp hl, hshort, List.map_map, List.map_inj_left]
  refine forall₂_congr fun r _ => ?_
  rw [Function.comp_apply, WsReloc.ws, WsReloc.ws, Prod.mk.injEq]
  show r.offset % 65536 = r.offset ∧ _ ↔ _
  have hplace : r.offset % 65536 = r.offset ↔ r.offset < 65536 := by omega
  rw [hplace]
  exact and_iff_left rfl

end

/-- **The two readers agree** exactly on the streams without extended indices in which every place is
below 64K. -/
theorem agrees_iff (location : UInt16) (es : List Entry) :
    Agrees location.toNat es ↔
      (∀ e ∈ es, e.Plain) ∧ ∀ r ∈ table 32 (2 ^ 32) location.toNat es, r.offset < 65536 := by
  constructor
  · intro h
    have hp := h.plain
    obtain ⟨relocs, hread, hws⟩ := h
    have hrelocs := hread.1 []
    have hlist := hws []
    rw [makerelocs_stream, Option.some.injEq] at hrelocs
    rw [getwsrelocs_plain _ _ hp, ← hrelocs] at hlist
    exact ⟨hp, (lists_iff hp location.toNat_lt).mp (congrArg Prod.fst hlist).symm⟩
  · rintro ⟨hp, hplace⟩
    refine ⟨_, consumes_stream _ es, fun rest => ?_⟩
    rw [getwsrelocs_plain _ _ hp, (lists_iff hp location.toNat_lt).mpr hplace]

/-- The symbol 48 in two bytes: the disassembler has 43, and skips five bytes. -/
theorem extended_differs : ¬∀ (location : UInt16) (es : List Entry), Agrees location.toNat es := by
  intro h
  exact ((agrees_iff 0 [.extended 5]).mp (h 0 [.extended 5])).1 _ List.mem_cons_self

end Obj

end Micronix
