import Micronix.Obj.Reloc
import Mathlib.Tactic.NormNum

/-!
# What is read back of relocations

Every table that the assembler writes can be read: `readBack` is the list that comes out
(`makerelocs_relocOut`).  It is the list that went in (`reloc_round_trip`) only as long as nothing
depends on two things that the writer gets wrong: the distance to the next place is taken from
`base + 2` instead of from two behind the last place, and the index of a symbol stands there without
the four codes of the segments that the reader takes off.
-/

namespace Micronix

namespace Obj

/-- The target of a symbol, if it has one. -/
def Symbol.target (sym : Symbol) : Option Target :=
  match sym.seg with
  | .undef => none
  | .abs => none
  | .text => some .text
  | .data => some .data
  | .bss => some .bss
  | .ext => some (.symbol sym.index)

/-- A segment, or a symbol whose index has seven bits for its high part. -/
def Symbol.Fits (sym : Symbol) : Prop :=
  match sym.seg with
  | .undef => False
  | .abs => False
  | .ext => sym.index < 175 + 128 * 256
  | _ => True

instance (sym : Symbol) : Decidable sym.Fits :=
  match sym with
  | ⟨.undef, _⟩ => .isFalse id
  | ⟨.abs, _⟩ => .isFalse id
  | ⟨.text, _⟩ => .isTrue trivial
  | ⟨.data, _⟩ => .isTrue trivial
  | ⟨.bss, _⟩ => .isTrue trivial
  | ⟨.ext, index⟩ => inferInstanceAs (Decidable (index < 175 + 128 * 256))

/-- A symbol is kept if its index has two bytes and a zero high part. -/
def Symbol.Kept (sym : Symbol) : Prop :=
  sym.seg = .ext → 175 ≤ sym.index ∧ sym.index < 256

/-- Each place is behind the two bytes of the one before. -/
def Ascending : ℕ → List Reloc → Prop
  | _, [] => True
  | least, r :: rs => least ≤ r.addr ∧ r.addr < 65536 ∧ Ascending (r.addr + 2) rs

instance decidableAscending : ∀ least rs, Decidable (Ascending least rs)
  | _, [] => .isTrue trivial
  | _, r :: rs =>
      have := decidableAscending (r.addr + 2) rs
      inferInstanceAs (Decidable (_ ∧ _ ∧ _))

/-- The distances are right: the one to the first place always is, and the one to the second if the
first is at `base`. -/
def Placed (base : ℕ) : List Reloc → Prop
  | [] => True
  | [_] => True
  | [r, _] => r.addr = base
  | _ => False

/-! ## One relocation -/

lemma toNat_outbyte {n : ℕ} (h : n < 256) : (outbyte n).toNat = n := by
  have hmod : ((n : ℤ) % 256).toNat = n := by omega
  rw [outbyte, hmod, UInt8.toNat_ofNat_of_lt' h]

/-- The distance is skipped. -/
lemma readreloc_outBump {location d : ℕ} {rp : List UInt8} (hl : location < 65536) :
    readreloc location (outBump d ++ rp) = readreloc ((location + d) % 65536) rp := by
  induction d using Nat.strongRecOn generalizing location with
  | ind d ih =>
      rw [outBump]
      split_ifs with hfar hpage hnear
      · have hsub : (d : ℤ) - 8223 = ((d - 8223 : ℕ) : ℤ) := by omega
        have hlo : (0x3f : UInt8).toNat = 63 := rfl
        have hhi : (0xff : UInt8).toNat = 255 := rfl
        have hsum : ((location + (32 + 256 * (63 - 32)) + 255) % 65536 + (d - 8223)) % 65536
            = (location + d) % 65536 := by omega
        rw [hsub, List.cons_append, List.cons_append, readreloc_page (by decide) (by decide), hlo,
          hhi, ih (d - 8223) (by omega) (Nat.mod_lt _ (by decide)), hsum]
      · have hhi : ((d : ℤ) - 32) / 256 + 32 = (((d - 32) / 256 + 32 : ℕ) : ℤ) := by omega
        have hlo : ((d : ℤ) - 32) % 256 = (((d - 32) % 256 : ℕ) : ℤ) := by omega
        have hb : (outbyte (((d - 32) / 256 + 32 : ℕ) : ℤ)).toNat = (d - 32) / 256 + 32 :=
          toNat_outbyte (by omega)
        have hc : (outbyte (((d - 32) % 256 : ℕ) : ℤ)).toNat = (d - 32) % 256 :=
          toNat_outbyte (by omega)
        have hsum : location + (32 + 256 * ((d - 32) / 256 + 32 - 32)) + (d - 32) % 256
            = location + d := by omega
        rw [hhi, hlo, List.cons_append, List.cons_append, List.nil_append,
          readreloc_page (by omega) (by omega), hb, hc, hsum]
      · have hb : (outbyte (d : ℤ)).toNat = d := toNat_outbyte (by omega)
        have hne : outbyte (d : ℤ) ≠ 0 := by
          intro h
          rw [h] at hb
          exact hnear (by exact_mod_cast hb.symm)
        rw [List.cons_append, List.nil_append, readreloc_near hne (by omega), hb]
      · obtain rfl : d = 0 := by omega
        rw [List.nil_append, Nat.add_zero, Nat.mod_eq_of_lt hl]

/-- The byte of a segment or of one of the first 47 indices. -/
def code (n : ℕ) : Target :=
  if n = 0 then .symbol 252
  else if n = 1 then .text
  else if n = 2 then .data
  else if n = 3 then .bss
  else .symbol (n - 4)

lemma readreloc_code {location n : ℕ} {rp : List UInt8} (hn : n < 47) :
    readreloc location (outbyte ((n + 16) * 4 : ℕ) :: rp) =
      .reloc ⟨location, code n⟩ ((location + 2) % 65536) rp := by
  have hb : (outbyte ((n + 16) * 4 : ℕ)).toNat = (n + 16) * 4 := toNat_outbyte (by omega)
  rw [readreloc_type hb, code]
  rcases n with - | - | - | - | n
  · rfl
  · rfl
  · rfl
  · rfl
  · have hsub : (n + 4 + 252) % 256 = n + 4 - 4 := by omega
    rw [if_neg (by omega), if_neg (by omega), if_neg (by omega), if_neg (by omega),
      if_neg (by omega), if_neg (by omega), if_neg (by omega), readSymbol_short (by omega), hsub]

lemma readreloc_extend {location : ℕ} {rp : List UInt8} :
    readreloc location (0xfc :: rp) = readSymbol location 47 rp := by
  rw [readreloc_type (n := 47) rfl]
  rfl

/-- An index of one more byte. -/
lemma readreloc_byte {location n : ℕ} {rp : List UInt8} (hn : n < 128) :
    readreloc location (0xfc :: outbyte n :: rp) =
      .reloc ⟨location, .symbol (n + 43)⟩ ((location + 2) % 65536) rp := by
  have hb : (outbyte n).toNat = n := toNat_outbyte (by omega)
  have hmod : (n + 43) % 256 = n + 43 := by omega
  rw [readreloc_extend, readSymbol_byte (by omega), hb, hmod]

/-- An index of two more bytes is read modulo 256. -/
lemma readreloc_word {location n : ℕ} {rp : List UInt8} (hn : n < 128 * 256) :
    readreloc location (0xfc :: outbyte (n / 256 + 128 : ℕ) :: outbyte n :: rp) =
      .reloc ⟨location, .symbol ((175 + n) % 256)⟩ ((location + 2) % 65536) rp := by
  have hb : (outbyte (n / 256 + 128 : ℕ)).toNat = n / 256 + 128 := toNat_outbyte (by omega)
  have hc : (outbyte n).toNat = n % 256 := by
    have hmod : ((n : ℤ) % 256).toNat = n % 256 := by omega
    rw [outbyte, hmod, UInt8.toNat_ofNat_of_lt' (Nat.mod_lt _ (by decide))]
  have hsum : ((n / 256 + 128 - 128) * 256 + 175 + n % 256) % 256 = (175 + n) % 256 := by omega
  rw [readreloc_extend, readSymbol_word (by omega), hb, hc, hsum]

/-- What `readreloc` makes of the bytes of a symbol. -/
def Symbol.decoded (sym : Symbol) : Target :=
  match sym.seg with
  | .data => .data
  | .bss => .bss
  | .ext =>
      if sym.index < 47 then code sym.index
      else if sym.index < 175 then .symbol (sym.index - 4)
      else .symbol (sym.index % 256)
  | _ => .text

/-- The target is read, as far as its bytes say it. -/
lemma readreloc_outControl {sym : Symbol} (hf : sym.Fits) {location : ℕ} {rp : List UInt8} :
    readreloc location (outControl sym ++ rp) =
      .reloc ⟨location, sym.decoded⟩ ((location + 2) % 65536) rp := by
  obtain ⟨seg, index⟩ := sym
  cases seg with
  | undef => cases hf
  | abs => cases hf
  | text => exact readreloc_code (n := 1) (by decide)
  | data => exact readreloc_code (n := 2) (by decide)
  | bss => exact readreloc_code (n := 3) (by decide)
  | ext =>
      have hfit : index < 175 + 128 * 256 := hf
      dsimp only [outControl, Symbol.decoded]
      split_ifs with hone htwo
      · have hc : ((index : ℤ) + 16) * 4 = ((index + 16) * 4 : ℕ) := by omega
        rw [hc, List.singleton_append, readreloc_code hone]
      · have hc : (index : ℤ) - 47 = (index - 47 : ℕ) := by omega
        have hsum : index - 47 + 43 = index - 4 := by omega
        rw [hc, List.cons_append, List.singleton_append, readreloc_byte (by omega), hsum]
      · have hc : ((index : ℤ) - 175) / 256 + 0x80 = ((index - 175) / 256 + 128 : ℕ) := by omega
        have hd : (index : ℤ) - 175 = (index - 175 : ℕ) := by omega
        have hsum : 175 + (index - 175) = index := by omega
        rw [hc, hd, List.cons_append, List.cons_append, List.singleton_append,
          readreloc_word (by omega), hsum]

/-! ## The whole table -/

/-- The list that is read back of a table, by the location of the reader and the `last` of the
writer. -/
def readBack (base : ℕ) : ℕ → ℕ → List Reloc → List WsReloc
  | _, _, [] => []
  | location, last, r :: rs =>
      let place := (location + (r.addr - last)) % 65536
      ⟨place, r.sym.decoded⟩ :: readBack base ((place + 2) % 65536) (base + 2) rs

lemma Ascending.le {least : ℕ} {rs : List Reloc} (h : Ascending least rs) :
    ∀ r ∈ rs, least ≤ r.addr := by
  induction rs generalizing least with
  | nil => exact fun r hr => absurd hr List.not_mem_nil
  | cons q rs ih =>
      intro r hr
      rcases List.mem_cons.mp hr with rfl | hr
      · exact h.1
      · exact (Nat.le_add_right_of_le h.1).trans (ih h.2.2 r hr)

/-- The loop reads what the loop writes. -/
lemma makerelocs_outLoop {base location last : ℕ} {rs : List Reloc} (hl : location < 65536)
    (hlast : ∀ r ∈ rs, last ≤ r.addr) (htail : ∀ r ∈ rs.tail, base + 2 ≤ r.addr)
    (hf : ∀ r ∈ rs, r.sym.Fits) :
    makerelocs location (outLoop base last rs) = some (readBack base location last rs) := by
  induction rs generalizing location last with
  | nil => exact makerelocs_done readreloc_zero
  | cons r rs ih =>
      have hle : last ≤ r.addr := hlast r List.mem_cons_self
      have hbump : (r.addr : ℤ) - last = (r.addr - last : ℕ) := by omega
      have hread : readreloc location (outLoop base last (r :: rs)) =
          .reloc ⟨(location + (r.addr - last)) % 65536, r.sym.decoded⟩
            (((location + (r.addr - last)) % 65536 + 2) % 65536)
            (outLoop base (base + 2 : ℕ) rs) := by
        rw [outLoop, hbump, readreloc_outBump hl, readreloc_outControl (hf r List.mem_cons_self)]
        rfl
      rw [makerelocs_reloc hread, ih (Nat.mod_lt _ (by decide)) htail
        (fun q hq => htail q (List.mem_of_mem_tail hq)) fun q hq => hf q (List.mem_cons_of_mem _ hq)]
      rfl

/-- Every table can be read. -/
theorem makerelocs_relocOut {base : ℕ} {rs : List Reloc} (hb : base < 65536)
    (ha : Ascending base rs) (hf : ∀ r ∈ rs, r.sym.Fits) :
    makerelocs base (relocOut rs base) = some (readBack base base base rs) := by
  refine makerelocs_outLoop hb ha.le ?_ hf
  cases rs with
  | nil => exact fun r hr => absurd hr List.not_mem_nil
  | cons r rs =>
      intro q hq
      exact (Nat.add_le_add_right ha.1 2).trans (ha.2.2.le q hq)

/-- The indices that are read as they are written. -/
lemma decoded_iff {sym : Symbol} (hf : sym.Fits) : some sym.decoded = sym.target ↔ sym.Kept := by
  obtain ⟨seg, index⟩ := sym
  cases seg with
  | undef => cases hf
  | abs => cases hf
  | text => exact iff_of_true rfl fun h => by cases h
  | data => exact iff_of_true rfl fun h => by cases h
  | bss => exact iff_of_true rfl fun h => by cases h
  | ext =>
      dsimp only [Symbol.decoded, Symbol.target, Symbol.Kept]
      simp only [code, Option.some.injEq, forall_const]
      split_ifs <;> simp <;> omega

/-- A table of relocations as the assembler has it: at increasing addresses from the base of its
segment on, each against something that the format can express. -/
structure Table where
  base : ℕ
  relocs : List Reloc
  base_lt : base < 65536
  ascending : Ascending base relocs
  fits : ∀ r ∈ relocs, r.sym.Fits

/-- The bytes of a table in the file. -/
def Table.bytes (t : Table) : List UInt8 :=
  relocOut t.relocs t.base

/-- Where to add, and what. -/
def Reloc.entry (r : Reloc) : ℕ × Option Target :=
  (r.addr, r.sym.target)

def WsReloc.entry (r : WsReloc) : ℕ × Option Target :=
  (r.offset, some r.target)

/-- **Relocation round trip.**  What is read back of a table is the table, if and only if the
distances do not depend on `base + 2` and each index has two bytes and a zero high part. -/
theorem reloc_round_trip (t : Table) :
    (makerelocs t.base t.bytes).map (List.map WsReloc.entry) = some (t.relocs.map Reloc.entry) ↔
      Placed t.base t.relocs ∧ ∀ r ∈ t.relocs, r.sym.Kept := by
  obtain ⟨base, rs, hb, ha, hf⟩ := t
  have hread : makerelocs base (relocOut rs base) = some (readBack base base base rs) :=
    makerelocs_relocOut hb ha hf
  simp only [Table.bytes, hread, Option.map_some, Option.some.injEq]
  match rs with
  | [] => exact iff_of_true rfl ⟨trivial, fun r hr => absurd hr List.not_mem_nil⟩
  | [r] =>
      obtain ⟨hle, hlt, -⟩ := ha
      have hplace : (base + (r.addr - base)) % 65536 = r.addr := by omega
      have hsym := decoded_iff (hf r List.mem_cons_self)
      simp only [readBack, List.map_cons, List.map_nil, List.cons.injEq, and_true, WsReloc.entry,
        Reloc.entry, Prod.mk.injEq, hplace, true_and, hsym, Placed, List.forall_mem_singleton]
  | [r, q] =>
      obtain ⟨hle, hlt, hle', hlt', -⟩ := ha
      have hplace : (base + (r.addr - base)) % 65536 = r.addr := by omega
      have hnext : ((r.addr + 2) % 65536 + (q.addr - (base + 2))) % 65536 = q.addr ↔
          r.addr = base := by omega
      have hsym := decoded_iff (hf r List.mem_cons_self)
      have hsym' := decoded_iff (hf q (List.mem_cons_of_mem _ List.mem_cons_self))
      simp only [readBack, List.map_cons, List.map_nil, List.cons.injEq, and_true, WsReloc.entry,
        Reloc.entry, Prod.mk.injEq, hplace, hnext, true_and, hsym, hsym', Placed,
        List.forall_mem_cons]
      tauto
  | r :: q :: p :: rs =>
      obtain ⟨hle, hlt, hle', hlt', hle'', hlt'', -⟩ := ha
      refine iff_of_false (fun h => ?_) fun h => h.1
      have hplace : (base + (r.addr - base)) % 65536 = r.addr := by omega
      simp only [readBack, hplace, List.map_cons, List.cons.injEq, WsReloc.entry, Reloc.entry,
        Prod.mk.injEq] at h
      obtain ⟨-, ⟨hq, -⟩, ⟨hp, -⟩, -⟩ := h
      rw [hq] at hp
      omega

/-- Two places in the text, of which the first is not at its start. -/
def twoPlaces : Table where
  base := 0
  relocs := [⟨4, ⟨.text, 0⟩⟩, ⟨10, ⟨.text, 0⟩⟩]
  base_lt := by decide
  ascending := by decide
  fits := by decide

/-- The second place is read as 14. -/
theorem second_place_moves : ¬∀ t : Table,
    (makerelocs t.base t.bytes).map (List.map WsReloc.entry) =
      some (t.relocs.map Reloc.entry) := by
  intro h
  have hread : makerelocs twoPlaces.base twoPlaces.bytes = some (readBack 0 0 0 twoPlaces.relocs) :=
    makerelocs_relocOut twoPlaces.base_lt twoPlaces.ascending twoPlaces.fits
  have hback := h twoPlaces
  rw [hread] at hback
  exact absurd hback (by decide)

end Obj

end Micronix
