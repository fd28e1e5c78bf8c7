import Mathlib.Data.List.Basic
import Mathlib.Data.Int.Notation
import Mathlib.Tactic.SplitIfs

/-!
# Relocations of Whitesmiths' object files

The assembler writes the places that the loader has to adjust as a string of bytes: how far it is
from the last place to the next one, and what to add there (`relocOut`, `asz`).  `nm` and the
disassembler read it back one relocation at a time (`readreloc`, `whitesmith.c`), and
`makerelocs` reads all of them.

* bytes 1 to 31 and the pairs that start with 32 to 63 are distances;
* from 64 on, the upper six bits are what to add: a segment, or a symbol by its index, which the
  code 252 continues in one or two more bytes.
-/

namespace Micronix

namespace Obj

/-- `SEG_*`. -/
inductive Seg
  | undef
  | text
  | data
  | bss
  | abs
  | ext
  deriving DecidableEq, Repr

/-- A symbol, as far as relocations need it. -/
structure Symbol where
  seg : Seg
  /-- the ordinal in the object file -/
  index : ℕ
  deriving DecidableEq, Repr

/-- A relocation of the assembler. -/
structure Reloc where
  /-- where the fixup goes -/
  addr : ℕ
  /-- what it contains -/
  sym : Symbol
  deriving DecidableEq, Repr

/-- What stands in the file of a number is its low byte. -/
def outbyte (n : ℤ) : UInt8 :=
  UInt8.ofNat (n % 256).toNat

/-- The bytes of the distance to the next place. -/
def outBump (bump : ℤ) : List UInt8 :=
  if 8223 ≤ bump then 0x3f :: 0xff :: outBump (bump - 8223)
  else if 32 ≤ bump then [outbyte ((bump - 32) / 256 + 32), outbyte ((bump - 32) % 256)]
  else if bump ≠ 0 then [outbyte bump]
  else []
termination_by bump.toNat

/-- The bytes of what to add. -/
def outControl (sym : Symbol) : List UInt8 :=
  match sym.seg with
  | .undef => []
  | .abs => [0x40]
  | .text => [0x44]
  | .data => [0x48]
  | .bss => [0x4c]
  | .ext =>
      if sym.index < 47 then [outbyte ((sym.index + 16) * 4)]
      else if sym.index < 175 then [0xfc, outbyte (sym.index - 47)]
      else [0xfc, outbyte ((sym.index - 175) / 256 + 0x80), outbyte (sym.index - 175)]

/-- The loop of `reloc_out`. -/
def outLoop (base : ℕ) : ℤ → List Reloc → List UInt8
  | _, [] => [0]
  | last, r :: rs => outBump (r.addr - last) ++ (outControl r.sym ++ outLoop base (base + 2) rs)

/-- `reloc_out`. -/
def relocOut (r : List Reloc) (base : ℕ) : List UInt8 :=
  outLoop base base r

/-- What to add: `REL_TEXTOFF`, `REL_DATAOFF`, `REL_BSSOFF` or `REL_SYMBOL` with its value. -/
inductive Target
  | text
  | data
  | bss
  | symbol (value : ℕ)
  deriving DecidableEq, Repr

/-- A relocation as it is read back. -/
structure WsReloc where
  offset : ℕ
  target : Target
  deriving DecidableEq, Repr

/-- What one call of `readreloc` comes to. -/
inductive Read
  /-- no more relocations -/
  | done
  /-- a relocation, the location after it and the bytes that follow -/
  | reloc (r : WsReloc) (location : ℕ) (rp : List UInt8)
  /-- the bytes end in the middle -/
  | past
  deriving Repr

/-- The `index` of `readreloc`, a byte: the four codes of segments come first. -/
def readSymbol (location control : ℕ) (rp : List UInt8) : Read :=
  let found (value : ℕ) (rp : List UInt8) :=
    Read.reloc ⟨location, .symbol value⟩ ((location + 2) % 65536) rp
  let control := (control + 252) % 256
  if control = 43 then
    match rp with
    | [] => .past
    | b :: rp =>
        if b.toNat < 128 then found ((b.toNat + 43) % 256) rp
        else
          match rp with
          | [] => .past
          | c :: rp => found (((b.toNat - 128) * 256 + 175 + c.toNat) % 256) rp
  else found control rp

section

variable {location control : ℕ} {b c : UInt8} {rp : List UInt8}

lemma readSymbol_short (h : (control + 252) % 256 ≠ 43) :
    readSymbol location control rp =
      .reloc ⟨location, .symbol ((control + 252) % 256)⟩ ((location + 2) % 65536) rp := by
  rw [readSymbol.eq_def]
  exact if_neg h

lemma readSymbol_byte (h : b.toNat < 128) :
    readSymbol location 47 (b :: rp) =
      .reloc ⟨location, .symbol ((b.toNat + 43) % 256)⟩ ((location + 2) % 65536) rp := by
  rw [readSymbol.eq_def]
  exact if_pos h

lemma readSymbol_word (h : ¬b.toNat < 128) :
    readSymbol location 47 (b :: c :: rp) =
      .reloc ⟨location, .symbol (((b.toNat - 128) * 256 + 175 + c.toNat) % 256)⟩
        ((location + 2) % 65536) rp := by
  rw [readSymbol.eq_def]
  exact if_neg h

end

/-- `readreloc`. -/
def readreloc : ℕ → List UInt8 → Read
  | _, [] => .past
  | location, control :: rp =>
      if control = 0 then .done
      else if control.toNat < 32 then readreloc ((location + control.toNat) % 65536) rp
      else if control.toNat < 64 then
        match rp with
        | [] => .past
        | b :: rp =>
            readreloc ((location + (32 + 256 * (control.toNat - 32)) + b.toNat) % 65536) rp
      else
        let control := (control.toNat - 64) / 4
        let found (target : Target) := Read.reloc ⟨location, target⟩ ((location + 2) % 65536) rp
        if control = 1 then found .text
        else if control = 2 then found .data
        else if control = 3 then found .bss
        else readSymbol location control rp

section

variable {location : ℕ} {control b : UInt8} {rp : List UInt8}

lemma readreloc_zero : readreloc location (0 :: rp) = .done := by
  rw [readreloc.eq_def]
  exact if_pos rfl

/-- A distance of one byte. -/
lemma readreloc_near (h : control ≠ 0) (hlt : control.toNat < 32) :
    readreloc location (control :: rp) = readreloc ((location + control.toNat) % 65536) rp := by
  rw [readreloc.eq_def]
  dsimp only
  rw [if_neg h, if_pos hlt]

/-- A distance of two bytes. -/
lemma readreloc_page (hle : 32 ≤ control.toNat) (hlt : control.toNat < 64) :
    readreloc location (control :: b :: rp) =
      readreloc ((location + (32 + 256 * (control.toNat - 32)) + b.toNat) % 65536) rp := by
  have h : control ≠ 0 := fun h => absurd (h ▸ hle) (by decide)
  rw [readreloc.eq_def]
  dsimp only
  rw [if_neg h, if_neg (by omega), if_pos hlt]

/-- A place. -/
lemma readreloc_type {n : ℕ} (hc : control.toNat = (n + 16) * 4) :
    readreloc location (control :: rp) =
      if n = 1 then .reloc ⟨location, .text⟩ ((location + 2) % 65536) rp
      else if n = 2 then .reloc ⟨location, .data⟩ ((location + 2) % 65536) rp
      else if n = 3 then .reloc ⟨location, .bss⟩ ((location + 2) % 65536) rp
      else readSymbol location n rp := by
  have hn : (control.toNat - 64) / 4 = n := by omega
  have h : control ≠ 0 := by
    rintro rfl
    rw [UInt8.toNat_zero] at hc
    omega
  rw [readreloc.eq_def]
  dsimp only
  rw [if_neg h, if_neg (by omega), if_neg (by omega), hn]

end

/-- A relocation takes at least one byte. -/
lemma readreloc_shorter {location : ℕ} {bytes : List UInt8} {r : WsReloc} {next : ℕ}
    {rp : List UInt8} (h : readreloc location bytes = .reloc r next rp) :
    rp.length < bytes.length := by
  fun_induction readreloc location bytes with
  | case1 => cases h
  | case2 => cases h
  | case3 location control rp _ _ ih => exact Nat.lt_succ_of_lt (ih h)
  | case4 => cases h
  | case5 location control _ _ _ b rp ih =>
      exact Nat.lt_succ_of_lt (Nat.lt_succ_of_lt (ih h))
  | case6 =>
      cases h
      exact Nat.lt_succ_self _
  | case7 =>
      cases h
      exact Nat.lt_succ_self _
  | case8 =>
      cases h
      exact Nat.lt_succ_self _
  | case9 location control rp =>
      simp only [readSymbol] at h
      split_ifs at h
      · cases rp with
        | nil => cases h
        | cons b rp =>
            dsimp only at h
            split_ifs at h
            · cases h
              exact Nat.lt_add_of_pos_right (Nat.succ_pos 1)
            · cases rp with
              | nil => cases h
              | cons c rp =>
                  cases h
                  exact Nat.lt_add_of_pos_right (Nat.succ_pos 2)
      · cases h
        exact Nat.lt_succ_self _

/-- The loop of `makerelocs`. -/
def makerelocs (location : ℕ) (relocp : List UInt8) : Option (List WsReloc) :=
  match _h : readreloc location relocp with
  | .done => some []
  | .past => none
  | .reloc r location rp => (makerelocs location rp).map (r :: ·)
termination_by relocp.length
decreasing_by exact readreloc_shorter ‹_›

lemma makerelocs_done {location : ℕ} {relocp : List UInt8} (h : readreloc location relocp = .done) :
    makerelocs location relocp = some [] := by
  rw [makerelocs]
  split <;> simp_all

lemma makerelocs_past {location : ℕ} {relocp : List UInt8} (h : readreloc location relocp = .past) :
    makerelocs location relocp = none := by
  rw [makerelocs]
  split <;> simp_all

lemma makerelocs_reloc {location next : ℕ} {relocp rp : List UInt8} {r : WsReloc}
    (h : readreloc location relocp = .reloc r next rp) :
    makerelocs location relocp = (makerelocs next rp).map (r :: ·) := by
  rw [makerelocs]
  split <;> simp_all

end Obj

end Micronix
