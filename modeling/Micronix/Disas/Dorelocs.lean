import Micronix.Disas.Symbols
import Micronix.Obj.Getwsreloc

/-!
# Symbol relocation in the disassembler

`dorelocs` (`disas.c`) puts the value of a symbol to each place that the file relocates by one.  What
the file gives is an index into its table; what `dorelocs` looks into is the array of `add_sym`, which
has the symbols of the symbol file first, and of the table only the entries of three kinds whose names
are new.  `relocated_iff` says when the two come to the same.
-/

namespace Micronix

namespace Disas

open Obj (outbyte WsType getwsrelocs stream Entry.Plain WsReloc)

/-- `codebuf` -/
abbrev Codebuf := ℕ → UInt8

def wordat (codebuf : Codebuf) (addr : ℕ) : ℕ :=
  (codebuf (addr + 1)).toNat * 256 + (codebuf addr).toNat

def setword (codebuf : Codebuf) (addr : ℕ) (new : ℤ) : Codebuf :=
  Function.update (Function.update codebuf addr (outbyte new)) (addr + 1) (outbyte (new / 256))

/-- What `main` makes of an object file: the header, the table and the two streams. -/
structure Object where
  textoff : ℕ
  text : ℕ
  dataoff : ℕ
  data : ℕ
  bss : ℕ
  table : List Entry
  textRelocs : List Obj.Entry
  dataRelocs : List Obj.Entry

def ROUNDUP (x : ℕ) : ℕ := (x + 255) % 65536 / 256 * 256

namespace Object

/-- The bases of `SEG_TEXT`, `SEG_DATA`, `SEG_BSS` and `SEG_UNDEF` when `SEG_ZERO` has a length of 256. -/
def textBase (o : Object) : ℕ := (o.textoff + 0x100) % 65536

def dataBase (o : Object) : ℕ := (o.dataoff + 0x100) % 65536

def bssBase (o : Object) : ℕ := ROUNDUP (o.dataBase + o.data)

def undefBase (o : Object) : ℕ := ROUNDUP (o.bssBase + o.bss)

end Object

/-- One turn of the loop of `dorelocs`; none if there is no symbol. -/
def relocate (o : Object) (symtab : List Sym) (codebuf : Codebuf) (r : ℕ × WsType) : Option Codebuf :=
  let wswhere := r.1 % 65536
  match r.2 with
  | .text => some (setword codebuf wswhere (wordat codebuf wswhere - o.textoff + o.textBase))
  | .data => some (setword codebuf wswhere (wordat codebuf wswhere - o.dataoff + o.dataBase))
  | .sym wssym => symtab[wssym]?.map fun s => setword codebuf wswhere s.value
  | _ => some codebuf

/-- `dorelocs`: the buffer and the rest of the file. -/
def dorelocs (o : Object) (symtab : List Sym) (base : ℕ) (codebuf : Codebuf) (file : List UInt8) :
    Option (Codebuf × List UInt8) :=
  let r := getwsrelocs base file
  (r.1.foldlM (relocate o symtab) codebuf).map fun codebuf => (codebuf, r.2)

/-- The symbols are loaded and both streams are worked off. -/
def loadObject (o : Object) (earlier : List Sym) (codebuf : Codebuf) : Option (Symbols × Codebuf) := do
  let t ← load earlier o.undefBase o.table
  let (codebuf, file) ←
    dorelocs o t.symtab o.textBase codebuf (stream o.textRelocs ++ stream o.dataRelocs)
  let (codebuf, _) ← dorelocs o t.symtab o.dataBase codebuf file
  some (t, codebuf)

/-! ## What should come out -/

namespace Object

/-- The places of both streams. -/
def relocs (o : Object) : List WsReloc :=
  Obj.table 32 (2 ^ 32) o.textBase o.textRelocs ++ Obj.table 32 (2 ^ 32) o.dataBase o.dataRelocs

/-- After loading, each place that is relocated by a symbol of the table holds the value that the
disassembler has for it. -/
def Relocated (o : Object) (earlier : List Sym) (codebuf : Codebuf) : Prop :=
  ∃ t codebuf', loadObject o earlier codebuf = some (t, codebuf') ∧
    ∀ r ∈ o.relocs, ∀ index, r.target = .symbol index → ∀ e, o.table[index]? = some e →
      ∃ v, findSymbol t.syms e.name = some v ∧ wordat codebuf' r.offset = v % 65536

/-- The disassembler reads the streams as they are written (`agrees_iff`), and no two places share a
byte. -/
structure Readable (o : Object) : Prop where
  plain : ∀ e ∈ o.textRelocs ++ o.dataRelocs, e.Plain
  below : ∀ r ∈ o.relocs, r.offset + 1 < 65536
  apart : o.relocs.Pairwise fun r r' => r.offset + 2 ≤ r'.offset ∨ r'.offset + 2 ≤ r.offset

/-- The first symbols of all names fill the array as far as any index goes, and the one at an index of
the table has the value that the name there has. -/
def Aligned (o : Object) (earlier : List Sym) : Prop :=
  let all := added earlier o.undefBase o.table
  (firsts all).length ≤ MAX_SYMS ∧
    ∀ r ∈ o.relocs, ∀ index, r.target = .symbol index → ∃ x, (firsts all)[index]? = some x ∧
      ∀ e, o.table[index]? = some e →
        ∃ v, findSymbol all e.name = some v ∧ v % 65536 = x.value % 65536

end Object

/-! ## The places -/

section

variable {o : Object} {symtab : List Sym} {codebuf codebuf' : Codebuf} {l : List WsReloc}

lemma toNat_outbyte_mod (n : ℕ) : (outbyte n).toNat = n % 256 := by
  have hmod : ((n : ℤ) % 256).toNat = n % 256 := by omega
  rw [outbyte, hmod, Obj.toNat_ofNat (Nat.mod_lt _ (by omega))]

lemma wordat_setword (codebuf : Codebuf) (addr value : ℕ) :
    wordat (setword codebuf addr value) addr = value % 65536 := by
  have hhigh : (value : ℤ) / 256 = (value / 256 : ℕ) := by omega
  rw [wordat, setword, Function.update_self, Function.update_of_ne (by omega), Function.update_self,
    hhigh, toNat_outbyte_mod, toNat_outbyte_mod]
  omega

lemma setword_of_ne {addr a : ℕ} (h : a ≠ addr) (h' : a ≠ addr + 1) (new : ℤ) :
    setword codebuf addr new a = codebuf a := by
  rw [setword, Function.update_of_ne h', Function.update_of_ne h]

lemma wordat_congr {addr : ℕ} (h : codebuf addr = codebuf' addr)
    (h' : codebuf (addr + 1) = codebuf' (addr + 1)) : wordat codebuf addr = wordat codebuf' addr := by
  rw [wordat, wordat, h, h']

/-- A relocation that has its symbol: what it writes. -/
lemma relocate_some (o : Object) (codebuf : Codebuf) {r : WsReloc} (hr : r.offset + 1 < 65536)
    (hsym : ∀ index, r.target = .symbol index → ∃ x, symtab[index]? = some x) :
    ∃ codebuf', relocate o symtab codebuf r.ws = some codebuf' ∧
      (∀ index x, r.target = .symbol index → symtab[index]? = some x →
        wordat codebuf' r.offset = x.value % 65536) ∧
      ∀ a, a ≠ r.offset → a ≠ r.offset + 1 → codebuf' a = codebuf a := by
  obtain ⟨offset, target⟩ := r
  have hmod : offset % 65536 = offset := Nat.mod_eq_of_lt (by dsimp only at hr; omega)
  have hwrite : ∀ new a, a ≠ offset → a ≠ offset + 1 →
      setword codebuf (offset % 65536) new a = codebuf a := fun new a h h' =>
    setword_of_ne (hmod.symm ▸ h) (hmod.symm ▸ h') new
  cases target with
  | text => exact ⟨_, rfl, fun _ _ h => (nomatch h), hwrite _⟩
  | data => exact ⟨_, rfl, fun _ _ h => (nomatch h), hwrite _⟩
  | bss => exact ⟨_, rfl, fun _ _ h => (nomatch h), fun _ _ _ => rfl⟩
  | symbol index =>
      obtain ⟨x, hx⟩ := hsym index rfl
      refine ⟨setword codebuf (offset % 65536) x.value, ?_, ?_, hwrite _⟩
      · exact (congrArg (Option.map _) hx)
      · intro index' x' hi hx'
        cases hi
        rw [hx, Option.some.injEq] at hx'
        rw [← hx', hmod]
        exact wordat_setword _ _ _

/-- All relocations of a list have their symbols. -/
lemma foldlM_relocate (hb : ∀ r ∈ l, r.offset + 1 < 65536)
    (ha : l.Pairwise fun r r' => r.offset + 2 ≤ r'.offset ∨ r'.offset + 2 ≤ r.offset)
    (hsym : ∀ r ∈ l, ∀ index, r.target = .symbol index → ∃ x, symtab[index]? = some x)
    (codebuf : Codebuf) :
    ∃ codebuf', (l.map WsReloc.ws).foldlM (relocate o symtab) codebuf = some codebuf' ∧
      (∀ r ∈ l, ∀ index x, r.target = .symbol index → symtab[index]? = some x →
        wordat codebuf' r.offset = x.value % 65536) ∧
      ∀ a, (∀ r ∈ l, a ≠ r.offset ∧ a ≠ r.offset + 1) → codebuf' a = codebuf a := by
  induction l generalizing codebuf with
  | nil => exact ⟨codebuf, rfl, fun _ hr => absurd hr List.not_mem_nil, fun _ _ => rfl⟩
  | cons r l ih =>
      rw [List.pairwise_cons] at ha
      rw [List.forall_mem_cons] at hb hsym
      obtain ⟨codebuf₁, hone, hword, hsame⟩ := relocate_some o codebuf hb.1 hsym.1
      obtain ⟨codebuf₂, hrest, hwords, hsames⟩ := ih hb.2 ha.2 hsym.2 codebuf₁
      refine ⟨codebuf₂, ?_, ?_, ?_⟩
      · rw [List.map_cons, List.foldlM_cons, hone]
        exact hrest
      · rw [List.forall_mem_cons]
        refine ⟨fun index x ht hx => ?_, hwords⟩
        -- the later ones leave it
        have hkept : ∀ a, a = r.offset ∨ a = r.offset + 1 → codebuf₂ a = codebuf₁ a := by
          intro a hor
          refine hsames a fun r' hr' => ?_
          have := ha.1 r' hr'
          omega
        rw [wordat_congr (hkept _ (Or.inl rfl)) (hkept _ (Or.inr rfl))]
        exact hword index x ht hx
      · intro a hother
        rw [List.forall_mem_cons] at hother
        rw [hsames a hother.2, hsame a hother.1.1 hother.1.2]

/-- One has none. -/
lemma foldlM_relocate_none {r : WsReloc} (hr : r ∈ l) {index : ℕ} (ht : r.target = .symbol index)
    (hx : symtab[index]? = none) (codebuf : Codebuf) :
    (l.map WsReloc.ws).foldlM (relocate o symtab) codebuf = none := by
  induction l generalizing codebuf with
  | nil => exact absurd hr List.not_mem_nil
  | cons r' l ih =>
      rw [List.map_cons, List.foldlM_cons]
      rcases List.mem_cons.mp hr with rfl | hmem
      · have hnone : relocate o symtab codebuf r.ws = none := by
          rw [relocate, WsReloc.ws, ht]
          exact congrArg (Option.map _) hx
        rw [hnone]
        rfl
      · cases relocate o symtab codebuf r'.ws with
        | none => rfl
        | some codebuf => exact ih hmem codebuf

/-- Both streams in one. -/
lemma loadObject_eq (h : o.Readable) (earlier : List Sym) (codebuf : Codebuf) :
    loadObject o earlier codebuf = (load earlier o.undefBase o.table).bind fun t =>
      ((o.relocs.map WsReloc.ws).foldlM (relocate o t.symtab) codebuf).map fun codebuf =>
        (t, codebuf) := by
  have htext := Obj.getwsrelocs_plain o.textBase (stream o.dataRelocs)
    fun e he => h.plain e (List.mem_append_left _ he)
  have hdata := Obj.getwsrelocs_plain o.dataBase []
    fun e he => h.plain e (List.mem_append_right _ he)
  rw [List.append_nil] at hdata
  rw [loadObject]
  refine congrArg _ (funext fun t => ?_)
  rw [dorelocs, htext, Object.relocs, List.map_append, List.foldlM_append]
  dsimp only
  cases (List.map WsReloc.ws (Obj.table 32 (2 ^ 32) o.textBase o.textRelocs)).foldlM
    (relocate o t.symtab) codebuf with
  | none => rfl
  | some codebuf =>
      simp only [Option.map_some, Option.bind_eq_bind, Option.bind_some, dorelocs, hdata]
      cases (List.map WsReloc.ws (Obj.table 32 (2 ^ 32) o.dataBase o.dataRelocs)).foldlM
        (relocate o t.symtab) codebuf <;> rfl

end

/-- **The places hold the values of their symbols** exactly if the array and the table of the file are
aligned, in every file whose streams the disassembler reads. -/
theorem relocated_iff {o : Object} (h : o.Readable) (earlier : List Sym) (codebuf : Codebuf) :
    o.Relocated earlier codebuf ↔ o.Aligned earlier := by
  have hload := load_spec earlier o.undefBase o.table
  have hobject := loadObject_eq h earlier codebuf
  by_cases hroom : (firsts (added earlier o.undefBase o.table)).length ≤ MAX_SYMS
  · rw [if_pos hroom] at hload
    obtain ⟨t, ht, hsymtab, hfind⟩ := hload
    rw [ht, Option.bind_some] at hobject
    constructor
    · rintro ⟨t', codebuf', hrun, hwords⟩
      rw [hobject] at hrun
      obtain ⟨codebuf₁, hfold, heq⟩ := Option.map_eq_some_iff.mp hrun
      cases heq
      have hsym : ∀ r ∈ o.relocs, ∀ index, r.target = .symbol index →
          ∃ x, t.symtab[index]? = some x := fun r hr index htarget => by
        by_contra hnone
        rw [not_exists] at hnone
        rw [foldlM_relocate_none hr htarget (Option.eq_none_iff_forall_ne_some.mpr hnone)] at hfold
        cases hfold
      obtain ⟨codebuf₂, hfold', hword, -⟩ := foldlM_relocate h.below h.apart hsym codebuf
      rw [hfold, Option.some.injEq] at hfold'
      subst hfold'
      refine ⟨hroom, fun r hr index htarget => ?_⟩
      obtain ⟨x, hx⟩ := hsym r hr index htarget
      refine ⟨x, hsymtab ▸ hx, fun e he => ?_⟩
      obtain ⟨v, hv, heq⟩ := hwords r hr index htarget e he
      exact ⟨v, hfind e.name ▸ hv, heq.symm.trans (hword r hr index x htarget hx)⟩
    · rintro ⟨-, haligned⟩
      have hsym : ∀ r ∈ o.relocs, ∀ index, r.target = .symbol index →
          ∃ x, t.symtab[index]? = some x := fun r hr index htarget => by
        obtain ⟨x, hx, -⟩ := haligned r hr index htarget
        exact ⟨x, hsymtab ▸ hx⟩
      obtain ⟨codebuf', hfold, hword, -⟩ := foldlM_relocate h.below h.apart hsym codebuf
      rw [hfold, Option.map_some] at hobject
      refine ⟨t, codebuf', hobject, fun r hr index htarget e he => ?_⟩
      obtain ⟨x, hx, hvalue⟩ := haligned r hr index htarget
      obtain ⟨v, hv, heq⟩ := hvalue e he
      refine ⟨v, hfind e.name ▸ hv, ?_⟩
      rw [hword r hr index x htarget (hsymtab ▸ hx), heq]
  · rw [if_neg hroom] at hload
    rw [hload] at hobject
    refine iff_of_false (fun hrun => ?_) fun haligned => hroom haligned.1
    obtain ⟨t, codebuf', hrun, -⟩ := hrun
    rw [hobject] at hrun
    cases hrun

/-- A file with one symbol, and a word of the text that is relocated by it. -/
def oneSymbol : Object where
  textoff := 0
  text := 4
  dataoff := 4
  data := 0
  bss := 0
  table := [⟨0x102, 0xd, "main"⟩]
  textRelocs := [.short 0]
  dataRelocs := []

lemma oneSymbol_relocs : oneSymbol.relocs = [⟨0x100, .symbol 0⟩] := by decide

lemma oneSymbol_readable : oneSymbol.Readable where
  plain := by decide
  below := by
    intro r hr
    rw [oneSymbol_relocs, List.mem_singleton] at hr
    subst hr
    decide
  apart := oneSymbol_relocs ▸ List.pairwise_singleton _ _

/-- Without a symbol file the word holds the value of the symbol. -/
theorem relocated_alone : oneSymbol.Relocated [] fun _ => 0 := by
  refine (relocated_iff oneSymbol_readable [] fun _ => 0).mpr ⟨by decide, fun r hr index ht => ?_⟩
  rw [oneSymbol_relocs, List.mem_singleton] at hr
  subst hr
  cases ht
  refine ⟨⟨"main", 0x102⟩, by decide, fun e he => ?_⟩
  cases he
  exact ⟨0x102, by decide, rfl⟩

/-- With another symbol in the symbol file it holds the value of that one. -/
theorem relocated_after_another :
    ¬∀ (o : Object) (earlier : List Sym) (codebuf : Codebuf), o.Relocated earlier codebuf := by
  intro h
  have haligned := (relocated_iff oneSymbol_readable [⟨"x", 0x40⟩] fun _ => 0).mp (h _ _ _)
  obtain ⟨x, hx, hvalue⟩ := haligned.2 ⟨0x100, .symbol 0⟩ (by decide) 0 rfl
  obtain ⟨v, hv, heq⟩ := hvalue ⟨0x102, 0xd, "main"⟩ rfl
  cases hx
  cases hv
  exact absurd heq (by decide)

end Disas

end Micronix
