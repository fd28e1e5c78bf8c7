import Mathlib.Algebra.Group.Nat.Defs
import Mathlib.Tactic.Abel
import Micronix.Ld.Symbols

/-!
# The first pass of the link editor

What the first pass leaves of every module that it loads are its sizes and its global symbols.  `placed`
says where the segments of the modules come to be when they follow upon one another.  An entry of the
symbol table is the definition of one of these modules, relocated to its place, or undefined.  A module
of an archive that is not loaded leaves nothing, beside what it may have said about the size of a common
symbol.
-/

namespace Micronix

namespace Ld

/-! ## Places -/

namespace Rel

/-- What is added to the symbols of a module, when its segments come to be at `o`: in the module the
data follow upon the text, and the bss upon the data. -/
def own (o : Rel) (m : Object) : Rel := ⟨o.ctrel, o.cdrel - m.tsize, o.cbrel - (m.tsize + m.dsize)⟩

/-- Where the segments of the next module come to be. -/
def after (o : Rel) (m : Object) : Rel := ⟨o.ctrel + m.tsize, o.cdrel + m.dsize, o.cbrel + m.bsize⟩

end Rel

/-- Modules whose segments follow upon one another, from `o` on. -/
def placed : Rel → List Object → List (Object × Rel)
  | _, [] => []
  | o, m :: ms => (m, o.own m) :: placed (o.after m) ms

lemma placed_concat (o : Rel) (ms : List Object) (m : Object) :
    placed o (ms ++ [m]) = placed o ms ++ [(m, (ms.foldl Rel.after o).own m)] := by
  induction ms generalizing o with
  | nil => rfl
  | cons m' ms ih =>
      rw [List.cons_append, placed, placed, ih, List.cons_append]
      rfl

lemma placed_map_fst (o : Rel) (ms : List Object) : (placed o ms).map (·.1) = ms := by
  induction ms generalizing o with
  | nil => rfl
  | cons m ms ih => rw [placed, List.map_cons, ih]

/-- When the origins are moved so is everything. -/
lemma placed_add (o : Rel) (d b : Word) (ms : List Object) :
    placed ⟨o.ctrel, o.cdrel + d, o.cbrel + b⟩ ms =
      (placed o ms).map fun q => (q.1, ⟨q.2.ctrel, q.2.cdrel + d, q.2.cbrel + b⟩) := by
  induction ms generalizing o with
  | nil => rfl
  | cons m ms ih =>
      have hown : (⟨o.ctrel, o.cdrel + d, o.cbrel + b⟩ : Rel).own m =
          ⟨(o.own m).ctrel, (o.own m).cdrel + d, (o.own m).cbrel + b⟩ := by
        simp only [Rel.own, Rel.mk.injEq]
        exact ⟨trivial, by abel, by abel⟩
      have hafter : (⟨o.ctrel, o.cdrel + d, o.cbrel + b⟩ : Rel).after m =
          ⟨(o.after m).ctrel, (o.after m).cdrel + d, (o.after m).cbrel + b⟩ := by
        simp only [Rel.after, Rel.mk.injEq]
        exact ⟨trivial, by abel, by abel⟩
      rw [placed, placed, List.map_cons, hown, hafter, ih]

/-! ## Symbols -/

/-- A global symbol with a definition. -/
structure Symbol.Defines (c : Symbol) : Prop where
  global : c.stype &&& EXTERN ≠ 0
  defined : c.stype ≠ EXTERN + UNDEF

/-- The relocated definitions of modules. -/
def Defs (ps : List (Object × Rel)) (e : Symbol) : Prop :=
  ∃ q ∈ ps, ∃ c ∈ q.1.symbols, c.Defines ∧ e = symreloc q.2 c

/-- What an entry of the symbol table is: a definition (`D`), or undefined; it has a size only if its
name is that of a common symbol (`U`). -/
structure Entry (D : Symbol → Prop) (U : Name → Prop) (e : Symbol) : Prop where
  size : e.stype = EXTERN + UNDEF → e.svalue ≠ 0 → U e.sname
  defined : e.stype ≠ EXTERN + UNDEF → D e

/-- There is an entry for the symbol: a definition if it is one, unless it is taken for common; and if it
is not, no smaller than it. -/
structure Answers (U : Name → Prop) (c e : Symbol) : Prop where
  sname : e.sname = c.sname
  defined : c.stype ≠ EXTERN + UNDEF →
    e.stype ≠ EXTERN + UNDEF ∨ U c.sname ∧ c.stype = EXTERN + TEXT
  size : c.stype = EXTERN + UNDEF → e.stype = EXTERN + UNDEF →
    c.svalue.toInt16 ≤ e.svalue.toInt16

def Answered (U : Name → Prop) (symtab : List Symbol) (c : Symbol) : Prop :=
  ∃ e ∈ symtab, Answers U c e

/-- Entries keep their names, and stay what they are once they are defined; until then their sizes do
not get smaller. -/
structure Since (e e' : Symbol) : Prop where
  sname : e'.sname = e.sname
  defined : e.stype ≠ EXTERN + UNDEF → e' = e
  size : e'.stype = EXTERN + UNDEF → e.svalue.toInt16 ≤ e'.svalue.toInt16

/-- So it is with all entries, and there may be new ones. -/
def Later (l l' : List Symbol) : Prop :=
  ∀ (k : ℕ) (e : Symbol), l[k]? = some e → ∃ e' : Symbol, l'[k]? = some e' ∧ Since e e'

section

variable {D E : Symbol → Prop} {U : Name → Prop} {l l' l'' : List Symbol} {c e sp : Symbol} {rel : Rel}

/-- Relocation keeps the type of a symbol, or makes an absolute definition of it. -/
lemma symreloc_stype (rel : Rel) (c : Symbol) : (symreloc rel c).stype = c.stype ∨
    c.Defines ∧ c.stype ≠ EXTERN + TEXT ∧ (symreloc rel c).stype = EXTERN + ABS := by
  rw [symreloc]
  by_cases ht : c.stype = TEXT ∨ c.stype = EXTERN + TEXT
  · rw [if_pos ht]
    exact .inl rfl
  by_cases hd : c.stype = DATA ∨ c.stype = EXTERN + DATA
  · rw [if_neg ht, if_pos hd]
    exact .inl rfl
  by_cases hb : c.stype = BSS ∨ c.stype = EXTERN + BSS
  · rw [if_neg ht, if_neg hd, if_pos hb]
    exact .inl rfl
  rw [if_neg ht, if_neg hd, if_neg hb]
  by_cases hu : c.stype = EXTERN + UNDEF
  · rw [if_pos hu]
    exact .inl rfl
  rw [if_neg hu]
  by_cases hg : c.stype &&& EXTERN ≠ 0
  · rw [if_pos hg]
    exact .inr ⟨⟨hg, hu⟩, fun h => ht (.inr h), rfl⟩
  · rw [if_neg hg]
    exact .inl rfl

lemma symreloc_undef (rel : Rel) (c : Symbol) :
    (symreloc rel c).stype = EXTERN + UNDEF ↔ c.stype = EXTERN + UNDEF := by
  rcases symreloc_stype rel c with h | ⟨hc, -, h⟩
  · rw [h]
  · rw [h]
    exact iff_of_false (by decide) hc.defined

lemma symreloc_text (rel : Rel) (c : Symbol) :
    (symreloc rel c).stype = EXTERN + TEXT ↔ c.stype = EXTERN + TEXT := by
  rcases symreloc_stype rel c with h | ⟨-, ht, h⟩
  · rw [h]
  · rw [h]
    exact iff_of_false (by decide) ht

lemma symreloc_local (rel : Rel) (c : Symbol) :
    (symreloc rel c).stype &&& EXTERN = 0 ↔ c.stype &&& EXTERN = 0 := by
  rcases symreloc_stype rel c with h | ⟨hc, -, h⟩
  · rw [h]
  · rw [h]
    exact iff_of_false (by decide) hc.global

/-- An undefined symbol is not relocated. -/
lemma symreloc_of_undef (h : c.stype = EXTERN + UNDEF) : symreloc rel c = c := by
  rw [symreloc, if_neg (by rw [h]; decide), if_neg (by rw [h]; decide), if_neg (by rw [h]; decide),
    if_pos h]

lemma Entry.mono (h : Entry D U e) (hD : ∀ e, D e → E e) : Entry E U e :=
  ⟨h.size, fun hne => hD e (h.defined hne)⟩

/-- An entry and a symbol of its name. -/
lemma Entry.meet (h : Entry D U sp) (hn : sp.sname = c.sname)
    (hu : c.stype = EXTERN + UNDEF → c.svalue ≠ 0 → U c.sname)
    (hd : c.stype ≠ EXTERN + UNDEF → E c) :
    Entry (fun e => D e ∨ E e) U (meet c sp).1 ∧ ((meet c sp).2 = false → Entry D U (meet c sp).1) := by
  have hleft : ∀ e, D e → D e ∨ E e := fun _ => .inl
  rw [Ld.meet]
  by_cases hsp : sp.stype ≠ EXTERN + UNDEF
  · rw [if_pos hsp]
    exact ⟨h.mono hleft, fun _ => h⟩
  rw [if_neg hsp]
  have hsp' : sp.stype = EXTERN + UNDEF := not_not.mp hsp
  by_cases hc : c.stype = EXTERN + UNDEF
  · rw [if_pos hc]
    have hentry : Entry D U
        (if sp.svalue.toInt16 < c.svalue.toInt16 then { sp with svalue := c.svalue } else sp) := by
      by_cases hlt : sp.svalue.toInt16 < c.svalue.toInt16
      · rw [if_pos hlt]
        exact ⟨fun _ hne => hn ▸ hu hc hne, fun hne => absurd hsp' hne⟩
      · rw [if_neg hlt]
        exact h
    exact ⟨hentry.mono hleft, fun _ => hentry⟩
  rw [if_neg hc]
  by_cases ht : sp.svalue ≠ 0 ∧ c.stype = EXTERN + TEXT
  · rw [if_pos ht]
    exact ⟨h.mono hleft, fun _ => h⟩
  rw [if_neg ht]
  refine ⟨⟨fun hu => absurd hu hc, fun _ => .inr ?_⟩, fun hno => absurd hno.symm Bool.false_ne_true⟩
  have hself : ({ sp with stype := c.stype, svalue := c.svalue } : Symbol) = c := by
    rw [hn]
  rw [hself]
  exact hd hc

/-- And the symbol is answered then. -/
lemma meet_answers (h : Entry D U sp) (hn : sp.sname = c.sname) : Answers U c (meet c sp).1 := by
  rw [meet]
  by_cases hsp : sp.stype ≠ EXTERN + UNDEF
  · rw [if_pos hsp]
    exact ⟨hn, fun _ => .inl hsp, fun _ hu => absurd hu hsp⟩
  rw [if_neg hsp]
  by_cases hc : c.stype = EXTERN + UNDEF
  · rw [if_pos hc]
    by_cases hlt : sp.svalue.toInt16 < c.svalue.toInt16
    · rw [if_pos hlt]
      exact ⟨hn, fun hne => absurd hc hne, fun _ _ => Int16.le_refl _⟩
    · rw [if_neg hlt]
      exact ⟨hn, fun hne => absurd hc hne, fun _ _ => Int16.not_lt.mp hlt⟩
  rw [if_neg hc]
  by_cases ht : sp.svalue ≠ 0 ∧ c.stype = EXTERN + TEXT
  · rw [if_pos ht]
    exact ⟨hn, fun _ => .inr ⟨hn ▸ h.size (not_not.mp hsp) ht.1, ht.2⟩, fun hu => absurd hu hc⟩
  · rw [if_neg ht]
    exact ⟨hn, fun _ => .inl hc, fun hu => absurd hu hc⟩

/-- The entry is what it was, later. -/
lemma meet_since (c sp : Symbol) : Since sp (meet c sp).1 := by
  refine ⟨meet_sname c sp, fun hne => by rw [meet, if_pos hne], ?_⟩
  rw [meet]
  by_cases hsp : sp.stype ≠ EXTERN + UNDEF
  · rw [if_pos hsp]
    exact fun _ => Int16.le_refl _
  rw [if_neg hsp]
  by_cases hc : c.stype = EXTERN + UNDEF
  · rw [if_pos hc]
    by_cases hlt : sp.svalue.toInt16 < c.svalue.toInt16
    · rw [if_pos hlt]
      exact fun _ => Int16.le_of_lt hlt
    · rw [if_neg hlt]
      exact fun _ => Int16.le_refl _
  rw [if_neg hc]
  by_cases ht : sp.svalue ≠ 0 ∧ c.stype = EXTERN + TEXT
  · rw [if_pos ht]
    exact fun _ => Int16.le_refl _
  · rw [if_neg ht]
    exact fun hu => absurd hu hc

lemma Since.refl (e : Symbol) : Since e e := ⟨rfl, fun _ => rfl, fun _ => Int16.le_refl _⟩

lemma Since.trans {e' e'' : Symbol} (h : Since e e') (h' : Since e' e'') : Since e e'' := by
  by_cases hne : e.stype ≠ EXTERN + UNDEF
  · obtain rfl := h.defined hne
    exact h'
  · refine ⟨h'.sname.trans h.sname, fun h => absurd h hne, fun hu => ?_⟩
    by_cases hne' : e'.stype ≠ EXTERN + UNDEF
    · rw [h'.defined hne'] at hu
      exact absurd hu hne'
    · exact Int16.le_trans (h.size (not_not.mp hne')) (h'.size hu)

lemma Later.refl (l : List Symbol) : Later l l := fun _ e h => ⟨e, h, .refl e⟩

lemma Later.trans (h : Later l l') (h' : Later l' l'') : Later l l'' := by
  intro k e he
  obtain ⟨e', he', hs⟩ := h k e he
  obtain ⟨e'', he'', hs'⟩ := h' k e' he'
  exact ⟨e'', he'', hs.trans hs'⟩

lemma later_append (l l' : List Symbol) : Later l (l ++ l') := by
  intro k e he
  refine ⟨e, ?_, .refl e⟩
  rw [List.getElem?_append_left (List.getElem?_eq_some_iff.mp he).1, he]

lemma later_modify {f : Symbol → Symbol} {k : ℕ} (hf : ∀ e, l[k]? = some e → Since e (f e)) :
    Later l (l.modify k f) := by
  intro j e he
  by_cases hk : k = j
  · subst hk
    refine ⟨f e, ?_, hf e he⟩
    rw [List.getElem?_modify_eq, he]
    rfl
  · refine ⟨e, ?_, .refl e⟩
    rw [List.getElem?_modify_ne _ _ hk, he]

lemma Later.cons (h : Later l l') (hs : Since e sp) : Later (e :: l) (sp :: l') := by
  intro k e' he
  cases k with
  | zero =>
      obtain rfl := Option.some.inj he
      exact ⟨sp, rfl, hs⟩
  | succ k => exact h k e' he

lemma Later.take {n : ℕ} (h : Later l l') (hn : l.length ≤ n) : Later l (l'.take n) := by
  intro k e he
  obtain ⟨e', he', hrest⟩ := h k e he
  have hk := (List.getElem?_eq_some_iff.mp he).1
  exact ⟨e', by rw [List.getElem?_take, if_pos (by omega), he'], hrest⟩

lemma Answered.later (h : Answered U l c) (hl : Later l l') : Answered U l' c := by
  obtain ⟨e, he, ha⟩ := h
  obtain ⟨k, hk⟩ := List.mem_iff_getElem?.mp he
  obtain ⟨e', hk', hs⟩ := hl k e hk
  refine ⟨e', List.mem_of_getElem? hk', hs.sname.trans ha.sname, fun hc => ?_, fun hc hu => ?_⟩
  · refine (ha.defined hc).imp_left fun hne => ?_
    rw [hs.defined hne]
    exact hne
  · by_cases hne : e.stype ≠ EXTERN + UNDEF
    · rw [hs.defined hne] at hu
      exact absurd hu hne
    · exact Int16.le_trans (ha.size hc (not_not.mp hne)) (hs.size hu)

end

/-! ## The loop of `load1` -/

/-- What the loop leaves alone. -/
def Link.rest (s : Link) :
    Flags × List (Option ℕ) × Option ℕ × Word × Word × Word × Word × ℕ × List String :=
  (s.flags, s.liblist, s.entrypt, s.tsize, s.dsize, s.bsize, s.ssize, s.errlev, s.said)

/-- The state of the loop when it has been through the symbols `pre`: what is new comes from them, and
without `ndef` nothing has happened to the entries that were there before. -/
structure Scanning (D : Symbol → Prop) (U : Name → Prop) (rel : Rel) (s : Link) (pre : List Symbol)
    (p : Scan) : Prop where
  same : p.link.rest = s.rest
  hashed : p.link.Hashed
  grows : s.table.Grows (NSYM + 2) hash p.link.table
  later : Later s.symtab p.link.symtab
  entries : ∀ e ∈ p.link.symtab,
    Entry (fun e => D e ∨ ∃ c ∈ pre, c.Defines ∧ e = symreloc rel c) U e
  kept : p.ndef = 0 → ∀ k < s.symtab.length, ∀ e, p.link.symtab[k]? = some e → Entry D U e
  answered : ∀ c ∈ pre, c.stype &&& EXTERN ≠ 0 → discards s.flags c.stype = false →
    Answered U p.link.symtab c

section

variable {D : Symbol → Prop} {U : Name → Prop} {rel : Rel} {s : Link} {pre : List Symbol} {p : Scan}
  {c : Symbol}

lemma scanning_start (hs : s.Hashed) (hD : ∀ e ∈ s.symtab, Entry D U e) (n : Word) :
    Scanning D U rel s [] ⟨s, 0, n⟩ where
  same := rfl
  hashed := hs
  grows := .refl
  later := .refl _
  entries e he := (hD e he).mono fun _ => .inl
  kept _ _ _ e he := hD e (List.mem_of_getElem? he)
  answered := List.forall_mem_nil _

lemma scanning_step (h : Scanning D U rel s pre p)
    (hU : c.stype = EXTERN + UNDEF → c.svalue ≠ 0 → U c.sname) :
    Ends (scan rel p c) (Scanning D U rel s (pre ++ [c])) := by
  have hflags : p.link.flags = s.flags := congrArg Prod.fst h.same
  have hwiden : ∀ e, (D e ∨ ∃ c ∈ pre, c.Defines ∧ e = symreloc rel c) →
      D e ∨ ∃ c' ∈ pre ++ [c], c'.Defines ∧ e = symreloc rel c' := by
    rintro e (hD | ⟨c', hc', hrest⟩)
    · exact .inl hD
    · exact .inr ⟨c', List.mem_append_left _ hc', hrest⟩
  refine (scan_ends rel p c h.hashed).mono fun p' hp' => ?_
  cases hp' with
  | discarded hdis hsame =>
      subst hsame
      refine ⟨h.same, h.hashed, h.grows, h.later, fun e he => (h.entries e he).mono hwiden, h.kept, ?_⟩
      refine List.forall_mem_append.mpr ⟨h.answered, List.forall_mem_singleton.mpr fun _ hno => ?_⟩
      rw [← hflags, hdis] at hno
      cases hno
  | local_ hloc hlink hndef =>
      refine ⟨?_, ?_, ?_, ?_, ?_, ?_, ?_⟩
      all_goals rw [hlink]
      · exact h.same
      · exact h.hashed
      · exact h.grows
      · exact h.later
      · exact fun e he => (h.entries e he).mono hwiden
      · rw [hndef]
        exact h.kept
      · exact List.forall_mem_append.mpr
          ⟨h.answered, List.forall_mem_singleton.mpr fun hext => absurd hloc hext⟩
  | new hext habsent hroom hlink hndef =>
      have habs : p.link.at? (symreloc rel c).sname = none := by rwa [symreloc_sname]
      have hnew := List.mem_append_right pre (List.mem_singleton_self c)
      refine ⟨?_, ?_, ?_, ?_, ?_, ?_, ?_⟩
      all_goals rw [hlink]
      · exact h.same
      · exact h.hashed.push habs hroom
      · rw [Link.table_push]
        refine h.grows.push (h.hashed.at_none.mp habs) ?_
        show (p.link.symtab.map _).length < _
        rw [List.length_map]
        omega
      · exact h.later.trans (later_append _ _)
      · refine List.forall_mem_append.mpr ⟨fun e he => (h.entries e he).mono hwiden,
          List.forall_mem_singleton.mpr ⟨fun hu hne => ?_, fun hne => .inr ⟨c, hnew, ⟨hext, ?_⟩, rfl⟩⟩⟩
        · have hcu := (symreloc_undef rel c).mp hu
          rw [symreloc_of_undef hcu] at hne ⊢
          exact hU hcu hne
        · exact fun hcu => hne ((symreloc_undef rel c).mpr hcu)
      · rw [hndef]
        intro hz k hk e he
        obtain ⟨e', he', -⟩ := h.later k _ (List.getElem?_eq_getElem hk)
        have hlt := (List.getElem?_eq_some_iff.mp he').1
        refine h.kept hz k hk e ?_
        rw [← he]
        exact (List.getElem?_append_left hlt).symm
      · refine List.forall_mem_append.mpr
          ⟨fun c' hc' hext' hno => (h.answered c' hc' hext' hno).later (later_append _ _),
            List.forall_mem_singleton.mpr fun _ _ => ?_⟩
        refine ⟨symreloc rel c, List.mem_append_right _ (List.mem_singleton_self _),
          symreloc_sname rel c, fun hc => .inl fun hu => hc ((symreloc_undef rel c).mp hu), fun hc _ => ?_⟩
        rw [symreloc_of_undef hc]
        exact Int16.le_refl _
  | old hext k sp hfound hget hlink hndef =>
      have hn : sp.sname = (symreloc rel c).sname := by
        obtain ⟨sp', hget', hn'⟩ := h.hashed.get_of_at hfound
        obtain rfl : sp = sp' := Option.some.inj (hget.symm.trans hget')
        rw [hn', symreloc_sname]
      have hmem : sp ∈ p.link.symtab := List.mem_of_getElem? hget
      have hself : (p.link.symtab.modify k fun sp => (meet (symreloc rel c) sp).1)[k]? =
          some (meet (symreloc rel c) sp).1 := by
        rw [List.getElem?_modify_eq, hget]
        rfl
      have hsize : (symreloc rel c).stype = EXTERN + UNDEF → (symreloc rel c).svalue ≠ 0 →
          U (symreloc rel c).sname := by
        intro hu hne
        have hcu := (symreloc_undef rel c).mp hu
        rw [symreloc_of_undef hcu] at hne ⊢
        exact hU hcu hne
      have hdef : (symreloc rel c).stype ≠ EXTERN + UNDEF →
          c.Defines ∧ symreloc rel c = symreloc rel c :=
        fun hne => ⟨⟨hext, fun hu => hne ((symreloc_undef rel c).mpr hu)⟩, rfl⟩
      have hlater := later_modify (l := p.link.symtab) (k := k) fun sp _ => meet_since (symreloc rel c) sp
      refine ⟨?_, ?_, ?_, ?_, ?_, ?_, ?_⟩
      all_goals rw [hlink]
      · exact h.same
      · exact h.hashed.of_table (Link.table_modify (meet_sname _))
      · rw [Link.table_modify (meet_sname _)]
        exact h.grows
      · exact h.later.trans hlater
      · intro e he
        obtain ⟨j, hj⟩ := List.mem_iff_getElem?.mp he
        by_cases hkj : k = j
        · subst hkj
          obtain rfl := Option.some.inj (hself.symm.trans hj)
          refine ((h.entries sp hmem).meet (E := fun e => c.Defines ∧ e = symreloc rel c) hn hsize
            hdef).1.mono ?_
          rintro e (hold | hnew)
          · exact hwiden e hold
          · exact .inr ⟨c, List.mem_append_right pre (List.mem_singleton_self c), hnew⟩
        · rw [List.getElem?_modify_ne _ _ hkj] at hj
          exact (h.entries e (List.mem_of_getElem? hj)).mono hwiden
      · intro hz j hj e he
        rw [hndef] at hz
        cases hcount : (meet (symreloc rel c) sp).2 with
        | true =>
            rw [hcount, if_pos rfl] at hz
            exact absurd hz (Nat.succ_ne_zero _)
        | false =>
            rw [hcount, if_neg Bool.false_ne_true] at hz
            by_cases hkj : k = j
            · subst hkj
              obtain rfl := Option.some.inj (hself.symm.trans he)
              exact ((h.kept hz k hj sp hget).meet
                (E := fun e => c.Defines ∧ e = symreloc rel c) hn hsize hdef).2 hcount
            · refine h.kept hz j hj e ?_
              rw [← he]
              exact (List.getElem?_modify_ne _ _ hkj).symm
      · refine List.forall_mem_append.mpr
          ⟨fun c' hc' hext' hno => (h.answered c' hc' hext' hno).later hlater,
            List.forall_mem_singleton.mpr fun _ _ => ?_⟩
        have hans := meet_answers (h.entries sp hmem) hn
        refine ⟨_, List.mem_of_getElem? hself, ?_, fun hc => ?_, fun hc hu => ?_⟩
        · rw [meet_sname, hn, symreloc_sname]
        · have hdefined := hans.defined fun hu => hc ((symreloc_undef rel c).mp hu)
          rwa [symreloc_sname, symreloc_text] at hdefined
        · have hsized := hans.size ((symreloc_undef rel c).mpr hc) hu
          rw [symreloc_of_undef hc] at hsized ⊢
          exact hsized

end

/-! ## Messages -/

namespace Link

/-- Only messages have been added, and only of these. -/
structure Told (msgs : List String) (s t : Link) : Prop where
  same : t = { s with errlev := t.errlev, said := t.said }
  mono : ∀ x ∈ s.said, x ∈ t.said
  only : ∀ x ∈ t.said, x ∈ s.said ∨ x ∈ msgs

variable {msgs : List String} {s t u : Link}

lemma Told.refl (s : Link) : Told msgs s s := ⟨rfl, fun _ => id, fun _ => .inl⟩

lemma Told.trans (h : Told msgs s t) (h' : Told msgs t u) : Told msgs s u where
  same := by
    rw [h'.same, h.same]
  mono x hx := h'.mono x (h.mono x hx)
  only x hx := (h'.only x hx).elim (h.only x) .inr

lemma error_told (s : Link) (n : ℕ) {msg : String} (h : msg ∈ msgs) : Told msgs s (s.error n msg) where
  same := rfl
  mono _ := List.mem_append_left _
  only x hx := by
    refine (List.mem_append.mp hx).imp_right fun hx => ?_
    obtain rfl := List.mem_singleton.mp hx
    exact h

lemma add_told (s : Link) (a b : Word) {msg : String} (h : msg ∈ msgs) :
    Told msgs s (s.add a b msg) := by
  rw [add]
  by_cases hover : 0o200000 ≤ a.toNat + b.toNat
  · rw [if_pos hover]
    exact error_told s 1 h
  · rw [if_neg hover]
    exact .refl s

end Link

/-- What may be said of the sizes. -/
def overflows : List String :=
  ["text overflow", "data overflow", "bss overflow", "symbol table overflow"]

/-- The sizes of a module are added. -/
lemma sizes_told (s : Link) (o : Object) (nloc : Word) :
    Link.Told overflows { s with
      tsize := s.tsize + o.tsize
      dsize := s.dsize + o.dsize
      bsize := s.bsize + o.bsize
      ssize := s.ssize + nloc } (s.sizes o nloc) := by
  have hmem : ∀ x ∈ overflows, x ∈ overflows := fun _ => id
  have hall := ((((Link.add_told s s.tsize o.tsize (hmem "text overflow" (by decide))).trans
    (Link.add_told _ s.dsize o.dsize (hmem "data overflow" (by decide)))).trans
    (Link.add_told _ s.bsize o.bsize (hmem "bss overflow" (by decide)))).trans
    (Link.add_told _ s.ssize nloc (hmem "symbol table overflow" (by decide))))
  refine ⟨?_, hall.mono, hall.only⟩
  have hsame := hall.same
  rw [Link.sizes]
  dsimp only
  rw [hsame]

/-! ## Modules -/

/-- What the first pass has made of the modules `ms`. -/
structure Passed (U : Name → Prop) (ms : List Object) (s : Link) : Prop where
  hashed : s.Hashed
  sizes : (⟨s.tsize, s.dsize, s.bsize⟩ : Rel) = ms.foldl Rel.after ⟨0, 0, 0⟩
  entries : ∀ e ∈ s.symtab, Entry (Defs (placed ⟨0, 0, 0⟩ ms)) U e
  answered : ∀ m ∈ ms, ∀ c ∈ m.symbols, c.stype &&& EXTERN ≠ 0 → discards s.flags c.stype = false →
    Answered U s.symtab c
  quiet : "Multiply defined" ∉ s.said

section

variable {U : Name → Prop} {ms : List Object} {s t : Link} {o : Object}

/-- The symbols that came last are removed. -/
lemma pop_iterate (k : ℕ) (s : Link) : (Link.pop^[k] s).table = Probing.Table.pop^[k] s.table ∧
    (Link.pop^[k] s).rest = s.rest ∧
    (Link.pop^[k] s).symtab = s.symtab.take (s.symtab.length - k) := by
  induction k generalizing s with
  | zero => exact ⟨rfl, rfl, (List.take_of_length_le (Nat.le_refl _)).symm⟩
  | succ k ih =>
      obtain ⟨htable, hrest, htab⟩ := ih s.pop
      rw [Function.iterate_succ_apply, Function.iterate_succ_apply, ← Link.table_pop]
      refine ⟨htable, hrest, htab.trans ?_⟩
      show s.symtab.dropLast.take (s.symtab.dropLast.length - k) = _
      rw [List.dropLast_eq_take, List.take_take, List.length_take]
      congr 1
      omega

lemma Passed.told (h : Passed U ms s) {msgs : List String} (hs : Link.Told msgs s t)
    (hm : "Multiply defined" ∉ msgs) : Passed U ms t := by
  have hsame := hs.same
  refine ⟨?_, ?_, ?_, ?_, fun hx => (hs.only _ hx).elim h.quiet hm⟩
  all_goals rw [hsame]
  · exact ⟨h.hashed.built, h.hashed.length⟩
  · exact h.sizes
  · exact h.entries
  · exact h.answered

/-- A module that is loaded. -/
lemma Passed.loaded {p : Scan} (h : Passed U ms s)
    (hp : Scanning (Defs (placed ⟨0, 0, 0⟩ ms)) U (s.rel o) s o.symbols p) :
    Passed U (ms ++ [o]) (p.link.sizes o p.nloc) := by
  have hrest := hp.same
  simp only [Link.rest, Prod.mk.injEq] at hrest
  obtain ⟨hflags, -, -, htsize, hdsize, hbsize, -, -, hsaid⟩ := hrest
  have hrel : s.rel o = (ms.foldl Rel.after ⟨0, 0, 0⟩).own o := by
    rw [← h.sizes]
    rfl
  refine Passed.told (s := { p.link with
      tsize := p.link.tsize + o.tsize
      dsize := p.link.dsize + o.dsize
      bsize := p.link.bsize + o.bsize
      ssize := p.link.ssize + p.nloc }) ⟨?_, ?_, ?_, ?_, ?_⟩ (sizes_told p.link o p.nloc) (by decide)
  · exact ⟨hp.hashed.built, hp.hashed.length⟩
  · rw [List.foldl_concat, ← h.sizes, ← htsize, ← hdsize, ← hbsize]
    rfl
  · intro e he
    refine (hp.entries e he).mono ?_
    rw [placed_concat]
    rintro e (⟨q, hq, hdef⟩ | hnew)
    · exact ⟨q, List.mem_append_left _ hq, hdef⟩
    · exact ⟨_, List.mem_append_right _ (List.mem_singleton_self _), hrel ▸ hnew⟩
  · refine List.forall_mem_append.mpr ⟨fun m hm c hc hext hno => ?_, List.forall_mem_singleton.mpr ?_⟩
    · exact (h.answered m hm c hc hext (hflags ▸ hno)).later hp.later
    · exact fun c hc hext hno => hp.answered c hc hext (hflags ▸ hno)
  · show "Multiply defined" ∉ p.link.said
    rw [hsaid]
    exact h.quiet

/-- A module that is not. -/
lemma Passed.rejected {p : Scan} (h : Passed U ms s)
    (hp : Scanning (Defs (placed ⟨0, 0, 0⟩ ms)) U (s.rel o) s o.symbols p) (hz : p.ndef = 0) :
    Passed U ms (p.link.remove s.symtab.length) ∧ (p.link.remove s.symtab.length).rest = s.rest := by
  obtain ⟨htable, hrest, htab⟩ := pop_iterate (p.link.symtab.length - s.symtab.length) p.link
  obtain ⟨-, hle, hpop⟩ := hp.grows.pop hash_lt h.hashed.built
  have hlen (s : Link) : s.table.names.length = s.symtab.length := List.length_map ..
  rw [hlen, hlen] at hle hpop
  have hback : (p.link.remove s.symtab.length).rest = s.rest := hrest.trans hp.same
  have htake : (p.link.remove s.symtab.length).symtab = p.link.symtab.take s.symtab.length := by
    rw [Link.remove, htab]
    congr 1
    omega
  have hparts := hback
  simp only [Link.rest, Prod.mk.injEq] at hparts
  obtain ⟨hflags, -, -, htsize, hdsize, hbsize, -, -, hsaid⟩ := hparts
  refine ⟨⟨?_, ?_, ?_, ?_, ?_⟩, hback⟩
  · exact h.hashed.of_table (htable.trans hpop)
  · rw [htsize, hdsize, hbsize]
    exact h.sizes
  · rw [htake]
    intro e he
    obtain ⟨k, hk⟩ := List.mem_iff_getElem?.mp he
    rw [List.getElem?_take] at hk
    obtain ⟨hlt, hk⟩ := Option.ite_none_right_eq_some.mp hk
    exact hp.kept hz k hlt e hk
  · intro m hm c hc hext hno
    rw [htake]
    exact (h.answered m hm c hc hext (hflags ▸ hno)).later (hp.later.take (Nat.le_refl _))
  · rw [hsaid]
    exact h.quiet

/-- `load1` -/
lemma load1_ends (h : Passed U ms s)
    (hU : ∀ c ∈ o.symbols, c.stype = EXTERN + UNDEF → c.svalue ≠ 0 → U c.sname) (libflg : Bool) :
    Ends (s.load1 libflg o) fun r =>
      Passed U (if r.2 then ms ++ [o] else ms) r.1 ∧ r.1.liblist = s.liblist ∧ r.1.flags = s.flags ∧
        (∀ x ∈ s.said, x ∈ r.1.said) ∧
        (libflg = false → r.2 = true ∨ "No relocation bits" ∈ r.1.said) := by
  rw [Link.load1]
  refine .ite (fun _ => ?_) fun _ => ?_
  · have htold : Link.Told ["No relocation bits"] s (s.error 1 "No relocation bits") :=
      Link.error_told s 1 (List.mem_singleton_self _)
    exact .pure ⟨h.told htold (by decide), rfl, rfl, htold.mono,
      fun _ => .inr (List.mem_append_right _ (List.mem_singleton_self _))⟩
  · have hloop : Ends (o.symbols.foldlM (scan (s.rel o)) ⟨s, 0, symbolSize⟩)
        (Scanning (Defs (placed ⟨0, 0, 0⟩ ms)) U (s.rel o) s o.symbols) := by
      refine .foldlM (fun pre c post p hl hp => ?_) (scanning_start h.hashed h.entries _)
      exact scanning_step hp (hU c (hl ▸ List.mem_append_right _ List.mem_cons_self))
    refine hloop.bind fun p hp => ?_
    have hrest := hp.same
    simp only [Link.rest, Prod.mk.injEq] at hrest
    obtain ⟨hflags, hlib, -, -, -, -, -, -, hsaid⟩ := hrest
    refine .ite (fun _ => .pure ?_) fun hno => .pure ?_
    · have htold := sizes_told p.link o p.nloc
      have hsame := htold.same
      refine ⟨h.loaded hp, ?_, ?_, ?_, fun _ => .inl rfl⟩
      · rw [hsame]
        exact hlib
      · rw [hsame]
        exact hflags
      · rw [← hsaid]
        exact htold.mono
    · have hboth : libflg = true ∧ p.ndef = 0 := by simpa using hno
      obtain ⟨hpass, hback⟩ := h.rejected hp hboth.2
      have hparts := hback
      simp only [Link.rest, Prod.mk.injEq] at hparts
      obtain ⟨hflags', hlib', -, -, -, -, -, -, hsaid'⟩ := hparts
      refine ⟨hpass, hlib', hflags', fun x hx => hsaid' ▸ hx, fun hf => ?_⟩
      rw [hboth.1] at hf
      cases hf

end

/-! ## Arguments -/

/-- The object files of an argument. -/
def Arg.objects : Arg → List Object
  | .file _ o => [o]
  | .library a => a.members.map (·.object)
  | _ => []

/-- A common symbol: some object file of the arguments gives it a size. -/
def Common (argv : List Arg) (n : Name) : Prop :=
  ∃ a ∈ argv, ∃ o ∈ a.objects, ∃ u ∈ o.symbols, u.stype = EXTERN + UNDEF ∧ u.svalue ≠ 0 ∧ u.sname = n

/-- The first pass over an archive, which has noted the modules `locs`. -/
structure Within (U : Name → Prop) (ms : List Object) (a : Archive) (s : Link) (locs : List ℕ)
    (t : Link) : Prop where
  passed : Passed U (ms ++ locs.filterMap fun i => a.members[i]?.map (·.object)) t
  liblist : t.liblist = s.liblist ++ locs.map some
  mono : ∀ x ∈ s.said, x ∈ t.said

section

variable {U : Name → Prop} {ms : List Object} {a : Archive} {s t : Link} {locs : List ℕ} {i : ℕ}

lemma within_start (h : Passed U ms s) : Within U ms a s [] s := by
  refine ⟨?_, (List.append_nil _).symm, fun _ => id⟩
  rwa [List.filterMap_nil, List.append_nil]

lemma step_within (h : Within U ms a s locs t) {m : Member} (hm : a.members[i]? = some m)
    (hU : ∀ c ∈ m.object.symbols, c.stype = EXTERN + UNDEF → c.svalue ≠ 0 → U c.sname) :
    Ends (t.step m i) fun t => ∃ locs, Within U ms a s locs t := by
  rw [Link.step]
  refine (load1_ends h.passed hU true).bind ?_
  rintro ⟨u, loaded⟩ ⟨hpass, hlib, -, hmono, -⟩
  cases loaded with
  | false => exact Ends.pure ⟨locs, hpass, hlib.trans h.liblist, fun x hx => hmono x (h.mono x hx)⟩
  | true =>
      have hlast : [i].filterMap (fun i => a.members[i]?.map (·.object)) = [m.object] := by
        simp [hm]
      refine Ends.pure ⟨locs ++ [i], ?_, ?_, fun x hx => hmono x (h.mono x hx)⟩
      · rw [List.filterMap_append, hlast, ← List.append_assoc]
        exact ⟨⟨hpass.hashed.built, hpass.hashed.length⟩, hpass.sizes, hpass.entries, hpass.answered,
          hpass.quiet⟩
      · show u.liblist ++ [some i] = _
        rw [hlib, h.liblist, List.map_append, List.append_assoc]
        rfl

section

variable (hU : ∀ m ∈ a.members, ∀ c ∈ m.object.symbols, c.stype = EXTERN + UNDEF → c.svalue ≠ 0 →
  U c.sname)

include hU

/-- `steps`, by induction on the modules that are left. -/
lemma steps_within (l : List Member) (i : ℕ) (hl : a.members.drop i = l) (t : Link) (locs : List ℕ)
    (h : Within U ms a s locs t) :
    Ends (t.steps l i) fun u => ∃ locs t, Within U ms a s locs t ∧ u = t.note none := by
  induction l generalizing i t locs with
  | nil =>
      rw [Link.steps]
      exact .ok ⟨locs, t, h, rfl⟩
  | cons m l ih =>
      have hm : a.members[i]? = some m := by
        rw [← List.head?_drop, hl]
        rfl
      have hdrop : a.members.drop (i + 1) = l := by
        rw [← List.drop_drop, hl]
        rfl
      rw [Link.steps]
      refine (step_within h hm (hU m (List.mem_of_getElem? hm))).bind ?_
      rintro u ⟨locs', hu⟩
      exact ih (i + 1) hdrop u locs' hu

lemma random_within (nil : UInt8) {tab : Name × ℕ} (htab : tab.2 < a.members.length)
    (h : Within U ms a s locs t) :
    Ends (Link.random nil a t tab) fun t => ∃ locs, Within U ms a s locs t := by
  rw [Link.random]
  refine .ite (fun _ => .ok ⟨locs, h⟩) fun _ => ?_
  have hm := List.getElem?_eq_getElem htab
  rw [hm]
  exact step_within h hm (hU _ (List.getElem_mem htab))

/-- `ldrand`, by induction on the limit. -/
lemma ldrand_within (nil : UInt8) (tab : List (Name × ℕ)) (htab : ∀ e ∈ tab, e.2 < a.members.length)
    (limit : ℕ) (t : Link) (locs : List ℕ) (h : Within U ms a s locs t) :
    Ends (t.ldrand nil a tab limit) fun t => ∃ locs, Within U ms a s locs t := by
  induction limit generalizing t locs with
  | zero =>
      rw [Link.ldrand]
      exact .error
  | succ limit ih =>
      have hround : Ends (tab.foldlM (Link.random nil a) t) fun t => ∃ locs, Within U ms a s locs t := by
        refine Ends.foldlM (I := fun _ t => ∃ locs, Within U ms a s locs t) ?_ ⟨locs, h⟩
        rintro pre e post t hl ⟨locs, ht⟩
        exact random_within hU nil (htab e (hl ▸ List.mem_append_right _ List.mem_cons_self)) ht
      rw [Link.ldrand]
      refine hround.bind ?_
      rintro u ⟨locs', hu⟩
      exact .ite (fun _ => .pure ⟨locs', hu⟩) fun _ => ih u locs' hu

/-- `load1arg` of an archive notes the modules that it has loaded, and where they end. -/
lemma loadlib_within (limit : ℕ) (nil : UInt8) (h : Passed U ms s) :
    Ends (s.loadlib limit nil a) fun u => ∃ locs t, Within U ms a s locs t ∧ u = t.note none := by
  rw [Link.loadlib]
  cases hc : a.contents with
  | regular => exact steps_within hU a.members 0 rfl s [] (within_start h)
  | stale =>
      have htold : Link.Told ["out of date (warning)"] s (s.error 0 "out of date (warning)") :=
        Link.error_told s 0 (List.mem_singleton_self _)
      have hstart := within_start (a := a) (h.told htold (by decide))
      exact steps_within hU a.members 0 rfl _ [] ⟨hstart.passed, hstart.liblist, htold.mono⟩
  | table tab =>
      refine .ite (fun _ => .throw) fun _ => ?_
      refine (ldrand_within hU nil tab (a.sound tab hc) limit s [] (within_start h)).bind ?_
      rintro t ⟨locs, ht⟩
      exact .pure ⟨locs, t, ht, rfl⟩

end

end

/-! ## The whole pass -/

/-- Of an archive, the second pass loads the modules that are noted. -/
lemma chosen_library (a : Archive) (locs : List ℕ) (rest : List (Option ℕ)) :
    chosen (locs.map some ++ none :: rest) (.library a) =
      (locs.filterMap fun i => a.members[i]?.map fun m => (m.aname, m.object), rest) := by
  have htake : (locs.map some ++ none :: rest).takeWhile (·.isSome) = locs.map some := by
    rw [List.takeWhile_append_of_pos (by simp), List.takeWhile_cons_of_neg (by simp), List.append_nil]
  have hdrop : (locs.map some ++ none :: rest).drop (locs.length + 1) = rest := by
    rw [show locs.map some ++ none :: rest = (locs.map some ++ [none]) ++ rest by simp]
    exact List.drop_left' (by simp)
  simp only [chosen, htake, List.length_map, hdrop, List.filterMap_map]
  rfl

/-- The first pass has been through the arguments `pre`: unless some file had no relocation bits, the
second pass loads what it has loaded. -/
structure Gone (U : Name → Prop) (pre : List Arg) (s : Link) (ms : List Object) : Prop where
  passed : Passed U ms s
  listed : "No relocation bits" ∉ s.said → ∃ mods : List (List UInt8 × Object),
    mods.map (·.2) = ms ∧ ∀ rest post, loads (s.liblist ++ rest) (pre ++ post) = mods ++ loads rest post

section

variable {U : Name → Prop} {pre : List Arg} {s t : Link} {ms : List Object} {a : Arg}

/-- An argument after which `liblist` goes on with `n`. -/
lemma Gone.next (h : Gone U pre s ms) {n : List (Option ℕ)} {q : List (List UInt8 × Object)}
    (hpass : Passed U (ms ++ q.map (·.2)) t) (hlib : t.liblist = s.liblist ++ n)
    (hmono : ∀ x ∈ s.said, x ∈ t.said) (hnew : ∀ rest, chosen (n ++ rest) a = (q, rest)) :
    Gone U (pre ++ [a]) t (ms ++ q.map (·.2)) := by
  refine ⟨hpass, fun hno => ?_⟩
  obtain ⟨mods, hmods, hloads⟩ := h.listed fun hin => hno (hmono _ hin)
  refine ⟨mods ++ q, by rw [List.map_append, hmods], fun rest post => ?_⟩
  rw [hlib, List.append_assoc, List.append_assoc, List.singleton_append, hloads, loads, hnew,
    List.append_assoc]

/-- An argument that is not for the second pass. -/
lemma Gone.option (h : Gone U pre s ms) (hpass : Passed U ms t) (hlib : t.liblist = s.liblist)
    (hsaid : t.said = s.said) (ha : ∀ liblist, chosen liblist a = ([], liblist)) :
    Gone U (pre ++ [a]) t ms := by
  have hnext := h.next (q := []) (n := []) (a := a) (t := t) (by simpa using hpass)
    (by simpa using hlib) (fun x hx => hsaid ▸ hx) fun rest => ha rest
  simpa using hnext

/-- An undefined symbol may be entered. -/
lemma Passed.enter (h : Passed U ms s) (n : Name) :
    Ends (s.enter ⟨n, EXTERN + UNDEF, 0⟩) fun r =>
      Passed U ms r.1 ∧ r.1.liblist = s.liblist ∧ r.1.said = s.said := by
  refine (s.enter_ends _).mono ?_
  rintro ⟨t, new⟩ ⟨hnew, hold⟩
  cases new with
  | false =>
      obtain ⟨-, rfl⟩ := hold rfl
      exact ⟨h, rfl, rfl⟩
  | true =>
      obtain ⟨habsent, hroom, rfl⟩ := hnew rfl
      refine ⟨⟨h.hashed.push habsent hroom, h.sizes, ?_, ?_, h.quiet⟩, rfl, rfl⟩
      · refine List.forall_mem_append.mpr ⟨h.entries, List.forall_mem_singleton.mpr ?_⟩
        exact ⟨fun _ hne => absurd rfl hne, fun hne => absurd rfl hne⟩
      · exact fun m hm c hc hext hno => (h.answered m hm c hc hext hno).later (later_append _ _)

lemma discards_set (f : Flags) (g : Flag) (stype : UInt8) (h : discards (f.set g) stype = false) :
    discards f stype = false := by
  cases g with
  | S =>
      rw [discards, Bool.and_eq_false_iff] at h ⊢
      exact .inr (h.resolve_left (by simp [Flags.set]))
  | _ => exact h

lemma arg_gone (limit : ℕ) (nil : UInt8) (h : Gone U pre s ms)
    (hU : ∀ o ∈ a.objects, ∀ c ∈ o.symbols, c.stype = EXTERN + UNDEF → c.svalue ≠ 0 → U c.sname) :
    Ends (s.arg limit nil a) fun t => ∃ ms, Gone U (pre ++ [a]) t ms := by
  cases a with
  | file name o =>
      refine .map ((load1_ends h.passed (hU o (List.mem_singleton_self o)) false).mono ?_)
      rintro ⟨t, loaded⟩ ⟨hpass, hlib, -, hmono, hnorel⟩
      rcases hnorel rfl with hl | hsaid
      · obtain rfl : loaded = true := hl
        exact ⟨_, h.next (q := [(name, o)]) (n := []) hpass (by simpa using hlib) hmono
          fun rest => rfl⟩
      · exact ⟨_, hpass, fun hno => absurd hsaid hno⟩
  | library a =>
      refine (loadlib_within (fun m hm => hU m.object (List.mem_map_of_mem hm)) limit nil
        h.passed).mono ?_
      rintro u ⟨locs, t, ht, rfl⟩
      have hmods : (locs.filterMap fun i => a.members[i]?.map fun m => (m.aname, m.object)).map (·.2) =
          locs.filterMap fun i => a.members[i]?.map (·.object) := by
        rw [List.map_filterMap]
        congr 1
        funext i
        rw [Option.map_map]
        rfl
      have hpass := ht.passed
      rw [← hmods] at hpass
      refine ⟨_, h.next (n := locs.map some ++ [none]) (t := t.note none) ⟨hpass.hashed.of_table rfl,
        hpass.sizes, hpass.entries, hpass.answered, hpass.quiet⟩ ?_ ht.mono fun rest => ?_⟩
      · show t.liblist ++ [none] = _
        rw [ht.liblist, List.append_assoc]
      · rw [List.append_assoc, List.singleton_append, chosen_library]
  | use name =>
      refine .map ((h.passed.enter (cp8c name)).mono ?_)
      rintro ⟨t, new⟩ ⟨hpass, hlib, hsaid⟩
      exact ⟨ms, h.option hpass hlib hsaid fun _ => rfl⟩
  | entry name =>
      refine (h.passed.enter (cp8c name)).bind ?_
      rintro ⟨t, new⟩ ⟨hpass, hlib, hsaid⟩
      refine .pure ⟨ms, h.option ?_ hlib hsaid fun _ => rfl⟩
      exact ⟨hpass.hashed.of_table rfl, hpass.sizes, hpass.entries, hpass.answered, hpass.quiet⟩
  | flag f =>
      refine .ok ⟨ms, h.option ?_ rfl rfl fun _ => rfl⟩
      refine ⟨h.passed.hashed.of_table rfl, h.passed.sizes, h.passed.entries, ?_, h.passed.quiet⟩
      exact fun m hm c hc hext hno => h.passed.answered m hm c hc hext (discards_set s.flags f _ hno)

end

/-- **The first pass**, by induction on the arguments. -/
lemma pass1_gone (limit : ℕ) (nil : UInt8) (argv : List Arg) :
    Ends (pass1 limit nil argv) fun s => ∃ ms, Gone (Common argv) argv s ms := by
  refine Ends.foldlM (I := fun pre s => ∃ ms, Gone (Common argv) pre s ms) ?_ ?_
  · rintro pre a post s hl ⟨ms, hs⟩
    refine arg_gone limit nil hs fun o ho c hc hu hne => ?_
    exact ⟨a, hl ▸ List.mem_append_right _ List.mem_cons_self, o, ho, c, hc, hu, hne, rfl⟩
  · refine ⟨[], ⟨Link.start_hashed, rfl, List.forall_mem_nil _, List.forall_mem_nil _,
      List.not_mem_nil⟩, fun _ => ⟨[], rfl, fun _ _ => rfl⟩⟩

end Ld

end Micronix
