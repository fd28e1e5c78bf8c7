import Micronix.Obj.Reloc
import Mathlib.Data.List.Perm.Basic
import Mathlib.Data.List.Nodup

/-!
# The symbols of the disassembler

`add_sym` (`disas.c`) keeps a list of the symbols in the order of their values, in which no name is
twice, and an array of them in the order in which they came.  Symbols come from the symbol file, from
the conventions of CP/M and from the table of the object file, of which only three kinds of entry are
taken (`main`).  The array then has the first symbol of each name (`load_symtab`), and what is found
under a name is the value it had first (`load_find`).
-/

namespace Micronix

namespace Disas

/-- `struct sym` -/
structure Sym where
  name : String
  value : ℕ
  deriving DecidableEq, Repr

def MAX_SYMS : ℕ := 10000

/-- `syms`, and `symtab` with `nsyms`. -/
structure Symbols where
  syms : List Sym
  symtab : List Sym
  deriving Repr

def Symbols.empty : Symbols := ⟨[], []⟩

/-- `find_symbol`; none is -1, which is no value. -/
def findSymbol : List Sym → String → Option ℕ
  | [], _ => none
  | s :: next, ls => if s.name = ls then some s.value else findSymbol next ls

/-- A symbol in front of the first with a larger value. -/
def insert (x : Sym) : List Sym → List Sym
  | [] => [x]
  | s :: next => if s.value > x.value then x :: s :: next else s :: insert x next

/-- `add_sym`; none if it writes behind the end of the array. -/
def addSym (t : Symbols) (x : Sym) : Option Symbols :=
  if (findSymbol t.syms x.name).isSome then some t
  else if t.symtab.length < MAX_SYMS then some ⟨insert x t.syms, t.symtab ++ [x]⟩
  else none

/-- An entry of the object file's table. -/
structure Entry where
  value : ℕ
  flags : ℕ
  name : String
  deriving DecidableEq, Repr

/-- The loop of `main` over the table; `base` is that of `SEG_UNDEF`. -/
def loadTable (base : ℕ) : ℕ → List Entry → Symbols → Option Symbols
  | _, [], t => some t
  | undefs, e :: es, t =>
      if e.flags = 0xd then (addSym t ⟨e.name, e.value⟩).bind (loadTable base undefs es)
      else if e.flags = 0xe then (addSym t ⟨e.name, e.value⟩).bind (loadTable base undefs es)
      else if e.flags = 0x8 then
        (addSym t ⟨e.name, base + undefs⟩).bind (loadTable base (undefs + 1) es)
      else loadTable base undefs es t

/-- The symbols that came before, and then the table. -/
def load (earlier : List Sym) (base : ℕ) (table : List Entry) : Option Symbols :=
  (earlier.foldlM addSym Symbols.empty).bind (loadTable base 0 table)

/-! ## The first of each name -/

/-- What `main` gives to `add_sym`. -/
def taken (base : ℕ) : ℕ → List Entry → List Sym
  | _, [] => []
  | undefs, e :: es =>
      if e.flags = 0xd ∨ e.flags = 0xe then ⟨e.name, e.value⟩ :: taken base undefs es
      else if e.flags = 0x8 then ⟨e.name, base + undefs⟩ :: taken base (undefs + 1) es
      else taken base undefs es

/-- The first symbol of each name. -/
def firsts : List Sym → List Sym
  | [] => []
  | x :: xs => x :: (firsts xs).filter fun y => y.name ≠ x.name

section

variable {t : Symbols} {x : Sym} {xs l l' : List Sym} {n : String} {base undefs : ℕ}

/-- Both have the same symbols, and no name twice. -/
structure Symbols.Good (t : Symbols) : Prop where
  perm : t.syms.Perm t.symtab
  nodup : (t.symtab.map Sym.name).Nodup

lemma good_empty : Symbols.empty.Good := ⟨.nil, List.nodup_nil⟩

lemma insert_perm (x : Sym) (l : List Sym) : (insert x l).Perm (x :: l) := by
  induction l with
  | nil => exact List.Perm.refl _
  | cons s next ih =>
      rw [insert]
      split_ifs
      · exact List.Perm.refl _
      · exact (ih.cons s).trans (List.Perm.swap x s next)

lemma mem_of_findSymbol {v : ℕ} (h : findSymbol l n = some v) : ⟨n, v⟩ ∈ l := by
  induction l with
  | nil => cases h
  | cons s next ih =>
      rw [findSymbol] at h
      split_ifs at h with hname
      · cases h
        rw [← hname]
        exact List.mem_cons_self
      · exact List.mem_cons_of_mem _ (ih h)

lemma findSymbol_of_mem {v : ℕ} (hl : (l.map Sym.name).Nodup) (h : ⟨n, v⟩ ∈ l) :
    findSymbol l n = some v := by
  induction l with
  | nil => exact absurd h List.not_mem_nil
  | cons s next ih =>
      rw [List.map_cons, List.nodup_cons] at hl
      rw [findSymbol]
      rcases List.mem_cons.mp h with rfl | hmem
      · exact if_pos rfl
      · have hne : s.name ≠ n := fun hname =>
          hl.1 (List.mem_map.mpr ⟨⟨n, v⟩, hmem, hname.symm⟩)
        rw [if_neg hne, ih hl.2 hmem]

lemma findSymbol_perm (h : l.Perm l') (hl : (l'.map Sym.name).Nodup) (n : String) :
    findSymbol l n = findSymbol l' n := by
  have hl' : (l.map Sym.name).Nodup := (h.map Sym.name).nodup_iff.mpr hl
  refine Option.ext fun v => ⟨fun hv => ?_, fun hv => ?_⟩
  · exact findSymbol_of_mem hl (h.subset (mem_of_findSymbol hv))
  · exact findSymbol_of_mem hl' (h.symm.subset (mem_of_findSymbol hv))

lemma findSymbol_isSome : (findSymbol l n).isSome ↔ n ∈ l.map Sym.name := by
  induction l with
  | nil => simp [findSymbol]
  | cons s next ih =>
      rw [findSymbol, List.map_cons, List.mem_cons]
      split_ifs with hname
      · exact iff_of_true rfl (Or.inl hname.symm)
      · rw [ih]
        exact ⟨Or.inr, fun h => h.resolve_left fun heq => hname heq.symm⟩

/-- A name that is there is not taken again, and a new one is. -/
lemma addSym_eq (h : t.Good) (x : Sym) :
    addSym t x =
      if x.name ∈ t.symtab.map Sym.name then some t
      else if t.symtab.length < MAX_SYMS then some ⟨insert x t.syms, t.symtab ++ [x]⟩
      else none := by
  have hiff : (findSymbol t.syms x.name).isSome ↔ x.name ∈ t.symtab.map Sym.name := by
    rw [findSymbol_perm h.perm h.nodup, findSymbol_isSome]
  rw [addSym]
  exact if_congr hiff rfl rfl

lemma Symbols.Good.add (h : t.Good) (hx : x.name ∉ t.symtab.map Sym.name) :
    Symbols.Good ⟨insert x t.syms, t.symtab ++ [x]⟩ where
  perm := (insert_perm x t.syms).trans
    ((h.perm.cons x).trans (List.perm_append_singleton x t.symtab).symm)
  nodup := by
    rw [List.map_append, List.map_singleton]
    exact h.nodup.append (List.nodup_singleton _) (List.disjoint_singleton.mpr hx)

/-- What is new in a list of symbols. -/
def new (t : Symbols) (xs : List Sym) : List Sym :=
  (firsts xs).filter fun y => y.name ∉ t.symtab.map Sym.name

lemma new_old (hx : x.name ∈ t.symtab.map Sym.name) : new t (x :: xs) = new t xs := by
  rw [new, firsts, List.filter_cons_of_neg (by simpa using hx), List.filter_filter, new]
  refine List.filter_congr fun y _ => ?_
  rw [Bool.and_eq_left_iff_imp]
  intro hy
  rw [decide_eq_true_eq] at hy ⊢
  exact fun heq => hy (heq ▸ hx)

lemma new_add (syms : List Sym) (hx : x.name ∉ t.symtab.map Sym.name) :
    new t (x :: xs) = x :: new ⟨syms, t.symtab ++ [x]⟩ xs := by
  rw [new, firsts, List.filter_cons_of_pos (by simpa using hx), List.filter_filter, new]
  refine congrArg _ (List.filter_congr fun y _ => ?_)
  rw [List.map_append, List.map_singleton]
  simp only [List.mem_append, List.mem_singleton, not_or, Bool.decide_and]

/-- The symbols of a list, if the array has room for them. -/
lemma foldlM_addSym (h : t.Good) (hroom : t.symtab.length ≤ MAX_SYMS) (xs : List Sym) :
    if (t.symtab ++ new t xs).length ≤ MAX_SYMS then
      ∃ t', xs.foldlM addSym t = some t' ∧ t'.symtab = t.symtab ++ new t xs ∧ t'.Good
    else xs.foldlM addSym t = none := by
  induction xs generalizing t with
  | nil =>
      have hnew : new t [] = [] := rfl
      rw [hnew, List.append_nil, if_pos hroom]
      exact ⟨t, rfl, rfl, h⟩
  | cons x xs ih =>
      rw [List.foldlM_cons, addSym_eq h x]
      by_cases hx : x.name ∈ t.symtab.map Sym.name
      · rw [if_pos hx, new_old hx]
        exact ih h hroom
      · set t' : Symbols := ⟨insert x t.syms, t.symtab ++ [x]⟩ with ht'
        have hsplit : t.symtab ++ new t (x :: xs) = t'.symtab ++ new t' xs := by
          rw [new_add (insert x t.syms) hx, List.append_cons]
        rw [if_neg hx, hsplit]
        by_cases hfull : t.symtab.length < MAX_SYMS
        · rw [if_pos hfull]
          refine ih (h.add hx) ?_
          rw [ht', List.length_append]
          exact hfull
        · rw [if_neg hfull, if_neg]
          · rfl
          · rw [ht', List.length_append, List.length_append, List.length_singleton]
            omega

lemma loadTable_eq (es : List Entry) (t : Symbols) :
    loadTable base undefs es t = (taken base undefs es).foldlM addSym t := by
  induction es generalizing undefs t with
  | nil => rfl
  | cons e es ih =>
      rw [loadTable, taken]
      by_cases hd : e.flags = 0xd
      · rw [if_pos hd, if_pos (Or.inl hd), List.foldlM_cons]
        exact congrArg _ (funext fun t => ih t)
      · rw [if_neg hd]
        by_cases he : e.flags = 0xe
        · rw [if_pos he, if_pos (Or.inr he), List.foldlM_cons]
          exact congrArg _ (funext fun t => ih t)
        · rw [if_neg he, if_neg (not_or.mpr ⟨hd, he⟩)]
          split_ifs
          · rw [List.foldlM_cons]
            exact congrArg _ (funext fun t => ih t)
          · exact ih t

lemma findSymbol_filter (hn : n ≠ x.name) (l : List Sym) :
    findSymbol (l.filter fun y => y.name ≠ x.name) n = findSymbol l n := by
  induction l with
  | nil => rfl
  | cons s next ih =>
      rw [List.filter_cons]
      by_cases hs : s.name = x.name
      · rw [if_neg (by simpa using hs), findSymbol, if_neg (hs ▸ hn.symm), ih]
      · rw [if_pos (by simpa using hs), findSymbol, findSymbol, ih]

/-- The first of each name has the value that is found in the list. -/
lemma findSymbol_firsts (xs : List Sym) (n : String) : findSymbol (firsts xs) n = findSymbol xs n := by
  induction xs with
  | nil => rfl
  | cons x xs ih =>
      rw [firsts, findSymbol, findSymbol]
      split_ifs with hn
      · rfl
      · rw [findSymbol_filter (Ne.symm hn), ih]

end

/-- All that `add_sym` is called with. -/
def added (earlier : List Sym) (base : ℕ) (table : List Entry) : List Sym :=
  earlier ++ taken base 0 table

/-- What is loaded: the first symbol of each name, and under each name its first value. -/
lemma load_spec (earlier : List Sym) (base : ℕ) (table : List Entry) :
    if (firsts (added earlier base table)).length ≤ MAX_SYMS then
      ∃ t, load earlier base table = some t ∧ t.symtab = firsts (added earlier base table) ∧
        ∀ n, findSymbol t.syms n = findSymbol (added earlier base table) n
    else load earlier base table = none := by
  have hload : load earlier base table =
      (added earlier base table).foldlM addSym Symbols.empty := by
    rw [load, added, List.foldlM_append]
    exact congrArg _ (funext fun t => loadTable_eq table t)
  have hnew : Symbols.empty.symtab ++ new Symbols.empty (added earlier base table) =
      firsts (added earlier base table) := List.filter_eq_self.mpr fun _ _ => rfl
  have hspec := foldlM_addSym good_empty (Nat.zero_le _) (added earlier base table)
  rw [hnew, ← hload] at hspec
  split_ifs at hspec ⊢ with hroom
  · obtain ⟨t, ht, hsymtab, hgood⟩ := hspec
    refine ⟨t, ht, hsymtab, fun n => ?_⟩
    rw [findSymbol_perm hgood.perm hgood.nodup, hsymtab, findSymbol_firsts]
  · exact hspec

end Disas

end Micronix
