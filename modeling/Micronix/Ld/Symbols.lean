import Micronix.Ld.Link
import Micronix.Lib.Ends

/-!
# The global symbols of the link editor

The hash table, with its symbols entered in turn and removed in the opposite order, is a table by names
(`Lib/Probing.lean`): a name that has an entry is found there, and one that has none is not found.
-/

namespace Micronix

namespace Ld

lemma hash_lt (n : Name) : hash n < NSYM + 2 := Nat.add_lt_add_right (Nat.mod_lt _ (by decide)) 2

@[simp] lemma symreloc_sname (rel : Rel) (c : Symbol) : (symreloc rel c).sname = c.sname := by
  rw [symreloc]
  split_ifs <;> rfl

@[simp] lemma meet_sname (c sp : Symbol) : (meet c sp).1.sname = sp.sname := by
  rw [meet]
  split_ifs <;> rfl

lemma map_sname_modify {l : List Symbol} {k : ℕ} {f : Symbol → Symbol} (h : ∀ sp, (f sp).sname = sp.sname) :
    (l.modify k f).map (·.sname) = l.map (·.sname) := by
  refine List.ext_getElem? fun i => ?_
  rw [List.getElem?_map, List.getElem?_map, List.getElem?_modify]
  cases l[i]? with
  | none => rfl
  | some sp =>
      by_cases hk : k = i
      · simp [hk, h]
      · simp [hk]

namespace Link

/-- The names of the symbols in the hash table. -/
def table (s : Link) : Probing.Table Name := ⟨s.symtab.map (·.sname), s.hshtab, s.symhash⟩

/-- The hash table is as `enter` makes it. -/
structure Hashed (s : Link) : Prop where
  built : s.table.Built (NSYM + 2) hash
  length : s.symtab.length ≤ NSYM

/-- A new symbol. -/
def push (s : Link) (c : Symbol) : Link :=
  { s with
    symhash := s.symhash ++ [s.lookup c.sname]
    hshtab := Function.update s.hshtab (s.lookup c.sname) (some s.symtab.length)
    symtab := s.symtab ++ [c] }

variable {s t : Link} {c sp : Symbol} {n : Name} {k : ℕ}

lemma table_push (s : Link) (c : Symbol) : (s.push c).table = s.table.push (NSYM + 2) hash c.sname := by
  refine Probing.Table.ext ?_ ?_ rfl
  · exact List.map_append
  · have hlen : s.table.names.length = s.symtab.length := List.length_map ..
    rw [Probing.Table.push, hlen]
    rfl

lemma table_pop (s : Link) : s.pop.table = s.table.pop := by
  refine Probing.Table.ext ?_ rfl rfl
  exact List.map_dropLast ..

lemma table_modify {f : Symbol → Symbol} (h : ∀ sp, (f sp).sname = sp.sname) :
    { s with symtab := s.symtab.modify k f }.table = s.table :=
  Probing.Table.ext (map_sname_modify h) rfl rfl

lemma names_get (h : s.symtab[k]? = some sp) : s.table.names[k]? = some sp.sname := by
  show (s.symtab.map (·.sname))[k]? = _
  rw [List.getElem?_map, h]
  rfl

/-- **An entry is found by its name.** -/
lemma Hashed.at_of_get (hs : s.Hashed) (h : s.symtab[k]? = some sp) : s.at? sp.sname = some k :=
  hs.built.find_present hash_lt (names_get h)

lemma Hashed.at_none (hs : s.Hashed) : s.at? n = none ↔ n ∉ s.table.names := by
  refine ⟨fun hn hmem => ?_, fun hn => ?_⟩
  · obtain ⟨k, hk⟩ := List.mem_iff_getElem?.mp hmem
    cases hn.symm.trans (hs.built.find_present hash_lt hk)
  · have hlen := hs.length
    refine hs.built.find_absent hash_lt hn ?_
    show (s.symtab.map _).length < _
    rw [List.length_map]
    omega

/-- **And what is found has the name.** -/
lemma Hashed.get_of_at (hs : s.Hashed) (h : s.at? n = some k) :
    ∃ sp, s.symtab[k]? = some sp ∧ sp.sname = n := by
  have hmem : n ∈ s.table.names := by
    by_contra hno
    cases h.symm.trans (hs.at_none.mpr hno)
  obtain ⟨j, hj⟩ := List.mem_iff_getElem?.mp hmem
  obtain rfl : k = j := Option.some.inj (h.symm.trans (hs.built.find_present hash_lt hj))
  have hget : (s.symtab.map (·.sname))[k]? = some n := hj
  rw [List.getElem?_map] at hget
  exact Option.map_eq_some_iff.mp hget

/-- Two entries do not have the same name. -/
lemma Hashed.inj {j : ℕ} {sp' : Symbol} (hs : s.Hashed) (hk : s.symtab[k]? = some sp)
    (hj : s.symtab[j]? = some sp') (h : sp.sname = sp'.sname) : k = j := by
  have hfound := hs.at_of_get hk
  rw [h, hs.at_of_get hj] at hfound
  exact (Option.some.inj hfound).symm

lemma Hashed.push (hs : s.Hashed) (hn : s.at? c.sname = none) (hlen : s.symtab.length < NSYM) :
    (s.push c).Hashed where
  built := by
    rw [table_push]
    refine hs.built.push (hs.at_none.mp hn) ?_
    show (s.symtab.map _).length < _
    rw [List.length_map]
    omega
  length := by
    show (s.symtab ++ [c]).length ≤ NSYM
    rw [List.length_append]
    exact hlen

lemma Hashed.of_table (hs : s.Hashed) (h : t.table = s.table) : t.Hashed where
  built := by
    rw [h]
    exact hs.built
  length := by
    have hlen := congrArg (fun T : Probing.Table Name => T.names.length) h
    simp only [table, List.length_map] at hlen
    rw [hlen]
    exact hs.length

lemma at_of_table (h : t.table = s.table) (n : Name) : t.at? n = s.at? n :=
  congrArg (fun T : Probing.Table Name => T.tbl (T.find (NSYM + 2) hash n)) h

/-- `enter` -/
lemma enter_ends (s : Link) (c : Symbol) : Ends (s.enter c) fun r =>
    (r.2 = true → s.at? c.sname = none ∧ s.symtab.length < NSYM ∧ r.1 = s.push c) ∧
      (r.2 = false → (s.at? c.sname).isSome ∧ r.1 = s) := by
  rw [enter]
  cases hat : s.hshtab (s.lookup c.sname) with
  | some k =>
      refine .ok ⟨fun h => absurd h Bool.false_ne_true, fun _ => ⟨?_, rfl⟩⟩
      rw [at?, hat]
      rfl
  | none =>
      refine .ite (fun _ => .error) fun hlen => .ok ⟨fun _ => ⟨hat, by omega, rfl⟩, fun h => ?_⟩
      exact absurd h.symm Bool.false_ne_true

lemma start_hashed : start.Hashed := ⟨.empty, Nat.zero_le _⟩

end Link

/-- What a turn of the loop of `load1` does. -/
inductive Scanned (rel : Rel) (c : Symbol) (p p' : Scan) : Prop
  | discarded (h : discards p.link.flags c.stype = true) (same : p' = p)
  | local_ (h : c.stype &&& EXTERN = 0) (link : p'.link = p.link) (ndef : p'.ndef = p.ndef)
  | new (h : c.stype &&& EXTERN ≠ 0) (absent : p.link.at? c.sname = none)
      (room : p.link.symtab.length < NSYM) (link : p'.link = p.link.push (symreloc rel c))
      (ndef : p'.ndef = p.ndef)
  | old (h : c.stype &&& EXTERN ≠ 0) (k : ℕ) (sp : Symbol) (found : p.link.at? c.sname = some k)
      (get : p.link.symtab[k]? = some sp)
      (link : p'.link = { p.link with
        symtab := p.link.symtab.modify k fun sp => (meet (symreloc rel c) sp).1 })
      (ndef : p'.ndef = if (meet (symreloc rel c) sp).2 then p.ndef + 1 else p.ndef)

lemma scan_ends (rel : Rel) (p : Scan) (c : Symbol) (hs : p.link.Hashed) :
    Ends (scan rel p c) (Scanned rel c p) := by
  rw [scan]
  refine .ite (fun hdis => .pure (.discarded hdis rfl)) fun _ => ?_
  refine .ite (fun hloc => .ite (fun _ => .pure (.local_ hloc rfl rfl))
    fun _ => .pure (.local_ hloc rfl rfl)) fun hext => ?_
  refine (p.link.enter_ends _).bind ?_
  rintro ⟨link, new⟩ hr
  rw [symreloc_sname] at hr
  cases new with
  | true =>
      obtain ⟨habsent, hroom, rfl⟩ := hr.1 rfl
      exact Ends.pure (Scanned.new hext habsent hroom rfl rfl)
  | false =>
      obtain ⟨hsome, rfl⟩ := hr.2 rfl
      obtain ⟨k, hk⟩ := Option.isSome_iff_exists.mp hsome
      obtain ⟨sp, hget, -⟩ := hs.get_of_at hk
      dsimp only
      rw [if_neg Bool.false_ne_true, symreloc_sname, hk]
      refine Ends.pure (Scanned.old hext k sp hk hget rfl ?_)
      rw [hget]
      rfl

end Ld

end Micronix
