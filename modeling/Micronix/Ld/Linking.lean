import Micronix.Ld.Middle

/-!
# What the link editor puts out

A word of an object file refers to a segment of its module or to a symbol, and the words of the output
are to refer to the same things, where these are in the end.  `relocate` says so for one word, given
what has become of the segments and of the names.
-/

namespace Micronix

namespace Ld

/-- What a word refers to, beside its own value. -/
inductive Ref
  | absolute
  | text
  | data
  | bss
  | symbol (n : Name)

/-- What the relocation word says. -/
def Object.ref (o : Object) (r : Word) : Ref :=
  if r &&& 0o16 = RTEXT then .text
  else if r &&& 0o16 = RDATA then .data
  else if r &&& 0o16 = RBSS then .bss
  else if r &&& 0o16 = REXT then
    o.symbols[((r >>> 4) &&& 0o7777).toNat]?.elim .absolute fun u => .symbol u.sname
  else .absolute

/-- How much what a word refers to is moved. -/
def Ref.moved (rel : Rel) (value : Name → Word) : Ref → Word
  | .absolute => 0
  | .text => rel.ctrel
  | .data => rel.cdrel
  | .bss => rel.cbrel
  | .symbol n => value n

/-- A word in its place.  If it is relative to its own place, which is moved by `creloc`, so is what it
refers to. -/
def relocate (value : Name → Word) (o : Object) (rel : Rel) (creloc : Word) (w : Word × Word) : Word :=
  w.1 + (o.ref w.2).moved rel value - if w.2 &&& 1 ≠ 0 then creloc else 0

namespace Plan

/-- The entry of a name, with its number. -/
def entry (P : Plan) (n : Name) : Option (ℕ × Symbol) :=
  (P.link.at? n).bind fun k => P.link.symtab[k]?.map fun sp => (k, sp)

/-- The value of a name: 0 while it is undefined. -/
def value (P : Plan) (n : Name) : Word :=
  (P.entry n).elim 0 fun e => if e.2.stype = EXTERN + UNDEF then 0 else e.2.svalue

/-- The relocation word in the output. -/
def rword (P : Plan) (o : Object) (r : Word) : Word :=
  match o.ref r with
  | .symbol n => (P.entry n).elim r fun e =>
      if e.2.stype = EXTERN + UNDEF then (r &&& (1 : Word)) + (UInt16.ofNat (P.nsym + e.1) <<< 4) + REXT
      else (r &&& (1 : Word)) + ((e.2.stype - (EXTERN + ABS)).toUInt16 <<< 1)
  | _ => r

/-- The definition is not what the table has. -/
def Clash (P : Plan) (rel : Rel) (c : Symbol) : Prop :=
  c.Defines ∧ discards P.link.flags (symreloc rel c).stype = false ∧
    ∃ k sp, P.link.at? c.sname = some k ∧ P.link.symtab[k]? = some sp ∧
      ((symreloc rel c).stype ≠ sp.stype ∨ (symreloc rel c).svalue ≠ sp.svalue)

/-- Where the modules come to be. -/
def placed (P : Plan) (mods : List (List UInt8 × Object)) : List (Object × Rel) :=
  Ld.placed ⟨0, P.dorigin, P.borigin⟩ (mods.map (·.2))

end Plan

/-! ## Words -/

section

variable {P : Plan} {o : Object} {local_ : List Local} {rel : Rel} {t r : Word} {n : Name} {k : ℕ}
  {sp : Symbol}

lemma low_bit (x : Word) : (x &&& 1).toNat = x.toNat % 2 := by
  rw [UInt16.toNat_and]
  exact Nat.and_two_pow_sub_one_eq_mod x.toNat 1

/-- The lowest bit of a relocation word is kept. -/
lemma low_bit_add (r x y : Word) (hx : x.toNat % 2 = 0) (hy : y.toNat % 2 = 0) :
    ((r &&& 1) + x + y) &&& 1 = r &&& 1 := by
  refine UInt16.toNat.inj ?_
  have hr := low_bit r
  rw [low_bit, UInt16.toNat_add, UInt16.toNat_add, hr]
  omega

lemma shift_even (x : Word) : (x <<< 4).toNat % 2 = 0 ∧ (x <<< 1).toNat % 2 = 0 := by
  have h4 : (x <<< 4).toNat = x.toNat * 16 % 65536 := by
    rw [UInt16.toNat_shiftLeft, Nat.shiftLeft_eq]
    rfl
  have h1 : (x <<< 1).toNat = x.toNat * 2 % 65536 := by
    rw [UInt16.toNat_shiftLeft, Nat.shiftLeft_eq]
    rfl
  omega

lemma entry_of (hk : P.link.at? n = some k) (hsp : P.link.symtab[k]? = some sp) :
    P.entry n = some (k, sp) := by
  rw [Plan.entry, hk, Option.bind_some, hsp]
  rfl

/-- `lookloc` -/
lemma lookloc_ends
    (hlocal : ∀ l ∈ local_, ∃ u, o.symbols[l.1]? = some u ∧ P.link.at? u.sname = some l.2) (r : Word) :
    Ends (lookloc local_ r) fun k =>
      ∃ u, o.symbols[((r >>> 4) &&& 0o7777).toNat]? = some u ∧ P.link.at? u.sname = some k := by
  rw [lookloc]
  cases hfind : local_.find? fun l => l.1 = ((r >>> 4) &&& 0o7777).toNat with
  | none => exact .error
  | some l =>
      obtain ⟨u, hu, hat⟩ := hlocal l (List.mem_of_find?_eq_some hfind)
      have hno := List.find?_some hfind
      rw [of_decide_eq_true hno] at hu
      exact .ok ⟨u, hu, hat⟩

/-- The switch in `load2td`, with a table of the symbols of the module. -/
lemma refer_ends (hs : P.link.Hashed)
    (hlocal : ∀ l ∈ local_, ∃ u, o.symbols[l.1]? = some u ∧ P.link.at? u.sname = some l.2) (t r : Word) :
    Ends (P.refer local_ rel t r) fun w =>
      w.1 = t + (o.ref r).moved rel P.value ∧ w.2 = P.rword o r ∧ w.2 &&& 1 = r &&& 1 := by
  rw [Plan.refer]
  by_cases htext : r &&& 0o16 = RTEXT
  · rw [if_pos htext]
    have href : o.ref r = .text := if_pos htext
    exact .ok ⟨by rw [href]; rfl, by rw [Plan.rword, href], rfl⟩
  rw [if_neg htext]
  by_cases hdata : r &&& 0o16 = RDATA
  · rw [if_pos hdata]
    have href : o.ref r = .data := by rw [Object.ref, if_neg htext, if_pos hdata]
    exact .ok ⟨by rw [href]; rfl, by rw [Plan.rword, href], rfl⟩
  rw [if_neg hdata]
  by_cases hbss : r &&& 0o16 = RBSS
  · rw [if_pos hbss]
    have href : o.ref r = .bss := by rw [Object.ref, if_neg htext, if_neg hdata, if_pos hbss]
    exact .ok ⟨by rw [href]; rfl, by rw [Plan.rword, href], rfl⟩
  rw [if_neg hbss]
  by_cases hext : r &&& 0o16 = REXT
  · rw [if_pos hext]
    refine (lookloc_ends hlocal r).bind ?_
    rintro k ⟨u, hu, hat⟩
    obtain ⟨sp, hsp, -⟩ := hs.get_of_at hat
    have href : o.ref r = .symbol u.sname := by
      rw [Object.ref, if_neg htext, if_neg hdata, if_neg hbss, if_pos hext, hu]
      rfl
    have hentry := entry_of hat hsp
    rw [hsp, Plan.rword, href]
    dsimp only [Ref.moved]
    rw [hentry, Plan.value, hentry]
    dsimp only [Option.elim_some]
    by_cases hundef : sp.stype = EXTERN + UNDEF
    · rw [if_pos hundef, if_pos hundef, if_pos hundef]
      refine .pure ⟨(add_zero t).symm, rfl, ?_⟩
      exact low_bit_add r _ _ (shift_even _).1 (by decide)
    · rw [if_neg hundef, if_neg hundef, if_neg hundef]
      refine .pure ⟨rfl, rfl, ?_⟩
      have hbit := low_bit_add r _ 0 (shift_even ((sp.stype - (EXTERN + ABS)).toUInt16)).2 (by decide)
      rwa [add_zero] at hbit
  · rw [if_neg hext]
    have href : o.ref r = .absolute := by
      rw [Object.ref, if_neg htext, if_neg hdata, if_neg hbss, if_neg hext]
    exact .ok ⟨by rw [href]; exact (add_zero t).symm, by rw [Plan.rword, href], rfl⟩

/-- A word. -/
lemma word_ends (hs : P.link.Hashed)
    (hlocal : ∀ l ∈ local_, ∃ u, o.symbols[l.1]? = some u ∧ P.link.at? u.sname = some l.2)
    (creloc : Word) (w : Word × Word) : Ends (P.word local_ rel creloc w) fun w' =>
      w' = (relocate P.value o rel creloc w, P.rword o w.2) := by
  rw [Plan.word]
  refine (refer_ends hs hlocal w.1 w.2).bind ?_
  rintro ⟨t, r⟩ ⟨ht, hr, hbit⟩
  refine .pure (Prod.ext ?_ hr)
  dsimp only at ht hbit ⊢
  rw [relocate, hbit, ht]
  by_cases hodd : w.2 &&& 1 ≠ 0
  · rw [if_pos hodd, if_pos hodd]
  · rw [if_neg hodd, if_neg hodd, UInt16.sub_zero]

/-- The words of a segment. -/
lemma load2td_ends (hs : P.link.Hashed)
    (hlocal : ∀ l ∈ local_, ∃ u, o.symbols[l.1]? = some u ∧ P.link.at? u.sname = some l.2)
    (creloc : Word) (l : List (Word × Word)) : Ends (P.load2td local_ rel creloc l) fun l' =>
      l' = l.map fun w => (relocate P.value o rel creloc w, P.rword o w.2) := by
  refine (Ends.mapM fun w _ => word_ends hs hlocal creloc w).mono fun l' hl' => ?_
  induction hl' with
  | nil => rfl
  | cons hw hl ih => rw [List.map_cons, hw, ih]

end

/-! ## Symbols -/

/-- What `load2` leaves alone while it goes through the symbols. -/
def Load.rest (p : Load) :
    Word × Word × Word × List Word × List Word × List Word × List Word :=
  (p.torigin, p.dorigin, p.borigin, p.toutb, p.doutb, p.troutb, p.droutb)

/-- The loop of `load2` over the symbols of `o`, when it has been through `pre`. -/
structure Checked (P : Plan) (rel : Rel) (o : Object) (p₀ : Load) (pre : List (Symbol × ℕ))
    (r : Load × List Local) : Prop where
  rest : r.1.rest = p₀.rest
  local_ : ∀ l ∈ r.2, ∃ u, o.symbols[l.1]? = some u ∧ P.link.at? u.sname = some l.2
  found : ∀ c ∈ pre, c.1.Defines → discards P.link.flags (symreloc rel c.1).stype = false →
    (P.link.at? c.1.sname).isSome
  said : ∀ x, x ∈ r.1.said ↔
    x ∈ p₀.said ∨ x = "Multiply defined" ∧ ∃ c ∈ pre, P.Clash rel c.1

section

variable {P : Plan} {o : Object} {rel : Rel} {p₀ : Load} {pre : List (Symbol × ℕ)}
  {r : Load × List Local} {c : Symbol} {i : ℕ}

/-- A symbol that is no clash. -/
lemma Checked.next {r' : Load × List Local} (h : Checked P rel o p₀ pre r) (hrest : r'.1.rest = r.1.rest)
    (hlocal : ∀ l ∈ r'.2, ∃ u, o.symbols[l.1]? = some u ∧ P.link.at? u.sname = some l.2)
    (hsaid : r'.1.said = r.1.said)
    (hfound : c.Defines → discards P.link.flags (symreloc rel c).stype = false →
      (P.link.at? c.sname).isSome)
    (hno : ¬P.Clash rel c) : Checked P rel o p₀ (pre ++ [(c, i)]) r' where
  rest := hrest.trans h.rest
  local_ := hlocal
  found := List.forall_mem_append.mpr ⟨h.found, List.forall_mem_singleton.mpr hfound⟩
  said x := by
    rw [hsaid, h.said]
    refine or_congr_right (and_congr_right fun _ => ?_)
    simp [hno]

lemma symbol_checked (hs : P.link.Hashed) (h : Checked P rel o p₀ pre r)
    (hc : o.symbols[i]? = some c) :
    Ends (P.symbol rel r (c, i)) (Checked P rel o p₀ (pre ++ [(c, i)])) := by
  rw [Plan.symbol]
  dsimp only
  refine .ite (fun hdis => .ok (h.next rfl h.local_ rfl ?_ ?_)) fun hkeep => ?_
  · exact fun _ hno => absurd (hdis.symm.trans hno) (by decide)
  · exact fun hclash => absurd (hdis.symm.trans hclash.2.1) (by decide)
  refine .ite (fun hlocal => ?_) fun hext => ?_
  · have hno : ¬c.Defines := fun hdef => hdef.global ((symreloc_local rel c).mp hlocal)
    exact .ite (fun _ => .ok (h.next rfl h.local_ rfl (fun hdef => absurd hdef hno)
      fun hclash => hno hclash.1)) fun _ => .ok (h.next rfl h.local_ rfl (fun hdef => absurd hdef hno)
        fun hclash => hno hclash.1)
  rw [symreloc_sname]
  cases hat : P.link.at? c.sname with
  | none => exact .error
  | some k =>
      dsimp only
      have hfound : (P.link.at? c.sname).isSome := by
        rw [hat]
        rfl
      obtain ⟨sp, hsp, -⟩ := hs.get_of_at hat
      refine .ite (fun hundef => .ite (fun _ => .error) fun _ => .ok ?_) fun hdef => ?_
      · -- a reference
        refine h.next rfl ?_ rfl (fun _ _ => hfound) fun hclash => ?_
        · refine List.forall_mem_append.mpr ⟨h.local_, List.forall_mem_singleton.mpr ⟨c, hc, hat⟩⟩
        · exact hclash.1.defined ((symreloc_undef rel c).mp hundef)
      have hdefines : c.Defines :=
        ⟨fun hloc => hext ((symreloc_local rel c).mpr hloc),
          fun hu => hdef ((symreloc_undef rel c).mpr hu)⟩
      rw [hsp, Option.any_some]
      refine .ite (fun hdiff => .ok ?_) fun hsame => .ok (h.next rfl h.local_ rfl (fun _ _ => hfound) ?_)
      · have hclash : P.Clash rel c :=
          ⟨hdefines, by simpa using hkeep, k, sp, hat, hsp, of_decide_eq_true hdiff⟩
        refine ⟨h.rest, h.local_, ?_, fun x => ?_⟩
        · exact List.forall_mem_append.mpr
            ⟨h.found, List.forall_mem_singleton.mpr fun _ _ => hfound⟩
        · rw [List.mem_append, h.said, List.mem_singleton]
          have hex : ∃ c' ∈ pre ++ [(c, i)], P.Clash rel c'.1 :=
            ⟨(c, i), List.mem_append_right _ (List.mem_singleton_self _), hclash⟩
          tauto
      · rintro ⟨-, -, k', sp', hat', hsp', hne⟩
        obtain rfl : k = k' := Option.some.inj (hat.symm.trans hat')
        obtain rfl : sp = sp' := Option.some.inj (hsp.symm.trans hsp')
        exact hsame (decide_eq_true hne)

end

/-! ## Modules -/

/-- The second pass has loaded `pre`. -/
structure Loading (P : Plan) (pre : List (List UInt8 × Object)) (p : Load) : Prop where
  origins : (⟨p.torigin, p.dorigin, p.borigin⟩ : Rel) =
    (pre.map (·.2)).foldl Rel.after ⟨0, P.dorigin, P.borigin⟩
  text : p.toutb = (P.placed pre).flatMap fun q => q.1.text.map (relocate P.value q.1 q.2 q.2.ctrel)
  data : p.doutb = (P.placed pre).flatMap fun q => q.1.data.map (relocate P.value q.1 q.2 q.2.cdrel)
  treloc : P.link.flags.rflag = true →
    p.troutb = (P.placed pre).flatMap fun q => q.1.text.map fun w => P.rword q.1 w.2
  dreloc : P.link.flags.rflag = true →
    p.droutb = (P.placed pre).flatMap fun q => q.1.data.map fun w => P.rword q.1 w.2
  tsize : p.torigin = UInt16.ofNat (2 * p.toutb.length)
  dsize : p.dorigin = P.dorigin + UInt16.ofNat (2 * p.doutb.length)
  found : ∀ q ∈ P.placed pre, ∀ c ∈ q.1.symbols, c.Defines →
    discards P.link.flags (symreloc q.2 c).stype = false → (P.link.at? c.sname).isSome
  said : ∀ x, x ∈ p.said ↔ x ∈ P.link.said ∨
    x = "Multiply defined" ∧ ∃ q ∈ P.placed pre, ∃ c ∈ q.1.symbols, P.Clash q.2 c

section

variable {P : Plan} {pre : List (List UInt8 × Object)} {p : Load} {name : List UInt8} {o : Object}

lemma placed_next (h : Loading P pre p) :
    P.placed (pre ++ [(name, o)]) = P.placed pre ++ [(o, Plan.rel p o)] := by
  rw [Plan.placed, List.map_append, List.map_singleton, placed_concat, ← h.origins]
  rfl

lemma mkfsym_keeps (P : Plan) (p : Load) (name : List UInt8) :
    (P.mkfsym p name).rest = p.rest ∧ (P.mkfsym p name).said = p.said := by
  rw [Plan.mkfsym]
  split_ifs <;> exact ⟨rfl, rfl⟩

/-- `load2` -/
lemma load2_loading (hs : P.link.Hashed) (h : Loading P pre p) :
    Ends (P.load2 p name o) (Loading P (pre ++ [(name, o)])) := by
  obtain ⟨hrest₀, hsaid₀⟩ := mkfsym_keeps P p name
  set rel := Plan.rel p o with hrel
  have hloop : Ends (o.symbols.zipIdx.foldlM (P.symbol rel) (P.mkfsym p name, []))
      (Checked P rel o (P.mkfsym p name) o.symbols.zipIdx) := by
    refine .foldlM (fun pre c post r hl hr => ?_) ⟨rfl, List.forall_mem_nil _, List.forall_mem_nil _, ?_⟩
    · have hmem : c ∈ o.symbols.zipIdx := hl ▸ List.mem_append_right _ List.mem_cons_self
      exact symbol_checked hs hr (List.mem_zipIdx_iff_getElem?.mp hmem)
    · simp
  rw [Plan.load2]
  refine hloop.bind ?_
  rintro ⟨q, local_⟩ hq
  refine (load2td_ends hs hq.local_ rel.ctrel o.text).bind ?_
  rintro text rfl
  refine (load2td_ends hs hq.local_ rel.cdrel o.data).bind ?_
  rintro data rfl
  have hrest := hq.rest.trans hrest₀
  simp only [Load.rest, Prod.mk.injEq] at hrest
  obtain ⟨htorigin, hdorigin, hborigin, htoutb, hdoutb, htroutb, hdroutb⟩ := hrest
  have hplaced : P.placed (pre ++ [(name, o)]) = P.placed pre ++ [(o, rel)] := placed_next h
  have hmap (f : Object → Rel → Word × Word → Word) :
      (P.placed (pre ++ [(name, o)])).flatMap (fun q => q.1.text.map (f q.1 q.2)) =
        (P.placed pre).flatMap (fun q => q.1.text.map (f q.1 q.2)) ++ o.text.map (f o rel) := by
    rw [hplaced, List.flatMap_append, List.flatMap_singleton]
  have hmap' (f : Object → Rel → Word × Word → Word) :
      (P.placed (pre ++ [(name, o)])).flatMap (fun q => q.1.data.map (f q.1 q.2)) =
        (P.placed pre).flatMap (fun q => q.1.data.map (f q.1 q.2)) ++ o.data.map (f o rel) := by
    rw [hplaced, List.flatMap_append, List.flatMap_singleton]
  refine .pure ?_
  constructor
  case origins =>
    rw [List.map_append, List.foldl_append, ← h.origins, htorigin, hdorigin, hborigin]
    rfl
  case text =>
    dsimp only
    rw [List.map_map, htoutb, h.text, hmap fun o rel => relocate P.value o rel rel.ctrel]
    rfl
  case data =>
    dsimp only
    rw [List.map_map, hdoutb, h.data, hmap' fun o rel => relocate P.value o rel rel.cdrel]
    rfl
  case treloc =>
    intro hr
    dsimp only
    rw [if_pos hr, List.map_map, htroutb, h.treloc hr, hmap fun o _ w => P.rword o w.2]
    rfl
  case dreloc =>
    intro hr
    dsimp only
    rw [if_pos hr, List.map_map, hdroutb, h.dreloc hr, hmap' fun o _ w => P.rword o w.2]
    rfl
  case tsize =>
    dsimp only
    rw [htorigin, htoutb, h.tsize, Object.tsize, List.length_append, List.length_map, List.length_map,
      Nat.mul_add, UInt16.ofNat_add]
  case dsize =>
    dsimp only
    rw [hdorigin, hdoutb, h.dsize, Object.dsize, List.length_append, List.length_map, List.length_map,
      Nat.mul_add, UInt16.ofNat_add, add_assoc]
  case found =>
    rw [hplaced]
    refine List.forall_mem_append.mpr ⟨h.found, List.forall_mem_singleton.mpr fun c hc => ?_⟩
    obtain ⟨i, hi⟩ := List.mem_iff_getElem?.mp hc
    exact hq.found (c, i) (List.mem_zipIdx_iff_getElem?.mpr hi)
  case said =>
    intro x
    rw [hplaced]
    dsimp only
    rw [hq.said, hsaid₀, h.said]
    have hsymbols : (∃ c ∈ o.symbols.zipIdx, P.Clash rel c.1) ↔ ∃ c ∈ o.symbols, P.Clash rel c := by
      refine ⟨?_, ?_⟩
      · rintro ⟨c, hc, hclash⟩
        exact ⟨c.1, List.mem_of_getElem? (List.mem_zipIdx_iff_getElem?.mp hc), hclash⟩
      · rintro ⟨c, hc, hclash⟩
        obtain ⟨i, hi⟩ := List.mem_iff_getElem?.mp hc
        exact ⟨(c, i), List.mem_zipIdx_iff_getElem?.mpr hi, hclash⟩
    rw [hsymbols]
    simp only [List.mem_append, List.mem_singleton, or_and_right, exists_or, exists_eq_left]
    rw [or_assoc, ← and_or_left]

end

/-- The whole of the second pass. -/
lemma loads_loading {P : Plan} (hs : P.link.Hashed) (mods : List (List UInt8 × Object)) (errlev : ℕ) :
    Ends (mods.foldlM (fun p o => P.load2 p o.1 o.2)
      ⟨0, P.dorigin, P.borigin, [], [], [], [], [], errlev, P.link.said⟩) (Loading P mods) := by
  refine .foldlM (fun pre o post p hl hp => load2_loading hs hp) ?_
  refine ⟨rfl, rfl, rfl, fun _ => rfl, fun _ => rfl, rfl, (add_zero _).symm, List.forall_mem_nil _, ?_⟩
  simp [Plan.placed, Ld.placed]

/-! ## The output -/

lemma setupout_keeps (s : Link) : (setupout s).2.table = s.table ∧ (setupout s).2.symtab = s.symtab ∧
    (setupout s).2.flags = s.flags ∧ (setupout s).2.liblist = s.liblist ∧
    (∀ x, x ∈ (setupout s).2.said → x ∈ s.said ∨ x = "Entry point not in text") ∧
    (∀ x ∈ s.said, x ∈ (setupout s).2.said) ∧
    (setupout s).1.tsize = s.tsize ∧ (setupout s).1.dsize = s.dsize ∧
    (setupout s).1.bsize = s.bsize := by
  rw [setupout]
  dsimp only
  cases s.entrypt.bind (s.symtab[·]?) with
  | none => exact ⟨rfl, rfl, rfl, rfl, fun _ => .inl, fun _ => id, rfl, rfl, rfl⟩
  | some sp =>
      dsimp only
      by_cases ht : sp.stype ≠ EXTERN + TEXT
      · rw [if_pos ht]
        refine ⟨rfl, rfl, rfl, rfl, fun x hx => ?_, fun x hx => List.mem_append_left _ hx, rfl, rfl, rfl⟩
        exact (List.mem_append.mp hx).imp_right List.mem_singleton.mp
      · rw [if_neg ht]
        exact ⟨rfl, rfl, rfl, rfl, fun _ => .inl, fun _ => id, rfl, rfl, rfl⟩

/-- What becomes of a link when the passes are over. -/
structure Done (argv : List Arg) (P : Plan) (out : Output) (s : Link) (ms : List Object) (p : Load) :
    Prop where
  gone : Gone (Common argv) argv s ms
  hashed : P.link.Hashed
  table : P.link.table = s.table
  liblist : P.link.liblist = s.liblist
  sflag : P.link.flags.Sflag = s.flags.Sflag
  settled : ∀ (k : ℕ) (e : Symbol), s.symtab[k]? = some e → e.stype ≠ EXTERN + UNDEF →
    P.link.symtab[k]? = some (settle P.dorigin P.corigin P.borigin e)
  mono : ∀ x ∈ s.said, x ∈ P.link.said
  only : "Multiply defined" ∈ P.link.said → ∃ n ∈ [etext, edata, «end»], Claimed s (s.at? n)
  tsize : out.header.tsize =
    if P.link.flags.nflag || P.link.flags.iflag then (s.tsize + 0o77) &&& ~~~0o77 else s.tsize
  dsize : out.header.dsize = s.dsize
  bsize : out.header.bsize = s.bsize + (P.borigin - P.corigin)
  corigin : P.corigin = P.dorigin + out.header.dsize
  dorigin : P.dorigin = if P.link.flags.iflag then 0
    else if P.link.flags.nflag then (out.header.tsize + 0o17777) &&& ~~~0o17777 else out.header.tsize
  commons : (P.link.flags.dflag || !P.link.flags.rflag) = true → "bss overflow" ∉ P.link.said →
    ∃ l, (P.borigin - P.corigin).toNat = (l.map room).sum ∧
      Roomy l s.symtab P.link.symtab P.corigin (EXTERN + BSS)
  loading : Loading P (loads P.link.liblist argv) p
  finish : out = finishout P out.header p

lemma ld_done (limit : ℕ) (nil : UInt8) (argv : List Arg) :
    Ends (ld limit nil argv) fun r => ∃ s ms p, Done argv r.1 r.2 s ms p := by
  rw [ld]
  refine (pass1_gone limit nil argv).bind ?_
  rintro s ⟨ms, hs⟩
  have hplan := middle_planned s hs.passed.hashed
  obtain ⟨htable, hsymtab, hflags, hlib, honly, hmono, htsize, hdsize, hbsize⟩ := setupout_keeps s.middle.link
  rw [endload]
  rcases hset : setupout s.middle.link with ⟨header, link⟩
  rw [hset] at htable hsymtab hflags hlib honly hmono htsize hdsize hbsize
  dsimp only at htable hsymtab hflags hlib honly hmono htsize hdsize hbsize ⊢
  have hhashed : link.Hashed := hs.passed.hashed.of_table (htable.trans hplan.table)
  set P : Plan := { s.middle with link } with hP
  refine (loads_loading (P := P) hhashed (loads link.liblist argv) link.errlev).bind fun p hp => ?_
  refine .pure ⟨s, ms, p, hs, hhashed, htable.trans hplan.table, hlib.trans hplan.liblist, ?_, ?_, ?_, ?_,
    ?_, ?_, ?_, ?_, ?_, ?_, hp, rfl⟩
  · show link.flags.Sflag = _
    rw [hflags, hplan.sflag]
  · intro k e he hne
    show link.symtab[k]? = _
    rw [hsymtab]
    exact hplan.settled k e he hne
  · exact fun x hx => hmono x (hplan.mono x hx)
  · intro hm
    have hin := (honly _ hm).resolve_right (by decide)
    exact (hplan.only hin).resolve_left hs.passed.quiet
  · show header.tsize = if link.flags.nflag || link.flags.iflag then _ else _
    rw [htsize, hflags]
    exact hplan.tsize
  · show header.dsize = _
    rw [hdsize, hplan.dsize]
  · show header.bsize = s.bsize + (s.middle.borigin - s.middle.corigin)
    rw [hbsize, hplan.bsize]
  · show s.middle.corigin = s.middle.dorigin + header.dsize
    rw [hdsize, hplan.corigin]
  · show s.middle.dorigin = if link.flags.iflag then 0 else if link.flags.nflag then
      (header.tsize + _) &&& _ else header.tsize
    rw [htsize, hflags]
    exact hplan.dorigin
  · intro hc hno
    rw [hflags] at hc
    rw [hsymtab]
    exact hplan.commons hc fun hin => hno (hmono _ hin)

/-- The modules that are loaded, in their places. -/
def Plan.modules (P : Plan) (argv : List Arg) : List (Object × Rel) :=
  P.placed (loads P.link.liblist argv)

section

variable {argv : List Arg} {P : Plan} {out : Output} {s : Link} {ms : List Object} {p : Load}

lemma Done.said (h : Done argv P out s ms p) : out.said = p.said := by
  rw [h.finish]
  rfl

/-- Both passes load the same modules. -/
lemma Done.modules (h : Done argv P out s ms p) (hno : "No relocation bits" ∉ out.said) :
    (loads P.link.liblist argv).map (·.2) = ms := by
  have hs : "No relocation bits" ∉ s.said := by
    intro hin
    refine hno ?_
    rw [h.said, h.loading.said]
    exact .inl (h.mono _ hin)
  obtain ⟨mods, hmods, hloads⟩ := h.gone.listed hs
  have hall := hloads [] []
  rw [List.append_nil, List.append_nil, loads, List.append_nil] at hall
  rw [h.liblist, hall, hmods]

/-- The origins of the passes differ, and nothing else. -/
lemma foldl_after (o : Rel) (d b : Word) (ms : List Object) :
    ms.foldl Rel.after ⟨o.ctrel, o.cdrel + d, o.cbrel + b⟩ =
      ⟨(ms.foldl Rel.after o).ctrel, (ms.foldl Rel.after o).cdrel + d,
        (ms.foldl Rel.after o).cbrel + b⟩ := by
  induction ms generalizing o with
  | nil => rfl
  | cons m ms ih =>
      have hafter : (⟨o.ctrel, o.cdrel + d, o.cbrel + b⟩ : Rel).after m =
          ⟨(o.after m).ctrel, (o.after m).cdrel + d, (o.after m).cbrel + b⟩ := by
        simp only [Rel.after, Rel.mk.injEq]
        exact ⟨trivial, by abel, by abel⟩
      rw [List.foldl_cons, List.foldl_cons, hafter, ih]

lemma foldl_after_bss (o : Rel) (ms : List Object) :
    (ms.foldl Rel.after o).cbrel = o.cbrel + (ms.map (·.bsize)).sum := by
  induction ms generalizing o with
  | nil => exact (add_zero _).symm
  | cons m ms ih =>
      rw [List.foldl_cons, ih, List.map_cons, List.sum_cons, ← add_assoc]
      rfl

/-- The sizes of the first pass are the lengths of the second. -/
lemma Done.sizes (h : Done argv P out s ms p) (hno : "No relocation bits" ∉ out.said) :
    s.tsize = UInt16.ofNat (2 * p.toutb.length) ∧ s.dsize = UInt16.ofNat (2 * p.doutb.length) := by
  have horigins := h.loading.origins
  have hzero := foldl_after ⟨0, 0, 0⟩ P.dorigin P.borigin ms
  simp only [zero_add] at hzero
  rw [h.modules hno, hzero, ← h.gone.passed.sizes, Rel.mk.injEq] at horigins
  obtain ⟨ht, hd, -⟩ := horigins
  have hsum : s.dsize + P.dorigin = P.dorigin + UInt16.ofNat (2 * p.doutb.length) :=
    hd.symm.trans h.loading.dsize
  rw [add_comm] at hsum
  exact ⟨ht.symm.trans h.loading.tsize, add_left_cancel hsum⟩

/-- A definition that does not clash is what the table has. -/
lemma Done.agrees (h : Done argv P out s ms p) {q : Object × Rel} (hq : q ∈ P.modules argv) {c : Symbol}
    (hc : c ∈ q.1.symbols) (hdef : c.Defines)
    (hkeep : discards P.link.flags (symreloc q.2 c).stype = false) (hno : ¬P.Clash q.2 c) :
    ∃ k, P.link.at? c.sname = some k ∧ P.link.symtab[k]? = some (symreloc q.2 c) := by
  obtain ⟨k, hk⟩ := Option.isSome_iff_exists.mp (h.loading.found q hq c hc hdef hkeep)
  obtain ⟨sp, hsp, hname⟩ := h.hashed.get_of_at hk
  have hsame : (symreloc q.2 c).stype = sp.stype ∧ (symreloc q.2 c).svalue = sp.svalue := by
    by_contra hdiff
    exact hno ⟨hdef, hkeep, k, sp, hk, hsp, not_and_or.mp hdiff⟩
  refine ⟨k, hk, hsp.trans (congrArg some ?_)⟩
  exact Symbol.ext (hname.trans (symreloc_sname q.2 c).symm) hsame.1.symm hsame.2.symm

/-- And gives its name its value. -/
lemma Done.value (h : Done argv P out s ms p) {q : Object × Rel} (hq : q ∈ P.modules argv) {c : Symbol}
    (hc : c ∈ q.1.symbols) (hdef : c.Defines)
    (hkeep : discards P.link.flags (symreloc q.2 c).stype = false) (hno : ¬P.Clash q.2 c) :
    P.value c.sname = (symreloc q.2 c).svalue := by
  obtain ⟨k, hk, hsp⟩ := h.agrees hq hc hdef hkeep hno
  rw [Plan.value, entry_of hk hsp]
  exact if_neg fun hu => hdef.defined ((symreloc_undef q.2 c).mp hu)

/-- A definition of the first pass is one of a module in its place. -/
lemma Done.defs (h : Done argv P out s ms p) (hno : "No relocation bits" ∉ out.said) {e : Symbol}
    (he : e ∈ s.symtab) (hne : e.stype ≠ EXTERN + UNDEF) :
    ∃ q ∈ P.modules argv, ∃ c ∈ q.1.symbols, c.Defines ∧ e.sname = c.sname ∧
      settle P.dorigin P.corigin P.borigin e = symreloc q.2 c := by
  obtain ⟨q, hq, c, hc, hdef, rfl⟩ := (h.gone.passed.entries e he).defined hne
  have hadd := placed_add ⟨0, 0, 0⟩ P.dorigin P.borigin ms
  simp only [zero_add] at hadd
  refine ⟨(q.1, ⟨q.2.ctrel, q.2.cdrel + P.dorigin, q.2.cbrel + P.borigin⟩), ?_, c, hc, hdef,
    symreloc_sname q.2 c, settle_symreloc hdef ..⟩
  rw [Plan.modules, Plan.placed, h.modules hno, hadd]
  exact List.mem_map_of_mem hq

end

/-! ## Filling up -/

/-- The words that `finishout` fills up are those that `middle` has counted on. -/
lemma fill_rounds (n : ℕ) : (UInt16.ofNat (2 * n) + 0o77) &&& ~~~0o77 =
    UInt16.ofNat (2 * (n + fill (UInt16.ofNat (2 * n)))) := by
  refine UInt16.toNat.inj ?_
  have hx : (UInt16.ofNat (2 * n)).toNat = 2 * n % 65536 := UInt16.toNat_ofNat'
  rw [and_mask 6 (by decide) _ (by decide), UInt16.toNat_add, fill, hx, UInt16.toNat_ofNat',
    show (0o77 : Word).toNat = 63 by decide]
  omega

/-! ## The theorems -/

/-- The output is the modules, put together: under an assignment of values to names, all their words
are relocated to the places of the modules, and a name has the value of its definition; the header says
how long the segments are, and the data, the common symbols and the bss come after one another. -/
structure Linked (ms : List (Object × Rel)) (P : Plan) (out : Output) (value : Name → Word) : Prop where
  text : ∃ n, out.text =
    (ms.flatMap fun q => q.1.text.map (relocate value q.1 q.2 q.2.ctrel)) ++ List.replicate n 0
  data : out.data = ms.flatMap fun q => q.1.data.map (relocate value q.1 q.2 q.2.cdrel)
  defined : ∀ q ∈ ms, ∀ c ∈ q.1.symbols, c.Defines →
    discards P.link.flags (symreloc q.2 c).stype = false → value c.sname = (symreloc q.2 c).svalue
  tsize : out.header.tsize = UInt16.ofNat (2 * out.text.length)
  dsize : out.header.dsize = UInt16.ofNat (2 * out.data.length)
  bsize : out.header.bsize = (ms.map (·.1.bsize)).sum + (P.borigin - P.corigin)
  dorigin : P.dorigin = if P.link.flags.iflag then 0
    else if P.link.flags.nflag then (out.header.tsize + 0o17777) &&& ~~~0o17777 else out.header.tsize
  corigin : P.corigin = P.dorigin + out.header.dsize

/-- When nothing is said, the output is the modules. -/
lemma Done.linked {argv : List Arg} {P : Plan} {out : Output} {s : Link} {ms : List Object} {p : Load}
    (h : Done argv P out s ms p) (hsaid : out.said = []) : Linked (P.modules argv) P out P.value := by
  have hno : "No relocation bits" ∉ out.said := by
    rw [hsaid]
    exact List.not_mem_nil
  obtain ⟨htsize, hdsize⟩ := h.sizes hno
  have hclash : ∀ q ∈ P.modules argv, ∀ c ∈ q.1.symbols, ¬P.Clash q.2 c := by
    intro q hq c hc hbad
    have hm : "Multiply defined" ∈ p.said :=
      (h.loading.said _).mpr (.inr ⟨rfl, q, hq, c, hc, hbad⟩)
    rw [← h.said, hsaid] at hm
    exact absurd hm List.not_mem_nil
  have hfinish := h.finish
  have htext : out.text = p.toutb ++ List.replicate
      (if P.link.flags.nflag || P.link.flags.iflag then fill p.torigin else 0) 0 := by
    rw [hfinish]
    rfl
  constructor
  case text =>
    exact ⟨_, htext.trans (congrArg (· ++ List.replicate _ 0) h.loading.text)⟩
  case data =>
    rw [hfinish]
    exact h.loading.data
  case defined => exact fun q hq c hc hdef hkeep => h.value hq hc hdef hkeep (hclash q hq c hc)
  case tsize =>
    rw [h.tsize, htext, List.length_append, List.length_replicate, htsize, h.loading.tsize]
    by_cases hround : (P.link.flags.nflag || P.link.flags.iflag) = true
    · rw [if_pos hround, if_pos hround, fill_rounds]
    · rw [if_neg hround, if_neg hround, Nat.add_zero]
  case dsize =>
    have hdata : out.data = p.doutb := by
      rw [hfinish]
      rfl
    rw [h.dsize, hdsize, hdata]
  case bsize =>
    have hbss := foldl_after_bss ⟨0, 0, 0⟩ ms
    rw [← h.gone.passed.sizes] at hbss
    have hms : (P.modules argv).map (·.1.bsize) = ms.map (·.bsize) := by
      rw [← h.modules hno, ← placed_map_fst ⟨0, P.dorigin, P.borigin⟩ (List.map _ _), List.map_map]
      rfl
    rw [h.bsize, hms, show s.bsize = _ from hbss, zero_add]
  case dorigin => exact h.dorigin
  case corigin => exact h.corigin

/-- A module that calls what is at `c`, a common symbol. -/
def caller : Object :=
  ⟨false, [(0xCD, 0), (0, REXT)], [], 0, [⟨cp8c [99], EXTERN + UNDEF, 4⟩]⟩

def files : List Arg := [.file [109] caller]

lemma ld_files : ∃ P out, ld 1 0 files = .ok (P, out) ∧ out.said = [] ∧
    (P.link.flags.dflag || !P.link.flags.rflag) = true := by
  have hrun : (ld 1 0 files).toOption.map
      (fun r => (r.2.said, r.1.link.flags.dflag || !r.1.link.flags.rflag)) = some ([], true) := by
    decide +kernel
  obtain ⟨r, hr, hsaid⟩ := Option.map_eq_some_iff.mp hrun
  obtain ⟨P, out⟩ := r
  refine ⟨P, out, ?_, congrArg Prod.fst hsaid, congrArg Prod.snd hsaid⟩
  cases h : ld 1 0 files with
  | error e =>
      rw [h] at hr
      cases hr
  | ok r =>
      rw [h] at hr
      exact congrArg Except.ok (Option.some.inj hr)

/-- A definition that the second pass looks at was entered by the first. -/
lemma discards_of_reloc {flags : Flags} {rel : Rel} {c : Symbol}
    (h : discards flags (symreloc rel c).stype = false) : discards flags c.stype = false := by
  rcases symreloc_stype rel c with hsame | ⟨-, -, habs⟩
  · rwa [hsame] at h
  · rw [habs, discards, Bool.and_eq_false_iff] at h
    rw [discards, h.resolve_right (by decide)]
    rfl

/-- A module takes `n` for common, and gives it this size; no module defines it. -/
def Wants (ms : List (Object × Rel)) (n : Name) (size : ℕ) : Prop :=
  (∀ q ∈ ms, ∀ c ∈ q.1.symbols, c.Defines → c.sname ≠ n) ∧
    ∃ q ∈ ms, ∃ u ∈ q.1.symbols, u.stype = EXTERN + UNDEF ∧ u.sname = n ∧ u.svalue.toNat = size ∧
      0 < size ∧ size < 32768

/-- The entry of such a name. -/
lemma Done.wanted {argv : List Arg} {P : Plan} {out : Output} {s : Link} {ms : List Object} {p : Load}
    (h : Done argv P out s ms p) (hno : "No relocation bits" ∉ out.said) {n : Name} {size : ℕ}
    (hw : Wants (P.modules argv) n size) : ∃ k e, P.link.at? n = some k ∧ s.symtab[k]? = some e ∧
      e.sname = n ∧ e.IsCommon ∧ size ≤ room e := by
  obtain ⟨hnone, q, hq, u, hu, hundef, rfl, rfl, hpos, hlt⟩ := hw
  have hmod : q.1 ∈ ms := by
    rw [← h.modules hno, ← placed_map_fst ⟨0, P.dorigin, P.borigin⟩ (List.map _ _)]
    exact List.mem_map_of_mem hq
  have hkeep : discards s.flags u.stype = false := by
    rw [discards, hundef, Bool.and_eq_false_iff]
    exact .inr (by decide)
  have hglobal : u.stype &&& EXTERN ≠ 0 := by
    rw [hundef]
    decide
  obtain ⟨e, he, hans⟩ := h.gone.passed.answered q.1 hmod u hu hglobal hkeep
  have heundef : e.stype = EXTERN + UNDEF := by
    by_contra hne
    obtain ⟨q', hq', c, hc, hdef, hsname, -⟩ := h.defs hno he hne
    exact hnone q' hq' c hc hdef (hsname.symm.trans hans.sname)
  obtain ⟨k, hk⟩ := List.mem_iff_getElem?.mp he
  have hat : P.link.at? u.sname = some k := by
    rw [Link.at_of_table h.table, ← hans.sname]
    exact h.gone.passed.hashed.at_of_get hk
  have hle : u.svalue.toInt16 ≤ e.svalue.toInt16 := hans.size hundef heundef
  obtain ⟨hsize, hnonneg⟩ := toNat_le_of_toInt16 hlt hle
  have hcommon : e.IsCommon := by
    refine ⟨heundef, fun hz => ?_⟩
    rw [hz] at hsize
    exact absurd (Nat.lt_of_lt_of_le hpos hsize) (by decide)
  exact ⟨k, e, hat, hk, hans.sname, hcommon, hsize.trans (svalue_le_room hcommon hnonneg)⟩

end Ld

end Micronix
