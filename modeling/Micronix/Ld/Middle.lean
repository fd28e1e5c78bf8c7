import Mathlib.Algebra.Group.Nat.Defs
import Micronix.Ld.Passes

/-!
# Between the passes of the link editor

`middle` gives places to the common symbols, and to the segments.  The definitions of the modules are
then relocated as if their segments had been placed there at once.
-/

namespace Micronix

namespace Ld

/-- Nothing becomes of the entries but that undefined ones get a definition. -/
structure Stays (s t : Link) : Prop where
  table : t.table = s.table
  later : Later s.symtab t.symtab
  liblist : t.liblist = s.liblist
  entrypt : t.entrypt = s.entrypt
  tsize : t.tsize = s.tsize
  dsize : t.dsize = s.dsize
  bsize : t.bsize = s.bsize
  sflag : t.flags.Sflag = s.flags.Sflag
  mono : ∀ x ∈ s.said, x ∈ t.said

namespace Stays

variable {s t u : Link}

lemma refl (s : Link) : Stays s s := ⟨rfl, .refl _, rfl, rfl, rfl, rfl, rfl, rfl, fun _ => id⟩

lemma trans (h : Stays s t) (h' : Stays t u) : Stays s u where
  table := h'.table.trans h.table
  later := h.later.trans h'.later
  liblist := h'.liblist.trans h.liblist
  entrypt := h'.entrypt.trans h.entrypt
  tsize := h'.tsize.trans h.tsize
  dsize := h'.dsize.trans h.dsize
  bsize := h'.bsize.trans h.bsize
  sflag := h'.sflag.trans h.sflag
  mono x hx := h'.mono x (h.mono x hx)

lemma told {msgs : List String} (h : Link.Told msgs s t) : Stays s t := by
  have hsame := h.same
  refine ⟨?_, ?_, ?_, ?_, ?_, ?_, ?_, ?_, h.mono⟩
  all_goals rw [hsame]
  · rfl
  · exact .refl _

end Stays

variable {s t : Link} {P : Plan}

lemma bits_stays (s : Link) : Stays s s.bits ∧ s.bits.said = s.said ∧ s.bits.symtab = s.symtab := by
  rw [Link.bits]
  by_cases hund : (!s.flags.rflag && s.undefined) = true
  · rw [if_pos hund]
    exact ⟨⟨rfl, .refl _, rfl, rfl, rfl, rfl, rfl, rfl, fun _ => id⟩, rfl, rfl⟩
  · rw [if_neg hund]
    by_cases hr : s.flags.rflag = true
    · rw [if_pos hr]
      exact ⟨⟨rfl, .refl _, rfl, rfl, rfl, rfl, rfl, rfl, fun _ => id⟩, rfl, rfl⟩
    · rw [if_neg hr]
      exact ⟨.refl s, rfl, rfl⟩

/-- The symbol at `asp` is defined or common. -/
def Claimed (s : Link) (asp : Option ℕ) : Prop :=
  ∃ k sp, asp = some k ∧ s.symtab[k]? = some sp ∧ (sp.stype ≠ EXTERN + UNDEF ∨ sp.svalue ≠ 0)

/-- `ldrsym` -/
lemma ldrsym_stays (s : Link) (asp : Option ℕ) (val : Word) {type : UInt8}
    (htype : type ≠ EXTERN + UNDEF) : Stays s (ldrsym s asp val type) ∧
      ("Multiply defined" ∈ (ldrsym s asp val type).said →
        "Multiply defined" ∈ s.said ∨ Claimed s asp) := by
  cases asp with
  | none => exact ⟨.refl s, .inl⟩
  | some k =>
      rw [ldrsym]
      by_cases hany : (s.symtab[k]?.any fun sp => sp.stype ≠ EXTERN + UNDEF ∨ sp.svalue ≠ 0) = true
      · rw [if_pos hany]
        obtain ⟨sp, hget, hsp⟩ := (Option.any_eq_true _ _).mp hany
        exact ⟨.told (Link.error_told s 1 (List.mem_singleton_self _)),
          fun _ => .inr ⟨k, sp, rfl, hget, of_decide_eq_true hsp⟩⟩
      · rw [if_neg hany]
        refine ⟨⟨?_, ?_, rfl, rfl, rfl, rfl, rfl, rfl, fun _ => id⟩, .inl⟩
        · exact Link.table_modify fun _ => rfl
        · refine later_modify fun e he => ⟨rfl, fun hne => ?_, fun hu => absurd hu htype⟩
          exact absurd ((Option.any_eq_true _ _).mpr ⟨e, he, decide_eq_true (.inl hne)⟩) hany

/-- The other symbols. -/
lemma ldrsym_other (s : Link) (asp : Option ℕ) (val : Word) (type : UInt8) {k : ℕ} (hk : asp ≠ some k) :
    (ldrsym s asp val type).symtab[k]? = s.symtab[k]? := by
  cases asp with
  | none => rfl
  | some j =>
      rw [ldrsym]
      split_ifs
      · rfl
      · exact List.getElem?_modify_ne _ _ fun h => hk (congrArg some h)

lemma Claimed.of_ldrsym {asp asp' : Option ℕ} {val : Word} {type : UInt8}
    (h : Claimed (ldrsym s asp val type) asp') (hne : ∀ k, asp' = some k → asp ≠ some k) :
    Claimed s asp' := by
  obtain ⟨k, sp, hk, hget, hsp⟩ := h
  rw [ldrsym_other s asp val type (hne k hk)] at hget
  exact ⟨k, sp, hk, hget, hsp⟩

lemma at_ne (hs : s.Hashed) {n n' : Name} (hn : n ≠ n') (k : ℕ) (h : s.at? n' = some k) :
    s.at? n ≠ some k := by
  intro h'
  obtain ⟨sp, hget, hname⟩ := hs.get_of_at h
  obtain ⟨sp', hget', hname'⟩ := hs.get_of_at h'
  obtain rfl : sp = sp' := Option.some.inj (hget.symm.trans hget')
  exact hn (hname'.symm.trans hname)

/-- `commons` -/
lemma commons_stays (l : List Symbol) (s : Link) (csize : Word) :
    Link.Told ["bss overflow"] s (commons s csize l).2.1 ∧ Later l (commons s csize l).1 ∧
      (commons s csize l).1.map (·.sname) = l.map (·.sname) := by
  induction l generalizing s csize with
  | nil => exact ⟨.refl s, .refl _, rfl⟩
  | cons sp l ih =>
      rw [commons]
      by_cases hc : sp.stype = EXTERN + UNDEF ∧ sp.svalue ≠ 0
      · rw [if_pos hc]
        obtain ⟨htold, hlater, hnames⟩ := ih
          (s.add csize ((sp.svalue + 1) &&& ~~~1) "bss overflow") (csize + ((sp.svalue + 1) &&& ~~~1))
        refine ⟨(Link.add_told s _ _ (List.mem_singleton_self _)).trans htold, hlater.cons ?_,
          congrArg (sp.sname :: ·) hnames⟩
        exact ⟨rfl, fun hne => absurd hc.1 hne, fun hu => absurd hu (show EXTERN + COMM ≠ EXTERN + UNDEF by decide)⟩
      · rw [if_neg hc]
        obtain ⟨htold, hlater, hnames⟩ := ih s csize
        exact ⟨htold, hlater.cons (.refl sp), congrArg (sp.sname :: ·) hnames⟩

/-- `common` -/
lemma common_stays (s : Link) (hs : s.Hashed) : Stays s s.common.1 ∧
    ("Multiply defined" ∈ s.common.1.said →
      "Multiply defined" ∈ s.said ∨ ∃ n ∈ [etext, edata, «end»], Claimed s (s.at? n)) := by
  rw [Link.common]
  by_cases hc : (s.flags.dflag || !s.flags.rflag) = true
  · rw [if_pos hc]
    dsimp only
    obtain ⟨h1, hsaid1⟩ := ldrsym_stays s (s.at? etext) s.tsize (show EXTERN + TEXT ≠ EXTERN + UNDEF by decide)
    set t1 := ldrsym s (s.at? etext) s.tsize (EXTERN + TEXT) with ht1
    obtain ⟨h2, hsaid2⟩ := ldrsym_stays t1 (s.at? edata) s.dsize (show EXTERN + DATA ≠ EXTERN + UNDEF by decide)
    set t2 := ldrsym t1 (s.at? edata) s.dsize (EXTERN + DATA) with ht2
    obtain ⟨h3, hsaid3⟩ := ldrsym_stays t2 (s.at? «end») s.bsize (show EXTERN + BSS ≠ EXTERN + UNDEF by decide)
    set t3 := ldrsym t2 (s.at? «end») s.bsize (EXTERN + BSS) with ht3
    obtain ⟨htold, hlater, hnames⟩ := commons_stays t3.symtab t3 0
    rcases hcm : commons t3 0 t3.symtab with ⟨symtab, t4, csize⟩
    rw [hcm] at htold hlater hnames
    dsimp only at htold hlater hnames ⊢
    have hsame := htold.same
    have h4 : Stays t3 { t4 with symtab } := by
      refine ⟨Probing.Table.ext hnames ?_ ?_, hlater, ?_, ?_, ?_, ?_, ?_, ?_, htold.mono⟩
      all_goals rw [hsame]
      · rfl
      · rfl
    refine ⟨((h1.trans h2).trans h3).trans h4, fun hm => ?_⟩
    -- the message comes from one of the three
    have hm3 : "Multiply defined" ∈ t3.said :=
      (htold.only _ hm).resolve_right (by decide)
    have htail : edata ≠ «end» := by decide
    have hhead : etext ≠ edata ∧ etext ≠ «end» := by decide
    rcases hsaid3 hm3 with hm2 | hclaim
    · rcases hsaid2 hm2 with hm1 | hclaim
      · rcases hsaid1 hm1 with hm0 | hclaim
        · exact .inl hm0
        · exact .inr ⟨etext, by simp, hclaim⟩
      · exact .inr ⟨edata, by simp, hclaim.of_ldrsym fun k hk => at_ne hs hhead.1 k hk⟩
    · have hback : Claimed t1 (s.at? «end») := hclaim.of_ldrsym fun k hk => at_ne hs htail k hk
      exact .inr ⟨«end», by simp, hback.of_ldrsym fun k hk => at_ne hs hhead.2 k hk⟩
  · rw [if_neg hc]
    exact ⟨.refl s, .inl⟩

/-! ## Room -/

/-- An undefined symbol with a size. -/
def Symbol.IsCommon (sp : Symbol) : Prop := sp.stype = EXTERN + UNDEF ∧ sp.svalue ≠ 0

instance (sp : Symbol) : Decidable sp.IsCommon := inferInstanceAs (Decidable (_ ∧ _))

/-- How much room `middle` makes for a symbol. -/
def room (sp : Symbol) : ℕ := if sp.IsCommon then ((sp.svalue + 1) &&& ~~~1).toNat else 0

/-- The room of the symbols before `k`. -/
def before (l : List Symbol) (k : ℕ) : ℕ := ((l.take k).map room).sum

section

variable {l : List Symbol} {sp : Symbol} {j k : ℕ}

lemma before_succ (hk : l[k]? = some sp) : before l (k + 1) = before l k + room sp := by
  rw [before, before, List.take_add_one, hk, List.map_append, List.sum_append]
  rfl

lemma before_mono (h : j ≤ k) : before l j ≤ before l k := by
  obtain ⟨i, rfl⟩ := Nat.exists_eq_add_of_le h
  rw [before, before, List.take_add, List.map_append, List.sum_append]
  exact Nat.le_add_right _ _

/-- The rooms come one behind another. -/
lemma before_apart (hj : l[j]? = some sp) (h : j < k) : before l j + room sp ≤ before l k :=
  before_succ hj ▸ before_mono h

lemma before_le (hk : l[k]? = some sp) : before l k + room sp ≤ (l.map room).sum := by
  have hall : before l l.length = (l.map room).sum := by
    rw [before, List.take_length]
  exact hall ▸ before_apart hk (List.getElem?_eq_some_iff.mp hk).1

/-- A number is rounded down to a power of two. -/
lemma and_mask (i : ℕ) (hi : i ≤ 16) {m : Word} (y : Word) (hm : m.toNat = 2 ^ i * (2 ^ (16 - i) - 1)) :
    (y &&& m).toNat = y.toNat - y.toNat % 2 ^ i := by
  have hdiv : y.toNat - y.toNat % 2 ^ i = 2 ^ i * (y.toNat / 2 ^ i) := by
    have := Nat.div_add_mod y.toNat (2 ^ i)
    omega
  rw [UInt16.toNat_and, hm, hdiv]
  refine Nat.eq_of_testBit_eq fun j => ?_
  rw [Nat.testBit_and, Nat.testBit_two_pow_mul, Nat.testBit_two_pow_mul, Nat.testBit_two_pow_sub_one,
    Nat.testBit_div_two_pow]
  by_cases hij : i ≤ j
  · rw [decide_eq_true hij, Bool.true_and, Bool.true_and, Nat.sub_add_cancel hij]
    by_cases h16 : j < 16
    · rw [decide_eq_true (by omega : j - i < 16 - i), Bool.and_true]
    · have hlt : y.toNat < 2 ^ j :=
        Nat.lt_of_lt_of_le y.toNat_lt (Nat.pow_le_pow_right (by decide) (by omega))
      rw [Nat.testBit_lt_two_pow hlt]
      rfl
  · rw [decide_eq_false hij, Bool.false_and, Bool.false_and, Bool.and_false]

/-- Of sizes, the larger one. -/
lemma toNat_le_of_toInt16 {x y : Word} (hx : x.toNat < 32768) (hle : x.toInt16 ≤ y.toInt16) :
    x.toNat ≤ y.toNat ∧ y.toNat < 32768 := by
  have hint (z : Word) :
      z.toInt16.toInt = if 2 * z.toNat < 65536 then (z.toNat : ℤ) else z.toNat - 65536 :=
    BitVec.toInt_eq_toNat_cond z.toBitVec
  have hlt := y.toNat_lt
  have hle' := Int16.le_iff_toInt_le.mp hle
  rw [hint x, hint y, if_pos (by omega)] at hle'
  split_ifs at hle' <;> omega

/-- There is room for the size. -/
lemma svalue_le_room (h : sp.IsCommon) (hlt : sp.svalue.toNat < 32768) :
    sp.svalue.toNat ≤ room sp := by
  rw [room, if_pos h]
  rw [and_mask 1 (by decide) _ (by decide), UInt16.toNat_add, show (1 : Word).toNat = 1 from rfl]
  omega

end

/-- `commons` gives every common symbol its room, if all of that is in range. -/
lemma commons_rooms (l : List Symbol) (s : Link) (csize : Word)
    (hno : "bss overflow" ∉ (commons s csize l).2.1.said) :
    (commons s csize l).2.2.toNat = csize.toNat + (l.map room).sum ∧
      ∀ (k : ℕ) (sp : Symbol), l[k]? = some sp → sp.IsCommon → (commons s csize l).1[k]? =
        some { sp with svalue := csize + UInt16.ofNat (before l k), stype := EXTERN + COMM } := by
  induction l generalizing s csize with
  | nil => exact ⟨rfl, fun k sp hk => absurd hk (by simp)⟩
  | cons sp l ih =>
      rw [commons] at hno ⊢
      by_cases hc : sp.stype = EXTERN + UNDEF ∧ sp.svalue ≠ 0
      · rw [if_pos hc] at hno ⊢
        set t := (sp.svalue + 1) &&& ~~~1 with ht
        have hroom : room sp = t.toNat := if_pos hc
        obtain ⟨htotal, hplaces⟩ := ih (s.add csize t "bss overflow") (csize + t) hno
        -- nothing has been said about this one
        have hfit : csize.toNat + t.toNat < 65536 := by
          by_contra hge
          refine hno ((commons_stays l _ _).1.mono _ ?_)
          rw [Link.add, if_pos (Nat.le_of_not_lt hge)]
          exact List.mem_append_right _ (List.mem_singleton_self _)
        have hadd : (csize + t).toNat = csize.toNat + t.toNat := by
          rw [UInt16.toNat_add]
          exact Nat.mod_eq_of_lt hfit
        refine ⟨?_, fun k sp' hk hcommon => ?_⟩
        · rw [List.map_cons, List.sum_cons, hroom, ← Nat.add_assoc, ← hadd]
          exact htotal
        · cases k with
          | zero =>
              obtain rfl := Option.some.inj hk
              show some _ = some (⟨sp.sname, EXTERN + COMM, csize + 0⟩ : Symbol)
              rw [add_zero]
          | succ k =>
              have hbefore : before (sp :: l) (k + 1) = t.toNat + before l k := by
                rw [before, before, List.take_succ_cons, List.map_cons, List.sum_cons, hroom]
              have hplace := hplaces k sp' hk hcommon
              rw [hbefore, UInt16.ofNat_add, UInt16.ofNat_toNat, ← add_assoc]
              exact hplace
      · rw [if_neg hc] at hno ⊢
        have hroom : room sp = 0 := if_neg hc
        obtain ⟨htotal, hplaces⟩ := ih s csize hno
        refine ⟨?_, fun k sp' hk hcommon => ?_⟩
        · rw [List.map_cons, List.sum_cons, hroom, Nat.zero_add]
          exact htotal
        · cases k with
          | zero =>
              obtain rfl := Option.some.inj hk
              exact absurd hcommon hc
          | succ k =>
              have hbefore : before (sp :: l) (k + 1) = before l k := by
                rw [before, before, List.take_succ_cons, List.map_cons, List.sum_cons, hroom, Nat.zero_add]
              rw [hbefore]
              exact hplaces k sp' hk hcommon

/-- A symbol that is common is not changed by `ldrsym`. -/
lemma ldrsym_common (s : Link) (asp : Option ℕ) (val : Word) (type : UInt8) {k : ℕ} {e : Symbol}
    (hk : s.symtab[k]? = some e) (he : e.IsCommon) : (ldrsym s asp val type).symtab[k]? = some e := by
  by_cases hasp : asp = some k
  · subst hasp
    rw [ldrsym, if_pos]
    · exact hk
    · rw [hk, Option.any_some]
      exact decide_eq_true (.inr he.2)
  · rw [ldrsym_other s asp val type hasp, hk]

lemma ldrsym_flags (s : Link) (asp : Option ℕ) (val : Word) (type : UInt8) :
    (ldrsym s asp val type).flags = s.flags := by
  cases asp with
  | none => rfl
  | some k =>
      rw [ldrsym]
      split_ifs <;> rfl

lemma common_flags (s : Link) : s.common.1.flags = s.flags := by
  rw [Link.common]
  by_cases hc : (s.flags.dflag || !s.flags.rflag) = true
  · rw [if_pos hc]
    refine (congrArg Link.flags (commons_stays _ _ 0).1.same).trans ?_
    exact (ldrsym_flags ..).trans ((ldrsym_flags ..).trans (ldrsym_flags ..))
  · rw [if_neg hc]

/-- Where the common symbols are: the room of the entry `k` begins with what comes before it in `l`. -/
def Roomy (l symtab symtab' : List Symbol) (corigin : Word) (stype : UInt8) : Prop :=
  ∀ (k : ℕ) (e : Symbol), symtab[k]? = some e → e.IsCommon →
    l[k]? = some e ∧ symtab'[k]? = some ⟨e.sname, stype, UInt16.ofNat (before l k) + corigin⟩

lemma common_rooms (s : Link) (hc : (s.flags.dflag || !s.flags.rflag) = true)
    (hno : "bss overflow" ∉ s.common.1.said) : ∃ l, s.common.2.toNat = (l.map room).sum ∧
      Roomy l s.symtab s.common.1.symtab 0 (EXTERN + COMM) := by
  rw [Link.common, if_pos hc] at hno ⊢
  dsimp only at hno ⊢
  set t1 := ldrsym s (s.at? etext) s.tsize (EXTERN + TEXT) with ht1
  set t2 := ldrsym t1 (s.at? edata) s.dsize (EXTERN + DATA) with ht2
  set t3 := ldrsym t2 (s.at? «end») s.bsize (EXTERN + BSS) with ht3
  obtain ⟨htotal, hplaces⟩ := commons_rooms t3.symtab t3 0 hno
  refine ⟨t3.symtab, htotal.trans (Nat.zero_add _), fun k e hk he => ?_⟩
  have hk3 : t3.symtab[k]? = some e :=
    ldrsym_common t2 _ _ _ (ldrsym_common t1 _ _ _ (ldrsym_common s _ _ _ hk he) he) he
  refine ⟨hk3, ?_⟩
  rw [add_comm _ (0 : Word)]
  exact hplaces k e hk3 he

/-! ## Final values -/

section

variable {c : Symbol} {rel : Rel}

lemma reloc_text (h : c.stype = EXTERN + TEXT) :
    symreloc rel c = { c with svalue := c.svalue + rel.ctrel } := by
  rw [symreloc, if_pos (.inr h)]

lemma reloc_data (h : c.stype = EXTERN + DATA) :
    symreloc rel c = { c with svalue := c.svalue + rel.cdrel } := by
  rw [symreloc, if_neg (by rw [h]; decide), if_pos (.inr h)]

lemma reloc_bss (h : c.stype = EXTERN + BSS) :
    symreloc rel c = { c with svalue := c.svalue + rel.cbrel } := by
  rw [symreloc, if_neg (by rw [h]; decide), if_neg (by rw [h]; decide), if_pos (.inr h)]

/-- Of all other types a definition is absolute. -/
lemma reloc_abs (hc : c.Defines) (ht : c.stype ≠ EXTERN + TEXT) (hd : c.stype ≠ EXTERN + DATA)
    (hb : c.stype ≠ EXTERN + BSS) : symreloc rel c = { c with stype := EXTERN + ABS } := by
  have hlocal (x : UInt8) (hx : x &&& EXTERN = 0) : c.stype ≠ x := fun h => hc.global (h ▸ hx)
  rw [symreloc, if_neg (not_or.mpr ⟨hlocal TEXT (by decide), ht⟩),
    if_neg (not_or.mpr ⟨hlocal DATA (by decide), hd⟩),
    if_neg (not_or.mpr ⟨hlocal BSS (by decide), hb⟩), if_neg hc.defined, if_pos hc.global]

/-- **A definition that `middle` gives its final value** is relocated to where the segments are then. -/
lemma settle_symreloc (hc : c.Defines) (rel : Rel) (d co b : Word) :
    settle d co b (symreloc rel c) = symreloc ⟨rel.ctrel, rel.cdrel + d, rel.cbrel + b⟩ c := by
  by_cases ht : c.stype = EXTERN + TEXT
  · rw [reloc_text ht, reloc_text ht, settle]
    dsimp only
    rw [if_neg (by rw [ht]; decide), if_neg (by rw [ht]; decide), if_neg (by rw [ht]; decide)]
  by_cases hd : c.stype = EXTERN + DATA
  · rw [reloc_data hd, reloc_data hd, settle]
    dsimp only
    rw [if_pos hd, add_assoc]
  by_cases hb : c.stype = EXTERN + BSS
  · rw [reloc_bss hb, reloc_bss hb, settle]
    dsimp only
    rw [if_neg hd, if_pos hb, add_assoc]
  rw [reloc_abs hc ht hd hb, reloc_abs hc ht hd hb, settle]
  dsimp only
  rw [if_neg (by decide), if_neg (by decide), if_neg (by decide)]

end

@[simp] lemma settle_sname (d co b : Word) (e : Symbol) : (settle d co b e).sname = e.sname := by
  rw [settle]
  split_ifs <;> rfl

/-- What `middle` makes of the link `s`. -/
structure Planned (s : Link) (P : Plan) : Prop where
  table : P.link.table = s.table
  liblist : P.link.liblist = s.liblist
  sflag : P.link.flags.Sflag = s.flags.Sflag
  settled : ∀ (k : ℕ) (e : Symbol), s.symtab[k]? = some e → e.stype ≠ EXTERN + UNDEF →
    P.link.symtab[k]? = some (settle P.dorigin P.corigin P.borigin e)
  mono : ∀ x ∈ s.said, x ∈ P.link.said
  only : "Multiply defined" ∈ P.link.said →
    "Multiply defined" ∈ s.said ∨ ∃ n ∈ [etext, edata, «end»], Claimed s (s.at? n)
  tsize : P.link.tsize =
    if P.link.flags.nflag || P.link.flags.iflag then (s.tsize + 0o77) &&& ~~~0o77 else s.tsize
  dsize : P.link.dsize = s.dsize
  bsize : P.link.bsize = s.bsize + (P.borigin - P.corigin)
  corigin : P.corigin = P.dorigin + P.link.dsize
  dorigin : P.dorigin = if P.link.flags.iflag then 0
    else if P.link.flags.nflag then (P.link.tsize + 0o17777) &&& ~~~0o17777 else P.link.tsize
  commons : (P.link.flags.dflag || !P.link.flags.rflag) = true → "bss overflow" ∉ P.link.said →
    ∃ l, (P.borigin - P.corigin).toNat = (l.map room).sum ∧
      Roomy l s.symtab P.link.symtab P.corigin (EXTERN + BSS)

/-- `middle` -/
lemma middle_planned (s : Link) (hs : s.Hashed) : Planned s s.middle := by
  obtain ⟨hbits, hbsaid, hbtab⟩ := bits_stays s
  have hsb : s.bits.Hashed := hs.of_table hbits.table
  obtain ⟨hcommon, honly⟩ := common_stays s.bits hsb
  have hstays := hbits.trans hcommon
  rw [Link.middle]
  rcases hc : s.bits.common with ⟨u, csize⟩
  rw [hc] at hstays honly
  dsimp only at hstays honly ⊢
  set dorigin := u.origins.2 with hdo
  set corigin := dorigin + u.dsize with hco
  set borigin := corigin + csize with hbo
  set w : Link := { u with
    tsize := u.origins.1
    errlev := if u.symtab.any fun sp => sp.stype = EXTERN + UNDEF then u.errlev ||| 1 else u.errlev
    ssize := if u.flags.sflag || u.flags.xflag then 0 else u.ssize
    symtab := u.symtab.map (settle dorigin corigin borigin) } with hw
  have htold := Link.add_told w u.bsize csize (List.mem_singleton_self "bss overflow")
  have hsame := htold.same
  have htable : w.table = u.table := by
    refine Probing.Table.ext ?_ rfl rfl
    show (u.symtab.map (settle dorigin corigin borigin)).map (·.sname) = _
    rw [List.map_map]
    exact List.map_congr_left fun e _ => settle_sname _ _ _ e
  have horigins : u.origins.1 = (if u.flags.nflag || u.flags.iflag then (s.tsize + 0o77) &&& ~~~0o77
      else s.tsize) := by
    rw [Link.origins, hstays.tsize]
  constructor
  case table =>
    refine Eq.trans ?_ hstays.table
    rw [hsame]
    exact htable
  case liblist =>
    rw [hsame]
    exact hstays.liblist
  case sflag =>
    rw [hsame]
    exact hstays.sflag
  case settled =>
    intro k e he hne
    obtain ⟨e', he', hsince⟩ := hstays.later k e he
    rw [hsame]
    show (u.symtab.map (settle dorigin corigin borigin))[k]? = _
    rw [List.getElem?_map, he', hsince.defined hne]
    rfl
  case mono => exact fun x hx => htold.mono x (hstays.mono x hx)
  case only =>
    intro hm
    have hu : "Multiply defined" ∈ u.said := (htold.only _ hm).resolve_right (by decide)
    refine (honly hu).imp (fun h => hbsaid ▸ h) ?_
    rintro ⟨n, hn, k, sp, hk, hget, hsp⟩
    refine ⟨n, hn, k, sp, ?_, ?_, hsp⟩
    · rwa [Link.at_of_table hbits.table] at hk
    · rwa [hbtab] at hget
  case tsize =>
    rw [hsame]
    exact horigins
  case dsize =>
    rw [hsame]
    exact hstays.dsize
  case bsize =>
    rw [hsame]
    show u.bsize + csize = s.bsize + (borigin - corigin)
    rw [hstays.bsize, hbo, add_sub_cancel_left]
  case corigin =>
    rw [hsame]
  case dorigin =>
    rw [hsame]
    show dorigin = _
    rw [hdo]
    rfl
  case commons =>
    intro hflags hno
    rw [hsame] at hflags
    have huflags : u.flags = s.bits.flags := by
      rw [← common_flags s.bits, hc]
    have hu : "bss overflow" ∉ s.bits.common.1.said := by
      rw [hc]
      exact fun hin => hno (htold.mono _ hin)
    obtain ⟨l, htotal, hroomy⟩ := common_rooms s.bits (huflags ▸ hflags) hu
    rw [hc] at htotal hroomy
    rw [hbtab] at hroomy
    refine ⟨l, ?_, fun k e hk he => ?_⟩
    · rw [hbo, add_sub_cancel_left]
      exact htotal
    obtain ⟨hl, hplace⟩ := hroomy k e hk he
    refine ⟨hl, ?_⟩
    rw [hsame]
    show (u.symtab.map (settle dorigin corigin borigin))[k]? = _
    rw [List.getElem?_map, hplace, add_zero]
    rfl

end Ld

end Micronix
