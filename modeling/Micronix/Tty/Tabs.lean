import Mathlib.Data.UInt
import Mathlib.Tactic.SplitIfs
import Micronix.Lib.Transition

/-!
# Tabs on output

`cookout` takes the characters of the output queue and gives the terminal spaces in place of a tab.
For this it keeps count of the column that the cursor is in.

The terminal itself obeys backspace, carriage return and newline; `nl` says whether a newline takes
it to the first column.
-/

namespace Micronix

namespace Tabs

def MORE : UInt16 := 0o10000
def MAPCR : UInt16 := 0o20
def XTABS : UInt16 := 0o2
def LOSTOP : UInt8 := 1

/-- The fields of `struct tty` for output. -/
structure Tty where
  mode : UInt16
  state : UInt8
  col : UInt8
  line : UInt8
  nextc : UInt8
  outque : List UInt8
  deriving DecidableEq

/-- `more` in `cookout`. -/
def more : List UInt8 :=
  [45, 45, 109, 111, 114, 101, 45, 45] ++ List.replicate 8 8 ++ List.replicate 8 32 ++
    List.replicate 8 8

namespace Tty

/-- `getc` of the output queue. -/
def getc (t : Tty) : UInt8 × Tty :=
  match t.outque with
  | [] => (0xff, t)
  | c :: cs => (c, { t with outque := cs })

/-- `cookout(tty)` -/
def cookout (t : Tty) : UInt8 × Tty :=
  let t := if t.mode &&& MORE ≠ 0 ∧ t.line > 21 then { t with line := 0, nextc := 32 } else t
  if t.nextc ≠ 0 then
    let c := t.nextc
    if c = 10 then (10, { t with nextc := 0, line := t.line + 1 })
    -- a `char` from 128 on is negative
    else if c < 8 ∨ 128 ≤ c then (32, { t with nextc := t.nextc - 1 })
    else
      let c := c - 32
      let t := if c = 7 then { t with state := t.state ||| LOSTOP } else t
      let t := if c < 31 ∨ 128 ≤ c then { t with nextc := t.nextc + 1 } else { t with nextc := 0 }
      (more.getD c.toNat 0, t)
  else
    let (c, t) := t.getc
    if 32 ≤ c ∧ c ≤ 127 then (c, { t with col := t.col + 1 })
    else if c = 10 then
      if t.mode &&& MAPCR ≠ 0 then (13, { t with nextc := 10, col := 0 })
      else (10, { t with line := t.line + 1 })
    else if c = 9 then
      let inc := 8 - (t.col &&& 7)
      let t := { t with col := t.col + inc }
      if t.mode &&& XTABS ≠ 0 then (32, { t with nextc := inc - 1 }) else (9, t)
    else if c = 8 then (8, if t.col ≠ 0 then { t with col := t.col - 1 } else t)
    else (c, t)

/-- `ttyout(tty)`, up to `mputc`, when there is something to print. -/
def ttyout (t : Tty) : Option (UInt8 × Tty) :=
  if t.state &&& LOSTOP = 0 ∧ (t.outque ≠ [] ∨ t.nextc ≠ 0) then
    if t.mode &&& (MORE ||| XTABS ||| MAPCR) ≠ 0 ∨ t.nextc ≠ 0 then some t.cookout
    else some t.getc
  else none

end Tty

/-! ## The terminal -/

/-- A printing character. -/
def prints (c : UInt8) : Bool := 32 ≤ c && c < 127

/-- The column after a character. -/
def column (nl : Bool) (k : ℕ) (c : UInt8) : ℕ :=
  if prints c then k + 1
  else if c = 8 then k - 1
  else if c = 9 then (k / 8 + 1) * 8
  else if c = 10 then if nl then 0 else k
  else if c = 13 then 0
  else k

/-- Newline as it is mapped. -/
def mapped (mode : UInt16) (c : UInt8) : List UInt8 :=
  if c = 10 ∧ mode &&& MAPCR ≠ 0 then [13, 10] else [c]

/-- A terminal that expands tabs: its column, and the printing characters with the columns that they
appear in. -/
def expand (nl : Bool) (mode : UInt16) (x : ℕ × List (UInt8 × ℕ)) (c : UInt8) :
    ℕ × List (UInt8 × ℕ) :=
  ((mapped mode c).foldl (column nl) x.1, if prints c then x.2 ++ [(c, x.1)] else x.2)

/-- What such a terminal shows of the characters. -/
def page (nl : Bool) (mode : UInt16) (cs : List UInt8) : ℕ × List (UInt8 × ℕ) :=
  cs.foldl (expand nl mode) (0, [])

/-! ## The driver and its terminal -/

/-- The driver, the characters that have left the output queue, the column of the terminal, and
where the printing ones among the characters appear on it. -/
structure State where
  tty : Tty
  taken : List UInt8
  column : ℕ
  shown : List (UInt8 × ℕ)
  deriving DecidableEq

/-- What happens. -/
inductive Label
  | write (c : UInt8)
  /-- the terminal is ready to print -/
  | out
  | stop
  | start

/-- The terminal prints `c`, and the driver goes on as `t`. -/
def State.print (s : State) (nl : Bool) (c : UInt8) (t : Tty) : State :=
  { s with tty := t, column := Tabs.column nl s.column c }

/-- The character `w` leaves the queue. -/
def State.take (s : State) (w : UInt8) : State :=
  { s with
    taken := s.taken ++ [w]
    shown := if prints w then s.shown ++ [(w, s.column)] else s.shown }

/-- The step function. -/
def step (nl : Bool) (s : State) : Label → Option State
  | .write c => some { s with tty := { s.tty with outque := s.tty.outque ++ [c] } }
  | .out =>
      s.tty.ttyout.map fun (c, t) =>
        match s.tty.outque with
        | w :: rest => if t.outque = rest then (s.take w).print nl c t else s.print nl c t
        | [] => s.print nl c t
  | .stop => some { s with tty := { s.tty with state := s.tty.state ||| LOSTOP } }
  | .start => some { s with tty := { s.tty with state := s.tty.state &&& ~~~LOSTOP } }

/-- The output begins at the first column. -/
structure Start (s : State) : Prop where
  xtabs : s.tty.mode &&& XTABS ≠ 0
  more : s.tty.mode &&& MORE = 0
  col : s.tty.col = 0
  nextc : s.tty.nextc = 0
  taken : s.taken = []
  column : s.column = 0
  shown : s.shown = []

/-- A tab is printed when the count agrees with the column. -/
def Careful (s : State) : Label → Prop
  | .out => s.tty.nextc = 0 → s.tty.outque.head? = some 9 → s.tty.col.toNat % 8 = s.column % 8
  | .write _ | .stop | .start => True

/-- The column of the terminal when it has printed what is to come before the next character. -/
def State.cursor (s : State) : ℕ :=
  if s.tty.nextc = 10 then s.column else s.column + s.tty.nextc.toNat

/-- The next character appears where it is to appear. -/
def State.Settled (s : State) (nl : Bool) : Prop :=
  s.cursor = (page nl s.tty.mode s.taken).1

/-! ## The invariant -/

variable {nl : Bool} {s s' : State} {l : Label} {w : UInt8} {rest : List UInt8}

namespace State

/-- What holds in every state. -/
structure Inv (s : State) (nl : Bool) : Prop where
  xtabs : s.tty.mode &&& XTABS ≠ 0
  more : s.tty.mode &&& MORE = 0
  nextc : s.tty.nextc.toNat < 8 ∨ s.tty.nextc = 10 ∧ s.column = 0
  settled : s.Settled nl
  shown : s.shown = (page nl s.tty.mode s.taken).2

lemma page_append {mode : UInt16} {cs : List UInt8} :
    page nl mode (cs ++ [w]) = expand nl mode (page nl mode cs) w := by
  rw [page, List.foldl_append]
  rfl

lemma cookout_eq {t : Tty} (hx : t.mode &&& XTABS ≠ 0) {r : UInt8 × Tty} (h : t.ttyout = some r) :
    t.cookout = r ∧ (t.outque ≠ [] ∨ t.nextc ≠ 0) := by
  have hmode : t.mode &&& (MORE ||| XTABS ||| MAPCR) ≠ 0 := by
    intro h0
    refine hx ?_
    rw [show XTABS = (MORE ||| XTABS ||| MAPCR) &&& XTABS by decide, ← UInt16.and_assoc, h0,
      UInt16.zero_and]
  rw [Tty.ttyout] at h
  split_ifs at h with h1 h2
  · exact ⟨Option.some.inj h, h1.2⟩
  · exact absurd (Or.inl hmode) h2

lemma inc_toNat (c : UInt8) : (8 - (c &&& 7)).toNat = 8 - c.toNat % 8 := by
  have h7 : (c &&& 7).toNat = c.toNat % 8 := by
    rw [UInt8.toNat_and]
    exact Nat.and_two_pow_sub_one_eq_mod _ 3
  have hle : c &&& 7 ≤ 8 := by
    rw [UInt8.le_iff_toNat_le, h7]
    exact (Nat.mod_lt _ (by omega)).le
  rw [UInt8.toNat_sub_of_le _ _ hle, h7]
  rfl

/-- Of what is to come of a tab or of a newline, the first part. -/
lemma Inv.next (h : Inv s nl) (hn : s.tty.nextc ≠ 0) {r : UInt8 × Tty} (hr : s.tty.cookout = r) :
    r.2.outque = s.tty.outque ∧ Inv (s.print nl r.1 r.2) nl := by
  have hm : ¬(s.tty.mode &&& MORE ≠ 0 ∧ s.tty.line > 21) := fun e => e.1 h.more
  rw [Tty.cookout, if_neg hm] at hr
  dsimp only at hr
  rw [if_pos hn] at hr
  have hset := h.settled
  rw [Settled, cursor] at hset
  rcases h.nextc with h8 | ⟨h10, hcol⟩
  · have hne : s.tty.nextc ≠ 10 := by
      intro e
      rw [e] at h8
      revert h8
      decide
    have hlt : s.tty.nextc < 8 := UInt8.lt_iff_toNat_lt.mpr h8
    have hpos : 0 < s.tty.nextc.toNat := Nat.pos_of_ne_zero fun e => hn (UInt8.toNat_inj.mp e)
    have hsub : (s.tty.nextc - 1).toNat = s.tty.nextc.toNat - 1 :=
      UInt8.toNat_sub_of_le _ _ (UInt8.le_iff_toNat_le.mpr hpos)
    rw [if_neg hne, if_pos (Or.inl hlt)] at hr
    subst hr
    refine ⟨rfl, h.xtabs, h.more, Or.inl ?_, ?_, h.shown⟩
    · show (s.tty.nextc - 1).toNat < 8
      omega
    · have hne' : s.tty.nextc - 1 ≠ 10 := by
        intro e
        rw [e] at hsub
        change 10 = _ at hsub
        omega
      rw [if_neg hne] at hset
      rw [Settled, cursor]
      change (if s.tty.nextc - 1 = 10 then _ else s.column + 1 + (s.tty.nextc - 1).toNat) = _
      rw [if_neg hne', hsub]
      change _ = (page nl s.tty.mode s.taken).1
      omega
  · rw [if_pos h10] at hr hset
    subst hr
    have hcol' : Tabs.column nl s.column 10 = 0 := by
      rw [hcol]
      cases nl <;> rfl
    refine ⟨rfl, h.xtabs, h.more, Or.inl (show (0 : UInt8).toNat < 8 by decide), ?_, h.shown⟩
    rw [Settled, cursor]
    change Tabs.column nl s.column 10 + 0 = (page nl s.tty.mode s.taken).1
    rw [hcol', ← hset, hcol]

/-- Before a character is taken the terminal is where it is to be. -/
lemma Inv.column_eq (h : Inv s nl) (hn : s.tty.nextc = 0) :
    s.column = (page nl s.tty.mode s.taken).1 := by
  have := h.settled
  rw [Settled, cursor, hn, if_neg (by decide)] at this
  exact this

/-- A printing character is shown where it is to be. -/
lemma Inv.shown_take (h : Inv s nl) (hn : s.tty.nextc = 0) :
    (s.take w).shown = (page nl s.tty.mode (s.taken ++ [w])).2 := by
  show (if prints w then s.shown ++ [(w, s.column)] else s.shown) = _
  rw [page_append, expand, ← h.shown, ← h.column_eq hn]

/-- The column after it. -/
lemma Inv.page_take (h : Inv s nl) (hn : s.tty.nextc = 0) :
    (page nl s.tty.mode (s.taken ++ [w])).1 =
      (mapped s.tty.mode w).foldl (Tabs.column nl) s.column := by
  rw [page_append, expand, ← h.column_eq hn]

/-- A character from the queue that is printed as it is, or a newline that is mapped. -/
lemma Inv.plain (h : Inv s nl) (hn : s.tty.nextc = 0) {c : UInt8} {t : Tty}
    (hx : t.mode = s.tty.mode)
    (hc : t.nextc = 0 ∧
        Tabs.column nl s.column c = ((mapped s.tty.mode w).foldl (Tabs.column nl) s.column) ∨
      t.nextc = 10 ∧ Tabs.column nl s.column c = 0 ∧
        (mapped s.tty.mode w).foldl (Tabs.column nl) s.column = 0) :
    Inv ((s.take w).print nl c t) nl := by
  refine ⟨hx ▸ h.xtabs, hx ▸ h.more, ?_, ?_, ?_⟩
  · rcases hc with ⟨h0, -⟩ | ⟨h10, h0, -⟩
    · exact Or.inl (by change t.nextc.toNat < 8; rw [h0]; decide)
    · exact Or.inr ⟨h10, h0⟩
  · rw [Settled, cursor]
    change (if t.nextc = 10 then Tabs.column nl s.column c
      else Tabs.column nl s.column c + t.nextc.toNat) =
      (page nl t.mode (s.taken ++ [w])).1
    rw [hx, h.page_take hn]
    rcases hc with ⟨h0, he⟩ | ⟨h10, h0, he⟩
    · rw [h0, if_neg (by decide), he]
      rfl
    · rw [if_pos h10, h0, he]
  · show (s.take w).shown = (page nl t.mode (s.taken ++ [w])).2
    rw [hx, h.shown_take hn]

lemma mapped_self {mode : UInt16} (hw : w ≠ 10) : mapped mode w = [w] := if_neg fun e => hw e.1

/-- A tab from the queue is the only character with which the terminal can miss its column. -/
lemma Inv.tab (h : Inv s nl) (hn : s.tty.nextc = 0) {t : Tty} (hx : t.mode = s.tty.mode)
    (ht : t.nextc = 8 - (s.tty.col &&& 7) - 1) :
    (((s.take 9).print nl 32 t).Settled nl ↔ s.tty.col.toNat % 8 = s.column % 8) ∧
      (((s.take 9).print nl 32 t).Settled nl → Inv ((s.take 9).print nl 32 t) nl) := by
  have hinc := inc_toNat s.tty.col
  have hsub : t.nextc.toNat = 7 - s.tty.col.toNat % 8 := by
    rw [ht, UInt8.toNat_sub_of_le _ _ (by rw [UInt8.le_iff_toNat_le, hinc, UInt8.toNat_one]; omega),
      hinc, UInt8.toNat_one]
    omega
  have hne : t.nextc ≠ 10 := by
    intro e
    rw [e] at hsub
    change 10 = _ at hsub
    omega
  have hpage : (page nl s.tty.mode (s.taken ++ [9])).1 = (s.column / 8 + 1) * 8 := by
    rw [h.page_take hn, mapped_self (by decide)]
    rfl
  refine ⟨?_, fun hs => ⟨hx ▸ h.xtabs, hx ▸ h.more, Or.inl ?_, hs, ?_⟩⟩
  · rw [Settled, cursor]
    change (if t.nextc = 10 then _ else s.column + 1 + t.nextc.toNat) =
      (page nl t.mode (s.taken ++ [9])).1 ↔ _
    rw [if_neg hne, hsub, hx, hpage]
    omega
  · show t.nextc.toNat < 8
    omega
  · show (s.take 9).shown = (page nl t.mode (s.taken ++ [9])).2
    rw [hx, h.shown_take hn]

/-- A character from the queue. -/
lemma Inv.char (h : Inv s nl) (hn : s.tty.nextc = 0) (hq : s.tty.outque = w :: rest)
    {r : UInt8 × Tty}
    (hr : s.tty.cookout = r) :
    r.2.outque = rest ∧ (((s.take w).print nl r.1 r.2).Settled nl ↔
      (w = 9 → s.tty.col.toNat % 8 = s.column % 8)) ∧
      (((s.take w).print nl r.1 r.2).Settled nl → Inv ((s.take w).print nl r.1 r.2) nl) := by
  have hm : ¬(s.tty.mode &&& MORE ≠ 0 ∧ s.tty.line > 21) := fun e => e.1 h.more
  have hgetc : s.tty.getc = (w, { s.tty with outque := rest }) := by rw [Tty.getc, hq]
  rw [Tty.cookout, if_neg hm] at hr
  dsimp only at hr
  rw [if_neg (not_not.mpr hn), hgetc] at hr
  dsimp only at hr
  -- when the terminal does not miss it
  have hplain (hw : w ≠ 9) (hi : Inv ((s.take w).print nl r.1 r.2) nl) :
      (((s.take w).print nl r.1 r.2).Settled nl ↔ (w = 9 → s.tty.col.toNat % 8 = s.column % 8)) ∧
        (((s.take w).print nl r.1 r.2).Settled nl → Inv ((s.take w).print nl r.1 r.2) nl) :=
    ⟨iff_of_true hi.settled fun e => absurd e hw, fun _ => hi⟩
  have hself (hw : w ≠ 10) : (mapped s.tty.mode w).foldl (Tabs.column nl) s.column =
      Tabs.column nl s.column w := by rw [mapped_self hw]; rfl
  by_cases hprint : 32 ≤ w ∧ w ≤ 127
  · rw [if_pos hprint] at hr
    have h9 : w ≠ 9 := by
      rintro rfl
      exact absurd hprint (by decide)
    have h10 : w ≠ 10 := by
      rintro rfl
      exact absurd hprint (by decide)
    subst hr
    exact ⟨rfl, hplain h9 (h.plain hn rfl (Or.inl ⟨hn, (hself h10).symm⟩))⟩
  rw [if_neg hprint] at hr
  by_cases h10 : w = 10
  · rw [if_pos h10] at hr
    by_cases hmap : s.tty.mode &&& MAPCR ≠ 0
    · rw [if_pos hmap] at hr
      subst hr
      refine ⟨rfl, hplain (by rw [h10]; decide) (h.plain hn rfl (Or.inr ⟨rfl, rfl, ?_⟩))⟩
      rw [mapped, if_pos ⟨h10, hmap⟩]
      cases nl <;> rfl
    · rw [if_neg hmap] at hr
      subst hr
      refine ⟨rfl, hplain (by rw [h10]; decide) (h.plain hn rfl (Or.inl ⟨hn, ?_⟩))⟩
      rw [mapped, if_neg fun e => hmap e.2, h10]
      rfl
  rw [if_neg h10] at hr
  by_cases h9 : w = 9
  · rw [if_pos h9, if_pos h.xtabs] at hr
    subst hr h9
    simp only [forall_true_left]
    exact ⟨trivial, h.tab hn rfl rfl⟩
  rw [if_neg h9] at hr
  by_cases h8 : w = 8
  · rw [if_pos h8] at hr
    subst hr
    refine ⟨?_, hplain h9 (h.plain hn ?_ (Or.inl ⟨?_, by rw [hself h10, h8]⟩))⟩ <;> dsimp only <;>
      split_ifs <;> first | rfl | exact hn
  · rw [if_neg h8] at hr
    subst hr
    exact ⟨rfl, hplain h9 (h.plain hn rfl (Or.inl ⟨hn, (hself h10).symm⟩))⟩

/-- **The step lemma.**  A step of a terminal that is where it is to be. -/
lemma Inv.step (h : Inv s nl) (he : step nl s l = some s') :
    (s'.Settled nl ↔ Careful s l) ∧ (s'.Settled nl → Inv s' nl) := by
  cases l with
  | write c =>
      obtain rfl := Option.some.inj he
      exact ⟨iff_of_true h.settled trivial, fun _ => ⟨h.xtabs, h.more, h.nextc, h.settled, h.shown⟩⟩
  | stop =>
      obtain rfl := Option.some.inj he
      exact ⟨iff_of_true h.settled trivial, fun _ => ⟨h.xtabs, h.more, h.nextc, h.settled, h.shown⟩⟩
  | start =>
      obtain rfl := Option.some.inj he
      exact ⟨iff_of_true h.settled trivial, fun _ => ⟨h.xtabs, h.more, h.nextc, h.settled, h.shown⟩⟩
  | out =>
      obtain ⟨r, hr, rfl⟩ := Option.map_eq_some_iff.mp he
      obtain ⟨hcook, hsome⟩ := cookout_eq h.xtabs hr
      rw [Careful]
      by_cases hn : s.tty.nextc = 0
      · cases hq : s.tty.outque with
        | nil => exact absurd hn (hsome.resolve_left fun hne => hne hq)
        | cons w rest =>
            obtain ⟨hrest, hiff, hinv⟩ := h.char hn hq hcook
            dsimp only
            rw [if_pos hrest]
            refine ⟨hiff.trans ?_, hinv⟩
            rw [List.head?_cons, Option.some.injEq]
            exact ⟨fun hi _ => hi, fun hi => hi hn⟩
      · obtain ⟨hout, hi⟩ := h.next hn hcook
        have hs : (match s.tty.outque with
            | w :: rest =>
                if r.2.outque = rest then (s.take w).print nl r.1 r.2 else s.print nl r.1 r.2
            | [] => s.print nl r.1 r.2) = s.print nl r.1 r.2 := by
          rw [hout]
          cases s.tty.outque with
          | nil => rfl
          | cons w rest => exact if_neg (List.cons_ne_self w rest)
        dsimp only
        rw [hs]
        exact ⟨iff_of_true hi.settled fun h0 => absurd h0 hn, fun _ => hi⟩

end State

open State

lemma Start.inv (h : Start s) : Inv s nl where
  xtabs := h.xtabs
  more := h.more
  nextc := Or.inl (by rw [h.nextc]; decide)
  settled := by
    rw [Settled, cursor, h.nextc, h.column, h.taken]
    rfl
  shown := by
    rw [h.shown, h.taken]
    rfl

/-- **Tabs.**  When each tab is printed with the count in agreement with the column, the printing
characters appear where a terminal that expands tabs shows them; and a step that does not meet the
condition leaves the terminal in another column. -/
theorem tabs (h : Transition.Reach (step nl) Start Careful s) :
    s.shown = (page nl s.tty.mode s.taken).2 ∧ s.Settled nl ∧
      ∀ l s', step nl s l = some s' → (s'.Settled nl ↔ Careful s l) := by
  have hi : Inv s nl := h.invariant (fun _ hs => hs.inv) fun _ _ _ hi hc he =>
    (hi.step he).2 ((hi.step he).1.mpr hc)
  exact ⟨hi.shown, hi.settled, fun l s' he => (hi.step he).1⟩

/-- A terminal with `XTABS` and `MAPCR`. -/
def init : State := ⟨⟨XTABS ||| MAPCR, 0, 0, 0, 0, []⟩, [], 0, []⟩

lemma start_init : Start init := ⟨by decide, by decide, rfl, rfl, rfl, rfl, rfl⟩

instance (s : State) : ∀ l, Decidable (Careful s l)
  | .out => inferInstanceAs (Decidable (_ → _ → _))
  | .write _ | .stop | .start => .isTrue trivial

/-- `ab`, a tab and `x`. -/
theorem tabs_abx : ∃ s, Transition.Reach (step true) Start Careful s ∧
    s.shown = [(97, 0), (98, 1), (120, 8)] ∧ s.shown = (page true s.tty.mode s.taken).2 := by
  obtain ⟨s, hs, h⟩ : ∃ s, Transition.run (step true) Careful init
      ([.write 97, .write 98, .write 9, .write 120] ++ List.replicate 9 .out) = some s ∧
      s.shown = [(97, 0), (98, 1), (120, 8)] := by
    refine ⟨_, rfl, ?_⟩
    decide +kernel
  have hr : Transition.Reach (step true) Start Careful s := .of_run start_init hs
  exact ⟨s, hr, h, (tabs hr).1⟩

/-- `ab`, a carriage return, a tab and `x`, which appears in column 6 in place of 8. -/
theorem tab_after_return : ∃ s, Transition.Reachable (step true) Start s ∧
    s.taken = [97, 98, 13, 9, 120] ∧ s.shown = [(97, 0), (98, 1), (120, 6)] ∧
    (page true s.tty.mode s.taken).2 = [(97, 0), (98, 1), (120, 8)] := by
  obtain ⟨s, hs, h⟩ : ∃ s, Transition.run (step true) (fun _ _ => True) init
      ([.write 97, .write 98, .write 13, .write 9, .write 120] ++ List.replicate 10 .out) = some s ∧
      s.taken = [97, 98, 13, 9, 120] ∧ s.shown = [(97, 0), (98, 1), (120, 6)] ∧
      (page true s.tty.mode s.taken).2 = [(97, 0), (98, 1), (120, 8)] := by
    refine ⟨_, rfl, ?_⟩
    decide +kernel
  exact ⟨s, .of_run start_init hs, h⟩

end Tabs

end Micronix
