import Micronix.Lib.Transition
import Mathlib.Tactic.Common

/-!
# The simulated interrupt controller

The 8259 of the Multio card (`hwsim/morrow/8259.c`).  Requests come in on eight lines, an acknowledge
cycle takes one of them into service, and the processor writes commands to two ports.  The line that
goes out, `intin`, is computed anew by a request and by an acknowledge cycle, and by nothing else.
-/

namespace Micronix

namespace Pic

abbrev Byte := BitVec 8

/-- `pic_state` -/
inductive PicState
  | undef | icw2 | icw3 | icw4 | ready
  deriving DecidableEq, Repr

structure Controller where
  picState : PicState
  icw1 : Byte
  icw2 : Byte
  icw3 : Byte
  icw4 : Byte
  ocw2 : Byte
  ocw3 : Byte
  /-- the lines that come in -/
  irq : Byte
  /-- mask -/
  imr : Byte
  /-- requests -/
  irr : Byte
  /-- in service -/
  isr : Byte
  /-- the line that goes out -/
  intin : Bool
  /-- the line of the highest priority -/
  priority : ℕ

def ICW1_I4 : Byte := 0x01
def ICW1_SNG : Byte := 0x02
def ICW1_ADI : Byte := 0x04
def ICW1_LTIM : Byte := 0x08
def ICW1_VECL : Byte := 0xe0

def PIC0_ICW1 : Byte := 0x10
def PIC0_OCW3 : Byte := 0x08

def OCW2_CMD : Byte := 0xe0
def OCW2_NSEOI : Byte := 0x20
def OCW2_NSEOIR : Byte := 0xa0

/-- The bit of a line. -/
def bit (i : ℕ) : Byte := 1#8 <<< i

/-- `bitnum`: the lowest bit, 0 if there is none. -/
def bitnum (m : Byte) : ℕ := ((List.range 8).find? fun i => m.getLsbD i).getD 0

namespace Controller

/-- `if (irr & ~(imr | isr))` -/
def asserts (s : Controller) : Bool := s.irr &&& ~~~(s.imr ||| s.isr) != 0

def setInterrupt (s : Controller) : Controller := { s with intin := s.asserts }

/-- `VECTOR(i)` -/
def vector (s : Controller) (i : ℕ) : ℕ :=
  (s.icw2.toNat <<< 8) + (s.icw1 &&& ICW1_VECL).toNat + i * (if s.icw1 &&& ICW1_ADI ≠ 0 then 4 else 8)

/-- `vi_handler`, for one of the eight lines. -/
def viHandler (s : Controller) (signal : Fin 8) (set : Bool) : Controller :=
  let mask := bit signal
  if set = false ∧ s.irq &&& mask = 0 then s
  else if set = true ∧ s.irq &&& mask ≠ 0 then s
  else if set then
    setInterrupt { s with
      irr := if s.icw1 &&& ICW1_LTIM ≠ 0 ∨ s.irq &&& mask = 0 then s.irr ||| mask else s.irr
      irq := s.irq ||| mask }
  else setInterrupt { s with irr := s.irr &&& ~~~mask, irq := s.irq &&& ~~~mask }

/-- The first unmasked request, from the highest priority on. -/
def found (s : Controller) : Option ℕ :=
  ((List.range 8).map fun k => (s.priority + k) % 8).find? fun level =>
    bit level &&& s.irr != 0 && bit level &&& s.imr == 0

/-- `multio_getvector`: the vector, and the controller after the cycle. -/
def getvector (s : Controller) : Option ℕ × Controller :=
  match s.found with
  | none => (none, s)
  | some level =>
      (some (s.vector level),
        setInterrupt { s with isr := s.isr ||| bit level, irr := s.irr &&& ~~~bit level })

/-- `wr_pic_port_0` -/
def wrPicPort0 (s : Controller) (v : Byte) : Controller :=
  if v &&& PIC0_ICW1 ≠ 0 then { s with picState := .icw2, icw1 := v, priority := 0 }
  else if v &&& PIC0_OCW3 ≠ 0 then { s with ocw3 := v }
  else if v &&& OCW2_CMD = OCW2_NSEOIR then
    { s with ocw2 := v, priority := (bitnum s.isr + 1) % 8, isr := 0 }
  else if v &&& OCW2_CMD = OCW2_NSEOI then { s with ocw2 := v, isr := 0 }
  else { s with ocw2 := v }

/-- `wr_pic_port_1` -/
def wrPicPort1 (s : Controller) (v : Byte) : Controller :=
  match s.picState with
  | .icw2 =>
      { s with
        icw2 := v
        picState :=
          if s.icw1 &&& ICW1_SNG = 0 then .icw3
          else if s.icw1 &&& ICW1_I4 ≠ 0 then .icw4
          else .icw2 }
  | .icw3 =>
      { s with
        icw3 := v
        picState := if s.icw1 &&& ICW1_I4 ≠ 0 then .icw4 else .ready }
  | .icw4 => { s with icw4 := v, picState := .ready }
  | .ready => { s with imr := v }
  | .undef => s

end Controller

inductive Op
  /-- a line that comes in goes to a level -/
  | line (signal : Fin 8) (set : Bool)
  | acknowledge
  | port0 (v : Byte)
  | port1 (v : Byte)
  deriving DecidableEq, Repr

def step (s : Controller) : Op → Option Controller
  | .line signal set => some (s.viHandler signal set)
  | .acknowledge => some s.getvector.2
  | .port0 v => some (s.wrPicPort0 v)
  | .port1 v => some (s.wrPicPort1 v)

/-- The statics at the start. -/
def reset : Controller where
  picState := .undef
  icw1 := 0
  icw2 := 0
  icw3 := 0
  icw4 := 0
  ocw2 := 0
  ocw3 := 0
  irq := 0
  imr := 0
  irr := 0
  isr := 0
  intin := false
  priority := 0

/-! ## The line that goes out -/

namespace Controller

/-- A request is pending, unmasked and not in service. -/
def Pending (s : Controller) : Prop :=
  ∃ i < 8, s.irr.getLsbD i = true ∧ s.imr.getLsbD i = false ∧ s.isr.getLsbD i = false

/-- The line is asserted exactly when there is such a request. -/
def Right (s : Controller) : Prop := s.intin = true ↔ s.Pending

variable {s : Controller}

lemma ne_zero_iff (m : Byte) : m ≠ 0 ↔ ∃ i < 8, m.getLsbD i = true := by
  constructor
  · intro h
    by_contra hno
    push Not at hno
    refine h (BitVec.eq_of_getLsbD_eq fun i hi => ?_)
    rw [eq_false_of_ne_true (hno i hi)]
    simp
  · rintro ⟨i, -, hi⟩ rfl
    simp at hi

lemma asserts_iff : s.asserts = true ↔ s.Pending := by
  rw [asserts, bne_iff_ne, ne_zero_iff, Pending]
  refine exists_congr fun i => and_congr_right fun hi => ?_
  simp [hi]

lemma right_setInterrupt : s.setInterrupt.Right := asserts_iff

/-- The line stands as it was. -/
lemma right_congr {t : Controller} (h : s.Right) (hline : t.intin = s.intin) :
    t.Right ↔ (t.Pending ↔ s.Pending) := by
  rw [Right, hline, show s.intin = true ↔ s.Pending from h]
  exact iff_comm

end Controller

/-! ## Commands -/

/-- A command ends the service of all lines. -/
def Ends (v : Byte) : Prop :=
  v &&& PIC0_ICW1 = 0 ∧ v &&& PIC0_OCW3 = 0 ∧
    (v &&& OCW2_CMD = OCW2_NSEOIR ∨ v &&& OCW2_CMD = OCW2_NSEOI)

instance (v : Byte) : Decidable (Ends v) := inferInstanceAs (Decidable (_ ∧ _))

/-- A new mask neither opens the way for the first request nor bars it for the last one, and an end of
interrupt finds no unmasked request for a line in service, unless another request has the way open. -/
def Careful (s : Controller) : Op → Prop
  | .line _ _ => True
  | .acknowledge => True
  | .port0 v =>
      Ends v → s.irr &&& ~~~s.imr &&& s.isr ≠ 0 → s.irr &&& ~~~(s.imr ||| s.isr) ≠ 0
  | .port1 v =>
      s.picState = .ready →
        (s.irr &&& ~~~(v ||| s.isr) ≠ 0 ↔ s.irr &&& ~~~(s.imr ||| s.isr) ≠ 0)

variable {s t : Controller}

lemma right_line (h : s.Right) (signal : Fin 8) (set : Bool) : (s.viHandler signal set).Right := by
  rw [Controller.viHandler]
  split_ifs
  · exact h
  · exact h
  all_goals exact Controller.right_setInterrupt

lemma right_acknowledge (h : s.Right) : s.getvector.2.Right := by
  rw [Controller.getvector]
  split
  · exact h
  · exact Controller.right_setInterrupt

/-- The service of all lines has ended. -/
lemma pending_iff_waiting (ht : t.irr = s.irr ∧ t.imr = s.imr ∧ t.isr = 0) :
    t.Pending ↔ s.Pending ∨ s.irr &&& ~~~s.imr &&& s.isr ≠ 0 := by
  obtain ⟨hirr, himr, hisr⟩ := ht
  rw [Controller.ne_zero_iff, Controller.Pending, Controller.Pending, hirr, himr, hisr]
  constructor
  · rintro ⟨i, hi, hr, hm, -⟩
    cases hs : s.isr.getLsbD i with
    | false => exact Or.inl ⟨i, hi, hr, hm, hs⟩
    | true =>
        refine Or.inr ⟨i, hi, ?_⟩
        rw [BitVec.getLsbD_and, BitVec.getLsbD_and, BitVec.getLsbD_not, hr, hm, hs]
        simp [hi]
  · rintro (⟨i, hi, hr, hm, -⟩ | ⟨i, hi, hand⟩)
    · exact ⟨i, hi, hr, hm, by simp⟩
    · rw [BitVec.getLsbD_and, BitVec.getLsbD_and, BitVec.getLsbD_not] at hand
      simp only [Bool.and_eq_true, Bool.not_eq_true'] at hand
      exact ⟨i, hi, hand.1.1, hand.1.2.2, by simp⟩

lemma asserts_ne_zero : s.irr &&& ~~~(s.imr ||| s.isr) ≠ 0 ↔ s.Pending := by
  rw [← Controller.asserts_iff, Controller.asserts, bne_iff_ne]

lemma right_ends (h : s.Right) {v : Byte} (hv : Ends v)
    (ht : t.irr = s.irr ∧ t.imr = s.imr ∧ t.isr = 0) (hline : t.intin = s.intin) :
    t.Right ↔ Careful s (.port0 v) := by
  rw [Controller.right_congr h hline, pending_iff_waiting ht, Careful, asserts_ne_zero]
  exact ⟨fun hp _ hw => hp.mp (Or.inr hw), fun hc => ⟨fun hp => hp.elim id (hc hv), Or.inl⟩⟩

lemma right_port0 (h : s.Right) (v : Byte) : (s.wrPicPort0 v).Right ↔ Careful s (.port0 v) := by
  have hquiet : ¬Ends v → Careful s (.port0 v) := fun hv hends => absurd hends hv
  rw [Controller.wrPicPort0]
  split_ifs with h1 h2 h3 h4
  · exact iff_of_true h (hquiet fun hv => h1 hv.1)
  · exact iff_of_true h (hquiet fun hv => h2 hv.2.1)
  · exact right_ends h ⟨not_not.mp h1, not_not.mp h2, Or.inl h3⟩ ⟨rfl, rfl, rfl⟩ rfl
  · exact right_ends h ⟨not_not.mp h1, not_not.mp h2, Or.inr h4⟩ ⟨rfl, rfl, rfl⟩ rfl
  · exact iff_of_true h (hquiet fun hv => hv.2.2.elim h3 h4)

lemma right_port1 (h : s.Right) (v : Byte) : (s.wrPicPort1 v).Right ↔ Careful s (.port1 v) := by
  cases hstate : s.picState with
  | ready =>
      have hrun : s.wrPicPort1 v = { s with imr := v } := by
        rw [Controller.wrPicPort1, hstate]
      have hpending := asserts_ne_zero (s := { s with imr := v })
      have hright := Controller.right_congr (t := { s with imr := v }) h rfl
      rw [hrun, hright, Careful, asserts_ne_zero, ← hpending]
      exact ⟨fun hp _ => hp, fun hc => hc hstate⟩
  | undef | icw2 | icw3 | icw4 =>
      rw [Controller.wrPicPort1, hstate]
      exact iff_of_true h fun hready => nomatch hstate.symm.trans hready

/-- One operation. -/
lemma right_step (h : s.Right) {op : Op} (hstep : step s op = some t) :
    t.Right ↔ Careful s op := by
  cases op with
  | line signal set =>
      cases hstep
      exact iff_of_true (right_line h signal set) trivial
  | acknowledge =>
      cases hstep
      exact iff_of_true (right_acknowledge h) trivial
  | port0 v =>
      cases hstep
      exact right_port0 h v
  | port1 v =>
      cases hstep
      exact right_port1 h v

lemma right_reset : reset.Right := by
  rw [Controller.Right, ← Controller.asserts_iff]
  decide

/-- **The line that goes out** is right after each operation of a careful run, and after one more
operation exactly if that is careful as well. -/
theorem line_right (h : Transition.Reach step (· = reset) Careful s) :
    s.Right ∧ ∀ op t, step s op = some t → (t.Right ↔ Careful s op) := by
  have hs : s.Right := by
    refine h.invariant (fun s hs => hs ▸ right_reset) fun s op t hs hop hstep => ?_
    exact (right_step hs hstep).mpr hop
  exact ⟨hs, fun op t => right_step hs⟩

/-- A request for line 3 when nothing is masked. -/
theorem line_right_request :
    (reset.viHandler 3 true).Right ∧ ∀ op t, step (reset.viHandler 3 true) op = some t →
      (t.Right ↔ Careful (reset.viHandler 3 true) op) :=
  line_right (.step (l := .line 3 true) (.start rfl) trivial rfl)

/-- The controller is initialised and masked, line 3 has a request, and the mask is taken away: the
line stays as it is. -/
theorem line_lost : ¬∀ s, Transition.Reachable step (· = reset) s → s.Right := by
  intro h
  have hrun : Transition.run step (fun _ _ => True) reset
      [.port0 0x13, .port1 0, .port1 0, .port1 0xff, .line 3 true, .port1 0] =
        some ((((((reset.wrPicPort0 0x13).wrPicPort1 0).wrPicPort1 0).wrPicPort1 0xff).viHandler 3
          true).wrPicPort1 0) := rfl
  have hright := h _ (.of_run rfl hrun)
  rw [Controller.Right, ← Controller.asserts_iff] at hright
  exact absurd (hright.mpr (by decide)) (by decide)

end Pic

end Micronix
