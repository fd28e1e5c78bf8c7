import Micronix.Tty.Cook

/-!
# The count of lines

`nbreak` is raised by `ttyin`, an interrupt, and lowered by `cookin`, and whoever empties the raw
queue is to clear it.  A process in `cookin` can be interrupted wherever `di` is not in force, and
no other process runs before it sleeps or returns; each step here is what is done between two such
places.  `di` and `ei` nest, so that an interrupt is never interrupted, and a `getc` under `di` is
not either.

The raw queue is the list of its characters.
-/

namespace Micronix

namespace Tty

namespace Breaks

def ALL8 : UInt16 := 0o40000
def MAPCR : UInt16 := 0o20
def RAW : UInt16 := 0o40
def QUIT : UInt8 := 0o34
def RUB : UInt8 := 0o177
def XON : UInt8 := 0o21
def XOFF : UInt8 := 0o23

/-- Where the process is that is in the driver. -/
inductive Pc
  /-- none is, but for those asleep in `cookin` -/
  | out
  /-- in the loop of `cookin` for lines, before its `getc` -/
  | line
  | char (c : ℤ)
  /-- before the `getc` after a backslash -/
  | bslash
  /-- after that loop -/
  | ended
  /-- before the `getc` of `cwait` -/
  | first
  /-- in the loop for `RAW` and `CBREAK`, before and after its `getc` -/
  | next
  | rawchar (c : ℤ)
  /-- in `drainques`, after the first `drain` -/
  | drained
  deriving DecidableEq

/-- The terminal; `counted` says that a process has taken the end of a line that `nbreak` counts. -/
structure State where
  line : Line
  error : Bool
  raw : List UInt8
  pc : Pc
  counted : Bool
  deriving DecidableEq

/-- What happens. -/
inductive Label
  /-- the interrupt `ttyin`; `ok` says whether its `putc` finds a cblock -/
  | input (c : UInt8) (ok : Bool)
  /-- `ttyerror` -/
  | fault
  /-- `drainques` in an interrupt, from `ttyout` or `ttyhangup` -/
  | hangup
  /-- `ttyread` after an error -/
  | failed
  /-- `cookin` at its test of `nbreak` or of the queue, for the first time or after a sleep -/
  | cookin
  | ttymode (mode : UInt16) (erase kill : UInt8)
  /-- `drainques` in a process, from `sig` -/
  | drainques
  /-- the process in the driver goes on -/
  | go
  deriving DecidableEq

namespace State

/-- The character that `ttyin` deposits. -/
def deposit (s : State) (c : UInt8) : Option UInt8 :=
  if s.raw.length ≥ TTYHOG then none
  else
    let c := if s.line.mode &&& ALL8 = 0 then c &&& 0x7f else c
    let c := if c = 13 ∧ s.line.mode &&& MAPCR ≠ 0 then NL else c
    if s.line.mode &&& RAW = 0 ∧ (c = QUIT ∨ c = RUB ∨ c = XOFF ∨ c = XON) then none else some c

/-- The raw queue is emptied, and `nbreak` cleared. -/
def empty (s : State) : State :=
  { s with raw := [], line := { s.line with nbreak := 0 }, counted := false }

/-- `ttyin(c, tty)` -/
def ttyin (s : State) (c : UInt8) (ok : Bool) : State :=
  match s.deposit c with
  | none => if s.raw.length ≥ TTYHOG then s.empty else s
  | some c =>
      { s with
        line := if ends c then { s.line with nbreak := s.line.nbreak + 1 } else s.line
        raw := if ok then s.raw ++ [c] else s.raw }

/-- `getc` -/
def getc (s : State) : ℤ × State := (ret s.raw.head?, { s with raw := s.raw.tail })

/-- The end of a line. -/
def isEnd (c : ℤ) : Bool := c = NL.toNat || c = EOT.toNat

/-- The process goes on. -/
def go (s : State) : Option State :=
  match s.pc with
  | .out => none
  | .line =>
      let (c, s) := s.getc
      if c < 0 then some { s with pc := .out, line := { s.line with nbreak := 0 } }
      else some { s with pc := .char c, counted := isEnd c }
  | .char c =>
      if isEnd c then some { s with pc := .ended }
      else if c = s.line.kill.toNat ∨ c = s.line.erase.toNat then some { s with pc := .line }
      else if c = BSLASH.toNat then some { s with pc := .bslash }
      else some { s with pc := .line }
  | .bslash =>
      let (c, s) := s.getc
      if isEnd c then some { s with pc := .ended, counted := true } else some { s with pc := .line }
  | .ended => some { s with pc := .out, line := s.line.unbreak, counted := false }
  | .first =>
      let (c, s) := s.getc
      some { s with pc := .rawchar c, counted := isEnd c }
  | .next =>
      let (c, s) := s.getc
      if c = -1 then some { s with pc := .out }
      else some { s with pc := .rawchar c, counted := isEnd c }
  | .rawchar c =>
      some { s with
        pc := .next, line := if isEnd c then s.line.unbreak else s.line, counted := false }
  | .drained => some { s with pc := .out, line := { s.line with nbreak := 0 } }

end State

/-- The step function. -/
def step (s : State) : Label → Option State
  | .input c ok => some (s.ttyin c ok)
  | .fault => some { s with error := true }
  | .hangup => some s.empty
  | .failed => if s.pc = .out ∧ s.error then some { s with error := false, raw := [] } else none
  | .cookin =>
      if s.pc = .out then
        if s.line.mode &&& RAWMODE ≠ 0 then
          if s.raw = [] then some s else some { s with pc := .first }
        else if s.line.nbreak = 0 then some s
        else some { s with pc := .line }
      else none
  | .ttymode mode erase kill =>
      if s.pc = .out then some { s with line := { s.line with mode, erase, kill } } else none
  | .drainques => if s.pc = .out then some { s with raw := [], pc := .drained } else none
  | .go => s.go

/-- An open terminal. -/
structure Start (s : State) : Prop where
  nbreak : s.line.nbreak = 0
  raw : s.raw = []
  pc : s.pc = .out
  counted : s.counted = false

/-- The condition on a step: the queue does not refuse the end of a line; a read that fails finds no
line in the queue, and `drainques` no new one when it clears `nbreak`; a process that counts a line
off after the queue has been emptied finds `nbreak` at 0; and a process that reads lines takes no
character from 128 on when there is a line. -/
def Careful (s : State) : Label → Prop
  | .input c ok => ∀ d, s.deposit c = some d → ends d = true → ok = true
  | .failed => s.raw.countP ends = 0
  | .go =>
      match s.pc with
      | .line => ret s.raw.head? < 0 → s.raw.tail.countP ends = 0
      | .ended => s.counted = false → s.line.nbreak = 0
      | .rawchar c => State.isEnd c = true → s.counted = false → s.line.nbreak = 0
      | .drained => s.raw.countP ends = 0
      | .out | .char _ | .bslash | .first | .next => True
  | .fault | .hangup | .cookin | .ttymode .. | .drainques => True

/-! ## The invariant -/

/-- The process has the end of a line. -/
def Pc.Holds : Pc → Prop
  | char c => State.isEnd c = true
  | ended => True
  | rawchar c => State.isEnd c = true
  | out | line | bslash | first | next | drained => False

namespace State

variable {s s' : State} {l : Label}

/-- What holds in every state. -/
structure Inv (s : State) : Prop where
  count : s.pc ≠ .drained → s.line.nbreak.toNat = s.raw.countP ends + s.counted.toNat
  holds : s.counted = true → s.pc.Holds
  length : s.raw.length ≤ TTYHOG

lemma Inv.not_counted (h : Inv s) (hp : ¬s.pc.Holds) : s.counted = false :=
  Bool.eq_false_iff.mpr fun hc => hp (h.holds hc)

lemma isEnd_ret (d : UInt8) : isEnd (ret (some d)) = ends d := by
  by_cases hd : d < 0x80
  · rw [ret_some hd, isEnd, ends]
    simp only [toNat_eq]
    rfl
  · have h128 : 128 ≤ d.toNat := by
      rw [UInt8.lt_iff_toNat_lt, not_lt] at hd
      exact hd
    have hN : d ≠ NL := by
      rintro rfl
      exact absurd h128 (by decide)
    have hE : d ≠ EOT := by
      rintro rfl
      exact absurd h128 (by decide)
    have hneg : ret (some d) = d.toNat - 256 := if_neg hd
    have := d.toNat_lt
    have hlow : NL.toNat = 10 ∧ EOT.toNat = 4 := by decide
    rw [hneg, isEnd, ends, beq_eq_false_iff_ne.mpr hN, beq_eq_false_iff_ne.mpr hE]
    simp only [Bool.or_self, Bool.or_eq_false_iff, decide_eq_false_iff_not]
    omega

/-- What `getc` takes is no longer in the queue. -/
lemma countP_tail (s : State) :
    s.raw.tail.countP ends + (isEnd (ret s.raw.head?)).toNat = s.raw.countP ends := by
  cases s.raw with
  | nil => rfl
  | cons d ds =>
      rw [List.head?_cons, isEnd_ret, List.tail_cons, List.countP_cons]
      cases ends d <;> rfl

lemma Inv.length_tail (h : Inv s) : s.raw.tail.length ≤ TTYHOG := by
  rw [List.length_tail]
  have := h.length
  omega

/-- Of the two ways to count off the end of a line. -/
lemma unbreak_toNat {t : Line} {n : ℕ} {b : Bool} (h : t.nbreak.toNat = n + b.toNat)
    (hb : b = false → t.nbreak = 0) : t.unbreak.nbreak.toNat = n := by
  cases b with
  | true =>
      change _ = n + 1 at h
      have hne : t.nbreak ≠ 0 := by
        intro e
        rw [e] at h
        change 0 = _ at h
        omega
      rw [Line.unbreak, if_pos hne, UInt8.toNat_sub_of_le _ _ (by
        rw [UInt8.le_iff_toNat_le, h]
        exact Nat.le_add_left ..), h]
      rfl
  | false =>
      rw [Line.unbreak, if_neg (not_not.mpr (hb rfl))]
      exact h

lemma inv_empty (s : State) : Inv s.empty where
  count _ := rfl
  holds hc := by cases hc
  length := Nat.zero_le _

lemma Inv.ttyin (h : Inv s) {c : UInt8} {ok : Bool} (hc : Careful s (.input c ok)) :
    Inv (s.ttyin c ok) := by
  rw [State.ttyin]
  cases hd : s.deposit c with
  | none =>
      dsimp only
      split_ifs
      · exact inv_empty s
      · exact h
  | some d =>
      have hlt : s.raw.length < TTYHOG := by
        by_contra hge
        rw [deposit, if_pos (Nat.le_of_not_lt hge)] at hd
        cases hd
      have hok := hc d hd
      refine ⟨fun hp => ?_, h.holds, ?_⟩
      · have hcount := h.count hp
        have hle : s.raw.countP ends ≤ s.raw.length := List.countP_le_length
        have hb : s.counted.toNat ≤ 1 := Bool.toNat_le _
        rw [TTYHOG] at hlt
        dsimp only
        by_cases he : ends d = true
        · rw [if_pos he, hok he, if_pos rfl, List.countP_append, List.countP_singleton, if_pos he,
            UInt8.toNat_add, UInt8.toNat_one]
          omega
        · rw [if_neg he]
          split_ifs
          · rw [List.countP_append, List.countP_singleton, if_neg he]
            exact hcount
          · exact hcount
      · dsimp only
        split_ifs
        · rw [List.length_append]
          exact hlt
        · exact h.length

/-- The process goes on elsewhere, with what it has in hand. -/
lemma Inv.goto (h : Inv s) (hd : s.pc ≠ .drained) {q : Pc} (hq : s.pc.Holds → q.Holds) :
    Inv { s with pc := q } :=
  ⟨fun _ => h.count hd, fun hc => hq (h.holds hc), h.length⟩

/-- A process with nothing in hand has taken a character. -/
lemma Inv.took (h : Inv s) (hd : s.pc ≠ .drained) (hp : ¬s.pc.Holds) {q : Pc} {b : Bool}
    (hb : b = isEnd (ret s.raw.head?)) (hq : b = true → q.Holds) :
    Inv { s with raw := s.raw.tail, pc := q, counted := b } := by
  refine ⟨fun _ => ?_, hq, h.length_tail⟩
  have hcount := h.count hd
  rw [h.not_counted hp, ← s.countP_tail, ← hb] at hcount
  exact hcount

/-- The process in the driver goes on. -/
lemma Inv.go (h : Inv s) (hc : Careful s .go) (he : s.go = some s') : Inv s' := by
  rw [Careful] at hc
  rw [State.go] at he
  split at he <;> rename_i hpc <;> rw [hpc] at hc
  · cases he
  · -- in the loop for lines
    have hd : s.pc ≠ .drained := by rw [hpc]; nofun
    have hp : ¬s.pc.Holds := by rw [hpc]; exact id
    rw [getc] at he
    dsimp only at he
    split_ifs at he with hneg <;> obtain rfl := Option.some.inj he
    · have h0 := h.not_counted hp
      refine ⟨fun _ => ?_, fun hc' => absurd hc' (by rw [h0]; nofun), h.length_tail⟩
      show 0 = s.raw.tail.countP ends + s.counted.toNat
      rw [hc hneg, h0]
      rfl
    · exact h.took hd hp rfl id
  · -- the character
    have hd : s.pc ≠ .drained := by rw [hpc]; nofun
    split_ifs at he <;> obtain rfl := Option.some.inj he <;> refine h.goto hd fun hp => ?_ <;>
      rw [hpc] at hp
    · exact trivial
    all_goals contradiction
  · -- after a backslash
    have hd : s.pc ≠ .drained := by rw [hpc]; nofun
    have hp : ¬s.pc.Holds := by rw [hpc]; exact id
    rw [getc] at he
    dsimp only at he
    split_ifs at he with hend <;> obtain rfl := Option.some.inj he
    · exact h.took hd hp hend.symm fun _ => trivial
    · have h0 := h.not_counted hp
      exact h.took hd hp (h0.trans (Bool.eq_false_iff.mpr hend).symm) fun hc' => by
        rw [h0] at hc'
        cases hc'
  · -- the end of the line is counted off
    obtain rfl := Option.some.inj he
    exact ⟨fun _ => unbreak_toNat (h.count (by rw [hpc]; nofun)) hc, nofun, h.length⟩
  · -- in `cwait`
    obtain rfl := Option.some.inj he
    exact h.took (by rw [hpc]; nofun) (by rw [hpc]; exact id) rfl id
  · -- in the loop for `RAW` and `CBREAK`
    have hd : s.pc ≠ .drained := by rw [hpc]; nofun
    have hp : ¬s.pc.Holds := by rw [hpc]; exact id
    rw [getc] at he
    dsimp only at he
    split_ifs at he with hend <;> obtain rfl := Option.some.inj he
    · have h0 := h.not_counted hp
      refine h.took hd hp ?_ fun hc' => ?_
      · rw [h0, hend]
        rfl
      · rw [h0] at hc'
        cases hc'
    · exact h.took hd hp rfl id
  · rename_i c
    obtain rfl := Option.some.inj he
    have hcount := h.count (by rw [hpc]; nofun)
    refine ⟨fun _ => ?_, nofun, h.length⟩
    dsimp only
    by_cases hend : isEnd c = true
    · rw [if_pos hend]
      exact unbreak_toNat hcount (hc hend)
    · rw [if_neg hend]
      rw [h.not_counted (by rw [hpc]; exact hend)] at hcount
      exact hcount
  · -- `drainques` clears the count
    obtain rfl := Option.some.inj he
    have h0 := h.not_counted (by rw [hpc]; exact id)
    refine ⟨fun _ => ?_, fun hc' => absurd hc' (by rw [h0]; nofun), h.length⟩
    show 0 = s.raw.countP ends + s.counted.toNat
    rw [hc, h0]
    rfl

/-- **The step lemma.** -/
lemma Inv.step (h : Inv s) (hc : Careful s l) (he : step s l = some s') : Inv s' := by
  cases l with
  | input c ok =>
      obtain rfl := Option.some.inj he
      exact h.ttyin hc
  | fault =>
      obtain rfl := Option.some.inj he
      exact ⟨h.count, h.holds, h.length⟩
  | hangup =>
      obtain rfl := Option.some.inj he
      exact inv_empty s
  | failed =>
      rw [Breaks.step] at he
      split_ifs at he with hp
      obtain rfl := Option.some.inj he
      refine ⟨fun hne => ?_, h.holds, Nat.zero_le _⟩
      have := h.count hne
      rw [show s.raw.countP ends = 0 from hc] at this
      exact this
  | cookin =>
      rw [Breaks.step] at he
      split_ifs at he with hp hmode hraw hn
      · obtain rfl := Option.some.inj he
        exact h
      · obtain rfl := Option.some.inj he
        exact h.goto (by rw [hp]; nofun) fun hh => by
          rw [hp] at hh
          exact hh
      · obtain rfl := Option.some.inj he
        exact h
      · obtain rfl := Option.some.inj he
        exact h.goto (by rw [hp]; nofun) fun hh => by
          rw [hp] at hh
          exact hh
  | ttymode mode erase kill =>
      rw [Breaks.step] at he
      split_ifs at he with hp
      obtain rfl := Option.some.inj he
      exact ⟨h.count, h.holds, h.length⟩
  | drainques =>
      rw [Breaks.step] at he
      split_ifs at he with hp
      obtain rfl := Option.some.inj he
      have h0 := h.not_counted (by rw [hp]; exact id)
      exact ⟨fun hne => absurd rfl hne, fun hc' => absurd hc' (by rw [h0]; nofun), Nat.zero_le _⟩
  | go => exact h.go hc he

end State

open Breaks.State

lemma Start.inv {s : State} (h : Start s) : Inv s where
  count _ := by
    rw [h.nbreak, h.raw, h.counted]
    rfl
  holds hc := absurd (h.counted.symm.trans hc) nofun
  length := by
    rw [h.raw]
    exact Nat.zero_le _

/-- **The count of lines.**  In a run whose steps meet the condition, but for the middle of
`drainques`, `nbreak` is the number of line ends in the raw queue, and one when a process has taken
the end of a line and is yet to count it off.  So a process that is to read a line goes on if and
only if there is one. -/
theorem nbreak_lines {s : State} (h : Transition.Reach step Start Careful s)
    (hp : s.pc ≠ .drained) :
    s.line.nbreak.toNat = s.raw.countP ends + s.counted.toNat ∧ (s.counted = true → s.pc.Holds) ∧
      (s.pc = .out → s.line.mode &&& RAWMODE = 0 →
        (step s .cookin = some { s with pc := .line } ↔ ∃ c ∈ s.raw, ends c = true)) := by
  have hi : Inv s := h.invariant (fun _ hs => hs.inv) fun _ _ _ hi hc he => hi.step hc he
  refine ⟨hi.count hp, hi.holds, fun hpc hmode => ?_⟩
  have hcount := hi.count hp
  rw [hi.not_counted (by rw [hpc]; exact id)] at hcount
  have hpos : s.line.nbreak ≠ 0 ↔ ∃ c ∈ s.raw, ends c = true := by
    rw [← List.countP_pos_iff, Nat.pos_iff_ne_zero, not_iff_not, ← UInt8.toNat_inj, hcount]
    rfl
  rw [← hpos, step, if_pos hpc, if_neg (not_not.mpr hmode)]
  by_cases h0 : s.line.nbreak = 0
  · rw [if_pos h0]
    refine iff_of_false (fun e => ?_) (not_not.mpr h0)
    have := congrArg State.pc (Option.some.inj e)
    rw [hpc] at this
    cases this
  · rw [if_neg h0]
    exact iff_of_true rfl h0

/-- An open terminal. -/
def init : State := ⟨⟨0, 8, 21, 0⟩, false, [], .out, false⟩

lemma start_init : Start init := ⟨rfl, rfl, rfl, rfl⟩

/-- Two lines, of which a process has counted off the first one. -/
def oneRead : List Label :=
  [.input 97 true, .input 10 true, .input 10 true, .cookin, .go, .go, .go, .go, .go]

instance (s : State) : ∀ l, Decidable (Careful s l)
  | .input c _ => Option.decidableForallMem (s.deposit c)
  | .failed => inferInstanceAs (Decidable (_ = _))
  | .go => by
      unfold Careful
      dsimp only
      split <;> infer_instance
  | .fault | .hangup | .cookin | .ttymode .. | .drainques => .isTrue trivial

theorem nbreak_lines_one : ∃ s, Transition.Reach step Start Careful s ∧ s.pc = .out ∧ s.raw = [10] ∧
    s.line.nbreak.toNat = 1 := by
  obtain ⟨s, hs, hpc, hraw, hc⟩ : ∃ s, Transition.run step Careful init oneRead = some s ∧
      s.pc = .out ∧ s.raw = [10] ∧ s.counted = false := by
    refine ⟨_, rfl, ?_⟩
    decide +kernel
  have hr : Transition.Reach step Start Careful s := .of_run start_init hs
  refine ⟨s, hr, hpc, hraw, ?_⟩
  rw [(nbreak_lines hr (by rw [hpc]; nofun)).1, hraw, hc]
  rfl

/-- A process has taken the end of the only line, and `nbreak` is still 1. -/
theorem nbreak_in_hand : ∃ s, Transition.Reachable step Start s ∧ s.pc = .ended ∧
    s.line.nbreak = 1 ∧ s.raw.countP ends = 0 := by
  obtain ⟨s, hs, h⟩ : ∃ s, Transition.run step (fun _ _ => True) init
      [.input 10 true, .cookin, .go, .go] = some s ∧ s.pc = .ended ∧ s.line.nbreak = 1 ∧
      s.raw.countP ends = 0 := by
    refine ⟨_, rfl, ?_⟩
    decide +kernel
  exact ⟨s, .of_run start_init hs, h⟩

end Breaks

end Tty

end Micronix
