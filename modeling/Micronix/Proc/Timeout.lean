import Micronix.Lib.Transition
import Mathlib.Data.Fintype.Basic
import Mathlib.Logic.Function.Basic
import Mathlib.Tactic.Common

/-!
# Timeouts

`timeout` (`time.c`) puts a function into a slot of `tlist`, and the clock interrupt goes through the
slots and calls what is due (`timein`).  The functions are called with interrupts possible, so that
requests, and further clock interrupts, come at any point of the walk: from inside a function, between
two slots, or from other interrupts.  A slot stays in use until its function has returned.

The history (`requests`, `calls` and the counts of ticks and walks) is what the theorem is about; the
system does not look at it.
-/

namespace Micronix

namespace Timeout

abbrev Word := BitVec 16

def NTMOUTS : ℕ := 5

/-- `struct tmout` of a slot in use, and which request it is. -/
structure Tmout (F A : Type) where
  func : F
  arg : A
  ticks : Word
  id : ℕ

/-- A request: what was asked for, and the clock interrupts and walks there had been. -/
structure Request (F A : Type) where
  func : F
  arg : A
  ticks : Word
  clocks : ℕ
  begun : ℕ

/-- A call, with the clock interrupts there had been. -/
structure Call (F A : Type) where
  id : ℕ
  func : F
  arg : A
  clocks : ℕ

/-- Where `timein` is; `tmbusy` unless it is idle. -/
inductive Walk
  | idle
  /-- about to look at a slot -/
  | slot (i : ℕ)
  /-- in the function of a slot -/
  | calling (i : Fin NTMOUTS)
  deriving DecidableEq, Repr

variable {F A : Type}

structure State (F A : Type) where
  tlist : Fin NTMOUTS → Option (Tmout F A)
  walk : Walk
  requests : List (Request F A)
  calls : List (Call F A)
  /-- clock interrupts -/
  clocks : ℕ
  /-- walks that have begun, and that have come to their end -/
  begun : ℕ
  finished : ℕ

inductive Op (F A : Type)
  | timeout (func : F) (arg : A) (ticks : Word)
  | clock
  /-- `timein` goes on to the next slot -/
  | look
  /-- the function that was called returns -/
  | ret

/-- The first free slot. -/
def free (tlist : Fin NTMOUTS → Option (Tmout F A)) : Option (Fin NTMOUTS) :=
  (List.finRange NTMOUTS).find? fun i => (tlist i).isNone

/-- `timeout`; none is the panic. -/
def timeout (s : State F A) (func : F) (arg : A) (ticks : Word) : Option (State F A) :=
  (free s.tlist).map fun i =>
    { s with
      tlist := Function.update s.tlist i (some ⟨func, arg, ticks + 1, s.requests.length⟩)
      requests := s.requests ++ [⟨func, arg, ticks, s.clocks, s.begun⟩] }

/-- The clock interrupt: the beginning of `timein`. -/
def clock (s : State F A) : State F A :=
  match s.walk with
  | .idle => { s with walk := .slot 0, clocks := s.clocks + 1, begun := s.begun + 1 }
  | _ => { s with clocks := s.clocks + 1 }

/-- The body of the loop up to a call, or the end of the loop. -/
def look (s : State F A) (i : ℕ) : State F A :=
  if h : i < NTMOUTS then
    match s.tlist ⟨i, h⟩ with
    | none => { s with walk := .slot (i + 1) }
    | some t =>
        let t : Tmout F A := { t with ticks := t.ticks - 1 }
        let s := { s with tlist := Function.update s.tlist ⟨i, h⟩ (some t) }
        if t.ticks = 0 then
          { s with walk := .calling ⟨i, h⟩, calls := s.calls ++ [⟨t.id, t.func, t.arg, s.clocks⟩] }
        else { s with walk := .slot (i + 1) }
  else { s with walk := .idle, finished := s.finished + 1 }

def step (s : State F A) : Op F A → Option (State F A)
  | .timeout func arg ticks => timeout s func arg ticks
  | .clock => some (clock s)
  | .look =>
      match s.walk with
      | .slot i => some (look s i)
      | _ => none
  | .ret =>
      match s.walk with
      | .calling i =>
          some { s with tlist := Function.update s.tlist i none, walk := .slot (i + 1) }
      | _ => none

def start : State F A where
  tlist _ := none
  walk := .idle
  requests := []
  calls := []
  clocks := 0
  begun := 0
  finished := 0

/-! ## What the slots count -/

/-- How often a slot is still decremented before its function is called. -/
def Tmout.left (t : Tmout F A) : ℕ := if t.ticks = 0 then 65536 else t.ticks.toNat

/-- The walk under way gets to a slot yet. -/
def Walk.ahead (i : Fin NTMOUTS) : Walk → ℕ
  | .idle => 0
  | .slot k => if k ≤ i then 1 else 0
  | .calling k => if k < i then 1 else 0

namespace State

variable (s : State F A)

/-- The calls of a request. -/
def called (id : ℕ) : ℕ := s.calls.countP fun c => c.id = id

/-- A slot whose function has not been called yet. -/
def Pending (i : Fin NTMOUTS) (t : Tmout F A) : Prop := s.tlist i = some t ∧ s.walk ≠ .calling i

/-- Every pending slot counts the ticks of its request, every request is pending or has been called,
and none twice. -/
structure Good : Prop where
  pending : ∀ i t, s.Pending i t → ∃ r, s.requests[t.id]? = some r ∧ t.func = r.func ∧
    t.arg = r.arg ∧ s.called t.id = 0 ∧
    -- each decrement but one took a tick, and each walk that got to the slot decremented it
    r.ticks.toNat + r.clocks + s.walk.ahead i ≤ s.clocks + t.left ∧
    t.left + s.begun ≤ r.ticks.toNat + 1 + r.begun + s.walk.ahead i
  unique : ∀ i j t u, s.Pending i t → s.Pending j u → t.id = u.id → i = j
  once : ∀ id, s.called id ≤ 1
  all : ∀ id < s.requests.length, (∃ i t, s.Pending i t ∧ t.id = id) ∨ s.called id = 1
  calls : ∀ c ∈ s.calls, ∃ r, s.requests[c.id]? = some r ∧ c.func = r.func ∧ c.arg = r.arg ∧
    r.clocks + r.ticks.toNat ≤ c.clocks
  calling : ∀ i, s.walk = .calling i → (s.tlist i).isSome
  walks : s.begun = s.finished + if s.walk = .idle then 0 else 1

end State

section

variable {s : State F A} {func : F} {arg : A} {ticks : Word} {t : Tmout F A} {i j : Fin NTMOUTS}

lemma left_pos (t : Tmout F A) : 0 < t.left := by
  rw [Tmout.left]
  split_ifs with h
  · decide
  · have hne : t.ticks.toNat ≠ 0 := fun h0 => h (BitVec.eq_of_toNat_eq h0)
    omega

lemma left_new (func : F) (arg : A) (ticks : Word) (id : ℕ) :
    (⟨func, arg, ticks + 1, id⟩ : Tmout F A).left = ticks.toNat + 1 := by
  have hlt := ticks.isLt
  have hone : (ticks + 1).toNat = (ticks.toNat + 1) % 65536 := BitVec.toNat_add ticks 1
  rw [Tmout.left]
  split_ifs with h
  · have hzero : (ticks + 1).toNat = 0 := congrArg BitVec.toNat h
    omega
  · have hne : (ticks + 1).toNat ≠ 0 := fun h0 => h (BitVec.eq_of_toNat_eq h0)
    show (ticks + 1).toNat = _
    omega

/-- The decrement: the last one calls the function. -/
lemma left_dec (t : Tmout F A) :
    if t.ticks - 1 = 0 then t.left = 1
    else ({ t with ticks := t.ticks - 1 } : Tmout F A).left + 1 = t.left := by
  have hlt := t.ticks.isLt
  have hdec : (t.ticks - 1).toNat = (65536 - 1 + t.ticks.toNat) % 65536 := BitVec.toNat_sub t.ticks 1
  have hzero : ∀ w : Word, w = 0 ↔ w.toNat = 0 := fun w =>
    ⟨fun h => congrArg BitVec.toNat h, fun h => BitVec.eq_of_toNat_eq h⟩
  simp only [Tmout.left, hzero]
  split_ifs <;> omega

lemma Walk.ahead_le (w : Walk) (i : Fin NTMOUTS) : w.ahead i ≤ 1 := by
  cases w with
  | idle => exact Nat.zero_le _
  | slot k =>
      rw [ahead]
      split_ifs <;> omega
  | calling k =>
      rw [ahead]
      split_ifs <;> omega

namespace State

namespace Good

lemma id_lt (h : s.Good) (ht : s.Pending i t) : t.id < s.requests.length := by
  obtain ⟨r, hr, -⟩ := h.pending i t ht
  exact (List.getElem?_eq_some_iff.mp hr).1

lemma called_new (h : s.Good) : s.called s.requests.length = 0 := by
  rw [called, List.countP_eq_zero]
  intro c hc heq
  obtain ⟨r, hr, -⟩ := h.calls c hc
  rw [of_decide_eq_true heq] at hr
  exact absurd (List.getElem?_eq_some_iff.mp hr).1 (lt_irrefl _)

lemma start : (start : State F A).Good where
  pending _ _ h := absurd h.1 (Option.some_ne_none _).symm
  unique _ _ _ _ h := absurd h.1 (Option.some_ne_none _).symm
  once _ := Nat.zero_le 1
  all _ h := absurd h (Nat.not_lt_zero _)
  calls _ h := absurd h List.not_mem_nil
  calling _ h := nomatch h
  walks := rfl

/-- A step that neither requests nor decrements nor calls. -/
lemma frame {s' : State F A} (h : s.Good) (hp : ∀ i t, s'.Pending i t ↔ s.Pending i t)
    (hrequests : s'.requests = s.requests) (hcalls : s'.calls = s.calls)
    (hcount : ∀ i t, s.Pending i t → s.clocks + s'.walk.ahead i ≤ s'.clocks + s.walk.ahead i ∧
      s'.begun + s.walk.ahead i ≤ s.begun + s'.walk.ahead i)
    (hcalling : ∀ i, s'.walk = .calling i → (s'.tlist i).isSome)
    (hwalks : s'.begun = s'.finished + if s'.walk = .idle then 0 else 1) : s'.Good where
  pending i t ht := by
    have ht' := (hp i t).mp ht
    obtain ⟨r, hr, hfunc, harg, hnone, hearly, hlate⟩ := h.pending i t ht'
    obtain ⟨hclocks, hbegun⟩ := hcount i t ht'
    refine ⟨r, hrequests ▸ hr, hfunc, harg, ?_, by omega, by omega⟩
    rw [called, hcalls]
    exact hnone
  unique i j t u ht hu := h.unique i j t u ((hp i t).mp ht) ((hp j u).mp hu)
  once id := by
    rw [called, hcalls]
    exact h.once id
  all id hid := by
    rw [called, hcalls]
    refine (h.all id (hrequests ▸ hid)).imp_left fun ⟨i, t, ht, heq⟩ => ?_
    exact ⟨i, t, (hp i t).mpr ht, heq⟩
  calls c hc := hrequests ▸ h.calls c (hcalls ▸ hc)
  calling := hcalling
  walks := hwalks

lemma clock (h : s.Good) : (clock s).Good := by
  have hwalks := h.walks
  by_cases hw : s.walk = .idle
  · have hclock : Timeout.clock s =
        { s with walk := .slot 0, clocks := s.clocks + 1, begun := s.begun + 1 } := by
      rw [Timeout.clock, hw]
    rw [if_pos hw] at hwalks
    rw [hclock]
    refine h.frame (fun i t => ?_) rfl rfl (fun i t _ => ?_) (fun i hi => nomatch hi) ?_
    · rw [Pending, Pending, hw]
      exact and_congr_right fun _ => iff_of_true (by simp) (by simp)
    · have hahead : (Walk.slot 0).ahead i = 1 := by rw [Walk.ahead, if_pos (Nat.zero_le _)]
      dsimp only
      rw [hahead, hw, Walk.ahead]
      omega
    · dsimp only
      rw [if_neg (by simp)]
      omega
  · have hclock : Timeout.clock s = { s with clocks := s.clocks + 1 } := by
      rw [Timeout.clock]
      split
      · exact absurd ‹_› hw
      · rfl
    rw [hclock]
    refine h.frame (fun _ _ => Iff.rfl) rfl rfl (fun i t _ => ?_) h.calling hwalks
    dsimp only
    omega

lemma ret (h : s.Good) (hw : s.walk = .calling i) :
    State.Good { s with tlist := Function.update s.tlist i none, walk := .slot (i + 1) } := by
  have hwalks := h.walks
  rw [hw, if_neg (by simp)] at hwalks
  refine h.frame (fun j t => ?_) rfl rfl (fun j t _ => ?_) (fun j hj => nomatch hj) ?_
  · rw [Pending, Pending, hw]
    dsimp only
    rcases eq_or_ne j i with rfl | hne
    · rw [Function.update_self]
      exact iff_of_false (fun hj => nomatch hj.1) fun hj => hj.2 rfl
    · rw [Function.update_of_ne hne]
      exact and_congr_right fun _ => iff_of_true (by simp) (by simpa using hne.symm)
  · have hahead : (Walk.slot (i + 1)).ahead j = (Walk.calling i).ahead j :=
      if_congr (Nat.succ_le_iff.trans Fin.lt_def.symm) rfl rfl
    dsimp only
    rw [hw, hahead]
    omega
  · dsimp only
    rw [if_neg (by simp)]
    exact hwalks

/-- A request for a free slot. -/
lemma timeout (h : s.Good) (hfree : s.tlist i = none) :
    State.Good { s with
      tlist := Function.update s.tlist i (some ⟨func, arg, ticks + 1, s.requests.length⟩)
      requests := s.requests ++ [⟨func, arg, ticks, s.clocks, s.begun⟩] } := by
  have hidle : s.walk ≠ .calling i := fun hw => by
    have hsome := h.calling i hw
    rw [hfree] at hsome
    exact Bool.false_ne_true hsome
  have hold : ∀ {id r}, s.requests[id]? = some r →
      (s.requests ++ [⟨func, arg, ticks, s.clocks, s.begun⟩])[id]? = some r := fun hr => by
    rw [List.getElem?_append_left (List.getElem?_eq_some_iff.mp hr).1]
    exact hr
  have hahead := s.walk.ahead_le i
  have hpending : ∀ {j t}, State.Pending { s with
        tlist := Function.update s.tlist i (some ⟨func, arg, ticks + 1, s.requests.length⟩)
        requests := s.requests ++ [⟨func, arg, ticks, s.clocks, s.begun⟩] } j t →
      (j = i ∧ t = ⟨func, arg, ticks + 1, s.requests.length⟩) ∨ (j ≠ i ∧ s.Pending j t) := by
    rintro j t ⟨hj, hw⟩
    dsimp only at hj hw
    rcases eq_or_ne j i with rfl | hne
    · rw [Function.update_self, Option.some.injEq] at hj
      exact Or.inl ⟨rfl, hj.symm⟩
    · rw [Function.update_of_ne hne] at hj
      exact Or.inr ⟨hne, hj, hw⟩
  refine ⟨?_, ?_, h.once, ?_, ?_, ?_, h.walks⟩
  · intro j t hj
    rcases hpending hj with ⟨rfl, rfl⟩ | ⟨-, hj⟩
    · refine ⟨_, List.getElem?_concat_length, rfl, rfl, h.called_new, ?_⟩
      rw [left_new]
      dsimp only
      omega
    · obtain ⟨r, hr, hrest⟩ := h.pending j t hj
      exact ⟨r, hold hr, hrest⟩
  · intro j k t u hj hk heq
    rcases hpending hj with ⟨rfl, rfl⟩ | ⟨-, hj'⟩
    · rcases hpending hk with ⟨rfl, rfl⟩ | ⟨-, hk'⟩
      · rfl
      · exact absurd heq.symm (h.id_lt hk').ne
    · rcases hpending hk with ⟨rfl, rfl⟩ | ⟨-, hk'⟩
      · exact absurd heq (h.id_lt hj').ne
      · exact h.unique j k t u hj' hk' heq
  · intro id hid
    dsimp only at hid
    rw [List.length_append, List.length_singleton, Nat.lt_succ_iff_lt_or_eq] at hid
    rcases hid with hid | rfl
    · refine (h.all id hid).imp_left fun ⟨j, t, hj, heq⟩ => ⟨j, t, ⟨?_, hj.2⟩, heq⟩
      have hne : j ≠ i := fun heq => by
        rw [heq] at hj
        exact absurd hj.1 (by rw [hfree]; exact (Option.some_ne_none t).symm)
      exact (Function.update_of_ne hne _ _).trans hj.1
    · exact Or.inl ⟨i, _, ⟨Function.update_self _ _ _, hidle⟩, rfl⟩
  · intro c hc
    obtain ⟨r, hr, hrest⟩ := h.calls c hc
    exact ⟨r, hold hr, hrest⟩
  · intro j hj
    dsimp only
    rcases eq_or_ne j i with rfl | hne
    · rw [Function.update_self]
      rfl
    · rw [Function.update_of_ne hne]
      exact h.calling j hj

/-- The walk goes by a slot that is free, or comes to its end. -/
lemma look_free {k : ℕ} (h : s.Good) (hw : s.walk = .slot k) (hlt : k < NTMOUTS)
    (hnone : s.tlist ⟨k, hlt⟩ = none) : State.Good { s with walk := .slot (k + 1) } := by
  have hwalks := h.walks
  rw [hw, if_neg (by simp)] at hwalks
  refine h.frame (fun j t => ?_) rfl rfl (fun j t hj => ?_) (fun j hj => nomatch hj) ?_
  · rw [Pending, Pending, hw]
    exact and_congr_right fun _ => iff_of_true (by simp) (by simp)
  · have hne : j.val ≠ k := fun heq => by
      subst heq
      rw [hj.1] at hnone
      cases hnone
    have hahead : (Walk.slot (k + 1)).ahead j = (Walk.slot k).ahead j :=
      if_congr (by omega) rfl rfl
    dsimp only
    rw [hw, hahead]
    omega
  · dsimp only
    rw [if_neg (by simp)]
    exact hwalks

lemma look_end {k : ℕ} (h : s.Good) (hw : s.walk = .slot k) (hge : ¬k < NTMOUTS) :
    State.Good { s with walk := .idle, finished := s.finished + 1 } := by
  have hwalks := h.walks
  rw [hw, if_neg (by simp)] at hwalks
  refine h.frame (fun j t => ?_) rfl rfl (fun j t hj => ?_) (fun j hj => nomatch hj) ?_
  · rw [Pending, Pending, hw]
    exact and_congr_right fun _ => iff_of_true (by simp) (by simp)
  · have hahead : (Walk.slot k).ahead j = 0 := if_neg (by omega)
    dsimp only
    rw [hw, hahead, Walk.ahead]
    omega
  · dsimp only
    rw [if_pos rfl]
    omega

/-- A slot is decremented and not due. -/
lemma look_dec {k : ℕ} (h : s.Good) (hw : s.walk = .slot k) (hlt : k < NTMOUTS)
    (ht : s.tlist ⟨k, hlt⟩ = some t) (hdue : t.ticks - 1 ≠ 0) :
    State.Good { s with
      tlist := Function.update s.tlist ⟨k, hlt⟩ (some { t with ticks := t.ticks - 1 })
      walk := .slot (k + 1) } := by
  have hleft := left_dec t
  rw [if_neg hdue] at hleft
  have hwalks := h.walks
  rw [hw, if_neg (by simp)] at hwalks
  have hold : s.Pending ⟨k, hlt⟩ t := ⟨ht, by rw [hw]; simp⟩
  have hpending : ∀ {j u}, State.Pending { s with
        tlist := Function.update s.tlist ⟨k, hlt⟩ (some { t with ticks := t.ticks - 1 })
        walk := .slot (k + 1) } j u →
      (j = ⟨k, hlt⟩ ∧ u = { t with ticks := t.ticks - 1 }) ∨ (j ≠ ⟨k, hlt⟩ ∧ s.Pending j u) := by
    rintro j u ⟨hj, -⟩
    dsimp only at hj
    rcases eq_or_ne j ⟨k, hlt⟩ with rfl | hne
    · rw [Function.update_self, Option.some.injEq] at hj
      exact Or.inl ⟨rfl, hj.symm⟩
    · rw [Function.update_of_ne hne] at hj
      exact Or.inr ⟨hne, hj, by rw [hw]; simp⟩
  refine ⟨?_, ?_, h.once, ?_, h.calls, fun j hj => (nomatch hj), ?_⟩
  · intro j u hj
    rcases hpending hj with ⟨rfl, rfl⟩ | ⟨hne, hj'⟩
    · obtain ⟨r, hr, hfunc, harg, hnone, hearly, hlate⟩ := h.pending _ t hold
      have hahead : (Walk.slot k).ahead ⟨k, hlt⟩ = 1 := if_pos (Nat.le_refl k)
      have hahead' : (Walk.slot (k + 1)).ahead ⟨k, hlt⟩ = 0 := if_neg (Nat.not_succ_le_self k)
      rw [hw, hahead] at hearly hlate
      refine ⟨r, hr, hfunc, harg, hnone, ?_, ?_⟩
      · dsimp only
        rw [hahead']
        omega
      · dsimp only
        rw [hahead']
        omega
    · obtain ⟨r, hr, hfunc, harg, hnone, hearly, hlate⟩ := h.pending _ u hj'
      have hval : j.val ≠ k := fun heq => hne (Fin.ext heq)
      have hahead : (Walk.slot (k + 1)).ahead j = (Walk.slot k).ahead j :=
        if_congr (by omega) rfl rfl
      rw [hw] at hearly hlate
      refine ⟨r, hr, hfunc, harg, hnone, ?_, ?_⟩
      · dsimp only
        rw [hahead]
        exact hearly
      · dsimp only
        rw [hahead]
        exact hlate
  · intro j l u v hj hl heq
    rcases hpending hj with ⟨rfl, rfl⟩ | ⟨-, hj'⟩
    · rcases hpending hl with ⟨rfl, rfl⟩ | ⟨-, hl'⟩
      · rfl
      · exact h.unique _ l t v hold hl' heq
    · rcases hpending hl with ⟨rfl, rfl⟩ | ⟨-, hl'⟩
      · exact h.unique j _ u t hj' hold heq
      · exact h.unique j l u v hj' hl' heq
  · intro id hid
    refine (h.all id hid).imp_left fun ⟨j, u, hj, heq⟩ => ?_
    rcases eq_or_ne j ⟨k, hlt⟩ with rfl | hne
    · have hu : t = u := Option.some.inj (ht.symm.trans hj.1)
      exact ⟨⟨k, hlt⟩, _, ⟨Function.update_self _ _ _, by simp⟩, hu ▸ heq⟩
    · exact ⟨j, u, ⟨(Function.update_of_ne hne _ _).trans hj.1, by simp⟩, heq⟩
  · dsimp only
    rw [if_neg (by simp)]
    exact hwalks

/-- A slot is due: its function is called. -/
lemma look_call {k : ℕ} (h : s.Good) (hw : s.walk = .slot k) (hlt : k < NTMOUTS)
    (ht : s.tlist ⟨k, hlt⟩ = some t) (hdue : t.ticks - 1 = 0) :
    State.Good { s with
      tlist := Function.update s.tlist ⟨k, hlt⟩ (some { t with ticks := t.ticks - 1 })
      walk := .calling ⟨k, hlt⟩
      calls := s.calls ++ [⟨t.id, t.func, t.arg, s.clocks⟩] } := by
  have hleft := left_dec t
  rw [if_pos hdue] at hleft
  have hwalks := h.walks
  rw [hw, if_neg (by simp)] at hwalks
  have hold : s.Pending ⟨k, hlt⟩ t := ⟨ht, by rw [hw]; simp⟩
  obtain ⟨r, hr, hfunc, harg, hnone, hearly, -⟩ := h.pending _ t hold
  have hahead : (Walk.slot k).ahead ⟨k, hlt⟩ = 1 := if_pos (Nat.le_refl k)
  rw [hw, hahead] at hearly
  have hpending : ∀ {j u}, State.Pending { s with
        tlist := Function.update s.tlist ⟨k, hlt⟩ (some { t with ticks := t.ticks - 1 })
        walk := .calling ⟨k, hlt⟩
        calls := s.calls ++ [⟨t.id, t.func, t.arg, s.clocks⟩] } j u →
      j ≠ ⟨k, hlt⟩ ∧ s.Pending j u := by
    rintro j u ⟨hj, hcalling⟩
    dsimp only at hj hcalling
    have hne : j ≠ ⟨k, hlt⟩ := fun heq => hcalling (heq ▸ rfl)
    rw [Function.update_of_ne hne] at hj
    exact ⟨hne, hj, by rw [hw]; simp⟩
  have hcalled : ∀ id, State.called { s with
        tlist := Function.update s.tlist ⟨k, hlt⟩ (some { t with ticks := t.ticks - 1 })
        walk := .calling ⟨k, hlt⟩
        calls := s.calls ++ [⟨t.id, t.func, t.arg, s.clocks⟩] } id =
      s.called id + if t.id = id then 1 else 0 := fun id => by
    rw [called, List.countP_append, List.countP_singleton, called]
    exact congrArg _ (if_congr decide_eq_true_iff rfl rfl)
  refine ⟨?_, ?_, ?_, ?_, ?_, ?_, ?_⟩
  · intro j u hj
    obtain ⟨hne, hj'⟩ := hpending hj
    obtain ⟨r', hr', hfunc', harg', hnone', hearly', hlate'⟩ := h.pending _ u hj'
    have hid : t.id ≠ u.id := fun heq => hne (h.unique _ _ _ _ hj' hold heq.symm)
    have hval : j.val ≠ k := fun heq => hne (Fin.ext heq)
    have hahead' : (Walk.calling ⟨k, hlt⟩).ahead j = (Walk.slot k).ahead j :=
      if_congr (show k < j.val ↔ k ≤ j.val by omega) rfl rfl
    rw [hw] at hearly' hlate'
    refine ⟨r', hr', hfunc', harg', ?_, ?_, ?_⟩
    · rw [hcalled, hnone', if_neg hid]
    · dsimp only
      rw [hahead']
      exact hearly'
    · dsimp only
      rw [hahead']
      exact hlate'
  · exact fun j l u v hj hl heq => h.unique j l u v (hpending hj).2 (hpending hl).2 heq
  · intro id
    rw [hcalled]
    split_ifs with heq
    · rw [← heq, hnone]
    · exact h.once id
  · intro id hid
    rw [hcalled]
    by_cases heq : t.id = id
    · rw [if_pos heq, ← heq, hnone]
      exact Or.inr rfl
    · rw [if_neg heq]
      refine (h.all id hid).imp_left fun ⟨j, u, hj, hu⟩ => ?_
      have hne : j ≠ ⟨k, hlt⟩ := fun hjk => by
        subst hjk
        have htu : t = u := Option.some.inj (ht.symm.trans hj.1)
        exact heq (htu ▸ hu)
      exact ⟨j, u, ⟨(Function.update_of_ne hne _ _).trans hj.1, by simpa using hne.symm⟩, hu⟩
  · intro c hc
    rcases List.mem_append.mp hc with hc | hc
    · exact h.calls c hc
    · cases List.mem_singleton.mp hc
      refine ⟨r, hr, hfunc, harg, ?_⟩
      dsimp only
      omega
  · intro j hj
    cases hj
    dsimp only
    rw [Function.update_self]
    rfl
  · dsimp only
    rw [if_neg (by simp)]
    exact hwalks

end Good

end State

/-- What a step keeps. -/
lemma good_step (h : s.Good) {op : Op F A} {s' : State F A} (hs : step s op = some s') : s'.Good := by
  cases op with
  | timeout func arg ticks =>
      rw [step, timeout] at hs
      obtain ⟨i, hi, rfl⟩ := Option.map_eq_some_iff.mp hs
      have hnone := List.find?_some (p := fun i => (s.tlist i).isNone) hi
      exact h.timeout (Option.isNone_iff_eq_none.mp hnone)
  | clock =>
      cases hs
      exact h.clock
  | look =>
      rw [step] at hs
      split at hs
      · rename_i k hw
        cases hs
        rw [look]
        split_ifs with hlt
        · split
          · exact h.look_free hw hlt ‹_›
          · dsimp only
            split_ifs with hdue
            · exact h.look_call hw hlt ‹_› hdue
            · exact h.look_dec hw hlt ‹_› hdue
        · exact h.look_end hw hlt
      · cases hs
  | ret =>
      rw [step] at hs
      split at hs
      · cases hs
        exact h.ret ‹_›
      · cases hs

lemma good_reachable (h : Transition.Reachable step (· = start) s) : s.Good :=
  h.invariant (fun _ hs => hs ▸ .start) fun _ _ _ hgood _ hs => good_step hgood hs

/-! ## Exactly once, and not too early -/

/-- The steps that a walk takes by itself; a function that is called returns. -/
def Op.own : Op F A → Bool
  | .look => true
  | .ret => true
  | _ => false

/-- How many of them are left. -/
def Walk.left : Walk → ℕ
  | .idle => 0
  | .slot k => 2 * (NTMOUTS - k) + 1
  | .calling k => 2 * (NTMOUTS - k)

/-- A walk that is under way can go on, comes nearer to its end with every step of its own, and is not
touched by other steps. -/
def State.Advances (s : State F A) : Prop :=
  s.walk ≠ .idle →
    (∃ op : Op F A, op.own = true ∧ (step s op).isSome) ∧
      ∀ op s', step s op = some s' →
        (op.own = true → s'.walk.left < s.walk.left) ∧ (op.own = false → s'.walk = s.walk)

/-- `look` goes on to the next slot, calls a function or comes to the end. -/
lemma look_left (s : State F A) (k : ℕ) : (look s k).walk.left < (Walk.slot k).left := by
  rw [look]
  split_ifs with hlt
  · split
    · show 2 * (NTMOUTS - (k + 1)) + 1 < 2 * (NTMOUTS - k) + 1
      omega
    · dsimp only
      split_ifs
      · exact Nat.lt_succ_self _
      · show 2 * (NTMOUTS - (k + 1)) + 1 < 2 * (NTMOUTS - k) + 1
        omega
  · exact Nat.succ_pos _

lemma advances (s : State F A) : s.Advances := by
  intro hw
  refine ⟨?_, fun op s' hs => ?_⟩
  · cases hwalk : s.walk with
    | idle => exact absurd hwalk hw
    | slot k => exact ⟨.look, rfl, by simp [step, hwalk]⟩
    | calling i => exact ⟨.ret, rfl, by simp [step, hwalk]⟩
  · cases op with
    | timeout func arg ticks =>
        obtain ⟨i, -, rfl⟩ := Option.map_eq_some_iff.mp hs
        exact ⟨fun h => (nomatch h), fun _ => rfl⟩
    | clock =>
        cases hs
        refine ⟨fun h => (nomatch h), fun _ => ?_⟩
        rw [clock]
        split
        · exact absurd ‹_› hw
        · rfl
    | look =>
        rw [step] at hs
        split at hs
        · rename_i k hwalk
          cases hs
          exact ⟨fun _ => hwalk ▸ look_left s k, fun h => nomatch h⟩
        · cases hs
    | ret =>
        rw [step] at hs
        split at hs
        · rename_i i hwalk
          cases hs
          refine ⟨fun _ => ?_, fun h => nomatch h⟩
          rw [hwalk]
          show 2 * (NTMOUTS - (i.val + 1)) + 1 < 2 * (NTMOUTS - i.val)
          omega
        · cases hs

/-- **Timeouts.**  In every state that is reached, each request has been called at most once; each call
is of a request, with its function and its argument, and not before as many clock interrupts have
come; and a request has been called if one more walk than it has ticks has come to its end since. -/
theorem timeouts {s : State F A} (h : Transition.Reachable step (· = start) s) :
    (∀ id, s.called id ≤ 1) ∧
      (∀ c ∈ s.calls, ∃ r, s.requests[c.id]? = some r ∧ c.func = r.func ∧ c.arg = r.arg ∧
        r.clocks + r.ticks.toNat ≤ c.clocks) ∧
      (∀ id r, s.requests[id]? = some r → r.begun + r.ticks.toNat + 1 ≤ s.finished →
        s.called id = 1) ∧
      s.Advances := by
  have hgood := good_reachable h
  refine ⟨hgood.once, hgood.calls, fun id r hr hfinished => ?_, advances s⟩
  refine (hgood.all id (List.getElem?_eq_some_iff.mp hr).1).resolve_left ?_
  rintro ⟨i, t, ht, rfl⟩
  obtain ⟨r', hr', -, -, -, -, hlate⟩ := hgood.pending i t ht
  rw [hr, Option.some.injEq] at hr'
  subst hr'
  have hleft := left_pos t
  have hwalks := hgood.walks
  have hahead := s.walk.ahead_le i
  split_ifs at hwalks with hw
  · rw [hw, Walk.ahead] at hlate
    omega
  · omega

end

/-- Two requests, the second from inside the function of the first, and three walks. -/
def twice : List (Op ℕ ℕ) :=
  [.timeout 7 1 0, .clock, .look, .timeout 8 2 1, .ret, .look, .look, .look, .look, .look,
    .clock, .look, .look, .ret, .look, .look, .look, .look,
    .clock, .look, .look, .look, .look, .look, .look]

theorem timeouts_twice : ∃ s, Transition.run step (fun _ _ => True) (start : State ℕ ℕ) twice = some s ∧
    s.called 0 = 1 ∧ s.called 1 = 1 := by
  have hsome : (Transition.run step (fun _ _ => True) (start : State ℕ ℕ) twice).map
      (fun s => (s.requests.map fun r => (r.ticks, r.begun), s.finished)) =
        some ([(0, 0), (1, 1)], 3) := by rfl
  obtain ⟨s, hrun, heq⟩ := Option.map_eq_some_iff.mp hsome
  rw [Prod.mk.injEq] at heq
  obtain ⟨hrequests, hfinished⟩ := heq
  have honce := (timeouts (Transition.Reach.of_run rfl hrun)).2.2.1
  have hget : ∀ id x, [((0 : Word), 0), (1, 1)][id]? = some x →
      ∃ r : Request ℕ ℕ, s.requests[id]? = some r ∧ (r.ticks, r.begun) = x := fun id x hx => by
    rw [← hrequests, List.getElem?_map] at hx
    exact Option.map_eq_some_iff.mp hx
  refine ⟨s, hrun, ?_, ?_⟩
  · obtain ⟨r, hr, hx⟩ := hget 0 (0, 0) rfl
    obtain ⟨hticks, hbegun⟩ := Prod.mk.inj hx
    exact honce 0 r hr (by rw [hfinished, hticks, hbegun]; decide)
  · obtain ⟨r, hr, hx⟩ := hget 1 (1, 1) rfl
    obtain ⟨hticks, hbegun⟩ := Prod.mk.inj hx
    exact honce 1 r hr (by rw [hfinished, hticks, hbegun]; decide)

end Timeout

end Micronix
