import Mathlib.Data.Fintype.Pi
import Micronix.Lib.Transition

/-!
# The `sleep` system call

`snooze` and the part of `clock` that runs once a second.  All sleepers share the countdown `revel`,
which each of them may shorten; when it comes to 0 all of them look at the time again.

The seconds that have been counted are kept without bound as well (`now`), next to the `long`
`seconds`, which a process compares with its `waketime`.
-/

namespace Micronix

namespace Snooze

/-- The values of C's `int`, `unsigned` and `long`. -/
def int (x : ℤ) : ℤ := (x + 2 ^ 15) % 2 ^ 16 - 2 ^ 15
def unsigned (x : ℤ) : ℤ := x % 2 ^ 16
def long (x : ℤ) : ℤ := (x + 2 ^ 31) % 2 ^ 32 - 2 ^ 31

/-- A call: its `waketime`, and the second at which the time that it has asked for is over. -/
structure Call where
  waketime : ℤ
  deadline : ℤ
  deriving DecidableEq

/-- A process in the call is asleep on `&revel`, or it has been woken and is yet to go on. -/
inductive Proc
  | out
  | awake (c : Call)
  | asleep (c : Call)
  deriving DecidableEq

/-- If it is a sleeper, it is one that is to wake no sooner than the call. -/
def Proc.Later (c : Call) : Proc → Prop
  | .asleep c' => c.waketime ≤ c'.waketime
  | .out | .awake _ => True

instance (c : Call) : ∀ q, Decidable (Proc.Later c q)
  | .asleep _ => inferInstanceAs (Decidable (_ ≤ _))
  | .out | .awake _ => .isTrue trivial

structure State (ι : Type*) where
  seconds : ℤ
  revel : ℤ
  now : ℤ
  proc : ι → Proc

/-- What happens. -/
inductive Label (ι : Type*)
  | snooze (p : ι) (secs : UInt16)
  /-- a process that has been woken goes on -/
  | go (p : ι)
  | signal (p : ι)
  /-- a process that has been woken leaves the call in `abort` -/
  | abort (p : ι)
  /-- eight ticks of the clock -/
  | clock

variable {ι : Type*}

namespace State

/-- The loop of `snooze`, up to its `sleep`. -/
def loop [DecidableEq ι] (s : State ι) (p : ι) (c : Call) : State ι :=
  if c.waketime > s.seconds then
    let secs := unsigned (c.waketime - s.seconds)
    { s with
      revel := if s.revel ≤ 0 ∨ secs < unsigned s.revel then int secs else s.revel
      proc := Function.update s.proc p (.asleep c) }
  else { s with proc := Function.update s.proc p .out }

/-- The start of `snooze`. -/
def call (s : State ι) (secs : UInt16) : Call :=
  ⟨long (s.seconds + secs.toNat), s.now + secs.toNat⟩

/-- `wakeup (&revel)`. -/
def wakeup (s : State ι) : State ι :=
  { s with
    proc := fun p =>
      match s.proc p with
      | .asleep c => .awake c
      | q => q }

def clock (s : State ι) : State ι :=
  let s := { s with seconds := long (s.seconds + 1), revel := int (s.revel - 1), now := s.now + 1 }
  if s.revel = 0 then s.wakeup else s

/-- The seconds until `revel` comes to 0. -/
def countdown (s : State ι) : ℤ :=
  if s.revel = 0 then 2 ^ 16 else unsigned s.revel

/-- The countdown is at most the time left to each sleeper. -/
def OnTime (s : State ι) : Prop :=
  ∀ p c, s.proc p = .asleep c → s.now + s.countdown ≤ c.deadline

/-- When the process goes to sleep and `revel` is negative, no sleeper has less time left. -/
def Shortest (s : State ι) (c : Call) : Prop :=
  c.waketime > s.seconds → s.revel < 0 → ∀ p, (s.proc p).Later c

end State

open State

/-- The step function. -/
def step [DecidableEq ι] (s : State ι) : Label ι → Option (State ι)
  | .snooze p secs =>
      match s.proc p with
      | .out => some (s.loop p (s.call secs))
      | _ => none
  | .go p =>
      match s.proc p with
      | .awake c => some (s.loop p c)
      | _ => none
  | .signal p =>
      match s.proc p with
      | .asleep c => some { s with proc := Function.update s.proc p (.awake c) }
      | _ => none
  | .abort p =>
      match s.proc p with
      | .awake _ => some { s with proc := Function.update s.proc p .out }
      | _ => none
  | .clock => some s.clock

/-- At boot. -/
def Start (s : State ι) : Prop :=
  s.seconds = long s.seconds ∧ s.revel = 0 ∧ ∀ p, s.proc p = .out

/-- The condition on a step; the clock does not overflow while a process is in the call. -/
def Careful (s : State ι) : Label ι → Prop
  | .snooze _ secs => s.Shortest (s.call secs)
  | .go p =>
      match s.proc p with
      | .awake c => s.Shortest c
      | _ => True
  | .signal _ | .abort _ => True
  | .clock => s.seconds = 2 ^ 31 - 1 → ∀ p, s.proc p = .out

/-! ## The invariant -/

namespace State

variable {s s' : State ι} {l : Label ι} {p : ι} {c : Call}

/-- What the two clocks say of a call is the same. -/
def Agrees (s : State ι) (c : Call) : Prop :=
  c.waketime - s.seconds = c.deadline - s.now ∧ c.deadline - s.now < 2 ^ 16

/-- What holds in every state. -/
structure Inv (s : State ι) : Prop where
  seconds : s.seconds = long s.seconds
  revel : s.revel = int s.revel
  awake : ∀ p c, s.proc p = .awake c → s.Agrees c
  asleep : ∀ p c, s.proc p = .asleep c → s.Agrees c
  onTime : s.OnTime

lemma Inv.seconds_lt (h : Inv s) : -2 ^ 31 ≤ s.seconds ∧ s.seconds < 2 ^ 31 := by
  have := h.seconds
  unfold long at this
  omega

lemma Inv.revel_lt (h : Inv s) : -2 ^ 15 ≤ s.revel ∧ s.revel < 2 ^ 15 := by
  have := h.revel
  unfold int at this
  omega

/-- The countdown that `loop` leaves, for a process that goes to sleep. -/
lemma Inv.min_countdown (h : Inv s) (hc : s.Agrees c) (hw : c.waketime > s.seconds)
    {r : ℤ} (hr : r = if s.revel ≤ 0 ∨ unsigned (c.waketime - s.seconds) < unsigned s.revel then
      int (unsigned (c.waketime - s.seconds)) else s.revel) :
    r = int r ∧ ({ s with revel := r } : State ι).countdown =
      if s.revel ≤ 0 then c.deadline - s.now
      else min (c.deadline - s.now) s.countdown := by
  obtain ⟨h1, h2⟩ := h.revel_lt
  obtain ⟨h3, h4⟩ := hc
  unfold countdown
  unfold int unsigned at *
  dsimp only
  split_ifs at hr ⊢ <;> omega

/-- There are no sleepers with no countdown. -/
lemma Inv.revel_ne (h : Inv s) (hs : s.proc p = .asleep c) : s.revel ≠ 0 := by
  intro h0
  have ht := h.onTime p c hs
  rw [countdown, if_pos h0] at ht
  have := (h.asleep p c hs).2
  omega

/-- A sleeper is yet to be woken. -/
lemma Inv.now_lt (h : Inv s) (hs : s.proc p = .asleep c) : s.now < c.deadline := by
  have ht := h.onTime p c hs
  have hr := h.revel_ne hs
  have := h.revel_lt
  rw [countdown, if_neg hr, unsigned] at ht
  omega

/-- The start of a call that goes to sleep. -/
lemma Inv.call (h : Inv s) (secs : UInt16) (hw : (s.call secs).waketime > s.seconds) :
    s.Agrees (s.call secs) := by
  have := h.seconds_lt
  have := secs.toNat_lt
  unfold State.call Agrees long at *
  dsimp only at *
  omega

section Step

variable [DecidableEq ι]

/-- The fewer sleepers, the better. -/
lemma OnTime.update (h : s.OnTime) {q : Proc} (hq : ∀ c, q ≠ .asleep c) :
    ({ s with proc := Function.update s.proc p q } : State ι).OnTime := by
  intro p' c' hs
  dsimp only at hs
  by_cases hp : p' = p
  · rw [hp, Function.update_self] at hs
    exact absurd hs (hq c')
  · rw [Function.update_of_ne hp] at hs
    exact h p' c' hs

/-- The entry of one process changes, and the countdown. -/
lemma Inv.update (h : Inv s) {r : ℤ} (hr : r = int r) {q : Proc}
    (ha : ∀ c, q = .awake c ∨ q = .asleep c → s.Agrees c)
    (ht : ({ s with revel := r, proc := Function.update s.proc p q } : State ι).OnTime) :
    Inv { s with revel := r, proc := Function.update s.proc p q } := by
  refine ⟨h.seconds, hr, fun p' c' hp => ?_, fun p' c' hp => ?_, ht⟩ <;>
    dsimp only at hp <;> by_cases hpp : p' = p
  · rw [hpp, Function.update_self] at hp
    exact ha c' (Or.inl hp)
  · rw [Function.update_of_ne hpp] at hp
    exact h.awake p' c' hp
  · rw [hpp, Function.update_self] at hp
    exact ha c' (Or.inr hp)
  · rw [Function.update_of_ne hpp] at hp
    exact h.asleep p' c' hp

lemma Inv.leave (h : Inv s)
    (ht : ({ s with proc := Function.update s.proc p .out } : State ι).OnTime) :
    Inv { s with proc := Function.update s.proc p .out } :=
  h.update h.revel (fun _ he => he.elim nofun nofun) ht

/-- A process that goes to sleep leaves the countdown short enough for itself, and for the others if
and only if it meets the condition. -/
lemma Inv.loop_onTime (h : Inv s) (hp : ∀ c', s.proc p ≠ .asleep c')
    (hc : c.waketime > s.seconds → s.Agrees c) : (s.loop p c).OnTime ↔ s.Shortest c := by
  unfold loop
  by_cases hw : c.waketime > s.seconds
  swap
  · rw [if_neg hw]
    exact iff_of_true (h.onTime.update nofun) fun h' => absurd h' hw
  rw [if_pos hw]
  dsimp only
  replace hc := hc hw
  obtain ⟨r, hr⟩ : ∃ r, r =
      if s.revel ≤ 0 ∨ unsigned (c.waketime - s.seconds) < unsigned s.revel then
        int (unsigned (c.waketime - s.seconds)) else s.revel := ⟨_, rfl⟩
  rw [← hr]
  have hcount := (h.min_countdown hc hw hr).2
  change countdown { s with revel := r, proc := Function.update s.proc p (.asleep c) } = _ at hcount
  constructor
  · intro ht _ hneg q
    cases hq : s.proc q with
    | out | awake => trivial
    | asleep c' =>
        have hqp : q ≠ p := fun e => hp c' (e ▸ hq)
        have := ht q c' (by dsimp only; rw [Function.update_of_ne hqp, hq])
        rw [hcount, if_pos hneg.le] at this
        have hc' := (h.asleep q c' hq).1
        have := hc.1
        show c.waketime ≤ c'.waketime
        dsimp only at *
        omega
  · intro hs q c' hq
    rw [hcount]
    dsimp only at hq ⊢
    by_cases hqp : q = p
    · rw [hqp, Function.update_self, Proc.asleep.injEq] at hq
      subst hq
      split_ifs <;> omega
    rw [Function.update_of_ne hqp] at hq
    split_ifs with hle
    · have hw' : (s.proc q).Later c := hs hw (lt_of_le_of_ne hle (h.revel_ne hq)) q
      rw [hq, Proc.Later] at hw'
      have hc' := (h.asleep q c' hq).1
      have := hc.1
      omega
    · have := h.onTime q c' hq
      omega

lemma Inv.loop (h : Inv s) (hp : ∀ c', s.proc p ≠ .asleep c')
    (hc : c.waketime > s.seconds → s.Agrees c) (hs : s.Shortest c) : Inv (s.loop p c) := by
  have ht := (h.loop_onTime hp hc).mpr hs
  unfold State.loop at ht ⊢
  by_cases hw : c.waketime > s.seconds
  · rw [if_pos hw] at ht ⊢
    refine h.update (h.min_countdown (hc hw) hw rfl).1 (fun c' he => ?_) ht
    rcases he with he | he
    · cases he
    · exact Proc.asleep.inj he ▸ hc hw
  · rw [if_neg hw] at ht ⊢
    exact h.leave ht

end Step

/-- A second. -/
lemma Inv.clock (h : Inv s) (hc : s.seconds = 2 ^ 31 - 1 → ∀ p, s.proc p = .out) : Inv s.clock := by
  have hsec := h.seconds_lt
  have hrev := h.revel_lt
  have hagree (p c) (hs : s.proc p = .awake c ∨ s.proc p = .asleep c) :
      c.waketime - long (s.seconds + 1) = c.deadline - (s.now + 1) ∧
        c.deadline - (s.now + 1) < 2 ^ 16 := by
    have hlast : s.seconds ≠ 2 ^ 31 - 1 := fun e => by
      rw [hc e p] at hs
      rcases hs with hs | hs <;> cases hs
    have ha : s.Agrees c := hs.elim (h.awake p c) (h.asleep p c)
    unfold Agrees at ha
    unfold long
    omega
  have h1 : long (s.seconds + 1) = long (long (s.seconds + 1)) := by
    unfold long
    omega
  have h2 : int (s.revel - 1) = int (int (s.revel - 1)) := by
    unfold int
    omega
  unfold State.clock
  dsimp only
  by_cases hz : int (s.revel - 1) = 0
  · rw [if_pos hz]
    refine ⟨h1, h2, fun p c hs => ?_, fun p c hs => ?_, fun p c hs => ?_⟩ <;>
      unfold wakeup at hs <;> dsimp only at hs <;> split at hs
    · rename_i c' hc'
      cases hs
      exact hagree p c (Or.inr hc')
    · exact hagree p c (Or.inl hs)
    · cases hs
    · rename_i hne
      exact absurd hs (hne c)
    · cases hs
    · rename_i hne
      exact absurd hs (hne c)
  · rw [if_neg hz]
    refine ⟨h1, h2, fun p c hs => hagree p c (Or.inl hs), fun p c hs => hagree p c (Or.inr hs),
      fun p c hs => ?_⟩
    have ht := h.onTime p c hs
    have hne := h.revel_ne hs
    unfold countdown unsigned at *
    dsimp only
    rw [if_neg hz]
    rw [if_neg hne] at ht
    unfold int at *
    omega

/-- **The step lemma.** -/
lemma Inv.step [DecidableEq ι] (h : Inv s) (hc : Careful s l) (he : step s l = some s') :
    Inv s' := by
  cases l with
  | snooze p secs =>
      rw [Snooze.step] at he
      split at he
      · rename_i hp
        obtain rfl := Option.some.inj he
        exact h.loop (fun c' hs => by rw [hp] at hs; cases hs) (h.call secs) hc
      · cases he
  | go p =>
      rw [Snooze.step] at he
      split at he
      · rename_i c hp
        obtain rfl := Option.some.inj he
        exact h.loop (fun c' hs => by rw [hp] at hs; cases hs) (fun _ => h.awake p c hp)
          (by rwa [Careful, hp] at hc)
      · cases he
  | signal p =>
      rw [Snooze.step] at he
      split at he
      · rename_i c hp
        obtain rfl := Option.some.inj he
        refine h.update h.revel (fun c' he => ?_) (h.onTime.update nofun)
        rcases he with he | he
        · exact Proc.awake.inj he ▸ h.asleep p c hp
        · cases he
      · cases he
  | abort p =>
      rw [Snooze.step] at he
      split at he
      · obtain rfl := Option.some.inj he
        exact h.leave (h.onTime.update nofun)
      · cases he
  | clock =>
      obtain rfl := Option.some.inj he
      exact h.clock hc

/-- A step of a process that leaves the countdown short enough meets the condition. -/
lemma Inv.careful [DecidableEq ι] (h : Inv s) (hl : l ≠ .clock) (he : Snooze.step s l = some s')
    (ht : s'.OnTime) : Careful s l := by
  cases l with
  | snooze p secs =>
      rw [Snooze.step] at he
      split at he
      · rename_i hp
        obtain rfl := Option.some.inj he
        exact (h.loop_onTime (fun c' hs => by rw [hp] at hs; cases hs) (h.call secs)).mp ht
      · cases he
  | go p =>
      rw [Snooze.step] at he
      split at he
      · rename_i c hp
        obtain rfl := Option.some.inj he
        rw [Careful, hp]
        exact (h.loop_onTime (fun c' hs => by rw [hp] at hs; cases hs) fun _ =>
          h.awake p c hp).mp ht
      · cases he
  | signal | abort => trivial
  | clock => exact absurd rfl hl

end State

section Main

variable {s : State ι}

lemma Start.inv (h : Start s) : Inv s where
  seconds := h.1
  revel := by
    rw [h.2.1]
    decide
  awake p _ hs := absurd (hs.symm.trans (h.2.2 p)) nofun
  asleep p _ hs := absurd (hs.symm.trans (h.2.2 p)) nofun
  onTime p _ hs := absurd (hs.symm.trans (h.2.2 p)) nofun

/-- **Sleep times.**  In a run whose steps meet the condition the countdown is at most the time left
to each sleeper, so that nobody sleeps longer than asked for; and a step of a process that does not
meet it makes the countdown too long for some sleeper. -/
theorem snooze_on_time [DecidableEq ι] (h : Transition.Reach step Start Careful s) :
    (∀ p c, s.proc p = .asleep c → s.now + s.countdown ≤ c.deadline ∧ s.now < c.deadline) ∧
      ∀ l s', l ≠ .clock → step s l = some s' → (s'.OnTime ↔ Careful s l) := by
  have hi : Inv s := h.invariant (fun _ hs => hs.inv) fun _ _ _ hi hc he => hi.step hc he
  exact ⟨fun p c hs => ⟨hi.onTime p c hs, hi.now_lt hs⟩, fun l s' hl he =>
    ⟨hi.careful hl he, fun hc => (hi.step hc he).onTime⟩⟩

end Main

/-- At boot, with two processes. -/
def boot : State (Fin 2) := ⟨0, 0, 0, fun _ => .out⟩

lemma start_boot : Start boot := ⟨rfl, rfl, fun _ => rfl⟩

instance (s : State (Fin 2)) (c : Call) : Decidable (s.Shortest c) :=
  inferInstanceAs (Decidable (_ → _ → ∀ _, _))

instance (s : State (Fin 2)) : ∀ l, Decidable (Careful s l)
  | .snooze _ _ => inferInstanceAs (Decidable (Shortest ..))
  | .go p => by
      unfold Careful
      dsimp only
      split <;> infer_instance
  | .signal _ | .abort _ => .isTrue trivial
  | .clock => inferInstanceAs (Decidable (_ → ∀ _, _))

/-- Sleeps of 3 seconds and of 2, two seconds later. -/
theorem snooze_on_time_two : ∃ s : State (Fin 2), Transition.Reach step Start Careful s ∧
    s.proc 1 = .awake ⟨2, 2⟩ ∧ s.proc 0 = .asleep ⟨3, 3⟩ ∧ s.now < 3 := by
  obtain ⟨s, hs, h1, h0⟩ : ∃ s, Transition.run step Careful boot
      [.snooze 0 3, .snooze 1 2, .clock, .clock, .go 0] = some s ∧
      s.proc 1 = .awake ⟨2, 2⟩ ∧ s.proc 0 = .asleep ⟨3, 3⟩ := by
    refine ⟨_, rfl, ?_⟩
    decide +kernel
  have hr : Transition.Reach step Start Careful s := .of_run start_boot hs
  exact ⟨s, hr, h1, h0, ((snooze_on_time hr).1 0 _ h0).2⟩

/-- The first process sleeps for 40000 seconds, the second one for 50000. -/
theorem snooze_too_long : ∃ s : State (Fin 2), Transition.Reachable step Start s ∧
    s.proc 0 = .asleep ⟨40000, 40000⟩ ∧ s.now = 0 ∧ s.countdown = 50000 := by
  obtain ⟨s, hs, h⟩ : ∃ s, Transition.run step (fun _ _ => True) boot
      [.snooze 0 40000, .snooze 1 50000] = some s ∧
      s.proc 0 = .asleep ⟨40000, 40000⟩ ∧ s.now = 0 ∧ s.countdown = 50000 := by
    refine ⟨_, rfl, ?_⟩
    decide +kernel
  exact ⟨s, .of_run start_boot hs, h⟩

end Snooze

end Micronix
