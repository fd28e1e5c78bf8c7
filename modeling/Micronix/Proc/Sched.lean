import Mathlib.Logic.Function.Basic
import Micronix.Lib.Search
import Micronix.Lib.Turns
import Micronix.Proc.World

/-!
# The dispatcher, `sys/sleep.c`

`sched` goes once around the process table, from where it stopped the last time, and takes the first of
the ready processes whose priority none exceeds.  The rest of the kernel changes the table between its
passes as it likes, so the runs here let it: what is proved holds whatever system calls and interrupts
come in between.

A pass is one step.  Interrupts may come while it is under way, but it looks at each entry once; what it
sees is the table as it is with some of the changes made and others not, and that too is a table to
which the rest of the kernel may have changed it.
-/

namespace Micronix

namespace Sched

/-- What `sleep.c` reads and writes of a `struct proc`.  `event` is 0 for none. -/
structure Proc where
  alive : Bool
  awake : Bool
  loaded : Bool
  locked : Bool
  event : ℕ
  nice : UInt8
  pri : UInt8

/-- `priority(p)`: `nice` and `pri` read as a short. -/
def Proc.priority (e : Proc) : ℕ := 256 * e.pri.toNat + e.nice.toNat

/-- `(p->mode & (ALIVE | AWAKE | LOADED)) == (ALIVE | AWAKE | LOADED)` -/
def Proc.Ready (e : Proc) : Prop := e.alive = true ∧ e.awake = true ∧ e.loaded = true

instance (e : Proc) : Decidable e.Ready := inferInstanceAs (Decidable (_ ∧ _ ∧ _))

/-- `plist`, the static `circle` of `sched`, `u.p`, and the flags of `sleep.c` and `swap.c`. -/
structure State where
  plist : ℕ → Proc
  circle : ℕ
  current : ℕ
  resched : Bool
  swapping : Bool
  memwant : Bool

/-- The slot of `swapproc`. -/
def swapproc : ℕ := 0

namespace State

def modify (s : State) (p : ℕ) (f : Proc → Proc) : State :=
  { s with plist := Function.update s.plist p (f (s.plist p)) }

/-- `p->mode |= AWAKE; p->event = 0;` -/
def rouse (s : State) (p : ℕ) : State := s.modify p fun e => { e with awake := true, event := 0 }

/-- `run(p)`.  The swapper, for which it calls itself, is locked in core. -/
def run (s : State) (p : ℕ) : State :=
  let s := s.rouse p
  if (s.plist p).loaded then { s with resched := true }
  else if !s.swapping then { s.rouse swapproc with resched := true }
  else s

/-- `wakeup(event)` -/
def wakeup (s : State) (event : ℕ) : State :=
  (List.range nproc).foldl (fun s p => if (s.plist p).event = event then s.run p else s) s

/-- `for (p = circle, i = 0; i < NPROC; p++, i++)`, with `p = plist` beyond the table. -/
def scan (s : State) : List ℕ := Circle.route 0 (nproc - 1) nproc s.circle

/-- The loop of `sched` over the table, once around. -/
def pass (s : State) : Option ℕ :=
  s.scan.foldl (climb (fun p => (s.plist p).Ready) fun p => (s.plist p).priority) none

/-- `next`, with one pass of the `while` of `sched`.  When it finds nobody the processor is idle, and
another pass follows. -/
def next (s : State) : State :=
  match s.pass with
  | none => s
  | some n => { s with circle := n + 1, current := n, resched := false }

/-- `sleep(event, pri)`, up to the call of `next`. -/
def doze (s : State) (event : ℕ) (pri : UInt8) : State :=
  let s := s.modify s.current fun e => { e with event := event, pri := pri, awake := false }
  if s.memwant && !(s.plist s.current).locked then s.run swapproc else s

end State

/-- What happens: the wake-ups of interrupts and system calls, sleeps, passes of `sched`, and what the
rest of the kernel does to the table and the flags (`fork`, `exit`, the swapper, `nice`, the priority of
a system call). -/
inductive Step
  | wakeup (event : ℕ)
  | run (p : ℕ)
  | sleep (event : ℕ) (pri : UInt8)
  | next
  | other (plist : ℕ → Proc) (swapping memwant : Bool)

namespace State

/-- The state in which the step comes to a pass of `sched`, if it does. -/
def call (s : State) : Step → Option State
  | .sleep event pri => some (s.doze event pri)
  | .next => some s
  | _ => none

def step (s : State) : Step → State
  | .wakeup event => s.wakeup event
  | .run p => s.run p
  | .sleep event pri => (s.doze event pri).next
  | .next => s.next
  | .other plist swapping memwant =>
      { s with plist := plist, swapping := swapping, memwant := memwant }

/-- The states in which a run comes to a pass of `sched`. -/
def calls : State → List Step → List State
  | _, [] => []
  | s, l :: ls => (s.call l).toList ++ calls (s.step l) ls

/-- The processes that a run gives the processor to. -/
def picks (s : State) (ls : List Step) : List ℕ := (s.calls ls).filterMap pass

/-- The process is ready, and no ready process has a higher priority. -/
structure Leads (s : State) (p : ℕ) : Prop where
  ready : (s.plist p).Ready
  top : ∀ q < nproc, (s.plist q).Ready → (s.plist q).priority ≤ (s.plist p).priority

variable {s : State} {n p : ℕ} {l : Step}

/-! ## The pass -/

lemma nproc_pred : nproc - 1 + 1 - 0 = nproc := by
  unfold nproc
  rfl

lemma scan_eq : s.scan = Circle.route 0 (nproc - 1) (nproc - 1 + 1 - 0) s.circle := by
  rw [nproc_pred]
  rfl

lemma mem_scan : p ∈ s.scan ↔ p < nproc := by
  rw [scan_eq, (Circle.route_perm (Nat.zero_le _) (Nat.zero_le _)).mem_iff, nproc_pred]
  simp

/-- The place of a process in the scan is how far it is ahead of the hand. -/
lemma scan_ahead (hc : s.circle ≤ nproc) (hp : p < nproc) :
    s.scan[Turns.ahead nproc s.circle p]? = some p := by
  have hlt : Turns.ahead nproc s.circle p < nproc := Turns.ahead_lt hp
  have hround := nproc_pred
  rw [scan_eq, Circle.route_get (Nat.zero_le _) (Nat.zero_le _) (by omega) (by omega), nproc_pred,
    Nat.sub_zero, Turns.add_ahead_mod hc hp, Nat.zero_add]

lemma scan_nodup : s.scan.Nodup := by
  rw [scan_eq, (Circle.route_perm (Nat.zero_le _) (Nat.zero_le _)).nodup_iff]
  exact List.nodup_range'

/-- What a pass finds is ready, and none is before it. -/
lemma pass_leads (h : s.pass = some n) : n < nproc ∧ s.Leads n := by
  obtain hnone | ⟨hmem, hready⟩ := (climb_searches _).found _ none h
  · cases hnone
  · exact ⟨mem_scan.mp hmem, hready, fun q hq => (climb_max _ _ none h).2 q (mem_scan.mpr hq)⟩

/-- A pass finds somebody if anybody is ready. -/
lemma pass_isSome (hp : p < nproc) (h : (s.plist p).Ready) : ∃ n, s.pass = some n := by
  cases hn : s.pass with
  | none => exact absurd h (((climb_searches _).not_found _ none hn).2 p (mem_scan.mpr hp))
  | some n => exact ⟨n, rfl⟩

/-- A pass takes a leading process, or one that the hand comes to before it. -/
lemma pass_ahead (hc : s.circle ≤ nproc) (hp : p < nproc) (hlead : s.Leads p) (h : s.pass = some n) :
    n = p ∨ Turns.ahead nproc s.circle n < Turns.ahead nproc s.circle p := by
  obtain ⟨hn, hnlead⟩ := pass_leads h
  obtain ⟨pre, post, hscan, hpre⟩ := climb_first _ _ h
  -- the place of `n` in the scan
  have hplace : Turns.ahead nproc s.circle n = pre.length := by
    have hat : s.scan[pre.length]? = some n := by simp [hscan]
    have hlt : pre.length < s.scan.length := by simp [hscan]
    exact ((List.getElem?_inj hlt scan_nodup).mp (hat.trans (scan_ahead hc hn).symm)).symm
  -- `p` is not before it, since it is not beaten
  have hnot : p ∉ pre := fun hmem =>
    Nat.not_lt_of_le (hlead.top n hn hnlead.ready) (hpre p hmem hlead.ready)
  have hat := scan_ahead hc hp
  rw [hscan] at hat
  rcases Nat.lt_trichotomy (Turns.ahead nproc s.circle p) pre.length with hlt | heq | hgt
  · rw [List.getElem?_append_left hlt] at hat
    exact absurd (List.mem_of_getElem? hat) hnot
  · rw [heq, List.getElem?_append_right (Nat.le_refl _), Nat.sub_self, List.getElem?_cons_zero] at hat
    exact .inl (Option.some.inj hat)
  · exact .inr (by omega)

/-! ## Runs -/

@[simp] lemma run_circle (s : State) (p : ℕ) : (s.run p).circle = s.circle := by
  unfold run
  dsimp only
  split_ifs <;> rfl

@[simp] lemma doze_circle (s : State) (event : ℕ) (pri : UInt8) :
    (s.doze event pri).circle = s.circle := by
  unfold doze
  dsimp only
  split_ifs
  · exact run_circle _ _
  · rfl

@[simp] lemma wakeup_circle (s : State) (event : ℕ) : (s.wakeup event).circle = s.circle := by
  unfold wakeup
  induction List.range nproc generalizing s with
  | nil => rfl
  | cons p l ih =>
      rw [List.foldl_cons, ih]
      split_ifs
      · exact run_circle _ _
      · rfl

/-- A step that makes no pass leaves the hand where it is. -/
lemma step_circle (h : s.call l = none) : (s.step l).circle = s.circle := by
  cases l with
  | wakeup event => exact wakeup_circle _ _
  | run p => exact run_circle _ _
  | sleep event pri => cases h
  | next => cases h
  | other plist swapping memwant => rfl

/-- A pass is made with the hand where it was, and the step ends as the pass does. -/
lemma step_call {t : State} (h : s.call l = some t) : t.circle = s.circle ∧ s.step l = t.next := by
  cases l with
  | wakeup event => cases h
  | run p => cases h
  | sleep event pri =>
      cases h
      exact ⟨doze_circle _ _ _, rfl⟩
  | next =>
      cases h
      exact ⟨rfl, rfl⟩
  | other plist swapping memwant => cases h

lemma next_circle {t : State} (h : t.pass = some n) : t.next.circle = n + 1 := by
  rw [next, h]

/-- While `p` leads and is not taken, each pass takes somebody before it. -/
lemma picks_before (hp : p < nproc) (ls : List Step) (hc : s.circle ≤ nproc)
    (hlead : ∀ t ∈ s.calls ls, t.Leads p) (hnot : p ∉ s.picks ls) :
    Turns.Before nproc p s.circle (s.picks ls) ∧ (s.picks ls).length = (s.calls ls).length := by
  induction ls generalizing s with
  | nil => exact ⟨trivial, rfl⟩
  | cons l ls ih =>
      cases hcall : s.call l with
      | none =>
          have hcalls : s.calls (l :: ls) = (s.step l).calls ls := by simp [calls, hcall]
          have hcircle : (s.step l).circle = s.circle := step_circle hcall
          rw [picks, hcalls] at hnot
          rw [picks, hcalls, ← hcircle]
          exact ih (by rw [hcircle]; exact hc) (by rw [← hcalls]; exact hlead) hnot
      | some t =>
          obtain ⟨hcircle, hstep⟩ := step_call hcall
          have hcalls : s.calls (l :: ls) = t :: t.next.calls ls := by simp [calls, hcall, hstep]
          rw [hcalls] at hlead
          obtain ⟨hlead, hrest⟩ := List.forall_mem_cons.mp hlead
          obtain ⟨n, hn⟩ := pass_isSome hp hlead.ready
          have hpicks : s.picks (l :: ls) = n :: t.next.picks ls := by
            rw [picks, hcalls, List.filterMap_cons_some hn, picks]
          rw [hpicks] at hnot
          obtain ⟨hne, hnot⟩ := not_or.mp (fun h => hnot (List.mem_cons.mpr h))
          have hlt := (pass_ahead (by rw [hcircle]; exact hc) hp hlead hn).resolve_left (Ne.symm hne)
          have hnext : t.next.circle = n + 1 := next_circle hn
          have hle : t.next.circle ≤ nproc := by
            rw [hnext]
            exact (pass_leads hn).1
          obtain ⟨hbefore, hlen⟩ := ih hle hrest hnot
          rw [hpicks, hcalls, List.length_cons, List.length_cons, hlen, ← hcircle]
          exact ⟨⟨(pass_leads hn).1, hlt, hnext ▸ hbefore⟩, rfl⟩

/-- **The dispatcher is fair among equals.**  Whatever happens between its passes, `sched` gives the
processor to ready processes that no ready process beats, and while some process leads at every pass
and has not had the processor, nobody gets it twice: there are fewer passes than processes. -/
theorem sched_fair (s : State) (hc : s.circle ≤ nproc) (ls : List Step) :
    (∀ t ∈ s.calls ls, ∀ n, t.pass = some n → n < nproc ∧ t.Leads n) ∧
      ∀ p < nproc, (∀ t ∈ s.calls ls, t.Leads p) → p ∉ s.picks ls →
        (s.picks ls).Nodup ∧ (s.calls ls).length < nproc := by
  refine ⟨fun t _ n => pass_leads, fun p hp hlead hnot => ?_⟩
  obtain ⟨hbefore, hlen⟩ := picks_before hp ls hc hlead hnot
  refine ⟨hbefore.nodup hp hc, ?_⟩
  rw [← hlen]
  exact Nat.lt_of_le_of_lt (hbefore.length_le hp hc) (Turns.ahead_lt hp)

/-- Every slot holds a ready process of the same priority. -/
def crowd : State where
  plist := fun _ => ⟨true, true, true, false, 0, 128, 40⟩
  circle := 0
  current := 0
  resched := true
  swapping := false
  memwant := false

lemma next_plist (s : State) : s.next.plist = s.plist := by
  rw [next]
  cases s.pass <;> rfl

/-- In a crowd, two passes do not come to the same process, nor to the sixth. -/
theorem sched_fair_crowd :
    (crowd.picks [.next, .next]).Nodup ∧ (crowd.calls [.next, .next]).length < nproc := by
  refine (sched_fair crowd (Nat.zero_le _) [.next, .next]).2 5 (by decide +kernel) ?_
    (by decide +kernel)
  have hlead : ∀ t : State, t.plist = crowd.plist → t.Leads 5 := by
    intro t ht
    refine ⟨?_, fun q _ _ => ?_⟩
    · rw [ht]
      exact ⟨rfl, rfl, rfl⟩
    · rw [ht]
      exact Nat.le_refl _
  intro t ht
  have hcalls : crowd.calls [.next, .next] = [crowd, crowd.next] := rfl
  rw [hcalls] at ht
  rcases List.mem_pair.mp ht with rfl | rfl
  · exact hlead _ rfl
  · exact hlead _ (next_plist crowd)

end State

end Sched

end Micronix
