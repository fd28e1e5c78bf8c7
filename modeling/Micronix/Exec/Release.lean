import Micronix.Exec.Args
import Micronix.Lib.Transition
import Mathlib.Data.List.Nodup
import Mathlib.Tactic.Common

/-!
# Who releases the buffers of exec

One process at a time is in exec (`execing`), but all of them use the buffers.  `bget` locks a buffer,
`brelse` unlocks it, whoever has locked it.  The array `bp` and the number `nblks` are static: a call
that has not come to `getargs` finds those of the call before, whose buffers are long released and
may be anybody's (`argument_buffers`).

A step is what a process does between two sleeps.  Between a refusal of `xchk`, or the last wait of a
call that goes on, and the end of `arelse` nobody sleeps.
-/

namespace Micronix

namespace Exec

/-- Who has locked a buffer: block i/o of a process, or exec for the arguments of a process. -/
inductive Holder
  | io (q : ℕ)
  | args (p : ℕ)
  deriving DecidableEq, Repr

/-- A call of exec that is over: the buffers that it obtained for the arguments, and those that it
released, with their holders. -/
structure Call where
  pid : ℕ
  got : List ℕ
  freed : List (ℕ × Holder)
  deriving DecidableEq, Repr

/-- The buffers, and the statics of `exec.c`. -/
structure Pool where
  hold : ℕ → Option Holder
  execing : Option ℕ
  /-- `getargs` has begun -/
  collecting : Bool
  nblks : ℕ
  bp : ℕ → ℕ
  /-- an index was outside of `bp` -/
  fault : Bool
  /-- the buffers that this call has obtained -/
  got : List ℕ
  calls : List Call

/-- `brelse` of each buffer in turn.  A buffer that is not locked is left alone. -/
def brelseAll : (ℕ → Option Holder) → List ℕ → List (ℕ × Holder) × (ℕ → Option Holder)
  | hold, [] => ([], hold)
  | hold, b :: bs =>
      match hold b with
      | none => brelseAll hold bs
      | some w =>
          let rest := brelseAll (Function.update hold b none) bs
          ((b, w) :: rest.1, rest.2)

/-- A step. -/
inductive Step
  /-- block i/o of `q` locks a buffer -/
  | lock (q b : ℕ)
  /-- and releases one of its own -/
  | unlock (q b : ℕ)
  /-- `p` calls exec and nobody is in it -/
  | enter (p : ℕ)
  /-- `xchk` refuses the file -/
  | refuse (p : ℕ)
  /-- `xchk` accepts it, and `getargs` begins -/
  | collect (p : ℕ)
  /-- `getargs` obtains its next buffer -/
  | bget (p b : ℕ)
  /-- `getargs`, `rdhdr` or `fit` fails, or the image is loaded -/
  | leave (p : ℕ)

namespace Pool

/-- The buffers that `arelse` goes through. -/
def listed (s : Pool) : List ℕ :=
  (List.range' 1 s.nblks).map s.bp

/-- `arelse`, and out of exec. -/
def arelse (s : Pool) (p : ℕ) : Pool :=
  let released := brelseAll s.hold s.listed
  { s with
    hold := released.2
    execing := none
    collecting := false
    got := []
    calls := s.calls ++ [⟨p, s.got, released.1⟩] }

/-- One step; after a fault there is none. -/
def step (s : Pool) : Step → Option Pool
  | .lock q b =>
      if s.fault = false ∧ s.hold b = none then
        some { s with hold := Function.update s.hold b (some (.io q)) }
      else none
  | .unlock q b =>
      if s.fault = false ∧ s.hold b = some (.io q) then
        some { s with hold := Function.update s.hold b none }
      else none
  | .enter p =>
      if s.fault = false ∧ s.execing = none then
        some { s with execing := some p, collecting := false, got := [] }
      else none
  | .refuse p =>
      if s.fault = false ∧ s.execing = some p ∧ s.collecting = false then some (s.arelse p) else none
  | .collect p =>
      if s.fault = false ∧ s.execing = some p ∧ s.collecting = false then
        some { s with nblks := 0, collecting := true }
      else none
  | .bget p b =>
      if s.fault = false ∧ s.execing = some p ∧ s.collecting = true ∧ s.nblks < NBLKS ∧
          s.hold b = none then
        match index (s.nblks + 1) with
        | .ok n => some { s with
            hold := Function.update s.hold b (some (.args p))
            nblks := n
            bp := Function.update s.bp n b
            got := s.got ++ [b] }
        | .error _ => some { s with fault := true }
      else none
  | .leave p =>
      if s.fault = false ∧ s.execing = some p ∧ s.collecting = true then some (s.arelse p) else none

end Pool

/-- The statics are zero, and block i/o may have locked any buffer. -/
structure Boot (s : Pool) : Prop where
  hold : ∀ b p, s.hold b ≠ some (.args p)
  execing : s.execing = none
  collecting : s.collecting = false
  nblks : s.nblks = 0
  fault : s.fault = false
  calls : s.calls = []

/-- When `xchk` refuses, nobody has locked a buffer of the call before; and the arguments need no
fourth buffer. -/
def Harmless (s : Pool) : Step → Prop
  | .refuse _ => ∀ b ∈ s.listed, s.hold b = none
  | .bget _ _ => s.nblks < 3
  | _ => True

instance (s : Pool) (l : Step) : Decidable (Harmless s l) := by
  cases l <;> unfold Harmless <;> infer_instance

/-! ## `arelse` -/

variable {hold : ℕ → Option Holder} {bs : List ℕ} {w : Holder}

/-- Buffers that nobody has locked are not released. -/
lemma brelseAll_free (h : ∀ b ∈ bs, hold b = none) : brelseAll hold bs = ([], hold) := by
  induction bs with
  | nil => rfl
  | cons b bs ih =>
      rw [brelseAll, h b List.mem_cons_self]
      exact ih fun b' hb' => h b' (List.mem_cons_of_mem b hb')

/-- Buffers with the same holder are released, each once. -/
lemma brelseAll_held (hnd : bs.Nodup) (h : ∀ b ∈ bs, hold b = some w) :
    (brelseAll hold bs).1 = bs.map (·, w) ∧
      ∀ b, (brelseAll hold bs).2 b = if b ∈ bs then none else hold b := by
  induction bs generalizing hold with
  | nil => exact ⟨rfl, fun b => (if_neg List.not_mem_nil).symm⟩
  | cons a bs ih =>
      obtain ⟨ha, hnd⟩ := List.nodup_cons.mp hnd
      have hheld : ∀ b ∈ bs, Function.update hold a none b = some w := by
        intro b hb
        rw [Function.update_of_ne (ne_of_mem_of_not_mem hb ha)]
        exact h b (List.mem_cons_of_mem a hb)
      obtain ⟨hlist, hafter⟩ := ih hnd hheld
      rw [brelseAll, h a List.mem_cons_self]
      refine ⟨congrArg ((a, w) :: ·) hlist, fun b => ?_⟩
      dsimp only
      rw [hafter b]
      rcases eq_or_ne b a with rfl | hne
      · simp
      · simp [hne]

/-! ## Every call releases what it obtained -/

namespace Pool

/-- What holds of the buffers at each step: those that are locked for arguments are those of the call
that is in `getargs` or behind it, and they are the ones that `arelse` goes through. -/
structure Sound (s : Pool) : Prop where
  fault : s.fault = false
  calls : ∀ c ∈ s.calls, c.freed = c.got.map fun b => (b, Holder.args c.pid)
  owned : ∀ b p, s.hold b = some (.args p) →
    s.execing = some p ∧ s.collecting = true ∧ b ∈ s.got
  fresh : s.execing ≠ none → s.collecting = false → s.got = []
  listed : s.collecting = true → s.got = s.listed ∧ s.got.Nodup
  held : ∀ p, s.execing = some p → s.collecting = true → ∀ b ∈ s.got, s.hold b = some (.args p)

variable {s s' : Pool}

lemma Sound.boot (h : Boot s) : Sound s where
  fault := h.fault
  calls c hc := by simp [h.calls] at hc
  owned b p hb := absurd hb (h.hold b p)
  fresh hne := absurd h.execing hne
  listed hcol := by simp [h.collecting] at hcol
  held p hp := by simp [h.execing] at hp

/-- A buffer that is not locked for arguments changes hands. -/
lemma Sound.update (hs : Sound s) {b : ℕ} {v : Option Holder}
    (hb : ∀ p, s.hold b ≠ some (.args p)) (hv : ∀ p, v ≠ some (.args p)) :
    Sound { s with hold := Function.update s.hold b v } where
  fault := hs.fault
  calls := hs.calls
  owned b' p hb' := by
    rcases eq_or_ne b' b with rfl | hne
    · exact absurd (Function.update_self b' v s.hold ▸ hb') (hv p)
    · exact hs.owned b' p (Function.update_of_ne hne v s.hold ▸ hb')
  fresh := hs.fresh
  listed := hs.listed
  held p hp hcol b' hb' := by
    have hold := hs.held p hp hcol b' hb'
    have hne : b' ≠ b := fun e => hb p (e ▸ hold)
    exact (Function.update_of_ne hne v s.hold).trans hold

/-- The next buffer comes last. -/
lemma listed_succ (s : Pool) (b : ℕ) :
    (List.range' 1 (s.nblks + 1)).map (Function.update s.bp (s.nblks + 1) b) = s.listed ++ [b] := by
  rw [List.range'_1_concat, List.map_append, List.map_singleton, Nat.add_comm 1,
    Function.update_self]
  refine congrArg (· ++ [b]) (List.map_congr_left fun n hn => ?_)
  have hlt : n < 1 + s.nblks := (List.mem_range'_1.mp hn).2
  have hne : n ≠ s.nblks + 1 := by omega
  exact Function.update_of_ne hne b s.bp

/-- A call begins. -/
lemma Sound.enter (hs : Sound s) (p : ℕ) (he : s.execing = none) :
    Sound { s with execing := some p, collecting := false, got := [] } where
  fault := hs.fault
  calls := hs.calls
  owned b q hb := by simpa [he] using (hs.owned b q hb).1
  fresh _ _ := rfl
  listed hc := nomatch hc
  held _ _ hc := nomatch hc

/-- `getargs` begins. -/
lemma Sound.collect (hs : Sound s) {p : ℕ} (he : s.execing = some p) (hcol : s.collecting = false) :
    Sound { s with nblks := 0, collecting := true } where
  fault := hs.fault
  calls := hs.calls
  owned b q hb := by simpa [hcol] using (hs.owned b q hb).2.1
  fresh _ hc := nomatch hc
  listed _ := by
    have hgot : s.got = [] := hs.fresh (by simp [he]) hcol
    exact ⟨hgot, hgot ▸ List.nodup_nil⟩
  held q _ _ b hb := by
    have hgot : s.got = [] := hs.fresh (by simp [he]) hcol
    exact absurd (hgot ▸ hb) List.not_mem_nil

/-- `arelse` when it releases what the call has obtained, and that is all there is. -/
lemma Sound.arelse (hs : Sound s) {p : ℕ}
    (hfreed : (brelseAll s.hold s.listed).1 = s.got.map fun b => (b, Holder.args p))
    (hafter : ∀ b q, (brelseAll s.hold s.listed).2 b ≠ some (.args q)) :
    Sound (s.arelse p) where
  fault := hs.fault
  calls c hc := by
    rcases List.mem_append.mp hc with hc | hc
    · exact hs.calls c hc
    · rw [List.mem_singleton.mp hc]
      exact hfreed
  owned b q hb := absurd hb (hafter b q)
  fresh hne := absurd rfl hne
  listed hcol := nomatch hcol
  held q hq := nomatch hq

/-- `xchk` refuses. -/
lemma Sound.refuse (hs : Sound s) {p : ℕ} (he : s.execing = some p) (hcol : s.collecting = false)
    (hfree : ∀ b ∈ s.listed, s.hold b = none) : Sound (s.arelse p) := by
  have hgot : s.got = [] := hs.fresh (by simp [he]) hcol
  apply hs.arelse
  · rw [brelseAll_free hfree, hgot]
    rfl
  · intro b q hb
    rw [brelseAll_free hfree] at hb
    simpa [hcol] using (hs.owned b q hb).2.1

/-- A call that came to `getargs` ends. -/
lemma Sound.leave (hs : Sound s) {p : ℕ} (he : s.execing = some p) (hcol : s.collecting = true) :
    Sound (s.arelse p) := by
  obtain ⟨hgot, hnd⟩ := hs.listed hcol
  have hheld := hs.held p he hcol
  rw [hgot] at hnd hheld
  obtain ⟨hfreed, hafter⟩ := brelseAll_held hnd hheld
  apply hs.arelse
  · rw [hfreed, hgot]
  · intro b q hb
    rw [hafter b] at hb
    split_ifs at hb with hmem
    exact hmem (hgot ▸ (hs.owned b q hb).2.2)

/-- `getargs` obtains a buffer. -/
lemma Sound.bget (hs : Sound s) {p b : ℕ} (he : s.execing = some p) (hcol : s.collecting = true)
    (hb : s.hold b = none) :
    Sound { s with
      hold := Function.update s.hold b (some (.args p))
      nblks := s.nblks + 1
      bp := Function.update s.bp (s.nblks + 1) b
      got := s.got ++ [b] } where
  fault := hs.fault
  calls := hs.calls
  owned b' q hb' := by
    refine ⟨?_, hcol, ?_⟩
    all_goals
      rcases eq_or_ne b' b with rfl | hne
    · simpa [he] using hb'
    · exact (hs.owned b' q (Function.update_of_ne hne _ s.hold ▸ hb')).1
    · simp
    · exact List.mem_append_left _ (hs.owned b' q (Function.update_of_ne hne _ s.hold ▸ hb')).2.2
  fresh _ hcol' := by simp [hcol] at hcol'
  listed _ := by
    obtain ⟨hgot, hnd⟩ := hs.listed hcol
    refine ⟨by rw [Pool.listed, listed_succ, hgot], ?_⟩
    rw [List.nodup_append]
    refine ⟨hnd, List.nodup_singleton b, ?_⟩
    intro a ha c hc
    rw [List.mem_singleton.mp hc]
    rintro rfl
    simpa [hb] using hs.held p he hcol a ha
  held q hq _ b' hb' := by
    obtain rfl : p = q := Option.some.inj (he.symm.trans hq)
    rcases eq_or_ne b' b with rfl | hne
    · exact Function.update_self b' _ s.hold
    · have hin : b' ∈ s.got := by simpa [hne] using hb'
      exact (Function.update_of_ne hne _ s.hold).trans (hs.held p he hcol b' hin)

/-- One step. -/
lemma Sound.step (hs : Sound s) {l : Step} (hok : Harmless s l) (h : s.step l = some s') :
    Sound s' := by
  cases l with
  | lock q b =>
      rw [Pool.step] at h
      split_ifs at h with hc
      obtain rfl := Option.some.inj h
      exact hs.update (by simp [hc.2]) (by simp)
  | unlock q b =>
      rw [Pool.step] at h
      split_ifs at h with hc
      obtain rfl := Option.some.inj h
      exact hs.update (by simp [hc.2]) (by simp)
  | enter p =>
      rw [Pool.step] at h
      split_ifs at h with hc
      obtain rfl := Option.some.inj h
      exact hs.enter p hc.2
  | refuse p =>
      rw [Pool.step] at h
      split_ifs at h with hc
      obtain rfl := Option.some.inj h
      exact hs.refuse hc.2.1 hc.2.2 hok
  | collect p =>
      rw [Pool.step] at h
      split_ifs at h with hc
      obtain rfl := Option.some.inj h
      exact hs.collect hc.2.1 hc.2.2
  | bget p b =>
      have hn : s.nblks + 1 < NBLKS := Nat.add_lt_add_right hok 1
      rw [Pool.step, index, if_pos hn] at h
      split_ifs at h with hc
      obtain rfl := Option.some.inj h
      exact hs.bget hc.2.1 hc.2.2.1 hc.2.2.2.2
  | leave p =>
      rw [Pool.step] at h
      split_ifs at h with hc
      obtain rfl := Option.some.inj h
      exact hs.leave hc.2.1 hc.2.2

/-- In a run in which a refusal finds the buffers of the call before free, and the arguments fit in
three buffers, every exec releases the buffers that it obtained, each once and still its own, and no
other. -/
theorem argument_buffers (h : Transition.Reach Pool.step Boot Harmless s) :
    s.fault = false ∧ ∀ c ∈ s.calls, c.freed = c.got.map fun b => (b, Holder.args c.pid) := by
  have hs : Sound s := h.invariant (fun _ => Sound.boot) fun _ _ _ hs hok he => hs.step hok he
  exact ⟨hs.fault, hs.calls⟩

/-- Nobody has locked a buffer. -/
def idle : Pool := ⟨fun _ => none, none, false, 0, fun _ => 0, false, [], []⟩

lemma idle_boot : Boot idle := ⟨by simp [idle], rfl, rfl, rfl, rfl, rfl⟩

/-- An exec with one buffer of arguments, one of a file that is not there. -/
theorem argument_buffers_twoCalls :
    ∃ s, Transition.run Pool.step Harmless idle
        [.enter 1, .collect 1, .bget 1 7, .leave 1, .enter 2, .refuse 2] = some s ∧
      s.calls = [⟨1, [7], [(7, .args 1)]⟩, ⟨2, [], []⟩] ∧
      ∀ c ∈ s.calls, c.freed = c.got.map fun b => (b, Holder.args c.pid) := by
  have hr : (Transition.run Pool.step Harmless idle
      [.enter 1, .collect 1, .bget 1 7, .leave 1, .enter 2, .refuse 2]).map Pool.calls =
      some [⟨1, [7], [(7, .args 1)]⟩, ⟨2, [], []⟩] := by
    decide
  obtain ⟨s, hs, hcalls⟩ := Option.map_eq_some_iff.mp hr
  exact ⟨s, hs, hcalls, (argument_buffers (.of_run idle_boot hs)).2⟩

/-- **A buffer of the call before.**  Block i/o of process 2 has locked the buffer that process 1 used
for its arguments; exec by process 3 of a file that is not there releases it. -/
theorem stale_buffer_released :
    ∃ s, Transition.Reachable Pool.step Boot s ∧
      ∃ c ∈ s.calls, c.pid = 3 ∧ c.got = [] ∧ c.freed = [(7, .io 2)] := by
  have hr : (Transition.run Pool.step (fun _ _ => True) idle
      [.enter 1, .collect 1, .bget 1 7, .leave 1, .lock 2 7, .enter 3, .refuse 3]).map Pool.calls =
      some [⟨1, [7], [(7, .args 1)]⟩, ⟨3, [], [(7, .io 2)]⟩] := by
    decide
  obtain ⟨s, hs, hcalls⟩ := Option.map_eq_some_iff.mp hr
  exact ⟨s, .of_run idle_boot hs, ⟨3, [], [(7, .io 2)]⟩, by simp [hcalls], rfl, rfl, rfl⟩

end Pool

end Exec

end Micronix
