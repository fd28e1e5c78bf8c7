import Mathlib.Logic.Basic
import Mathlib.Tactic.Common

/-!
# Programs with a state that survives a stop

A program is an `EStateM`: it ends with a value or stops with an error, and leaves a state in both
cases.  Two kinds of statement about programs are put together from their parts: what a program keeps
of the state (`Keeps`), and that one program does as another one (`Follows`), as long as nothing bad
has happened.
-/

namespace Program

variable {ε σ α β : Type}

/-! ## What a program does from one state -/

section Bind

variable {m : EStateM ε σ α} {f : α → EStateM ε σ β} {s t : σ}

lemma bind_ok {a : α} (h : m s = .ok a t) : (m >>= f) s = f a t := by
  change EStateM.bind m f s = _
  rw [EStateM.bind, h]

lemma bind_error {e : ε} (h : m s = .error e t) : (m >>= f) s = .error e t := by
  change EStateM.bind m f s = _
  rw [EStateM.bind, h]

/-- A program that ends has been through its parts. -/
lemma of_bind_ok {b : β} (h : (m >>= f) s = .ok b t) : ∃ a u, m s = .ok a u ∧ f a u = .ok b t := by
  cases hm : m s with
  | ok a u => exact ⟨a, u, rfl, (bind_ok hm).symm.trans h⟩
  | error e u =>
      rw [bind_error hm] at h
      cases h

end Bind

/-- From no state does the program come to its end. -/
def Stops (m : EStateM ε σ α) : Prop := ∀ s, ∃ e t, m s = .error e t

/-- If what comes after does not come to its end, neither does the whole. -/
lemma Stops.after (m : EStateM ε σ α) {f : α → EStateM ε σ β} (h : ∀ a, Stops (f a)) :
    Stops (m >>= f) := by
  intro s
  cases hm : m s with
  | ok a t =>
      obtain ⟨e, u, hu⟩ := h a t
      exact ⟨e, u, (bind_ok hm).trans hu⟩
  | error e t => exact ⟨e, t, bind_error hm⟩

lemma Stops.bind {m : EStateM ε σ α} (h : Stops m) (f : α → EStateM ε σ β) : Stops (m >>= f) := by
  intro s
  obtain ⟨e, t, ht⟩ := h s
  exact ⟨e, t, bind_error ht⟩

/-- The state at the end, or where the program has stopped. -/
def final : EStateM.Result ε σ α → σ
  | .ok _ s => s
  | .error _ s => s

/-- Every start and end are related. -/
def Keeps (I : σ → σ → Prop) (m : EStateM ε σ α) : Prop :=
  ∀ s, I s (final (m s))

section Keeps

variable {I : σ → σ → Prop}

lemma Keeps.pure (hrefl : ∀ s, I s s) (a : α) : Keeps I (pure a : EStateM ε σ α) :=
  fun s => hrefl s

lemma Keeps.bind (htrans : ∀ s t u, I s t → I t u → I s u) {m : EStateM ε σ α}
    {f : α → EStateM ε σ β} (hm : Keeps I m) (hf : ∀ a, Keeps I (f a)) : Keeps I (m >>= f) := by
  intro s
  have h := hm s
  change I s (final (EStateM.bind m f s))
  rw [EStateM.bind]
  cases hr : m s with
  | ok a t =>
      rw [hr] at h
      exact htrans _ _ _ h (hf a t)
  | error e t =>
      rw [hr] at h
      exact h

lemma Keeps.ite {c : Prop} [Decidable c] {m m' : EStateM ε σ α} (h : Keeps I m) (h' : Keeps I m') :
    Keeps I (if c then m else m') := by
  split_ifs
  · exact h
  · exact h'

/-- A loop, by induction on what it runs through. -/
lemma Keeps.foldlM (hrefl : ∀ s, I s s) (htrans : ∀ s t u, I s t → I t u → I s u)
    {f : β → α → EStateM ε σ β} (h : ∀ b a, Keeps I (f b a)) (l : List α) (b : β) :
    Keeps I (l.foldlM f b) := by
  induction l generalizing b with
  | nil => exact .pure hrefl b
  | cons a l ih =>
      rw [List.foldlM_cons]
      exact .bind htrans (h b a) ih

end Keeps

/-- What holds of each value that the program ends with. -/
def Yields (Q : α → Prop) (m : EStateM ε σ α) : Prop := ∀ s a t, m s = .ok a t → Q a

section Yields

variable {Q : α → Prop} {P : β → Prop}

lemma Yields.pure {a : α} (h : Q a) : Yields Q (pure a : EStateM ε σ α) := by
  intro s b t hrun
  cases hrun
  exact h

lemma Yields.bind {m : EStateM ε σ α} {f : α → EStateM ε σ β} (hm : Yields Q m)
    (hf : ∀ a, Q a → Yields P (f a)) : Yields P (m >>= f) := by
  intro s b t hrun
  change EStateM.bind m f s = _ at hrun
  rw [EStateM.bind] at hrun
  cases hr : m s with
  | ok a u =>
      rw [hr] at hrun
      exact hf a (hm s a u hr) u b t hrun
  | error e u =>
      rw [hr] at hrun
      cases hrun

/-- What comes after does not depend on the value. -/
lemma Yields.after (m : EStateM ε σ α) {f : α → EStateM ε σ β} (hf : ∀ a, Yields P (f a)) :
    Yields P (m >>= f) :=
  Yields.bind (Q := fun _ => True) (fun _ _ _ _ => trivial) fun a _ => hf a

lemma Yields.ite {c : Prop} [Decidable c] {m m' : EStateM ε σ α} (h : Yields Q m)
    (h' : Yields Q m') : Yields Q (if c then m else m') := by
  split_ifs
  · exact h
  · exact h'

lemma Yields.foldlM {f : β → α → EStateM ε σ β} {l : List α}
    (h : ∀ b, ∀ a ∈ l, P b → Yields P (f b a)) {b : β} (hb : P b) : Yields P (l.foldlM f b) := by
  induction l generalizing b with
  | nil => exact .pure hb
  | cons a l ih =>
      rw [List.foldlM_cons]
      exact .bind (h b a List.mem_cons_self hb) fun b' hb' =>
        ih (fun c d hd => h c d (List.mem_cons_of_mem a hd)) hb'

end Yields

/-- From the states of `I`, which it does not leave, the program ends as `r`. -/
def Reads (I : σ → Prop) (m : EStateM ε σ α) (r : Except ε α) : Prop :=
  ∀ s, I s →
    match r with
    | .ok a => ∃ t, m s = .ok a t ∧ I t
    | .error e => ∃ t, m s = .error e t

section Reads

variable {I : σ → Prop} {m : EStateM ε σ α} {f : α → EStateM ε σ β}

lemma Reads.pure (a : α) : Reads I (pure a : EStateM ε σ α) (.ok a) := fun s hs => ⟨s, rfl, hs⟩

lemma Reads.bind {a : α} {r : Except ε β} (hm : Reads I m (.ok a)) (hf : Reads I (f a) r) :
    Reads I (m >>= f) r := by
  intro s hs
  obtain ⟨t, hrun, ht⟩ := hm s hs
  rw [bind_ok hrun]
  exact hf t ht

lemma Reads.bind_error {e : ε} (hm : Reads I m (.error e)) : Reads I (m >>= f) (.error e) := by
  intro s hs
  obtain ⟨t, hrun⟩ := hm s hs
  exact ⟨t, Program.bind_error hrun⟩

/-- What follows a program that goes on only where `c` holds. -/
lemma Reads.bind_ite {c : Prop} [Decidable c] {a : α} {b : β} {e : ε}
    (hm : Reads I m (if c then .ok a else .error e)) (hf : c → Reads I (f a) (.ok b)) :
    Reads I (m >>= f) (if c then .ok b else .error e) := by
  split_ifs at hm ⊢ with hc
  · exact hm.bind (hf hc)
  · exact hm.bind_error

/-- A loop that has come to `a n` after `n` turns, and stops at the first without `P`. -/
lemma Reads.range {g : β → ℕ → EStateM ε σ β} {a : ℕ → β} {P : ℕ → Prop} [DecidablePred P] {e : ε}
    {n : ℕ} (h : ∀ i < n, Reads I (g (a i) i) (if P i then .ok (a (i + 1)) else .error e)) :
    Reads I ((List.range n).foldlM g (a 0))
      (if ∀ i < n, P i then .ok (a n) else .error e) := by
  induction n with
  | zero =>
      rw [if_pos fun i hi => absurd hi (Nat.not_lt_zero i)]
      exact .pure _
  | succ n ih =>
      have hlast := h n (Nat.lt_succ_self n)
      have hfirst := ih fun i hi => h i (Nat.lt_succ_of_lt hi)
      intro s hs
      have hrun := hfirst s hs
      rw [List.range_succ, List.foldlM_append]
      by_cases hall : ∀ i < n, P i
      · rw [if_pos hall] at hrun
        obtain ⟨t, hrun, ht⟩ := hrun
        have hstep : List.foldlM g (a n) [n] = g (a n) n := bind_pure _
        rw [bind_ok hrun, hstep]
        have hcond : (∀ i < n + 1, P i) ↔ P n :=
          ⟨fun hp => hp n (Nat.lt_succ_self n), fun hp i hi =>
            (Nat.lt_succ_iff_lt_or_eq.mp hi).elim (hall i) fun e => e ▸ hp⟩
        simp only [hcond]
        exact hlast t ht
      · rw [if_neg hall] at hrun
        obtain ⟨t, hrun⟩ := hrun
        rw [Program.bind_error hrun, if_neg fun hp => hall fun i hi => hp i (Nat.lt_succ_of_lt hi)]
        exact ⟨t, rfl⟩

end Reads

/-- Two ends that agree: the same value or the same error, in related states. -/
def Agree (R : σ → σ → Prop) : EStateM.Result ε σ α → EStateM.Result ε σ α → Prop
  | .ok a s, .ok a' s' => a = a' ∧ R s s'
  | .error e s, .error e' s' => e = e' ∧ R s s'
  | _, _ => False

lemma Agree.mono {R Q : σ → σ → Prop} (h : ∀ s t, R s t → Q s t) {r r' : EStateM.Result ε σ α}
    (hr : Agree R r r') : Agree Q r r' := by
  cases r with
  | ok a s =>
      cases r' with
      | ok a' s' => exact ⟨hr.1, h s s' hr.2⟩
      | error e' s' => exact hr
  | error e s =>
      cases r' with
      | ok a' s' => exact hr
      | error e' s' => exact ⟨hr.1, h s s' hr.2⟩

/-- From related states `m` does as `m'`, unless it ends in a bad state; bad states stay bad. -/
structure Follows (R : σ → σ → Prop) (bad : σ → Prop) (m m' : EStateM ε σ α) : Prop where
  stays : Keeps (fun s t => bad s → bad t) m
  agree : ∀ s s', R s s' → ¬bad (final (m s)) → Agree R (m s) (m' s')

section Follows

variable {R : σ → σ → Prop} {bad : σ → Prop}

lemma Follows.pure (a : α) : Follows R bad (pure a : EStateM ε σ α) (pure a) where
  stays _ := id
  agree _ _ hr _ := ⟨rfl, hr⟩

lemma Follows.bind {m m' : EStateM ε σ α} {f f' : α → EStateM ε σ β} (hm : Follows R bad m m')
    (hf : ∀ a, Follows R bad (f a) (f' a)) : Follows R bad (m >>= f) (m' >>= f') where
  stays := Keeps.bind (I := fun s t => bad s → bad t) (fun _ _ _ h h' => h' ∘ h) hm.stays
    fun a => (hf a).stays
  agree s s' hr hgood := by
    have h := hm.agree s s' hr
    change ¬bad (final (EStateM.bind m f s)) at hgood
    change Agree R (EStateM.bind m f s) (EStateM.bind m' f' s')
    rw [EStateM.bind] at hgood ⊢
    rw [EStateM.bind]
    cases hms : m s with
    | ok a t =>
        rw [hms] at h hgood
        have hmid : ¬bad t := fun hb => hgood ((hf a).stays t hb)
        cases hms' : m' s' with
        | ok a' t' =>
            rw [hms'] at h
            obtain ⟨rfl, hrt⟩ := h hmid
            exact (hf a).agree t t' hrt hgood
        | error e' t' =>
            rw [hms'] at h
            exact (h hmid).elim
    | error e t =>
        rw [hms] at h hgood
        cases hms' : m' s' with
        | ok a' t' =>
            rw [hms'] at h
            exact (h hgood).elim
        | error e' t' =>
            rw [hms'] at h
            exact h hgood

lemma Follows.ite {c : Prop} [Decidable c] {m₁ m₂ m₁' m₂' : EStateM ε σ α}
    (h₁ : Follows R bad m₁ m₁') (h₂ : Follows R bad m₂ m₂') :
    Follows R bad (if c then m₁ else m₂) (if c then m₁' else m₂') := by
  split_ifs
  · exact h₁
  · exact h₂

lemma Follows.foldlM {f f' : β → α → EStateM ε σ β} (h : ∀ b a, Follows R bad (f b a) (f' b a))
    (l : List α) (b : β) : Follows R bad (l.foldlM f b) (l.foldlM f' b) := by
  induction l generalizing b with
  | nil => exact .pure b
  | cons a l ih =>
      rw [List.foldlM_cons, List.foldlM_cons]
      exact .bind (h b a) ih

end Follows

end Program
