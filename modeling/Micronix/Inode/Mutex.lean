import Micronix.Inode.Locks

/-!
# Whose locks a step changes

Whatever the counts say, a process locks only slots that are free, and the routines of `iget.c`
release only what they have locked themselves; the exceptions are `irelse` and `idec`, which release
the slot they are given.
-/

namespace Micronix

/-- The slot that a process has locked in `iget`, `isync` or `iflush`. -/
def Stage.locks : Stage → Option ℕ
  | getWrite i _ | getRead i _ | syncWrite i | flushWrite i _ => some i
  | idle | getWait _ _ | lockWait _ _ | freeing _ | flushWait _ _ => none

namespace Ilist

/-- A slot is busy exactly when somebody has locked it. -/
def Locked (s : Ilist) : Prop := ∀ i, (s.slot i).busy = true ↔ s.own i ≠ none

/-- Process `p` had slot `pre` locked and has `post` locked now, if any; no other lock changed. -/
structure Out (s s' : Ilist) (p : ℕ) (pre post : Option ℕ) : Prop where
  locked : Locked s'
  own : ∀ i, s'.own i = if post = some i then some p else if pre = some i then none else s.own i
  free : ∀ i, post = some i → pre = some i ∨ s.own i = none
  stage : ∀ q, q ≠ p → s'.stage q = s.stage q

variable {s s' t : Ilist} {i j p : ℕ} {r : Request} {pre mid post : Option ℕ}

/-- Nothing has changed yet. -/
lemma Out.refl (h : Locked s) (hpre : ∀ i, pre = some i → s.own i = some p) :
    Out s s p pre pre := by
  refine ⟨h, fun i => ?_, fun i e => Or.inl e, fun _ _ => rfl⟩
  split_ifs with e
  · exact hpre i e
  · rfl

/-- One thing after the other. -/
lemma Out.trans (h : Out s t p pre mid) (h' : Out t s' p mid post) : Out s s' p pre post := by
  refine ⟨h'.locked, fun i => ?_, fun i e => ?_, fun q hq => (h'.stage q hq).trans (h.stage q hq)⟩
  · rw [h'.own i]
    by_cases e : post = some i
    · simp [e]
    · by_cases e' : mid = some i
      · simp only [e, e', if_true]
        by_cases e'' : pre = some i
        · simp [e'']
        · rcases h.free i e' with e3 | e3
          · exact absurd e3 e''
          · simp [e'', e3]
      · simp only [e, e', if_false]
        rw [h.own i]
        simp [e']
  · rcases h'.free i e with e' | e'
    · exact h.free i e'
    · rw [h.own i] at e'
      by_cases e'' : pre = some i
      · exact Or.inl e''
      · right
        split_ifs at e'
        exact e'

/-- A step that changes no lock. -/
lemma Out.congr (h : Out s t p pre post) (hb : ∀ i, (s'.slot i).busy = (t.slot i).busy)
    (ho : s'.own = t.own) (hs : ∀ q, q ≠ p → s'.stage q = t.stage q) : Out s s' p pre post :=
  ⟨fun i => by rw [hb, ho]; exact h.locked i, fun i => by rw [ho]; exact h.own i, h.free,
    fun q hq => (hs q hq).trans (h.stage q hq)⟩

/-- The same from a state with the same locks. -/
lemma Out.of_own (h : Out t s' p pre post) (ho : t.own = s.own)
    (hs : ∀ q, q ≠ p → t.stage q = s.stage q) : Out s s' p pre post :=
  ⟨h.locked, fun i => by rw [h.own i, ho], fun i e => by rw [← ho]; exact h.free i e,
    fun q hq => (h.stage q hq).trans (hs q hq)⟩

/-- Only process `p` has done something, and no lock has changed. -/
structure Kept (s s' : Ilist) (p : ℕ) : Prop where
  locked : Locked s'
  own : s'.own = s.own
  stage : ∀ q, q ≠ p → s'.stage q = s.stage q

lemma Kept.refl (h : Locked s) : Kept s s p := ⟨h, rfl, fun _ _ => rfl⟩

lemma Kept.congr (h : Kept s t p) (hb : ∀ i, (s'.slot i).busy = (t.slot i).busy)
    (ho : s'.own = t.own) (hs : ∀ q, q ≠ p → s'.stage q = t.stage q) : Kept s s' p :=
  ⟨fun i => by rw [hb, ho]; exact h.locked i, ho.trans h.own, fun q hq => (hs q hq).trans (h.stage q hq)⟩

lemma Kept.trans (h : Kept s t p) (h' : Kept t s' p) : Kept s s' p :=
  ⟨h'.locked, h'.own.trans h.own, fun q hq => (h'.stage q hq).trans (h.stage q hq)⟩

/-- A process that keeps its lock has it before and after. -/
lemma Kept.out (h : Kept s s' p) (hpre : ∀ i, pre = some i → s.own i = some p) :
    Out s s' p pre pre := by
  refine ⟨h.locked, fun i => ?_, fun i e => Or.inl e, h.stage⟩
  rw [h.own]
  split_ifs with e
  · exact hpre i e
  · rfl

lemma busy_modSlot (f : Incore → Incore) (h : (f (s.slot i)).busy = (s.slot i).busy) (j : ℕ) :
    ((s.modSlot i f).slot j).busy = (s.slot j).busy := by
  by_cases hj : j = i
  · subst hj
    rw [modSlot_self, h]
  · rw [modSlot_ne s f hj]

/-- Locking a slot that is not busy. -/
lemma Out.lock (h : Locked s) (hb : ¬(s.slot i).busy = true) : Out s (s.lock p i) p none (some i) := by
  have hn : s.own i = none := by
    by_contra e
    exact hb ((h i).mpr e)
  refine ⟨fun j => ?_, fun j => ?_, fun j e => Or.inr ?_, fun _ _ => rfl⟩
  · by_cases hj : j = i
    · subst hj
      rw [lock_self, lock_own]
      simp
    · rw [lock_ne s p hj, show (s.lock p i).own j = s.own j from Function.update_of_ne hj ..]
      exact h j
  · by_cases hj : j = i
    · subst hj
      rw [lock_own, if_pos rfl]
    · rw [show (s.lock p i).own j = s.own j from Function.update_of_ne hj ..,
        if_neg (by simp [Ne.symm hj]), if_neg (by simp)]
  · obtain rfl : i = j := by simpa using e
    exact hn

/-- Releasing a slot, whoever has it. -/
lemma Locked.irelse (h : Locked s) : Locked (s.irelse i) ∧
    (∀ j, (s.irelse i).own j = if j = i then none else s.own j) ∧
    (s.irelse i).stage = s.stage := by
  obtain ⟨hown, -, hstage, -⟩ := s.irelse_rest i
  refine ⟨fun j => ?_, fun j => ?_, hstage⟩
  · rw [hown]
    by_cases hj : j = i
    · subst hj
      obtain ⟨t, e⟩ := s.irelse_self j
      rw [e]
      simp
    · obtain ⟨t, e⟩ := s.irelse_other hj
      rw [e, Function.update_of_ne hj]
      exact h j
  · rw [hown, Function.update_apply]

/-- Releasing the slot that the process has locked. -/
lemma Out.irelse (h : Locked s) (i : ℕ) : Out s (s.irelse i) p (some i) none := by
  obtain ⟨h1, h2, h3⟩ := h.irelse (i := i)
  refine ⟨h1, fun j => ?_, fun j e => absurd e (by simp), fun _ _ => by rw [h3]⟩
  rw [h2 j]
  by_cases hj : j = i
  · subst hj
    simp
  · simp [hj, Ne.symm hj]

/-- Zeroing a slot and releasing it, in either order. -/
lemma Out.giveUp (h : Locked s) : Out s (s.giveUp p i r) p (some i) none := by
  set u := s.modSlot i fun _ => Incore.zero with hu
  obtain ⟨hown, -, hstage, -⟩ := u.irelse_rest i
  have hown' : (s.giveUp p i r).own = Function.update s.own i none := hown
  refine ⟨fun j => ?_, fun j => ?_, fun j e => absurd e (by simp),
    fun q _ => congrFun hstage q⟩
  · rw [hown']
    by_cases hj : j = i
    · subst hj
      obtain ⟨t, e⟩ := u.irelse_self j
      rw [show (s.giveUp p j r).slot j = _ from e]
      simp
    · obtain ⟨t, e⟩ := u.irelse_other hj
      rw [show (s.giveUp p i r).slot j = _ from e, Function.update_of_ne hj, hu, modSlot_ne s _ hj]
      exact h j
  · rw [hown', if_neg (by simp), Function.update_apply]
    by_cases hj : j = i
    · rw [if_pos hj, if_pos (by rw [hj])]
    · rw [if_neg hj, if_neg (by simp [Ne.symm hj])]

lemma Out.expel (h : Locked s) : Out s (s.expel i) p (some i) none := by
  obtain ⟨hown, -, hstage, -⟩ := s.irelse_rest i
  have hown' : (s.expel i).own = Function.update s.own i none := hown
  refine ⟨fun j => ?_, fun j => ?_, fun j e => absurd e (by simp), fun q _ => congrFun hstage q⟩
  · rw [hown']
    by_cases hj : j = i
    · subst hj
      rw [show (s.expel j).slot j = Incore.zero from modSlot_self ..]
      simp [Incore.zero]
    · obtain ⟨t, e⟩ := s.irelse_other hj
      rw [show (s.expel i).slot j = (s.irelse i).slot j from modSlot_ne _ _ hj, e,
        Function.update_of_ne hj]
      exact h j
  · rw [hown', if_neg (by simp), Function.update_apply]
    by_cases hj : j = i
    · rw [if_pos hj, if_pos (by rw [hj])]
    · rw [if_neg hj, if_neg (by simp [Ne.symm hj])]

/-- Falling asleep on a slot. -/
lemma Out.await (h : Locked s) (k : Stage) : Out s (s.await p i k) p none none := by
  refine (Out.refl h (by simp)).congr (fun j => ?_) rfl fun _ hq => Function.update_of_ne hq ..
  by_cases hj : j = i
  · subst hj
    simp [Ilist.await, Ilist.sleep, Ilist.goto, modSlot]
  · simp [Ilist.await, Ilist.sleep, Ilist.goto, modSlot, hj]

lemma Out.sleep (h : Locked s) (k : Stage) : Out s (s.sleep p i k) p none none := by
  refine (Out.refl h (by simp)).congr (fun j => ?_) rfl fun _ hq => Function.update_of_ne hq ..
  by_cases hj : j = i
  · subst hj
    simp [Ilist.sleep, Ilist.goto, modSlot]
  · simp [Ilist.sleep, Ilist.goto, modSlot, hj]

/-- The end of `ilock` after a sleep. -/
lemma Out.relock (h : Locked s) (hb : ¬(s.slot i).busy = true) :
    Out s (s.relock p i) p none (some i) :=
  (Out.lock h hb).congr (busy_modSlot _ rfl) rfl fun _ _ => rfl

/-- Going on to another stage. -/
lemma Out.goto (h : Out s t p pre post) (k : Stage) : Out s (t.goto p k) p pre post :=
  h.congr (fun _ => rfl) rfl fun _ hq => Function.update_of_ne hq ..

lemma Out.iio (h : Out s t p pre post) (i : ℕ) : Out s (t.iio i) p pre post :=
  h.congr (busy_modSlot _ rfl) rfl fun _ _ => rfl

/-! ## The calls -/

/-- `iget` sleeps with `post` locked, or it has returned it. -/
def GetEnds (s : Ilist) (p : ℕ) (post : Option ℕ) : Prop :=
  ((∃ i r, s.stage p = .getWait i r) ∨ (∃ i r, s.stage p = .getWrite i r) ∨
      ∃ i r, s.stage p = .getRead i r) ∧ post = (s.stage p).locks ∨
    s.stage p = .idle ∧ ∃ q r, s.last = some (q, r, post)

lemma GetEnds.getWait (h : s.stage p = .getWait i r) : GetEnds s p none :=
  Or.inl ⟨Or.inl ⟨i, r, h⟩, by rw [h]; rfl⟩

lemma GetEnds.getWrite (h : s.stage p = .getWrite i r) : GetEnds s p (some i) :=
  Or.inl ⟨Or.inr (Or.inl ⟨i, r, h⟩), by rw [h]; rfl⟩

lemma GetEnds.getRead (h : s.stage p = .getRead i r) : GetEnds s p (some i) :=
  Or.inl ⟨Or.inr (Or.inr ⟨i, r, h⟩), by rw [h]; rfl⟩

/-- Taking the locked slot over: it is given up at once, or stays locked while it is read. -/
lemma claim_moves (h : Locked s) (hp : s.stage p = .idle) (he : s.claim p i r = some s') :
    Out s s' p (some i) none ∧ GetEnds s' p none ∨ Kept s s' p ∧ GetEnds s' p (some i) := by
  obtain ⟨bad, -, rfl⟩ := Option.map_eq_some_iff.mp he
  have ht : Locked (s.retag i r) := fun j => by
    rw [retag, busy_modSlot (i := i) _ rfl]
    exact h j
  split_ifs
  · refine Or.inl ⟨(Out.giveUp ht).of_own rfl fun _ _ => rfl, Or.inr ⟨?_, p, r, rfl⟩⟩
    obtain ⟨-, -, hstage, -⟩ := ((s.retag i r).modSlot i fun _ => Incore.zero).irelse_rest i
    exact (congrFun hstage p).trans hp
  · have hk : Kept s (s.retag i r) p := ⟨ht, rfl, fun _ _ => rfl⟩
    have hi : Kept s ((s.retag i r).iio i) p := hk.congr (busy_modSlot _ rfl) rfl fun _ _ => rfl
    refine Or.inr ⟨hi.congr (fun _ => rfl) rfl fun _ hq => Function.update_of_ne hq ..,
      .getRead (r := r) (Function.update_self ..)⟩

/-- The same by the process that has locked the slot. -/
lemma claim_out (h : Locked s) (hp : s.stage p = .idle) (ho : s.own i = some p)
    (he : s.claim p i r = some s') : ∃ post, Out s s' p (some i) post ∧ GetEnds s' p post := by
  rcases claim_moves h hp he with ⟨ho', hg⟩ | ⟨hk, hg⟩
  · exact ⟨none, ho', hg⟩
  · exact ⟨some i, hk.out (by rintro j ⟨⟩; exact ho), hg⟩

/-- **`iget`**, by induction on the mounted roots it goes through. -/
lemma iget_out (fuel : ℕ) : ∀ {s : Ilist} {r : Request}, Locked s → s.stage p = .idle →
    iget p fuel s r = some s' → ∃ post, Out s s' p none post ∧ GetEnds s' p post := by
  induction fuel with
  | zero =>
      intro s r _ _ he
      exact absurd he (by simp [iget])
  | succ fuel ih =>
      intro s r h hp he
      rw [iget] at he
      cases hh : s.hit r.num r.dev with
      | some i =>
          rw [hh] at he
          dsimp only at he
          split_ifs at he with hb
          · simp only [Option.some.injEq] at he
            subst he
            exact ⟨none, .await h _, .getWait (i := i) (r := r) (Function.update_self ..)⟩
          · have hl : Out s (s.lock p i) p none (some i) := .lock h hb
            unfold found at he
            split at he
            · have hr := Out.irelse (p := p) hl.locked i
              obtain ⟨post, ho, hg⟩ := ih hr.locked
                (by rw [(hl.locked.irelse (i := i)).2.2]; exact hp) he
              exact ⟨post, hl.trans (hr.trans ho), hg⟩
            · simp only [Option.some.injEq] at he
              subst he
              exact ⟨some i, hl.congr (fun _ => rfl) rfl fun _ _ => rfl, Or.inr ⟨hp, p, r, rfl⟩⟩
      | none =>
          rw [hh] at he
          dsimp only at he
          split at he
          · simp only [Option.some.injEq] at he
            subst he
            exact ⟨none, (Out.refl h (by simp)).congr (fun _ => rfl) rfl fun _ _ => rfl,
              Or.inr ⟨hp, p, r, rfl⟩⟩
          · rename_i f hf
            have hbf : ¬(s.slot f).busy = true := by
              rw [(victim_spec hf).2]
              simp
            have hl : Out s (s.lock p f) p none (some f) := .lock h hbf
            split_ifs at he
            · obtain ⟨bad, -, rfl⟩ := Option.map_eq_some_iff.mp he
              split_ifs
              · have hr := Out.irelse (p := p) hl.locked f
                refine ⟨none, (hl.trans hr).congr (fun _ => rfl) rfl fun _ _ => rfl,
                  Or.inr ⟨?_, p, r, rfl⟩⟩
                rw [show (((s.lock p f).irelse f).ret p r none).stage = _ from
                  (hl.locked.irelse (i := f)).2.2]
                exact hp
              · exact ⟨some f, (hl.iio f).goto _, .getWrite (r := r) (Function.update_self ..)⟩
            · obtain ⟨post, ho, hg⟩ := claim_out hl.locked hp (s.lock_own p f) he
              exact ⟨post, hl.trans ho, hg⟩

/-- `isync` sleeps with a slot locked, or it has returned. -/
lemma isync_out (left : ℕ) : ∀ {s : Ilist}, Locked s → s.stage p = .idle →
    isync p left s = some s' → Out s s' p none (s'.stage p).locks ∧
      (s'.stage p = .idle ∨ ∃ i, s'.stage p = .syncWrite i) := by
  induction left with
  | zero =>
      intro s h hp he
      simp only [isync, Option.some.injEq] at he
      subst he
      rw [hp]
      exact ⟨.refl h (by simp), Or.inl rfl⟩
  | succ left ih =>
      intro s h hp he
      rw [isync] at he
      dsimp only at he
      set i := s.n - (left + 1) with hi
      split_ifs at he with hm
      · have hl : Out s (s.lock p i) p none (some i) := .lock h (by simp [hm.2])
        split at he
        · exact absurd he (by simp)
        · have hr := Out.irelse (p := p) hl.locked i
          obtain ⟨ho, hg⟩ := ih hr.locked (by rw [(hl.locked.irelse (i := i)).2.2]; exact hp) he
          exact ⟨hl.trans (hr.trans ho), hg⟩
        · simp only [Option.some.injEq] at he
          subst he
          have hst : (((s.lock p i).iio i).goto p (.syncWrite i)).stage p = .syncWrite i :=
            Function.update_self ..
          rw [hst]
          exact ⟨(hl.iio i).goto _, Or.inr ⟨i, rfl⟩⟩
      · exact ih h hp he

/-- `iflush` sleeps, waiting for a slot or with one locked, or it has returned. -/
lemma iflush_out {dev : ℕ} (left : ℕ) : ∀ {s : Ilist}, Locked s → s.stage p = .idle →
    iflush p dev left s = some s' → Out s s' p none (s'.stage p).locks ∧
      (s'.stage p = .idle ∨ (∃ i d, s'.stage p = .flushWait i d) ∨
        ∃ i d, s'.stage p = .flushWrite i d) := by
  induction left with
  | zero =>
      intro s h hp he
      simp only [iflush, Option.some.injEq] at he
      subst he
      rw [hp]
      exact ⟨.refl h (by simp), Or.inl rfl⟩
  | succ left ih =>
      intro s h hp he
      rw [iflush] at he
      dsimp only at he
      set i := s.n - (left + 1) with hi
      have hexpel : ∀ u, Out s u p none (some i) → u.stage p = .idle →
          iflush p dev left (u.expel i) = some s' → Out s s' p none (s'.stage p).locks ∧
            (s'.stage p = .idle ∨ (∃ i d, s'.stage p = .flushWait i d) ∨
              ∃ i d, s'.stage p = .flushWrite i d) := by
        intro u hu hup he
        have hx := Out.expel (p := p) (i := i) hu.locked
        obtain ⟨ho, hg⟩ := ih hx.locked
          ((congrFun (hu.locked.irelse (i := i)).2.2 p).trans hup) he
        exact ⟨hu.trans (hx.trans ho), hg⟩
      split_ifs at he with hd hb hm
      · simp only [Option.some.injEq] at he
        subst he
        have hst : (s.await p i (.flushWait i dev)).stage p = .flushWait i dev :=
          Function.update_self ..
        rw [hst]
        exact ⟨.await h _, Or.inr (Or.inl ⟨i, dev, rfl⟩)⟩
      · have hl : Out s (s.lock p i) p none (some i) := .lock h hb
        split at he
        · exact absurd he (by simp)
        · exact hexpel _ hl hp he
        · simp only [Option.some.injEq] at he
          subst he
          have hst : (((s.lock p i).iio i).goto p (.flushWrite i dev)).stage p
              = .flushWrite i dev := Function.update_self ..
          rw [hst]
          exact ⟨(hl.iio i).goto _, Or.inr (Or.inr ⟨i, dev, rfl⟩)⟩
      · exact hexpel _ (.lock h hb) hp he
      · exact ih h hp he

/-! ## Calls and their ends -/

/-- The stages in which a process can sleep in a call. -/
def StageOf : Call → Stage → Prop
  | .iget _ _, k => (∃ i r, k = .getWait i r) ∨ (∃ i r, k = .getWrite i r) ∨ ∃ i r, k = .getRead i r
  | .ilock i, k => ∃ a, k = .lockWait i a
  | .irelse _, _ => False
  | .idec i, k => k = .freeing i
  | .isync, k => ∃ i, k = .syncWrite i
  | .iflush _, k => (∃ i d, k = .flushWait i d) ∨ ∃ i d, k = .flushWrite i d

/-- The slot that a call returns locked. -/
def grant (s : Ilist) : Call → Option ℕ
  | .iget _ _ => s.result
  | .ilock i => some i
  | .irelse _ | .idec _ | .isync | .iflush _ => none

/-- A call has returned, or the process sleeps in it. -/
def Ends (s : Ilist) (p : ℕ) (c : Call) (post : Option ℕ) : Prop :=
  s.stage p = .idle ∧ post = s.grant c ∨ StageOf c (s.stage p) ∧ post = (s.stage p).locks

/-- The slot that a call releases at once, or when it goes on. -/
def Call.drops : Call → Option ℕ
  | irelse i | idec i => some i
  | iget _ _ | ilock _ | isync | iflush _ => none

lemma GetEnds.ends {num dev : ℕ} (h : GetEnds s p post) : s.Ends p (.iget num dev) post := by
  rcases h with ⟨h, e⟩ | ⟨h, q, r, e⟩
  · exact Or.inr ⟨h, e⟩
  · left
    refine ⟨h, ?_⟩
    rw [grant, result, e]
    rfl

/-- **A call.** -/
lemma call_out {c : Call} (h : Locked s) (hp : s.stage p = .idle)
    (he : s.step (.call p c) = some s') :
    ∃ pre post, Out s s' p pre post ∧ s'.Ends p c post ∧
      (pre = c.drops ∧ s'.stage p = .idle ∨ pre = none ∧ s'.stage p ≠ .idle ∨
        pre = none ∧ c.drops = none) ∧
      ∀ i, c = .idec i → pre = some i → ¬((s.slot i).count = 0 ∧ (s.slot i).nlink = 0) := by
  set u : Ilist := { s with last := none } with hu
  have hl : Locked u := h
  have hup : u.stage p = .idle := hp
  have h0 : Out s u p none none := (Out.refl h (by simp)).congr (fun _ => rfl) rfl fun _ _ => rfl
  unfold step at he
  rw [← hu] at he
  simp only [hup, Stage.isIdle, if_true] at he
  have hno : ∀ {c : Call}, c.drops = none → ∀ i, c = .idec i → (none : Option ℕ) = some i →
      ¬((s.slot i).count = 0 ∧ (s.slot i).nlink = 0) := fun _ _ _ e => absurd e (by simp)
  cases c with
  | iget num dev =>
      obtain ⟨post, ho, hg⟩ := iget_out _ hl hup he
      exact ⟨none, post, h0.trans ho, hg.ends, Or.inr (Or.inr ⟨rfl, rfl⟩), hno rfl⟩
  | ilock i =>
      simp only [call, Option.some.injEq] at he
      split_ifs at he with hb
      · subst he
        have hst : (u.await p i (.lockWait i ((u.slot i).inum, (u.slot i).dev))).stage p
            = .lockWait i ((u.slot i).inum, (u.slot i).dev) := Function.update_self ..
        refine ⟨none, none, h0.trans (.await hl _), Or.inr ⟨⟨_, hst⟩, ?_⟩,
          Or.inr (Or.inr ⟨rfl, rfl⟩), hno rfl⟩
        rw [hst]
        rfl
      · subst he
        exact ⟨none, some i, h0.trans (.lock hl hb), Or.inl ⟨hup, rfl⟩,
          Or.inr (Or.inr ⟨rfl, rfl⟩), hno rfl⟩
  | irelse i =>
      simp only [call, Option.some.injEq] at he
      subst he
      have hr := Out.irelse (p := p) hl i
      have hst : (u.irelse i).stage p = .idle := by
        rw [(hl.irelse (i := i)).2.2]
        exact hup
      exact ⟨some i, none, ⟨hr.locked, hr.own, hr.free, hr.stage⟩, Or.inl ⟨hst, rfl⟩,
        Or.inl ⟨rfl, hst⟩, fun _ e => by simp at e⟩
  | idec i =>
      simp only [call, Option.some.injEq, idec] at he
      split_ifs at he with hc
      · subst he
        have hst : (u.goto p (.freeing i)).stage p = .freeing i := Function.update_self ..
        refine ⟨none, none, h0.goto _, Or.inr ⟨hst, ?_⟩, Or.inr (Or.inl ⟨rfl, ?_⟩),
          fun _ _ e => by simp at e⟩
        · rw [hst]
          rfl
        · rw [hst]
          simp
      · subst he
        have hr := Out.irelse (p := p) hl i
        have hst : (u.irelse i).stage p = .idle := by
          rw [(hl.irelse (i := i)).2.2]
          exact hup
        refine ⟨some i, none, ⟨hr.locked, hr.own, hr.free, hr.stage⟩, Or.inl ⟨hst, rfl⟩,
          Or.inl ⟨rfl, hst⟩, ?_⟩
        rintro j ⟨⟩ -
        exact hc
  | isync =>
      obtain ⟨ho, hg⟩ := isync_out _ hl hup he
      refine ⟨none, _, h0.trans ho, ?_, Or.inr (Or.inr ⟨rfl, rfl⟩), hno rfl⟩
      rcases hg with hg | ⟨i, hg⟩
      · exact Or.inl ⟨hg, by rw [hg]; rfl⟩
      · exact Or.inr ⟨⟨i, hg⟩, rfl⟩
  | iflush dev =>
      obtain ⟨ho, hg⟩ := iflush_out _ hl hup he
      refine ⟨none, _, h0.trans ho, ?_, Or.inr (Or.inr ⟨rfl, rfl⟩), hno rfl⟩
      rcases hg with hg | hg
      · exact Or.inl ⟨hg, by rw [hg]; rfl⟩
      · exact Or.inr ⟨hg, rfl⟩

/-- **Going on in a call**: locks are taken and released, or the process keeps the slot that it has
locked, whoever else may have released it meanwhile. -/
lemma run_moves {c : Call} {d : Option Bytes} (h : Locked s) (hc : StageOf c (s.stage p))
    (he : s.step (.run p d) = some s') :
    ∃ pre post, (Out s s' p pre post ∨ Kept s s' p ∧ pre = post) ∧ s'.Ends p c post ∧
      (pre = (s.stage p).locks ∧ c.drops = none ∨
        (s.stage p).locks = none ∧ pre = c.drops ∧ s'.stage p = .idle) := by
  set u : Ilist := ({ s with last := none } : Ilist).goto p .idle with hu
  have hl : Locked u := h
  have hup : u.stage p = .idle := Function.update_self ..
  have hus : ∀ q, q ≠ p → u.stage q = s.stage q := fun q hq => Function.update_of_ne hq ..
  have h0 : Out s u p none none := (Out.refl hl (by simp)).of_own rfl hus
  have hkept : Kept s u p := ⟨hl, rfl, hus⟩
  unfold step at he
  dsimp only at he
  split_ifs at he
  rw [← hu] at he
  -- after the block i/o of `isync` and `iflush`
  have hwrite : ∀ i d, Kept s (if Option.isSome d then u.writeNode i else u) p ∧
      (if Option.isSome (α := Bytes) d then u.writeNode i else u).stage p = .idle := by
    intro i d
    split_ifs
    · exact ⟨hkept.congr (busy_modSlot _ rfl) rfl fun _ _ => rfl, hup⟩
    · exact ⟨hkept, hup⟩
  cases hk : s.stage p with
  | idle =>
      rw [hk] at he
      exact absurd he (by simp [resume])
  | getWait i r =>
      obtain ⟨num, dev, rfl⟩ : ∃ num dev, c = .iget num dev := by
        rw [hk] at hc
        cases c <;> simp_all [StageOf]
      rw [hk, resume] at he
      split_ifs at he with hb
      · simp only [Option.some.injEq] at he
        subst he
        exact ⟨none, none, Or.inl (h0.trans (.sleep hl _)),
          (GetEnds.getWait (i := i) (r := r) (Function.update_self ..)).ends, Or.inl ⟨rfl, rfl⟩⟩
      · have hr : Out u (u.relock p i) p none (some i) := .relock hl hb
        unfold found at he
        split at he
        · have hx := Out.irelse (p := p) hr.locked i
          obtain ⟨post, ho', hg⟩ := iget_out _ hx.locked
            (by rw [(hr.locked.irelse (i := i)).2.2]; exact hup) he
          exact ⟨none, post, Or.inl (h0.trans (hr.trans (hx.trans ho'))), hg.ends,
            Or.inl ⟨rfl, rfl⟩⟩
        · simp only [Option.some.injEq] at he
          subst he
          exact ⟨none, some i, Or.inl ((h0.trans hr).congr (fun _ => rfl) rfl fun _ _ => rfl),
            (show GetEnds ((u.relock p i).ret p r (some i)) p (some i) from
              Or.inr ⟨hup, p, r, rfl⟩).ends, Or.inl ⟨rfl, rfl⟩⟩
  | getWrite i r =>
      obtain ⟨num, dev, rfl⟩ : ∃ num dev, c = .iget num dev := by
        rw [hk] at hc
        cases c <;> simp_all [StageOf]
      rw [hk, resume] at he
      split_ifs at he
      · have hw : Kept s (u.writeNode i) p := hkept.congr (busy_modSlot _ rfl) rfl fun _ _ => rfl
        rcases claim_moves hw.locked hup he with ⟨ho', hg⟩ | ⟨hk', hg⟩
        · exact ⟨some i, none, Or.inl (ho'.of_own hw.own hw.stage), hg.ends, Or.inl ⟨rfl, rfl⟩⟩
        · exact ⟨some i, some i, Or.inr ⟨hw.trans hk', rfl⟩, hg.ends, Or.inl ⟨rfl, rfl⟩⟩
      · simp only [Option.some.injEq] at he
        subst he
        have hx := (Out.irelse (p := p) hl i).of_own hkept.own hus
        refine ⟨some i, none, Or.inl (hx.congr (fun _ => rfl) rfl fun _ _ => rfl),
          (show GetEnds ((u.irelse i).ret p r none) p none from Or.inr ⟨?_, p, r, rfl⟩).ends,
          Or.inl ⟨rfl, rfl⟩⟩
        rw [show ((u.irelse i).ret p r none).stage = _ from (hl.irelse (i := i)).2.2]
        exact hup
  | getRead i r =>
      obtain ⟨num, dev, rfl⟩ : ∃ num dev, c = .iget num dev := by
        rw [hk] at hc
        cases c <;> simp_all [StageOf]
      rw [hk] at he
      cases d with
      | some d =>
          simp only [resume, Option.some.injEq] at he
          subst he
          have hr : Kept s (u.readNode i d) p := hkept.congr (busy_modSlot _ rfl) rfl fun _ _ => rfl
          exact ⟨some i, some i, Or.inr ⟨hr.congr (fun _ => rfl) rfl fun _ _ => rfl, rfl⟩,
            (show GetEnds ((u.readNode i d).ret p r (some i)) p (some i) from
              Or.inr ⟨hup, p, r, rfl⟩).ends, Or.inl ⟨rfl, rfl⟩⟩
      | none =>
          simp only [resume, Option.some.injEq] at he
          subst he
          have hx := Out.giveUp (p := p) (i := i) (r := r) hl
          refine ⟨some i, none, Or.inl (hx.of_own hkept.own hus),
            (show GetEnds (u.giveUp p i r) p none from Or.inr ⟨?_, p, r, rfl⟩).ends, Or.inl ⟨rfl, rfl⟩⟩
          obtain ⟨-, -, hstage, -⟩ := (u.modSlot i fun _ => Incore.zero).irelse_rest i
          exact (congrFun hstage p).trans hup
  | lockWait i a =>
      obtain rfl : c = .ilock i := by
        rw [hk] at hc
        cases c <;> simp_all [StageOf]
      rw [hk] at he
      simp only [resume, Option.some.injEq] at he
      split_ifs at he with hb
      · subst he
        have hst : (u.sleep p i (.lockWait i a)).stage p = .lockWait i a := Function.update_self ..
        refine ⟨none, none, Or.inl (h0.trans (.sleep hl _)), Or.inr ⟨⟨a, hst⟩, ?_⟩,
          Or.inl ⟨rfl, rfl⟩⟩
        rw [hst]
        rfl
      · subst he
        exact ⟨none, some i, Or.inl (h0.trans (.relock hl hb)), Or.inl ⟨hup, rfl⟩,
          Or.inl ⟨rfl, rfl⟩⟩
  | freeing i =>
      obtain rfl : c = .idec i := by
        rw [hk] at hc
        cases c <;> simp_all [StageOf]
      rw [hk] at he
      simp only [resume, Option.some.injEq] at he
      subst he
      have hf : Locked (u.ifree i) := fun j => by
        rw [ifree, busy_modSlot (i := i) _ rfl]
        exact hl j
      have hst : ((u.ifree i).irelse i).stage p = .idle := by
        rw [(hf.irelse (i := i)).2.2]
        exact hup
      exact ⟨some i, none, Or.inl ((Out.irelse (p := p) hf i).of_own rfl hus), Or.inl ⟨hst, rfl⟩,
        Or.inr ⟨rfl, rfl, hst⟩⟩
  | syncWrite i =>
      obtain rfl : c = .isync := by
        rw [hk] at hc
        cases c <;> simp_all [StageOf]
      rw [hk, resume] at he
      obtain ⟨hw, hwp⟩ := hwrite i d
      generalize (if d.isSome then u.writeNode i else u) = t at *
      have hx := Out.irelse (p := p) hw.locked i
      obtain ⟨ho', hg⟩ := isync_out _ hx.locked
        (by rw [(hw.locked.irelse (i := i)).2.2]; exact hwp) he
      refine ⟨some i, _, Or.inl ((hx.trans ho').of_own hw.own hw.stage), ?_, Or.inl ⟨rfl, rfl⟩⟩
      rcases hg with hg | ⟨j, hg⟩
      · exact Or.inl ⟨hg, by rw [hg]; rfl⟩
      · exact Or.inr ⟨⟨j, hg⟩, rfl⟩
  | flushWait i dev =>
      obtain ⟨dev', rfl⟩ : ∃ dev', c = .iflush dev' := by
        rw [hk] at hc
        cases c <;> simp_all [StageOf]
      rw [hk, resume] at he
      have hexpel : ∀ t, Out s t p none (some i) → t.stage p = .idle →
          iflush p dev (t.n - (i + 1)) (t.expel i) = some s' →
          ∃ pre post, (Out s s' p pre post ∨ Kept s s' p ∧ pre = post) ∧
            s'.Ends p (.iflush dev') post ∧
            (pre = none ∧ (none : Option ℕ) = none ∨
              (none : Option ℕ) = none ∧ pre = none ∧ s'.stage p = .idle) := by
        intro t ht htp he
        have hx := Out.expel (p := p) (i := i) ht.locked
        obtain ⟨ho', hg⟩ := iflush_out _ hx.locked
          ((congrFun (ht.locked.irelse (i := i)).2.2 p).trans htp) he
        refine ⟨none, _, Or.inl (ht.trans (hx.trans ho')), ?_, Or.inl ⟨rfl, rfl⟩⟩
        rcases hg with hg | hg
        · exact Or.inl ⟨hg, by rw [hg]; rfl⟩
        · exact Or.inr ⟨hg, rfl⟩
      split_ifs at he with hb
      · simp only [Option.some.injEq] at he
        subst he
        have hst : (u.sleep p i (.flushWait i dev)).stage p = .flushWait i dev :=
          Function.update_self ..
        refine ⟨none, none, Or.inl (h0.trans (.sleep hl _)), Or.inr ⟨Or.inl ⟨i, dev, hst⟩, ?_⟩,
          Or.inl ⟨rfl, rfl⟩⟩
        rw [hst]
        rfl
      · have hr : Out s (u.relock p i) p none (some i) := h0.trans (.relock hl hb)
        dsimp only at he
        split_ifs at he
        · split at he
          · exact absurd he (by simp)
          · exact hexpel _ hr hup he
          · simp only [Option.some.injEq] at he
            subst he
            have hst : (((u.relock p i).iio i).goto p (.flushWrite i dev)).stage p
                = .flushWrite i dev := Function.update_self ..
            refine ⟨none, some i, Or.inl ((hr.iio i).goto _), Or.inr ⟨Or.inr ⟨i, dev, hst⟩, ?_⟩,
              Or.inl ⟨rfl, rfl⟩⟩
            rw [hst]
            rfl
        · exact hexpel _ hr hup he
  | flushWrite i dev =>
      obtain ⟨dev', rfl⟩ : ∃ dev', c = .iflush dev' := by
        rw [hk] at hc
        cases c <;> simp_all [StageOf]
      rw [hk, resume] at he
      obtain ⟨hw, hwp⟩ := hwrite i d
      generalize (if d.isSome then u.writeNode i else u) = t at *
      have hx := Out.expel (p := p) (i := i) hw.locked
      obtain ⟨ho', hg⟩ := iflush_out _ hx.locked
        ((congrFun (hw.locked.irelse (i := i)).2.2 p).trans hwp) he
      refine ⟨some i, _, Or.inl ((hx.trans ho').of_own hw.own hw.stage), ?_, Or.inl ⟨rfl, rfl⟩⟩
      rcases hg with hg | hg
      · exact Or.inl ⟨hg, by rw [hg]; rfl⟩
      · exact Or.inr ⟨hg, rfl⟩

/-- The same by a process that has its slot still locked. -/
lemma run_out {c : Call} {d : Option Bytes} (h : Locked s) (hc : StageOf c (s.stage p))
    (ho : ∀ i, (s.stage p).locks = some i → s.own i = some p)
    (he : s.step (.run p d) = some s') :
    ∃ pre post, Out s s' p pre post ∧ s'.Ends p c post ∧
      (pre = (s.stage p).locks ∧ c.drops = none ∨ pre = c.drops ∧ s'.stage p = .idle) := by
  obtain ⟨pre, post, hm, hends, hpre'⟩ := run_moves h hc he
  have hpre := hpre'.imp_right And.right
  rcases hm with hm | ⟨hk, rfl⟩
  · exact ⟨pre, post, hm, hends, hpre⟩
  · refine ⟨pre, pre, hk.out fun i e => ?_, hends, hpre⟩
    rcases hpre with ⟨hp, -⟩ | ⟨hp, hidle⟩
    · exact ho i (hp ▸ e)
    · -- a call that drops a slot does not end with one locked
      rcases hends with ⟨-, hg⟩ | ⟨hst, hg⟩
      · cases c <;> simp_all [Call.drops, grant]
      · exact absurd (hidle ▸ hst) (by cases c <;> simp [StageOf])

end Ilist

end Micronix
