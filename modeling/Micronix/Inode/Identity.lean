import Micronix.Inode.Locks

/-!
# What `iget` returns, and who is woken

The steps that are `Careful` keep the invariant, so in every state they reach an `iget` that
returns gave its caller a slot that it has locked and that carries what it asked for, and every
process asleep in `ilock` is counted and will be woken.
-/

namespace Micronix

/-- The slot that a process will claim once it is written. -/
def Stage.claims : Stage → Option ℕ
  | getWrite i _ => some i
  | _ => none

/-- The slot into which a process reads. -/
def Stage.reads : Stage → Option ℕ
  | getRead i _ => some i
  | _ => none

namespace Ilist

variable {s s' : Ilist} {i j p : ℕ} {r : Request} {k : Stage} {d : Option Bytes}

lemma LastOk.of_none (h : s.last = none) : LastOk s := by
  intro p r i e
  rw [h] at e
  exact absurd e (by simp)

lemma Inv.ret (h : Inv s) (o : Option ℕ) : Inv (s.ret p r o) :=
  ⟨h.busy, h.hold, h.asleep, h.counted, h.stage⟩

lemma LastOk.ret_none (s : Ilist) : LastOk (s.ret p r none) := by
  intro q r' i e
  simp only [Ilist.ret, Option.some.injEq, Prod.mk.injEq] at e
  exact absurd e.2.2 (by simp)

/-! ## `iget` -/

/-- Taking a slot over. -/
lemma claim_spec (h : Inv s) (hp : s.stage p = .idle) (hl : s.last = none)
    (ho : s.own i = some p) (hc : (s.slot i).count = 0)
    (hr : r.Ok) (he : s.claim p i r = some s') :
    Inv s' ∧ LastOk s' := by
  obtain ⟨bad, -, rfl⟩ := Option.map_eq_some_iff.mp he
  have ht : Inv (s.retag i r) := h.retag hp ho hc
  split_ifs
  · refine ⟨(ht.giveUp hp ho ?_).ret none, .ret_none _⟩
    rw [retag, modSlot_self]
  · have htag : (s.retag i r).tag i = r.wanted := by
      rw [tag, retag, modSlot_self]
      rfl
    have hw : (s.stage p).waits = none := by rw [hp]; rfl
    refine ⟨(ht.iio _).goto (k := .getRead i r) hw rfl ?_ ⟨?_, hr⟩, .of_none hl⟩
    · rintro j ⟨⟩
      exact ho
    · exact ((s.retag i r).iio_tag i i).trans htag

/-- **`iget`**, by induction on the mounted roots it goes through. -/
lemma iget_spec (fuel : ℕ) : ∀ {s : Ilist} {r : Request}, Inv s → s.stage p = .idle →
    s.last = none → (∀ i < s.n, (s.slot i).count < 255) → r.Ok →
    iget p fuel s r = some s' → Inv s' ∧ LastOk s' := by
  induction fuel with
  | zero =>
      intro s r _ _ _ _ _ he
      exact absurd he (by simp [iget])
  | succ fuel ih =>
      intro s r h hp hl hc hr he
      have hw : (s.stage p).waits = none := by rw [hp]; rfl
      rw [iget] at he
      cases hh : s.hit r.num r.dev with
      | some i =>
          obtain ⟨hi, htag⟩ := hit_spec hh
          rw [hh] at he
          dsimp only at he
          split_ifs at he with hb
          · simp only [Option.some.injEq] at he
            subst he
            exact ⟨h.await hp hb (hc i hi) rfl ⟨htag, hr⟩, .of_none hl⟩
          · have ht : Inv (s.lock p i) := h.lock hp (by simpa using hb)
            have hown := s.lock_own p i
            have htag' : (s.lock p i).tag i = r.wanted := (s.lock_tag i i p).trans htag
            unfold found at he
            split at he
            · -- the root of what is mounted here
              rename_i d hm
              obtain ⟨-, -, hstage, hlast, -⟩ := (s.lock p i).irelse_rest i
              refine ih (ht.irelse hp hown) (by rw [hstage]; exact hp) (by rw [hlast]; exact hl)
                (fun j hj => ?_) ?_ he
              · rw [irelse_n] at hj
                have hcj : ((s.lock p i).slot j).count < 255 := by
                  by_cases hji : j = i
                  · subst hji
                    rw [lock_self]
                    exact hc j hj
                  · rw [lock_ne s p hji]
                    exact hc j hj
                by_cases hji : j = i
                · subst hji
                  obtain ⟨t, e⟩ := (s.lock p j).irelse_self j
                  rw [e]
                  exact hcj
                · obtain ⟨t, e⟩ := (s.lock p i).irelse_other hji
                  rw [e]
                  exact hcj
              · refine ⟨?_, rfl⟩
                rw [show (((s.lock p i).slot i).inum, ((s.lock p i).slot i).dev) = r.wanted from htag']
                exact hr
            · simp only [Option.some.injEq] at he
              subst he
              refine ⟨ht.ret _, fun q r' j e => ?_⟩
              simp only [ret, Option.some.injEq, Prod.mk.injEq] at e
              obtain ⟨rfl, rfl, rfl⟩ := e
              refine ⟨hown, (ht.busy_of_own hown), ?_⟩
              rw [show ((s.lock p i).ret p r (some i)).tag i = (s.lock p i).tag i from rfl, htag']
              exact hr
      | none =>
          rw [hh] at he
          dsimp only at he
          split at he
          · simp only [Option.some.injEq] at he
            subst he
            exact ⟨h.ret none, .ret_none _⟩
          · rename_i f hf
            obtain ⟨hcf, hbf⟩ := victim_spec hf
            have ht : Inv (s.lock p f) := h.lock hp hbf
            have hown := s.lock_own p f
            split_ifs at he
            · obtain ⟨bad, -, rfl⟩ := Option.map_eq_some_iff.mp he
              split_ifs
              · exact ⟨(ht.irelse hp hown).ret none, .ret_none _⟩
              · refine ⟨(ht.iio _).goto
                  (k := .getWrite f r) hw rfl ?_ hr, .of_none hl⟩
                rintro j ⟨⟩
                exact hown
            · refine claim_spec ht hp hl hown ?_ hr he
              rw [lock_self]
              exact hcf

/-! ## `isync` and `iflush` -/

lemma isync_spec (left : ℕ) : ∀ {s : Ilist}, Inv s → s.stage p = .idle → s.last = none →
    isync p left s = some s' → Inv s' ∧ LastOk s' := by
  induction left with
  | zero =>
      intro s h _ hl he
      simp only [isync, Option.some.injEq] at he
      exact he ▸ ⟨h, .of_none hl⟩
  | succ left ih =>
      intro s h hp hl he
      rw [isync] at he
      dsimp only at he
      split_ifs at he with hm
      · have hw : (s.stage p).waits = none := by rw [hp]; rfl
        have ht := h.lock (i := s.n - (left + 1)) hp hm.2
        have hown := s.lock_own p (s.n - (left + 1))
        split at he
        · exact absurd he (by simp)
        · obtain ⟨-, -, hstage, hlast, -⟩ :=
            (s.lock p (s.n - (left + 1))).irelse_rest (s.n - (left + 1))
          exact ih (ht.irelse hp hown) (by rw [hstage]; exact hp) (by rw [hlast]; exact hl) he
        · simp only [Option.some.injEq] at he
          subst he
          refine ⟨(ht.iio _).goto
            (k := .syncWrite (s.n - (left + 1))) hw rfl ?_ trivial, .of_none hl⟩
          rintro j ⟨⟩
          exact hown
      · exact ih h hp hl he

/-- `iflush` when no inode of the device is in use, locked or modified. -/
lemma iflush_spec {dev : ℕ} (left : ℕ) : ∀ {s : Ilist}, Inv s → s.stage p = .idle →
    s.last = none → left ≤ s.n → (∀ i, s.n - left ≤ i → i < s.n → (s.slot i).dev = dev →
      (s.slot i).count = 0 ∧ (s.slot i).busy = false ∧ (s.slot i).mod = false) →
    iflush p dev left s = some s' → Inv s' ∧ LastOk s' := by
  induction left with
  | zero =>
      intro s h _ hl _ _ he
      simp only [iflush, Option.some.injEq] at he
      exact he ▸ ⟨h, .of_none hl⟩
  | succ left ih =>
      intro s h hp hl hn hfree he
      rw [iflush] at he
      dsimp only at he
      set i := s.n - (left + 1) with hi
      have hlater : ∀ j, s.n - left ≤ j → j < s.n → s.n - (left + 1) ≤ j ∧ j < s.n ∧ j ≠ i :=
        fun j h1 h2 => ⟨by omega, h2, by omega⟩
      split_ifs at he with hd hb hm
      · have := (hfree i le_rfl (by omega) hd).2.1
        rw [hb] at this
        exact absurd this (by simp)
      · have hslot : (s.lock p i).slot i = { s.slot i with busy := true } := Function.update_self ..
        rw [hslot] at hm
        have := (hfree i le_rfl (by omega) hd).2.2
        rw [show (s.slot i).mod = true from hm] at this
        exact absurd this (by simp)
      · obtain ⟨hc0, hb0, -⟩ := hfree i le_rfl (by omega) hd
        have ht := h.lock (i := i) hp hb0
        have hown := s.lock_own p i
        obtain ⟨-, -, hstage, hlast, -⟩ := (s.lock p i).irelse_rest i
        have hnn : ((s.lock p i).expel i).n = s.n := (s.lock p i).irelse_n i
        have hc1 : ((s.lock p i).slot i).count = 0 := by
          rw [lock_self]
          exact hc0
        refine ih (ht.expel hp hown hc1)
          ((congrFun hstage p).trans hp) (hlast.trans hl) (by rw [hnn]; omega) (fun j h1 h2 => ?_) he
        rw [hnn] at h1 h2
        obtain ⟨h3, -, hji⟩ := hlater j h1 h2
        obtain ⟨t, e⟩ := (s.lock p i).irelse_other hji
        have e' : ((s.lock p i).expel i).slot j = { s.slot j with time := t } := by
          refine (modSlot_ne _ _ hji).trans (e.trans ?_)
          rw [lock_ne s p hji]
        rw [e']
        exact hfree j h3 h2
      · exact ih h hp hl (by omega) (fun j h1 h2 => hfree j (hlater j h1 h2).1 h2) he

/-! ## One step -/

/-- The steps that do not go wrong: `irelse` and `idec` release what the caller has locked, no count
gets to 255, and a slot has count 0 when it is given to another inode or zeroed: when `iget` has
written its victim, when its read has failed, and when `iflush` is called. -/
def Careful (s : Ilist) : Label → Prop
  | .call _ (.iget _ _) => ∀ i < s.n, (s.slot i).count < 255
  | .call _ (.ilock i) | .ref i => (s.slot i).count < 255
  | .call p (.irelse i) | .call p (.idec i) => s.own i = some p
  | .call _ (.iflush dev) => ∀ i < s.n, (s.slot i).dev = dev →
      (s.slot i).count = 0 ∧ (s.slot i).busy = false ∧ (s.slot i).mod = false
  | .run p d => (∀ i < s.n, (s.slot i).count < 255) ∧
      (∀ i ∈ (s.stage p).claims, d.isSome → (s.slot i).count = 0) ∧
      ∀ i ∈ (s.stage p).reads, d = none → (s.slot i).count = 0
  | .call _ .isync | .unref _ | .modify .. | .graft .. | .prune _ | .mtab .. => True

instance (s : Ilist) : ∀ l, Decidable (s.Careful l)
  | .call _ (.iget _ _) => inferInstanceAs (Decidable (∀ i < s.n, _ < 255))
  | .call _ (.ilock _) | .ref _ => inferInstanceAs (Decidable (_ < 255))
  | .call _ (.irelse _) | .call _ (.idec _) => inferInstanceAs (Decidable (_ = some _))
  | .call _ (.iflush _) => inferInstanceAs (Decidable (∀ i < s.n, _ = _ → _ = 0 ∧ _ = _ ∧ _ = _))
  | .run p d => inferInstanceAs (Decidable ((∀ i < s.n, _ < 255) ∧
      (∀ i ∈ (s.stage p).claims, d.isSome = true → (s.slot i).count = 0) ∧
      ∀ i ∈ (s.stage p).reads, d = none → (s.slot i).count = 0))
  | .call _ .isync | .unref _ | .modify .. | .graft .. | .prune _ | .mtab .. => .isTrue trivial

/-- The process that goes on from a stage where it waits for no slot. -/
lemma Inv.toIdle (h : Inv s) (hp : (s.stage p).waits = none) : Inv (s.goto p .idle) :=
  h.goto hp rfl (fun _ hj => absurd hj (by simp [Stage.holds])) trivial

lemma resume_spec (h : Inv s) (hl : s.last = none) (he : s.event p = none)
    (hc : s.Careful (.run p d)) (hs : (s.goto p .idle).resume p (s.stage p) d = some s') :
    Inv s' ∧ LastOk s' := by
  obtain ⟨hlow, hclaim, hread⟩ := hc
  have hst := h.stage p
  have hidle : (s.goto p .idle).stage p = .idle := Function.update_self ..
  cases hk : s.stage p with
  | idle =>
      rw [hk] at hs
      exact absurd hs (by simp [resume])
  | getWait i r =>
      have hw : (s.stage p).waits = some i := by rw [hk]; rfl
      rw [hk] at hs hst
      rw [resume] at hs
      split_ifs at hs with hb
      · simp only [Option.some.injEq] at hs
        have hi := h.sleep hw hb
        rw [hk] at hi
        exact hs ▸ ⟨hi, .of_none hl⟩
      · have ht := h.relock hw he (Bool.eq_false_iff.mpr hb)
        set t := (s.goto p .idle).relock p i with htd
        have hown : t.own i = some p := Function.update_self ..
        have htag : t.tag i = r.wanted := ((s.goto p .idle).relock_tag i i p).trans hst.1
        have hcount : ∀ j < t.n, (t.slot j).count < 255 := by
          intro j hj
          by_cases hji : j = i
          · subst hji
            have e : (t.slot j).count = ((s.slot j).count + 255) % 256 := by
              simp [htd, relock, lock, Ilist.goto, modSlot]
            have := hlow j hj
            rw [e]
            by_cases h0 : (s.slot j).count = 0
            · exact absurd ((h.counted j).no_waits h0).2 (by
                push Not
                exact ⟨p, hw⟩)
            · omega
          · have e : t.slot j = s.slot j := by
              simp [htd, relock, lock, Ilist.goto, modSlot, hji]
            rw [e]
            exact hlow j hj
        unfold found at hs
        split at hs
        · rename_i d' hm
          obtain ⟨-, -, hstage, hlast, -⟩ := t.irelse_rest i
          refine iget_spec _ (ht.irelse hidle hown) (by rw [hstage]; exact hidle)
            (by rw [hlast]; exact hl) (fun j hj => ?_) ?_ hs
          · rw [irelse_n] at hj
            by_cases hji : j = i
            · subst hji
              obtain ⟨u, e⟩ := t.irelse_self j
              rw [e]
              exact hcount j hj
            · obtain ⟨u, e⟩ := t.irelse_other hji
              rw [e]
              exact hcount j hj
          · refine ⟨?_, rfl⟩
            rw [show ((t.slot i).inum, (t.slot i).dev) = r.wanted from htag]
            exact hst.2
        · simp only [Option.some.injEq] at hs
          subst hs
          refine ⟨ht.ret _, fun q r' j e => ?_⟩
          simp only [ret, Option.some.injEq, Prod.mk.injEq] at e
          obtain ⟨rfl, rfl, rfl⟩ := e
          refine ⟨hown, ht.busy_of_own hown, ?_⟩
          rw [show (t.ret p r (some i)).tag i = t.tag i from rfl, htag]
          exact hst.2
  | getWrite i r =>
      have ho := h.hold p i (by rw [hk]; rfl)
      have hi := h.toIdle (p := p) (by rw [hk]; rfl)
      rw [hk] at hs hst
      rw [resume] at hs
      split_ifs at hs with hd
      · have h0 := hclaim i (by rw [hk]; rfl) hd
        refine claim_spec (hi.writeNode i) hidle hl ho ?_ hst hs
        rw [writeNode, modSlot_self]
        exact h0
      · simp only [Option.some.injEq] at hs
        exact hs ▸ ⟨(hi.irelse hidle ho).ret none, .ret_none _⟩
  | getRead i r =>
      have ho := h.hold p i (by rw [hk]; rfl)
      have hi := h.toIdle (p := p) (by rw [hk]; rfl)
      rw [hk] at hs hst
      cases d with
      | some d =>
          simp only [resume, Option.some.injEq] at hs
          subst hs
          have ht := hi.readNode i d
          refine ⟨ht.ret _, fun q r' j e => ?_⟩
          simp only [ret, Option.some.injEq, Prod.mk.injEq] at e
          obtain ⟨rfl, rfl, rfl⟩ := e
          refine ⟨ho, ht.busy_of_own ho, ?_⟩
          rw [show (((s.goto p .idle).readNode i d).ret p r (some i)).tag i = r.wanted from
            ((s.goto p .idle).readNode_tag i i d).trans hst.1]
          exact hst.2
      | none =>
          simp only [resume, Option.some.injEq] at hs
          exact hs ▸ ⟨(hi.giveUp hidle ho (hread i (by rw [hk]; rfl) rfl)).ret none, .ret_none _⟩
  | lockWait i a =>
      have hw : (s.stage p).waits = some i := by rw [hk]; rfl
      rw [hk] at hs
      simp only [resume, Option.some.injEq] at hs
      split_ifs at hs with hb
      · have hi := h.sleep hw hb
        rw [hk] at hi
        exact hs ▸ ⟨hi, .of_none hl⟩
      · exact hs ▸ ⟨h.relock hw he (Bool.eq_false_iff.mpr hb), .of_none hl⟩
  | freeing i =>
      have ho := h.hold p i (by rw [hk]; rfl)
      have hi := h.toIdle (p := p) (by rw [hk]; rfl)
      rw [hk] at hs
      simp only [resume, Option.some.injEq] at hs
      obtain ⟨-, -, -, hlast, -⟩ := ((s.goto p .idle).ifree i).irelse_rest i
      exact hs ▸ ⟨(hi.ifree i).irelse hidle ho, .of_none (hlast.trans hl)⟩
  | syncWrite i =>
      have ho := h.hold p i (by rw [hk]; rfl)
      have hi := h.toIdle (p := p) (by rw [hk]; rfl)
      rw [hk] at hs
      rw [resume] at hs
      have ht : Inv (if d.isSome then (s.goto p .idle).writeNode i else s.goto p .idle) := by
        split_ifs
        · exact hi.writeNode i
        · exact hi
      have hfields : ∀ t, t = (if d.isSome then (s.goto p .idle).writeNode i else s.goto p .idle) →
          t.stage p = .idle ∧ t.own i = some p ∧ t.last = none := by
        rintro t rfl
        split_ifs <;> exact ⟨hidle, ho, hl⟩
      obtain ⟨h1, h2, h3⟩ := hfields _ rfl
      generalize (if d.isSome then (s.goto p .idle).writeNode i else s.goto p .idle) = t at *
      obtain ⟨-, -, hstage, hlast, -⟩ := t.irelse_rest i
      exact isync_spec _ (ht.irelse h1 h2) (by rw [hstage]; exact h1) (by rw [hlast]; exact h3) hs
  | flushWait i dev =>
      rw [hk] at hst
      exact hst.elim
  | flushWrite i dev =>
      rw [hk] at hst
      exact hst.elim

lemma call_spec {c : Call} (h : Inv s) (hl : s.last = none) (hp : s.stage p = .idle)
    (hc : s.Careful (.call p c)) (he : s.call p c = some s') : Inv s' ∧ LastOk s' := by
  cases c with
  | iget num dev =>
      exact iget_spec _ (r := ⟨num, dev, (num, dev), []⟩) h hp hl hc rfl he
  | ilock i =>
      simp only [call, Option.some.injEq] at he
      split_ifs at he with hb
      · exact he ▸ ⟨h.await hp hb hc rfl rfl, .of_none hl⟩
      · exact he ▸ ⟨h.lock hp (Bool.eq_false_iff.mpr hb), .of_none hl⟩
  | irelse i =>
      simp only [call, Option.some.injEq] at he
      obtain ⟨-, -, -, hlast, -⟩ := s.irelse_rest i
      exact he ▸ ⟨h.irelse hp hc, .of_none (hlast.trans hl)⟩
  | idec i =>
      simp only [call, Option.some.injEq, idec] at he
      split_ifs at he
      · have hw : (s.stage p).waits = none := by rw [hp]; rfl
        subst he
        refine ⟨h.goto (k := .freeing i) hw rfl ?_ trivial, .of_none hl⟩
        rintro j ⟨⟩
        exact hc
      · obtain ⟨-, -, -, hlast, -⟩ := s.irelse_rest i
        exact he ▸ ⟨h.irelse hp hc, .of_none (hlast.trans hl)⟩
  | isync => exact isync_spec _ h hp hl he
  | iflush dev => exact iflush_spec _ h hp hl le_rfl (fun i _ hi => hc i hi) he

/-- **The step lemma.** -/
theorem step_spec {l : Label} (h : Inv s) (hc : Careful s l) (he : s.step l = some s') :
    Inv s' ∧ LastOk s' := by
  set t : Ilist := { s with last := none } with ht
  have hi : Inv t := ⟨h.busy, h.hold, h.asleep, h.counted, h.stage⟩
  have hl : t.last = none := rfl
  unfold step at he
  rw [← ht] at he
  cases l with
  | call p c =>
      dsimp only at he
      split_ifs at he with hp
      refine call_spec hi hl ?_ hc he
      cases hk : t.stage p with
      | idle => rfl
      | _ => rw [hk] at hp; exact absurd hp (by simp [Stage.isIdle])
  | ref i =>
      simp only [Option.some.injEq] at he
      subst he
      have hself : (t.ref i).slot i = { t.slot i with count := ((t.slot i).count + 1) % 256 } :=
        Function.update_self ..
      refine ⟨hi.update (i := i) (fun j hj => Function.update_of_ne hj ..) (by rw [hself])
        (by rw [hself]) (t.ref_tag i i) rfl rfl rfl (fun j hj => Function.update_of_ne hj ..)
        ?_, .of_none hl⟩
      obtain ⟨⟨W, hW, e⟩, -⟩ := hi.counted i
      have hrefs : (t.ref i).refs i = t.refs i + 1 := Function.update_self ..
      refine ⟨⟨W, hW, ?_⟩, by rw [hself]; exact Nat.mod_lt _ (by decide)⟩
      have hlt : (t.slot i).count < 255 := hc
      rw [hself, hrefs]
      change ((t.slot i).count + 1) % 256 = _
      omega
  | unref i =>
      dsimp only at he
      split_ifs at he with hpos
      simp only [Option.some.injEq] at he
      subst he
      have hself : (t.unref i).slot i
          = { t.slot i with count := ((t.slot i).count + 255) % 256 } := Function.update_self ..
      refine ⟨hi.update (i := i) (fun j hj => Function.update_of_ne hj ..) (by rw [hself])
        (by rw [hself]) (t.unref_tag i i) rfl rfl rfl (fun j hj => Function.update_of_ne hj ..)
        ?_, .of_none hl⟩
      obtain ⟨⟨W, hW, e⟩, hlt⟩ := hi.counted i
      have hrefs : (t.unref i).refs i = t.refs i - 1 := Function.update_self ..
      refine ⟨⟨W, hW, ?_⟩, by rw [hself]; exact Nat.mod_lt _ (by decide)⟩
      rw [hself, hrefs]
      change ((t.slot i).count + 255) % 256 = _
      omega
  | modify i d z =>
      simp only [Option.some.injEq] at he
      exact he ▸ ⟨hi.modify i d z, .of_none hl⟩
  | graft i d =>
      simp only [Option.some.injEq] at he
      exact he ▸ ⟨hi.graft i d, .of_none hl⟩
  | prune i =>
      simp only [Option.some.injEq] at he
      exact he ▸ ⟨hi.prune i, .of_none hl⟩
  | mtab dev m =>
      simp only [Option.some.injEq] at he
      subst he
      exact ⟨⟨hi.busy, hi.hold, hi.asleep, hi.counted, hi.stage⟩, .of_none hl⟩
  | run p d =>
      dsimp only at he
      split_ifs at he with hev
      exact resume_spec hi hl hev hc he

/-! ## Every run -/

lemma Quiet.inv (h : Quiet s) : Inv s where
  busy i := by simp [h.busy i, h.own i]
  hold p i hi := absurd hi (by simp [h.stage p, Stage.holds])
  asleep p i hi := absurd hi (by simp [h.event p])
  counted i := ⟨⟨∅, fun p => by simp [h.stage p, Stage.waits], by simp [(h.count i).1]⟩,
    by rw [(h.count i).1]; exact (h.count i).2⟩
  stage p := by rw [h.stage p]; trivial

/-- The invariant in every state reached by careful steps. -/
lemma reach_inv (h : Transition.Reach step Quiet Careful s) : Inv s ∧ LastOk s :=
  h.invariant (fun _ ht => ⟨ht.inv, .of_none ht.last⟩) fun _ _ _ hi hc he => step_spec hi.1 hc he

/-- **What `iget` returns.**  In every run of careful steps, a process to which `iget` has returned
a slot has it locked, and the slot carries the inode asked for or the root of what was mounted on
it. -/
theorem iget_identity (h : Transition.Reach step Quiet Careful s) (p : ℕ) (r : Request) (i : ℕ)
    (hl : s.last = some (p, r, some i)) :
    s.own i = some p ∧ (s.slot i).busy = true ∧ Resolves r.via r.orig (s.tag i) :=
  (reach_inv h).2 p r i hl

/-- A process looks inode 5 of device 1 up while the root of device 3 is mounted on it. -/
theorem full_identity : ∃ (s : Ilist) (p : ℕ) (r : Request) (i : ℕ),
    r.orig = (5, 1) ∧ s.tag i = (1, 3) ∧
      s.own i = some p ∧ (s.slot i).busy = true ∧ Resolves r.via r.orig (s.tag i) := by
  have hrun : (Transition.run step Careful (full 50)
      [.mtab 3 (some ⟨20, false⟩), .call 1 (.iget 5 1), .graft 3 3, .ref 3, .call 1 (.irelse 3),
        .call 2 (.iget 5 1), .run 2 (some plain), .run 2 (some plain)]).map
      (fun s => (s.last.map fun x => (x.1, x.2.1.orig, x.2.2), s.tag 0))
      = some (some (2, (5, 1), some 0), (1, 3)) := by
    decide +kernel
  obtain ⟨s, hs, e⟩ := Option.map_eq_some_iff.mp hrun
  simp only [Prod.mk.injEq, Option.map_eq_some_iff] at e
  obtain ⟨⟨⟨p, r, o⟩, hl, hp, hr, ho⟩, ht⟩ := e
  subst hp
  subst ho
  exact ⟨s, 2, r, 0, hr, ht,
    iget_identity (.of_run (quiet_full 50) hs) 2 r 0 hl⟩

/-- Process 1 takes the slot of inode 2 over for inode 60 and has to write inode 2 first; meanwhile
process 2 asks for inode 2, finds it in that slot and waits.  When process 1 is done, process 2 gets
inode 60. -/
theorem iget_wrong_inode : ∃ s : Ilist, Transition.Reachable step Quiet s ∧
    ∃ p r i, s.last = some (p, r, some i) ∧ ¬Resolves r.via r.orig (s.tag i) := by
  have hrun : (Transition.run step (fun _ _ => True) (full 50)
      [.call 1 (.iget 60 1), .call 2 (.iget 2 1), .run 1 (some plain), .run 1 (some plain),
        .call 1 (.irelse 0), .run 2 none]).map
      (fun s => (s.last.map fun x => (x.2.1.orig, x.2.1.via.isEmpty, x.2.2), s.tag 0))
      = some (some ((2, 1), true, some 0), (60, 1)) := by
    decide +kernel
  obtain ⟨s, hs, e⟩ := Option.map_eq_some_iff.mp hrun
  simp only [Prod.mk.injEq, Option.map_eq_some_iff] at e
  obtain ⟨⟨⟨p, r, o⟩, hl, hr, hv, rfl⟩, ht⟩ := e
  refine ⟨s, .of_run (quiet_full 50) hs, p, r, 0, hl, fun hres => ?_⟩
  rw [List.isEmpty_iff.mp hv, ht, show r.orig = (2, 1) from hr] at hres
  exact absurd (show ((2, 1) : ℕ × ℕ) = (60, 1) from hres) (by decide)

/-- No wake-up is lost: whoever sleeps in `ilock` on a slot has set `IWANT` in it while it is
locked, and is among the processes that its count counts; the `irelse` that unlocks the slot leaves
nobody asleep on it; and the slot still carries the inode for which a process waits. -/
structure NoLostWakeup (s : Ilist) : Prop where
  want : ∀ p i, s.event p = some i → (s.slot i).busy = true ∧ (s.slot i).want = true
  counted : ∀ i, ∃ W : Finset ℕ, (∀ p, (s.stage p).waits = some i → p ∈ W) ∧
    W.card ≤ (s.slot i).count
  waits : ∀ p i, s.event p = some i → (s.stage p).waits = some i
  wakes : ∀ i p, (s.irelse i).event p ≠ some i
  tag : ∀ p i a, s.stage p = .lockWait i a → s.tag i = a
  wanted : ∀ p i r, s.stage p = .getWait i r → s.tag i = (r.num, r.dev)

/-- **No lost inode wake-up** in any state reached by careful steps. -/
theorem no_lost_wakeup (h : Transition.Reach step Quiet Careful s) : NoLostWakeup s := by
  obtain ⟨hi, -⟩ := reach_inv h
  refine ⟨fun p i he => (hi.asleep p i he).2, fun i => ?_, fun p i he => (hi.asleep p i he).1,
    hi.irelse_wakes, fun p i a hk => ?_, fun p i r hk => ?_⟩
  · obtain ⟨⟨W, hW, e⟩, -⟩ := hi.counted i
    exact ⟨W, fun p hp => (hW p).mpr hp, by omega⟩
  · have := hi.stage p
    rw [hk] at this
    exact this
  · have := hi.stage p
    rw [hk] at this
    exact this.1

/-- Two processes sleep on the slot that a third has locked. -/
theorem full_no_lost_wakeup : ∃ s : Ilist, s.event 2 = some 0 ∧ s.event 3 = some 0 ∧
    NoLostWakeup s := by
  have hrun : (Transition.run step Careful (full 50)
      [.call 1 (.iget 2 1), .call 2 (.iget 2 1), .call 3 (.ilock 0)]).map
      (fun s => (s.event 2, s.event 3)) = some (some 0, some 0) := by
    decide +kernel
  obtain ⟨s, hs, e⟩ := Option.map_eq_some_iff.mp hrun
  simp only [Prod.mk.injEq] at e
  exact ⟨s, e.1, e.2, no_lost_wakeup (.of_run (quiet_full 50) hs)⟩

/-- A process that waits for a slot which `iget` takes over is no longer counted; and when the read
fails nothing says any more that it sleeps there: it is never woken. -/
theorem iget_loses_sleeper :
    (∃ s : Ilist, Transition.Reachable step Quiet s ∧ s.event 2 = some 0 ∧ ¬NoLostWakeup s) ∧
    ∃ s : Ilist, Transition.Reachable step Quiet s ∧ s.event 2 = some 0 ∧
      (s.slot 0).busy = false ∧ (s.irelse 0).event 2 = some 0 := by
  constructor
  · have hrun : (Transition.run step (fun _ _ => True) (full 50)
        [.call 1 (.iget 60 1), .call 2 (.iget 2 1), .run 1 (some plain)]).map
        (fun s => (s.event 2, (s.slot 0).count)) = some (some 0, 0) := by
      decide +kernel
    obtain ⟨s, hs, e⟩ := Option.map_eq_some_iff.mp hrun
    simp only [Prod.mk.injEq] at e
    refine ⟨s, .of_run (quiet_full 50) hs, e.1, fun hn => ?_⟩
    obtain ⟨W, hW, hle⟩ := hn.counted 0
    have hW0 : W = ∅ := Finset.card_eq_zero.mp (by omega)
    have := hW 2 (hn.waits 2 0 e.1)
    rw [hW0] at this
    exact absurd this (Finset.notMem_empty 2)
  · have hrun : (Transition.run step (fun _ _ => True) (full 50)
        [.call 1 (.iget 60 1), .call 2 (.iget 2 1), .run 1 (some plain), .run 1 none]).map
        (fun s => (s.event 2, (s.slot 0).busy, (s.irelse 0).event 2))
        = some (some 0, false, some 0) := by
      decide +kernel
    obtain ⟨s, hs, e⟩ := Option.map_eq_some_iff.mp hrun
    simp only [Prod.mk.injEq] at e
    exact ⟨s, .of_run (quiet_full 50) hs, e⟩

end Ilist

end Micronix
