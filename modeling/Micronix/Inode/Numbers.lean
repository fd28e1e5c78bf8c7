import Micronix.Inode.Mutex

/-!
# Which inodes the list works on, and for whom `iget` waits

Every inode number in the list was there before, is that of the inode for which `iget` was called,
that of a mounted root, or zero.  `iget` waits only for a slot that carries the inode it looks for,
or the root of a file system mounted there.
-/

namespace Micronix

/-- The number of the inode that a process looks for in `iget`. -/
def Stage.seeks : Stage → Option ℕ
  | getWait _ r | getWrite _ r | getRead _ r => some r.num
  | idle | lockWait _ _ | freeing _ | syncWrite _ | flushWait _ _ | flushWrite _ _ => none

namespace Ilist

variable {P : ℕ → Prop} {s s' t : Ilist} {i p : ℕ} {r : Request}

/-! ## Inode numbers -/

/-- The inodes in core, and the one that process `p` looks for, have property `P`. -/
def Known (P : ℕ → Prop) (s : Ilist) (p : ℕ) : Prop :=
  (∀ i, P (s.slot i).inum) ∧ ∀ num, (s.stage p).seeks = some num → P num

/-- What keeps the tags keeps the property, which holds of zero. -/
lemma Keeps.inum (h0 : P 0) (h : ∀ i, P (s.slot i).inum) (hk : Keeps s s') (i : ℕ) :
    P (s'.slot i).inum := by
  rcases hk.tag i with e | e
  · have : (s'.slot i).inum = (s.slot i).inum := congrArg Prod.fst e
    exact this ▸ h i
  · exact e ▸ h0

/-- The slots have kept their inodes and the process looks for none. -/
lemma Known.of_keeps (h0 : P 0) (h : ∀ i, P (s.slot i).inum) (hk : Keeps s s')
    (hs : (s'.stage p).seeks = none) : Known P s' p :=
  ⟨hk.inum h0 h, fun num e => absurd e (by simp [hs])⟩

/-- The slots have kept their inodes and the process looks for that of `r`. -/
lemma Known.of_request (h0 : P 0) (h : ∀ i, P (s.slot i).inum) (hk : Keeps s s') (hr : P r.num)
    (hs : (s'.stage p).seeks = some r.num) : Known P s' p := by
  refine ⟨hk.inum h0 h, fun num e => ?_⟩
  obtain rfl : r.num = num := by simpa [hs] using e
  exact hr

lemma irelse_stage (s : Ilist) (i : ℕ) : (s.irelse i).stage = s.stage := (s.irelse_rest i).2.2.1

lemma giveUp_stage (s : Ilist) (p i : ℕ) (r : Request) : (s.giveUp p i r).stage = s.stage :=
  irelse_stage _ i

lemma Known.claim (h0 : P 0) (h : ∀ i, P (s.slot i).inum) (hr : P r.num) (hp : s.stage p = .idle)
    (he : s.claim p i r = some s') : Known P s' p := by
  obtain ⟨bad, -, rfl⟩ := Option.map_eq_some_iff.mp he
  have ht : ∀ j, P ((s.retag i r).slot j).inum := by
    intro j
    by_cases hj : j = i
    · subst hj
      simpa [retag] using hr
    · rw [show (s.retag i r).slot j = s.slot j from modSlot_ne s _ hj]
      exact h j
  split_ifs
  · refine .of_keeps h0 ht (.giveUp _ p i r) ?_
    rw [giveUp_stage, show (s.retag i r).stage p = .idle from hp]
    rfl
  · refine .of_request (r := r) h0 ht (.of_tag rfl fun j => by simp) hr ?_
    simp [goto, Stage.seeks]

/-- **`iget`**, by induction on the mounted roots it goes through. -/
lemma Known.iget (h0 : P 0) (h1 : P 1) (fuel : ℕ) : ∀ {s : Ilist} {r : Request},
    (∀ i, P (s.slot i).inum) → P r.num → s.stage p = .idle → Ilist.iget p fuel s r = some s' →
    Known P s' p := by
  induction fuel with
  | zero =>
      intro s r _ _ _ he
      exact absurd he (by simp [Ilist.iget])
  | succ fuel ih =>
      intro s r h hr hp he
      rw [Ilist.iget] at he
      cases hh : s.hit r.num r.dev with
      | some i =>
          rw [hh] at he
          dsimp only at he
          split_ifs at he
          · obtain rfl := Option.some.inj he
            exact .of_request (r := r) h0 h (.of_tag rfl fun j => by simp) hr
              (by simp [await, sleep, goto, Stage.seeks])
          · have hl : Keeps s ((s.lock p i).irelse i) :=
              .of_tag (by simp [lock, modSlot]) fun j => by simp
            unfold found at he
            split at he
            · exact ih (hl.inum h0 h) h1 (by rw [irelse_stage]; exact hp) he
            · obtain rfl := Option.some.inj he
              refine .of_keeps h0 h (.of_tag rfl fun j => by simp) ?_
              rw [show ((s.lock p i).ret p r (some i)).stage p = .idle from hp]
              rfl
      | none =>
          rw [hh] at he
          dsimp only at he
          split at he
          · obtain rfl := Option.some.inj he
            refine .of_keeps h0 h (.of_tag rfl fun j => by simp) ?_
            rw [show (s.ret p r none).stage p = .idle from hp]
            rfl
          · rename_i f _
            have hl : Keeps s (s.lock p f) := .of_tag rfl fun j => by simp
            split_ifs at he
            · obtain ⟨bad, -, rfl⟩ := Option.map_eq_some_iff.mp he
              split_ifs
              · refine .of_keeps h0 h (hl.trans (.of_tag (by simp [ret]) fun j => by simp)) ?_
                rw [show (((s.lock p f).irelse f).ret p r none).stage = s.stage from
                  irelse_stage (s.lock p f) f, hp]
                rfl
              · exact .of_request (r := r) h0 h (hl.trans (.of_tag rfl fun j => by simp)) hr
                  (by simp [goto, Stage.seeks])
            · exact .claim h0 (hl.inum h0 h) hr hp he

lemma Known.found {again : Ilist → Request → Option Ilist} (h0 : P 0) (h1 : P 1)
    (h : ∀ i, P (s.slot i).inum) (hp : s.stage p = .idle)
    (hagain : ∀ t q, (∀ i, P (t.slot i).inum) → P q.num → t.stage p = .idle →
      again t q = some s' → Known P s' p)
    (he : s.found p i r again = some s') : Known P s' p := by
  unfold Ilist.found at he
  split at he
  · exact hagain _ _ ((Keeps.irelse s i).inum h0 h) h1 (by rw [irelse_stage]; exact hp) he
  · obtain rfl := Option.some.inj he
    refine .of_keeps h0 h (.of_tag rfl fun j => by simp) ?_
    rw [show (s.ret p r (some i)).stage p = .idle from hp]
    rfl

lemma Known.isync (h0 : P 0) (h : ∀ i, P (s.slot i).inum) (hl : Locked s) (hp : s.stage p = .idle)
    {left : ℕ} (he : Ilist.isync p left s = some s') : Known P s' p := by
  refine .of_keeps h0 h (.isync left he) ?_
  rcases (isync_out left hl hp he).2 with e | ⟨i, e⟩
  · rw [e]
    rfl
  · rw [e]
    rfl

/-- The calls of `iget.c` other than `idec` and `iflush`. -/
def Call.plain : Call → Prop
  | iget _ _ | ilock _ | irelse _ | isync => True
  | idec _ | iflush _ => False

/-- The inode for which `iget` is called. -/
def Call.num : Call → Option ℕ
  | iget num _ => some num
  | ilock _ | irelse _ | idec _ | isync | iflush _ => none

/-- **A call.** -/
lemma Known.call {c : Call} (h0 : P 0) (h1 : P 1) (hl : Locked s) (h : ∀ i, P (s.slot i).inum)
    (hc : c.plain) (hn : ∀ num, c.num = some num → P num) (hp : s.stage p = .idle)
    (he : s.step (.call p c) = some s') : Known P s' p := by
  set u : Ilist := { s with last := none } with hu
  have hup : u.stage p = .idle := hp
  unfold step at he
  rw [← hu] at he
  simp only [hup, Stage.isIdle, if_true] at he
  cases c with
  | iget num dev => exact .iget h0 h1 (s := u) _ h (hn num rfl) hup he
  | ilock i =>
      obtain rfl := Option.some.inj he
      split_ifs
      · exact .of_keeps (s := u) h0 h (.of_tag rfl fun j => by simp)
          (by simp [await, sleep, goto, Stage.seeks])
      · refine .of_keeps (s := u) h0 h (.of_tag rfl fun j => by simp) ?_
        rw [show (u.lock p i).stage p = .idle from hup]
        rfl
  | irelse i =>
      obtain rfl := Option.some.inj he
      refine .of_keeps (s := u) h0 h (.irelse u i) ?_
      rw [irelse_stage, hup]
      rfl
  | isync => exact .isync (s := u) h0 h hl hup he
  | idec i | iflush dev => exact absurd hc (by simp [Call.plain])

/-- **Going on in a call.** -/
lemma Known.run {c : Call} {d : Option Bytes} (h0 : P 0) (h1 : P 1) (hl : Locked s)
    (h : Known P s p) (hc : c.plain) (hst : StageOf c (s.stage p))
    (he : s.step (.run p d) = some s') : Known P s' p := by
  set u : Ilist := ({ s with last := none } : Ilist).goto p .idle with hu
  have hup : u.stage p = .idle := Function.update_self ..
  have hus : ∀ i, P (u.slot i).inum := h.1
  unfold step at he
  dsimp only at he
  split_ifs at he
  rw [← hu] at he
  have hnum := h.2
  cases hk : s.stage p with
  | idle =>
      rw [hk] at he
      exact absurd he (by simp [resume])
  | getWait i r =>
      rw [hk] at he hnum
      have hr : P r.num := hnum r.num rfl
      simp only [resume] at he
      split_ifs at he
      · obtain rfl := Option.some.inj he
        exact .of_request (r := r) h0 hus (.of_tag rfl fun j => by simp) hr
          (by simp [sleep, goto, Stage.seeks])
      · have hk' : Keeps u (u.relock p i) := .of_tag rfl fun j => by simp
        exact .found h0 h1 (hk'.inum h0 hus) hup (fun t q ht hq htp => .iget h0 h1 _ ht hq htp) he
  | getWrite i r =>
      rw [hk] at he hnum
      have hr : P r.num := hnum r.num rfl
      simp only [resume] at he
      split_ifs at he
      · have hk' : Keeps u (u.writeNode i) := .of_tag rfl fun j => by simp
        exact .claim h0 (hk'.inum h0 hus) hr hup he
      · obtain rfl := Option.some.inj he
        refine .of_keeps h0 hus (.of_tag (by simp [ret]) fun j => by simp) ?_
        rw [show ((u.irelse i).ret p r none).stage = u.stage from irelse_stage u i, hup]
        rfl
  | getRead i r =>
      rw [hk] at he
      cases d with
      | some d =>
          obtain rfl := Option.some.inj he
          refine .of_keeps h0 hus (.of_tag rfl fun j => by simp) ?_
          rw [show ((u.readNode i d).ret p r (some i)).stage p = .idle from hup]
          rfl
      | none =>
          obtain rfl := Option.some.inj he
          refine .of_keeps h0 hus (.giveUp u p i r) ?_
          rw [giveUp_stage, hup]
          rfl
  | lockWait i a =>
      rw [hk] at he
      obtain rfl := Option.some.inj he
      split_ifs
      · exact .of_keeps h0 hus (.of_tag rfl fun j => by simp)
          (by simp [sleep, goto, Stage.seeks])
      · refine .of_keeps h0 hus (.of_tag rfl fun j => by simp) ?_
        rw [show (u.relock p i).stage p = .idle from hup]
        rfl
  | freeing i =>
      rw [hk] at hst
      cases c <;> simp [StageOf, Call.plain] at hst hc
  | syncWrite i =>
      rw [hk] at he
      simp only [resume] at he
      have hw : Keeps u (if d.isSome then u.writeNode i else u) := by
        split_ifs
        · exact .of_tag rfl fun j => by simp
        · exact .refl u
      have hlw : Locked (if d.isSome then u.writeNode i else u) := by
        split_ifs
        · intro j
          rw [writeNode, busy_modSlot (i := i) _ rfl]
          exact hl j
        · exact hl
      have hwp : (if d.isSome then u.writeNode i else u).stage p = .idle := by
        split_ifs <;> exact hup
      exact .isync h0 ((Keeps.irelse _ i).inum h0 (hw.inum h0 hus)) (hlw.irelse (i := i)).1
        (by rw [irelse_stage]; exact hwp) he
  | flushWait i dev =>
      rw [hk] at hst
      cases c <;> simp [StageOf, Call.plain] at hst hc
  | flushWrite i dev =>
      rw [hk] at hst
      cases c <;> simp [StageOf, Call.plain] at hst hc

/-! ## For whom `iget` waits -/

/-- `iget` finds the slot of the inode locked, or that of the root of a file system mounted there. -/
def blocked : ℕ → Ilist → ℕ → ℕ → Bool
  | 0, _, _, _ => false
  | fuel + 1, s, num, dev =>
      match s.hit num dev with
      | none => false
      | some i => (s.slot i).busy ||
          match (s.slot i).mount with
          | none => false
          | some d => blocked fuel s 1 d

/-- It looks at the tags, the locks and the mounts. -/
lemma blocked_congr (hn : t.n = s.n) (ht : ∀ i, t.tag i = s.tag i)
    (hb : ∀ i, (t.slot i).busy = (s.slot i).busy) (hm : ∀ i, (t.slot i).mount = (s.slot i).mount)
    (fuel : ℕ) : ∀ num dev, blocked fuel t num dev = blocked fuel s num dev := by
  induction fuel with
  | zero => exact fun _ _ => rfl
  | succ fuel ih =>
      intro num dev
      rw [blocked, blocked, hit_congr hn ht]
      cases s.hit num dev with
      | none => rfl
      | some i =>
          dsimp only
          rw [hb i, hm i]
          cases (s.slot i).mount with
          | none => rfl
          | some d =>
              dsimp only
              rw [ih]

/-- Locking a free slot and releasing it changes only times. -/
lemma lock_irelse_slot (hb : (s.slot i).busy = false) (j : ℕ) :
    (((s.lock p i).irelse i).slot j).busy = (s.slot j).busy ∧
      (((s.lock p i).irelse i).slot j).mount = (s.slot j).mount := by
  by_cases hj : j = i
  · subst hj
    obtain ⟨u, e⟩ := (s.lock p j).irelse_self j
    rw [e, lock_self]
    exact ⟨hb.symm, rfl⟩
  · obtain ⟨u, e⟩ := (s.lock p i).irelse_other hj
    rw [e, lock_ne s p hj]
    exact ⟨rfl, rfl⟩

/-- Taking a locked slot over does not wait. -/
lemma claim_not_wait (hp : s.stage p = .idle) (he : s.claim p i r = some s') {j : ℕ} {q : Request} :
    s'.stage p ≠ .getWait j q := by
  obtain ⟨bad, -, rfl⟩ := Option.map_eq_some_iff.mp he
  split_ifs
  · rw [giveUp_stage, show (s.retag i r).stage p = .idle from hp]
    simp
  · simp [goto]

/-- **`iget` does not wait when the slots it needs are not locked.** -/
lemma iget_not_wait (fuel : ℕ) : ∀ {s : Ilist} {r : Request}, s.stage p = .idle →
    blocked fuel s r.num r.dev = false → iget p fuel s r = some s' →
    ∀ {j : ℕ} {q : Request}, s'.stage p ≠ .getWait j q := by
  induction fuel with
  | zero =>
      intro s r _ _ he
      exact absurd he (by simp [iget])
  | succ fuel ih =>
      intro s r hp hw he j q
      rw [iget] at he
      rw [blocked] at hw
      cases hh : s.hit r.num r.dev with
      | some i =>
          rw [hh] at he hw
          dsimp only at he hw
          obtain ⟨hb, hw⟩ := Bool.or_eq_false_iff.mp hw
          rw [if_neg (by simp [hb]), found] at he
          rw [show ((s.lock p i).slot i).mount = (s.slot i).mount by rw [lock_self]] at he
          cases hm : (s.slot i).mount with
          | some d =>
              rw [hm] at he hw
              dsimp only at he hw
              refine ih (by rw [irelse_stage]; exact hp) ?_ he
              rw [← hw]
              exact blocked_congr (by simp [lock, modSlot]) (fun k => by simp)
                (fun k => (lock_irelse_slot hb k).1) (fun k => (lock_irelse_slot hb k).2) fuel 1 d
          | none =>
              rw [hm] at he
              obtain rfl := Option.some.inj he
              rw [show ((s.lock p i).ret p r (some i)).stage p = .idle from hp]
              simp
      | none =>
          rw [hh] at he
          dsimp only at he
          split at he
          · obtain rfl := Option.some.inj he
            rw [show (s.ret p r none).stage p = .idle from hp]
            simp
          · rename_i f _
            split_ifs at he
            · obtain ⟨bad, -, rfl⟩ := Option.map_eq_some_iff.mp he
              split_ifs
              · rw [show (((s.lock p f).irelse f).ret p r none).stage = s.stage from
                  irelse_stage (s.lock p f) f, hp]
                simp
              · simp [goto]
            · exact claim_not_wait (s := s.lock p f) hp he

/-- Going on, a process waits only if it waited before. -/
lemma run_not_wait {c : Call} {d : Option Bytes} (hl : Locked s) (hst : StageOf c (s.stage p))
    (hc : c.plain) (hw : ∀ j q, s.stage p ≠ .getWait j q) (he : s.step (.run p d) = some s')
    (j : ℕ) (q : Request) : s'.stage p ≠ .getWait j q := by
  set u : Ilist := ({ s with last := none } : Ilist).goto p .idle with hu
  have hup : u.stage p = .idle := Function.update_self ..
  obtain ⟨pre, post, -, hends, -⟩ := run_moves hl hst he
  unfold step at he
  dsimp only at he
  split_ifs at he
  rw [← hu] at he
  cases c with
  | iget num dev =>
      rcases hst with ⟨i, r, hk⟩ | ⟨i, r, hk⟩ | ⟨i, r, hk⟩
      · exact absurd hk (hw i r)
      · rw [hk, resume] at he
        split_ifs at he
        · exact claim_not_wait (s := u.writeNode i) hup he
        · obtain rfl := Option.some.inj he
          rw [show ((u.irelse i).ret p r none).stage = u.stage from irelse_stage u i, hup]
          simp
      · rw [hk] at he
        cases d with
        | some d =>
            obtain rfl := Option.some.inj he
            rw [show ((u.readNode i d).ret p r (some i)).stage p = .idle from hup]
            simp
        | none =>
            obtain rfl := Option.some.inj he
            rw [giveUp_stage, hup]
            simp
  | ilock i | isync =>
      rcases hends with ⟨e, -⟩ | ⟨e, -⟩
      · simp [e]
      · intro e'
        simp [e', StageOf] at e
  | irelse i => exact absurd hst (by simp [StageOf])
  | idec i | iflush dev => exact absurd hc (by simp [Call.plain])

end Ilist

end Micronix
