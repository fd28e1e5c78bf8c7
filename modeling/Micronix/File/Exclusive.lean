import Micronix.File.Writers

/-!
# Exclusive write, call by call

What an `open` that fails does to the flag is right when it is an `open` for writing, which has set the
flag itself, and wrong when it is one for reading.
-/

namespace Micronix

namespace Files

open Transition

namespace State

variable {s s' t : State} {p q f fd ip mode : ℕ}

/-! ## The calls -/

/-- The ends of the pipes that are being made. -/
def Ends (s : State) : Prop :=
  ∀ p rf rd wf wd, s.phase p = .piping rf rd wf wd → (s.file rf).mode = iRead ||| pipeBit

/-- Entries in use keep their modes, and nobody comes to sleep in `pipe`. -/
structure Kept (s s' : State) : Prop where
  mode : ∀ f, (s.file f).count ≠ 0 → (s'.file f).mode = (s.file f).mode
  phase : ∀ q, s'.phase q = s.phase q ∨ (s'.phase q).held = none

lemma Ends.kept (h : s.Ends) (hs : s.Sound) (hk : Kept s s') : s'.Ends := by
  intro q rf rd wf wd hq
  have hq' : s.phase q = .piping rf rd wf wd := by
    rcases hk.phase q with he | hn
    · exact he ▸ hq
    · rw [hq] at hn
      exact absurd hn (by simp [Phase.held])
  have hc := (hs.pipe q rf rd wf wd hq').2.1
  rw [hk.mode rf (by rw [hc]; decide)]
  exact h q rf rd wf wd hq'

/-- The three invariants about writers. -/
structure Fine (s : State) : Prop where
  good : s.Good
  locks : s.Locks
  ends : s.Ends

/-- What changes in an entry without concern for writers: nothing; its count, without a change of whether
it is in use; it goes out of use and was not open for writing; it comes into use without an inode. -/
def Still (x x' : File) : Prop :=
  x' = x ∨ ((x'.count = 0 ↔ x.count = 0) ∧ (x.count ≠ 0 → x'.mode = x.mode ∧ x'.inode = x.inode)) ∨
    (x'.count = 0 ∧ x'.mode = x.mode ∧ (writ x.mode = false ∨ x.inode = none)) ∨
    (x.count = 0 ∧ x'.inode = none)

lemma Still.refs (hf : ∀ f, Still (s.file f) (s'.file f)) {i f : ℕ} (h : s'.Refs i f) :
    s.Refs i f := by
  obtain ⟨h1, h2⟩ := h
  rcases hf f with he | ⟨hc, hm⟩ | ⟨hc, -⟩ | ⟨-, hn⟩
  · rw [he] at h1 h2
    exact ⟨h1, h2⟩
  · have hc' : (s.file f).count ≠ 0 := fun h0 => h1 (hc.mpr h0)
    exact ⟨hc', (hm hc').2 ▸ h2⟩
  · exact absurd hc h1
  · rw [hn] at h2
    exact absurd h2 (by simp)

lemma Still.openFor (hf : ∀ f, Still (s.file f) (s'.file f)) {i f : ℕ} :
    s'.OpenFor i f ↔ s.OpenFor i f := by
  rcases hf f with he | ⟨hc, hm⟩ | ⟨hc, -, hw⟩ | ⟨hc, hn⟩
  · rw [OpenFor, OpenFor, Refs, Refs, he]
  · by_cases hc' : (s.file f).count = 0
    · exact iff_of_false (fun ho => ho.1.1 (hc.mpr hc')) fun ho => ho.1.1 hc'
    · obtain ⟨h1, h2⟩ := hm hc'
      rw [OpenFor, OpenFor, Refs, Refs, h1, h2, ne_eq, ne_eq, hc]
  · refine iff_of_false (fun ho => ho.1.1 hc) fun ho => ?_
    rcases hw with hw | hw
    · rw [ho.2] at hw
      exact absurd hw (by simp)
    · rw [ho.1.2] at hw
      exact absurd hw (by simp)
  · refine iff_of_false (fun ho => ?_) fun ho => ho.1.1 hc
    rw [ho.1.2] at hn
    exact absurd hn (by simp)

lemma Still.keep {x x' : File} (h : Still x x') (hc : x.count ≠ 0) : x'.mode = x.mode := by
  rcases h with he | ⟨-, hm⟩ | ⟨-, hm, -⟩ | ⟨h0, -⟩
  · rw [he]
  · exact (hm hc).1
  · exact hm
  · exact absurd h0 hc

/-- No inode, no sleep with an inode and no writer is concerned. -/
lemma Fine.still (h : s.Fine) (hi : s'.inode = s.inode)
    (hp : ∀ q, s'.phase q = s.phase q ∨ (s.phase q).node = none ∧ (s'.phase q).node = none)
    (hf : ∀ f, Still (s.file f) (s'.file f)) : s'.Good ∧ s'.Locks := by
  have hnone : ∀ a : Phase, a.node = none → a.writes = none := by
    intro a ha
    by_contra hc
    obtain ⟨i, hi⟩ := Option.ne_none_iff_exists'.mp hc
    rw [writes_node hi] at ha
    exact absurd ha (by simp)
  have hwr : ∀ q, (s'.phase q).writes = (s.phase q).writes := by
    intro q
    rcases hp q with he | ⟨h1, h2⟩
    · rw [he]
    · rw [hnone _ h1, hnone _ h2]
  exact ⟨h.good.congr (fun i => by rw [hi]; exact ⟨rfl, rfl⟩) (fun i f => Still.openFor hf) hwr,
    h.locks.congr hi (fun i f hr => Or.inl (Still.refs hf hr)) fun q => (hp q).imp id And.right⟩

/-- Nobody comes to sleep in `pipe` either. -/
lemma Fine.calm (h : s.Fine) (hs : s.Sound) (hi : s'.inode = s.inode)
    (hp : ∀ q, s'.phase q = s.phase q ∨
      (s.phase q).node = none ∧ (s'.phase q).node = none ∧ (s'.phase q).held = none)
    (hf : ∀ f, Still (s.file f) (s'.file f)) : s'.Fine := by
  obtain ⟨h1, h2⟩ := h.still hi (fun q => (hp q).imp id fun hn => ⟨hn.1, hn.2.1⟩) hf
  exact ⟨h1, h2, h.ends.kept hs ⟨fun f hc => (hf f).keep hc, fun q => (hp q).imp id fun hn => hn.2.2⟩⟩

lemma Fine.setError (h : s.Fine) (p : ℕ) (e : Option Error) : (s.setError p e).Fine :=
  ⟨h.good, h.locks.congr rfl (fun _ _ hr => Or.inl hr) fun _ => Or.inl rfl, h.ends⟩

/-- `access` for writing finds the flag clear. -/
lemma access_flag {u : User} {i : Inode} {per : ℕ} (h : access u i per = none)
    (hw : writ per = true) : i.iwrlock = false := by
  unfold access at h
  rw [if_pos hw] at h
  split_ifs at h with h1 h2
  · simpa using h2
  all_goals simpa using h2

lemma dormant_kept (hp : s'.phase = s.phase) (h : Dormant s s') : Kept s s' := by
  refine ⟨fun f hc => ?_, fun q => Or.inl (by rw [hp])⟩
  rcases h f with he | ⟨h0, -⟩
  · rw [he]
  · exact absurd h0 hc

lemma granted_kept {o : Option ℕ} (hp : s'.phase = s.phase) (h : Granted s s' f mode o) :
    Kept s s' := by
  refine ⟨fun g hc => ?_, fun q => Or.inl (by rw [hp])⟩
  have hg : g ≠ f := by
    rintro rfl
    exact hc h.free
  rw [h.other g hg]

lemma Kept.trans {s'' : State} (h : Kept s s') (h' : Kept s' s'')
    (hc : ∀ f, (s.file f).count ≠ 0 → (s'.file f).count ≠ 0) : Kept s s'' := by
  refine ⟨fun f hf => (h'.mode f (hc f hf)).trans (h.mode f hf), fun q => ?_⟩
  rcases h'.phase q with he | hn
  · rcases h.phase q with he' | hn
    · exact Or.inl (he.trans he')
    · exact Or.inr (he ▸ hn)
  · exact Or.inr hn

lemma iopenEnd_kept (s : State) (p ip mode : ℕ) : Kept s (s.iopenEnd p ip mode) := by
  by_cases hc : s.Fails p
  · obtain ⟨h1, -, h3⟩ := iopenEnd_fails ip mode hc
    exact dormant_kept h1 h3
  · obtain ⟨h1, -, f, h3⟩ := iopenEnd_ok ip mode hc
    exact granted_kept h1 h3

lemma iopen_kept : Kept s (s.iopen p ip mode) := by
  unfold State.iopen
  set t := if writ mode && (s.inode ip).isvtx then s.mark ip true else s with ht
  have hphase : t.phase = s.phase := by rw [ht]; split_ifs <;> rfl
  have hfile : t.file = s.file := by rw [ht]; split_ifs <;> rfl
  have hend : ∀ u : State, u.phase = s.phase → u.file = s.file →
      Kept s (u.iopenEnd p ip mode) := by
    intro u h1 h2
    obtain ⟨k1, k2⟩ := iopenEnd_kept u p ip mode
    rw [h2] at k1
    rw [h1] at k2
    exact ⟨k1, k2⟩
  have hsleep : ∀ u : State, u.file = s.file → u.phase = s.phase →
      Kept s (u.setPhase p (.opening ip mode)) := by
    intro u h1 h2
    refine ⟨fun f _ => by simp only [State.setPhase, h1], fun q => ?_⟩
    by_cases hq : q = p
    · subst hq
      exact Or.inr (by simp [State.setPhase, Phase.held])
    · exact Or.inl (by simp [State.setPhase, Function.update_of_ne hq, h2])
  simp only
  cases (t.inode ip).fmt with
  | ifreg => exact hend t hphase hfile
  | ifdir =>
      split_ifs
      · exact hend _ hphase hfile
      · exact hend t hphase hfile
  | ifchr => exact hsleep t hfile hphase
  | ifblk => exact hsleep _ hfile hphase

/-- An open for reading that fails finds the flag clear, and so does a signal that ends an open for
writing; no inode becomes sticky that has writers and no flag. -/
def Apart (s : State) : Label → Prop
  | .open p u ip m =>
      access u (s.inode ip) (imode m) = none → writ (imode m) = false → s.Direct ip (imode m) →
        s.falloc = none ∨ s.oalloc p = none → (s.inode ip).iwrlock = false
  | .opened p e =>
      ∀ ip ∈ (s.phase p).reads, e ≠ none ∨ s.falloc = none ∨ s.oalloc p = none →
        (s.inode ip).iwrlock = false
  | .abort p => ∀ ip ∈ (s.phase p).writes, (s.inode ip).iwrlock = false
  | .chmod ip isvtx _ =>
      isvtx = true → (s.inode ip).iwrlock = true ∨
        (∀ f < nfile, ¬s.OpenFor ip f) ∧ ∀ p < nproc, (s.phase p).writes ≠ some ip
  | _ => True

instance (s : State) (l : Label) : Decidable (s.Apart l) :=
  match l with
  | .open p _ ip m =>
      inferInstanceAs (Decidable (_ = _ → _ = _ → s.Direct ip (imode m) →
        s.falloc = none ∨ s.oalloc p = none → _ = _))
  | .opened p e =>
      inferInstanceAs (Decidable (∀ ip ∈ (s.phase p).reads,
        e ≠ none ∨ s.falloc = none ∨ s.oalloc p = none → _ = _))
  | .abort p => inferInstanceAs (Decidable (∀ ip ∈ (s.phase p).writes, _ = _))
  | .chmod ip _ _ =>
      inferInstanceAs (Decidable (_ = _ → _ = _ ∨
        (∀ f < nfile, ¬s.OpenFor ip f) ∧ ∀ p < nproc, (s.phase p).writes ≠ some ip))
  | .creat .. | .truncated .. | .create .. | .pipe _ | .piped .. | .dup .. | .fork .. | .forked ..
  | .close .. | .exit _ | .next _ | .free _ => inferInstanceAs (Decidable True)

/-- The condition of the file table and that of the flags. -/
def Meets (s : State) (l : Label) : Prop := s.Intact l ∧ s.Apart l

instance (s : State) (l : Label) : Decidable (s.Meets l) := inferInstanceAs (Decidable (_ ∧ _))

lemma Ready.free (h : s.Fine) (hr : s.Ready ip) (q : ℕ) : ¬s.Holds q ip := by
  intro hq
  have hb := h.locks.busy q ip hq
  rw [hr.2] at hb
  exact absurd hb (by simp)

/-- `open` -/
lemma Fine.openCall (h : s.Fine) (hs : s.Sound) {u : User} {m : ℕ} (hi : s.Idle p)
    (hr : s.Ready ip) (he : s.error p = none) (hg : s.Apart (.open p u ip m)) :
    (s.open p u ip m).Fine := by
  unfold State.open
  cases ha : access u (s.inode ip) (imode m) with
  | some e => exact h.setError p _
  | none =>
      obtain ⟨h1, h2⟩ := iopen_good (imode m) h.good h.locks hi hr.1 (Ready.free h hr) hr.2
        (fun hw => access_flag ha hw) fun hw hd hf =>
          hg ha hw hd (hf.resolve_left (by simp [he]))
      exact ⟨h1, h2, h.ends.kept hs iopen_kept⟩

/-- The beginning of `creat`. -/
lemma Fine.creat (h : s.Fine) (hs : s.Sound) {u : User} (hi : s.Idle p) (hr : s.Ready ip) :
    (s.creat p u ip).Fine := by
  unfold State.creat
  split_ifs
  · exact h.setError p _
  · cases ha : access u (s.inode ip) iWrite with
    | some e => exact h.setError p _
    | none =>
        refine ⟨h.good.congr (fun i => ?_) (fun i f => Iff.rfl) fun q => ?_,
          h.locks.sleep hi hr.1 (Ready.free h hr) (Or.inl rfl) (Or.inl rfl) (by simp)
            fun _ => access_flag ha rfl, h.ends.kept hs ⟨fun f _ => rfl, fun q => ?_⟩⟩
        · by_cases hj : i = ip
          · subst hj
            simp [State.setPhase, hold, modInode]
          · simp [State.setPhase, hold, modInode, Function.update_of_ne hj]
        · by_cases hq : q = p
          · subst hq
            simp [State.setPhase, hold, modInode, Phase.writes, hi.2]
          · simp [State.setPhase, hold, modInode, Function.update_of_ne hq]
        · by_cases hq : q = p
          · subst hq
            exact Or.inr (by simp [State.setPhase, Phase.held])
          · exact Or.inl (by simp [State.setPhase, hold, modInode, Function.update_of_ne hq])

/-- Where a call that has slept goes on. -/
lemma wake_inode (s : State) (p ip j : ℕ) (e : Option Error) :
    (((((s.hold ip false).setPhase p .idle).setError p e).inode j).iwrlock = (s.inode j).iwrlock) ∧
      (((((s.hold ip false).setPhase p .idle).setError p e).inode j).isvtx = (s.inode j).isvtx) ∧
      (((((s.hold ip false).setPhase p .idle).setError p e).inode j).ialloc =
        (s.inode j).ialloc) := by
  by_cases hj : j = ip
  · subst hj
    simp [setError, State.setPhase, hold, modInode]
  · simp [setError, State.setPhase, hold, modInode, Function.update_of_ne hj]

lemma wake_phase (s : State) (p ip q : ℕ) (e : Option Error) :
    (((s.hold ip false).setPhase p .idle).setError p e).phase q =
      if q = p then .idle else s.phase q := by
  by_cases hq : q = p
  · subst hq
    simp [setError, State.setPhase]
  · simp [setError, State.setPhase, hold, modInode, hq]

lemma wake_kept (s : State) (p ip : ℕ) (e : Option Error) :
    Kept s (((s.hold ip false).setPhase p .idle).setError p e) := by
  refine ⟨fun f _ => rfl, fun q => ?_⟩
  rw [wake_phase]
  split_ifs
  · exact Or.inr rfl
  · exact Or.inl rfl

/-- The end of `creat`. -/
lemma Fine.truncated (h : s.Fine) (hs : s.Sound) (hx : s.phase p = .truncating ip)
    (e : Option Error) :
    ((((s.hold ip false).setPhase p .idle).setError p e).iopen p ip iWrite).Fine := by
  obtain ⟨hl, hno⟩ := h.locks.wake (by rw [hx]; rfl) (Or.inl (Or.inl hx)) e
  have hin := fun j => wake_inode s p ip j e
  have hph := fun q => wake_phase s p ip q e
  have hgood : (((s.hold ip false).setPhase p .idle).setError p e).Good := by
    refine h.good.congr (fun j => ⟨(hin j).1, (hin j).2.1⟩) (fun i f => Iff.rfl) fun q => ?_
    rw [hph]
    split_ifs with hq
    · rw [hq, hx]
      rfl
    · rfl
  have hidle : (((s.hold ip false).setPhase p .idle).setError p e).Idle p :=
    ⟨hs.lt p (by simp [hx]), by rw [hph, if_pos rfl]⟩
  obtain ⟨h1, h2⟩ := iopen_good iWrite hgood hl hidle
    ((hin ip).2.2.trans (h.locks.node p ip (by rw [hx]; rfl))) hno
    (by simp [State.setError, State.setPhase, hold, modInode])
    (fun _ => (hin ip).1.trans (h.locks.trunc p ip hx)) fun hw => absurd hw (by decide)
  exact ⟨h1, h2, h.ends.kept hs ((wake_kept s p ip e).trans iopen_kept fun f hc => hc)⟩

/-- `creat` of a new file. -/
lemma Fine.create (h : s.Fine) (hs : s.Sound) (hi : s.Idle p) (hf : s.Fresh ip) (isvtx : Bool)
    (perm uid gid : ℕ) (e : Option Error) : (s.create p ip isvtx perm uid gid e).Fine := by
  obtain ⟨hr, hn⟩ := h.locks.fresh hf.1
  have he := h.setError p e
  have hgood : ((s.setError p e).modInode ip fun i =>
      { i with fmt := .ifreg, ialloc := true, isvtx, perm, uid, gid }).Good :=
    he.good.remake hr hn rfl
  have hlocks : ((s.setError p e).modInode ip fun i =>
      { i with fmt := .ifreg, ialloc := true, isvtx, perm, uid, gid }).Locks :=
    he.locks.remake hr hn _
  have hflag : (s.inode ip).iwrlock = false := h.good.flag_eq_false (not_writer hr hn)
  have hno : ∀ q, ¬((s.setError p e).modInode ip fun i =>
      { i with fmt := .ifreg, ialloc := true, isvtx, perm, uid, gid }).Holds q ip := by
    intro q hq
    refine hn q ?_
    rcases hq with hq | ⟨m, hq, -⟩
    · exact (congrArg Phase.node (show s.phase q = _ from hq)).trans rfl
    · exact (congrArg Phase.node (show s.phase q = _ from hq)).trans rfl
  obtain ⟨h1, h2⟩ := iopen_good iWrite hgood hlocks hi (by simp [modInode]) hno
    (by simpa [modInode, State.setError] using hf.2) (fun _ => by simpa [modInode, State.setError] using hflag)
    fun hw => absurd hw (by decide)
  have hmade : Kept s ((s.setError p e).modInode ip fun i =>
      { i with fmt := .ifreg, ialloc := true, isvtx, perm, uid, gid }) :=
    ⟨fun f _ => rfl, fun q => Or.inl rfl⟩
  exact ⟨h1, h2, h.ends.kept hs (hmade.trans iopen_kept fun f hc => hc)⟩

/-- The end of an open that has slept. -/
lemma Fine.opened (h : s.Fine) (hs : s.Sound) (hx : s.phase p = .opening ip mode)
    (hb : s.Holds p ip ∨ (s.inode ip).ibusy = false) {e : Option Error}
    (hg : s.Apart (.opened p e)) :
    ((((s.hold ip false).setPhase p .idle).setError p e).iopenEnd p ip mode).Fine := by
  set t := ((s.hold ip false).setPhase p .idle).setError p e with ht
  obtain ⟨hl, hno⟩ := h.locks.wake (by rw [hx]; rfl) hb e
  have hin := fun j => wake_inode s p ip j e
  have hph := fun q => wake_phase s p ip q e
  have hwx : (s.phase p).writes = if writ mode then some ip else none := by
    rw [hx]
    rfl
  have hfails : t.Fails p ↔ e ≠ none ∨ s.falloc = none ∨ s.oalloc p = none := by
    unfold Fails
    have herr : t.error p = e := by simp [ht, State.setError]
    rw [herr]
    rfl
  have hrd : writ mode = false → t.Fails p → (s.inode ip).iwrlock = false := by
    intro hw hf
    refine hg ip ?_ (hfails.mp hf)
    rw [hx, Phase.reads, hw]
    rfl
  have hkept : Kept s (t.iopenEnd p ip mode) :=
    (wake_kept s p ip e).trans (iopenEnd_kept _ p ip mode) fun f hc => hc
  -- the process is no longer among the writers
  have hproc : ∀ q, (t.phase q).writes = some ip ↔
      (s.phase q).writes = some ip ∧ ¬(q = p ∧ writ mode = true) := by
    intro q
    rw [hph]
    split_ifs with hq
    · rw [hq, hwx]
      by_cases hm : writ mode = true
      · simp [hm, Phase.writes]
      · simp [hm, Phase.writes]
    · simp [hq]
  have hproc' : ∀ i q, i ≠ ip → ((t.phase q).writes = some i ↔ (s.phase q).writes = some i) := by
    intro i q hne
    rw [hph]
    split_ifs with hq
    · rw [hq, hwx]
      by_cases hm : writ mode = true
      · simp [hm, Phase.writes, Ne.symm hne]
      · simp [hm, Phase.writes]
    · rfl
  have hleft : ∀ i v, t.Writer i v ↔
      s.Writer i v ∧ ¬(i = ip ∧ v = .inr p ∧ writ mode = true) := by
    rintro i (f | q)
    · simp only [Writer, reduceCtorEq, false_and, and_false, not_false_eq_true, and_true]
      exact Iff.rfl
    · by_cases hi : i = ip
      · subst hi
        simpa only [Writer, Sum.inr.injEq, true_and] using hproc q
      · simpa only [Writer, hi, false_and, not_false_eq_true, and_true] using hproc' i q hi
  have hwriter : writ mode = true → s.Writer ip (.inr p) := fun hm => by
    simp only [Writer, hwx, hm, if_true]
  by_cases hc : t.Fails p
  · obtain ⟨e1, e2, e3⟩ := iopenEnd_fails ip mode hc
    have hflag : ∀ j, ((t.iopenEnd p ip mode).inode j).iwrlock =
        (if j = ip then false else (s.inode j).iwrlock) ∧
        ((t.iopenEnd p ip mode).inode j).isvtx = (s.inode j).isvtx := by
      intro j
      rw [e2, (mark_inode t ip false j).1, (mark_inode t ip false j).2, (hin j).1, (hin j).2.1]
      exact ⟨rfl, rfl⟩
    have hwr : ∀ i v, (t.iopenEnd p ip mode).Writer i v ↔ t.Writer i v :=
      writer_congr (fun i f => e3.openFor) fun q => by rw [e1]
    refine ⟨?_, ?_, h.ends.kept hs hkept⟩
    · cases hm : writ mode with
      | true =>
          refine Sole.leave h.good (hwriter hm) (fun j => (hflag j).1) (fun j => (hflag j).2)
            fun i v => ?_
          rw [hwr, hleft, hm]
          simp
      | false =>
          refine Sole.congr h.good (fun j => ?_) (fun j => (hflag j).2) fun i v => ?_
          · rw [(hflag j).1]
            split_ifs with hj
            · rw [hj, hrd hm hc]
            · rfl
          · rw [hwr, hleft, hm]
            simp
    · have hl' : (t.mark ip false).Locks := hl.flag (fun i => ⟨rfl, rfl, rfl⟩) (Or.inr (by simp))
      exact hl'.congr e2 (fun i g hr => Or.inl (e3.refs.mp hr)) fun q => Or.inl (by rw [e1]; rfl)
  · obtain ⟨e1, e2, f, e3⟩ := iopenEnd_ok ip mode hc
    have hflag : ∀ j, ((t.iopenEnd p ip mode).inode j).iwrlock = (s.inode j).iwrlock ∧
        ((t.iopenEnd p ip mode).inode j).isvtx = (s.inode j).isvtx := by
      intro j
      rw [e2, (hin j).1, (hin j).2.1]
      exact ⟨rfl, rfl⟩
    have hwr : ∀ i v, (t.iopenEnd p ip mode).Writer i v ↔
        t.Writer i v ∨ (writ mode = true ∧ ip = i) ∧ v = .inl f := by
      rintro i (g | q)
      · simp only [Writer, e3.openFor, Option.some.injEq, Sum.inl.injEq]
      · simp [Writer, e1]
    refine ⟨?_, ?_, h.ends.kept hs hkept⟩
    · cases hm : writ mode with
      | true =>
          have ho : ∀ i v, (t.iopenEnd p ip mode).Writer i v ↔
              s.Writer i v ∧ ¬(i = ip ∧ v = .inr p) ∨ i = ip ∧ v = .inl f := by
            intro i v
            rw [hwr, hleft, hm]
            simp [eq_comm]
          exact Sole.rename h.good (hwriter hm) (fun j => (hflag j).1) (fun j => (hflag j).2) ho
      | false =>
          refine Sole.congr h.good (fun j => (hflag j).1) (fun j => (hflag j).2) fun i v => ?_
          rw [hwr, hleft, hm]
          simp
    · refine hl.congr e2 (fun i g hr => ?_) fun q => Or.inl (by rw [e1])
      rcases e3.refs.mp hr with hold | ⟨hip, -⟩
      · exact Or.inl hold
      · rw [← Option.some.inj hip, (hin ip).2.2]
        exact Or.inr (h.locks.node p ip (by rw [hx]; rfl))

/-- A signal ends an open. -/
lemma Fine.abort (h : s.Fine) (hs : s.Sound) (hx : s.phase p = .opening ip mode)
    (hg : s.Apart (.abort p)) : (s.setPhase p .idle).Fine := by
  have hph : ∀ q, (s.setPhase p .idle).phase q = if q = p then .idle else s.phase q := fun q => by
    simp only [State.setPhase, Function.update_apply]
  refine ⟨?_, ?_, h.ends.kept hs ⟨fun f _ => rfl, fun q => ?_⟩⟩
  · cases hm : writ mode with
    | true =>
        have hwx : (s.phase p).writes = some ip := by
          rw [hx, Phase.writes, hm]
          rfl
        refine Sole.forget (i := ip) (w := .inr p) h.good (hg ip hwx) (fun _ => rfl) (fun _ => rfl) ?_
        rintro i (f | q)
        · simp only [Writer, reduceCtorEq, and_false, not_false_eq_true, and_true]
          exact Iff.rfl
        · simp only [Writer, hph, Sum.inr.injEq]
          by_cases hq : q = p
          · subst hq
            rw [if_pos rfl, hwx]
            simp [Phase.writes, eq_comm]
          · simp [hq]
    | false =>
        refine h.good.congr (fun _ => ⟨rfl, rfl⟩) (fun _ _ => Iff.rfl) fun q => ?_
        rw [hph]
        split_ifs with hq
        · rw [hq, hx, Phase.writes, hm]
          rfl
        · rfl
  · refine h.locks.congr rfl (fun _ _ hr => Or.inl hr) fun q => ?_
    rw [hph]
    split_ifs
    · exact Or.inr rfl
    · exact Or.inl rfl
  · rw [hph]
    split_ifs
    · exact Or.inr rfl
    · exact Or.inl rfl

/-- `chmod` -/
lemma Fine.chmod (h : s.Fine) (hs : s.Sound) {isvtx : Bool} {perm : ℕ}
    (hg : s.Apart (.chmod ip isvtx perm)) :
    (s.modInode ip fun i => { i with isvtx, perm }).Fine := by
  have hno : isvtx = true → (s.inode ip).iwrlock = true ∨ ∀ w, ¬s.Writer ip w := by
    intro hb
    refine (hg hb).imp id ?_
    rintro ⟨h1, h2⟩ (f | q) hw
    · by_cases hf : f < nfile
      · exact h1 f hf hw
      · -- beyond the table there are no entries
        have hc := hs.count f
        rw [Slots.total_eq_zero.mpr fun p _ fd _ ho => hf (hs.range p fd f ho).2.2] at hc
        exact hw.1.1 (UInt8.toNat_inj.mp hc)
    · by_cases hq : q < nproc
      · exact h2 q hq hw
      · have hd : s.phase q = .dead := by
          by_contra hd
          exact hq (hs.lt q hd)
        simp [Writer, hd, Phase.writes] at hw
  refine ⟨?_, h.locks.flag (fun i => ⟨rfl, rfl, rfl⟩) (Or.inr fun hf => hf),
    h.ends.kept hs ⟨fun f _ => rfl, fun q => Or.inl rfl⟩⟩
  refine Sole.restick (i := ip) h.good hno (fun j => ?_) (fun j => ?_) fun _ _ => Iff.rfl
  · by_cases hj : j = ip
    · subst hj
      simp [modInode]
    · simp [modInode, Function.update_of_ne hj]
  · by_cases hj : j = ip
    · subst hj
      simp [modInode]
    · simp [modInode, hj]

/-! ### Pipes -/

/-- An entry that was free is cleared, or is given to a process without an inode. -/
lemma still_free {x x' : File} (hc : x.count = 0) (h : x'.count = 0 ∨ x'.inode = none) :
    Still x x' := by
  rcases h with h | h
  · exact Or.inr (Or.inl ⟨iff_of_true h hc, fun hn => absurd hc hn⟩)
  · exact Or.inr (Or.inr (Or.inr ⟨hc, h⟩))

/-- What `pipe` does before it sleeps. -/
lemma pipe_effect (s : State) (p : ℕ) :
    (s.pipe p).inode = s.inode ∧
      (∀ f, (s.pipe p).file f = s.file f ∨ (s.file f).count = 0 ∧
        (((s.pipe p).file f).count = 0 ∨ ((s.pipe p).file f).inode = none)) ∧
      ((s.pipe p).phase = s.phase ∨ ∃ rf rd wf wd,
        (s.pipe p).phase = Function.update s.phase p (.piping rf rd wf wd) ∧
          ((s.pipe p).file rf).mode = iRead ||| pipeBit) := by
  unfold State.pipe
  cases hrf : s.falloc with
  | none => exact ⟨rfl, fun _ => Or.inl rfl, Or.inl rfl⟩
  | some rf =>
      obtain ⟨-, hc⟩ := falloc_spec hrf
      have ho : ∀ (q : ℕ), (s.setFile rf .zero).oalloc q = s.oalloc q := fun _ => rfl
      simp only [ho]
      cases hrd : s.oalloc p with
      | none =>
          refine ⟨rfl, fun f => ?_, Or.inl rfl⟩
          by_cases hf : f = rf
          · subst hf
            exact Or.inr ⟨hc, Or.inl (by simp [fail, setError, setFile, File.zero])⟩
          · exact Or.inl (by simp [fail, setError, setFile, Function.update_of_ne hf])
      | some rd =>
          simp only [setFile_grant]
          set t := s.grant p rd rf (iRead ||| pipeBit) none with ht
          have htf : ∀ f, f ≠ rf → t.file f = s.file f := fun f hf => by
            simp [ht, State.grant, setFile, setSlot, Function.update_of_ne hf]
          have htr : t.file rf = ⟨iRead ||| pipeBit, 1, none⟩ := by
            simp [ht, State.grant, setFile, setSlot]
          have hti : t.inode = s.inode := rfl
          have htp : t.phase = s.phase := rfl
          cases hwf : t.falloc with
          | none =>
              refine ⟨rfl, fun f => ?_, Or.inl rfl⟩
              by_cases hf : f = rf
              · subst hf
                exact Or.inr ⟨hc, Or.inl (by simp [unpipe, setFile, setSlot])⟩
              · refine Or.inl ?_
                simp only [unpipe, setFile, setSlot, fail, setError, Function.update_of_ne hf]
                exact htf f hf
          | some wf =>
              obtain ⟨-, hwc⟩ := falloc_spec hwf
              have hne : wf ≠ rf := by
                rintro rfl
                rw [htr] at hwc
                exact absurd hwc (by decide)
              have hwc' : (s.file wf).count = 0 := htf wf hne ▸ hwc
              have ho' : ∀ (q : ℕ), (t.setFile wf .zero).oalloc q = t.oalloc q := fun _ => rfl
              simp only [ho']
              cases hwd : t.oalloc p with
              | none =>
                  refine ⟨rfl, fun f => ?_, Or.inl rfl⟩
                  by_cases hf : f = rf
                  · subst hf
                    exact Or.inr ⟨hc, Or.inl (by simp [unpipe, setFile, setSlot])⟩
                  · by_cases hfw : f = wf
                    · subst hfw
                      refine Or.inr ⟨hwc', Or.inl ?_⟩
                      simp [unpipe, setFile, setSlot, fail, setError, Function.update_of_ne hf,
                        File.zero]
                    · refine Or.inl ?_
                      simp only [unpipe, setFile, setSlot, fail, setError, Function.update_of_ne hf,
                        Function.update_of_ne hfw]
                      exact htf f hf
              | some wd =>
                  refine ⟨rfl, fun f => ?_, Or.inr ⟨rf, rd, wf, wd, rfl, ?_⟩⟩
                  · by_cases hfw : f = wf
                    · subst hfw
                      exact Or.inr ⟨hwc', Or.inl (by simp [State.setPhase, setFile, File.zero])⟩
                    · by_cases hf : f = rf
                      · subst hf
                        refine Or.inr ⟨hc, Or.inr ?_⟩
                        simp only [State.setPhase, setFile, Function.update_of_ne hfw, htr]
                      · refine Or.inl ?_
                        simp only [State.setPhase, setFile, Function.update_of_ne hfw]
                        exact htf f hf
                  · simp only [State.setPhase, setFile, Function.update_of_ne hne.symm, htr]

lemma Fine.pipeCall (h : s.Fine) (hs : s.Sound) (hi : s.Idle p) : (s.pipe p).Fine := by
  obtain ⟨h1, h2, h3⟩ := pipe_effect s p
  have hf : ∀ f, Still (s.file f) ((s.pipe p).file f) := fun f =>
    (h2 f).elim Or.inl fun hc => still_free hc.1 hc.2
  rcases h3 with hp | ⟨rf, rd, wf, wd, hp, hm⟩
  · exact h.calm hs h1 (fun q => Or.inl (by rw [hp])) hf
  · have hself : (s.pipe p).phase p = .piping rf rd wf wd := by rw [hp, Function.update_self]
    have hother : ∀ q, q ≠ p → (s.pipe p).phase q = s.phase q := fun q hq => by
      rw [hp, Function.update_of_ne hq]
    have hphase : ∀ q, (s.pipe p).phase q = s.phase q ∨
        (s.phase q).node = none ∧ ((s.pipe p).phase q).node = none := by
      intro q
      by_cases hqp : q = p
      · subst hqp
        rw [hself, hi.2]
        exact Or.inr ⟨rfl, rfl⟩
      · exact Or.inl (hother q hqp)
    obtain ⟨hg, hl⟩ := h.still h1 hphase hf
    refine ⟨hg, hl, fun q rf' rd' wf' wd' hq => ?_⟩
    by_cases hqp : q = p
    · subst hqp
      rw [hself] at hq
      cases hq
      exact hm
    · rw [hother q hqp] at hq
      have hc := (hs.pipe q rf' rd' wf' wd' hq).2.1
      rw [(hf rf').keep (by rw [hc]; decide)]
      exact h.ends q rf' rd' wf' wd' hq

/-- `pipe` gets no inode. -/
lemma Fine.unpipe (h : s.Fine) (hs : s.Sound) {rf rd wf wd : ℕ}
    (hx : s.phase p = .piping rf rd wf wd) : ((s.unpipe p rf rd).setPhase p .idle).Fine := by
  refine h.calm hs rfl (fun q => ?_) fun f => ?_
  · by_cases hq : q = p
    · subst hq
      refine Or.inr ⟨?_, ?_, ?_⟩
      · rw [hx]
        rfl
      · simp [State.setPhase, Phase.node]
      · simp [State.setPhase, Phase.held]
    · refine Or.inl ?_
      simp [State.setPhase, Function.update_of_ne hq, State.unpipe, setFile, setSlot]
  · by_cases hf : f = rf
    · subst hf
      refine Or.inr (Or.inr (Or.inl ⟨?_, ?_, Or.inl ?_⟩))
      · simp [State.setPhase, State.unpipe, setFile, setSlot]
      · simp [State.setPhase, State.unpipe, setFile, setSlot]
      · rw [h.ends p f rd wf wd hx]
        decide
    · refine Or.inl ?_
      simp [State.setPhase, State.unpipe, setFile, setSlot, Function.update_of_ne hf]

/-- One end of a pipe is a writer. -/
lemma piped_openFor {rf rd wf wd i g : ℕ} (hwc : (s.file wf).count = 0) (hne : rf ≠ wf)
    (hmode : (s.file rf).mode = iRead ||| pipeBit) :
    (s.piped p rf rd wf wd ip).OpenFor i g ↔ s.OpenFor i g ∨ i = ip ∧ g = wf := by
  have hother : ∀ f, f ≠ rf → f ≠ wf → (s.piped p rf rd wf wd ip).file f = s.file f := by
    intro f h1 h2
    simp only [State.piped, State.setPhase, setFile, State.grant, setSlot,
      Function.update_of_ne h1, Function.update_of_ne h2]
    rfl
  by_cases hgw : g = wf
  · subst hgw
    have hself : (s.piped p rf rd g wd ip).file g = ⟨iWrite ||| pipeBit, 1, some ip⟩ := by
      simp [State.piped, State.setPhase, setFile, State.grant, setSlot,
        Function.update_of_ne hne.symm]
    have h1 : ¬s.OpenFor i g := fun ho => ho.1.1 hwc
    have h2 : writ (iWrite ||| pipeBit) = true := by decide
    simp only [h1, false_or, and_true]
    rw [OpenFor, Refs, hself]
    simp [h2, eq_comm]
  · by_cases hgr : g = rf
    · subst hgr
      have h2 : writ (iRead ||| pipeBit) = false := by decide
      have hself : ((s.piped p g rd wf wd ip).file g).mode = iRead ||| pipeBit := by
        simp only [State.piped, State.setPhase, setFile, State.grant, setSlot,
          Function.update_self, Function.update_of_ne hne]
        exact hmode
      refine iff_of_false (fun ho => ?_) fun hc => hc.elim (fun ho => ?_) fun hc => hgw hc.2
      · have hw := ho.2
        rw [hself, h2] at hw
        exact absurd hw (by simp)
      · have hw := ho.2
        rw [hmode, h2] at hw
        exact absurd hw (by simp)
    · rw [OpenFor, OpenFor, Refs, Refs, hother g hgr hgw]
      simp [hgw]

/-- `pipe` gets an inode. -/
lemma Fine.piped (h : s.Fine) (hs : s.Sound) {rf rd wf wd : ℕ}
    (hx : s.phase p = .piping rf rd wf wd) (hfr : s.Fresh ip) :
    (s.piped p rf rd wf wd ip).Fine := by
  obtain ⟨hr, hn⟩ := h.locks.fresh hfr.1
  obtain ⟨-, hrc, -, -, -, hwc⟩ := hs.pipe p rf rd wf wd hx
  have hne : rf ≠ wf := by
    rintro rfl
    rw [hwc] at hrc
    exact absurd hrc (by decide)
  set m := s.modInode ip fun i =>
    { i with fmt := .ifreg, ialloc := true, isvtx := false, perm := 0, uid := 0, gid := 0 } with hmdef
  have hmg : m.Good := h.good.remake hr hn rfl
  have hml : m.Locks := h.locks.remake hr hn _
  have hmf : m.file = s.file := rfl
  have hmi : (m.inode ip).isvtx = false ∧ (m.inode ip).ialloc = true := by simp [hmdef, modInode]
  have hflag : (m.inode ip).iwrlock = false := hmg.flag_eq_false (not_writer hr hn)
  set u := s.piped p rf rd wf wd ip with hu
  have hui : u.inode = m.inode := rfl
  have hph : ∀ q, u.phase q = if q = p then .idle else s.phase q := fun q => by
    simp only [hu, State.piped, State.setPhase, Function.update_apply]
    rfl
  have huw : u.file wf = ⟨iWrite ||| pipeBit, 1, some ip⟩ := by
    simp [hu, State.piped, State.setPhase, setFile, State.grant, setSlot,
      Function.update_of_ne hne.symm]
  have hur : u.file rf = { s.file rf with inode := some ip } := by
    simp only [hu, State.piped, State.setPhase, setFile, State.grant, setSlot,
      Function.update_self, Function.update_of_ne hne]
    rfl
  have huo : ∀ f, f ≠ rf → f ≠ wf → u.file f = s.file f := fun f h1 h2 => by
    simp only [hu, State.piped, State.setPhase, setFile, State.grant, setSlot,
      Function.update_of_ne h1, Function.update_of_ne h2]
    rfl
  have hmode := h.ends p rf rd wf wd hx
  have hopen : ∀ i f, u.OpenFor i f ↔ m.OpenFor i f ∨ i = ip ∧ f = wf := fun i f =>
    piped_openFor hwc hne hmode
  have hwrites : ∀ q, (u.phase q).writes = (m.phase q).writes := by
    intro q
    rw [hph]
    split_ifs with hq
    · have hmq : m.phase q = .piping rf rd wf wd := by rw [hq]; exact hx
      rw [hmq]
      rfl
    · rfl
  refine ⟨?_, ?_, h.ends.kept hs ⟨fun f hc => ?_, fun q => ?_⟩⟩
  · refine Sole.enter (i := ip) (w := .inl wf) hmg hflag (fun j => ?_) (fun j => by rw [hui]) ?_
    · rw [hui, hmi.1]
      split_ifs with hj
      · rw [hj, hflag]
      · rfl
    · rintro i (f | q)
      · simp only [Writer, hopen, Sum.inl.injEq]
      · simp [Writer, hwrites]
  · refine hml.congr hui (fun i f hrf => ?_) fun q => ?_
    · by_cases hfw : f = wf
      · subst hfw
        rw [Refs, huw] at hrf
        rw [← Option.some.inj hrf.2]
        exact Or.inr hmi.2
      · by_cases hfr' : f = rf
        · subst hfr'
          rw [Refs, hur] at hrf
          rw [← Option.some.inj hrf.2]
          exact Or.inr hmi.2
        · rw [Refs, huo f hfr' hfw] at hrf
          exact Or.inl hrf
    · rw [hph]
      split_ifs
      · exact Or.inr rfl
      · exact Or.inl rfl
  · have hfw : f ≠ wf := by
      rintro rfl
      exact hc hwc
    by_cases hfr' : f = rf
    · rw [hfr', hur]
    · rw [huo f hfr' hfw]
  · rw [hph]
    split_ifs
    · exact Or.inr rfl
    · exact Or.inl rfl

/-! ### Descriptors -/

/-- The count of an entry with a descriptor. -/
lemma Sound.used (h : s.Sound) (hf : s.olist p fd = some f) : 1 ≤ (s.file f).count.toNat := by
  obtain ⟨h1, h2, -⟩ := h.range p fd f hf
  rw [h.count f]
  exact Slots.one_le_total h1 h2 hf

/-- `dup` -/
lemma Fine.dup (h : s.Fine) (hs : s.Sound) (hg : s.Intact (.dup p fd)) : (s.dup p fd).Fine := by
  unfold State.dup
  cases ho : s.ofile p fd with
  | none => exact h.setError p _
  | some f =>
      cases hd : s.oalloc p with
      | none => exact h.setError p _
      | some d =>
          have hone := hs.used (ofile_spec ho).2
          have hlt := (hg.resolve_left (by simp [hd])) f ho
          refine h.calm hs rfl (fun q => Or.inl rfl) fun g => ?_
          by_cases hgf : g = f
          · subst hgf
            refine Or.inr (Or.inl ⟨iff_of_false ?_ ?_, fun _ => ?_⟩)
            · intro h0
              have h0' : ((s.file g).count + 1).toNat = 0 := by
                simpa [setFile, setSlot] using congrArg UInt8.toNat h0
              rw [UInt8.toNat_add] at h0'
              change ((s.file g).count.toNat + 1) % 256 = 0 at h0'
              omega
            · intro h0
              rw [h0] at hone
              exact absurd hone (by decide)
            · simp [setFile, setSlot]
          · exact Or.inl (by simp [setFile, setSlot, Function.update_of_ne hgf])

lemma still_bump (hs : s.Sound) (hg : (s.file f).count.toNat +
    Slots.row nopen (s.olist p) f < 256) : Still (s.file f) ((s.bump p).file f) := by
  have hc := bump_count s p f hg
  refine Or.inr (Or.inl ⟨⟨fun h0 => ?_, fun h0 => ?_⟩, fun _ => ⟨rfl, rfl⟩⟩)
  · rw [h0] at hc
    refine UInt8.toNat_inj.mp ?_
    change 0 = _ at hc
    change _ = 0
    omega
  · refine UInt8.toNat_inj.mp ?_
    rw [hc, h0, Slots.row_eq_zero.mpr fun j _ => hs.free h0 p j]
    rfl

/-- `fork` -/
lemma Fine.forkCall (h : s.Fine) (hs : s.Sound) {c : ℕ} {k : Copy} (hi : s.Idle p)
    (hdead : s.phase c = .dead) (hg : s.Intact (.fork p c k)) : (s.fork p c k).Fine := by
  have hrow : ∀ f, nfile ≤ f → Slots.row nopen (s.olist p) f = 0 := by
    intro f hf
    refine Slots.row_eq_zero.mpr fun j _ hj => ?_
    have hlt := (hs.range p j f hj).2.2
    omega
  have hall : ∀ f, (s.file f).count.toNat + Slots.row nopen (s.olist p) f < 256 := by
    intro f
    have hlt := (s.file f).count.toNat_lt
    by_cases hk : k = .full
    · have hno : ∀ fd < nopen, s.olist p fd = none := by simpa [Intact, hk] using hg
      rw [Slots.row_eq_zero.mpr fun j hj => by rw [hno j hj]; simp]
      omega
    · have hall : ∀ f < nfile, (s.file f).count.toNat + Slots.row nopen (s.olist p) f < 256 := by
        simpa [Intact, hk] using hg
      by_cases hf : f < nfile
      · exact hall f hf
      · rw [hrow f (by omega)]
        omega
  have hnp : (s.phase p).node = none := by
    rw [hi.2]
    rfl
  have hnc : (s.phase c).node = none := by
    rw [hdead]
    rfl
  cases k with
  | room =>
      refine h.calm hs rfl (fun q => ?_) fun f => still_bump hs (hall f)
      by_cases hq : q = c
      · subst hq
        exact Or.inr ⟨hnc, by simp [State.fork, State.setPhase, Phase.node],
          by simp [State.fork, State.setPhase, Phase.held]⟩
      · exact Or.inl (by simp [State.fork, State.setPhase, State.inherit, bump, Function.update_of_ne hq])
  | full => exact h.calm hs rfl (fun q => Or.inl rfl) fun f => still_bump hs (hall f)
  | swap =>
      refine h.calm hs rfl (fun q => ?_) fun f => still_bump hs (hall f)
      by_cases hqp : q = p
      · subst hqp
        exact Or.inr ⟨hnp, by simp [State.fork, State.setPhase, Phase.node],
          by simp [State.fork, State.setPhase, Phase.held]⟩
      · by_cases hq : q = c
        · subst hq
          exact Or.inr ⟨hnc, by simp [State.fork, State.setPhase, Phase.node, Function.update_of_ne hqp],
            by simp [State.fork, State.setPhase, Phase.held, Function.update_of_ne hqp]⟩
        · exact Or.inl (by
            simp [State.fork, State.setPhase, State.inherit, bump, Function.update_of_ne hq,
              Function.update_of_ne hqp])

lemma Fine.forked (h : s.Fine) (hs : s.Sound) {c : ℕ} (hx : s.phase p = .forking c) (ok : Bool) :
    (s.forked p c ok).Fine := by
  have hnp : (s.phase p).node = none := by
    rw [hx]
    rfl
  have hnc : (s.phase c).node = none := by
    rw [(hs.fork p c hx).2.1]
    rfl
  have hph : ∀ q, (s.forked p c ok).phase q =
      if q = p then .idle else if q = c then (if ok then .idle else .dead) else s.phase q := by
    intro q
    unfold State.forked
    split_ifs with h1 h2 h3 <;> simp_all [State.setPhase, State.fail, State.setError]
  have hfile : (s.forked p c ok).file = s.file := by
    unfold State.forked
    split_ifs <;> rfl
  have hinode : (s.forked p c ok).inode = s.inode := by
    unfold State.forked
    split_ifs <;> rfl
  refine h.calm hs hinode (fun q => ?_) fun f => Or.inl (by rw [hfile])
  rw [hph]
  split_ifs with h1 h2 h3
  · exact Or.inr ⟨h1 ▸ hnp, rfl, rfl⟩
  · exact Or.inr ⟨h2 ▸ hnc, rfl, rfl⟩
  · exact Or.inr ⟨h2 ▸ hnc, rfl, rfl⟩
  · exact Or.inl rfl

/-- **The end of an entry**: a writer clears the flag. -/
lemma Fine.fclose (h : s.Fine) (hs : s.Sound) (hc : (s.file f).count ≠ 0) {o : ℕ → ℕ → Option ℕ} :
    ({ s with olist := o }.fclose f).Fine := by
  set t : State := { s with olist := o } with ht
  set u := t.setFile f { s.file f with count := (s.file f).count - 1 } with hu
  have hother : ∀ g, g ≠ f → u.file g = s.file g := fun g hg => by
    simp [hu, ht, setFile, Function.update_of_ne hg]
  have hself : u.file f = { s.file f with count := (s.file f).count - 1 } := by
    simp [hu, setFile]
  by_cases hlast : (u.file f).count ≠ 0
  · have hrun : t.fclose f = u := if_pos hlast
    rw [hrun]
    refine h.calm hs rfl (fun q => Or.inl rfl) fun g => ?_
    by_cases hg : g = f
    · subst hg
      refine Or.inr (Or.inl ⟨iff_of_false hlast hc, fun _ => ?_⟩)
      rw [hself]
      exact ⟨rfl, rfl⟩
    · exact Or.inl (hother g hg)
  · have hnone : (u.file f).inode = none → t.fclose f = u := fun hip => by
      rw [State.fclose]
      exact (if_neg hlast).trans (by rw [hip])
    have hsome : ∀ ip, (u.file f).inode = some ip →
        t.fclose f = if writ (u.file f).mode then u.mark ip false else u := fun ip hip => by
      rw [State.fclose]
      exact (if_neg hlast).trans (by rw [hip])
    have hzero : (u.file f).count = 0 := not_not.mp hlast
    have hmi : (u.file f).mode = (s.file f).mode ∧ (u.file f).inode = (s.file f).inode := by
      rw [hself]
      exact ⟨rfl, rfl⟩
    have hstill : writ (s.file f).mode = false ∨ (s.file f).inode = none → u.Fine := by
      intro hw
      refine h.calm hs rfl (fun q => Or.inl rfl) fun g => ?_
      by_cases hg : g = f
      · subst hg
        exact Or.inr (Or.inr (Or.inl ⟨hzero, hmi.1, hw⟩))
      · exact Or.inl (hother g hg)
    rw [hmi.2] at hnone hsome
    cases hip : (s.file f).inode with
    | none => exact hnone hip ▸ hstill (Or.inr hip)
    | some ip =>
        rw [hsome ip hip, hmi.1]
        split_ifs with hw
        · -- a writer leaves
          have hopen : s.OpenFor ip f := ⟨⟨hc, hip⟩, hw⟩
          have hrefs : ∀ i g, (u.mark ip false).Refs i g ↔ s.Refs i g ∧ g ≠ f := by
            intro i g
            by_cases hg : g = f
            · subst hg
              exact iff_of_false (fun hr => hr.1 hzero) fun hr => hr.2 rfl
            · have he : (u.mark ip false).file g = s.file g := hother g hg
              rw [Refs, Refs, he]
              simp [hg]
          have hmark := fun j => mark_inode u ip false j
          refine ⟨?_, ?_, h.ends.kept hs ⟨fun g hg => ?_, fun q => Or.inl rfl⟩⟩
          · refine Sole.leave (i := ip) (w := .inl f) h.good hopen (fun j => (hmark j).1)
              (fun j => (hmark j).2) ?_
            rintro i (g | q)
            · simp only [Writer, OpenFor, hrefs, Sum.inl.injEq]
              by_cases hg : g = f
              · subst hg
                refine iff_of_false (fun hr => hr.1.2 rfl) fun hr => hr.2 ⟨?_, rfl⟩
                have hi := hr.1.1.2
                rw [hip] at hi
                exact (Option.some.inj hi).symm
              · have he : (u.mark ip false).file g = s.file g := hother g hg
                simp [hg, he]
            · simp only [Writer, reduceCtorEq, and_false, not_false_eq_true, and_true]
              exact Iff.rfl
          · have hl' : (s.mark ip false).Locks :=
              h.locks.flag (fun i => ⟨rfl, rfl, rfl⟩) (Or.inr (by simp))
            exact hl'.congr rfl (fun i g hr => Or.inl ((hrefs i g).mp hr).1) fun q => Or.inl rfl
          · by_cases hgf : g = f
            · rw [hgf]
              exact hmi.1
            · exact congrArg File.mode (hother g hgf)
        · exact hstill (Or.inl (by simpa using hw))

lemma Fine.close (h : s.Fine) (hs : s.Sound) (p fd : ℕ) : (s.close p fd).Fine := by
  unfold State.close
  cases ho : s.ofile p fd with
  | none => exact h.setError p _
  | some f =>
      have hone := hs.used (ofile_spec ho).2
      refine h.fclose hs (f := f) fun h0 => ?_
      rw [h0] at hone
      exact absurd hone (by decide)

/-- The loop of `exit`. -/
lemma Fine.exitLoop (h : s.Fine) (hs : s.Sound) (hx : s.phase p = .closing fd) :
    (s.exitLoop p fd).Fine := by
  have hone : ∀ (t : State) (k : Phase), t.phase p = .closing fd → k.node = none → k.held = none →
      ∀ q, (t.setPhase p k).phase q = t.phase q ∨ (t.phase q).node = none ∧
        ((t.setPhase p k).phase q).node = none ∧ ((t.setPhase p k).phase q).held = none := by
    intro t k ht h1 h2 q
    by_cases hq : q = p
    · subst hq
      rw [ht]
      refine Or.inr ⟨rfl, ?_, ?_⟩
      · simpa [State.setPhase] using h1
      · simpa [State.setPhase] using h2
    · exact Or.inl (Function.update_of_ne hq ..)
  unfold State.exitLoop
  split_ifs
  · have hph : ((s.close p fd).enter p).phase p = .closing fd :=
      (congrFun (close_phase s p fd) p).trans hx
    have hsc : ((s.close p fd).enter p).Sound :=
      (hs.close (by rw [hx]; rfl) fd).same (same_setError _ p none)
    exact ((h.close hs p fd).setError p none).calm hsc rfl (hone _ _ hph rfl rfl) fun _ => Or.inl rfl
  · exact h.calm hs rfl (hone s _ hx rfl rfl) fun _ => Or.inl rfl

/-- `idec` frees an inode. -/
lemma Fine.free (h : s.Fine) (hs : s.Sound) (hu : s.Unused ip) :
    (s.modInode ip fun i =>
      { i with fmt := .ifreg, ialloc := false, isvtx := false, perm := 0, uid := 0, gid := 0 }).Fine := by
  have hr : ∀ f, ¬s.Refs ip f := by
    rintro f ⟨h1, h2⟩
    by_cases hf : f < nfile
    · exact hu.1 f hf h1 h2
    · -- beyond the table there are no entries
      have hc := hs.count f
      rw [Slots.total_eq_zero.mpr fun p _ fd _ ho => hf (hs.range p fd f ho).2.2] at hc
      exact h1 (UInt8.toNat_inj.mp hc)
  have hn : ∀ q, (s.phase q).node ≠ some ip := by
    intro q
    by_cases hq : q < nproc
    · exact hu.2 q hq
    · have hd : s.phase q = .dead := by
        by_contra hd
        exact hq (hs.lt q hd)
      rw [hd]
      simp [Phase.node]
  exact ⟨h.good.remake hr hn rfl, h.locks.remake hr hn _,
    h.ends.kept hs ⟨fun f _ => rfl, fun q => Or.inl rfl⟩⟩

/-! ## Every reachable state -/

lemma Start.fine (h : s.Start) : s.Fine := by
  obtain ⟨h1, -, h3, h4⟩ := h
  have hn : ∀ p, (s.phase p).node = none := by
    intro p
    rcases h4 p with hp | hp
    · rw [hp]
      rfl
    · rw [hp.2]
      rfl
  have hrefs : ∀ i f, ¬s.Refs i f := fun i f hr => hr.1 (h1 f)
  have hnode : ∀ i p, (s.phase p).node ≠ some i := fun i p => by rw [hn]; simp
  have hholds : ∀ p i, ¬s.Holds p i := by
    intro p i hp
    refine hnode i p ?_
    rcases hp with hp | ⟨m, hp, -⟩ <;> rw [hp] <;> rfl
  refine ⟨⟨fun i hi => ?_, fun i w _ hw => ?_⟩, ⟨fun i f hr => ?_, fun p i hp => ?_, fun p i hp => ?_,
    fun p q i hp => ?_, fun p i hp => ?_⟩, fun p rf rd wf wd hp => ?_⟩
  · rw [(h3 i).1] at hi
    exact absurd hi (by simp)
  · exact absurd hw (not_writer (hrefs i) (hnode i) w)
  · exact absurd hr (hrefs i f)
  · exact absurd hp (hnode i p)
  · exact absurd hp (hholds p i)
  · exact absurd hp (hholds p i)
  · exact (h3 i).1
  · rcases h4 p with hd | hd
    · rw [hd] at hp
      exact absurd hp (by simp)
    · rw [hd.2] at hp
      exact absurd hp (by simp)

/-- Every step that meets the condition keeps the invariants. -/
lemma Fine.step (h : s.Fine) (hs : s.Sound) {l : Label} (hg : s.Meets l)
    (hstep : s.step l = some s') : s'.Fine := by
  obtain ⟨hint, hap⟩ := hg
  have hen : ∀ p, (s.enter p).Fine ∧ (s.enter p).Sound := fun p =>
    ⟨h.setError p none, hs.same (same_setError s p none)⟩
  have herr : ∀ p, (s.enter p).error p = none := fun p => by simp [enter, State.setError]
  cases l with
  | «open» p u ip m =>
      simp only [State.step] at hstep
      split_ifs at hstep with hc
      cases hstep
      exact (hen p).1.openCall (hen p).2 hc.1 hc.2 (herr p) hap
  | creat p u ip =>
      simp only [State.step] at hstep
      split_ifs at hstep with hc
      cases hstep
      exact (hen p).1.creat (hen p).2 hc.1 hc.2
  | truncated p e =>
      simp only [State.step] at hstep
      split at hstep
      next ip hx =>
        cases hstep
        exact h.truncated hs hx e
      next => cases hstep
  | create p ip isvtx perm uid gid e =>
      simp only [State.step] at hstep
      split_ifs at hstep with hc
      cases hstep
      exact h.create hs hc.1 hc.2 isvtx perm uid gid e
  | opened p e =>
      simp only [State.step] at hstep
      split at hstep
      next ip mode hx =>
        split_ifs at hstep with hb
        cases hstep
        refine h.opened hs hx ?_ hap
        by_cases hf : (s.inode ip).fmt = .ifchr
        · exact Or.inr (by simpa [hf] using hb)
        · exact Or.inl (Or.inr ⟨mode, hx, hf⟩)
      next => cases hstep
  | abort p =>
      simp only [State.step] at hstep
      split at hstep
      next ip mode hx =>
        split_ifs at hstep
        cases hstep
        exact h.abort hs hx hap
      next => cases hstep
  | chmod ip isvtx perm =>
      simp only [State.step] at hstep
      split_ifs at hstep
      cases hstep
      exact h.chmod hs hap
  | pipe p =>
      simp only [State.step] at hstep
      split_ifs at hstep with hc
      cases hstep
      exact (hen p).1.pipeCall (hen p).2 hc
  | piped p o =>
      simp only [State.step] at hstep
      split at hstep
      next rf rd wf wd hx =>
        cases o with
        | none =>
            cases hstep
            exact h.unpipe hs hx
        | some ip =>
            simp only at hstep
            split_ifs at hstep with hc
            cases hstep
            exact h.piped hs hx hc
      next => cases hstep
  | dup p fd =>
      simp only [State.step] at hstep
      split_ifs at hstep with hc
      cases hstep
      exact (hen p).1.dup (hen p).2 hint
  | fork p c k =>
      simp only [State.step] at hstep
      split_ifs at hstep with hc
      cases hstep
      exact (hen p).1.forkCall (hen p).2 hc.1 hc.2.2 hint
  | forked p ok =>
      simp only [State.step] at hstep
      split at hstep
      next c hx =>
        cases hstep
        exact h.forked hs hx ok
      next => cases hstep
  | close p fd =>
      simp only [State.step] at hstep
      split_ifs at hstep with hc
      cases hstep
      exact (hen p).1.close (hen p).2 p fd
  | exit p =>
      simp only [State.step] at hstep
      split_ifs at hstep with hc
      cases hstep
      refine h.calm hs rfl (fun q => ?_) fun _ => Or.inl rfl
      by_cases hq : q = p
      · subst hq
        rw [hc.2]
        exact Or.inr ⟨rfl, by simp [State.setPhase, Phase.node], by simp [State.setPhase, Phase.held]⟩
      · exact Or.inl (Function.update_of_ne hq ..)
  | next p =>
      simp only [State.step] at hstep
      split at hstep
      next fd hx =>
        cases hstep
        exact h.exitLoop hs hx
      next => cases hstep
  | free ip =>
      simp only [State.step] at hstep
      split_ifs at hstep with hc
      cases hstep
      exact h.free hs hc.1

lemma reach_fine (h : Reach State.step State.Start Meets s) : s.Sound ∧ s.Fine :=
  h.invariant (I := fun s => s.Sound ∧ s.Fine) (fun _ h0 => ⟨Start.sound h0, Start.fine h0⟩) fun _ _ _ hs hg he =>
    ⟨hs.1.step hg.1 he, hs.2.step hs.1 hg he⟩

/-! ## Writers that are new -/

/-- No entry comes into use. -/
lemma openFor_of_keep (h : ∀ f, (s'.file f).count ≠ 0 → (s.file f).count ≠ 0 ∧
      (s'.file f).mode = (s.file f).mode ∧ (s'.file f).inode = (s.file f).inode) {i g : ℕ}
    (ho : s'.OpenFor i g) : s.OpenFor i g := by
  obtain ⟨⟨hc, hi⟩, hw⟩ := ho
  obtain ⟨h1, h2, h3⟩ := h g hc
  exact ⟨⟨h1, h3 ▸ hi⟩, h2 ▸ hw⟩

lemma iopenEnd_openFor {i g : ℕ} (ho : (s.iopenEnd p ip mode).OpenFor i g) :
    s.OpenFor i g ∨ i = ip ∧ writ mode = true := by
  by_cases hc : s.Fails p
  · exact Or.inl ((iopenEnd_fails ip mode hc).2.2.openFor.mp ho)
  · obtain ⟨-, -, f, hf⟩ := iopenEnd_ok ip mode hc
    rcases hf.openFor.mp ho with ho' | ⟨⟨hm, hip⟩, -⟩
    · exact Or.inl ho'
    · exact Or.inr ⟨(Option.some.inj hip).symm, hm⟩

lemma iopen_openFor {i g : ℕ} (ho : (s.iopen p ip mode).OpenFor i g) :
    s.OpenFor i g ∨ i = ip ∧ writ mode = true := by
  unfold State.iopen at ho
  set t := if writ mode && (s.inode ip).isvtx then s.mark ip true else s with ht
  have hfile : t.file = s.file := by rw [ht]; split_ifs <;> rfl
  have hend : ∀ u : State, u.file = s.file → (u.iopenEnd p ip mode).OpenFor i g →
      s.OpenFor i g ∨ i = ip ∧ writ mode = true := by
    intro u hu hg
    have hg' := iopenEnd_openFor hg
    rwa [OpenFor, Refs, hu] at hg'
  simp only at ho
  cases hfmt : (t.inode ip).fmt with
  | ifreg =>
      rw [hfmt] at ho
      exact hend t hfile ho
  | ifdir =>
      rw [hfmt] at ho
      by_cases hm : writ mode = true
      · simp only [hm, if_true] at ho
        exact hend (t.fail p .eisdir) hfile ho
      · simp only [hm] at ho
        exact hend t hfile ho
  | ifchr =>
      rw [hfmt, OpenFor, Refs] at ho
      simp only [State.setPhase, hfile] at ho
      exact Or.inl ho
  | ifblk =>
      rw [hfmt, OpenFor, Refs] at ho
      simp only [State.setPhase, hold, modInode, hfile] at ho
      exact Or.inl ho

lemma close_keep (hs : s.Sound) (p fd f : ℕ) (hc : ((s.close p fd).file f).count ≠ 0) :
    (s.file f).count ≠ 0 ∧ ((s.close p fd).file f).mode = (s.file f).mode ∧
      ((s.close p fd).file f).inode = (s.file f).inode := by
  unfold State.close at hc ⊢
  cases ho : s.ofile p fd with
  | none =>
      rw [ho] at hc
      exact ⟨hc, rfl, rfl⟩
  | some g =>
      rw [ho] at hc
      simp only at hc ⊢
      have hfile : ∀ t : State, (t.fclose g).file =
          (t.setFile g { t.file g with count := (t.file g).count - 1 }).file := by
        intro t
        unfold State.fclose
        dsimp only
        generalize t.setFile g { t.file g with count := (t.file g).count - 1 } = u
        by_cases hu : (u.file g).count ≠ 0
        · rw [if_pos hu]
        · rw [if_neg hu]
          cases (u.file g).inode with
          | none => rfl
          | some i =>
              dsimp only
              split_ifs <;> rfl
      rw [hfile] at hc ⊢
      by_cases hg : f = g
      · subst hg
        have hone := hs.used (ofile_spec ho).2
        refine ⟨fun h0 => ?_, by simp [setFile, setSlot], by simp [setFile, setSlot]⟩
        rw [h0] at hone
        exact absurd hone (by decide)
      · simp only [setFile, setSlot, Function.update_of_ne hg] at hc ⊢
        exact ⟨hc, trivial, trivial⟩

/-- A new writer has found the flag clear, or was asleep in its open. -/
lemma Fine.openFor (h : s.Fine) (hs : s.Sound) {l : Label} (hstep : s.step l = some s') {g : ℕ}
    (ho : s'.OpenFor ip g) :
    s.OpenFor ip g ∨ (s.inode ip).iwrlock = false ∨ ∃ p, s.Writer ip (.inr p) := by
  have hfresh : s.Fresh ip → (s.inode ip).iwrlock = false := by
    intro hf
    obtain ⟨hr, hn⟩ := h.locks.fresh hf.1
    exact h.good.flag_eq_false (not_writer hr hn)
  cases l with
  | «open» p u i m =>
      simp only [State.step] at hstep
      split_ifs at hstep
      cases hstep
      unfold State.open at ho
      split at ho
      · exact Or.inl ho
      · next ha =>
          rcases iopen_openFor ho with ho' | ⟨rfl, hm⟩
          · exact Or.inl ho'
          · exact Or.inr (Or.inl (access_flag ha hm))
  | creat p u i =>
      simp only [State.step] at hstep
      split_ifs at hstep
      cases hstep
      unfold State.creat at ho
      split_ifs at ho
      · exact Or.inl ho
      · split at ho <;> exact Or.inl ho
  | truncated p e =>
      simp only [State.step] at hstep
      split at hstep
      next i hx =>
        cases hstep
        rcases iopen_openFor ho with ho' | ⟨rfl, -⟩
        · exact Or.inl ho'
        · exact Or.inr (Or.inl (h.locks.trunc p ip hx))
      next => cases hstep
  | create p i isvtx perm uid gid e =>
      simp only [State.step] at hstep
      split_ifs at hstep with hc
      cases hstep
      rcases iopen_openFor ho with ho' | ⟨rfl, -⟩
      · exact Or.inl ho'
      · exact Or.inr (Or.inl (hfresh hc.2))
  | opened p e =>
      simp only [State.step] at hstep
      split at hstep
      next i mode hx =>
        split_ifs at hstep
        cases hstep
        rcases iopenEnd_openFor ho with ho' | ⟨rfl, hm⟩
        · exact Or.inl ho'
        · refine Or.inr (Or.inr ⟨p, ?_⟩)
          simp only [Writer, hx, Phase.writes, hm, if_true]
      next => cases hstep
  | abort p =>
      simp only [State.step] at hstep
      split at hstep
      · split_ifs at hstep
        cases hstep
        exact Or.inl ho
      · cases hstep
  | chmod i isvtx perm =>
      simp only [State.step] at hstep
      split_ifs at hstep
      cases hstep
      exact Or.inl ho
  | pipe p =>
      simp only [State.step] at hstep
      split_ifs at hstep
      cases hstep
      have hf : ∀ f, Still ((s.enter p).file f) (((s.enter p).pipe p).file f) := fun f =>
        ((pipe_effect (s.enter p) p).2.1 f).elim Or.inl fun hc => still_free hc.1 hc.2
      exact Or.inl ((Still.openFor hf).mp ho)
  | piped p o =>
      simp only [State.step] at hstep
      split at hstep
      next rf rd wf wd hx =>
        obtain ⟨-, hrc, -, -, -, hwc⟩ := hs.pipe p rf rd wf wd hx
        have hne : rf ≠ wf := by
          rintro rfl
          rw [hwc] at hrc
          exact absurd hrc (by decide)
        cases o with
        | none =>
            cases hstep
            refine Or.inl (openFor_of_keep (fun f hc => ?_) ho)
            by_cases hf : f = rf
            · subst hf
              simp [State.setPhase, State.unpipe, setFile, setSlot] at hc
            · simp only [State.setPhase, State.unpipe, setFile, setSlot, Function.update_of_ne hf]
                at hc ⊢
              exact ⟨hc, trivial, trivial⟩
        | some i =>
            simp only at hstep
            split_ifs at hstep with hc
            cases hstep
            rcases (piped_openFor hwc hne (h.ends p rf rd wf wd hx)).mp ho with ho' | ⟨rfl, -⟩
            · exact Or.inl ho'
            · exact Or.inr (Or.inl (hfresh hc))
      next => cases hstep
  | dup p fd =>
      simp only [State.step] at hstep
      split_ifs at hstep
      cases hstep
      refine Or.inl (openFor_of_keep (fun f hc => ?_) ho)
      unfold State.dup at hc ⊢
      cases hof : (s.enter p).ofile p fd with
      | none =>
          rw [hof] at hc
          exact ⟨hc, rfl, rfl⟩
      | some g' =>
          rw [hof] at hc
          have hone := hs.used (ofile_spec hof).2
          cases hoa : (s.enter p).oalloc p with
          | none =>
              rw [hoa] at hc
              exact ⟨hc, rfl, rfl⟩
          | some d =>
              rw [hoa] at hc
              by_cases hf : f = g'
              · subst hf
                refine ⟨fun h0 => ?_, by simp [setFile, setSlot, enter, State.setError],
                  by simp [setFile, setSlot, enter, State.setError]⟩
                rw [h0] at hone
                exact absurd hone (by decide)
              · simp only [setFile, setSlot, Function.update_of_ne hf] at hc ⊢
                exact ⟨hc, rfl, rfl⟩
  | fork p c k =>
      simp only [State.step] at hstep
      split_ifs at hstep
      cases hstep
      refine Or.inl (openFor_of_keep (fun f hc => ?_) ho)
      have hfile : ((s.enter p).fork p c k).file = ((s.enter p).bump p).file := by
        cases k <;> rfl
      rw [hfile] at hc ⊢
      refine ⟨fun h0 => hc ?_, rfl, rfl⟩
      have hrow : Slots.row nopen ((s.enter p).olist p) f = 0 :=
        Slots.row_eq_zero.mpr fun j _ => hs.free h0 p j
      simp only [bump, hrow]
      exact (congrArg (· + UInt8.ofNat 0) h0).trans (by decide)
  | forked p ok =>
      simp only [State.step] at hstep
      split at hstep
      · cases hstep
        unfold State.forked at ho
        split_ifs at ho <;> exact Or.inl ho
      · cases hstep
  | close p fd =>
      simp only [State.step] at hstep
      split_ifs at hstep
      cases hstep
      exact Or.inl (openFor_of_keep (close_keep (hs.same (same_setError s p none)) p fd) ho)
  | exit p =>
      simp only [State.step] at hstep
      split_ifs at hstep
      cases hstep
      exact Or.inl ho
  | next p =>
      simp only [State.step] at hstep
      split at hstep
      next fd hx =>
        cases hstep
        unfold State.exitLoop at ho
        split_ifs at ho
        · exact Or.inl (openFor_of_keep (close_keep hs p fd) ho)
        · exact Or.inl ho
      next => cases hstep
  | free i =>
      simp only [State.step] at hstep
      split_ifs at hstep
      cases hstep
      exact Or.inl ho

/-- **Exclusive write.**  In every run whose steps meet the condition, while a sticky inode is open for
writing no step opens it for writing again, and `open` and `creat` for writing fail; and when nobody
has an inode open for writing, or is about to, an open for writing that is permitted succeeds. -/
theorem exclusive_write (h : Reach State.step State.Start Meets s) (ip : ℕ) :
    ((s.inode ip).isvtx = true → ∀ f, s.OpenFor ip f →
      (∀ l s', s.step l = some s' → ∀ g, s'.OpenFor ip g → g = f) ∧
      (∀ p u m s', s.step (.open p u ip m) = some s' → writ (imode m) = true →
        (s'.error p).isSome) ∧
      ∀ p u s', s.step (.creat p u ip) = some s' → (s'.error p).isSome) ∧
    ((∀ f, ¬s.OpenFor ip f) → (∀ p, (s.phase p).writes ≠ some ip) →
      (s.inode ip).iwrlock = false ∧
      ∀ p u, s.Idle p → s.Ready ip → (s.inode ip).fmt = .ifreg → (s.inode ip).ironly = false →
        u.euid = 0 → s.falloc ≠ none → s.oalloc p ≠ none →
          ∃ s' f, s.step (.open p u ip 1) = some s' ∧ s'.OpenFor ip f) := by
  obtain ⟨hs, hf⟩ := reach_fine h
  refine ⟨fun hst f ho => ?_, fun hno hnp => ?_⟩
  · have hwf : s.Writer ip (.inl f) := ho
    have hflag : (s.inode ip).iwrlock = true := hf.good.locked ip (.inl f) hst ho
    have hden : ∀ u per, writ per = true → access u (s.inode ip) per ≠ none := by
      intro u per hw ha
      rw [access_flag ha hw] at hflag
      exact absurd hflag (by simp)
    refine ⟨fun l s' hstep g hg => ?_, fun p u m s' hstep hw => ?_, fun p u s' hstep => ?_⟩
    · rcases hf.openFor hs hstep hg with hg' | hg' | ⟨p, hp⟩
      · have hw : s.Writer ip (.inl g) := hg'
        exact Sum.inl.inj (hf.good.eq hst hw hwf)
      · rw [hflag] at hg'
        exact absurd hg' (by simp)
      · exact absurd (hf.good.eq hst hp hwf) (by simp)
    · simp only [State.step] at hstep
      split_ifs at hstep
      cases hstep
      unfold State.open
      obtain ⟨e, he⟩ := Option.ne_none_iff_exists'.mp (hden u (imode m) hw)
      have he' : access u ((s.enter p).inode ip) (imode m) = some e := he
      rw [he']
      simp [fail, setError]
    · simp only [State.step] at hstep
      split_ifs at hstep
      cases hstep
      unfold State.creat
      obtain ⟨e, he⟩ := Option.ne_none_iff_exists'.mp (hden u iWrite rfl)
      have he' : access u ((s.enter p).inode ip) iWrite = some e := he
      rw [he']
      split_ifs <;> simp [fail, setError]
  · have hflag : (s.inode ip).iwrlock = false := hf.good.flag_eq_false (by
      rintro (f | p) hw
      · exact hno f hw
      · exact hnp p hw)
    refine ⟨hflag, fun p u hi hr hreg hro hu hfa hoa => ?_⟩
    have hacc : access u ((s.enter p).inode ip) (imode 1) = none := by
      change access u (s.inode ip) iWrite = none
      unfold access
      simp [hreg, hro, hflag, hu, iWrite, iExec, writ]
    have hopen : (s.enter p).open p u ip 1 = (s.enter p).iopen p ip iWrite := by
      unfold State.open
      rw [hacc]
      rfl
    have hstep : s.step (.open p u ip 1) = some ((s.enter p).iopen p ip iWrite) := by
      simp only [State.step]
      rw [if_pos ⟨hi, hr⟩, hopen]
    -- the regular file is open at once
    have hend : ∀ t : State, t.file = s.file → t.olist = s.olist → t.error p = none →
        ¬t.Fails p := by
      intro t h1 h2 h3
      unfold Fails
      rintro (he | hfa' | hoa')
      · exact he h3
      · refine hfa ?_
        unfold falloc at hfa' ⊢
        rwa [h1] at hfa'
      · refine hoa ?_
        unfold State.oalloc at hoa' ⊢
        rwa [h2] at hoa'
    have herr : (s.enter p).error p = none := by simp [enter, setError]
    obtain ⟨t, h1, h2, h3, h4⟩ : ∃ t : State, t.file = s.file ∧ t.olist = s.olist ∧
        t.error p = none ∧ (s.enter p).iopen p ip iWrite = t.iopenEnd p ip iWrite := by
      refine ⟨if writ iWrite && ((s.enter p).inode ip).isvtx then (s.enter p).mark ip true
        else s.enter p, ?_, ?_, ?_, ?_⟩
      · split_ifs <;> rfl
      · split_ifs <;> rfl
      · split_ifs <;> exact herr
      · unfold State.iopen
        have hfmt : ((if writ iWrite && ((s.enter p).inode ip).isvtx then (s.enter p).mark ip true
            else s.enter p).inode ip).fmt = .ifreg := by
          split_ifs
          · simpa [mark, modInode, enter, setError] using hreg
          · exact hreg
        simp only [hfmt]
    obtain ⟨-, -, f, hgr⟩ := iopenEnd_ok ip iWrite (hend t h1 h2 h3)
    rw [h4] at hstep
    exact ⟨_, f, hstep, hgr.openFor.mpr (Or.inr ⟨⟨rfl, rfl⟩, rfl⟩)⟩

/-- A second open for writing is refused, and so are all that follow while the first is open. -/
theorem exclusive_write_busy : ∃ s, run State.step Meets (boot true)
      [.open 1 ⟨0, 0⟩ 0 1, .open 2 ⟨0, 0⟩ 0 1] = some s ∧ s.error 2 = some .ebusy ∧
    ∀ l s', s.step l = some s' → ∀ g, s'.OpenFor 0 g → g = 0 := by
  have hr : ((run State.step Meets (boot true)
      [.open 1 ⟨0, 0⟩ 0 1, .open 2 ⟨0, 0⟩ 0 1]).map fun s =>
        (s.error 2, (s.inode 0).isvtx, decide (s.OpenFor 0 0))) = some (some .ebusy, true, true) := by
    decide +kernel
  obtain ⟨s, hs, hf⟩ := Option.map_eq_some_iff.mp hr
  simp only [Prod.mk.injEq, decide_eq_true_eq] at hf
  exact ⟨s, hs, hf.1, (((exclusive_write (Reach.of_run (boot_start true) hs) 0).1 hf.2.1) 0 hf.2.2).1⟩

/-- **A reader lets a second writer in.**  While process 1 has the sticky inode 0 open for writing,
process 2, which has all its slots in use, fails to open it for reading.  That clears the flag; process
2 closes a file and opens the inode for writing. -/
theorem reader_lets_writer_in : (run State.step (fun _ _ => True) (boot true)
      ([.open 1 ⟨0, 0⟩ 0 1] ++ List.replicate 16 (.open 2 ⟨0, 0⟩ 1 0) ++
        [.open 2 ⟨0, 0⟩ 0 0, .close 2 0, .open 2 ⟨0, 0⟩ 0 1])).map (fun s =>
      ((s.inode 0).isvtx, s.olist 1 0, s.olist 2 0, decide (s.OpenFor 0 0), decide (s.OpenFor 0 1))) =
    some (true, some 0, some 1, true, true) := by
  decide +kernel

end State

end Files

end Micronix
