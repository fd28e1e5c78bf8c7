import Micronix.File.Counts
import Micronix.Lib.Flag

/-!
# Writers

`IWRLOCK` stands for the presence of a writer of an inode with the sticky bit: an entry that is open for
writing, or a process that sleeps in such an open.
-/

namespace Micronix

namespace Files

open Transition

/-- The inode of an open for writing in which a process sleeps. -/
def Phase.writes : Phase → Option ℕ
  | opening ip mode => if writ mode then some ip else none
  | _ => none

/-- The inode of an open for reading in which a process sleeps. -/
def Phase.reads : Phase → Option ℕ
  | opening ip mode => if writ mode then none else some ip
  | _ => none

namespace State

variable {s s' t : State} {p q f fd ip mode : ℕ}

/-! ## Writers -/

/-- The entry is in use for the inode. -/
def Refs (s : State) (ip f : ℕ) : Prop := (s.file f).count ≠ 0 ∧ (s.file f).inode = some ip

/-- The entry is open for writing on the inode. -/
def OpenFor (s : State) (ip f : ℕ) : Prop := s.Refs ip f ∧ writ (s.file f).mode = true

instance (s : State) (ip f : ℕ) : Decidable (s.OpenFor ip f) :=
  inferInstanceAs (Decidable ((_ ∧ _) ∧ _))

/-- Writers: entries, and processes that sleep in an open. -/
def Writer (s : State) (ip : ℕ) : ℕ ⊕ ℕ → Prop
  | .inl f => s.OpenFor ip f
  | .inr p => (s.phase p).writes = some ip

/-- The flags are right. -/
def Good (s : State) : Prop :=
  Sole (fun ip => (s.inode ip).iwrlock) (fun ip => (s.inode ip).isvtx) s.Writer

/-- The process sleeps with the inode locked. -/
def Holds (s : State) (p ip : ℕ) : Prop :=
  s.phase p = .truncating ip ∨ ∃ mode, s.phase p = .opening ip mode ∧ (s.inode ip).fmt ≠ .ifchr

/-- What is in use is allocated, and what a sleeper has locked is busy; who sleeps in `itrunc` has found
the flag clear. -/
structure Locks (s : State) : Prop where
  file : ∀ ip f, s.Refs ip f → (s.inode ip).ialloc = true
  node : ∀ p ip, (s.phase p).node = some ip → (s.inode ip).ialloc = true
  busy : ∀ p ip, s.Holds p ip → (s.inode ip).ibusy = true
  one : ∀ p q ip, s.Holds p ip → s.Holds q ip → p = q
  trunc : ∀ p ip, s.phase p = .truncating ip → (s.inode ip).iwrlock = false

/-! ## Entries -/

/-- The entries in use are as they were, and no other comes into use. -/
def Dormant (s s' : State) : Prop :=
  ∀ f, s'.file f = s.file f ∨ (s.file f).count = 0 ∧ (s'.file f).count = 0

lemma Dormant.refl (s : State) : Dormant s s := fun _ => Or.inl rfl

lemma Dormant.refs (h : Dormant s s') : s'.Refs ip f ↔ s.Refs ip f := by
  rcases h f with he | ⟨h1, h2⟩
  · rw [Refs, Refs, he]
  · exact iff_of_false (fun hr => hr.1 h2) fun hr => hr.1 h1

lemma Dormant.openFor (h : Dormant s s') : s'.OpenFor ip f ↔ s.OpenFor ip f := by
  rcases h f with he | ⟨h1, h2⟩
  · rw [OpenFor, OpenFor, Refs, Refs, he]
  · exact iff_of_false (fun hr => hr.1.1 h2) fun hr => hr.1.1 h1

/-- An entry comes into use. -/
structure Granted (s s' : State) (f mode : ℕ) (ip : Option ℕ) : Prop where
  free : (s.file f).count = 0
  entry : s'.file f = ⟨mode, 1, ip⟩
  other : ∀ g, g ≠ f → s'.file g = s.file g

namespace Granted

variable {o : Option ℕ}

lemma refs (h : Granted s s' f mode o) {i g : ℕ} :
    s'.Refs i g ↔ s.Refs i g ∨ o = some i ∧ g = f := by
  by_cases hg : g = f
  · subst hg
    rw [Refs, Refs, h.entry, h.free]
    simp
  · rw [Refs, Refs, h.other g hg]
    simp [hg]

lemma openFor (h : Granted s s' f mode o) {i g : ℕ} :
    s'.OpenFor i g ↔ s.OpenFor i g ∨ (writ mode = true ∧ o = some i) ∧ g = f := by
  rw [OpenFor, OpenFor, h.refs]
  by_cases hg : g = f
  · subst hg
    rw [h.entry]
    have hno : ¬s.Refs i g := fun hr => hr.1 h.free
    simp [hno, and_comm]
  · rw [h.other g hg]
    simp [hg]

end Granted

/-- The end of `iopen` fails. -/
def Fails (s : State) (p : ℕ) : Prop := s.error p ≠ none ∨ s.falloc = none ∨ s.oalloc p = none

instance (s : State) (p : ℕ) : Decidable (s.Fails p) := inferInstanceAs (Decidable (_ ∨ _ ∨ _))

lemma dormant_zero (hc : (s.file f).count = 0) : Dormant s (s.setFile f .zero) := by
  intro g
  by_cases hg : g = f
  · subst hg
    exact Or.inr ⟨hc, by simp [setFile, File.zero]⟩
  · exact Or.inl (Function.update_of_ne hg ..)

lemma iopenEnd_fails (ip mode : ℕ) (h : s.Fails p) :
    (s.iopenEnd p ip mode).phase = s.phase ∧
      (s.iopenEnd p ip mode).inode = (s.mark ip false).inode ∧
      Dormant s (s.iopenEnd p ip mode) := by
  unfold iopenEnd
  split_ifs with he
  · exact ⟨rfl, rfl, Dormant.refl s⟩
  · have h' := h.resolve_left (by simpa using he)
    cases hf : s.falloc with
    | none => exact ⟨rfl, rfl, Dormant.refl s⟩
    | some f =>
        obtain ⟨-, hc⟩ := falloc_spec hf
        have ho : (s.setFile f .zero).oalloc p = none := h'.resolve_left (by simp [hf])
        simp only [ho]
        exact ⟨rfl, rfl, dormant_zero hc⟩

lemma iopenEnd_ok (ip mode : ℕ) (h : ¬s.Fails p) :
    (s.iopenEnd p ip mode).phase = s.phase ∧ (s.iopenEnd p ip mode).inode = s.inode ∧
      ∃ f, Granted s (s.iopenEnd p ip mode) f mode (some ip) := by
  unfold Fails at h
  push Not at h
  obtain ⟨he, hf, ho⟩ := h
  obtain ⟨f, hf⟩ := Option.ne_none_iff_exists'.mp hf
  obtain ⟨fd, ho⟩ := Option.ne_none_iff_exists'.mp ho
  have ho' : (s.setFile f .zero).oalloc p = some fd := ho
  unfold iopenEnd
  rw [if_neg (by simp [he])]
  simp only [hf, ho', setFile_grant]
  refine ⟨rfl, rfl, f, (falloc_spec hf).2, ?_, fun g hg => ?_⟩
  · simp [State.grant, setFile, setSlot]
  · simp [State.grant, setFile, setSlot, Function.update_of_ne hg]

/-! ## What leaves the flags right -/

lemma writer_congr (ho : ∀ ip f, s'.OpenFor ip f ↔ s.OpenFor ip f)
    (hp : ∀ p, (s'.phase p).writes = (s.phase p).writes) (ip : ℕ) (w : ℕ ⊕ ℕ) :
    s'.Writer ip w ↔ s.Writer ip w := by
  cases w with
  | inl f => exact ho ip f
  | inr p => simp only [Writer, hp]

lemma Good.congr (h : s.Good) (hi : ∀ ip, (s'.inode ip).iwrlock = (s.inode ip).iwrlock ∧
      (s'.inode ip).isvtx = (s.inode ip).isvtx)
    (ho : ∀ ip f, s'.OpenFor ip f ↔ s.OpenFor ip f)
    (hp : ∀ p, (s'.phase p).writes = (s.phase p).writes) : s'.Good :=
  Sole.congr h (fun ip => (hi ip).1) (fun ip => (hi ip).2) (writer_congr ho hp)

lemma Locks.congr (h : s.Locks) (hi : s'.inode = s.inode)
    (hr : ∀ ip f, s'.Refs ip f → s.Refs ip f ∨ (s.inode ip).ialloc = true)
    (hp : ∀ p, s'.phase p = s.phase p ∨ (s'.phase p).node = none) : s'.Locks := by
  have hback : ∀ q ip, (s'.phase q).node = some ip → s'.phase q = s.phase q := by
    intro q ip hq
    rcases hp q with he | hn
    · exact he
    · rw [hn] at hq
      exact absurd hq (by simp)
  have hholds : ∀ q ip, s'.Holds q ip → s.Holds q ip := by
    intro q ip hq
    have hn : (s'.phase q).node = some ip := by
      rcases hq with hq | ⟨m, hq, -⟩ <;> rw [hq] <;> rfl
    rw [Holds, hback q ip hn, hi] at hq
    exact hq
  refine ⟨fun ip f hf => ?_, fun q ip hq => ?_, fun q ip hq => ?_, fun q r ip hq hr' => ?_,
    fun q ip hq => ?_⟩
  · rw [hi]
    rcases hr ip f hf with hf | ha
    · exact h.file ip f hf
    · exact ha
  · rw [hi]
    exact h.node q ip (hback q ip hq ▸ hq)
  · rw [hi]
    exact h.busy q ip (hholds q ip hq)
  · exact h.one q r ip (hholds q ip hq) (hholds r ip hr')
  · rw [hi]
    exact h.trunc q ip (hback q ip (by rw [hq]; rfl) ▸ hq)

/-- A change of the inode's flag, sticky bit or permissions. -/
lemma Locks.flag (h : s.Locks) {g : Inode → Inode}
    (hg : ∀ i, (g i).fmt = i.fmt ∧ (g i).ialloc = i.ialloc ∧ (g i).ibusy = i.ibusy)
    (ht : (∀ p, s.phase p ≠ .truncating ip) ∨ ((g (s.inode ip)).iwrlock = true →
      (s.inode ip).iwrlock = true)) : (s.modInode ip g).Locks := by
  have hsame : ∀ i, ((s.modInode ip g).inode i).fmt = (s.inode i).fmt ∧
      ((s.modInode ip g).inode i).ialloc = (s.inode i).ialloc ∧
      ((s.modInode ip g).inode i).ibusy = (s.inode i).ibusy := by
    intro i
    by_cases hi : i = ip
    · subst hi
      simpa [modInode] using hg (s.inode i)
    · simp [modInode, Function.update_of_ne hi]
  have hholds : ∀ q i, (s.modInode ip g).Holds q i ↔ s.Holds q i := by
    intro q i
    rw [Holds, Holds, (hsame i).1]
    rfl
  refine ⟨fun i f hf => ?_, fun q i hq => ?_, fun q i hq => ?_, fun q r i hq hr => ?_,
    fun q i hq => ?_⟩
  · rw [(hsame i).2.1]
    exact h.file i f hf
  · rw [(hsame i).2.1]
    exact h.node q i hq
  · rw [(hsame i).2.2]
    exact h.busy q i ((hholds q i).mp hq)
  · exact h.one q r i ((hholds q i).mp hq) ((hholds r i).mp hr)
  · have hold := h.trunc q i hq
    by_cases hi : i = ip
    · subst hi
      rcases ht with ht | ht
      · exact absurd hq (ht q)
      · have hself : (s.modInode i g).inode i = g (s.inode i) := by simp [modInode]
        rw [hself]
        by_contra hc
        rw [ht (by simpa using hc)] at hold
        exact absurd hold (by simp)
    · simpa [modInode, Function.update_of_ne hi] using hold

/-- A call that has slept with an inode, or on a terminal, goes on. -/
lemma Locks.wake (h : s.Locks) (hn : (s.phase p).node = some ip)
    (hx : s.Holds p ip ∨ (s.inode ip).ibusy = false) (e : Option Error) :
    (((s.hold ip false).setPhase p .idle).setError p e).Locks ∧
      ∀ q, ¬(((s.hold ip false).setPhase p .idle).setError p e).Holds q ip := by
  set t := ((s.hold ip false).setPhase p .idle).setError p e with ht
  have hphase : ∀ q, q ≠ p → t.phase q = s.phase q := fun q hq => Function.update_of_ne hq ..
  have hself : t.phase p = .idle := Function.update_self ..
  have hinode : ∀ i, (t.inode i).fmt = (s.inode i).fmt ∧ (t.inode i).ialloc = (s.inode i).ialloc ∧
      (t.inode i).iwrlock = (s.inode i).iwrlock ∧
      (i ≠ ip → (t.inode i).ibusy = (s.inode i).ibusy) := by
    intro i
    by_cases hi : i = ip
    · subst hi
      simp [ht, hold, modInode, setError, State.setPhase]
    · simp [ht, hold, modInode, setError, State.setPhase, Function.update_of_ne hi]
  have hne : ∀ q a, t.phase q = a → a ≠ .idle → q ≠ p := by
    rintro q a hq ha rfl
    exact ha (hq.symm.trans hself)
  have hholds : ∀ q i, t.Holds q i → q ≠ p ∧ s.Holds q i := by
    intro q i hq
    have hqp : q ≠ p := by
      rcases hq with hq | ⟨m, hq, -⟩ <;> exact hne q _ hq (by simp)
    rw [Holds, hphase q hqp, (hinode i).1] at hq
    exact ⟨hqp, hq⟩
  have hno : ∀ q, ¬t.Holds q ip := by
    intro q hq
    obtain ⟨hqp, hq'⟩ := hholds q ip hq
    rcases hx with hx | hx
    · exact hqp (h.one q p ip hq' hx)
    · rw [h.busy q ip hq'] at hx
      exact absurd hx (by simp)
  refine ⟨⟨fun i f hf => ?_, fun q i hq => ?_, fun q i hq => ?_, fun q r i hq hr => ?_,
    fun q i hq => ?_⟩, hno⟩
  · rw [(hinode i).2.1]
    exact h.file i f hf
  · have hqp : q ≠ p := by
      rintro rfl
      rw [hself] at hq
      exact absurd hq (by simp [Phase.node])
    rw [(hinode i).2.1]
    exact h.node q i (hphase q hqp ▸ hq)
  · have hi : i ≠ ip := by
      rintro rfl
      exact hno q hq
    rw [(hinode i).2.2.2 hi]
    exact h.busy q i (hholds q i hq).2
  · exact h.one q r i (hholds q i hq).2 (hholds r i hr).2
  · rw [(hinode i).2.2.1]
    exact h.trunc q i (hphase q (hne q _ hq (by simp)) ▸ hq)

/-- A process falls asleep with an inode that nobody had locked. -/
lemma Locks.sleep (h : s.Locks) (hi : s.Idle p) (ha : (s.inode ip).ialloc = true)
    (hno : ∀ q, ¬s.Holds q ip) {a : Phase} (hn : a = .truncating ip ∨ ∃ m, a = .opening ip m)
    {b : Bool} (hb : b = true ∨ (∃ m, a = .opening ip m) ∧ (s.inode ip).fmt = .ifchr)
    (hb' : b = false → (s.inode ip).ibusy = false)
    (ht : a = .truncating ip → (s.inode ip).iwrlock = false) :
    ((s.hold ip b).setPhase p a).Locks := by
  set t := (s.hold ip b).setPhase p a with htdef
  have hphase : ∀ q, q ≠ p → t.phase q = s.phase q := fun q hq => Function.update_of_ne hq ..
  have hself : t.phase p = a := Function.update_self ..
  have hinode : ∀ i, (t.inode i).fmt = (s.inode i).fmt ∧ (t.inode i).ialloc = (s.inode i).ialloc ∧
      (t.inode i).iwrlock = (s.inode i).iwrlock ∧
      (t.inode i).ibusy = if i = ip then b else (s.inode i).ibusy := by
    intro i
    by_cases hi : i = ip
    · subst hi
      simp [htdef, hold, modInode, State.setPhase]
    · simp [htdef, hold, modInode, State.setPhase, hi]
  have hnode : a.node = some ip := by
    rcases hn with rfl | ⟨m, rfl⟩ <;> rfl
  have hholds : ∀ q i, t.Holds q i → q = p ∧ i = ip ∧ b = true ∨ q ≠ p ∧ s.Holds q i := by
    intro q i hq
    by_cases hqp : q = p
    · subst hqp
      refine Or.inl ⟨rfl, ?_⟩
      rw [Holds, hself, (hinode i).1] at hq
      rcases hq with hq | ⟨m, hq, hfmt⟩
      · have hiip : i = ip := by
          rw [hq] at hnode
          exact Option.some.inj hnode
        refine ⟨hiip, hb.resolve_right ?_⟩
        rintro ⟨⟨m, hm⟩, -⟩
        rw [hm] at hq
        exact absurd hq (by simp)
      · have hiip : i = ip := by
          rw [hq] at hnode
          exact Option.some.inj hnode
        exact ⟨hiip, hb.resolve_right fun hc => hfmt (hiip ▸ hc.2)⟩
    · rw [Holds, hphase q hqp, (hinode i).1] at hq
      exact Or.inr ⟨hqp, hq⟩
  refine ⟨fun i f hf => ?_, fun q i hq => ?_, fun q i hq => ?_, fun q r i hq hr => ?_,
    fun q i hq => ?_⟩
  · rw [(hinode i).2.1]
    exact h.file i f hf
  · rw [(hinode i).2.1]
    by_cases hqp : q = p
    · rw [hqp, hself, hnode] at hq
      exact Option.some.inj hq ▸ ha
    · exact h.node q i (hphase q hqp ▸ hq)
  · rw [(hinode i).2.2.2]
    rcases hholds q i hq with ⟨-, rfl, hb1⟩ | ⟨-, hq'⟩
    · rw [if_pos rfl, hb1]
    · rw [if_neg, h.busy q i hq']
      rintro rfl
      exact hno q hq'
  · rcases hholds q i hq with ⟨rfl, rfl, -⟩ | ⟨-, hq'⟩
    · rcases hholds r _ hr with ⟨rfl, -, -⟩ | ⟨-, hr'⟩
      · rfl
      · exact absurd hr' (hno r)
    · rcases hholds r i hr with ⟨rfl, rfl, -⟩ | ⟨-, hr'⟩
      · exact absurd hq' (hno q)
      · exact h.one q r i hq' hr'
  · rw [(hinode i).2.2.1]
    by_cases hqp : q = p
    · rw [hqp, hself] at hq
      have hiip : i = ip := by
        rw [hq] at hnode
        exact Option.some.inj hnode
      rw [hiip]
      exact ht (hiip ▸ hq)
    · exact h.trunc q i (hphase q hqp ▸ hq)

/-- An inode that nothing refers to is made anew, or freed. -/
lemma Locks.remake (h : s.Locks) (hr : ∀ f, ¬s.Refs ip f) (hn : ∀ p, (s.phase p).node ≠ some ip)
    (g : Inode → Inode) : (s.modInode ip g).Locks := by
  have hother : ∀ i, i ≠ ip → (s.modInode ip g).inode i = s.inode i := fun i hi =>
    Function.update_of_ne hi ..
  have hholds : ∀ q i, (s.modInode ip g).Holds q i → i ≠ ip ∧ s.Holds q i := by
    intro q i hq
    have hi : i ≠ ip := by
      rintro rfl
      refine hn q ?_
      rcases hq with hq | ⟨m, hq, -⟩
      · exact (congrArg Phase.node (show s.phase q = _ from hq)).trans rfl
      · exact (congrArg Phase.node (show s.phase q = _ from hq)).trans rfl
    rw [Holds, hother i hi] at hq
    exact ⟨hi, hq⟩
  refine ⟨fun i f hf => ?_, fun q i hq => ?_, fun q i hq => ?_, fun q r i hq hr => ?_,
    fun q i hq => ?_⟩
  · have hi : i ≠ ip := by
      rintro rfl
      exact hr f hf
    rw [hother i hi]
    exact h.file i f hf
  · have hi : i ≠ ip := by
      rintro rfl
      exact hn q hq
    rw [hother i hi]
    exact h.node q i hq
  · obtain ⟨hi, hq'⟩ := hholds q i hq
    rw [hother i hi]
    exact h.busy q i hq'
  · exact h.one q r i (hholds q i hq).2 (hholds r i hr).2
  · have hi : i ≠ ip := by
      rintro rfl
      exact hn q ((congrArg Phase.node (show s.phase q = _ from hq)).trans rfl)
    rw [hother i hi]
    exact h.trunc q i hq

lemma writes_node {a : Phase} (h : a.writes = some ip) : a.node = some ip := by
  cases a with
  | opening i m =>
      simp only [Phase.writes] at h
      split_ifs at h
      exact h
  | _ => exact absurd h (by simp [Phase.writes])

lemma not_writer (hr : ∀ f, ¬s.Refs ip f) (hn : ∀ p, (s.phase p).node ≠ some ip) (w : ℕ ⊕ ℕ) :
    ¬s.Writer ip w := by
  cases w with
  | inl f => exact fun hw => hr f hw.1
  | inr p => exact fun hw => hn p (writes_node hw)

lemma Good.remake (h : s.Good) (hr : ∀ f, ¬s.Refs ip f) (hn : ∀ p, (s.phase p).node ≠ some ip)
    {g : Inode → Inode} (hg : (g (s.inode ip)).iwrlock = (s.inode ip).iwrlock) :
    (s.modInode ip g).Good := by
  refine Sole.restick (i := ip) (b := (g (s.inode ip)).isvtx) h
    (fun _ => Or.inr (not_writer hr hn)) (fun j => ?_) (fun j => ?_) fun j w => Iff.rfl
  · by_cases hj : j = ip
    · subst hj
      simpa [modInode] using hg
    · simp [modInode, Function.update_of_ne hj]
  · by_cases hj : j = ip
    · subst hj
      simp [modInode]
    · simp [modInode, hj]

/-- Nothing refers to an inode that is not allocated. -/
lemma Locks.fresh (h : s.Locks) (ha : (s.inode ip).ialloc = false) :
    (∀ f, ¬s.Refs ip f) ∧ ∀ p, (s.phase p).node ≠ some ip := by
  refine ⟨fun f hf => ?_, fun p hp => ?_⟩
  · rw [h.file ip f hf] at ha
    exact absurd ha (by simp)
  · rw [h.node p ip hp] at ha
    exact absurd ha (by simp)

/-! ## `iopen` -/

/-- The flag of one inode changes. -/
lemma mark_inode (s : State) (ip : ℕ) (b : Bool) (j : ℕ) :
    ((s.mark ip b).inode j).iwrlock = (if j = ip then b else (s.inode j).iwrlock) ∧
      ((s.mark ip b).inode j).isvtx = (s.inode j).isvtx := by
  by_cases hj : j = ip
  · subst hj
    simp [mark, modInode]
  · simp [mark, modInode, hj]

/-- An open has failed that had found the flag clear. -/
lemma Good.failed (h : s.Good) (hp : s'.phase = s.phase) (hd : Dormant s s')
    (hi : ∀ j, (s'.inode j).iwrlock = (if j = ip then false else (s.inode j).iwrlock) ∧
      (s'.inode j).isvtx = (s.inode j).isvtx) (hf : (s.inode ip).iwrlock = false) : s'.Good := by
  refine h.congr (fun j => ⟨?_, (hi j).2⟩) (fun i f => hd.openFor) fun q => by rw [hp]
  rw [(hi j).1]
  split_ifs with hj
  · rw [hj, hf]
  · rfl

/-- The flags after an open for `mode`. -/
def Marked (s s' : State) (ip mode : ℕ) : Prop :=
  ∀ j, (s'.inode j).iwrlock = (if j = ip ∧ writ mode = true then (s.inode ip).isvtx
      else (s.inode j).iwrlock) ∧ (s'.inode j).isvtx = (s.inode j).isvtx

/-- An open has succeeded. -/
lemma Good.granted (h : s.Good) (hp : s'.phase = s.phase) (hgr : Granted s s' f mode (some ip))
    (hi : Marked s s' ip mode) (hf : writ mode = true → (s.inode ip).iwrlock = false) : s'.Good := by
  cases hw : writ mode with
  | true =>
      refine Sole.enter (i := ip) (w := .inl f) h (hf hw) (fun j => ?_) (fun j => (hi j).2) ?_
      · simpa [hw] using (hi j).1
      · rintro j (g | q)
        · simp only [Writer, hgr.openFor, hw, Option.some.injEq, Sum.inl.injEq, true_and]
          exact or_congr_right (and_congr_left' eq_comm)
        · simp [Writer, hp]
  | false =>
      refine h.congr (fun j => ?_) (fun i g => ?_) fun q => by rw [hp]
      · simpa [hw] using hi j
      · simp [hgr.openFor, hw]

/-- An open sleeps. -/
lemma Good.asleep (h : s.Good) (hph : s.phase p = .idle)
    (hp : s'.phase = Function.update s.phase p (.opening ip mode)) (hfile : s'.file = s.file)
    (hi : Marked s s' ip mode) (hf : writ mode = true → (s.inode ip).iwrlock = false) : s'.Good := by
  have hopen : ∀ i g, s'.OpenFor i g ↔ s.OpenFor i g := fun i g => by
    rw [OpenFor, OpenFor, Refs, Refs, hfile]
  have hwr : ∀ q, (s'.phase q).writes =
      if q = p then (if writ mode then some ip else none) else (s.phase q).writes := by
    intro q
    rw [hp]
    by_cases hq : q = p
    · subst hq
      simp [Phase.writes]
    · simp [hq]
  cases hw : writ mode with
  | true =>
      refine Sole.enter (i := ip) (w := .inr p) h (hf hw) (fun j => ?_) (fun j => (hi j).2) ?_
      · simpa [hw] using (hi j).1
      · rintro j (g | q)
        · simp [Writer, hopen]
        · simp only [Writer, hwr, hw, if_true, Sum.inr.injEq]
          by_cases hq : q = p
          · subst hq
            simp [hph, Phase.writes, eq_comm]
          · simp [hq]
  | false =>
      refine h.congr (fun j => ?_) hopen fun q => ?_
      · simpa [hw] using hi j
      · rw [hwr]
        by_cases hq : q = p
        · simp [hq, hph, hw, Phase.writes]
        · simp [hq]

lemma hold_self (h : (s.inode ip).ibusy = false) : s.hold ip false = s := by
  unfold hold modInode
  rw [← h]
  simp

/-- **`iopen` leaves the flags right**, when an open for writing finds the flag clear, and so does an
open for reading that fails. -/
lemma iopen_good (mode : ℕ) (hg : s.Good) (hl : s.Locks) (hi : s.Idle p) (ha : (s.inode ip).ialloc = true)
    (hno : ∀ q, ¬s.Holds q ip) (hb : (s.inode ip).ibusy = false)
    (hw : writ mode = true → (s.inode ip).iwrlock = false)
    (hr : writ mode = false → s.Direct ip mode → s.Fails p → (s.inode ip).iwrlock = false) :
    (s.iopen p ip mode).Good ∧ (s.iopen p ip mode).Locks := by
  unfold State.iopen
  set t := if writ mode && (s.inode ip).isvtx then s.mark ip true else s with ht
  have hphase : t.phase = s.phase := by rw [ht]; split_ifs <;> rfl
  have hfile : t.file = s.file := by rw [ht]; split_ifs <;> rfl
  have hlist : t.olist = s.olist := by rw [ht]; split_ifs <;> rfl
  have herr : t.error = s.error := by rw [ht]; split_ifs <;> rfl
  have hkeep : ∀ j, (t.inode j).fmt = (s.inode j).fmt ∧ (t.inode j).ialloc = (s.inode j).ialloc ∧
      (t.inode j).ibusy = (s.inode j).ibusy := by
    intro j
    rw [ht]
    split_ifs
    · by_cases hj : j = ip
      · subst hj
        simp [mark, modInode]
      · simp [mark, modInode, Function.update_of_ne hj]
    · exact ⟨rfl, rfl, rfl⟩
  have hmarked : Marked s t ip mode := by
    intro j
    rw [ht]
    by_cases hc : (writ mode && (s.inode ip).isvtx) = true
    · obtain ⟨hc1, hc2⟩ := Bool.and_eq_true_iff.mp hc
      rw [if_pos hc, hc2]
      simpa [hc1] using mark_inode s ip true j
    · rw [if_neg hc]
      refine ⟨?_, rfl⟩
      split_ifs with hj
      · obtain ⟨rfl, hm⟩ := hj
        rw [hw hm]
        simpa [hm] using hc
      · rfl
  have htrunc : ∀ q, s.phase q ≠ .truncating ip := fun q hq => hno q (Or.inl hq)
  have htl : t.Locks := by
    rw [ht]
    split_ifs
    · exact hl.flag (fun i => ⟨rfl, rfl, rfl⟩) (Or.inl htrunc)
    · exact hl
  have hfails : t.Fails p ↔ s.Fails p := by
    unfold Fails falloc State.oalloc
    rw [hfile, hlist, herr]
  -- both ends of `iopenEnd`
  have hend : ∀ u : State, u.phase = t.phase → u.inode = t.inode → u.file = t.file →
      (u.Fails p → (s.inode ip).iwrlock = false) →
      (u.iopenEnd p ip mode).Good ∧ (u.iopenEnd p ip mode).Locks := by
    intro u h1 h2 h3 h4
    by_cases hc : u.Fails p
    · obtain ⟨e1, e2, e3⟩ := iopenEnd_fails ip mode hc
      have hmark : ∀ j, ((u.iopenEnd p ip mode).inode j).iwrlock =
          (if j = ip then false else (s.inode j).iwrlock) ∧
          ((u.iopenEnd p ip mode).inode j).isvtx = (s.inode j).isvtx := by
        intro j
        obtain ⟨m1, m2⟩ := mark_inode u ip false j
        rw [e2, m1, m2, h2, (hmarked j).1, (hmarked j).2]
        refine ⟨?_, rfl⟩
        by_cases hj : j = ip <;> simp [hj]
      have hd : Dormant s (u.iopenEnd p ip mode) := by
        intro g
        rw [← hfile, ← h3]
        exact e3 g
      refine ⟨hg.failed (e1.trans (h1.trans hphase)) hd hmark (h4 hc), ?_⟩
      have hl' : (t.mark ip false).Locks := htl.flag (fun i => ⟨rfl, rfl, rfl⟩) (Or.inr (by simp))
      refine hl'.congr ?_ (fun i g hgr => Or.inl ?_) fun q => Or.inl ?_
      · rw [e2]
        simp only [mark, modInode, h2]
      · have hr' := hd.refs.mp hgr
        rw [Refs, ← hfile] at hr'
        exact hr'
      · rw [e1, h1]
        rfl
    · obtain ⟨e1, e2, f, e3⟩ := iopenEnd_ok ip mode hc
      have hgr : Granted s (u.iopenEnd p ip mode) f mode (some ip) := by
        refine ⟨?_, e3.entry, fun g hgf => ?_⟩
        · rw [← hfile, ← h3]
          exact e3.free
        · rw [← hfile, ← h3]
          exact e3.other g hgf
      refine ⟨hg.granted (e1.trans (h1.trans hphase)) hgr ?_ hw, ?_⟩
      · intro j
        rw [e2, h2]
        exact hmarked j
      · refine htl.congr (e2.trans h2) (fun i g hgr' => ?_) fun q => Or.inl (by rw [e1, h1])
        rcases hgr.refs.mp hgr' with hold | ⟨hip, -⟩
        · rw [Refs, ← hfile] at hold
          exact Or.inl hold
        · rw [← Option.some.inj hip, (hkeep ip).2.1]
          exact Or.inr ha
  have hti : t.Idle p := ⟨hi.1, hphase ▸ hi.2⟩
  have htno : ∀ q, ¬t.Holds q ip := by
    intro q hq
    rw [Holds, hphase, (hkeep ip).1] at hq
    exact hno q hq
  simp only
  rw [(hkeep ip).1]
  cases hfmt : (s.inode ip).fmt with
  | ifreg =>
      refine hend t rfl rfl rfl fun hc => ?_
      cases hm : writ mode with
      | true => exact hw hm
      | false => exact hr hm (Or.inl hfmt) (hfails.mp hc)
  | ifdir =>
      split_ifs with hm
      · exact hend _ rfl rfl rfl fun _ => hw hm
      · have hm' : writ mode = false := by simpa using hm
        exact hend t rfl rfl rfl fun hc => hr hm' (Or.inr ⟨hfmt, hm'⟩) (hfails.mp hc)
  | ifchr =>
      have hbt : (t.inode ip).ibusy = false := (hkeep ip).2.2.trans hb
      constructor
      · exact hg.asleep (p := p) hi.2 (by simp [State.setPhase, hphase]) hfile hmarked hw
      · have hs := htl.sleep (a := .opening ip mode) (b := false) hti ((hkeep ip).2.1.trans ha) htno
          (Or.inr ⟨mode, rfl⟩) (Or.inr ⟨⟨mode, rfl⟩, (hkeep ip).1.trans hfmt⟩) (fun _ => hbt)
          (by simp)
        rwa [hold_self hbt] at hs
  | ifblk =>
      constructor
      · refine hg.asleep (p := p) hi.2 (by simp [State.setPhase, hold, modInode, hphase]) hfile
          (fun j => ?_) hw
        rw [← (hmarked j).1, ← (hmarked j).2]
        by_cases hj : j = ip
        · subst hj
          simp [State.setPhase, hold, modInode]
        · simp [State.setPhase, hold, modInode, Function.update_of_ne hj]
      · exact htl.sleep (b := true) hti ((hkeep ip).2.1.trans ha) htno (Or.inr ⟨mode, rfl⟩)
          (Or.inl rfl) (by simp) (by simp)

end State

end Files

end Micronix
