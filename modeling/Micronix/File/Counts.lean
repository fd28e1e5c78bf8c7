import Micronix.File.Table

/-!
# Counts of file entries

The count of an entry is the number of descriptors that refer to it, and all of them come from one
`falloc`.  A sleeping `pipe` has an entry that still counts as free, and everybody else must keep his
hands off it.
-/

namespace Micronix

namespace Files

open Transition

/-- The entry that a sleeping `pipe` has chosen for its second descriptor. -/
def Phase.held : Phase → Option ℕ
  | piping _ _ wf _ => some wf
  | _ => none

/-- Not asleep in `pipe` or `fork`, nor on the way to the swap device. -/
def Phase.plain : Phase → Bool
  | piping _ _ _ _ | forking _ | unborn => false
  | _ => true

namespace State

variable {s s' : State} {p q f fd ip mode : ℕ}

/-- No sleeping `pipe` has chosen the entry. -/
def Spare (s : State) (f : ℕ) : Prop := ∀ p < nproc, (s.phase p).held ≠ some f

instance (s : State) (f : ℕ) : Decidable (s.Spare f) :=
  inferInstanceAs (Decidable (∀ p < nproc, _))

/-- An `open` by process `p` does not get such an entry. -/
def Safe (s : State) (p : ℕ) : Prop :=
  s.oalloc p = none ∨ ∀ f < nfile, s.falloc = some f → s.Spare f

instance (s : State) (p : ℕ) : Decidable (s.Safe p) :=
  inferInstanceAs (Decidable (_ ∨ ∀ f < nfile, _ → _))

/-- `iopen(ip, mode)` comes to its end without a device to open. -/
def Direct (s : State) (ip mode : ℕ) : Prop :=
  (s.inode ip).fmt = .ifreg ∨ (s.inode ip).fmt = .ifdir ∧ writ mode = false

instance (s : State) (ip mode : ℕ) : Decidable (s.Direct ip mode) :=
  inferInstanceAs (Decidable (_ ∨ _ ∧ _))

/-- The two entries with which `pipe` comes to `ialloc`. -/
def pair (s : State) (p : ℕ) : Option (ℕ × ℕ) :=
  match s.falloc, s.oalloc p with
  | some rf, some rd =>
      let t := s.grant p rd rf (iRead ||| pipeBit) none
      match t.falloc, t.oalloc p with
      | some wf, some _ => some (rf, wf)
      | _, _ => none
  | _, _ => none

/-- No call gets an entry that a sleeping `pipe` has chosen; `fork` does not fail with open files; no
count comes to 256. -/
def Intact (s : State) : Label → Prop
  | .open p u ip m => access u (s.inode ip) (imode m) = none → s.Direct ip (imode m) → s.Safe p
  | .truncated p e => e = none → (∃ ip ∈ (s.phase p).node, s.Direct ip iWrite) → s.Safe p
  | .create p _ _ _ _ _ e => e = none → s.Safe p
  | .opened p e => e = none → s.Safe p
  | .pipe p => ∀ x ∈ s.pair p, s.Spare x.1 ∧ s.Spare x.2
  | .dup p fd => s.oalloc p = none ∨ ∀ f ∈ s.ofile p fd, (s.file f).count.toNat < 255
  | .fork p _ k =>
      if k = .full then ∀ fd < nopen, s.olist p fd = none
      else ∀ f < nfile, (s.file f).count.toNat + Slots.row nopen (s.olist p) f < 256
  | .forked p ok => ok = true ∨ ∀ fd < nopen, s.olist p fd = none
  | _ => True

/-! ## The invariant -/

/-- The references are counted, and those to one entry come from one `falloc`. -/
structure Books (s : State) : Prop where
  count : ∀ f, (s.file f).count.toNat = Slots.total nproc nopen s.olist f
  range : ∀ p fd f, s.olist p fd = some f → p < nproc ∧ fd < nopen ∧ f < nfile
  made : ∀ p fd q d f, s.olist p fd = some f → s.olist q d = some f → s.made p fd = s.made q d

/-- What the calls in progress rely on. -/
structure Calls (s : State) : Prop where
  lt : ∀ p, s.phase p ≠ .dead → p < nproc
  pipe : ∀ p rf rd wf wd, s.phase p = .piping rf rd wf wd →
    s.olist p rd = some rf ∧ (s.file rf).count = 1 ∧ wd < nopen ∧ s.olist p wd = none ∧
      wf < nfile ∧ (s.file wf).count = 0
  apart : ∀ p q f, (s.phase p).held = some f → (s.phase q).held = some f → p = q
  fork : ∀ p c, s.phase p = .forking c →
    c < nproc ∧ s.phase c = .unborn ∧ s.olist c = s.olist p
  one : ∀ p q c, s.phase p = .forking c → s.phase q = .forking c → p = q
  dead : ∀ p, s.phase p = .dead → ∀ fd, s.olist p fd = none
  closing : ∀ p k, s.phase p = .closing k → ∀ fd < k, s.olist p fd = none

structure Sound (s : State) : Prop extends Books s, Calls s

/-! ## Steps that touch no descriptor -/

/-- The counts, the descriptors and the calls in progress are the same. -/
structure Same (s s' : State) : Prop where
  count : ∀ f, (s'.file f).count = (s.file f).count
  olist : s'.olist = s.olist
  made : ∀ p fd, s.olist p fd ≠ none → s'.made p fd = s.made p fd
  phase : s'.phase = s.phase

lemma Same.refl (s : State) : Same s s := ⟨fun _ => rfl, rfl, fun _ _ _ => rfl, rfl⟩

lemma Same.trans {s'' : State} (h : Same s s') (h' : Same s' s'') : Same s s'' :=
  ⟨fun f => (h'.count f).trans (h.count f), h'.olist.trans h.olist,
    fun p fd hp => (h'.made p fd (h.olist ▸ hp)).trans (h.made p fd hp), h'.phase.trans h.phase⟩

lemma Sound.same (h : s.Sound) (hs : Same s s') : s'.Sound := by
  obtain ⟨h1, h2, h3, h4⟩ := hs
  refine ⟨⟨?_, ?_, ?_⟩, ⟨?_, ?_, ?_, ?_, ?_, ?_, ?_⟩⟩
  · intro f
    rw [h1, h2]
    exact h.count f
  · rw [h2]
    exact h.range
  · intro p fd q d f hp hq
    rw [h2] at hp hq
    rw [h3 p fd (by simp [hp]), h3 q d (by simp [hq])]
    exact h.made p fd q d f hp hq
  · rw [h4]
    exact h.lt
  · intro p rf rd wf wd hp
    rw [h2, h1, h1]
    exact h.pipe p rf rd wf wd (h4 ▸ hp)
  · rw [h4]
    exact h.apart
  · rw [h4, h2]
    exact h.fork
  · rw [h4]
    exact h.one
  · rw [h4, h2]
    exact h.dead
  · rw [h4, h2]
    exact h.closing

lemma same_setError (s : State) (p : ℕ) (e : Option Error) : Same s (s.setError p e) :=
  ⟨fun _ => rfl, rfl, fun _ _ _ => rfl, rfl⟩

lemma same_modInode (s : State) (ip : ℕ) (g : Inode → Inode) : Same s (s.modInode ip g) :=
  ⟨fun _ => rfl, rfl, fun _ _ _ => rfl, rfl⟩

/-- An entry changes, but not its count. -/
lemma same_setFile {x : File} (hx : x.count = (s.file f).count) : Same s (s.setFile f x) := by
  refine ⟨fun g => ?_, rfl, fun _ _ _ => rfl, rfl⟩
  by_cases hg : g = f
  · subst hg
    simp [setFile, hx]
  · simp [setFile, Function.update_of_ne hg]

/-! ## Searches -/

lemma falloc_spec (h : s.falloc = some f) : f < nfile ∧ (s.file f).count = 0 := by
  have hp := List.find?_some h
  have hm := List.mem_of_find?_eq_some h
  exact ⟨List.mem_range.mp hm, by simpa using hp⟩

lemma oalloc_spec (h : s.oalloc p = some fd) : fd < nopen ∧ s.olist p fd = none := by
  have hp := List.find?_some h
  have hm := List.mem_of_find?_eq_some h
  exact ⟨List.mem_range.mp hm, by simpa using hp⟩

lemma ofile_spec (h : s.ofile p fd = some f) : fd < nopen ∧ s.olist p fd = some f := by
  unfold ofile at h
  split_ifs at h with hlt
  exact ⟨hlt, h⟩

/-! ## A process goes on -/

/-- A process in none of the calls that hold something comes to another such point. -/
lemma Sound.setPhase (h : s.Sound) {a : Phase} (hp : p < nproc)
    (hold : ∀ c, s.phase p ≠ .forking c) (hun : s.phase p ≠ .unborn) (ha : a.plain = true)
    (hdead : a = .dead → ∀ fd, s.olist p fd = none)
    (hcl : ∀ k, a = .closing k → ∀ fd < k, s.olist p fd = none) : (s.setPhase p a).Sound := by
  have hself : (s.setPhase p a).phase p = a := Function.update_self ..
  have hother : ∀ q, q ≠ p → (s.setPhase p a).phase q = s.phase q := fun q hq =>
    Function.update_of_ne hq ..
  refine ⟨⟨h.count, h.range, h.made⟩, ⟨?_, ?_, ?_, ?_, ?_, ?_, ?_⟩⟩
  · intro q hq
    by_cases hqp : q = p
    · exact hqp ▸ hp
    · exact h.lt q (hother q hqp ▸ hq)
  · intro q rf rd wf wd hq
    by_cases hqp : q = p
    · subst hqp
      rw [hself] at hq
      subst hq
      exact absurd ha (by simp [Phase.plain])
    · exact h.pipe q rf rd wf wd (hother q hqp ▸ hq)
  · have hnot : ∀ f, ((s.setPhase p a).phase p).held ≠ some f := by
      intro f
      rw [hself]
      cases a <;> simp_all [Phase.held, Phase.plain]
    intro q r f hq hr
    have hqp : q ≠ p := by
      rintro rfl
      exact hnot f hq
    have hrp : r ≠ p := by
      rintro rfl
      exact hnot f hr
    rw [hother q hqp] at hq
    rw [hother r hrp] at hr
    exact h.apart q r f hq hr
  · intro q c hq
    have hqp : q ≠ p := by
      rintro rfl
      rw [hself] at hq
      subst hq
      exact absurd ha (by simp [Phase.plain])
    rw [hother q hqp] at hq
    obtain ⟨h1, h2, h3⟩ := h.fork q c hq
    have hcp : c ≠ p := by
      rintro rfl
      exact hun h2
    exact ⟨h1, (hother c hcp).trans h2, h3⟩
  · intro q r c hq hr
    have hnot : ∀ t, (s.setPhase p a).phase t = .forking c → t ≠ p := by
      rintro t ht rfl
      rw [hself] at ht
      subst ht
      exact absurd ha (by simp [Phase.plain])
    have hq' := hnot q hq
    have hr' := hnot r hr
    rw [hother q hq'] at hq
    rw [hother r hr'] at hr
    exact h.one q r c hq hr
  · intro q hq
    by_cases hqp : q = p
    · subst hqp
      exact hdead (hself ▸ hq)
    · exact h.dead q (hother q hqp ▸ hq)
  · intro q k hq
    by_cases hqp : q = p
    · subst hqp
      exact hcl k (hself ▸ hq)
    · exact h.closing q k (hother q hqp ▸ hq)

/-! ## One descriptor changes -/

/-- What a change of one descriptor of a process leaves alone. -/
lemma Calls.slot (h : s.Calls) (hphase : s'.phase = s.phase)
    (hlist : ∀ q, q ≠ p → s'.olist q = s.olist q)
    (hplain : (s.phase p).plain = true)
    (hcount : ∀ q, q ≠ p → ∀ rf rd wf wd, s.phase q = .piping rf rd wf wd →
      (s'.file rf).count = (s.file rf).count ∧ (s'.file wf).count = (s.file wf).count)
    (hdead : s.phase p = .dead → ∀ fd, s'.olist p fd = none)
    (hcl : ∀ k, s.phase p = .closing k → ∀ fd < k, s'.olist p fd = none) : s'.Calls := by
  refine ⟨?_, ?_, ?_, ?_, ?_, ?_, ?_⟩
  · rw [hphase]
    exact h.lt
  · intro q rf rd wf wd hq
    rw [hphase] at hq
    have hqp : q ≠ p := by
      rintro rfl
      rw [hq] at hplain
      exact absurd hplain (by simp [Phase.plain])
    obtain ⟨h1, h2⟩ := hcount q hqp rf rd wf wd hq
    rw [hlist q hqp, h1, h2]
    exact h.pipe q rf rd wf wd hq
  · rw [hphase]
    exact h.apart
  · intro q c hq
    rw [hphase] at hq ⊢
    obtain ⟨h1, h2, h3⟩ := h.fork q c hq
    have hqp : q ≠ p := by
      rintro rfl
      rw [hq] at hplain
      exact absurd hplain (by simp [Phase.plain])
    have hcp : c ≠ p := by
      rintro rfl
      rw [h2] at hplain
      exact absurd hplain (by simp [Phase.plain])
    rw [hlist q hqp, hlist c hcp]
    exact ⟨h1, h2, h3⟩
  · rw [hphase]
    exact h.one
  · intro q hq
    rw [hphase] at hq
    by_cases hqp : q = p
    · subst hqp
      exact hdead hq
    · rw [hlist q hqp]
      exact h.dead q hq
  · intro q k hq
    rw [hphase] at hq
    by_cases hqp : q = p
    · subst hqp
      exact hcl k hq
    · rw [hlist q hqp]
      exact h.closing q k hq

/-- No descriptor refers to a free entry. -/
lemma Sound.free (h : s.Sound) (hc : (s.file f).count = 0) (p fd : ℕ) : s.olist p fd ≠ some f := by
  intro hp
  obtain ⟨h1, h2, -⟩ := h.range p fd f hp
  have hone := Slots.one_le_total h1 h2 hp
  rw [← h.count f, hc] at hone
  exact absurd hone (by decide)

/-- The entries of a process asleep in `pipe` are no other's. -/
lemma Sound.piping (h : s.Sound) {rf rd wf wd : ℕ} (hq : s.phase q = .piping rf rd wf wd)
    (hp : p ≠ q) (fd : ℕ) : s.olist p fd ≠ some rf ∧ s.olist p fd ≠ some wf := by
  obtain ⟨h1, h2, -, -, -, h6⟩ := h.pipe q rf rd wf wd hq
  refine ⟨fun hf => ?_, h.free h6 p fd⟩
  obtain ⟨hp', hfd, -⟩ := h.range p fd rf hf
  obtain ⟨hq', hrd, -⟩ := h.range q rd rf h1
  have hone : Slots.total nproc nopen s.olist rf = 1 := by
    rw [← h.count rf, h2]
    rfl
  exact hp (Slots.total_eq_one hone hp' hfd hq' hrd hf h1).1

lemma setSlot_olist (s : State) (p fd : ℕ) (o : Option ℕ) (q d : ℕ) :
    (s.setSlot p fd o).olist q d = if q = p ∧ d = fd then o else s.olist q d := by
  unfold setSlot
  by_cases hq : q = p
  · subst hq
    by_cases hd : d = fd
    · simp [hd]
    · simp [hd]
  · simp [hq]

/-- **A new entry**: it was free, and no sleeping `pipe` has chosen it. -/
lemma Sound.grant (h : s.Sound) (hp : p < nproc) (hph : s.phase p = .idle) (hfd : fd < nopen)
    (hslot : s.olist p fd = none) (hf : f < nfile) (hc : (s.file f).count = 0) (hs : s.Spare f)
    (mode : ℕ) (ip : Option ℕ) : (s.grant p fd f mode ip).Sound := by
  have hlist : (s.grant p fd f mode ip).olist = (s.setSlot p fd (some f)).olist := rfl
  have hfree := h.free hc
  have hfile : ∀ g, g ≠ f → (s.grant p fd f mode ip).file g = s.file g := fun g hg =>
    Function.update_of_ne hg ..
  refine ⟨⟨?_, ?_, ?_⟩, h.toCalls.slot rfl (fun q hq => Function.update_of_ne hq ..)
    (by rw [hph]; rfl) ?_ ?_ ?_⟩
  · intro g
    have ht := Slots.total_set (o := s.olist) hp hfd (some f) g
    rw [hslot, Slots.hit_none, Nat.add_zero] at ht
    have hgoal : Slots.total nproc nopen (s.grant p fd f mode ip).olist g = _ := ht
    rw [hgoal, ← h.count g]
    by_cases hg : g = f
    · subst hg
      rw [hc, Slots.hit_self]
      simp [State.grant, setFile, setSlot]
    · rw [hfile g hg, Slots.hit_of_ne (Ne.symm hg), Nat.add_zero]
  · intro q d g hq
    rw [hlist, setSlot_olist] at hq
    split_ifs at hq with hc'
    · obtain ⟨rfl, rfl⟩ := hc'
      cases hq
      exact ⟨hp, hfd, hf⟩
    · exact h.range q d g hq
  · -- the number of the new entry is behind one descriptor only
    have hold : ∀ q d, ¬(q = p ∧ d = fd) → (s.grant p fd f mode ip).made q d = s.made q d := by
      intro q d hne
      by_cases hq : q = p
      · subst hq
        have hd : d ≠ fd := fun hd => hne ⟨rfl, hd⟩
        simp [State.grant, hd]
      · simp [State.grant, hq]
    intro q d r e g hq hr
    rw [hlist, setSlot_olist] at hq hr
    split_ifs at hq hr with h1 h2 h2
    · obtain ⟨rfl, rfl⟩ := h1
      obtain ⟨rfl, rfl⟩ := h2
      rfl
    · cases hq
      exact absurd hr (hfree r e)
    · cases hr
      exact absurd hq (hfree q d)
    · rw [hold q d h1, hold r e h2]
      exact h.made q d r e g hq hr
  · intro q hq rf rd wf wd hpipe
    obtain ⟨h1, h2, -⟩ := h.pipe q rf rd wf wd hpipe
    have hrf : rf ≠ f := by
      rintro rfl
      rw [hc] at h2
      exact absurd h2 (by decide)
    have hwf : wf ≠ f := by
      rintro rfl
      exact hs q (h.lt q (by rw [hpipe]; simp)) (by rw [hpipe]; rfl)
    rw [hfile rf hrf, hfile wf hwf]
    exact ⟨rfl, rfl⟩
  · intro hd
    rw [hph] at hd
    exact absurd hd (by simp)
  · intro k hk
    rw [hph] at hk
    exact absurd hk (by simp)

/-- **A descriptor goes**, and its entry counts one less. -/
lemma Sound.drop (h : s.Sound) (hplain : (s.phase p).plain = true) (hslot : s.olist p fd = some f)
    {x : File} (hx : x.count = (s.file f).count - 1) :
    ((s.setSlot p fd none).setFile f x).Sound := by
  obtain ⟨hp, hfd, hf⟩ := h.range p fd f hslot
  have hlist : ((s.setSlot p fd none).setFile f x).olist = (s.setSlot p fd none).olist := rfl
  have hfile : ∀ g, g ≠ f → ((s.setSlot p fd none).setFile f x).file g = s.file g := fun g hg =>
    Function.update_of_ne hg ..
  have hless : ∀ q d, ((s.setSlot p fd none).setFile f x).olist q d ≠ none →
      ((s.setSlot p fd none).setFile f x).olist q d = s.olist q d := by
    intro q d hq
    rw [hlist, setSlot_olist] at hq ⊢
    split_ifs at hq ⊢ with hc
    · exact absurd rfl hq
    · rfl
  refine ⟨⟨?_, ?_, ?_⟩, h.toCalls.slot rfl (fun q hq => Function.update_of_ne hq ..) hplain ?_ ?_ ?_⟩
  · intro g
    have ht := Slots.total_set (o := s.olist) hp hfd none g
    rw [hslot, Slots.hit_none, Nat.add_zero] at ht
    have hgoal : Slots.total nproc nopen ((s.setSlot p fd none).setFile f x).olist g +
        Slots.hit (some f) g = _ := ht
    rw [← h.count g] at hgoal
    by_cases hg : g = f
    · subst hg
      rw [Slots.hit_self] at hgoal
      have hself : ((s.setSlot p fd none).setFile g x).file g = x := Function.update_self ..
      have hone : (1 : UInt8) ≤ (s.file g).count := by
        rw [UInt8.le_iff_toNat_le]
        change 1 ≤ _
        omega
      rw [hself, hx, UInt8.toNat_sub_of_le _ _ hone]
      change _ - 1 = _
      omega
    · rw [Slots.hit_of_ne (Ne.symm hg)] at hgoal
      rw [hfile g hg]
      exact hgoal.symm
  · intro q d g hq
    rw [hless q d (by simp [hq])] at hq
    exact h.range q d g hq
  · intro q d r e g hq hr
    rw [hless q d (by simp [hq])] at hq
    rw [hless r e (by simp [hr])] at hr
    exact h.made q d r e g hq hr
  · intro q hq rf rd wf wd hpipe
    obtain ⟨h1, h2⟩ := h.piping hpipe (Ne.symm hq) fd
    have hrf : rf ≠ f := by
      rintro rfl
      exact h1 hslot
    have hwf : wf ≠ f := by
      rintro rfl
      exact h2 hslot
    rw [hfile rf hrf, hfile wf hwf]
    exact ⟨rfl, rfl⟩
  · intro hd d
    by_contra hne
    rw [hless p d hne] at hne
    exact hne (h.dead p hd d)
  · intro k hk d hd
    by_contra hne
    rw [hless p d hne] at hne
    exact hne (h.closing p k hk d hd)

/-- `dup` -/
lemma Sound.dup (h : s.Sound) (hi : s.Idle p) (hg : s.Intact (.dup p fd)) : (s.dup p fd).Sound := by
  unfold State.dup
  cases ho : s.ofile p fd with
  | none => exact h.same (same_setError s p _)
  | some f =>
      cases hd : s.oalloc p with
      | none => exact h.same (same_setError s p _)
      | some d =>
          obtain ⟨hp, hph⟩ := hi
          obtain ⟨hfd, hslot⟩ := ofile_spec ho
          obtain ⟨hdlt, hdfree⟩ := oalloc_spec hd
          have hlt : (s.file f).count.toNat < 255 := by
            exact (hg.resolve_left (by simp [hd])) f ho
          obtain ⟨-, -, hf⟩ := h.range p fd f hslot
          have hne : d ≠ fd := by
            rintro rfl
            rw [hdfree] at hslot
            exact absurd hslot (by simp)
          have hlist : ∀ q e, (s.setSlot p d (some f)).olist q e =
              if q = p ∧ e = d then some f else s.olist q e := setSlot_olist s p d (some f)
          have hmade : ∀ q e, Function.update s.made p (Function.update (s.made p) d (s.made p fd)) q e =
              if q = p ∧ e = d then s.made p fd else s.made q e := by
            intro q e
            by_cases hq : q = p
            · subst hq
              by_cases he : e = d
              · simp [he]
              · simp [he]
            · simp [hq]
          refine ⟨⟨?_, ?_, ?_⟩, h.toCalls.slot rfl (fun q hq => Function.update_of_ne hq ..)
            (by rw [hph]; rfl) ?_ ?_ ?_⟩
          · intro g
            have ht := Slots.total_set (o := s.olist) hp hdlt (some f) g
            rw [hdfree, Slots.hit_none, Nat.add_zero, ← h.count g] at ht
            refine Eq.trans ?_ ht.symm
            by_cases hgf : g = f
            · subst hgf
              simp only [setFile, setSlot, Function.update_self, Slots.hit_self]
              rw [UInt8.toNat_add]
              change ((s.file g).count.toNat + 1) % 256 = _
              omega
            · rw [Slots.hit_of_ne (Ne.symm hgf), Nat.add_zero]
              simp only [setFile, setSlot, Function.update_of_ne hgf]
          · intro q e g hq
            have hq' := (hlist q e).symm.trans hq
            split_ifs at hq' with hc
            · cases hq'
              obtain ⟨rfl, rfl⟩ := hc
              exact ⟨hp, hdlt, hf⟩
            · exact h.range q e g hq'
          · intro q e r e' g hq hr
            have hq' := (hlist q e).symm.trans hq
            have hr' := (hlist r e').symm.trans hr
            refine (hmade q e).trans (Eq.trans ?_ (hmade r e').symm)
            split_ifs at hq' hr' ⊢ with h1 h2 h2
            · rfl
            · cases hq'
              exact h.made p fd r e' f hslot hr'
            · cases hr'
              exact h.made q e p fd f hq' hslot
            · exact h.made q e r e' g hq' hr'
          · intro q hq rf rd wf wd hpipe
            obtain ⟨h1, h2⟩ := h.piping hpipe (Ne.symm hq) fd
            have hrf : rf ≠ f := by
              rintro rfl
              exact h1 hslot
            have hwf : wf ≠ f := by
              rintro rfl
              exact h2 hslot
            simp only [setFile, setSlot, Function.update_of_ne hrf, Function.update_of_ne hwf]
            exact ⟨trivial, trivial⟩
          · intro hdead
            rw [hph] at hdead
            exact absurd hdead (by simp)
          · intro k hk
            rw [hph] at hk
            exact absurd hk (by simp)

/-! ## `fork` -/

lemma total_inherit (h : s.Sound) {c : ℕ} (hc : c < nproc) (hdead : s.phase c = .dead) (f : ℕ) :
    Slots.total nproc nopen (Function.update s.olist c (s.olist p)) f =
      Slots.total nproc nopen s.olist f + Slots.row nopen (s.olist p) f := by
  have ht := Slots.total_update (m := nopen) (o := s.olist) hc (s.olist p) f
  rw [Slots.row_eq_zero.mpr fun j _ => by rw [h.dead c hdead j]; simp] at ht
  omega

lemma bump_count (s : State) (p f : ℕ) (hf : (s.file f).count.toNat +
    Slots.row nopen (s.olist p) f < 256) :
    ((s.bump p).file f).count.toNat =
      (s.file f).count.toNat + Slots.row nopen (s.olist p) f := by
  simp only [bump]
  rw [UInt8.toNat_add, UInt8.toNat_ofNat']
  omega

/-- The child has its own references to the open files of its parent. -/
lemma Sound.inherit (h : s.Sound) {c : ℕ} (hi : s.Idle p) (hc : c < nproc)
    (hdead : s.phase c = .dead)
    (hg : ∀ f < nfile, (s.file f).count.toNat + Slots.row nopen (s.olist p) f < 256) {a b : Phase}
    (hab : a = .idle ∧ b = .idle ∨ a = .forking c ∧ b = .unborn) :
    ((((s.bump p).inherit p c).setPhase c b).setPhase p a).Sound := by
  obtain ⟨hp, hph⟩ := hi
  have hpc : p ≠ c := by
    rintro rfl
    rw [hph] at hdead
    exact absurd hdead (by simp)
  set s' := (((s.bump p).inherit p c).setPhase c b).setPhase p a with hs'
  have hpp : s'.phase p = a := Function.update_self ..
  have hpc' : s'.phase c = b := by
    change Function.update (Function.update s.phase c b) p a c = b
    rw [Function.update_of_ne hpc.symm, Function.update_self]
  have hother : ∀ q, q ≠ p → q ≠ c → s'.phase q = s.phase q := by
    intro q hqp hqc
    change Function.update (Function.update s.phase c b) p a q = s.phase q
    rw [Function.update_of_ne hqp, Function.update_of_ne hqc]
  have hlc : s'.olist c = s.olist p := Function.update_self ..
  have hl : ∀ q, q ≠ c → s'.olist q = s.olist q := fun q hq => Function.update_of_ne hq ..
  have hmc : s'.made c = s.made p := Function.update_self ..
  have hm : ∀ q, q ≠ c → s'.made q = s.made q := fun q hq => Function.update_of_ne hq ..
  have hout : ∀ f, nfile ≤ f → Slots.row nopen (s.olist p) f = 0 := by
    intro f hf
    refine Slots.row_eq_zero.mpr fun j _ hj => ?_
    have hlt := (h.range p j f hj).2.2
    omega
  have hbound : ∀ f, (s.file f).count.toNat + Slots.row nopen (s.olist p) f < 256 := by
    intro f
    by_cases hf : f < nfile
    · exact hg f hf
    · rw [hout f (by omega), Nat.add_zero]
      exact (s.file f).count.toNat_lt
  have hcount : ∀ f, (s'.file f).count.toNat =
      (s.file f).count.toNat + Slots.row nopen (s.olist p) f := fun f => bump_count s p f (hbound f)
  -- every reference is one that there was before
  have hback : ∀ q d f, s'.olist q d = some f → ∃ r, r < nproc ∧ s.olist r d = some f ∧
      s'.made q d = s.made r d ∧ (q = c ∨ q = r) := by
    intro q d f hq
    by_cases hqc : q = c
    · subst hqc
      rw [hlc] at hq
      exact ⟨p, hp, hq, by rw [hmc], Or.inl rfl⟩
    · rw [hl q hqc] at hq
      exact ⟨q, (h.range q d f hq).1, hq, by rw [hm q hqc], Or.inr rfl⟩
  have hnop : ∀ q rf rd wf wd, s'.phase q = .piping rf rd wf wd →
      q ≠ p ∧ q ≠ c ∧ s.phase q = .piping rf rd wf wd := by
    intro q rf rd wf wd hq
    have hqp : q ≠ p := by
      rintro rfl
      rw [hpp] at hq
      rcases hab with ⟨rfl, -⟩ | ⟨rfl, -⟩ <;> exact absurd hq (by simp)
    have hqc : q ≠ c := by
      rintro rfl
      rw [hpc'] at hq
      rcases hab with ⟨-, rfl⟩ | ⟨-, rfl⟩ <;> exact absurd hq (by simp)
    exact ⟨hqp, hqc, hother q hqp hqc ▸ hq⟩
  have hheld : ∀ q f, (s'.phase q).held = some f → (s.phase q).held = some f := by
    intro q f hq
    cases hphq : s'.phase q with
    | piping rf rd wf wd =>
        rw [hphq] at hq
        rw [(hnop q rf rd wf wd hphq).2.2]
        exact hq
    | _ =>
        rw [hphq] at hq
        exact absurd hq (by simp [Phase.held])
  have hfork : ∀ q d, s'.phase q = .forking d → q = p ∧ d = c ∨
      q ≠ p ∧ q ≠ c ∧ s.phase q = .forking d ∧ d ≠ c := by
    intro q d hq
    by_cases hqp : q = p
    · subst hqp
      rw [hpp] at hq
      rcases hab with ⟨rfl, -⟩ | ⟨rfl, -⟩
      · exact absurd hq (by simp)
      · exact Or.inl ⟨rfl, (Phase.forking.inj hq).symm⟩
    · have hqc : q ≠ c := by
        rintro rfl
        rw [hpc'] at hq
        rcases hab with ⟨-, rfl⟩ | ⟨-, rfl⟩ <;> exact absurd hq (by simp)
      rw [hother q hqp hqc] at hq
      refine Or.inr ⟨hqp, hqc, hq, ?_⟩
      rintro rfl
      rw [(h.fork q _ hq).2.1] at hdead
      exact absurd hdead (by simp)
  refine ⟨⟨?_, ?_, ?_⟩, ⟨?_, ?_, ?_, ?_, ?_, ?_, ?_⟩⟩
  · intro f
    rw [hcount f, h.count f]
    exact (total_inherit h hc hdead f).symm
  · intro q d f hq
    obtain ⟨r, hr, hslot, -, hqr⟩ := hback q d f hq
    obtain ⟨-, h2, h3⟩ := h.range r d f hslot
    rcases hqr with rfl | rfl
    · exact ⟨hc, h2, h3⟩
    · exact ⟨hr, h2, h3⟩
  · intro q d r e f hq hr
    obtain ⟨q', -, hq', hmq, -⟩ := hback q d f hq
    obtain ⟨r', -, hr', hmr, -⟩ := hback r e f hr
    rw [hmq, hmr]
    exact h.made q' d r' e f hq' hr'
  · intro q hq
    by_cases hqp : q = p
    · exact hqp ▸ hp
    · by_cases hqc : q = c
      · exact hqc ▸ hc
      · exact h.lt q (hother q hqp hqc ▸ hq)
  · intro q rf rd wf wd hq
    obtain ⟨hqp, hqc, hq'⟩ := hnop q rf rd wf wd hq
    obtain ⟨h1, h2, h3, h4, h5, h6⟩ := h.pipe q rf rd wf wd hq'
    have hrow : ∀ f, (∀ d, s.olist p d ≠ some f) → (s'.file f).count = (s.file f).count := by
      intro f hf
      rw [← UInt8.toNat_inj, hcount f, Slots.row_eq_zero.mpr fun j _ => hf j, Nat.add_zero]
    have hno := fun d => h.piping hq' (Ne.symm hqp) d
    rw [hl q hqc, hrow rf fun d => (hno d).1, hrow wf fun d => (hno d).2]
    exact ⟨h1, h2, h3, h4, h5, h6⟩
  · intro q r f hq hr
    exact h.apart q r f (hheld q f hq) (hheld r f hr)
  · intro q d hq
    rcases hfork q d hq with ⟨rfl, rfl⟩ | ⟨hqp, hqc, hq', hdc⟩
    · rcases hab with ⟨rfl, -⟩ | ⟨-, rfl⟩
      · rw [hpp] at hq
        exact absurd hq (by simp)
      · exact ⟨hc, hpc', hlc.trans (hl q hpc).symm⟩
    · obtain ⟨h1, h2, h3⟩ := h.fork q d hq'
      have hdp : d ≠ p := by
        rintro rfl
        rw [hph] at h2
        exact absurd h2 (by simp)
      rw [hother d hdp hdc, hl d hdc, hl q hqc]
      exact ⟨h1, h2, h3⟩
  · intro q r d hq hr
    rcases hfork q d hq with ⟨rfl, rfl⟩ | ⟨-, -, hq', hdc⟩
    · rcases hfork r d hr with ⟨rfl, -⟩ | ⟨-, -, -, hdc⟩
      · rfl
      · exact absurd rfl hdc
    · rcases hfork r d hr with ⟨-, rfl⟩ | ⟨-, -, hr', -⟩
      · exact absurd rfl hdc
      · exact h.one q r d hq' hr'
  · intro q hq
    have hqp : q ≠ p := by
      rintro rfl
      rw [hpp] at hq
      rcases hab with ⟨rfl, -⟩ | ⟨rfl, -⟩ <;> exact absurd hq (by simp)
    have hqc : q ≠ c := by
      rintro rfl
      rw [hpc'] at hq
      rcases hab with ⟨-, rfl⟩ | ⟨-, rfl⟩ <;> exact absurd hq (by simp)
    rw [hl q hqc]
    exact h.dead q (hother q hqp hqc ▸ hq)
  · intro q k hq
    have hqp : q ≠ p := by
      rintro rfl
      rw [hpp] at hq
      rcases hab with ⟨rfl, -⟩ | ⟨rfl, -⟩ <;> exact absurd hq (by simp)
    have hqc : q ≠ c := by
      rintro rfl
      rw [hpc'] at hq
      rcases hab with ⟨-, rfl⟩ | ⟨-, rfl⟩ <;> exact absurd hq (by simp)
    rw [hl q hqc]
    exact h.closing q k (hother q hqp hqc ▸ hq)

/-- `fork` -/
lemma Sound.forkCall (h : s.Sound) {c : ℕ} {k : Copy} (hi : s.Idle p) (hc : c < nproc)
    (hdead : s.phase c = .dead) (hg : s.Intact (.fork p c k)) : (s.fork p c k).Sound := by
  cases k with
  | room =>
      have hi' := h.inherit hi hc hdead hg (Or.inl ⟨rfl, rfl⟩)
      have hpc : p ≠ c := by
        rintro rfl
        rw [hi.2] at hdead
        exact absurd hdead (by simp)
      have he : (((s.bump p).inherit p c).setPhase c .idle).setPhase p .idle =
          s.fork p c .room := by
        have hsame : Function.update (Function.update s.phase c .idle) p .idle =
            Function.update s.phase c .idle := by
          refine Function.update_eq_self_iff.mpr ?_
          rw [Function.update_of_ne hpc, hi.2]
        simp only [State.fork, State.setPhase, State.inherit, State.bump, hsame]
      rwa [← he]
  | full =>
      -- there are no open files to count
      have hrow : ∀ f, Slots.row nopen (s.olist p) f = 0 := fun f =>
        Slots.row_eq_zero.mpr fun j hj => by rw [hg j hj]; simp
      have hsame : Same s (s.bump p) :=
        ⟨fun f => by simp [bump, hrow f], rfl, fun _ _ _ => rfl, rfl⟩
      exact (h.same hsame).same (same_setError _ p _)
  | swap => exact h.inherit hi hc hdead hg (Or.inr ⟨rfl, rfl⟩)

/-- The end of a `fork` that has slept. -/
lemma Sound.endFork (h : s.Sound) {c : ℕ} (hx : s.phase p = .forking c) {b : Phase}
    (hb : b = .idle ∨ b = .dead ∧ ∀ fd, s.olist c fd = none) :
    ((s.setPhase c b).setPhase p .idle).Sound := by
  obtain ⟨hc, hun, hrow⟩ := h.fork p c hx
  have hpc : c ≠ p := by
    rintro rfl
    rw [hx] at hun
    exact absurd hun (by simp)
  set s' := (s.setPhase c b).setPhase p .idle with hs'
  have hphase : ∀ q, s'.phase q = if q = p then .idle else if q = c then b else s.phase q := by
    intro q
    change Function.update (Function.update s.phase c b) p .idle q = _
    simp only [Function.update_apply]
  have hplain : ∀ q, (s'.phase q).plain = false → q ≠ p ∧ q ≠ c ∧ s'.phase q = s.phase q := by
    intro q hq
    rw [hphase] at hq ⊢
    split_ifs at hq ⊢ with h1 h2
    · exact absurd hq (by simp [Phase.plain])
    · rcases hb with rfl | ⟨rfl, -⟩ <;> exact absurd hq (by simp [Phase.plain])
    · exact ⟨h1, h2, rfl⟩
  refine ⟨⟨h.count, h.range, h.made⟩, ⟨?_, ?_, ?_, ?_, ?_, ?_, ?_⟩⟩
  · intro q hq
    rw [hphase] at hq
    split_ifs at hq with h1 h2
    · exact h1 ▸ h.lt p (by rw [hx]; simp)
    · exact h2 ▸ hc
    · exact h.lt q hq
  · intro q rf rd wf wd hq
    obtain ⟨-, -, he⟩ := hplain q (by rw [hq]; rfl)
    exact h.pipe q rf rd wf wd (he ▸ hq)
  · have hheld : ∀ q f, (s'.phase q).held = some f → (s.phase q).held = some f := by
      intro q f hq
      cases hph : s'.phase q with
      | piping rf rd wf wd =>
          rw [hph] at hq
          rw [← (hplain q (by rw [hph]; rfl)).2.2, hph]
          exact hq
      | _ =>
          rw [hph] at hq
          exact absurd hq (by simp [Phase.held])
    intro q r f hq hr
    exact h.apart q r f (hheld q f hq) (hheld r f hr)
  · intro q d hq
    obtain ⟨hqp, -, he⟩ := hplain q (by rw [hq]; rfl)
    rw [he] at hq
    obtain ⟨h1, h2, h3⟩ := h.fork q d hq
    have hdp : d ≠ p := by
      rintro rfl
      rw [hx] at h2
      exact absurd h2 (by simp)
    have hdc : d ≠ c := by
      rintro rfl
      exact hqp (h.one q p d hq hx)
    rw [hphase, if_neg hdp, if_neg hdc]
    exact ⟨h1, h2, h3⟩
  · intro q r d hq hr
    obtain ⟨-, -, he⟩ := hplain q (by rw [hq]; rfl)
    obtain ⟨-, -, he'⟩ := hplain r (by rw [hr]; rfl)
    exact h.one q r d (he ▸ hq) (he' ▸ hr)
  · intro q hq
    rw [hphase] at hq
    split_ifs at hq with h1 h2
    · rcases hb with rfl | ⟨-, hnone⟩
      · exact absurd hq (by simp)
      · rw [h2]
        exact hnone
    · exact h.dead q hq
  · intro q k hq
    rw [hphase] at hq
    split_ifs at hq with h1 h2
    · rcases hb with rfl | ⟨rfl, -⟩ <;> exact absurd hq (by simp)
    · exact h.closing q k hq

lemma Sound.forked (h : s.Sound) {c : ℕ} {ok : Bool} (hx : s.phase p = .forking c)
    (hg : s.Intact (.forked p ok)) : (s.forked p c ok).Sound := by
  obtain ⟨-, -, hrow⟩ := h.fork p c hx
  cases ok with
  | true => exact h.endFork hx (Or.inl rfl)
  | false =>
      have hnone : ∀ fd, s.olist c fd = none := by
        intro fd
        rw [hrow]
        by_contra hne
        obtain ⟨f, hf⟩ := Option.ne_none_iff_exists'.mp hne
        exact hne (hg.resolve_left (by simp) fd (h.range p fd f hf).2.1)
      have he : (fun _ => none) = s.olist c := (funext hnone).symm
      have hs := (h.endFork hx (Or.inr ⟨rfl, hnone⟩)).same (same_setError _ p (some .eagain))
      have hst : s.forked p c false =
          (((s.setPhase c .dead).setPhase p .idle).setError p (some .eagain)) := by
        simp only [State.forked, he, Bool.false_eq_true, if_false, Function.update_eq_self]
        rfl
      rwa [hst]

/-! ## `open`, `creat` and `pipe` -/

lemma Same.falloc (h : Same s s') : s'.falloc = s.falloc := by
  unfold State.falloc
  simp only [h.count]

lemma Same.oalloc (h : Same s s') (p : ℕ) : s'.oalloc p = s.oalloc p := by
  unfold State.oalloc
  rw [h.olist]

lemma Same.safe (h : Same s s') (hs : s.Safe p) : s'.Safe p := by
  unfold State.Safe State.Spare at hs ⊢
  rwa [h.falloc, h.oalloc, h.phase]

lemma Spare.setPhase (hs : s.Spare f) {a : Phase} (ha : a.held = none) (p : ℕ) :
    (s.setPhase p a).Spare f := by
  intro q hq
  by_cases hqp : q = p
  · subst hqp
    change (Function.update s.phase q a q).held ≠ some f
    rw [Function.update_self, ha]
    simp
  · change (Function.update s.phase p a q).held ≠ some f
    rw [Function.update_of_ne hqp]
    exact hs q hq

lemma Safe.setPhase (hs : s.Safe p) {a : Phase} (ha : a.held = none) : (s.setPhase p a).Safe p :=
  hs.imp id fun h f hf hfa => (h f hf hfa).setPhase ha p

/-- The end of `iopen`. -/
lemma Sound.iopenEnd (h : s.Sound) (hi : s.Idle p) (hs : s.error p = none → s.Safe p) :
    (s.iopenEnd p ip mode).Sound := by
  unfold State.iopenEnd
  split_ifs with he
  · exact h.same (same_modInode s ip _)
  · have he' : s.error p = none := by simpa using he
    cases hf : s.falloc with
    | none => exact (h.same (same_setError s p _)).same (same_modInode _ ip _)
    | some f =>
        obtain ⟨hlt, hc⟩ := falloc_spec hf
        have hz : Same s (s.setFile f .zero) := same_setFile (by rw [hc]; rfl)
        have h' := h.same hz
        simp only [hz.oalloc]
        cases hd : s.oalloc p with
        | none => exact (h'.same (same_setError _ p _)).same (same_modInode _ ip _)
        | some fd =>
            obtain ⟨hfd, hslot⟩ := oalloc_spec hd
            refine h'.grant hi.1 hi.2 hfd hslot hlt ((hz.count f).trans hc) ?_ mode (some ip)
            exact ((hs he').resolve_left (by simp [hd])) f hlt hf

lemma Sound.iopen (h : s.Sound) (hi : s.Idle p)
    (hs : s.error p = none → s.Direct ip mode → s.Safe p) : (s.iopen p ip mode).Sound := by
  unfold State.iopen
  set t := if writ mode && (s.inode ip).isvtx then s.mark ip true else s with ht
  have hst : Same s t := by
    rw [ht]
    split_ifs
    · exact same_modInode s ip _
    · exact Same.refl s
  have hfmt : (t.inode ip).fmt = (s.inode ip).fmt := by
    rw [ht]
    split_ifs
    · simp [mark, modInode]
    · rfl
  have herr : t.error = s.error := by
    rw [ht]
    split_ifs <;> rfl
  have h' := h.same hst
  have hi' : t.Idle p := ⟨hi.1, hst.phase ▸ hi.2⟩
  have hplain : (∀ c, t.phase p ≠ .forking c) ∧ t.phase p ≠ .unborn := by
    rw [hi'.2]
    simp
  simp only
  rw [hfmt]
  cases hf : (s.inode ip).fmt with
  | ifreg =>
      refine h'.iopenEnd hi' fun he => hst.safe (hs (herr ▸ he) (Or.inl hf))
  | ifchr =>
      exact h'.setPhase hi.1 hplain.1 hplain.2 rfl (by simp) (by simp)
  | ifblk =>
      have hh := h'.same (same_modInode t ip fun i => { i with ibusy := true })
      exact hh.setPhase hi.1 hplain.1 hplain.2 rfl (by simp) (by simp)
  | ifdir =>
      split_ifs with hw
      · refine (h'.same (same_setError t p _)).iopenEnd hi' fun he => ?_
        simp [setError] at he
      · refine h'.iopenEnd hi' fun he => hst.safe (hs (herr ▸ he) (Or.inr ⟨hf, by simpa using hw⟩))

/-- `unpipe` takes back what `falloc` and `oalloc` gave. -/
lemma same_unpipe {rf rd n : ℕ} {e : Error} (hrd : s.olist p rd = none)
    (hc : (s.file rf).count = 0) :
    Same s (((s.grant p rd rf n none).fail p e).unpipe p rf rd) := by
  refine ⟨fun g => ?_, ?_, fun q d hq => ?_, rfl⟩
  · by_cases hg : g = rf
    · subst hg
      simp [unpipe, setFile, setSlot, hc]
    · simp [unpipe, setFile, setSlot, fail, setError, State.grant, Function.update_of_ne hg]
  · funext q d
    change ((((s.grant p rd rf n none).fail p e).setFile rf _).setSlot p rd none).olist q d = _
    rw [setSlot_olist]
    change (if q = p ∧ d = rd then none else (s.setSlot p rd (some rf)).olist q d) = _
    rw [setSlot_olist]
    split_ifs with hqd
    · rw [hqd.1, hqd.2, hrd]
    · rfl
  · change Function.update s.made p _ q d = s.made q d
    by_cases hqp : q = p
    · subst hqp
      rw [Function.update_self]
      by_cases hd : d = rd
      · subst hd
        exact absurd hrd hq
      · rw [Function.update_of_ne hd]
    · rw [Function.update_of_ne hqp]

lemma setFile_grant {x : File} {n : ℕ} {o : Option ℕ} :
    (s.setFile f x).grant p fd f n o = s.grant p fd f n o := by
  simp [State.grant, setFile, setSlot]

/-- `pipe` goes to sleep with a second entry that nobody else has chosen. -/
lemma Sound.sleepPipe (h : s.Sound) {rf rd wf wd : ℕ} (hi : s.Idle p) (hrd : s.olist p rd = some rf)
    (hrf : (s.file rf).count = 1) (hwd : wd < nopen) (hslot : s.olist p wd = none) (hwf : wf < nfile)
    (hc : (s.file wf).count = 0) (hs : s.Spare wf) : (s.setPhase p (.piping rf rd wf wd)).Sound := by
  have hself : (s.setPhase p (.piping rf rd wf wd)).phase p = .piping rf rd wf wd :=
    Function.update_self ..
  have hother : ∀ q, q ≠ p → (s.setPhase p (.piping rf rd wf wd)).phase q = s.phase q := fun q hq =>
    Function.update_of_ne hq ..
  have hne : ∀ q a, s.phase q = a → a ≠ .idle → q ≠ p := by
    rintro q a hq ha rfl
    exact ha (hq.symm.trans hi.2)
  have hdiff : ∀ {q a}, (s.setPhase p (.piping rf rd wf wd)).phase q = a →
      a ≠ .piping rf rd wf wd → q ≠ p ∧ s.phase q = a := by
    intro q a hq ha
    have hqp : q ≠ p := by
      rintro rfl
      exact ha (hq.symm.trans hself)
    exact ⟨hqp, (hother q hqp).symm.trans hq⟩
  refine ⟨⟨h.count, h.range, h.made⟩, ⟨?_, ?_, ?_, ?_, ?_, ?_, ?_⟩⟩
  · intro q hq
    by_cases hqp : q = p
    · exact hqp ▸ hi.1
    · exact h.lt q (hother q hqp ▸ hq)
  · intro q rf' rd' wf' wd' hq
    by_cases hqp : q = p
    · subst hqp
      rw [hself] at hq
      cases hq
      exact ⟨hrd, hrf, hwd, hslot, hwf, hc⟩
    · exact h.pipe q rf' rd' wf' wd' (hother q hqp ▸ hq)
  · have hlt : ∀ q f, (s.phase q).held = some f → q < nproc := fun q f hq =>
      h.lt q fun hd => by simp [hd, Phase.held] at hq
    intro q r f hq hr
    by_cases hqp : q = p
    · by_cases hrp : r = p
      · rw [hqp, hrp]
      · rw [hqp, hself] at hq
        rw [hother r hrp] at hr
        cases hq
        exact absurd hr (hs r (hlt r _ hr))
    · rw [hother q hqp] at hq
      by_cases hrp : r = p
      · rw [hrp, hself] at hr
        cases hr
        exact absurd hq (hs q (hlt q _ hq))
      · rw [hother r hrp] at hr
        exact h.apart q r f hq hr
  · intro q c hq
    obtain ⟨-, hq'⟩ := hdiff hq (by simp)
    obtain ⟨h1, h2, h3⟩ := h.fork q c hq'
    exact ⟨h1, (hother c (hne c _ h2 (by simp))).trans h2, h3⟩
  · intro q r c hq hr
    exact h.one q r c (hdiff hq (by simp)).2 (hdiff hr (by simp)).2
  · intro q hq
    exact h.dead q (hdiff hq (by simp)).2
  · intro q k hq
    exact h.closing q k (hdiff hq (by simp)).2

lemma Sound.pipeCall (h : s.Sound) (hi : s.Idle p) (hg : s.Intact (.pipe p)) : (s.pipe p).Sound := by
  unfold State.pipe
  cases hrf : s.falloc with
  | none => exact h.same (same_setError s p _)
  | some rf =>
      obtain ⟨hlt, hc⟩ := falloc_spec hrf
      have hz : Same s (s.setFile rf .zero) := same_setFile (by rw [hc]; rfl)
      simp only [hz.oalloc]
      cases hrd : s.oalloc p with
      | none => exact (h.same hz).same (same_setError _ p _)
      | some rd =>
          obtain ⟨hrdlt, hrdfree⟩ := oalloc_spec hrd
          simp only [setFile_grant]
          set t := s.grant p rd rf (iRead ||| pipeBit) none with ht
          cases hwf : t.falloc with
          | none => exact h.same (same_unpipe hrdfree hc)
          | some wf =>
              obtain ⟨hwlt, hwc⟩ := falloc_spec hwf
              have hz' : Same t (t.setFile wf .zero) := same_setFile (by rw [hwc]; rfl)
              simp only [hz'.oalloc]
              cases hwd : t.oalloc p with
              | none =>
                  -- the second entry was cleared in vain
                  have hne : rf ≠ wf := by
                    rintro rfl
                    simp [ht, State.grant, setFile, setSlot] at hwc
                  have hcomm : ((t.setFile wf .zero).fail p .emfile).unpipe p rf rd =
                      ((t.fail p .emfile).unpipe p rf rd).setFile wf .zero := by
                    simp only [unpipe, setFile, setSlot, fail, setError, Function.update_of_ne hne]
                    rw [Function.update_comm hne.symm]
                  simp only [hcomm]
                  refine (h.same (same_unpipe hrdfree hc)).same (same_setFile ?_)
                  simp only [unpipe, setFile, setSlot, fail, setError, Function.update_of_ne hne.symm]
                  rw [hwc]
                  rfl
              | some wd =>
                  obtain ⟨hwdlt, hwdfree⟩ := oalloc_spec hwd
                  have hspare : s.Spare rf ∧ s.Spare wf := by
                    refine hg (rf, wf) ?_
                    simp only [pair, hrf, hrd, ← ht, hwf, hwd, Option.mem_def]
                  have h' := h.grant hi.1 hi.2 hrdlt hrdfree hlt hc hspare.1 (iRead ||| pipeBit) none
                  have hne : rf ≠ wf := by
                    rintro rfl
                    simp [ht, State.grant, setFile, setSlot] at hwc
                  refine (h'.same hz').sleepPipe hi ?_ ?_ hwdlt hwdfree hwlt ((hz'.count wf).trans hwc)
                    hspare.2
                  · change t.olist p rd = some rf
                    simp [ht, State.grant, setFile, setSlot]
                  · rw [hz'.count]
                    simp [ht, State.grant, setFile, setSlot]

/-- The end of `pipe`. -/
lemma Sound.piped (h : s.Sound) (ip : ℕ) {rf rd wf wd : ℕ} (hx : s.phase p = .piping rf rd wf wd) :
    (s.piped p rf rd wf wd ip).Sound ∧ ((s.unpipe p rf rd).setPhase p .idle).Sound := by
  obtain ⟨h1, h2, h3, h4, h5, h6⟩ := h.pipe p rf rd wf wd hx
  have hp := h.lt p (by rw [hx]; simp)
  have hidle : (s.setPhase p .idle).Sound :=
    h.setPhase hp (by simp [hx]) (by simp [hx]) rfl (by simp) (by simp)
  have hph : (s.setPhase p .idle).phase p = .idle := Function.update_self ..
  have hspare : (s.setPhase p .idle).Spare wf := by
    intro q _
    by_cases hqp : q = p
    · subst hqp
      rw [hph]
      simp [Phase.held]
    · change (Function.update s.phase p _ q).held ≠ some wf
      rw [Function.update_of_ne hqp]
      exact fun hq => hqp (h.apart q p wf hq (by rw [hx]; rfl))
  constructor
  · have hm := hidle.same (same_modInode (s.setPhase p .idle) ip fun i =>
      { i with fmt := .ifreg, ialloc := true, isvtx := false, perm := 0, uid := 0, gid := 0 })
    exact (hm.grant hp hph h3 h4 h5 h6 hspare (iWrite ||| pipeBit) (some ip)).same (same_setFile rfl)
  · have hd := hidle.drop (x := { s.file rf with count := 0 }) (by rw [hph]; rfl) h1
      (by simp only [State.setPhase, h2]; rfl)
    exact hd

/-! ## `close` and `exit` -/

lemma same_fclose (s : State) (f : ℕ) :
    Same (s.setFile f { s.file f with count := (s.file f).count - 1 }) (s.fclose f) := by
  unfold fclose
  dsimp only
  generalize s.setFile f { s.file f with count := (s.file f).count - 1 } = t
  by_cases hc : (t.file f).count ≠ 0
  · rw [if_pos hc]
    exact Same.refl t
  · rw [if_neg hc]
    cases (t.file f).inode with
    | none => exact Same.refl t
    | some ip =>
        dsimp only
        split_ifs
        · exact same_modInode t ip _
        · exact Same.refl t

lemma Sound.close (h : s.Sound) (hplain : (s.phase p).plain = true) (fd : ℕ) :
    (s.close p fd).Sound := by
  unfold State.close
  cases ho : s.ofile p fd with
  | none => exact h.same (same_setError s p _)
  | some f =>
      have hd := h.drop (x := { s.file f with count := (s.file f).count - 1 }) hplain
        (ofile_spec ho).2 rfl
      exact hd.same (same_fclose (s.setSlot p fd none) f)

lemma close_phase (s : State) (p fd : ℕ) : (s.close p fd).phase = s.phase := by
  unfold State.close
  split
  · rfl
  · exact (same_fclose (s.setSlot p fd none) _).phase

lemma close_olist (s : State) (p fd d : ℕ) :
    (s.close p fd).olist p d = none ∨ (s.close p fd).olist p d = s.olist p d ∧ (d ≠ fd ∨ nopen ≤ fd) := by
  unfold State.close
  cases ho : s.ofile p fd with
  | none =>
      unfold ofile at ho
      split_ifs at ho with hlt
      · by_cases hd : d = fd
        · exact Or.inl (hd ▸ ho)
        · exact Or.inr ⟨rfl, Or.inl hd⟩
      · exact Or.inr ⟨rfl, Or.inr (by omega)⟩
  | some f =>
      simp only
      rw [(same_fclose (s.setSlot p fd none) f).olist]
      change (s.setSlot p fd none).olist p d = none ∨ (s.setSlot p fd none).olist p d = _ ∧ _
      rw [setSlot_olist]
      split_ifs with hd
      · exact Or.inl rfl
      · exact Or.inr ⟨rfl, Or.inl fun he => hd ⟨rfl, he⟩⟩

/-- The loop of `exit`: the slots that it has passed are empty. -/
lemma Sound.exitLoop (h : s.Sound) (hx : s.phase p = .closing fd) : (s.exitLoop p fd).Sound := by
  have hp := h.lt p (by rw [hx]; simp)
  have hnone := h.closing p fd hx
  unfold State.exitLoop
  split_ifs with hlt
  · have hc : ((s.close p fd).enter p).Sound :=
      (h.close (by rw [hx]; rfl) fd).same (same_setError _ p none)
    have hph : ((s.close p fd).enter p).phase p = .closing fd :=
      (congrFun (close_phase s p fd) p).trans hx
    refine hc.setPhase hp (by simp [hph]) (by simp [hph]) rfl (by simp) ?_
    intro k hk d hd
    cases hk
    change (s.close p fd).olist p d = none
    rcases s.close_olist p fd d with he | ⟨he, hne⟩
    · exact he
    · rw [he]
      exact hnone d (by omega)
  · refine h.setPhase hp (by simp [hx]) (by simp [hx]) rfl (fun _ d => ?_) (by simp)
    by_contra hne
    obtain ⟨f, hf⟩ := Option.ne_none_iff_exists'.mp hne
    exact hne (hnone d (by have := (h.range p d f hf).2.1; omega))

/-! ## Every reachable state -/

lemma Start.sound (h : s.Start) : s.Sound := by
  obtain ⟨h1, h2, -, h4⟩ := h
  have hno : ∀ p fd f, s.olist p fd ≠ some f := fun p fd f => by simp [h2]
  have hph : ∀ p, s.phase p ≠ .dead → s.Idle p := fun p hp => (h4 p).resolve_left hp
  refine ⟨⟨?_, ?_, ?_⟩, ⟨?_, ?_, ?_, ?_, ?_, ?_, ?_⟩⟩
  · intro f
    rw [h1, Slots.total_eq_zero.mpr fun p _ fd _ => hno p fd f]
    rfl
  · intro p fd f hp
    exact absurd hp (hno p fd f)
  · intro p fd q d f hp
    exact absurd hp (hno p fd f)
  · intro p hp
    exact (hph p hp).1
  · intro p rf rd wf wd hp
    exact absurd ((hph p (by simp [hp])).2.symm.trans hp) (by simp)
  · intro p q f hp
    rcases h4 p with hd | hd
    · rw [hd] at hp
      exact absurd hp (by simp [Phase.held])
    · rw [hd.2] at hp
      exact absurd hp (by simp [Phase.held])
  · intro p c hp
    exact absurd ((hph p (by simp [hp])).2.symm.trans hp) (by simp)
  · intro p q c hp
    exact absurd ((hph p (by simp [hp])).2.symm.trans hp) (by simp)
  · intro p _ fd
    exact h2 p fd
  · intro p k hp
    exact absurd ((hph p (by simp [hp])).2.symm.trans hp) (by simp)

/-- `open` of an inode. -/
lemma Sound.openCall (h : s.Sound) {u : User} {m : ℕ} (hi : s.Idle p)
    (hg : s.Intact (.open p u ip m)) : (s.open p u ip m).Sound := by
  unfold State.open
  cases ha : access u (s.inode ip) (imode m) with
  | some e => exact h.same (same_setError s p _)
  | none => exact h.iopen hi fun _ => hg ha

lemma Sound.creat (h : s.Sound) {u : User} (hi : s.Idle p) : (s.creat p u ip).Sound := by
  unfold State.creat
  split_ifs
  · exact h.same (same_setError s p _)
  · cases access u (s.inode ip) iWrite with
    | some e => exact h.same (same_setError s p _)
    | none =>
        have hh := h.same (same_modInode s ip fun i => { i with ibusy := true })
        exact hh.setPhase hi.1 (by simp [modInode, hi.2]) (by simp [modInode, hi.2]) rfl (by simp)
          (by simp)

/-- A call that has slept goes on. -/
lemma Sound.wake (h : s.Sound) (ip : ℕ) (hp : p < nproc) (hx : (s.phase p).plain = true) (e : Option Error) :
    ((((s.hold ip false).setPhase p .idle).setError p e).Sound) ∧
      ((((s.hold ip false).setPhase p .idle).setError p e).Idle p) := by
  have hm := h.same (same_modInode s ip fun i => { i with ibusy := false })
  refine ⟨(hm.setPhase hp ?_ ?_ rfl (by simp) (by simp)).same (same_setError _ p e),
    hp, Function.update_self ..⟩
  · rintro c hc
    have hc' : s.phase p = .forking c := hc
    rw [hc'] at hx
    exact absurd hx (by simp [Phase.plain])
  · intro hc
    have hc' : s.phase p = .unborn := hc
    rw [hc'] at hx
    exact absurd hx (by simp [Phase.plain])

/-- Every step that meets the condition keeps the invariant. -/
lemma Sound.step (h : s.Sound) {l : Label} (hg : s.Intact l) (hs : s.step l = some s') :
    s'.Sound := by
  cases l with
  | «open» p u ip m =>
      simp only [State.step] at hs
      split_ifs at hs with hc
      cases hs
      exact (h.same (same_setError s p none)).openCall hc.1 hg
  | creat p u ip =>
      simp only [State.step] at hs
      split_ifs at hs with hc
      cases hs
      exact (h.same (same_setError s p none)).creat hc.1
  | truncated p e =>
      simp only [State.step] at hs
      split at hs
      next ip hx =>
        cases hs
        obtain ⟨hw, hi⟩ := h.wake ip (h.lt p (by simp [hx])) (by rw [hx]; rfl) e
        refine hw.iopen hi fun he hd => ?_
        have he' : e = none := by simpa [setError] using he
        have hd' : s.Direct ip iWrite := by simpa [Direct, setError, State.setPhase, hold, modInode] using hd
        have hsafe : s.Safe p := hg he' ⟨ip, by rw [hx]; rfl, hd'⟩
        exact ((same_modInode s ip fun i => { i with ibusy := false }).safe hsafe).setPhase
          (a := .idle) rfl
      next => cases hs
  | create p ip isvtx perm uid gid e =>
      simp only [State.step] at hs
      split_ifs at hs with hc
      cases hs
      have hm := (h.same (same_setError s p e)).same (same_modInode (s.setError p e) ip fun i =>
        { i with fmt := .ifreg, ialloc := true, isvtx, perm, uid, gid })
      refine hm.iopen hc.1 fun he _ => ?_
      have he' : e = none := by simpa [setError, modInode] using he
      exact ((same_setError s p e).trans (same_modInode _ _ _)).safe (hg he')
  | opened p e =>
      simp only [State.step] at hs
      split at hs
      next ip mode hx =>
        split_ifs at hs with hb
        cases hs
        obtain ⟨hw, hi⟩ := h.wake ip (h.lt p (by simp [hx])) (by rw [hx]; rfl) e
        refine hw.iopenEnd hi fun he => ?_
        have he' : e = none := by simpa [setError] using he
        exact ((same_modInode s ip fun i => { i with ibusy := false }).safe (hg he')).setPhase
          (a := .idle) rfl
      next => cases hs
  | abort p =>
      simp only [State.step] at hs
      split at hs
      next ip mode hx =>
        split_ifs at hs
        cases hs
        exact h.setPhase (h.lt p (by simp [hx])) (by simp [hx]) (by simp [hx]) rfl (by simp) (by simp)
      next => cases hs
  | chmod ip isvtx perm =>
      simp only [State.step] at hs
      split_ifs at hs
      cases hs
      exact h.same (same_modInode s ip _)
  | pipe p =>
      simp only [State.step] at hs
      split_ifs at hs with hc
      cases hs
      exact (h.same (same_setError s p none)).pipeCall hc hg
  | piped p o =>
      simp only [State.step] at hs
      split at hs
      next rf rd wf wd hx =>
        cases o with
        | none =>
            cases hs
            exact (h.piped 0 hx).2
        | some ip =>
            simp only at hs
            split_ifs at hs
            cases hs
            exact (h.piped ip hx).1
      next => cases hs
  | dup p fd =>
      simp only [State.step] at hs
      split_ifs at hs with hc
      cases hs
      exact (h.same (same_setError s p none)).dup hc hg
  | fork p c k =>
      simp only [State.step] at hs
      split_ifs at hs with hc
      cases hs
      exact (h.same (same_setError s p none)).forkCall hc.1 hc.2.1 hc.2.2 hg
  | forked p ok =>
      simp only [State.step] at hs
      split at hs
      next c hx =>
        cases hs
        exact h.forked hx hg
      next => cases hs
  | close p fd =>
      simp only [State.step] at hs
      split_ifs at hs with hc
      cases hs
      have hi : ((s.enter p).phase p).plain = true := by
        change (s.phase p).plain = true
        rw [hc.2]
        rfl
      exact (h.same (same_setError s p none)).close hi fd
  | exit p =>
      simp only [State.step] at hs
      split_ifs at hs with hc
      cases hs
      refine h.setPhase hc.1 (by simp [hc.2]) (by simp [hc.2]) rfl (by simp) ?_
      intro k hk d hd
      cases hk
      exact absurd hd (Nat.not_lt_zero d)
  | next p =>
      simp only [State.step] at hs
      split at hs
      next fd hx =>
        cases hs
        exact h.exitLoop hx
      next => cases hs
  | free ip =>
      simp only [State.step] at hs
      split_ifs at hs
      cases hs
      exact h.same (same_modInode s ip _)

lemma reach_sound (h : Reach State.step State.Start Intact s) : s.Sound :=
  h.invariant (fun _ => Start.sound) fun _ _ _ hs hg he => hs.step hg he

instance (s : State) (l : Label) : Decidable (s.Intact l) :=
  match l with
  | .open p _ ip m => inferInstanceAs (Decidable (_ = _ → s.Direct ip (imode m) → s.Safe p))
  | .truncated p e =>
      inferInstanceAs (Decidable (e = none → (∃ ip ∈ (s.phase p).node, s.Direct ip iWrite) → s.Safe p))
  | .create p _ _ _ _ _ e | .opened p e => inferInstanceAs (Decidable (e = none → s.Safe p))
  | .pipe p => inferInstanceAs (Decidable (∀ x ∈ s.pair p, s.Spare x.1 ∧ s.Spare x.2))
  | .dup p fd => inferInstanceAs (Decidable (_ ∨ ∀ f ∈ s.ofile p fd, (s.file f).count.toNat < 255))
  | .fork _ _ k => inferInstanceAs (Decidable (if k = .full then _ else _))
  | .forked p ok => inferInstanceAs (Decidable (ok = true ∨ ∀ fd < nopen, s.olist p fd = none))
  | .creat .. | .abort _ | .chmod .. | .piped .. | .close .. | .exit _ | .next _ | .free _ =>
      inferInstanceAs (Decidable True)

/-- **The file table.**  In every run whose steps meet the condition the count of an entry is the
number of descriptors that refer to it (those of a child on its way to the swap device included), and
descriptors that refer to one entry come from one `falloc`. -/
theorem file_table (h : Reach State.step State.Start Intact s) :
    (∀ f, (s.file f).count.toNat = Slots.total nproc nopen s.olist f) ∧
      ∀ p fd q d f, s.olist p fd = some f → s.olist q d = some f → s.made p fd = s.made q d :=
  ⟨(reach_sound h).count, (reach_sound h).made⟩

/-- Two processes without open files; the inodes from 10 on are free. -/
def boot (isvtx : Bool) : State where
  file := fun _ => .zero
  inode := fun ip => ⟨.ifreg, ip < 10, isvtx, 511, 0, 0, false, false, false⟩
  olist := fun _ _ => none
  phase := fun p => if p = 1 ∨ p = 2 then .idle else .dead
  error := fun _ => none
  next := 0
  made := fun _ _ => 0

lemma boot_start (isvtx : Bool) : Start (boot isvtx) := by
  refine ⟨fun _ => rfl, fun _ _ => rfl, fun _ => ⟨rfl, rfl⟩, fun p => ?_⟩
  by_cases hp : p = 1 ∨ p = 2
  · refine Or.inr ⟨?_, if_pos hp⟩
    rcases hp with rfl | rfl <;> decide +kernel
  · exact Or.inl (if_neg hp)

/-- A pipe, of which one end is copied and the other closed, and a file opened by another process. -/
theorem file_table_pipe : ∃ s, run State.step Intact (boot false)
      [.pipe 1, .piped 1 (some 10), .dup 1 0, .close 1 1, .open 2 ⟨0, 0⟩ 0 0] = some s ∧
    (s.file 0).count = 2 ∧ s.olist 2 0 = some 1 ∧
      ((∀ f, (s.file f).count.toNat = Slots.total nproc nopen s.olist f) ∧
        ∀ p fd q d f, s.olist p fd = some f → s.olist q d = some f → s.made p fd = s.made q d) := by
  have hr : ((run State.step Intact (boot false)
      [.pipe 1, .piped 1 (some 10), .dup 1 0, .close 1 1, .open 2 ⟨0, 0⟩ 0 0]).map fun s =>
        ((s.file 0).count, s.olist 2 0)) = some (2, some 1) := by
    decide +kernel
  obtain ⟨s, hs, hf⟩ := Option.map_eq_some_iff.mp hr
  obtain ⟨h1, h2⟩ := Prod.mk.injEq .. ▸ hf
  exact ⟨s, hs, h1, h2, file_table (Reach.of_run (boot_start false) hs)⟩

/-- **One entry for two calls.**  While process 1 is asleep in `pipe`, an `open` by process 2 takes the
entry that `pipe` will use for its second descriptor: then one entry with the count 1 has two
descriptors, from different calls. -/
theorem pipe_shares_entry : (run State.step (fun _ _ => True) (boot false)
      [.pipe 1, .open 2 ⟨0, 0⟩ 0 0, .piped 1 (some 10)]).map (fun s =>
        (s.olist 1 1, s.olist 2 0, (s.file 1).count, decide (s.made 1 1 ≠ s.made 2 0),
          Slots.total nproc nopen s.olist 1)) =
    some (some 1, some 1, 1, true, 2) := by
  decide +kernel

end State

end Files

end Micronix
