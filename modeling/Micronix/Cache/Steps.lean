import Micronix.Cache.Coherence
import Micronix.Lib.Search

/-!
# The pieces of the buffer routines keep the invariant

One lemma for each thing a process does to a buffer between two sleeps: finding it locked, locking
it, giving it another block, starting a transfer, releasing it; and one for a completion.  Each is
an instance of the frame rule `Inv.change`, or of `Inv.flags`.
-/

namespace Micronix

namespace Cache

section Fields

variable (s : Cache) (b c p : ℕ) (f : Buf → Buf) (pc : Pc) (rd sy : Bool) (d : Bytes)

@[simp] lemma modBuf_self : (s.modBuf b f).buf b = f (s.buf b) := Function.update_self ..

variable {b c} in
lemma modBuf_ne (h : c ≠ b) : (s.modBuf b f).buf c = s.buf c := Function.update_of_ne h ..

variable {b c} in
lemma brelse_busy (h : (s.buf b).busy = true) :
    (s.brelse b).buf = (s.modBuf b fun x => { x with busy := false, want := false }).buf ∧
      (s.brelse b).own = Function.update s.own b none ∧ (s.brelse b).queue = s.queue ∧
      (s.brelse b).pc = s.pc ∧ (s.brelse b).disk = s.disk ∧ (s.brelse b).view = s.view ∧
      (s.brelse b).nbuf = s.nbuf ∧ (s.brelse b).last = s.last ∧
      (s.brelse b).rootdev = s.rootdev := by
  unfold brelse
  simp only [h, Bool.true_eq_false, if_false]
  by_cases hw : (s.buf b).want = true
  · simp only [hw, if_true]
    exact ⟨rfl, rfl, rfl, rfl, rfl, rfl, rfl, rfl, rfl⟩
  · simp only [hw]
    exact ⟨rfl, rfl, rfl, rfl, rfl, rfl, rfl, rfl, rfl⟩

end Fields

/-! ## The search -/

variable {s : Cache} {b f p blk dev : ℕ} {k : Kont}

/-- A hit is the first buffer with the tag. -/
lemma hit_spec (hb : blk < 256) (hd : dev < 256) (h : s.hit blk dev = some b) :
    b < s.nbuf ∧ (s.buf b).blk = blk ∧ (s.buf b).dev = dev ∧
      ∀ c < b, ¬((s.buf c).dev = dev ∧ (s.buf c).blk = blk) := by
  rw [hit, List.find?_range_eq_some] at h
  simp only [Nat.mod_eq_of_lt hb, Nat.mod_eq_of_lt hd, Bool.and_eq_true, beq_iff_eq,
    List.mem_range, Bool.not_eq_true', Bool.and_eq_false_imp, beq_eq_false_iff_ne] at h
  obtain ⟨⟨h1, h2⟩, h3, h4⟩ := h
  exact ⟨h3, h1, h2, fun c hc e => h4 c hc e.2 e.1⟩

/-- Without a hit no buffer has the tag. -/
lemma miss_spec (hb : blk < 256) (hd : dev < 256) (h : s.hit blk dev = none) :
    ∀ c < s.nbuf, ¬((s.buf c).dev = dev ∧ (s.buf c).blk = blk) := by
  intro c hc ⟨e1, e2⟩
  rw [hit, List.find?_eq_none] at h
  have := h c (List.mem_range.mpr hc)
  simp [Nat.mod_eq_of_lt hb, Nat.mod_eq_of_lt hd, e1, e2] at this

/-- The victim is the best of the buffers that are neither busy nor locked in core. -/
lemma victim_search (s : Cache) :
    ∃ f, Searches (fun b => (s.buf b).busy = false ∧ (s.buf b).lock = false) f ∧
      s.victim = (List.range s.nbuf).foldl f none := by
  refine ⟨_, ⟨fun best b hb => if_pos ?_, fun b hb => if_neg ?_, fun a b hb => ?_⟩, rfl⟩
  · simpa [or_iff_not_imp_left] using hb
  · simp [hb.1, hb.2]
  · dsimp only
    rw [hb.1, hb.2]
    simp only [Bool.or_self, Bool.false_eq_true, if_false]
    split_ifs
    · exact .inr rfl
    · exact .inl rfl

/-- A victim is neither busy nor locked in core. -/
lemma victim_spec (h : s.victim = some f) :
    f < s.nbuf ∧ (s.buf f).busy = false ∧ (s.buf f).lock = false := by
  obtain ⟨g, hg, hv⟩ := s.victim_search
  obtain hnone | ⟨hmem, hfree⟩ := hg.found _ none (hv.symm.trans h)
  · cases hnone
  · exact ⟨List.mem_range.mp hmem, hfree⟩

/-- A buffer that is not busy is nobody's. -/
lemma Inv.free (h : Inv s) (hb : (s.buf b).busy = false) : s.own b = none ∧ s.queue b = false := by
  have hno : ¬(s.own b ≠ none ∨ s.queue b = true) := by
    intro e
    rw [(h.ok b).busy.mpr e] at hb
    exact absurd hb (by simp)
  rw [not_or] at hno
  exact ⟨by simpa using hno.1, by simpa using hno.2⟩

/-- The buffer is busy, so one of the `nbuf` buffers. -/
lemma Inv.lt_of_busy (h : Inv s) (hb : (s.buf b).busy = true) : b < s.nbuf := by
  by_contra hn
  have := (h.out b (Nat.not_lt.mp hn)).1
  rw [hb] at this
  exact absurd this (by simp)

/-- Process `p` holds buffer `b`, which is not in transfer, and waits for no other. -/
structure Has (s : Cache) (p b : ℕ) : Prop where
  own : s.own b = some p
  queue : s.queue b = false
  pc : (s.pc p).buf = none ∨ (s.pc p).buf = some b

lemma Has.busy (h : Inv s) (hh : Has s p b) : (s.buf b).busy = true :=
  (h.ok b).busy.mpr (Or.inl (by rw [hh.own]; simp))

/-- A process in no wait that holds a buffer has it. -/
lemma Inv.has (h : Inv s) (ho : s.own b = some p) (hpc : (s.pc p).buf = none) : Has s p b := by
  refine ⟨ho, ?_, Or.inl hpc⟩
  by_contra hq
  have := h.io p b ho (by simpa using hq)
  rw [hpc] at this
  exact absurd this (by simp)

/-! ## Sleeping and going on -/

/-- Finding the buffer locked. -/
lemma Inv.sleep_loop (h : Inv s) (hpc : (s.pc p).buf = none) (hr : blk < 256 ∧ dev < 256) :
    Inv (s.sleep p b (.loop blk dev k)) := by
  refine h.flags rfl (fun c => ?_) rfl rfl rfl rfl fun q => ?_
  · by_cases hc : c = b
    · subst hc
      simp only [sleep, modBuf_self]
      exact ⟨_, _, rfl⟩
    · simp only [sleep, modBuf_ne s _ hc]
      exact .refl _
  · by_cases hq : q = p
    · subst hq
      right
      simp only [sleep, Function.update_self]
      exact ⟨hpc, rfl, hr⟩
    · left
      exact Function.update_of_ne hq ..

/-- Waking up too early in `bwait`. -/
lemma Inv.sleep_again (h : Inv s) : Inv (s.sleep p b (s.pc p)) := by
  refine h.flags rfl (fun c => ?_) rfl rfl rfl rfl fun q => ?_
  · by_cases hc : c = b
    · subst hc
      simp only [sleep, modBuf_self]
      exact ⟨_, _, rfl⟩
    · simp only [sleep, modBuf_ne s _ hc]
      exact .refl _
  · left
    simp [sleep]

lemma Inv.setLock (h : Inv s) (v : Bool) : Inv (s.modBuf b fun x => { x with lock := v }) := by
  refine h.flags rfl (fun c => ?_) rfl rfl rfl rfl fun q => Or.inl rfl
  by_cases hc : c = b
  · subst hc
    rw [modBuf_self]
    exact ⟨_, _, rfl⟩
  · rw [modBuf_ne s _ hc]
    exact .refl _

/-- Nothing the invariant speaks of changes. -/
lemma Inv.congr {s' : Cache} (h : Inv s) (hn : s'.nbuf = s.nbuf) (hb : s'.buf = s.buf)
    (ho : s'.own = s.own) (hq : s'.queue = s.queue) (hd : s'.disk = s.disk)
    (hv : s'.view = s.view) (hp : s'.pc = s.pc) : Inv s' :=
  h.flags hn (fun c => by rw [hb]; exact .refl _) ho hq hd hv fun q => Or.inl (by rw [hp])

/-! ## Locking a buffer -/

/-- A block whose buffer is not dirty is current on the disk. -/
lemma Inv.cleanAt (h : Inv s)
    (hlow : (s.buf b).Pristine → ∀ c < b, ¬(s.buf c).SameTag (s.buf b)) (hd : ¬s.Dirty b) :
    s.disk (s.buf b).dev (s.buf b).blk = s.cur b := by
  refine h.clean _ _ fun c hcd hcb => ?_
  rcases Nat.lt_trichotomy c b with hc | rfl | hc
  · exact absurd ⟨hcd, hcb⟩ (hlow (h.uniq c b hc ⟨hcd, hcb⟩) c hc)
  · exact hd
  · obtain ⟨hb, hw, -⟩ := h.uniq b c hc ⟨hcd.symm, hcb.symm⟩
    rintro (e | ⟨e, -⟩)
    · rw [hw] at e
      exact absurd e (by simp)
    · rw [(h.free hb).2] at e
      exact absurd e (by simp)

/-- A busy buffer is not pristine. -/
lemma low_of_busy (hb : (s.buf b).busy = true) (hp : (s.buf b).Pristine) :
    ∀ c < b, ¬(s.buf c).SameTag (s.buf b) := by
  rw [Buf.Pristine, hb] at hp
  exact absurd hp.1 (by simp)

/-- The process is done with the buffer, waits for its transfer, or keeps it. -/
def Ends (s : Cache) (p b : ℕ) : Prop :=
  s.own b = none ∧ (s.pc p).buf = none ∨
  s.own b = some p ∧ s.queue b = true ∧ (s.pc p).buf = some b ∨
  s.own b = some p ∧ s.queue b = false ∧ (s.pc p).buf = none

/-- The frame rule for a process and the buffer it has or locks. -/
lemma Inv.act {s' : Cache} (h : Inv s) (hf : Frame s s' b (some p)) (hb : b < s.nbuf)
    (htag : (s'.buf b).SameTag (s.buf b)) (hown : s.own b = none ∨ s.own b = some p)
    (hwork : (s.pc p).buf = none ∨ (s.pc p).buf = some b)
    (hview : (s.buf b).busy = true ∨ s'.view = s.view)
    (hlow : (s.buf b).Pristine → ∀ c < b, ¬(s.buf c).SameTag (s.buf b))
    (hok : BufOk (s'.buf b) (s'.own b) (s'.queue b) (s'.cur b))
    (hclean : ¬s'.Dirty b → s'.disk (s'.buf b).dev (s'.buf b).blk = s'.cur b)
    (hend : Ends s' p b) (hpc : s'.PcOk (s'.pc p)) : Inv s' := by
  refine h.change hf hb htag hown ?_ hview (fun hp => Or.inr (hlow hp))
    ⟨hok, hclean, ?_, ?_, ?_, ?_, ?_⟩
  · rintro q ⟨⟩
    exact hwork
  · rcases hend with e | e | e
    · exact Or.inl e.1
    · exact Or.inr e.1
    · exact Or.inr e.1
  · rintro q ⟨⟩
    rcases hend with e | e | e
    · exact Or.inl e.2
    · exact Or.inr e.2.2
    · exact Or.inl e.2.2
  · rintro q ⟨⟩
    exact hpc
  · rintro q ⟨⟩ hw
    rcases hend with e | e | e
    · rw [e.2] at hw
      exact absurd hw (by simp)
    · exact ⟨e.1, Or.inl e.2.1⟩
    · rw [e.2.2] at hw
      exact absurd hw (by simp)
  · rintro q ⟨⟩ ho hq
    rcases hend with e | e | e
    · rw [e.1] at ho
      exact absurd ho (by simp)
    · exact e.2.2
    · rw [e.2.1] at hq
      exact absurd hq (by simp)

/-- A place without a buffer does not depend on the buffers. -/
lemma PcOk.of_none {s' : Cache} {pc : Pc} (h : s.PcOk pc) (hn : pc.buf = none) : s'.PcOk pc := by
  cases pc with
  | idle => trivial
  | loop blk dev k => exact h
  | evict c blk dev k => exact absurd hn (by simp [Pc.buf])
  | read c blk dev k => exact absurd hn (by simp [Pc.buf])
  | write c => trivial

/-- Locking a buffer that is free; if it was never used, none before it has the tag. -/
lemma Inv.block (h : Inv s) (hbusy : (s.buf b).busy = false) (hb : b < s.nbuf)
    (hpc : (s.pc p).buf = none)
    (hlow : (s.buf b).Pristine → ∀ c < b, ¬(s.buf c).SameTag (s.buf b)) : Inv (s.block p b) := by
  obtain ⟨ho, hq⟩ := h.free hbusy
  have hok := h.ok b
  have hbuf : (s.block p b).buf b = { s.buf b with busy := true } := Function.update_self ..
  have hown : (s.block p b).own b = some p := Function.update_self ..
  have hqu : (s.block p b).queue b = false := hq
  have hcur : (s.block p b).cur b = s.cur b := by rw [cur, hbuf]; rfl
  refine h.act ⟨rfl, fun c hc => Function.update_of_ne hc ..,
    fun c hc => Function.update_of_ne hc .., fun _ _ => rfl, fun _ _ => rfl, fun _ _ _ => rfl,
    fun _ _ _ => rfl⟩ hb (by rw [hbuf]; exact ⟨rfl, rfl⟩) (Or.inl ho) (Or.inl hpc) (Or.inr rfl)
    hlow ?_ ?_ (Or.inr (Or.inr ⟨hown, hqu, hpc⟩)) ((h.pc p).of_none hpc)
  · rw [hcur, hbuf, hown, hqu]
    refine ⟨by simp, by simp, by simp, by simp, by simp, hok.delayed, fun hd => ?_, hok.valid⟩
    have := hok.pending hd
    rwa [hq] at this
  · intro hd
    rw [hcur, hbuf]
    refine h.cleanAt hlow fun e => hd ?_
    rw [Dirty, hbuf]
    exact e

/-- The victim, which is not dirty, becomes the buffer of a block that no buffer carries. -/
lemma Inv.claim (h : Inv s) (hbusy : (s.buf f).busy = false) (hf : f < s.nbuf)
    (hdw : (s.buf f).delwri = false) (hmiss : s.hit blk dev = none) (hr : blk < 256 ∧ dev < 256) :
    Inv ((s.block p f).retag f blk dev) := by
  obtain ⟨ho, hq⟩ := h.free hbusy
  have hno := miss_spec hr.1 hr.2 hmiss
  set s' := (s.block p f).retag f blk dev with hs'
  have hbuf : s'.buf f
      = { s.buf f with busy := true, blk := blk % 256, dev := dev % 256, done := false } := by
    simp [hs', retag, Cache.block]
  rw [Nat.mod_eq_of_lt hr.1, Nat.mod_eq_of_lt hr.2] at hbuf
  have hother : ∀ c, c ≠ f → s'.buf c = s.buf c := by
    intro c hc
    simp [hs', retag, Cache.block, modBuf_ne _ _ hc]
  have hown : s'.own f = some p := Function.update_self ..
  have hown' : ∀ c, c ≠ f → s'.own c = s.own c := fun c hc => Function.update_of_ne hc ..
  have hnd : ¬s.Dirty f := by
    rintro (e | ⟨e, -⟩)
    · rw [hdw] at e
      exact absurd e (by simp)
    · rw [hq] at e
      exact absurd e (by simp)
  have hnd' : ¬s'.Dirty f := by
    rw [Dirty, hbuf]
    exact hnd
  have hdirty : ∀ c, c ≠ f → (s'.Dirty c ↔ s.Dirty c) := by
    intro c hc
    rw [Dirty, Dirty, hother c hc]
    rfl
  have hpc' : s'.pc = s.pc := rfl
  have hqu' : s'.queue = s.queue := rfl
  constructor
  · intro c
    by_cases hc : c = f
    · subst hc
      rw [hqu', hq, hbuf, hown]
      exact ⟨by simp, by simp, by simp, by simp, by simp, by simp [hdw], by simp [hdw], by simp⟩
    · have hcur : s'.cur c = s.cur c := by rw [cur, hother c hc]; rfl
      rw [hother c hc, hown' c hc, hcur]
      exact h.ok c
  · intro c d hcd ht
    by_cases hd : d = f
    · subst hd
      rw [hother c (by omega), hbuf] at ht
      exact absurd ht (hno c (by omega))
    · rw [hother d hd] at ht ⊢
      by_cases hc : c = f
      · subst hc
        rw [hbuf] at ht
        by_cases hdn : d < s.nbuf
        · exact absurd ⟨ht.1.symm, ht.2.symm⟩ (hno d hdn)
        · exact h.out d (Nat.not_lt.mp hdn)
      · rw [hother c hc] at ht
        exact h.uniq c d hcd ht
  · intro c hc
    have hc' : s.nbuf ≤ c := hc
    rw [hother c (by omega)]
    exact h.out c hc'
  · intro d k hall
    refine h.clean d k fun c hcd hck hdc => ?_
    by_cases hc : c = f
    · exact hnd (hc ▸ hdc)
    · exact hall c (by rw [hother c hc]; exact hcd) (by rw [hother c hc]; exact hck)
        ((hdirty c hc).mpr hdc)
  · intro q
    rw [hpc']
    have hq' := h.pc q
    cases hk : s.pc q with
    | idle => trivial
    | write c => trivial
    | loop blk dev k => rw [hk] at hq'; exact hq'
    | evict c blk dev k => rw [hk] at hq'; exact hq'
    | read c blk dev k =>
        have hc : c ≠ f := by
          rintro rfl
          have := (h.waits q c (by rw [hk]; rfl)).1
          rw [ho] at this
          exact absurd this (by simp)
        rw [hk] at hq'
        simp only [PcOk] at hq' ⊢
        rw [hother c hc]
        exact hq'
  · intro q c hw
    rw [hpc'] at hw
    have hc : c ≠ f := by
      rintro rfl
      have := (h.waits q c hw).1
      rw [ho] at this
      exact absurd this (by simp)
    rw [hown' c hc, hother c hc]
    exact h.waits q c hw
  · intro q c hoc hqc
    by_cases hc : c = f
    · subst hc
      rw [hqu', hq] at hqc
      exact absurd hqc (by simp)
    · rw [hown' c hc] at hoc
      exact h.io q c hoc hqc

/-! ## Starting a transfer -/

section Held

variable (h : Inv s) (hh : Has s p b)
include h hh

/-- A read that the process waits for. -/
lemma Inv.readSync (hdw : (s.buf b).delwri = false)
    (ht : dev = (s.buf b).dev ∧ blk = (s.buf b).blk) :
    Inv ((s.strat b true true).sleep p b (.read b blk dev k)) := by
  have hbusy := hh.busy h
  set s' := (s.strat b true true).sleep p b (.read b blk dev k) with hs'
  have hbuf : s'.buf b = { s.buf b with
      read := true, sync := true, busy := true, done := false, error := false, want := true } := by
    simp [hs', strat, Cache.sleep]
  have hother : ∀ c, c ≠ b → s'.buf c = s.buf c := by
    intro c hc
    simp [hs', strat, Cache.sleep, modBuf_ne _ _ hc]
  have hqu : s'.queue b = true := Function.update_self ..
  have hpc : s'.pc p = .read b blk dev k := Function.update_self ..
  have hown : s'.own b = some p := hh.own
  have hcur : s'.cur b = s.cur b := by rw [cur, hbuf]; rfl
  refine h.act ⟨rfl, hother, fun _ _ => rfl, fun c hc => Function.update_of_ne hc ..,
    fun q hq => Function.update_of_ne (fun e => hq (by rw [e])) .., fun _ _ _ => rfl,
    fun _ _ _ => rfl⟩ (h.lt_of_busy hbusy) (by rw [hbuf]; exact ⟨rfl, rfl⟩) (Or.inr hh.own) hh.pc
    (Or.inl hbusy) (low_of_busy hbusy) ?_ ?_ (Or.inr (Or.inl ⟨hown, hqu, by rw [hpc]; rfl⟩)) ?_
  · rw [hcur, hbuf, hown, hqu]
    exact ⟨by simp, by simp, by simp, by simp [hdw], by simp, by simp [hdw], by simp, by simp⟩
  · intro hd
    rw [hcur, hbuf]
    refine h.cleanAt (low_of_busy hbusy) ?_
    rintro (e | ⟨e, -⟩)
    · rw [hdw] at e
      exact absurd e (by simp)
    · rw [hh.queue] at e
      exact absurd e (by simp)
  · rw [hpc]
    simp only [PcOk]
    rw [hbuf]
    exact ht

/-- A read ahead: the buffer is left to the driver. -/
lemma Inv.readAsync (hdw : (s.buf b).delwri = false) :
    Inv ({ s.strat b true false with own := Function.update s.own b none }.setPc p .idle) := by
  have hbusy := hh.busy h
  set s' := { s.strat b true false with own := Function.update s.own b none }.setPc p .idle with hs'
  have hbuf : s'.buf b = { s.buf b with
      read := true, sync := false, busy := true, done := false, error := false } := by
    simp [hs', strat, setPc]
  have hother : ∀ c, c ≠ b → s'.buf c = s.buf c := by
    intro c hc
    simp [hs', strat, setPc, modBuf_ne _ _ hc]
  have hqu : s'.queue b = true := Function.update_self ..
  have hpc : s'.pc p = .idle := Function.update_self ..
  have hown : s'.own b = none := Function.update_self ..
  have hcur : s'.cur b = s.cur b := by rw [cur, hbuf]; rfl
  refine h.act ⟨rfl, hother, fun c hc => Function.update_of_ne hc ..,
    fun c hc => Function.update_of_ne hc ..,
    fun q hq => Function.update_of_ne (fun e => hq (by rw [e])) .., fun _ _ _ => rfl,
    fun _ _ _ => rfl⟩ (h.lt_of_busy hbusy) (by rw [hbuf]; exact ⟨rfl, rfl⟩) (Or.inr hh.own) hh.pc
    (Or.inl hbusy) (low_of_busy hbusy) ?_ ?_ (Or.inl ⟨hown, by rw [hpc]; rfl⟩) (by rw [hpc]; trivial)
  · rw [hcur, hbuf, hown, hqu]
    exact ⟨by simp, by simp, by simp, by simp [hdw], by simp, by simp [hdw], by simp, by simp⟩
  · intro hd
    rw [hcur, hbuf]
    refine h.cleanAt (low_of_busy hbusy) ?_
    rintro (e | ⟨e, -⟩)
    · rw [hdw] at e
      exact absurd e (by simp)
    · rw [hh.queue] at e
      exact absurd e (by simp)

/-- A write that the process waits for. -/
lemma Inv.writeSync (d : Bytes) (pc : Pc) (hpb : pc.buf = some b)
    (hpo : ∀ t : Cache, t.nbuf = s.nbuf → t.PcOk pc) : Inv ((s.store b d).bwrite p b pc) := by
  have hbusy := hh.busy h
  set s' := (s.store b d).bwrite p b pc with hs'
  have hbuf : s'.buf b = { s.buf b with
      data := d, read := false, sync := true, busy := true, done := false, error := false,
      want := true } := by
    simp [hs', bwrite, strat, Cache.sleep, store]
  have hother : ∀ c, c ≠ b → s'.buf c = s.buf c := by
    intro c hc
    simp [hs', bwrite, strat, Cache.sleep, store, modBuf_ne _ _ hc]
  have hqu : s'.queue b = true := Function.update_self ..
  have hpc : s'.pc p = pc := Function.update_self ..
  have hown : s'.own b = some p := hh.own
  have hcur : s'.cur b = d := by
    rw [cur, hbuf]
    exact if_pos ⟨rfl, rfl⟩
  refine h.act ⟨rfl, hother, fun _ _ => rfl, fun c hc => Function.update_of_ne hc ..,
    fun q hq => Function.update_of_ne (fun e => hq (by rw [e])) .., fun _ _ _ => rfl,
    fun _ _ hn => if_neg hn⟩ (h.lt_of_busy hbusy) (by rw [hbuf]; exact ⟨rfl, rfl⟩) (Or.inr hh.own)
    hh.pc (Or.inl hbusy) (low_of_busy hbusy) ?_ ?_
    (Or.inr (Or.inl ⟨hown, hqu, by rw [hpc]; exact hpb⟩)) (by rw [hpc]; exact hpo s' rfl)
  · rw [hcur, hbuf, hown, hqu]
    exact ⟨by simp, by simp, by simp, by simp, by simp, by simp, by simp, by simp⟩
  · intro hd
    exact absurd (Or.inr ⟨hqu, by rw [hbuf]⟩) hd

/-! ## Releasing -/

lemma Inv.bawrite (hpc : (s.pc p).buf = none) (d : Bytes) : Inv ((s.store b d).bawrite b) := by
  have hbusy := hh.busy h
  set s' := (s.store b d).bawrite b with hs'
  have hbuf : s'.buf b = { s.buf b with
      data := d, read := false, sync := false, busy := true, done := false, error := false } := by
    simp [hs', Cache.bawrite, strat, store]
  have hother : ∀ c, c ≠ b → s'.buf c = s.buf c := by
    intro c hc
    simp [hs', Cache.bawrite, strat, store, modBuf_ne _ _ hc]
  have hqu : s'.queue b = true := Function.update_self ..
  have hown : s'.own b = none := Function.update_self ..
  have hcur : s'.cur b = d := by
    rw [cur, hbuf]
    exact if_pos ⟨rfl, rfl⟩
  refine h.act ⟨rfl, hother, fun c hc => Function.update_of_ne hc ..,
    fun c hc => Function.update_of_ne hc .., fun _ _ => rfl, fun _ _ _ => rfl,
    fun _ _ hn => if_neg hn⟩ (h.lt_of_busy hbusy) (by rw [hbuf]; exact ⟨rfl, rfl⟩) (Or.inr hh.own)
    hh.pc (Or.inl hbusy) (low_of_busy hbusy) ?_ ?_ (Or.inl ⟨hown, hpc⟩) ((h.pc p).of_none hpc)
  · rw [hcur, hbuf, hown, hqu]
    exact ⟨by simp, by simp, by simp, by simp, by simp, by simp, by simp, by simp⟩
  · intro hd
    exact absurd (Or.inr ⟨hqu, by rw [hbuf]⟩) hd

lemma Inv.bdwrite (hpc : (s.pc p).buf = none) (d : Bytes) : Inv ((s.store b d).bdwrite b) := by
  have hbusy := hh.busy h
  have hb1 : (((s.store b d).modBuf b fun x => { x with delwri := true, done := true }).buf b).busy
      = true := by simpa [store] using hbusy
  obtain ⟨ebuf, eown, equ, epc, edisk, eview, en, -⟩ := brelse_busy _ hb1
  set s' := (s.store b d).bdwrite b with hs'
  have hbuf : s'.buf b = { s.buf b with
      data := d, delwri := true, done := true, busy := false, want := false } := by
    rw [hs', Cache.bdwrite, ebuf]
    simp [store]
  have hother : ∀ c, c ≠ b → s'.buf c = s.buf c := by
    intro c hc
    rw [hs', Cache.bdwrite, ebuf]
    simp [store, modBuf_ne _ _ hc]
  have hqu : s'.queue = s.queue := equ
  have hown : s'.own = Function.update s.own b none := eown
  have hpc' : s'.pc = s.pc := epc
  have hdisk : s'.disk = s.disk := edisk
  have hview : s'.view = (s.store b d).view := eview
  have hcur : s'.cur b = d := by
    rw [cur, hbuf, hview]
    exact if_pos ⟨rfl, rfl⟩
  refine h.act ⟨en, hother, fun c hc => by rw [hown, Function.update_of_ne hc],
    fun c _ => by rw [hqu], fun q _ => by rw [hpc'], fun _ _ _ => by rw [hdisk],
    fun _ _ hn => by rw [hview]; exact if_neg hn⟩ (h.lt_of_busy hbusy)
    (by rw [hbuf]; exact ⟨rfl, rfl⟩) (Or.inr hh.own)
    hh.pc (Or.inl hbusy) (low_of_busy hbusy) ?_ ?_
    (Or.inl ⟨by rw [hown, Function.update_self], by rw [hpc']; exact hpc⟩)
    (by rw [hpc']; exact (h.pc p).of_none hpc)
  · rw [hcur, hbuf, hown, hqu, hh.queue, Function.update_self]
    exact ⟨by simp, by simp, by simp, by simp, by simp, by simp, by simp, by simp⟩
  · intro hd
    exact absurd (Or.inl (by rw [hbuf])) hd

/-- Releasing without change, by a process that goes on at `pc`. -/
lemma Inv.brelse (pc : Pc) (hn : pc.buf = none) (hpo : s.PcOk pc) :
    Inv ((s.setPc p pc).brelse b) := by
  have hbusy := hh.busy h
  have hok := h.ok b
  obtain ⟨ebuf, eown, equ, epc, edisk, eview, en, -⟩ := brelse_busy (s.setPc p pc) hbusy
  set s' := (s.setPc p pc).brelse b with hs'
  have hbuf : s'.buf b = { s.buf b with busy := false, want := false } := by
    rw [ebuf]
    simp [setPc]
  have hother : ∀ c, c ≠ b → s'.buf c = s.buf c := by
    intro c hc
    rw [ebuf, modBuf_ne _ _ hc]
    rfl
  have hown : s'.own = Function.update s.own b none := eown
  have hqu : s'.queue = s.queue := equ
  have hpc' : s'.pc p = pc := by
    rw [epc]
    exact Function.update_self ..
  have hcur : s'.cur b = s.cur b := by
    rw [cur, hbuf, eview]
    rfl
  refine h.act ⟨en, hother, fun c hc => by rw [hown, Function.update_of_ne hc],
    fun c _ => by rw [hqu],
    fun q hq => by rw [epc]; exact Function.update_of_ne (fun e => hq (by rw [e])) ..,
    fun _ _ _ => by rw [edisk]; rfl, fun _ _ _ => by rw [eview]; rfl⟩ (h.lt_of_busy hbusy)
    (by rw [hbuf]; exact ⟨rfl, rfl⟩) (Or.inr hh.own) hh.pc (Or.inl hbusy) (low_of_busy hbusy) ?_ ?_
    (Or.inl ⟨by rw [hown, Function.update_self], by rw [hpc']; exact hn⟩)
    (by rw [hpc']; exact hpo.of_none hn)
  · rw [hcur, hbuf, hown, hqu, hh.queue, Function.update_self]
    refine ⟨by simp, by simp, by simp, by simp, by simp, hok.delayed, fun hd => ?_, hok.valid⟩
    have := hok.pending hd
    rwa [hh.queue] at this
  · intro hd
    rw [hcur, hbuf, edisk]
    refine h.cleanAt (low_of_busy hbusy) fun e => hd ?_
    rw [Dirty, hbuf, hqu]
    exact e

/-- The caller gets the buffer. -/
lemma Inv.keep : Inv (s.setPc p .idle) := by
  have hbusy := hh.busy h
  have hpc' : (s.setPc p .idle).pc p = .idle := Function.update_self ..
  refine h.act (b := b) ⟨rfl, fun _ _ => rfl, fun _ _ => rfl, fun _ _ => rfl,
    fun q hq => Function.update_of_ne (fun e => hq (by rw [e])) .., fun _ _ _ => rfl,
    fun _ _ _ => rfl⟩ (h.lt_of_busy hbusy) ⟨rfl, rfl⟩ (Or.inr hh.own) hh.pc (Or.inl hbusy)
    (low_of_busy hbusy) (h.ok b) (fun hd => h.cleanAt (low_of_busy hbusy) hd)
    (Or.inr (Or.inr ⟨hh.own, hh.queue, by rw [hpc']; rfl⟩)) (by rw [hpc']; trivial)

end Held

/-- `bsync` starts the writing of a buffer that is free and has delayed-write data. -/
lemma Inv.flush (h : Inv s) (hbusy : (s.buf b).busy = false) (hdw : (s.buf b).delwri = true)
    (hb : b < s.nbuf) : Inv (s.bawrite b) := by
  obtain ⟨ho, hq⟩ := h.free hbusy
  have hok := h.ok b
  have hnp : ¬(s.buf b).Pristine := by
    rintro ⟨-, e, -⟩
    rw [hdw] at e
    exact absurd e (by simp)
  set s' := s.bawrite b with hs'
  have hbuf : s'.buf b = { s.buf b with
      read := false, sync := false, busy := true, done := false, error := false } := by
    simp [hs', Cache.bawrite, strat]
  have hother : ∀ c, c ≠ b → s'.buf c = s.buf c := by
    intro c hc
    simp [hs', Cache.bawrite, strat, modBuf_ne _ _ hc]
  have hqu : s'.queue b = true := Function.update_self ..
  have hown : s'.own b = none := Function.update_self ..
  have hcur : s'.cur b = s.cur b := by rw [cur, hbuf]; rfl
  refine h.change (o := none) ⟨rfl, hother, fun c hc => Function.update_of_ne hc ..,
    fun c hc => Function.update_of_ne hc .., fun _ _ => rfl, fun _ _ _ => rfl,
    fun _ _ _ => rfl⟩ hb (by rw [hbuf]; exact ⟨rfl, rfl⟩) (Or.inl ho) (by simp) (Or.inr rfl)
    (fun e => absurd e hnp) ⟨?_, ?_, Or.inl hown, by simp, by simp, by simp, by simp⟩
  · rw [hcur, hbuf, hown, hqu]
    refine ⟨by simp, by simp, by simp, by simp, fun _ _ => hok.delayed hdw,
      fun _ => hok.delayed hdw, by simp, by simp⟩
  · intro hd
    exact absurd (Or.inr ⟨hqu, by rw [hbuf]⟩) hd

/-! ## A completion -/

/-- The buffer after the transfer and the flags that `iodone` sets, before it wakes or releases. -/
lemma transfer_fields (s : Cache) (b : ℕ) (err : Option Bytes) :
    let s' := (s.transfer b err).modBuf b fun x => { x with done := true, delwri := false }
    s'.buf b = { s.buf b with
        data := if (s.buf b).read then err.getD (s.disk (s.buf b).dev (s.buf b).blk)
          else (s.buf b).data
        error := err.isSome || (s.buf b).error, done := true, delwri := false } ∧
      (∀ c, c ≠ b → s'.buf c = s.buf c) ∧ s'.queue = Function.update s.queue b false ∧
      s'.own = s.own ∧ s'.pc = s.pc ∧ s'.view = s.view ∧ s'.nbuf = s.nbuf ∧ s'.last = s.last ∧
      (s'.disk = if (s.buf b).read then s.disk else fun dev blk =>
        if dev = (s.buf b).dev ∧ blk = (s.buf b).blk then err.getD (s.buf b).data
        else s.disk dev blk) := by
  intro s'
  have hs' : s' = (s.transfer b err).modBuf b fun x => { x with done := true, delwri := false } :=
    rfl
  clear_value s'
  subst hs'
  unfold transfer
  cases err with
  | none =>
      by_cases hr : (s.buf b).read = true
      · simp only [hr, Option.isSome_none, Bool.false_eq_true, if_false, if_true]
        refine ⟨by simp [modBuf, hr], fun c hc => ?_, rfl, rfl, rfl, rfl, rfl, rfl, rfl⟩
        rw [modBuf_ne _ _ hc, modBuf_ne _ _ hc]
      · simp only [hr, Option.isSome_none, Bool.false_eq_true, if_false]
        refine ⟨by simp [modBuf, hr], fun c hc => ?_, rfl, rfl, rfl, rfl, rfl, rfl, rfl⟩
        rw [modBuf_ne _ _ hc]
  | some junk =>
      by_cases hr : (s.buf b).read = true
      · simp only [hr, Option.isSome_some, if_true]
        refine ⟨by simp [modBuf, hr], fun c hc => ?_, rfl, rfl, rfl, rfl, rfl, rfl, rfl⟩
        rw [modBuf_ne _ _ hc, modBuf_ne _ _ hc, modBuf_ne _ _ hc]
      · simp only [hr, Option.isSome_some, Bool.false_eq_true, if_true, if_false]
        refine ⟨by simp [modBuf, hr], fun c hc => ?_, rfl, rfl, rfl, rfl, rfl, rfl, rfl⟩
        rw [modBuf_ne _ _ hc, modBuf_ne _ _ hc]

/-- A completion keeps the invariant, unless a write fails. -/
lemma Inv.iodone (h : Inv s) (hq : s.queue b = true) {err : Option Bytes}
    (herr : err.isSome → (s.buf b).read = true) : Inv (s.iodone b err) := by
  have hok := h.ok b
  have hbusy : (s.buf b).busy = true := hok.busy.mpr (Or.inr hq)
  obtain ⟨hbuf, hother, hqu, hown, hpc, hview, hn, -, hdisk⟩ := transfer_fields s b err
  set t := (s.transfer b err).modBuf b fun x => { x with done := true, delwri := false } with ht
  have hcur : t.cur b = s.cur b := by
    rw [cur, hbuf, hview]
    rfl
  -- what was read is what the disk has, and the disk has what was written
  have hread : (s.buf b).read = true → s.disk (s.buf b).dev (s.buf b).blk = s.cur b := by
    intro hr
    refine h.cleanAt (low_of_busy hbusy) ?_
    rintro (e | ⟨-, e⟩)
    · rw [hok.reading hq hr] at e
      exact absurd e (by simp)
    · rw [hr] at e
      exact absurd e (by simp)
  have hvalid : (err.isSome || (s.buf b).error) = false →
      (if (s.buf b).read then err.getD (s.disk (s.buf b).dev (s.buf b).blk)
        else (s.buf b).data) = s.cur b := by
    intro he
    have hnone : err = none := by
      cases err with
      | none => rfl
      | some j => simp at he
    by_cases hr : (s.buf b).read = true
    · rw [if_pos hr, hnone]
      exact hread hr
    · rw [if_neg hr]
      exact hok.writing hq (by simpa using hr)
  have hclean : t.disk (s.buf b).dev (s.buf b).blk = s.cur b := by
    rw [hdisk]
    by_cases hr : (s.buf b).read = true
    · rw [if_pos hr]
      exact hread hr
    · have hnone : err = none := by
        by_contra e
        exact hr (herr (Option.isSome_iff_ne_none.mpr e))
      rw [if_neg hr, if_pos ⟨rfl, rfl⟩, hnone]
      exact hok.writing hq (by simpa using hr)
  have hdiskne : ∀ dev blk, ¬(dev = (s.buf b).dev ∧ blk = (s.buf b).blk) →
      t.disk dev blk = s.disk dev blk := by
    intro dev blk hne
    rw [hdisk]
    split_ifs
    · rfl
    · exact if_neg hne
  have hquf : t.queue b = false := by rw [hqu, Function.update_self]
  have hsync := hok.sync hq
  have htsync : (t.buf b).sync = (s.buf b).sync := by rw [hbuf]
  unfold Cache.iodone
  rw [← ht]
  by_cases hs : (s.buf b).sync = true
  · -- somebody waits for the transfer
    obtain ⟨p, hp⟩ : ∃ p, s.own b = some p := by
      rw [hs] at hsync
      exact Option.isSome_iff_exists.mp hsync.symm
    have hw : (s.pc p).buf = some b := h.io p b hp hq
    simp only [htsync, hs, if_true]
    refine h.change (o := some p) ⟨hn, hother, fun c _ => congrFun hown c,
      fun c hc => ?_, fun q _ => congrFun hpc q, hdiskne, fun _ _ _ => by rw [wakeup, hview]⟩
      (h.lt_of_busy hbusy) ?_ (Or.inr hp) ?_ (Or.inl hbusy)
      (fun e => Or.inr (low_of_busy hbusy e)) ⟨?_, ?_, ?_, ?_, ?_, ?_, ?_⟩
    · exact (congrFun hqu c).trans (Function.update_of_ne hc ..)
    · rw [show (t.wakeup b).buf b = _ from hbuf]
      exact ⟨rfl, rfl⟩
    · rintro q ⟨⟩
      exact Or.inr hw
    · rw [show (t.wakeup b).buf b = _ from hbuf, show (t.wakeup b).own = _ from hown, hp,
        show (t.wakeup b).queue b = _ from hquf, show (t.wakeup b).cur b = _ from hcur]
      exact ⟨by simp [hbusy], by simp, by simp, by simp, by simp, by simp, by simp,
        fun _ e => hvalid e⟩
    · intro _
      rw [show (t.wakeup b).cur b = _ from hcur, show (t.wakeup b).buf b = _ from hbuf]
      exact hclean
    · exact Or.inr ((congrFun hown b).trans hp)
    · rintro q ⟨⟩
      right
      rw [show (t.wakeup b).pc = _ from hpc]
      exact hw
    · rintro q ⟨⟩
      have hpq := h.pc p
      rw [show (t.wakeup b).pc = _ from hpc]
      cases hk : s.pc p with
      | idle => trivial
      | write c => trivial
      | loop blk dev k => rw [hk] at hpq; exact hpq
      | evict c blk dev k => rw [hk] at hpq; exact hpq
      | read c blk dev k =>
          have hc : c = b := by
            rw [hk] at hw
            simpa [Pc.buf] using hw
          subst hc
          rw [hk] at hpq
          simp only [PcOk] at hpq ⊢
          rw [show (t.wakeup c).buf c = _ from hbuf]
          exact hpq
    · rintro q ⟨⟩ -
      rw [show (t.wakeup b).buf b = _ from hbuf]
      exact ⟨(congrFun hown b).trans hp, Or.inr ⟨rfl, rfl⟩⟩
    · rintro q ⟨⟩ - e
      rw [show (t.wakeup b).queue b = _ from hquf] at e
      exact absurd e (by simp)
  · -- nobody waits: `iodone` releases the buffer
    have hs' : (s.buf b).sync = false := by simpa using hs
    have ho : s.own b = none := by
      rw [hs'] at hsync
      simpa using hsync.symm
    have htb : (t.buf b).busy = true := by rw [hbuf]; exact hbusy
    obtain ⟨ebuf, eown, equ, epc, edisk, eview, en, -⟩ := brelse_busy t htb
    simp only [htsync, hs', Bool.false_eq_true, if_false]
    have hbuf' : (t.brelse b).buf b = { t.buf b with busy := false, want := false } := by
      rw [ebuf, modBuf_self]
    have hcur' : (t.brelse b).cur b = s.cur b := by
      rw [cur, hbuf', eview]
      exact hcur
    have hown' : (t.brelse b).own b = none := by rw [eown, Function.update_self]
    have hqu' : (t.brelse b).queue b = false := by rw [equ, hquf]
    refine h.change (o := none) ⟨en.trans hn, fun c hc => ?_, fun c hc => ?_, fun c hc => ?_,
      fun q _ => by rw [epc, hpc], fun dev blk hne => by rw [edisk]; exact hdiskne dev blk hne,
      fun _ _ _ => by rw [eview, hview]⟩ (h.lt_of_busy hbusy) ?_ (Or.inl ho) (by simp)
      (Or.inl hbusy) (fun e => Or.inr (low_of_busy hbusy e))
      ⟨?_, ?_, Or.inl hown', by simp, by simp, by simp, by simp⟩
    · rw [ebuf, modBuf_ne _ _ hc, hother c hc]
    · rw [eown, Function.update_of_ne hc, hown]
    · rw [equ, hqu, Function.update_of_ne hc]
    · rw [hbuf', hbuf]
      exact ⟨rfl, rfl⟩
    · rw [hbuf', hown', hqu', hcur', hbuf]
      exact ⟨by simp, by simp, by simp, by simp, by simp, by simp, by simp, fun _ e => hvalid e⟩
    · intro _
      rw [hcur', hbuf', edisk, hbuf]
      exact hclean

end Cache

end Micronix
