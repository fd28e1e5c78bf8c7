import Micronix.Cache.Errors
import Micronix.Fs.Sync

/-!
# `sync` makes the disk current

`Sound` holds in every state that is reached by careful steps.  From such a state, with nobody else
running, `Going` says what holds at each place of `sync`, and a measure decreases with everything that
the process and the drivers do.
-/

namespace Micronix

open Bytes

/-! ## Before the call -/

namespace Cache

variable {s : Cache} {b : ℕ}

lemma setFlock_self (s : Cache) (b : ℕ) : s.setFlock b ((s.buf b).data 408) = s := by
  rw [setFlock, modBuf]
  simp only [Function.update_eq_self]

lemma bzero_self (s : Cache) (b : ℕ) :
    (s.bzero b).buf b = { freshBuf with data := (s.buf b).data } := Function.update_self ..

lemma bzero_ne (s : Cache) {b c : ℕ} (h : c ≠ b) : (s.bzero b).buf c = s.buf c :=
  Function.update_of_ne h ..

/-- A released buffer is zeroed, and no other one in use carries block 0 of device 0. -/
lemma Inv.bzero (h : Inv s) (hbusy : (s.buf b).busy = false) (hd : (s.buf b).delwri = false)
    (hno : ∀ c < s.nbuf, (s.buf c).dev = 0 → (s.buf c).blk = 0 → (s.buf c).Pristine) :
    Inv (s.bzero b) := by
  obtain ⟨ho, hq⟩ := h.free hbusy
  have hbuf := s.bzero_self b
  have hother (c : ℕ) (hc : c ≠ b) : (s.bzero b).buf c = s.buf c := s.bzero_ne hc
  have hpr : ((s.bzero b).buf b).Pristine := by
    rw [hbuf]
    exact ⟨rfl, rfl, rfl⟩
  constructor
  · intro c
    by_cases hc : c = b
    · subst hc
      rw [show (s.bzero c).own c = none from ho, show (s.bzero c).queue c = false from hq, hbuf]
      exact ⟨by simp [freshBuf], by simp, by simp, by simp, by simp, by simp [freshBuf],
        by simp [freshBuf], by simp [freshBuf]⟩
    · have hcur : (s.bzero b).cur c = s.cur c := by
        rw [cur, hother c hc]
        rfl
      rw [hother c hc, hcur]
      exact h.ok c
  · intro c d hcd ht
    by_cases hdb : d = b
    · exact hdb ▸ hpr
    · by_cases hcb : c = b
      · subst hcb
        rw [hother d hdb] at ht ⊢
        rw [hbuf] at ht
        by_cases hdn : d < s.nbuf
        · exact hno d hdn ht.1.symm ht.2.symm
        · exact h.out d (Nat.not_lt.mp hdn)
      · rw [hother c hcb, hother d hdb] at ht
        rw [hother d hdb]
        exact h.uniq c d hcd ht
  · intro c hc
    by_cases hcb : c = b
    · exact hcb ▸ hpr
    · rw [hother c hcb]
      exact h.out c hc
  · intro dev blk hall
    refine h.clean dev blk fun c hcd hcb hdc => ?_
    by_cases hc : c = b
    · subst hc
      rcases hdc with e | ⟨e, -⟩
      · rw [hd] at e
        cases e
      · rw [hq] at e
        cases e
    · refine hall c (by rw [hother c hc]; exact hcd) (by rw [hother c hc]; exact hcb) ?_
      rw [Dirty, hother c hc]
      exact hdc
  · intro q
    have hpq := h.pc q
    show (s.bzero b).PcOk (s.pc q)
    cases hk : s.pc q with
    | idle | write => trivial
    | loop | evict =>
        rw [hk] at hpq
        exact hpq
    | read c blk dev k =>
        have hc : c ≠ b := by
          rintro rfl
          cases ho.symm.trans (h.waits q c (by rw [hk]; rfl)).1
        rw [hk] at hpq
        simp only [PcOk] at hpq ⊢
        rw [hother c hc]
        exact hpq
  · intro q c hw
    have hc : c ≠ b := by
      rintro rfl
      cases ho.symm.trans (h.waits q c hw).1
    rw [hother c hc]
    exact h.waits q c hw
  · exact h.io

end Cache

namespace Caches

variable {s s' : Caches} {l : Label} {p : ℕ}

/-- What holds in every state. -/
structure Sound (s : Caches) : Prop where
  inv : s.cache.Inv
  error : ∀ b, (s.cache.buf b).error = false
  sane : s.ilist.Sane

/-- **The step lemma.** -/
lemma Sound.step (h : Sound s) (hc : s.Careful l) (he : s.step l = some s') : Sound s' := by
  obtain ⟨herr, hcare⟩ := hc
  cases l with
  | cache l =>
      obtain ⟨c, hstep, rfl⟩ := Option.map_eq_some_iff.mp he
      refine ⟨(Cache.step_spec h.inv hcare hstep).1, fun b => ?_, h.sane⟩
      by_contra hb
      have hb' := Cache.NoWorse.step herr hstep b (by simpa using hb)
      rw [h.error b] at hb'
      cases hb'
  | ilist l =>
      obtain ⟨l', hstep, rfl⟩ := Option.map_eq_some_iff.mp he
      exact ⟨h.inv, h.error, h.sane.step herr hstep⟩
  | flock p b ronly =>
      rw [Caches.step] at he
      split_ifs at he
      obtain rfl : (s.cache.buf b).data 408 = ronly := herr
      rw [Cache.setFlock_self] at he
      exact Option.some.inj he ▸ h
  | bzero b =>
      rw [Caches.step] at he
      split_ifs at he with hb
      refine Option.some.inj he ▸ ⟨h.inv.bzero hb.1 hb.2 herr, fun c => ?_, h.sane⟩
      by_cases hc : c = b
      · rw [hc]
        exact congrArg Buf.error (s.cache.bzero_self b)
      · exact (congrArg Buf.error (s.cache.bzero_ne hc)).trans (h.error c)

lemma Start.sound (h : Start s) : Sound s := by
  refine ⟨h.cache.inv, fun b => by rw [h.cache.buf]; rfl, fun i _ hm => ?_⟩
  rw [h.slot] at hm
  cases hm

lemma sound_of_reach (h : Transition.Reach step Start Careful s) : Sound s :=
  h.invariant (fun _ => Start.sound) fun _ _ _ hs hc he => hs.step hc he

/-- Readers find what has been released last. -/
lemma Sound.cached (h : Sound s) : s.cache.cached = s.cache.view := by
  funext dev blk
  rw [Cache.cached]
  split
  · rename_i b hb
    have htag := List.find?_some hb
    simp only [Bool.and_eq_true, Bool.or_eq_true, beq_iff_eq, Bool.not_eq_true'] at htag
    obtain ⟨⟨rfl, rfl⟩, (⟨hdone, herr⟩ | hd) | ⟨hq, hr⟩⟩ := htag
    · exact (h.inv.ok b).valid hdone herr
    · exact (h.inv.ok b).delayed hd
    · exact (h.inv.ok b).writing hq hr
  · rename_i hnone
    refine h.inv.clean dev blk fun b hdev hblk hdirty => ?_
    by_cases hb : b < s.cache.nbuf
    · have hno := List.find?_eq_none.mp hnone b (List.mem_range.mpr hb)
      rcases hdirty with e | ⟨e, e'⟩
      · simp [hdev, hblk, e] at hno
      · simp [hdev, hblk, e, e'] at hno
    · have hp := h.inv.out b (Nat.not_lt.mp hb)
      rcases hdirty with e | ⟨e, -⟩
      · rw [hp.2.1] at e
        cases e
      · rw [(h.inv.free hp.1).2] at e
        cases e

end Caches

/-! ## The inodes in their blocks -/

namespace Ilist

variable {l l' : Ilist} {v : ℕ → ℕ → Bytes} {i p : ℕ}

lemma putSlot_congr (h : Alike (l.slot i) (l'.slot i)) (v : ℕ → ℕ → Bytes) :
    l'.putSlot i v = l.putSlot i v := by
  unfold putSlot Incore.put
  rw [h.dev, h.inum, h.node, h.size]

/-- Only the contents of the inodes matter. -/
lemma stored_congr {n : ℕ} (h : ∀ j, Alike (l.slot j) (l'.slot j)) (v : ℕ → ℕ → Bytes) :
    l'.stored v n = l.stored v n := by
  induction n with
  | zero => rfl
  | succ n ih => rw [stored, stored, ih, (h n).mod, putSlot_congr (h n)]

/-- Nothing is to be stored. -/
lemma stored_clean {n : ℕ} (h : ∀ j < n, (l.slot j).mod = false) (v : ℕ → ℕ → Bytes) :
    l.stored v n = v := by
  induction n with
  | zero => rfl
  | succ n ih =>
      rw [stored, h n (Nat.lt_succ_self n), ih fun j hj => h j (by omega)]
      rfl

/-- The first modified inode may be stored at once. -/
lemma stored_first {n : ℕ} (hm : (l.slot i).mod = true) (hbefore : ∀ j < i, (l.slot j).mod = false)
    (hm' : (l'.slot i).mod = false) (h : ∀ j, j ≠ i → Alike (l.slot j) (l'.slot j)) (hn : i < n)
    (v : ℕ → ℕ → Bytes) : l'.stored (l.putSlot i v) n = l.stored v n := by
  induction n with
  | zero => omega
  | succ n ih =>
      by_cases hi : n = i
      · subst hi
        rw [stored, stored, hm, hm', stored_clean hbefore,
          stored_clean fun j hj => (h j (by omega)).mod.trans (hbefore j hj)]
        rfl
      · rw [stored, stored, ih (by omega), (h n hi).mod, putSlot_congr (h n hi)]

end Ilist

/-! ## The buffer cache around the process -/

namespace Cache

variable {c c' : Cache} {p b blk dev : ℕ} {k : Kont} {o : Option ℕ}

/-- The process is in no routine of the cache. -/
structure Rests (c : Cache) (p : ℕ) : Prop where
  solo : Solo c p none
  pc : c.pc p = .idle
  event : c.event p = none

/-- The process waits in `bget` or `bread`. -/
structure Waits (c : Cache) (p blk dev : ℕ) (k : Kont) : Prop where
  solo : Solo c p (c.pc p).buf
  request : (c.pc p).request = some (blk, dev, k)

/-- `bread` has returned buffer `b`. -/
structure Holds (c : Cache) (p b blk dev : ℕ) : Prop where
  solo : Solo c p (some b)
  pc : c.pc p = .idle
  event : c.event p = none
  tag : (c.buf b).dev = dev ∧ (c.buf b).blk = blk
  data : (c.buf b).data = c.cur b

/-- What is dirty is in the queue. -/
def Flushing (c : Cache) : Prop := ∀ b, (c.buf b).delwri = true → c.queue b = true

/-- A driver or the clock has done something; the process holds `o`. -/
structure Aside (c c' : Cache) (p : ℕ) (o : Option ℕ) : Prop where
  solo : Solo c' p o
  pc : c'.pc = c.pc
  view : c'.view = c.view
  rootdev : c'.rootdev = c.rootdev
  event : c.event p = none → c'.event p = none
  buf : ∀ b, c.queue b = false → c'.buf b = c.buf b
  flushing : Flushing c → Flushing c'

lemma Solo.aside_iodone (h : Solo c p o) (hq : c.queue b = true) :
    ∃ c', c.step (.iodone b none) = some c' ∧ Aside c c' p o ∧ c'.rank p < c.rank p := by
  obtain ⟨c', hstep, ht, hs, hrank⟩ := h.iodone hq
  refine ⟨c', hstep, ⟨hs, ht.pc, ht.view, ht.only.rootdev, fun he => ?_, fun d hd => ?_,
    fun hf d hd => ?_⟩, hrank⟩
  · rw [ht.event, he, ite_self]
  · exact ht.only.buf d fun e => by simp [e, hq] at hd
  · have hdb : d ≠ b := by
      rintro rfl
      cases ht.delwri.symm.trans hd
    rw [ht.only.buf d hdb] at hd
    rw [ht.only.queue d hdb]
    exact hf d hd

lemma Solo.aside_tick (h : Solo c p o) :
    ∃ c', c.step .tick = some c' ∧ Aside c c' p o ∧ c'.rank p = c.rank p := by
  obtain ⟨c', hstep, hs, hbuf, hq, hev, hpc, hview, hroot, hrank⟩ := h.tick
  refine ⟨c', hstep, ⟨hs, hpc, hview, hroot, fun he => by rw [hev, he], fun b _ => by rw [hbuf],
    fun hf b hb => ?_⟩, hrank⟩
  rw [hbuf] at hb
  rw [hq]
  exact hf b hb

lemma Rests.aside (h : Rests c p) (ha : Aside c c' p none) : Rests c' p :=
  ⟨ha.solo, by rw [ha.pc, h.pc], ha.event h.event⟩

lemma Waits.aside (h : Waits c p blk dev k) (ha : Aside c c' p (c.pc p).buf) :
    Waits c' p blk dev k :=
  ⟨by rw [ha.pc]; exact ha.solo, by rw [ha.pc, h.request]⟩

lemma Holds.aside (h : Holds c p b blk dev) (ha : Aside c c' p (some b)) :
    Holds c' p b blk dev := by
  have hb : c'.buf b = c.buf b := ha.buf b (h.solo.has (by rw [h.pc]; rfl)).queue
  exact ⟨ha.solo, by rw [ha.pc, h.pc], ha.event h.event, by rw [hb]; exact h.tag,
    by rw [cur, hb, ha.view]; exact h.data⟩

lemma Rests.rank (h : Rests c p) : c.rank p = c.load + 1 := by
  rw [Cache.rank, h.pc, h.event]
  rfl

lemma Holds.rank (h : Holds c p b blk dev) : c.rank p = c.load + 1 := by
  rw [Cache.rank, h.pc, h.event]
  rfl

/-- Who waits is asleep on a buffer that a driver has, or goes on. -/
lemma Waits.run (h : Waits c p blk dev k) (hk : c.Fits blk dev k) :
    (c.step (.run p) = none ∧ ∃ b, c.queue b = true) ∨
      ∃ c', c.step (.run p) = some c' ∧ Burst c p blk dev k c' ∧ c'.rank p < c.rank p := by
  cases he : c.event p with
  | none => exact h.solo.run he h.request hk
  | some b =>
      refine Or.inl ⟨?_, b, (h.solo.asleep b he).1⟩
      rw [step]
      dsimp only
      rw [he, if_neg (by simp)]

lemma Waits.not_idle (h : Waits c p blk dev k) : c.pc p ≠ .idle := by
  intro e
  have hr := h.request
  rw [e] at hr
  cases hr

/-- The buffer that the process holds. -/
lemma Holds.held (h : Holds c p b blk dev) : c.held p = some b := by
  have hb : b < c.nbuf := h.solo.inv.lt_of_busy (h.solo.busy.mpr (Or.inl rfl))
  rw [Cache.held, List.find?_range_eq_some]
  refine ⟨by rw [h.solo.own, if_pos rfl]; simp, List.mem_range.mpr hb, fun d hd => ?_⟩
  rw [h.solo.own, if_neg (by simpa using fun e => by omega)]
  rfl

/-- What `bread` brings its caller to. -/
lemma Burst.bread (h : Burst c p blk dev .bread c') :
    c'.rootdev = c.rootdev ∧ c'.view = c.view ∧
      (Waits c' p blk dev .bread ∨ ∃ b, Holds c' p b blk dev) := by
  cases h with
  | sleeps h1 h2 _ h4 h5 => exact ⟨h4, h5, Or.inl ⟨h1, h2⟩⟩
  | returns b _ h2 h3 h4 h5 h6 h7 h8 => exact ⟨h7, h8, Or.inr ⟨b, h2, h3, h4, h5, h6⟩⟩
  | ends h1 => cases h1

lemma Burst.bsync (h : Burst c p blk dev .bsync c') :
    c'.rootdev = c.rootdev ∧ (Waits c' p blk dev .bsync ∧ c'.view = c.view ∨
      (Rests c' p ∧ Flushing c') ∧ ∃ t, c'.view = stamp c.view c.rootdev t) := by
  cases h with
  | sleeps h1 h2 _ h4 h5 => exact ⟨h4, Or.inl ⟨⟨h1, h2⟩, h5⟩⟩
  | returns b h1 => cases h1
  | ends _ h2 h3 =>
      exact ⟨h2.rootdev, Or.inr ⟨⟨⟨h2.solo, h2.pc, h2.event⟩, h3⟩, c.seconds, h2.view⟩⟩

end Cache

/-! ## The call -/

namespace Syncing

variable {s : Caches} {p i b : ℕ} {x x' : Syncing}

/-- What the disks will have, but for the time in the superblock. -/
def target (s : Caches) : ℕ → ℕ → Bytes := s.ilist.stored s.cache.view s.ilist.n

/-- The modified inodes, once stored, make up for what the buffers lack. -/
def Owes (s : Caches) (x : Syncing) : Prop :=
  x.ilist.stored x.cache.view x.ilist.n = target s

/-- What holds at each place of `sync`. -/
def Place (s : Caches) (p : ℕ) (x : Syncing) : SyncPc → Prop
  | .sync => x.cache.Rests p ∧ Owes s x ∧ x.ilist.stage p = .idle ∧ x.ilist.event p = none ∧
      (∀ i < x.ilist.n, (x.ilist.slot i).busy = false) ∧ x.ilist.Sane
  | .isync => x.cache.Rests p ∧ Owes s x ∧ (x.ilist.Clean p ∨ ∃ i, x.ilist.Writing p i)
  | .bread i => Owes s x ∧ x.ilist.Writing p i ∧
      (x.cache.Waits p (x.ilist.slot i).iblock (x.ilist.slot i).dev .bread ∨
        ∃ b, x.cache.Holds p b (x.ilist.slot i).iblock (x.ilist.slot i).dev)
  | .bsync => x.ilist.Clean p ∧
      (x.cache.Waits p 1 x.cache.rootdev .bsync ∧ x.cache.view = target s ∨
        (x.cache.Rests p ∧ x.cache.Flushing) ∧
          ∃ t, x.cache.view = Cache.stamp (target s) x.cache.rootdev t)
  | .done => x.ilist.Clean p ∧ (x.cache.Rests p ∧ x.cache.Flushing) ∧
      ∃ t, x.cache.view = Cache.stamp (target s) x.cache.rootdev t

/-- The invariant. -/
structure Going (s : Caches) (p : ℕ) (x : Syncing) : Prop where
  root : x.cache.rootdev = s.cache.rootdev
  place : Place s p x x.pc

/-- What is to be done yet. -/
def todo (x : Syncing) : ℕ :=
  match x.pc with
  | .sync => 20 * x.ilist.modified + 12
  | .isync => 20 * x.ilist.modified + 11
  | .bread _ => 20 * x.ilist.modified
  | .bsync => 1
  | .done => 0

/-- What is to be done yet, also by the drivers. -/
def rank (p : ℕ) (x : Syncing) : ℕ := x.cache.rank p + x.todo

/-! ### The drivers and the clock -/

/-- At each place the process holds a buffer, or it does not. -/
lemma Going.solo (h : Going s p x) : ∃ o, x.cache.Solo p o ∧
    ∀ c', x.cache.Aside c' p o → Going s p { x with cache := c' } := by
  obtain ⟨hroot, hplace⟩ := h
  cases hpc : x.pc with
  | sync =>
      rw [hpc] at hplace
      obtain ⟨hr, howes, hrest⟩ := hplace
      refine ⟨none, hr.solo, fun c' ha => ⟨ha.rootdev.trans hroot, ?_⟩⟩
      exact ⟨hr.aside ha, by rw [Owes, ha.view]; exact howes, hrest⟩
  | isync =>
      rw [hpc] at hplace
      obtain ⟨hr, howes, hrest⟩ := hplace
      refine ⟨none, hr.solo, fun c' ha => ⟨ha.rootdev.trans hroot, ?_⟩⟩
      exact ⟨hr.aside ha, by rw [Owes, ha.view]; exact howes, hrest⟩
  | bread i =>
      rw [hpc] at hplace
      obtain ⟨howes, hw, hwait | ⟨b, hhold⟩⟩ := hplace
      · refine ⟨_, hwait.solo, fun c' ha => ⟨ha.rootdev.trans hroot, ?_⟩⟩
        exact ⟨by rw [Owes, ha.view]; exact howes, hw, Or.inl (hwait.aside ha)⟩
      · refine ⟨_, hhold.solo, fun c' ha => ⟨ha.rootdev.trans hroot, ?_⟩⟩
        exact ⟨by rw [Owes, ha.view]; exact howes, hw, Or.inr ⟨b, hhold.aside ha⟩⟩
  | bsync =>
      rw [hpc] at hplace
      obtain ⟨hclean, ⟨hwait, hview⟩ | ⟨⟨hr, hf⟩, t, hview⟩⟩ := hplace
      · refine ⟨_, hwait.solo, fun c' ha => ⟨ha.rootdev.trans hroot, ?_⟩⟩
        refine ⟨hclean, Or.inl ⟨?_, ha.view.trans hview⟩⟩
        rw [show ({ x with cache := c' } : Syncing).cache.rootdev = x.cache.rootdev from ha.rootdev]
        exact hwait.aside ha
      · refine ⟨_, hr.solo, fun c' ha => ⟨ha.rootdev.trans hroot, ?_⟩⟩
        exact ⟨hclean, Or.inr ⟨⟨hr.aside ha, ha.flushing hf⟩, t, by rw [ha.view, hview, ha.rootdev]⟩⟩
  | done =>
      rw [hpc] at hplace
      obtain ⟨hclean, ⟨hr, hf⟩, t, hview⟩ := hplace
      refine ⟨_, hr.solo, fun c' ha => ⟨ha.rootdev.trans hroot, ?_⟩⟩
      exact ⟨hclean, ⟨hr.aside ha, ha.flushing hf⟩, t, by rw [ha.view, hview, ha.rootdev]⟩

/-- A transfer ends. -/
lemma Going.iodone (h : Going s p x) (hq : x.cache.queue b = true) :
    ∃ x', step p x (.iodone b) = some x' ∧ Going s p x' ∧ rank p x' < rank p x := by
  obtain ⟨o, hs, hgo⟩ := h.solo
  obtain ⟨c', hstep, ha, hrank⟩ := hs.aside_iodone hq
  refine ⟨{ x with cache := c' }, by rw [step, hstep]; rfl, hgo c' ha, ?_⟩
  exact Nat.add_lt_add_right hrank x.todo

lemma Going.tick (h : Going s p x) :
    ∃ x', step p x .tick = some x' ∧ Going s p x' ∧ rank p x' = rank p x := by
  obtain ⟨o, hs, hgo⟩ := h.solo
  obtain ⟨c', hstep, ha, hrank⟩ := hs.aside_tick
  refine ⟨{ x with cache := c' }, by rw [step, hstep]; rfl, hgo c' ha, ?_⟩
  exact congrArg (· + x.todo) hrank

/-! ### The process -/

/-- The process goes on, or it cannot because a driver has a buffer. -/
def Moves (s : Caches) (p : ℕ) (x : Syncing) : Prop :=
  (x.run p = none ∧ ∃ b, x.cache.queue b = true) ∨
    ∃ x', x.run p = some x' ∧ Going s p x' ∧ rank p x' < rank p x

/-- `isync` is called. -/
lemma Going.run_sync (h : Going s p x) (hpc : x.pc = .sync) : Moves s p x := by
  obtain ⟨hroot, hplace⟩ := h
  rw [hpc] at hplace
  obtain ⟨hr, howes, hstage, hev, hbusy, hsane⟩ := hplace
  obtain ⟨l', hstep, hn, halike, hnext⟩ := Ilist.isync_call hbusy hsane hstage hev
  refine Or.inr ⟨{ x with ilist := l', pc := .isync }, ?_, ⟨hroot, hr, ?_, hnext⟩, ?_⟩
  · rw [run, hpc]
    dsimp only
    rw [hstep]
    rfl
  · rw [Owes, ← howes]
    show l'.stored _ l'.n = _
    rw [hn, Ilist.stored_congr halike]
  · rw [rank, rank, todo, todo, hpc]
    dsimp only
    rw [Ilist.modified_congr hn halike]
    omega

/-- The block of a modified inode. -/
lemma iblock_eq (hw : x.ilist.Writing p i) :
    (x.ilist.slot i).iblock = ((x.ilist.slot i).inum + 31) / 16 ∧
      (x.ilist.slot i).iblock < 256 ∧ (x.ilist.slot i).dev < 256 := by
  obtain ⟨-, hdev, hblk⟩ := hw.sane i hw.lt hw.mod
  have hmod : ((x.ilist.slot i).inum + 31) % 65536 = (x.ilist.slot i).inum + 31 :=
    Nat.mod_eq_of_lt (by omega)
  have he : (x.ilist.slot i).iblock = ((x.ilist.slot i).inum + 31) / 16 := by
    rw [Incore.iblock, hmod]
  exact ⟨he, by rw [he]; exact hblk, hdev⟩

/-- In `isync`: `iio` calls `bread`, or `isync` has ended and `bsync` begins. -/
lemma Going.run_isync (h : Going s p x) (hroot : s.cache.rootdev < 256) (hpc : x.pc = .isync) :
    Moves s p x := by
  obtain ⟨hroot', hplace⟩ := h
  rw [hpc] at hplace
  obtain ⟨hr, howes, hclean | ⟨i, hw⟩⟩ := hplace
  · have hrun : x.run p = (x.cache.step (.call p .bsync)).map
        fun c => { x with cache := c, pc := .bsync } := by
      rw [run, hpc]
      dsimp only
      rw [hclean.stage]
    rcases hr.solo.call (k := .bsync) hr.pc hr.event (Or.inr ⟨rfl, rfl⟩)
      ⟨by omega, by rw [hroot']; exact hroot⟩ with ⟨hnone, hq⟩ | ⟨c', hstep, hb, hrank⟩
    · exact Or.inl ⟨by rw [hrun, hnone]; rfl, hq⟩
    · obtain ⟨hroot'', hb⟩ := hb.bsync
      have hview : x.cache.view = target s := by
        rw [← howes, Ilist.stored_clean hclean.mod]
      refine Or.inr ⟨{ x with cache := c', pc := .bsync }, by rw [hrun, hstep]; rfl,
        ⟨hroot''.trans hroot', hclean, ?_⟩, ?_⟩
      · show (c'.Waits p 1 c'.rootdev .bsync ∧ c'.view = target s ∨ _)
        rw [hroot'', ← hview]
        exact hb
      · rw [rank, rank, todo, todo, hpc, hr.rank]
        dsimp only
        omega
  · have hrun : x.run p = (x.cache.step
        (.call p (.bread (x.ilist.slot i).iblock (x.ilist.slot i).dev))).map
        fun c => { x with cache := c, pc := .bread i } := by
      rw [run, hpc]
      dsimp only
      rw [hw.stage]
    obtain ⟨-, hblk, hdev⟩ := iblock_eq hw
    rcases hr.solo.call (k := .bread) hr.pc hr.event (Or.inl ⟨rfl, rfl⟩) ⟨hblk, hdev⟩ with
      ⟨hnone, hq⟩ | ⟨c', hstep, hb, hrank⟩
    · exact Or.inl ⟨by rw [hrun, hnone]; rfl, hq⟩
    · obtain ⟨hroot'', hview, hb⟩ := hb.bread
      refine Or.inr ⟨{ x with cache := c', pc := .bread i }, by rw [hrun, hstep]; rfl,
        ⟨hroot''.trans hroot', ?_, hw, hb⟩, ?_⟩
      · rw [Owes, ← howes]
        show x.ilist.stored c'.view _ = _
        rw [hview]
      · rw [rank, rank, todo, todo, hpc, hr.rank]
        dsimp only
        omega

/-- The inode is stored in the buffer that `bread` has returned. -/
lemma Going.run_iio (h : Going s p x) (hpc : x.pc = .bread i) (howes : Owes s x)
    (hw : x.ilist.Writing p i)
    (hb : x.cache.Holds p b (x.ilist.slot i).iblock (x.ilist.slot i).dev) : Moves s p x := by
  obtain ⟨he, -, -⟩ := iblock_eq hw
  set d := (x.cache.buf b).data with hd
  obtain ⟨c', hc, hfreed, hrank⟩ := hb.solo.release hb.pc hb.event ((x.ilist.slot i).put d)
  obtain ⟨l', hl, hn, hm, halike, hnext⟩ := hw.run d
  have hrun : x.run p = some { cache := c', ilist := l', pc := .isync } := by
    rw [run, hpc]
    dsimp only
    rw [if_pos hb.pc, iioEnd, hb.held]
    dsimp only
    rw [← hd, hc, hl]
    rfl
  -- what readers find now
  have hview : c'.view = x.ilist.putSlot i x.cache.view := by
    rw [hfreed.view]
    funext dev blk
    show (if dev = (x.cache.buf b).dev ∧ blk = (x.cache.buf b).blk then _ else _) = _
    rw [Ilist.putSlot, hb.tag.1, hb.tag.2, he]
    split_ifs with hc
    · rw [hd, hb.data, Cache.cur, hb.tag.1, hb.tag.2, he, hc.1, hc.2]
    · rfl
  refine Or.inr ⟨_, hrun, ⟨hfreed.rootdev.trans h.root, ⟨hfreed.solo, hfreed.pc, hfreed.event⟩, ?_,
    hnext⟩, ?_⟩
  · rw [Owes, ← howes]
    show l'.stored c'.view l'.n = _
    rw [hn, hview]
    exact Ilist.stored_first hw.mod hw.before hm halike hw.lt x.cache.view
  · have hlt := Ilist.modified_lt hw.lt hw.mod hn hm halike
    rw [rank, rank, todo, todo, hpc, hb.rank]
    dsimp only
    omega

/-- In the `bread` of `iio`. -/
lemma Going.run_bread (h : Going s p x) (hpc : x.pc = .bread i) : Moves s p x := by
  have hplace := h.place
  rw [hpc] at hplace
  obtain ⟨howes, hw, hwait | ⟨b, hb⟩⟩ := hplace
  · have hrun : x.run p = (x.cache.step (.run p)).map fun c => { x with cache := c } := by
      rw [run, hpc]
      dsimp only
      rw [if_neg hwait.not_idle]
    rcases hwait.run (Or.inl rfl) with ⟨hnone, hq⟩ | ⟨c', hstep, hb, hrank⟩
    · exact Or.inl ⟨by rw [hrun, hnone]; rfl, hq⟩
    · obtain ⟨hroot, hview, hb⟩ := hb.bread
      refine Or.inr ⟨{ x with cache := c' }, by rw [hrun, hstep]; rfl,
        ⟨hroot.trans h.root, ?_⟩, Nat.add_lt_add_right hrank x.todo⟩
      show Place s p _ x.pc
      rw [hpc]
      refine ⟨?_, hw, hb⟩
      rw [Owes, ← howes]
      show x.ilist.stored c'.view _ = _
      rw [hview]
  · exact h.run_iio hpc howes hw hb

/-- In `bsync`. -/
lemma Going.run_bsync (h : Going s p x) (hpc : x.pc = .bsync) : Moves s p x := by
  have hplace := h.place
  rw [hpc] at hplace
  obtain ⟨hclean, ⟨hwait, hview⟩ | ⟨hr, ht⟩⟩ := hplace
  · have hrun : x.run p = (x.cache.step (.run p)).map fun c => { x with cache := c } := by
      rw [run, hpc]
      dsimp only
      rw [if_neg hwait.not_idle]
    rcases hwait.run (Or.inr ⟨rfl, rfl, rfl⟩) with ⟨hnone, hq⟩ | ⟨c', hstep, hb, hrank⟩
    · exact Or.inl ⟨by rw [hrun, hnone]; rfl, hq⟩
    · obtain ⟨hroot, hb⟩ := hb.bsync
      refine Or.inr ⟨{ x with cache := c' }, by rw [hrun, hstep]; rfl,
        ⟨hroot.trans h.root, ?_⟩, Nat.add_lt_add_right hrank x.todo⟩
      show Place s p _ x.pc
      rw [hpc]
      refine ⟨hclean, ?_⟩
      show (c'.Waits p 1 c'.rootdev .bsync ∧ c'.view = target s ∨ _)
      rw [hroot, ← hview]
      exact hb
  · have hrun : x.run p = some { x with pc := .done } := by
      rw [run, hpc]
      dsimp only
      rw [if_pos hr.1.pc]
    refine Or.inr ⟨_, hrun, ⟨h.root, hclean, hr, ht⟩, ?_⟩
    rw [rank, rank, todo, todo, hpc]
    dsimp only
    omega

/-- **The process goes on**, unless it has ended or waits for a driver. -/
lemma Going.moves (h : Going s p x) (hroot : s.cache.rootdev < 256) (hpc : x.pc ≠ .done) :
    Moves s p x := by
  cases hx : x.pc with
  | sync => exact h.run_sync hx
  | isync => exact h.run_isync hroot hx
  | bread i => exact h.run_bread hx
  | bsync => exact h.run_bsync hx
  | done => exact absurd hx hpc

/-- **At the end the disk is current.** -/
lemma Going.current (h : Going s p x) (hs : s.Sound) (hf : x.Finished) : Current s x := by
  obtain ⟨hpc, hq⟩ := hf
  have hplace := h.place
  rw [hpc] at hplace
  obtain ⟨hclean, ⟨hr, hfl⟩, t, hview⟩ := hplace
  have hqueue (b : ℕ) : x.cache.queue b = false := by
    by_cases hb : b < x.cache.nbuf
    · exact hq b hb
    · exact hr.solo.idle (hr.solo.inv.out b (Nat.not_lt.mp hb)).1
  have hdel (b : ℕ) : (x.cache.buf b).delwri = false := by
    by_contra hd
    have hqb := hfl b (by simpa using hd)
    rw [hqueue b] at hqb
    cases hqb
  refine ⟨hclean.mod, fun b _ => hdel b, t, ?_⟩
  have hdisk : x.cache.disk = x.cache.view := by
    funext dev blk
    refine hr.solo.inv.clean dev blk fun b _ _ hd => ?_
    rcases hd with e | ⟨e, -⟩
    · rw [hdel b] at e
      cases e
    · rw [hqueue b] at e
      cases e
  rw [hdisk, hview, target, hs.cached, h.root]

/-- The call. -/
lemma going_sync (hs : s.Sound) (hr : s.Resting p)
    (hlock : ∃ b < s.cache.nbuf, (s.cache.buf b).lock = false) : Going s p s.sync := by
  have hstage : s.ilist.stage p = .idle := by
    have h := hr.stage
    cases he : s.ilist.stage p with
    | idle => rfl
    | _ =>
        rw [he] at h
        cases h
  have hown (b : ℕ) : s.cache.own b = none := by
    by_cases hb : b < s.cache.nbuf
    · exact hr.own b hb
    · exact (hs.inv.free (hs.inv.out b (Nat.not_lt.mp hb)).1).1
  refine ⟨rfl, ⟨⟨hs.inv, hs.error, hlock, fun b => hown b, fun b hb => ?_⟩, hr.pc, hr.awake.1⟩, rfl,
    hstage, hr.awake.2, hr.busy, hs.sane⟩
  cases hr.awake.1.symm.trans hb

/-- **A step** keeps the invariant, and brings the end nearer. -/
lemma Going.step (h : Going s p x) (hroot : s.cache.rootdev < 256) {l : SyncLabel}
    (he : Syncing.step p x l = some x') :
    Going s p x' ∧ (l ≠ .tick → rank p x' < rank p x) ∧ rank p x' ≤ rank p x := by
  cases l with
  | run =>
      have hpc : x.pc ≠ .done := by
        intro hpc
        rw [Syncing.step, run, hpc] at he
        cases he
      obtain ⟨hnone, -⟩ | ⟨t, ht, hg, hr⟩ := h.moves hroot hpc
      · cases hnone.symm.trans he
      · obtain rfl := Option.some.inj (ht.symm.trans he)
        exact ⟨hg, fun _ => hr, hr.le⟩
  | iodone b =>
      have hq : x.cache.queue b = true := by
        by_contra hq
        rw [Syncing.step, Cache.step] at he
        dsimp only at he
        rw [if_neg hq] at he
        cases he
      obtain ⟨t, ht, hg, hr⟩ := h.iodone hq
      obtain rfl := Option.some.inj (ht.symm.trans he)
      exact ⟨hg, fun _ => hr, hr.le⟩
  | tick =>
      obtain ⟨t, ht, hg, hr⟩ := h.tick
      obtain rfl := Option.some.inj (ht.symm.trans he)
      exact ⟨hg, fun hne => absurd rfl hne, hr.le⟩

/-- Until the end something can happen. -/
lemma Going.progress (h : Going s p x) (hroot : s.cache.rootdev < 256) :
    x.Finished ∨ ∃ l ≠ SyncLabel.tick, ∃ x', Syncing.step p x l = some x' := by
  have hqueued (hq : ∃ b, x.cache.queue b = true) :
      ∃ l ≠ SyncLabel.tick, ∃ x', Syncing.step p x l = some x' := by
    obtain ⟨b, hq⟩ := hq
    obtain ⟨x', hx, -⟩ := h.iodone hq
    exact ⟨.iodone b, nofun, x', hx⟩
  by_cases hpc : x.pc = .done
  · by_cases hq : ∃ b, x.cache.queue b = true
    · exact Or.inr (hqueued hq)
    · exact Or.inl ⟨hpc, fun b _ => by simpa using fun e => hq ⟨b, e⟩⟩
  · obtain ⟨-, hq⟩ | ⟨x', hx, -⟩ := h.moves hroot hpc
    · exact Or.inr (hqueued hq)
    · exact Or.inr ⟨.run, nofun, x', hx⟩

end Syncing

/-! ## The result -/

/-- The caches at boot: two buffers, and a list of two slots, with device 1 mounted. -/
def Caches.boot : Caches where
  cache := .binit 2 1 fun _ _ => Bytes.zero
  ilist := { Ilist.full 2 with slot := fun _ => Incore.zero }

lemma Caches.start_boot : Caches.boot.Start :=
  ⟨Cache.start_binit .., fun _ => rfl, fun _ => rfl, fun _ => rfl⟩

/-- Inodes 2 and 3, which are in one block, are read and modified. -/
def Caches.modifiedRun : List Caches.Label :=
  [.ilist (.call 1 (.iget 2 1)), .ilist (.run 1 (some Ilist.plain)),
    .ilist (.modify 0 Ilist.plain 5), .ilist (.call 1 (.iget 3 1)),
    .ilist (.run 1 (some Ilist.plain)), .ilist (.modify 1 Ilist.plain 5),
    .ilist (.call 1 (.irelse 0)), .ilist (.call 1 (.irelse 1))]

/-- `sync` with both of them modified, and the completions of its transfers. -/
def Caches.syncRun : List SyncLabel :=
  [.run, .run, .iodone 0, .run, .run, .run, .run, .run, .iodone 1, .run, .run, .iodone 1, .iodone 0]

end Micronix
