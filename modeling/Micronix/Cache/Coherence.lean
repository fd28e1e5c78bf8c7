import Micronix.Cache.Uio
import Micronix.Lib.Transition
import Mathlib.Tactic.Common

/-!
# Coherence of the buffer cache

The invariant says for each buffer what its flags promise about its contents (`BufOk`), that no
two buffers carry the same block unless one is still as `binit` left it, that a block without a
dirty buffer is current on the disk, and which process waits for which buffer.  It survives every
step except two: `aread` starts a read without looking at the buffer it got, and `bread` reads
again a buffer that still has `BERROR` from an earlier transfer.  When such a buffer has
delayed-write data the read destroys it; `Clobbers` says just that, and `Careful` are the steps
that do not.
-/

namespace Micronix

/-- The buffer on which the process waits in `bwait`. -/
def Pc.buf : Pc → Option ℕ
  | evict b _ _ _ | read b _ _ _ | write b => some b
  | idle | loop _ _ _ => none

/-- Two buffers carry the same block. -/
def Buf.SameTag (x y : Buf) : Prop := x.dev = y.dev ∧ x.blk = y.blk

/-- A buffer that has not been used: the zeros of `binit` are no block of device 0. -/
def Buf.Pristine (x : Buf) : Prop := x.busy = false ∧ x.delwri = false ∧ x.done = false

/-- What the flags of a buffer say: `o` is its holder, `q` whether the driver has it and `v` the
contents most recently released for its block. -/
structure BufOk (x : Buf) (o : Option ℕ) (q : Bool) (v : Bytes) : Prop where
  busy : x.busy = true ↔ o ≠ none ∨ q = true
  sync : q = true → x.sync = o.isSome
  undone : q = true → x.done = false
  reading : q = true → x.read = true → x.delwri = false
  writing : q = true → x.read = false → x.data = v
  delayed : x.delwri = true → x.data = v
  pending : x.delwri = true → x.done = true ∨ q = true
  valid : x.done = true → x.error = false → x.data = v

lemma BufOk.of_pristine {x : Buf} {o : Option ℕ} {q : Bool} {v v' : Bytes} (h : BufOk x o q v)
    (hp : x.Pristine) : BufOk x o q v' := by
  obtain ⟨hb, hd, hn⟩ := hp
  have hq : q = false := by
    by_contra hq
    have := h.busy.mpr (Or.inr (by simpa using hq))
    rw [hb] at this
    exact absurd this (by simp)
  exact ⟨h.busy, h.sync, h.undone, h.reading, by simp [hq], by simp [hd], h.pending, by simp [hn]⟩

namespace Cache

/-- The contents most recently released for the block of a buffer. -/
def cur (s : Cache) (b : ℕ) : Bytes := s.view (s.buf b).dev (s.buf b).blk

/-- A buffer whose contents the disk may not have. -/
def Dirty (s : Cache) (b : ℕ) : Prop :=
  (s.buf b).delwri = true ∨ s.queue b = true ∧ (s.buf b).read = false

/-- What the place of a process says about its request: block and device numbers below 256, and
while it reads, the buffer carries the block. -/
def PcOk (s : Cache) : Pc → Prop
  | .loop blk dev _ | .evict _ blk dev _ => blk < 256 ∧ dev < 256
  | .read b blk dev _ => dev = (s.buf b).dev ∧ blk = (s.buf b).blk
  | .idle | .write _ => True

/-- The invariant. -/
structure Inv (s : Cache) : Prop where
  ok : ∀ b, BufOk (s.buf b) (s.own b) (s.queue b) (s.cur b)
  uniq : ∀ b c, b < c → (s.buf b).SameTag (s.buf c) → (s.buf c).Pristine
  out : ∀ c, s.nbuf ≤ c → (s.buf c).Pristine
  clean : ∀ dev blk, (∀ b, (s.buf b).dev = dev → (s.buf b).blk = blk → ¬s.Dirty b) →
    s.disk dev blk = s.view dev blk
  pc : ∀ p, s.PcOk (s.pc p)
  waits : ∀ p b, (s.pc p).buf = some b →
    s.own b = some p ∧ (s.queue b = true ∨ (s.buf b).done = true ∧ (s.buf b).delwri = false)
  io : ∀ p b, s.own b = some p → s.queue b = true → (s.pc p).buf = some b

/-- A `bread` that has just returned gave the contents most recently released. -/
def LastOk (s : Cache) : Prop := ∀ dev blk d, s.last = some (dev, blk, d) → d = s.view dev blk

/-! ## Changing one buffer -/

/-- Everything but buffer `b`, its block and process `o` (if any) stays. -/
structure Frame (s s' : Cache) (b : ℕ) (o : Option ℕ) : Prop where
  nbuf : s'.nbuf = s.nbuf
  buf : ∀ c, c ≠ b → s'.buf c = s.buf c
  own : ∀ c, c ≠ b → s'.own c = s.own c
  queue : ∀ c, c ≠ b → s'.queue c = s.queue c
  pc : ∀ q, o ≠ some q → s'.pc q = s.pc q
  disk : ∀ dev blk, ¬(dev = (s.buf b).dev ∧ blk = (s.buf b).blk) → s'.disk dev blk = s.disk dev blk
  view : ∀ dev blk, ¬(dev = (s.buf b).dev ∧ blk = (s.buf b).blk) → s'.view dev blk = s.view dev blk

/-- What buffer `b` and the process `o` must satisfy among themselves. -/
structure Local (s : Cache) (b : ℕ) (o : Option ℕ) : Prop where
  ok : BufOk (s.buf b) (s.own b) (s.queue b) (s.cur b)
  clean : ¬s.Dirty b → s.disk (s.buf b).dev (s.buf b).blk = s.cur b
  own : s.own b = none ∨ s.own b = o
  work : ∀ p, o = some p → (s.pc p).buf = none ∨ (s.pc p).buf = some b
  pc : ∀ p, o = some p → s.PcOk (s.pc p)
  waits : ∀ p, o = some p → (s.pc p).buf = some b →
    s.own b = some p ∧ (s.queue b = true ∨ (s.buf b).done = true ∧ (s.buf b).delwri = false)
  io : ∀ p, o = some p → s.own b = some p → s.queue b = true → (s.pc p).buf = some b

/-- Whoever waits for a buffer holds it. -/
lemma Inv.not_waits {s : Cache} {b q : ℕ} {o : Option ℕ} (h : Inv s)
    (hown : s.own b = none ∨ s.own b = o) (hq : o ≠ some q) : (s.pc q).buf ≠ some b := by
  intro hw
  have hb := (h.waits q b hw).1
  rcases hown with e | e
  · rw [e] at hb
    exact absurd hb (by simp)
  · exact hq (e.symm.trans hb)

/-- **The frame rule.**  A change to one buffer, made by a process that has no other business or by
none at all, keeps the invariant if it keeps what concerns the two of them. -/
theorem Inv.change {s s' : Cache} {b : ℕ} {o : Option ℕ} (h : Inv s) (hf : Frame s s' b o)
    (hb : b < s.nbuf) (htag : (s'.buf b).SameTag (s.buf b))
    (hown : s.own b = none ∨ s.own b = o)
    (hwork : ∀ p, o = some p → (s.pc p).buf = none ∨ (s.pc p).buf = some b)
    (hview : (s.buf b).busy = true ∨ s'.view = s.view)
    (hlow : (s.buf b).Pristine → (s'.buf b).Pristine ∨ ∀ c < b, ¬(s.buf c).SameTag (s.buf b))
    (hl : Local s' b o) : Inv s' := by
  have hdirty : ∀ c, c ≠ b → (s'.Dirty c ↔ s.Dirty c) := by
    intro c hc
    rw [Dirty, Dirty, hf.buf c hc, hf.queue c hc]
  constructor
  · intro c
    by_cases hc : c = b
    · subst hc
      exact hl.ok
    · have hcur : BufOk (s.buf c) (s.own c) (s.queue c) (s'.view (s.buf c).dev (s.buf c).blk) := by
        by_cases ht : (s.buf c).dev = (s.buf b).dev ∧ (s.buf c).blk = (s.buf b).blk
        · rcases Nat.lt_or_gt_of_ne hc with hlt | hlt
          · rcases hview with hbusy | hv
            · have := (h.uniq c b hlt ht).1
              rw [hbusy] at this
              exact absurd this (by simp)
            · rw [hv]
              exact h.ok c
          · exact (h.ok c).of_pristine (h.uniq b c hlt ⟨ht.1.symm, ht.2.symm⟩)
        · rw [hf.view _ _ ht]
          exact h.ok c
      rw [cur, hf.buf c hc, hf.own c hc, hf.queue c hc]
      exact hcur
  · intro c d hcd ht
    by_cases hd : d = b
    · subst hd
      have hc : c ≠ d := by omega
      rw [hf.buf c hc] at ht
      have ht' : (s.buf c).SameTag (s.buf d) := ⟨ht.1.trans htag.1, ht.2.trans htag.2⟩
      rcases hlow (h.uniq c d hcd ht') with hp | hno
      · exact hp
      · exact absurd ht' (hno c hcd)
    · rw [hf.buf d hd] at ht ⊢
      by_cases hc : c = b
      · subst hc
        exact h.uniq c d hcd ⟨htag.1.symm.trans ht.1, htag.2.symm.trans ht.2⟩
      · rw [hf.buf c hc] at ht
        exact h.uniq c d hcd ht
  · intro c hc
    rw [hf.nbuf] at hc
    rw [hf.buf c (by omega)]
    exact h.out c hc
  · intro dev blk hall
    by_cases ht : dev = (s.buf b).dev ∧ blk = (s.buf b).blk
    · obtain ⟨rfl, rfl⟩ := ht
      have hd := hl.clean (hall b htag.1 htag.2)
      rw [cur, htag.1, htag.2] at hd
      exact hd
    · rw [hf.disk _ _ ht, hf.view _ _ ht]
      refine h.clean dev blk fun c hcd hcb hdc => ?_
      have hc : c ≠ b := by
        rintro rfl
        exact ht ⟨hcd.symm, hcb.symm⟩
      rw [← hf.buf c hc] at hcd hcb
      exact hall c hcd hcb ((hdirty c hc).mpr hdc)
  · intro q
    by_cases hq : o = some q
    · exact hl.pc q hq
    · have hpc := h.pc q
      have hno := h.not_waits hown hq
      rw [hf.pc q hq]
      cases hk : s.pc q with
      | idle => trivial
      | write c => trivial
      | loop blk dev k => rw [hk] at hpc; exact hpc
      | evict c blk dev k => rw [hk] at hpc; exact hpc
      | read c blk dev k =>
          rw [hk] at hpc
          have hc : c ≠ b := fun e => hno (by rw [hk, e]; rfl)
          simp only [PcOk] at hpc ⊢
          rw [hf.buf c hc]
          exact hpc
  · intro q c hw
    by_cases hq : o = some q
    · have hc : c = b := by
        rcases hl.work q hq with e | e
        · rw [e] at hw
          exact absurd hw (by simp)
        · rw [e] at hw
          simpa using hw.symm
      subst hc
      exact hl.waits q hq hw
    · rw [hf.pc q hq] at hw
      have hc : c ≠ b := fun e => h.not_waits hown hq (e ▸ hw)
      rw [hf.own c hc, hf.queue c hc, hf.buf c hc]
      exact h.waits q c hw
  · intro q c ho hqu
    by_cases hc : c = b
    · subst hc
      have hq : o = some q := by
        rcases hl.own with e | e
        · rw [e] at ho
          exact absurd ho (by simp)
        · rw [← e, ho]
      exact hl.io q hq ho hqu
    · rw [hf.own c hc] at ho
      rw [hf.queue c hc] at hqu
      have hw := h.io q c ho hqu
      by_cases hq : o = some q
      · rcases hwork q hq with e | e
        · rw [e] at hw
          exact absurd hw (by simp)
        · rw [e] at hw
          exact absurd (by simpa using hw.symm) hc
      · rw [hf.pc q hq]
        exact hw

/-- The same header but for `BWANT` and `BLOCK`. -/
def SameHeader (x y : Buf) : Prop := ∃ w l, y = { x with want := w, lock := l }

lemma SameHeader.refl (x : Buf) : SameHeader x x := ⟨_, _, rfl⟩

/-- Changing `BWANT`, `BLOCK` and the places of processes that wait for no transfer keeps the
invariant. -/
theorem Inv.flags {s s' : Cache} (h : Inv s) (hnbuf : s'.nbuf = s.nbuf)
    (hbuf : ∀ c, SameHeader (s.buf c) (s'.buf c)) (hown : s'.own = s.own)
    (hqueue : s'.queue = s.queue) (hdisk : s'.disk = s.disk) (hview : s'.view = s.view)
    (hpc : ∀ q, s'.pc q = s.pc q ∨
      (s.pc q).buf = none ∧ (s'.pc q).buf = none ∧ s.PcOk (s'.pc q)) : Inv s' := by
  have hdev : ∀ c, (s'.buf c).dev = (s.buf c).dev := fun c => by
    obtain ⟨w, l, e⟩ := hbuf c
    rw [e]
  have hblk : ∀ c, (s'.buf c).blk = (s.buf c).blk := fun c => by
    obtain ⟨w, l, e⟩ := hbuf c
    rw [e]
  have hpr : ∀ c, (s.buf c).Pristine → (s'.buf c).Pristine := fun c hp => by
    obtain ⟨w, l, e⟩ := hbuf c
    rw [e]
    exact hp
  have hdirty : ∀ c, s'.Dirty c ↔ s.Dirty c := fun c => by
    obtain ⟨w, l, e⟩ := hbuf c
    rw [Dirty, Dirty, e, hqueue]
  have hpcok : ∀ q, s.PcOk (s'.pc q) → s'.PcOk (s'.pc q) := fun q hq => by
    cases hk : s'.pc q with
    | idle => trivial
    | write c => trivial
    | loop blk dev k => rw [hk] at hq; exact hq
    | evict c blk dev k => rw [hk] at hq; exact hq
    | read c blk dev k =>
        rw [hk] at hq
        simp only [PcOk, hdev, hblk] at hq ⊢
        exact hq
  constructor
  · intro c
    have hc := h.ok c
    obtain ⟨w, l, e⟩ := hbuf c
    rw [cur, hdev, hblk, hown, hqueue, hview, e]
    exact ⟨hc.busy, hc.sync, hc.undone, hc.reading, hc.writing, hc.delayed, hc.pending, hc.valid⟩
  · intro b c hbc ht
    refine hpr c (h.uniq b c hbc ⟨?_, ?_⟩)
    · rw [← hdev b, ← hdev c]
      exact ht.1
    · rw [← hblk b, ← hblk c]
      exact ht.2
  · intro c hc
    exact hpr c (h.out c (hnbuf ▸ hc))
  · intro dev blk hall
    rw [hdisk, hview]
    refine h.clean dev blk fun b hd hb hdb => ?_
    exact hall b ((hdev b).trans hd) ((hblk b).trans hb) ((hdirty b).mpr hdb)
  · intro q
    refine hpcok q ?_
    rcases hpc q with e | ⟨-, -, hq⟩
    · rw [e]
      exact h.pc q
    · exact hq
  · intro q c hw
    rcases hpc q with e | ⟨-, hn, -⟩
    · rw [e] at hw
      obtain ⟨w, l, e'⟩ := hbuf c
      rw [hown, hqueue, e']
      exact h.waits q c hw
    · rw [hn] at hw
      exact absurd hw (by simp)
  · intro q c ho hq
    rw [hown] at ho
    rw [hqueue] at hq
    have hw := h.io q c ho hq
    rcases hpc q with e | ⟨hn, -, -⟩
    · rw [e]
      exact hw
    · rw [hn] at hw
      exact absurd hw (by simp)

end Cache

end Micronix
