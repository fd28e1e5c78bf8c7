import Micronix.Cache.Safety

/-!
# Which block a buffer is given to

`bread`, `aread` and `bget` share one search.  `grant` is the buffer with which they go on; it
carries the block and device numbers as `bget` has them, and `bget` takes both as `UINT8`.
-/

namespace Micronix

namespace Cache

/-- The buffer that `bget` returns when it need not sleep, with the state in which it does. -/
def grant (s : Cache) (p blk dev : ℕ) : Option (Cache × ℕ) :=
  match s.hit blk dev with
  | some b => if (s.buf b).busy then none else some (s.block p b, b)
  | none => s.victim.bind fun f =>
      if (s.buf f).delwri then none else some ((s.block p f).retag f blk dev, f)

variable {s s' t : Cache} {p b blk dev : ℕ} {k : Kont}

/-- The search goes on with what it is granted. -/
lemma search_grant (h : s.grant p blk dev = some (t, b)) (k : Kont) :
    s.search p blk dev k = t.got p b blk dev k := by
  unfold grant at h
  rw [search]
  cases hhit : s.hit blk dev with
  | some c =>
      simp only [hhit, Option.ite_none_left_eq_some, Option.some.injEq, Prod.mk.injEq] at h
      obtain ⟨hb, rfl, rfl⟩ := h
      simp only [hb, Bool.false_eq_true, if_false]
  | none =>
      simp only [hhit, Option.bind_eq_some_iff, Option.ite_none_left_eq_some, Option.some.injEq,
        Prod.mk.injEq] at h
      obtain ⟨f, hv, hd, rfl, rfl⟩ := h
      have hd' : ((s.block p f).buf f).delwri = (s.buf f).delwri := by simp [Cache.block]
      simp only [hv, hd', hd, Bool.false_eq_true, if_false]

/-- **The tag of the buffer that is granted.** -/
lemma grant_tag (h : s.grant p blk dev = some (t, b)) :
    (t.buf b).blk = blk % 256 ∧ (t.buf b).dev = dev % 256 := by
  unfold grant at h
  cases hhit : s.hit blk dev with
  | some c =>
      simp only [hhit, Option.ite_none_left_eq_some, Option.some.injEq, Prod.mk.injEq] at h
      obtain ⟨-, rfl, rfl⟩ := h
      rw [hit, List.find?_range_eq_some] at hhit
      simpa [Cache.block] using hhit.1
  | none =>
      simp only [hhit, Option.bind_eq_some_iff, Option.ite_none_left_eq_some, Option.some.injEq,
        Prod.mk.injEq] at h
      obtain ⟨f, -, -, rfl, rfl⟩ := h
      simp [retag]

/-! ## What `bread` and `aread` do with it -/

/-- The routines that follow `bget` give no buffer to another block. -/
def KeepTags (s s' : Cache) : Prop := ∀ c, (s'.buf c).SameTag (s.buf c)

lemma KeepTags.trans (h : KeepTags s t) (h' : KeepTags t s') : KeepTags s s' :=
  fun c => ⟨(h' c).1.trans (h c).1, (h' c).2.trans (h c).2⟩

lemma keepTags_modBuf (s : Cache) (b : ℕ) (f : Buf → Buf) (h : ∀ x, (f x).SameTag x) :
    KeepTags s (s.modBuf b f) := by
  intro c
  by_cases hc : c = b
  · subst hc
    rw [modBuf_self]
    exact h _
  · rw [modBuf_ne s f hc]
    exact ⟨rfl, rfl⟩

lemma keepTags_brelse (s : Cache) (b : ℕ) : KeepTags s (s.brelse b) := by
  intro c
  by_cases hb : (s.buf b).busy = true
  · rw [(brelse_busy s hb).1]
    exact keepTags_modBuf s b (fun x => { x with busy := false, want := false })
      (fun _ => ⟨rfl, rfl⟩) c
  · rw [brelse, if_pos (by simpa using hb)]
    exact ⟨rfl, rfl⟩

lemma keepTags_strat (s : Cache) (b : ℕ) (rd sy : Bool) : KeepTags s (s.strat b rd sy) :=
  keepTags_modBuf s b (fun x =>
    { x with read := rd, sync := sy, busy := true, done := false, error := false })
    fun _ => ⟨rfl, rfl⟩

lemma keepTags_bsyncLoop (s : Cache) (n : ℕ) : KeepTags s (s.bsyncLoop n) := by
  induction n with
  | zero => exact fun _ => ⟨rfl, rfl⟩
  | succ n ih =>
      rw [bsyncLoop]
      split_ifs
      · exact ih.trans (keepTags_strat _ n false false)
      · exact ih

lemma keepTags_bsyncRest (s : Cache) (p b : ℕ) : KeepTags s (s.bsyncRest p b) := by
  unfold bsyncRest
  dsimp only
  refine KeepTags.trans ?_ (keepTags_bsyncLoop _ _)
  split_ifs
  · refine KeepTags.trans ?_ (keepTags_brelse _ b)
    refine KeepTags.trans ?_ (keepTags_modBuf _ b (fun x => { x with delwri := true, done := true })
      fun _ => ⟨rfl, rfl⟩)
    exact keepTags_modBuf (s.setPc p .idle) b (fun x => { x with
      data := stampTime ((s.setPc p .idle).buf b).data s.seconds }) fun _ => ⟨rfl, rfl⟩
  · exact keepTags_brelse (s.setPc p .idle) b

lemma breadEnd_tags (h : s.breadEnd p b blk dev k = some s') : KeepTags s s' := by
  unfold breadEnd at h
  split_ifs at h
  · obtain rfl := Option.some.inj h
    exact keepTags_brelse (s.setPc p .idle) b
  · obtain rfl := Option.some.inj h
    exact keepTags_bsyncRest s p b
  · obtain rfl := Option.some.inj h
    exact fun _ => ⟨rfl, rfl⟩

lemma got_tags (h : s.got p b blk dev k = some s') : KeepTags s s' := by
  have hread : ∀ k', (if (s.buf b).done = true ∧ (s.buf b).error = false
      then s.breadEnd p b blk dev k'
      else some ((s.strat b true true).sleep p b (.read b blk dev k'))) = some s' →
      KeepTags s s' := by
    intro k' h
    split_ifs at h
    · exact breadEnd_tags h
    · obtain rfl := Option.some.inj h
      exact (keepTags_strat s b true true).trans
        (keepTags_modBuf _ b (fun x => { x with want := true }) fun _ => ⟨rfl, rfl⟩)
  cases k with
  | bget =>
      obtain rfl := Option.some.inj h
      exact fun _ => ⟨rfl, rfl⟩
  | aread =>
      obtain rfl := Option.some.inj h
      exact keepTags_strat s b true false
  | bread => exact hread .bread h
  | bsync => exact hread .bsync h

/-- **The buffer of a block.**  In every state of the cache the buffer that `bget` returns, and
with which `bread` and `aread` go on, carries the block and device numbers asked for exactly when
both are below 256; and then no other such pair of numbers is granted the same buffer without its
being given up first. -/
theorem bget_tagged (h : s.grant p blk dev = some (t, b)) :
    (∀ k s', s.search p blk dev k = some s' → (s'.buf b).SameTag (t.buf b)) ∧
    ((t.buf b).blk = blk ∧ (t.buf b).dev = dev ↔ blk < 256 ∧ dev < 256) ∧
    (blk < 256 → dev < 256 → ∀ blk' dev', blk' < 256 → dev' < 256 →
      t.hit blk' dev' = some b → blk' = blk ∧ dev' = dev) := by
  obtain ⟨hblk, hdev⟩ := grant_tag h
  refine ⟨fun k s' he => ?_, ?_, fun hb hd blk' dev' hb' hd' hhit => ?_⟩
  · rw [search_grant h k] at he
    exact got_tags he b
  · rw [hblk, hdev]
    constructor
    · rintro ⟨e1, e2⟩
      exact ⟨e1 ▸ Nat.mod_lt _ (by decide), e2 ▸ Nat.mod_lt _ (by decide)⟩
    · rintro ⟨h1, h2⟩
      exact ⟨Nat.mod_eq_of_lt h1, Nat.mod_eq_of_lt h2⟩
  · obtain ⟨-, e1, e2, -⟩ := hit_spec hb' hd' hhit
    rw [hblk, Nat.mod_eq_of_lt hb] at e1
    rw [hdev, Nat.mod_eq_of_lt hd] at e2
    exact ⟨e1.symm, e2.symm⟩

/-- Block 5 of device 2 in a cache of one buffer. -/
theorem bget_tagged_five : ∃ t, (binit 1 1 fun _ _ => Bytes.zero).grant 0 5 2 = some (t, 0) ∧
    (t.buf 0).blk = 5 ∧ (t.buf 0).dev = 2 :=
  ⟨_, rfl, (bget_tagged (show (binit 1 1 fun _ _ => Bytes.zero).grant 0 5 2 = some (_, 0) from
    rfl)).2.1.mpr ⟨by decide, by decide⟩⟩

/-- After block 1 has been read and released, block 257 is granted its buffer, with the contents of
block 1. -/
theorem bget_shares_buffer : ∃ s, Transition.Reach step Start (fun _ _ => True) s ∧
    s.hit 1 1 = some 0 ∧ s.hit 257 1 = some 0 ∧ (s.buf 0).done = true ∧
    ¬∀ p blk dev t b, s.grant p blk dev = some (t, b) →
      (t.buf b).blk = blk ∧ (t.buf b).dev = dev := by
  have hrun : (Transition.run step (fun _ _ => True) (binit 2 1 fun _ _ => Bytes.zero)
      [.call 0 (.bread 1 1), .iodone 0 none, .run 0, .release 0 0 .brelse]).map
      (fun s => ((s.grant 1 257 1).map fun x => (x.1.buf x.2).blk, s.hit 1 1, s.hit 257 1,
        (s.buf 0).done)) = some (some 1, some 0, some 0, true) := by
    decide +kernel
  obtain ⟨s, hs, he⟩ := Option.map_eq_some_iff.mp hrun
  simp only [Prod.mk.injEq, Option.map_eq_some_iff] at he
  obtain ⟨⟨⟨t, b⟩, hg, hblk⟩, h1, h257, hdone⟩ := he
  refine ⟨s, .of_run (start_binit ..) hs, h1, h257, hdone, fun h => ?_⟩
  rw [(h 1 257 1 t b hg).1] at hblk
  exact absurd hblk (by decide)

end Cache

end Micronix
