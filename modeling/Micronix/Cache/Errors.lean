import Micronix.Cache.Safety

/-!
# Where `BERROR` comes from

Only a transfer that fails sets `BERROR`; whatever else happens to the buffers, it is set in none in
which it was not before.
-/

namespace Micronix

namespace Cache

/-- `BERROR` is set in no other buffers. -/
def NoWorse (s s' : Cache) : Prop := ∀ c, (s'.buf c).error = true → (s.buf c).error = true

variable {s s' t : Cache} {p b blk dev : ℕ} {k : Kont}

lemma NoWorse.refl (s : Cache) : NoWorse s s := fun _ h => h

lemma NoWorse.trans (h : NoWorse s t) (h' : NoWorse t s') : NoWorse s s' := fun c hc => h c (h' c hc)

lemma noWorse_modBuf (s : Cache) (b : ℕ) (f : Buf → Buf)
    (h : (f (s.buf b)).error = true → (s.buf b).error = true) : NoWorse s (s.modBuf b f) := by
  intro c hc
  by_cases hcb : c = b
  · subst hcb
    rw [modBuf_self] at hc
    exact h hc
  · rwa [modBuf_ne s f hcb] at hc

lemma noWorse_brelse (s : Cache) (b : ℕ) : NoWorse s (s.brelse b) := by
  by_cases hb : (s.buf b).busy = true
  · intro c hc
    rw [(brelse_busy s hb).1] at hc
    exact noWorse_modBuf s b (fun x => { x with busy := false, want := false }) (fun h => h) c hc
  · rw [brelse, if_pos (by simpa using hb)]
    exact .refl s

lemma noWorse_strat (s : Cache) (b : ℕ) (rd sy : Bool) : NoWorse s (s.strat b rd sy) :=
  noWorse_modBuf s b (fun x =>
    { x with read := rd, sync := sy, busy := true, done := false, error := false }) nofun

lemma noWorse_sleep (s : Cache) (p b : ℕ) (pc : Pc) : NoWorse s (s.sleep p b pc) :=
  noWorse_modBuf s b (fun x => { x with want := true }) fun h => h

lemma noWorse_store (s : Cache) (b : ℕ) (d : Bytes) : NoWorse s (s.store b d) :=
  noWorse_modBuf s b (fun x => { x with data := d }) fun h => h

lemma noWorse_bdwrite (s : Cache) (b : ℕ) : NoWorse s (s.bdwrite b) :=
  (noWorse_modBuf s b (fun x => { x with delwri := true, done := true }) fun h => h).trans
    (noWorse_brelse _ b)

lemma noWorse_bawrite (s : Cache) (b : ℕ) : NoWorse s (s.bawrite b) := noWorse_strat s b false false

lemma noWorse_bwrite (s : Cache) (p b : ℕ) (pc : Pc) : NoWorse s (s.bwrite p b pc) :=
  (noWorse_strat s b false true).trans (noWorse_sleep _ p b pc)

lemma noWorse_bsyncLoop (s : Cache) (n : ℕ) : NoWorse s (s.bsyncLoop n) := by
  induction n with
  | zero => exact .refl s
  | succ n ih =>
      rw [bsyncLoop]
      split_ifs
      · exact ih.trans (noWorse_bawrite _ n)
      · exact ih

lemma noWorse_bsyncRest (s : Cache) (p b : ℕ) : NoWorse s (s.bsyncRest p b) := by
  unfold bsyncRest
  dsimp only
  refine NoWorse.trans ?_ (noWorse_bsyncLoop _ _)
  split_ifs
  · exact (noWorse_store (s.setPc p .idle) b _).trans (noWorse_bdwrite _ b)
  · exact noWorse_brelse (s.setPc p .idle) b

lemma NoWorse.breadEnd (h : s.breadEnd p b blk dev k = some s') : NoWorse s s' := by
  unfold Cache.breadEnd at h
  split_ifs at h
  · exact Option.some.inj h ▸ noWorse_brelse (s.setPc p .idle) b
  · exact Option.some.inj h ▸ noWorse_bsyncRest s p b
  · exact Option.some.inj h ▸ .refl s

lemma NoWorse.got (h : s.got p b blk dev k = some s') : NoWorse s s' := by
  have hread : ∀ k', (if (s.buf b).done = true ∧ (s.buf b).error = false
      then s.breadEnd p b blk dev k'
      else some ((s.strat b true true).sleep p b (.read b blk dev k'))) = some s' →
      NoWorse s s' := by
    intro k' h
    split_ifs at h
    · exact .breadEnd h
    · exact Option.some.inj h ▸ (noWorse_strat s b true true).trans (noWorse_sleep _ p b _)
  cases k with
  | bget => exact Option.some.inj h ▸ .refl s
  | aread => exact Option.some.inj h ▸ noWorse_strat s b true false
  | bread => exact hread .bread h
  | bsync => exact hread .bsync h

lemma NoWorse.search (h : s.search p blk dev k = some s') : NoWorse s s' := by
  have hblock (b : ℕ) : NoWorse s (s.block p b) :=
    noWorse_modBuf s b (fun x => { x with busy := true }) fun h => h
  unfold Cache.search at h
  split at h
  · split_ifs at h
    · exact Option.some.inj h ▸ noWorse_sleep s p _ _
    · exact (hblock _).trans (.got h)
  · split at h
    · cases h
    · rename_i f _
      dsimp only at h
      split_ifs at h
      · exact Option.some.inj h ▸ (hblock f).trans (noWorse_bwrite _ p f _)
      · exact ((hblock f).trans (noWorse_modBuf _ f (fun x =>
          { x with blk := blk % 256, dev := dev % 256, done := false }) fun h => h)).trans (.got h)

lemma NoWorse.resume (h : s.resume p = some s') : NoWorse s s' := by
  unfold Cache.resume at h
  split at h
  · cases h
  · exact .search h
  · split_ifs at h
    · exact (noWorse_brelse (s.setPc p _) _).trans (.search h)
    · exact Option.some.inj h ▸ noWorse_sleep s p _ _
  · split_ifs at h
    · exact .breadEnd h
    · exact Option.some.inj h ▸ noWorse_sleep s p _ _
  · split_ifs at h
    · exact Option.some.inj h ▸ noWorse_brelse (s.setPc p _) _
    · exact Option.some.inj h ▸ noWorse_sleep s p _ _

lemma noWorse_iodone (s : Cache) (b : ℕ) : NoWorse s (s.iodone b none) := by
  obtain ⟨hbuf, hother, -⟩ := transfer_fields s b none
  unfold Cache.iodone
  set t := (s.transfer b none).modBuf b fun x => { x with done := true, delwri := false } with ht
  have hst : NoWorse s t := by
    intro c hc
    by_cases hcb : c = b
    · rw [hcb] at hc ⊢
      rw [hbuf] at hc
      exact hc
    · rwa [hother c hcb] at hc
  dsimp only
  split_ifs
  · exact hst
  · exact hst.trans (noWorse_brelse t b)

/-- **Without failing transfers there is no `BERROR`.** -/
theorem NoWorse.step {l : Label} (he : s.Errorless l) (h : s.step l = some s') : NoWorse s s' := by
  unfold Cache.step at h
  set r : Cache := { s with last := none } with hr
  have hs : NoWorse s r := .refl s
  cases l with
  | call p c =>
      dsimp only at h
      split_ifs at h
      cases c with
      | bget | bread => exact hs.trans (.search h)
      | aread blk dev =>
          rw [call] at h
          split_ifs at h
          · exact Option.some.inj h ▸ hs
          · exact hs.trans (.search h)
      | bsync => exact hs.trans (.search h)
  | release p b d =>
      dsimp only at h
      split_ifs at h
      refine Option.some.inj h ▸ hs.trans ?_
      cases d with
      | brelse => exact noWorse_brelse r b
      | bdwrite d => exact (noWorse_store r b d).trans (noWorse_bdwrite _ b)
      | bawrite d => exact (noWorse_store r b d).trans (noWorse_bawrite _ b)
      | bwrite d => exact (noWorse_store r b d).trans (noWorse_bwrite _ p b _)
  | setLock p b v =>
      dsimp only at h
      split_ifs at h
      exact Option.some.inj h ▸ noWorse_modBuf r b (fun x => { x with lock := v }) fun h => h
  | run p =>
      dsimp only at h
      split_ifs at h
      exact hs.trans (.resume h)
  | iodone b err =>
      dsimp only at h
      split_ifs at h
      obtain rfl : err = none := he
      exact Option.some.inj h ▸ hs.trans (noWorse_iodone r b)
  | tick => exact Option.some.inj h ▸ hs

end Cache

end Micronix
