import Micronix.Cache.Steps

/-!
# The buffer cache in every reachable state

The pieces of `Micronix.Cache.Steps` put together: each step that is careful keeps the invariant,
so every state reached by careful steps is coherent.
-/

namespace Micronix

namespace Cache

/-- Going on from the search would start a read into a buffer that has delayed-write data: the
caller is `aread`, which does not look at the buffer it gets, or `bread`, which reads again what
has `BERROR`. -/
def Clobbers (s : Cache) (blk dev : ℕ) (k : Kont) : Prop :=
  ∃ b ∈ s.hit blk dev, (s.buf b).busy = false ∧ (s.buf b).delwri = true ∧
    (k = .aread ∨ k ≠ .bget ∧ (s.buf b).error = true)

instance (s : Cache) (blk dev : ℕ) (k : Kont) : Decidable (s.Clobbers blk dev k) :=
  inferInstanceAs (Decidable (∃ b ∈ s.hit blk dev, _))

/-- The request of a call. -/
def Call.request (rootdev : ℕ) : Call → ℕ × ℕ × Kont
  | bget blk dev => (blk, dev, .bget)
  | bread blk dev => (blk, dev, .bread)
  | aread blk dev => (blk, dev, .aread)
  | bsync => (1, rootdev, .bsync)

/-- The block and device numbers of a call are below 256. -/
def InRange (s : Cache) : Label → Prop
  | .call _ c => (c.request s.rootdev).1 < 256 ∧ (c.request s.rootdev).2.1 < 256
  | _ => True

instance (s : Cache) : ∀ l, Decidable (s.InRange l)
  | .call .. => inferInstanceAs (Decidable (_ < 256 ∧ _ < 256))
  | .release .. | .setLock .. | .run _ | .iodone .. | .tick => .isTrue trivial

/-- A process that goes on to search does not clobber. -/
def Resumes (s : Cache) : Pc → Prop
  | .loop blk dev k => ¬s.Clobbers blk dev k
  | .evict b blk dev k => (s.buf b).done = true → ¬s.Clobbers blk dev k
  | .idle | .read .. | .write _ => True

instance (s : Cache) : ∀ pc, Decidable (s.Resumes pc)
  | .loop .. => inferInstanceAs (Decidable ¬_)
  | .evict .. => inferInstanceAs (Decidable (_ = true → ¬_))
  | .idle | .read .. | .write _ => .isTrue trivial

/-- The steps that do not go wrong: no read is started into delayed-write data, and no write
fails. -/
def Careful (s : Cache) : Label → Prop
  | .call p c => s.InRange (.call p c) ∧
      ¬s.Clobbers (c.request s.rootdev).1 (c.request s.rootdev).2.1 (c.request s.rootdev).2.2
  | .run p => s.Resumes (s.pc p)
  | .iodone b err => err.isSome → (s.buf b).read = true
  | .release .. | .setLock .. | .tick => True

instance (s : Cache) : ∀ l, Decidable (s.Careful l)
  | .call .. => inferInstanceAs (Decidable (_ ∧ ¬_))
  | .run _ => inferInstanceAs (Decidable (s.Resumes _))
  | .iodone .. => inferInstanceAs (Decidable (_ = true → _ = true))
  | .release .. | .setLock .. | .tick => .isTrue trivial

/-- The steps that the statement allows: numbers in range, and no transfer fails. -/
def Errorless (s : Cache) : Label → Prop
  | .iodone _ err => err = none
  | l => s.InRange l

instance (s : Cache) : ∀ l, Decidable (s.Errorless l)
  | .iodone _ none => .isTrue rfl
  | .iodone _ (some _) => .isFalse (by simp [Errorless])
  | .call p c => inferInstanceAs (Decidable (s.InRange (.call p c)))
  | .release .. | .setLock .. | .run _ | .tick => .isTrue trivial

variable {s s' : Cache} {b p blk dev : ℕ} {k : Kont}

lemma LastOk.of_none (h : s.last = none) : LastOk s := by
  intro dev blk d e
  rw [h] at e
  exact absurd e (by simp)

/-! ## The end of `bread` -/

lemma bsyncLoop_nbuf (s : Cache) : ∀ n, (s.bsyncLoop n).nbuf = s.nbuf
  | 0 => rfl
  | n + 1 => by
      rw [bsyncLoop]
      split_ifs
      · exact bsyncLoop_nbuf s n
      · exact bsyncLoop_nbuf s n

lemma bsyncLoop_last (s : Cache) : ∀ n, (s.bsyncLoop n).last = s.last
  | 0 => rfl
  | n + 1 => by
      rw [bsyncLoop]
      split_ifs
      · exact bsyncLoop_last s n
      · exact bsyncLoop_last s n

/-- The loop of `bsync`. -/
lemma Inv.bsyncLoop (h : Inv s) : ∀ n, n ≤ s.nbuf → Inv (s.bsyncLoop n)
  | 0, _ => h
  | n + 1, hn => by
      have ih := Inv.bsyncLoop h n (by omega)
      rw [Cache.bsyncLoop]
      split_ifs with hc
      · exact ih.flush hc.1 hc.2 (by rw [bsyncLoop_nbuf]; omega)
      · exact ih

/-- Once the holder is in no wait it still has the buffer. -/
lemma Has.setPc (hh : Has s p b) : Has (s.setPc p .idle) p b :=
  ⟨hh.own, hh.queue, Or.inl (by simp [Cache.setPc, Pc.buf])⟩

lemma setPc_self (hpc : s.pc p = .idle) : s.setPc p .idle = s := by
  rw [Cache.setPc, ← hpc, Function.update_eq_self]

lemma Inv.bsyncRest (h : Inv s) (hh : Has s p b) : Inv (s.bsyncRest p b) := by
  have hi : ((s.setPc p .idle).pc p) = .idle := Function.update_self ..
  have hn : ((s.setPc p .idle).pc p).buf = none := by rw [hi]; rfl
  have hbusy := hh.busy h
  unfold Cache.bsyncRest
  dsimp only
  split_ifs
  · exact ((h.keep hh).bdwrite hh.setPc hn _).bsyncLoop _ le_rfl
  · exact (h.brelse hh .idle rfl trivial).bsyncLoop _ le_rfl

lemma bsyncRest_last (hb : (s.buf b).busy = true) : (s.bsyncRest p b).last = s.last := by
  unfold Cache.bsyncRest
  dsimp only
  split_ifs
  · rw [bsyncLoop_last, bdwrite]
    refine (brelse_busy _ ?_).2.2.2.2.2.2.2.1
    simpa [store, Cache.setPc] using hb
  · rw [bsyncLoop_last]
    exact (brelse_busy (s.setPc p .idle) hb).2.2.2.2.2.2.2.1

/-- **The end of `bread`**: what is returned without an error is current. -/
lemma breadEnd_spec (h : Inv s) (hl : s.last = none) (hh : Has s p b)
    (hdone : (s.buf b).done = true) (ht : dev = (s.buf b).dev ∧ blk = (s.buf b).blk)
    (he : s.breadEnd p b blk dev k = some s') : Inv s' ∧ LastOk s' := by
  have hbusy := hh.busy h
  unfold breadEnd at he
  split_ifs at he with herr hk hk
  · simp only [Option.some.injEq] at he
    subst he
    refine ⟨h.brelse hh .idle rfl trivial, LastOk.of_none ?_⟩
    rw [(brelse_busy (s.setPc p .idle) hbusy).2.2.2.2.2.2.2.1]
    exact hl
  · simp only [Option.some.injEq] at he
    subst he
    exact ⟨h.bsyncRest hh, LastOk.of_none (by rw [bsyncRest_last hbusy, hl])⟩
  · simp only [Option.some.injEq] at he
    subst he
    refine ⟨(h.keep hh).congr rfl rfl rfl rfl rfl rfl rfl, ?_⟩
    intro dev' blk' d e
    simp only [Option.some.injEq, Prod.mk.injEq] at e
    obtain ⟨rfl, rfl, rfl⟩ := e
    have hv := (h.ok b).valid hdone (by simpa using herr)
    rw [hv, cur, ← ht.1, ← ht.2]
    rfl

/-! ## `bget` and what follows it -/

/-- **With the buffer that `bget` returned.** -/
lemma got_spec (h : Inv s) (hl : s.last = none) (hh : Has s p b)
    (hsafe : (s.buf b).delwri = true → k ≠ .aread ∧ (k = .bget ∨ (s.buf b).error = false))
    (ht : dev = (s.buf b).dev ∧ blk = (s.buf b).blk) (he : s.got p b blk dev k = some s') :
    Inv s' ∧ LastOk s' := by
  -- a buffer that is read into has no delayed-write data
  have hread : k ≠ .bget → ¬((s.buf b).done = true ∧ (s.buf b).error = false) →
      (s.buf b).delwri = false := by
    intro hk hn
    by_contra hd
    have hd' : (s.buf b).delwri = true := by simpa using hd
    obtain ⟨-, e | e⟩ := hsafe hd'
    · exact hk e
    · rcases (h.ok b).pending hd' with e' | e'
      · exact hn ⟨e', e⟩
      · rw [hh.queue] at e'
        exact absurd e' (by simp)
  have hcommon : k ≠ .bget → ∀ k', (if (s.buf b).done = true ∧ (s.buf b).error = false
      then s.breadEnd p b blk dev k'
      else some ((s.strat b true true).sleep p b (.read b blk dev k'))) = some s' →
      Inv s' ∧ LastOk s' := by
    intro hk k' he
    split_ifs at he with hd
    · exact breadEnd_spec h hl hh hd.1 ht he
    · simp only [Option.some.injEq] at he
      subst he
      exact ⟨h.readSync hh (hread hk hd) ht, LastOk.of_none hl⟩
  cases k with
  | bget =>
      simp only [got, Option.some.injEq] at he
      subst he
      exact ⟨h.keep hh, LastOk.of_none hl⟩
  | aread =>
      simp only [got, Option.some.injEq] at he
      subst he
      have hd : (s.buf b).delwri = false := by
        by_contra hd
        exact (hsafe (by simpa using hd)).1 rfl
      exact ⟨h.readAsync hh hd, LastOk.of_none hl⟩
  | bread => exact hcommon (by simp) .bread he
  | bsync => exact hcommon (by simp) .bsync he

/-- **The search.** -/
lemma search_spec (h : Inv s) (hl : s.last = none) (hpc : (s.pc p).buf = none)
    (hr : blk < 256 ∧ dev < 256) (hsafe : ¬s.Clobbers blk dev k)
    (he : s.search p blk dev k = some s') : Inv s' ∧ LastOk s' := by
  unfold search at he
  cases hhit : s.hit blk dev with
  | some b =>
      obtain ⟨hb, e1, e2, hlow⟩ := hit_spec hr.1 hr.2 hhit
      rw [hhit] at he
      dsimp only at he
      split_ifs at he with hbusy
      · simp only [Option.some.injEq] at he
        subst he
        exact ⟨h.sleep_loop hpc hr, LastOk.of_none hl⟩
      · have hbusy' : (s.buf b).busy = false := by simpa using hbusy
        have hbuf : (s.block p b).buf b = { s.buf b with busy := true } := Function.update_self ..
        have hi := h.block (p := p) hbusy' hb hpc fun _ c hc e =>
          hlow c hc ⟨e.1.trans e2, e.2.trans e1⟩
        refine got_spec hi hl ⟨Function.update_self .., (h.free hbusy').2, Or.inl hpc⟩ ?_ ?_ he
        · rw [hbuf]
          intro hd
          refine ⟨fun hk => hsafe ⟨b, hhit, hbusy', hd, Or.inl hk⟩, ?_⟩
          by_cases hk : k = .bget
          · exact Or.inl hk
          · right
            by_contra herr
            exact hsafe ⟨b, hhit, hbusy', hd, Or.inr ⟨hk, by simpa using herr⟩⟩
        · rw [hbuf]
          exact ⟨e2.symm, e1.symm⟩
  | none =>
      rw [hhit] at he
      dsimp only at he
      cases hv : s.victim with
      | none =>
          rw [hv] at he
          exact absurd he (by simp)
      | some f =>
          rw [hv] at he
          obtain ⟨hf, hbusy, -⟩ := victim_spec hv
          have hbuf : (s.block p f).buf f = { s.buf f with busy := true } :=
            Function.update_self ..
          have hown : (s.block p f).own f = some p := Function.update_self ..
          have hqu : (s.block p f).queue f = false := (h.free hbusy).2
          dsimp only at he
          split_ifs at he with hd
          · -- a dirty victim is written first
            have hd' : (s.buf f).delwri = true := by rw [hbuf] at hd; exact hd
            have hi := h.block (p := p) hbusy hf hpc fun hp => by
              rw [Buf.Pristine, hd'] at hp
              exact absurd hp.2.1 (by simp)
            simp only [Option.some.injEq] at he
            subst he
            have hst : (s.block p f).store f ((s.block p f).buf f).data = s.block p f := by
              have hv : (fun d k => if d = ((s.block p f).buf f).dev ∧ k = ((s.block p f).buf f).blk
                  then ((s.block p f).buf f).data else (s.block p f).view d k)
                  = (s.block p f).view := by
                funext d k
                split_ifs with hdk
                · rw [hdk.1, hdk.2]
                  exact (hi.ok f).delayed (by rw [hbuf]; exact hd')
                · rfl
              have hu : Function.update (s.block p f).buf f ((s.block p f).buf f)
                  = (s.block p f).buf := Function.update_eq_self ..
              rw [store, hv, modBuf, hu]
            have hw := hi.writeSync ⟨hown, hqu, Or.inl hpc⟩ ((s.block p f).buf f).data
              (.evict f blk dev k) rfl (fun _ _ => hr)
            rw [hst] at hw
            exact ⟨hw, LastOk.of_none hl⟩
          · have hd' : (s.buf f).delwri = false := by
              rw [hbuf] at hd
              simpa using hd
            have hi := h.claim (p := p) hbusy hf hd' hhit hr
            have hbuf' : ((s.block p f).retag f blk dev).buf f
                = { (s.block p f).buf f with blk := blk % 256, dev := dev % 256, done := false } :=
              Function.update_self ..
            refine got_spec hi hl ⟨hown, hqu, Or.inl hpc⟩ ?_ ?_ he
            · rw [hbuf', hbuf]
              intro e
              rw [show (s.buf f).delwri = true from e] at hd'
              exact absurd hd' (by simp)
            · rw [hbuf']
              exact ⟨(Nat.mod_eq_of_lt hr.2).symm, (Nat.mod_eq_of_lt hr.1).symm⟩

/-! ## One step -/

/-- The search looks at the tags only. -/
lemma hit_congr {t : Cache} (hn : t.nbuf = s.nbuf) (ht : ∀ c, (t.buf c).SameTag (s.buf c)) :
    t.hit blk dev = s.hit blk dev := by
  rw [hit, hit, hn]
  congr 1
  funext c
  rw [(ht c).1, (ht c).2]

/-- A process that has been woken goes on. -/
lemma resume_spec (h : Inv s) (hl : s.last = none)
    (hsafe : s.Resumes (s.pc p)) (he : s.resume p = some s') : Inv s' ∧ LastOk s' := by
  have hpc := h.pc p
  unfold resume at he
  cases hk : s.pc p with
  | idle =>
      rw [hk] at he
      exact absurd he (by simp)
  | loop blk dev k =>
      rw [hk] at he hpc hsafe
      exact search_spec h hl (by rw [hk]; rfl) hpc hsafe he
  | evict b blk dev k =>
      have hw : (s.pc p).buf = some b := by rw [hk]; rfl
      rw [hk] at he hpc hsafe
      dsimp only at he
      split_ifs at he with hdone
      · obtain ⟨ho, hq⟩ := h.waits p b hw
        have hd : (s.buf b).delwri = false := by
          rcases hq with hq | hq
          · rw [(h.ok b).undone hq] at hdone
            exact absurd hdone (by simp)
          · exact hq.2
        have hqu : s.queue b = false := by
          by_contra hq'
          rw [(h.ok b).undone (by simpa using hq')] at hdone
          exact absurd hdone (by simp)
        have hh : Has s p b := ⟨ho, hqu, Or.inr hw⟩
        have hbusy := hh.busy h
        obtain ⟨ebuf, -, -, epc, -, -, en, el, -⟩ :=
          brelse_busy (s.setPc p (.loop blk dev k)) hbusy
        set t := (s.setPc p (.loop blk dev k)).brelse b with ht
        have hpt : t.pc p = .loop blk dev k := by
          rw [epc]
          exact Function.update_self ..
        have hself : t.buf b = { s.buf b with busy := false, want := false } := by
          rw [ebuf]
          exact Function.update_self ..
        have hother : ∀ c, c ≠ b → t.buf c = s.buf c := by
          intro c hc
          rw [ebuf, modBuf_ne _ _ hc]
          rfl
        have hhit : t.hit blk dev = s.hit blk dev := hit_congr en fun c => by
          by_cases hc : c = b
          · rw [hc, hself]
            exact ⟨rfl, rfl⟩
          · rw [hother c hc]
            exact ⟨rfl, rfl⟩
        have hno : ¬t.Clobbers blk dev k := by
          rintro ⟨c, hc, hcb, hcd, hck⟩
          by_cases hcb' : c = b
          · subst hcb'
            rw [hself] at hcd
            rw [show (s.buf c).delwri = true from hcd] at hd
            exact absurd hd (by simp)
          · rw [hother c hcb'] at hcb hcd hck
            exact hsafe hdone ⟨c, hhit ▸ hc, hcb, hcd, hck⟩
        exact search_spec (h.brelse hh (.loop blk dev k) rfl hpc) (el.trans hl) (by rw [hpt]; rfl)
          hpc hno he
      · simp only [Option.some.injEq] at he
        subst he
        exact ⟨hk ▸ h.sleep_again, LastOk.of_none hl⟩
  | read b blk dev k =>
      have hw : (s.pc p).buf = some b := by rw [hk]; rfl
      rw [hk] at he hpc
      dsimp only at he
      split_ifs at he with hdone
      · have hqu : s.queue b = false := by
          by_contra hq'
          rw [(h.ok b).undone (by simpa using hq')] at hdone
          exact absurd hdone (by simp)
        exact breadEnd_spec h hl ⟨(h.waits p b hw).1, hqu, Or.inr hw⟩ hdone hpc he
      · simp only [Option.some.injEq] at he
        subst he
        exact ⟨hk ▸ h.sleep_again, LastOk.of_none hl⟩
  | write b =>
      have hw : (s.pc p).buf = some b := by rw [hk]; rfl
      rw [hk] at he
      dsimp only at he
      split_ifs at he with hdone
      · have hqu : s.queue b = false := by
          by_contra hq'
          rw [(h.ok b).undone (by simpa using hq')] at hdone
          exact absurd hdone (by simp)
        have hh : Has s p b := ⟨(h.waits p b hw).1, hqu, Or.inr hw⟩
        have hbusy := hh.busy h
        simp only [Option.some.injEq] at he
        subst he
        refine ⟨h.brelse hh .idle rfl trivial, LastOk.of_none ?_⟩
        rw [(brelse_busy (s.setPc p .idle) hbusy).2.2.2.2.2.2.2.1]
        exact hl
      · simp only [Option.some.injEq] at he
        subst he
        exact ⟨hk ▸ h.sleep_again, LastOk.of_none hl⟩

/-- The holder lets the buffer go. -/
lemma release_spec (h : Inv s) (hl : s.last = none) (hpc : s.pc p = .idle) (hh : Has s p b)
    (r : Release) : Inv (s.release p b r) ∧ LastOk (s.release p b r) := by
  have hbusy := hh.busy h
  have hn : (s.pc p).buf = none := by rw [hpc]; rfl
  cases r with
  | brelse =>
      have hi := h.brelse hh .idle rfl trivial
      rw [setPc_self hpc] at hi
      exact ⟨hi, LastOk.of_none ((brelse_busy s hbusy).2.2.2.2.2.2.2.1.trans hl)⟩
  | bdwrite d =>
      refine ⟨h.bdwrite hh hn d, LastOk.of_none ?_⟩
      rw [release, bdwrite, (brelse_busy _ ?_).2.2.2.2.2.2.2.1]
      · exact hl
      · simpa [store] using hbusy
  | bawrite d => exact ⟨h.bawrite hh hn d, LastOk.of_none hl⟩
  | bwrite d => exact ⟨h.writeSync hh d (.write b) rfl fun _ _ => trivial, LastOk.of_none hl⟩

/-- A completion says nothing of what was read. -/
lemma iodone_last (hl : s.last = none) (err : Option Bytes) : (s.iodone b err).last = none := by
  obtain ⟨-, -, -, -, -, -, -, el, -⟩ := transfer_fields s b err
  unfold Cache.iodone
  set t := (s.transfer b err).modBuf b fun x => { x with done := true, delwri := false } with ht
  dsimp only
  split_ifs
  · exact el.trans hl
  · by_cases hb : (t.buf b).busy = true
    · rw [(brelse_busy t hb).2.2.2.2.2.2.2.1, el, hl]
    · rw [brelse, if_pos (by simpa using hb), el, hl]

/-- **The step lemma.**  A careful step keeps the cache coherent, and a `bread` that returns in it
returns what was most recently released. -/
theorem step_spec {l : Label} (h : Inv s) (hc : Careful s l) (he : s.step l = some s') :
    Inv s' ∧ LastOk s' := by
  -- what the last step returned is forgotten
  set t : Cache := { s with last := none } with ht
  have hi : Inv t := h.congr rfl rfl rfl rfl rfl rfl rfl
  have hl : t.last = none := rfl
  unfold step at he
  rw [← ht] at he
  cases l with
  | call p c =>
      dsimp only at he
      split_ifs at he with hp
      have hn : (t.pc p).buf = none := by rw [hp]; rfl
      obtain ⟨hr, hc⟩ := hc
      cases c with
      | bget blk dev => exact search_spec hi hl hn hr hc he
      | bread blk dev => exact search_spec hi hl hn hr hc he
      | aread blk dev =>
          rw [call] at he
          split_ifs at he
          · simp only [Option.some.injEq] at he
            exact he ▸ ⟨hi, LastOk.of_none hl⟩
          · exact search_spec hi hl hn hr hc he
      | bsync => exact search_spec hi hl hn hr hc he
  | release p b r =>
      dsimp only at he
      split_ifs at he with hp
      simp only [Option.some.injEq] at he
      subst he
      exact release_spec hi hl hp.1 (hi.has hp.2 (by rw [hp.1]; rfl)) r
  | setLock p b v =>
      dsimp only at he
      split_ifs at he with hp
      simp only [Option.some.injEq] at he
      subst he
      exact ⟨hi.setLock v, LastOk.of_none hl⟩
  | run p =>
      dsimp only at he
      split_ifs at he
      exact resume_spec hi hl hc he
  | iodone b err =>
      dsimp only at he
      split_ifs at he with hq
      simp only [Option.some.injEq] at he
      subst he
      exact ⟨hi.iodone hq hc, LastOk.of_none (iodone_last hl err)⟩
  | tick =>
      simp only [Option.some.injEq] at he
      subst he
      exact ⟨hi.congr rfl rfl rfl rfl rfl rfl rfl, LastOk.of_none hl⟩

/-! ## Every run -/

lemma Start.inv (h : Start s) : Inv s := by
  have hcur : ∀ b, s.cur b = s.disk 0 0 := fun b => by
    rw [cur, h.buf, h.view]
    rfl
  have hpr : ∀ b, (s.buf b).Pristine := fun b => by
    rw [h.buf]
    exact ⟨rfl, rfl, rfl⟩
  refine ⟨fun b => ?_, fun _ c _ _ => hpr c, fun c _ => hpr c, fun dev blk _ => by rw [h.view],
    fun p => by rw [h.pc]; trivial, fun p b hw => ?_, fun p b ho => ?_⟩
  · rw [h.buf, h.own, h.queue]
    exact ⟨by simp [freshBuf], by simp, by simp, by simp, by simp, by simp [freshBuf],
      by simp [freshBuf], by simp [freshBuf]⟩
  · rw [h.pc] at hw
    exact absurd hw (by simp [Pc.buf])
  · rw [h.own] at ho
    exact absurd ho (by simp)

/-- Two buffers; block 1 has delayed-write data in one, the other is free.  Process 1 calls `aread`
for block 2 and has to write the first buffer; meanwhile process 2 gets block 2 in the second
buffer and releases it with `bdwrite`. -/
def rereadRun : List Label :=
  [.call 0 (.bget 1 1), .release 0 0 (.bdwrite Bytes.zero), .call 0 (.bget 3 1),
    .release 0 1 .brelse, .call 1 (.aread 2 1), .call 2 (.bget 2 1),
    .release 2 1 (.bdwrite fun _ => 7), .iodone 0 none, .run 1]

end Cache

end Micronix
