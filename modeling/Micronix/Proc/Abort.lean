import Micronix.Proc.Fair
import Micronix.Lib.Transition
import Mathlib.Algebra.Order.BigOperators.Group.Finset

/-!
# Aborted calls

In every state the books are right and every process keeps to the discipline for what it still has
to do.  So a call that a signal ends leaves nothing behind, unless it was waiting for carrier.
-/

namespace Micronix

/-- A `fork` has room for the child. -/
def Trap.roomy : Trap → Bool
  | .fork _ room => room
  | _ => true

/-- `fork` does not make the count of a file wrap, and the inode that `ialloc` takes has no count to
lose. -/
def Task.modest (w : World) (p : ℕ) : Task → Bool
  | .spawn _ _ _ => decide (∀ f < nfile, (w.file f).count.toNat + World.opens (w.olist p) f < 256)
  | .take i _ _ => (w.node i).alloc || (w.node i).count == 0
  | _ => true

namespace Machine

open Finset World

variable {m m' : Machine} {w : World} {p q i n : ℕ} {k : Task} {t : Tally} {l : Label}

/-! ## One process moves -/

/-- The invariant. -/
structure Kept (m : Machine) : Prop where
  booked : Booked m.w
  fair : ∀ p, (m.task p).Fair (m.w.tally p)
  few : ∀ p, (m.w.tally p).owed.length ≤ 2
  own : ∀ i p, m.w.own i = some p → i ∈ (m.w.tally p).held
  turn : ∀ p, m.w.execing = some p → (m.w.tally p).turn = true
  sb : ∀ p, (m.w.tally p).super = true → m.w.sb = some p
  away : ∀ p, (m.w.tally p).away = true → m.w.cdir p = none
  live : ∀ p, m.task p ≠ .done → m.w.live p = true ∧ p < nproc
  mounts : m.w.mounts.length ≤ 8

/-- On the way from `w` to `w'` only process `p` has done something, and its account is `t` now. -/
structure Near (w w' : World) (p : ℕ) (t : Tally) : Prop where
  booked : Booked w'
  mine : w'.tally p = t
  others : ∀ q, q ≠ p → w'.tally q = w.tally q
  own : ∀ i q, w'.own i = some q → (q = p → i ∈ t.held) ∧ (q ≠ p → w.own i = some q)
  turn : ∀ q, w'.execing = some q → (q = p → t.turn = true) ∧ (q ≠ p → w.execing = some q)
  sb : (t.super = true → w'.sb = some p) ∧ ∀ q, q ≠ p → w.sb = some q → w'.sb = some q
  away : t.away = true → w'.cdir p = none
  cdir : ∀ q, q ≠ p → w'.cdir q = w.cdir q ∨ w.live q = false
  alive : ∀ q, q ≠ p → w.live q = true → w'.live q = true
  mounts : w'.mounts = w.mounts

/-- The process goes on. -/
lemma Kept.go (h : Kept m) (hp : p < nproc) (hn : Near m.w w p t) (hk : k.Fair t)
    (hf : t.owed.length ≤ 2) (hl : k ≠ .done → w.live p = true) : Kept (m.go p k w) := by
  have htask : (m.go p k w).task p = k := Function.update_self ..
  have htask' : ∀ q, q ≠ p → (m.go p k w).task q = m.task q := fun q hq =>
    Function.update_of_ne hq ..
  have hcases : ∀ q, q = p ∨ q ≠ p := fun q => eq_or_ne q p
  refine ⟨hn.booked, fun q => ?_, fun q => ?_, fun i q e => ?_, fun q e => ?_, fun q e => ?_,
    fun q e => ?_, fun q hq => ?_, (congrArg List.length hn.mounts).trans_le h.mounts⟩
  · show ((m.go p k w).task q).Fair (w.tally q)
    rcases hcases q with rfl | hq
    · rw [htask, hn.mine]
      exact hk
    · rw [htask' q hq, hn.others q hq]
      exact h.fair q
  · show (w.tally q).owed.length ≤ 2
    rcases hcases q with rfl | hq
    · rwa [hn.mine]
    · rw [hn.others q hq]
      exact h.few q
  · show i ∈ (w.tally q).held
    rcases hcases q with rfl | hq
    · rw [hn.mine]
      exact (hn.own i q e).1 rfl
    · rw [hn.others q hq]
      exact h.own i q ((hn.own i q e).2 hq)
  · show (w.tally q).turn = true
    rcases hcases q with rfl | hq
    · rw [hn.mine]
      exact (hn.turn q e).1 rfl
    · rw [hn.others q hq]
      exact h.turn q ((hn.turn q e).2 hq)
  · show w.sb = some q
    replace e : (w.tally q).super = true := e
    rcases hcases q with rfl | hq
    · rw [hn.mine] at e
      exact hn.sb.1 e
    · rw [hn.others q hq] at e
      exact hn.sb.2 q hq (h.sb q e)
  · show w.cdir q = none
    replace e : (w.tally q).away = true := e
    rcases hcases q with rfl | hq
    · rw [hn.mine] at e
      exact hn.away e
    · rw [hn.others q hq] at e
      rcases hn.cdir q hq with hc | hc
      · rw [hc]
        exact h.away q e
      · -- a slot of the process table that is not in use has nothing to make good
        have hdone : m.task q = .done := by
          by_contra hne
          simp [(h.live q hne).1] at hc
        have hclear := h.fair q
        rw [hdone] at hclear
        rw [show m.w.tally q = .clear from hclear] at e
        exact absurd e (by simp [Tally.clear])
  · show w.live q = true ∧ q < nproc
    rcases hcases q with rfl | hne
    · rw [htask] at hq
      exact ⟨hl hq, hp⟩
    · rw [htask' q hne] at hq
      exact ⟨hn.alive q hne (h.live q hq).1, (h.live q hq).2⟩

/-! ## Who has what -/

/-- The tables but for the counts are as they were. -/
structure Same (w u : World) : Prop where
  tally : u.tally = w.tally
  own : u.own = w.own
  execing : u.execing = w.execing
  sb : u.sb = w.sb
  cdir : u.cdir = w.cdir
  live : u.live = w.live
  mounts : u.mounts = w.mounts

/-- The process has as much of everything else as before. -/
structure Mild (F : Tally → Tally) (t : Tally) : Prop where
  turn : (F t).turn = t.turn
  super : (F t).super = t.super
  away : (F t).away = t.away

variable {u : World} {F : Tally → Tally}

/-- What the process has locked, it has in its account as before. -/
lemma Kept.near (h : Kept m) (hu : Same m.w u) (he : Booked (u.note p F))
    (hheld : (F (m.w.tally p)).held = (m.w.tally p).held) (hm : Mild F (m.w.tally p)) :
    Near m.w (u.note p F) p (F (m.w.tally p)) := by
  refine ⟨he, ?_, fun q hq => ?_, fun i q e => ?_, fun q e => ?_, ⟨fun e => ?_, fun q _ e => ?_⟩,
    fun e => ?_, fun q _ => Or.inl ?_, fun q _ e => ?_, hu.mounts⟩
  · rw [note_self, hu.tally]
  · rw [note_ne _ hq, hu.tally]
  · replace e : m.w.own i = some q := by rwa [← hu.own]
    refine ⟨?_, fun _ => e⟩
    rintro rfl
    rw [hheld]
    exact h.own i q e
  · replace e : m.w.execing = some q := by rwa [← hu.execing]
    refine ⟨?_, fun _ => e⟩
    rintro rfl
    rw [hm.turn]
    exact h.turn q e
  · show u.sb = some p
    rw [hu.sb]
    exact h.sb p (hm.super ▸ e)
  · show u.sb = some q
    rwa [hu.sb]
  · rw [hm.away] at e
    show u.cdir p = none
    rw [hu.cdir]
    exact h.away p e
  · exact congrFun hu.cdir q
  · show u.live q = true
    rwa [hu.live]

/-- Neither its account. -/
lemma Kept.near_same (h : Kept m) (hu : Same m.w u) (he : Booked u) : Near m.w u p (m.w.tally p) :=
  ⟨he, congrFun hu.tally p, fun q _ => congrFun hu.tally q,
    fun i q e => ⟨by rintro rfl; exact h.own i q (hu.own ▸ e), fun _ => hu.own ▸ e⟩,
    fun q e => ⟨by rintro rfl; exact h.turn q (hu.execing ▸ e), fun _ => hu.execing ▸ e⟩,
    ⟨fun e => hu.sb ▸ h.sb p e, fun q _ e => hu.sb ▸ e⟩,
    fun e => hu.cdir ▸ h.away p e, fun q _ => Or.inl (congrFun hu.cdir q),
    fun q _ e => hu.live ▸ e, hu.mounts⟩

/-- It releases an inode. -/
lemma Kept.near_irelse (h : Kept m) (hu : Same m.w u) (i : ℕ)
    (he : Booked ((u.setOwn i none).note p F))
    (hheld : (F (m.w.tally p)).held = (m.w.tally p).held.erase i) (hm : Mild F (m.w.tally p)) :
    Near m.w ((u.setOwn i none).note p F) p (F (m.w.tally p)) := by
  refine ⟨he, ?_, fun q hq => ?_, fun j q e => ?_, fun q e => ?_, ⟨fun e => ?_, fun q _ e => ?_⟩,
    fun e => ?_, fun q _ => Or.inl ?_, fun q _ e => ?_, hu.mounts⟩
  · rw [note_self]
    exact congrArg F (congrFun hu.tally p)
  · rw [note_ne _ hq]
    exact congrFun hu.tally q
  · replace e : Function.update u.own i none j = some q := e
    by_cases hj : j = i
    · subst hj
      simp at e
    · rw [Function.update_of_ne hj, hu.own] at e
      refine ⟨?_, fun _ => e⟩
      rintro rfl
      rw [hheld]
      exact (List.mem_erase_of_ne hj).mpr (h.own j q e)
  · replace e : m.w.execing = some q := by
      rw [← hu.execing]
      exact e
    refine ⟨?_, fun _ => e⟩
    rintro rfl
    rw [hm.turn]
    exact h.turn q e
  · show u.sb = some p
    rw [hu.sb]
    exact h.sb p (hm.super ▸ e)
  · show u.sb = some q
    rwa [hu.sb]
  · rw [hm.away] at e
    show u.cdir p = none
    rw [hu.cdir]
    exact h.away p e
  · exact congrFun hu.cdir q
  · show u.live q = true
    rwa [hu.live]

/-- It locks an inode. -/
lemma Kept.near_lock (h : Kept m) (hu : Same m.w u) (i : ℕ)
    (he : Booked ((u.setOwn i (some p)).note p F))
    (hheld : (F (m.w.tally p)).held = i :: (m.w.tally p).held) (hm : Mild F (m.w.tally p)) :
    Near m.w ((u.setOwn i (some p)).note p F) p (F (m.w.tally p)) := by
  refine ⟨he, ?_, fun q hq => ?_, fun j q e => ?_, fun q e => ?_, ⟨fun e => ?_, fun q _ e => ?_⟩,
    fun e => ?_, fun q _ => Or.inl ?_, fun q _ e => ?_, hu.mounts⟩
  · rw [note_self]
    exact congrArg F (congrFun hu.tally p)
  · rw [note_ne _ hq]
    exact congrFun hu.tally q
  · replace e : Function.update u.own i (some p) j = some q := e
    by_cases hj : j = i
    · subst hj
      obtain rfl : p = q := by simpa using e
      exact ⟨fun _ => hheld ▸ List.mem_cons_self, fun hq => absurd rfl hq⟩
    · rw [Function.update_of_ne hj, hu.own] at e
      refine ⟨?_, fun _ => e⟩
      rintro rfl
      rw [hheld]
      exact List.mem_cons_of_mem _ (h.own j q e)
  · replace e : m.w.execing = some q := by
      rw [← hu.execing]
      exact e
    refine ⟨?_, fun _ => e⟩
    rintro rfl
    rw [hm.turn]
    exact h.turn q e
  · show u.sb = some p
    rw [hu.sb]
    exact h.sb p (hm.super ▸ e)
  · show u.sb = some q
    rwa [hu.sb]
  · rw [hm.away] at e
    show u.cdir p = none
    rw [hu.cdir]
    exact h.away p e
  · exact congrFun hu.cdir q
  · show u.live q = true
    rwa [hu.live]

lemma Same.refl (w : World) : Same w w := ⟨rfl, rfl, rfl, rfl, rfl, rfl, rfl⟩

/-! ## Steps -/

/-- What a run must keep to; no call is aborted while it waits for carrier. -/
def Honest (m : Machine) : Label → Prop
  | .start _ c => c.roomy = true
  | .exec p _ => (m.task p).modest m.w p = true
  | .abort p => (asleep (m.task p)).map Prod.fst ≠ some .mstate

instance (m : Machine) : ∀ l, Decidable (Honest m l)
  | .start _ c => inferInstanceAs (Decidable (c.roomy = true))
  | .exec p _ => inferInstanceAs (Decidable ((m.task p).modest m.w p = true))
  | .abort p => inferInstanceAs (Decidable ((asleep (m.task p)).map Prod.fst ≠ some .mstate))

/-- A change of the tables that does not sleep. -/
lemma Kept.act {d : Deed} (h : Kept m) (hp : p < nproc) (hl : m.w.live p = true)
    (ho : d.Ok (m.w.tally p)) :
    Near m.w (d.run p m.w) p (d.tally (m.w.tally p)) ∧ (d.tally (m.w.tally p)).owed.length ≤ 2 ∧
      (d ≠ .quit → (d.run p m.w).live p = true) := by
  have hfew := h.few p
  cases d with
  | ref i =>
      refine ⟨h.near ⟨rfl, rfl, rfl, rfl, rfl, rfl, rfl⟩ (h.booked.owe hp rfl rfl) rfl
        ⟨rfl, rfl, rfl⟩, ?_, fun _ => hl⟩
      exact Nat.succ_le_succ ho
  | unref i =>
      refine ⟨h.near ⟨rfl, rfl, rfl, rfl, rfl, rfl, rfl⟩ (h.booked.pay hp ho rfl rfl) rfl
        ⟨rfl, rfl, rfl⟩, ?_, fun _ => hl⟩
      exact (List.length_erase_le).trans hfew
  | irelse i =>
      exact ⟨h.near_irelse (.refl _) i ((h.booked.setOwn i none).note rfl rfl) rfl ⟨rfl, rfl, rfl⟩, hfew,
        fun _ => hl⟩
  | enter i =>
      have hc : m.w.cdir p = none := h.away p ho
      refine ⟨⟨(h.booked.enter hp hc i).note rfl rfl, note_self _, fun q hq => note_ne _ hq,
        fun j q e => ⟨?_, fun _ => e⟩, fun q e => ⟨?_, fun _ => e⟩, ⟨h.sb p, fun _ _ e => e⟩, ?_,
        fun q hq => Or.inl (Function.update_of_ne hq ..), fun _ _ e => e, rfl⟩, hfew, fun _ => hl⟩
      · rintro rfl
        exact h.own j q e
      · rintro rfl
        exact h.turn q e
      · exact fun e => absurd e (by simp [Deed.tally])
  | quit =>
      refine ⟨⟨(h.booked.quit hp).note rfl rfl, note_self _, fun q hq => note_ne _ hq,
        fun i q e => ⟨?_, fun _ => e⟩, fun q e => ⟨?_, fun _ => e⟩, ⟨h.sb p, fun _ _ e => e⟩,
        fun _ => Function.update_self .., fun q hq => Or.inl (Function.update_of_ne hq ..),
        fun q hq e => (Function.update_of_ne hq ..).trans e, rfl⟩, hfew, fun hne => absurd rfl hne⟩
      · rintro rfl
        exact h.own i q e
      · rintro rfl
        exact h.turn q e
  | unspawn child => exact absurd ho (fun h => h)
  | unlink i =>
      have he : Booked (m.w.modNode i fun x => { x with nlink := x.nlink - 1 }) :=
        h.booked.modNode fun _ => rfl
      exact ⟨h.near ⟨rfl, rfl, rfl, rfl, rfl, rfl, rfl⟩ (he.note rfl rfl) rfl ⟨rfl, rfl, rfl⟩,
        hfew, fun _ => hl⟩
  | mklink i =>
      have he : Booked (m.w.modNode i fun x => { x with nlink := 1 }) :=
        h.booked.modNode fun _ => rfl
      exact ⟨h.near ⟨rfl, rfl, rfl, rfl, rfl, rfl, rfl⟩ (he.note rfl rfl) rfl ⟨rfl, rfl, rfl⟩,
        hfew, fun _ => hl⟩
  | putsb =>
      have he : Booked (Deed.putsb.effect p m.w) :=
        h.booked.congr (fun _ => rfl) rfl rfl rfl rfl (fun _ => rfl) fun _ => rfl
      have hsb := h.sb p ho.1
      refine ⟨⟨he.note rfl rfl, note_self _, fun q hq => note_ne _ hq, fun i q e => ⟨?_, fun _ => e⟩,
        fun q e => ⟨?_, fun _ => e⟩, ⟨fun e => absurd e (by simp [Deed.tally]), fun q hq e => ?_⟩,
        h.away p, fun _ _ => Or.inl rfl, fun _ _ e => e, rfl⟩, hfew, fun _ => hl⟩
      · rintro rfl
        exact h.own i q e
      · rintro rfl
        exact h.turn q e
      · exact absurd (Option.some.inj (hsb.symm.trans e)).symm hq
  | takeTurn =>
      have he : Booked (Deed.takeTurn.effect p m.w) :=
        h.booked.congr (fun _ => rfl) rfl rfl rfl rfl (fun _ => rfl) fun _ => rfl
      refine ⟨⟨he.note rfl rfl, note_self _, fun q hq => note_ne _ hq, fun i q e => ⟨?_, fun _ => e⟩,
        fun q e => ⟨fun _ => rfl, fun hq => absurd (Option.some.inj e).symm hq⟩,
        ⟨h.sb p, fun _ _ e => e⟩, h.away p, fun _ _ => Or.inl rfl, fun _ _ e => e, rfl⟩, hfew, fun _ => hl⟩
      rintro rfl
      exact h.own i q e
  | giveTurn =>
      have he : Booked (Deed.giveTurn.effect p m.w) :=
        h.booked.congr (fun _ => rfl) rfl rfl rfl rfl (fun _ => rfl) fun _ => rfl
      refine ⟨⟨he.note rfl rfl, note_self _, fun q hq => note_ne _ hq, fun i q e => ⟨?_, fun _ => e⟩,
        fun q e => absurd e (Option.some_ne_none q).symm, ⟨h.sb p, fun _ _ e => e⟩, h.away p,
        fun _ _ => Or.inl rfl, fun _ _ e => e, rfl⟩, hfew, fun _ => hl⟩
      rintro rfl
      exact h.own i q e
  | bget n | brelse n =>
      exact ⟨h.near (.refl _) (h.booked.note rfl rfl) rfl ⟨rfl, rfl, rfl⟩, hfew, fun _ => hl⟩

/-- `fork` with a free slot in the process table. -/
lemma Kept.spawn {child : ℕ} (h : Kept m) (hp : p < nproc) (hl : m.w.live p = true)
    (hfree : m.w.Free child)
    (hwrap : ∀ f < nfile, (m.w.file f).count.toNat + opens (m.w.olist p) f < 256) :
    Near m.w (m.w.spawn p child) p (m.w.tally p) ∧ (m.w.spawn p child).live p = true := by
  have hne : p ≠ child := by
    rintro rfl
    exact absurd hfree.2.1 (by simp [hl])
  refine ⟨⟨h.booked.spawn hp hfree (h.booked.wrap hp hwrap), rfl, fun _ _ => rfl,
    fun i q e => ⟨?_, fun _ => e⟩,
    fun q e => ⟨?_, fun _ => e⟩, ⟨h.sb p, fun _ _ e => e⟩,
    fun e => (Function.update_of_ne hne ..).trans (h.away p e),
    fun q _ => ?_, fun q _ e => ?_, rfl⟩, (Function.update_of_ne hne ..).trans hl⟩
  · rintro rfl
    exact h.own i q e
  · rintro rfl
    exact h.turn q e
  · by_cases hc : q = child
    · exact Or.inr (hc ▸ hfree.2.1)
    · exact Or.inl (Function.update_of_ne hc ..)
  · by_cases hc : q = child
    · subst hc
      exact Function.update_self ..
    · exact (Function.update_of_ne hc ..).trans e

/-- `u.cdir->count--` when a new current directory is to follow. -/
lemma Kept.leave {c : ℕ} (h : Kept m) (hp : p < nproc) (hc : m.w.cdir p = some c) :
    Near m.w (m.w.leave p c) p { (m.w.tally p).charge c with away := true } := by
  refine ⟨(h.booked.away hp hc).note rfl rfl, note_self _, fun q hq => note_ne _ hq,
    fun i q e => ⟨?_, fun _ => e⟩, fun q e => ⟨?_, fun _ => e⟩, ⟨h.sb p, fun _ _ e => e⟩,
    fun _ => Function.update_self .., fun q hq => Or.inl (Function.update_of_ne hq ..), fun _ _ e => e, rfl⟩
  · rintro rfl
    exact h.own i q e
  · rintro rfl
    exact h.turn q e

/-- `getsb(dev)` of a superblock that is not busy. -/
lemma Kept.getsb (h : Kept m) (hsb : m.w.sb = none) :
    Near m.w (m.w.getsb p) p { m.w.tally p with super := true } := by
  have he : Booked { m.w with sb := some p } :=
    h.booked.congr (fun _ => rfl) rfl rfl rfl rfl (fun _ => rfl) fun _ => rfl
  refine ⟨he.note rfl rfl, note_self _, fun q hq => note_ne _ hq, fun i q e => ⟨?_, fun _ => e⟩,
    fun q e => ⟨?_, fun _ => e⟩, ⟨fun _ => rfl, fun q _ e => ?_⟩, h.away p, fun _ _ => Or.inl rfl,
    fun _ _ e => e, rfl⟩
  · rintro rfl
    exact h.own i q e
  · rintro rfl
    exact h.turn q e
  · rw [hsb] at e
    exact absurd e (by simp)

/-- **One step of a process.** -/
lemma Kept.exec (h : Kept m) (hok : Honest m (.exec p n)) (he : m.exec p n (m.task p) = some m') :
    Kept m' := by
  have hf := h.fair p
  have hfew := h.few p
  have hlive := h.live p
  have hrefl : Near m.w m.w p (m.w.tally p) := h.near_same (.refl _) h.booked
  simp only [Honest] at hok
  generalize hk : m.task p = k at *
  have hstay : Kept m.stay := ⟨h.booked, h.fair, h.few, h.own, h.turn, h.sb, h.away, h.live, h.mounts⟩
  cases k with
  | done => exact absurd he (by simp [Machine.exec])
  | act d k =>
      obtain ⟨hl, hp⟩ := hlive (by simp)
      obtain ⟨ho, hq, hk'⟩ := hf
      obtain rfl := Option.some.inj he
      obtain ⟨hn, hfew', hl'⟩ := h.act hp hl ho
      exact h.go hp hn hk' hfew' fun hne => hl' fun e => hne (hq e)
  | look f k =>
      obtain ⟨hl, hp⟩ := hlive (by simp)
      obtain rfl := Option.some.inj he
      exact h.go hp hrefl (hf _) hfew fun _ => hl
  | choose k =>
      obtain ⟨hl, hp⟩ := hlive (by simp)
      obtain rfl := Option.some.inj he
      exact h.go hp hrefl (hf n) hfew fun _ => hl
  | ilock i k =>
      obtain ⟨hl, hp⟩ := hlive (by simp)
      obtain ⟨ho, hk'⟩ := hf
      simp only [Machine.exec] at he
      split_ifs at he
      · obtain rfl := Option.some.inj he
        exact h.go hp (h.near_lock (.refl _) i ((h.booked.setOwn i _).note rfl rfl) rfl ⟨rfl, rfl, rfl⟩) hk'
          hfew fun _ => hl
      · obtain rfl := Option.some.inj he
        refine h.go hp
          (h.near ⟨rfl, rfl, rfl, rfl, rfl, rfl, rfl⟩ (h.booked.owe hp rfl rfl) rfl ⟨rfl, rfl, rfl⟩)
          ⟨List.mem_cons_self, ?_⟩ (Nat.succ_le_succ ho) fun _ => hl
        rw [show ((fun t : Tally => t.owe i) (m.w.tally p)).pay i = m.w.tally p from Task.owe_pay]
        exact hk'
  | relock i k =>
      obtain ⟨hl, hp⟩ := hlive (by simp)
      obtain ⟨ho, hk'⟩ := hf
      simp only [Machine.exec] at he
      split_ifs at he
      · obtain rfl := Option.some.inj he
        have hb : Booked ((m.w.lower i).note p fun t => (t.pay i).lock i) :=
          h.booked.pay hp ho rfl rfl
        exact h.go hp (h.near_lock (u := m.w.lower i) ⟨rfl, rfl, rfl, rfl, rfl, rfl, rfl⟩ i
          (hb.setOwn i (some p)) rfl ⟨rfl, rfl, rfl⟩) hk' ((List.length_erase_le).trans hfew) fun _ => hl
      · obtain rfl := Option.some.inj he
        exact hstay
  | sleep e pri k =>
      obtain ⟨hl, hp⟩ := hlive (by simp)
      obtain rfl := Option.some.inj he
      exact h.go hp hrefl hf.2 hfew fun _ => hl
  | await e pri f k =>
      obtain ⟨hl, hp⟩ := hlive (by simp)
      simp only [Machine.exec] at he
      split_ifs at he
      · obtain rfl := Option.some.inj he
        exact h.go hp hrefl hf.2 hfew fun _ => hl
      · obtain rfl := Option.some.inj he
        exact hstay
  | fopen i k =>
      obtain ⟨hl, hp⟩ := hlive (by simp)
      obtain rfl := Option.some.inj he
      have hs : Same m.w (m.w.fopen p i) := by
        unfold World.fopen
        split
        · exact ⟨rfl, rfl, rfl, rfl, rfl, rfl, rfl⟩
        · exact .refl _
      exact h.go hp (h.near_same hs (h.booked.fopen hp i)) hf hfew fun _ => hs.live ▸ hl
  | unslot fd k =>
      obtain ⟨hl, hp⟩ := hlive (by simp)
      simp only [Machine.exec] at he
      split at he
      · obtain rfl := Option.some.inj he
        exact h.go hp hrefl hf.1 hfew fun _ => hl
      · rename_i f ho
        obtain rfl := Option.some.inj he
        split_ifs at ho with hfd
        exact h.go hp (h.near (u := m.w.setSlot p fd none) ⟨rfl, rfl, rfl, rfl, rfl, rfl, rfl⟩
          (h.booked.unslot hp hfd ho) rfl ⟨rfl, rfl, rfl⟩) (hf.2 f) hfew fun _ => hl
  | drop f last k =>
      obtain ⟨hl, hp⟩ := hlive (by simp)
      obtain ⟨hm, ho, hk', hlast⟩ := hf
      have hb := h.booked.drop hp hm
      have hn : Near m.w (m.w.drop p f) p (if (m.w.file f).count - 1 = 0 then
          ((m.w.tally p).fpay f).owe (m.w.file f).inode else (m.w.tally p).fpay f) := by
        refine h.near (u := m.w.setFile f ⟨(m.w.file f).count - 1, (m.w.file f).inode⟩)
          (F := fun t => if (m.w.file f).count - 1 = 0 then (t.fpay f).owe (m.w.file f).inode
            else t.fpay f) ⟨rfl, rfl, rfl, rfl, rfl, rfl, rfl⟩ hb ?_ ⟨?_, ?_, ?_⟩
        all_goals split_ifs <;> rfl
      simp only [Machine.exec] at he
      split_ifs at he with h0
      · obtain rfl := Option.some.inj he
        refine h.go hp hn ?_ ?_ fun _ => hl
        · rw [if_pos h0]
          exact hlast _
        · rw [if_pos h0]
          exact Nat.succ_le_succ ho
      · obtain rfl := Option.some.inj he
        refine h.go hp hn ?_ ?_ fun _ => hl
        · rw [if_neg h0]
          exact hk'
        · rw [if_neg h0]
          exact hfew
  | release i last k =>
      obtain ⟨hl, hp⟩ := hlive (by simp)
      obtain ⟨hm, hk', hlast⟩ := hf
      have hb : Booked (m.w.release p i) := by
        refine h.booked.pay hp hm ?_ ?_
        all_goals split_ifs <;> rfl
      have hn : Near m.w (m.w.release p i) p (if (m.w.node i).count - 1 = 0 then
          ((m.w.tally p).pay i).charge i else (m.w.tally p).pay i) := by
        refine h.near (u := m.w.lower i) (F := fun t => if (m.w.node i).count - 1 = 0 then
          (t.pay i).charge i else t.pay i) ⟨rfl, rfl, rfl, rfl, rfl, rfl, rfl⟩ hb ?_ ⟨?_, ?_, ?_⟩
        all_goals split_ifs <;> rfl
      have hle : ((m.w.tally p).owed.erase i).length ≤ 2 := (List.length_erase_le).trans hfew
      simp only [Machine.exec] at he
      split_ifs at he with h0
      · obtain rfl := Option.some.inj he
        refine h.go hp hn ?_ ?_ fun _ => hl
        · rw [if_pos h0]
          exact hlast
        · rw [if_pos h0]
          exact hle
      · obtain rfl := Option.some.inj he
        refine h.go hp hn ?_ ?_ fun _ => hl
        · rw [if_neg h0]
          exact hk'
        · rw [if_neg h0]
          exact hle
  | getsb k =>
      obtain ⟨hl, hp⟩ := hlive (by simp)
      simp only [Machine.exec] at he
      split_ifs at he with hsb
      · obtain rfl := Option.some.inj he
        exact h.go hp (h.getsb hsb) hf hfew fun _ => hl
      · obtain rfl := Option.some.inj he
        exact hstay
  | take i used k =>
      obtain ⟨hl, hp⟩ := hlive (by simp)
      obtain ⟨-, hused, hk'⟩ := hf
      simp only [Machine.exec] at he
      split_ifs at he with ha
      · obtain rfl := Option.some.inj he
        exact h.go hp hrefl hused hfew fun _ => hl
      · obtain rfl := Option.some.inj he
        have h0 : (m.w.node i).count = 0 := by simpa [Task.modest, ha] using hok
        exact h.go hp (h.near_same ⟨rfl, rfl, rfl, rfl, rfl, rfl, rfl⟩ (h.booked.take h0)) hk' hfew
          fun _ => hl
  | leave k =>
      obtain ⟨hl, hp⟩ := hlive (by simp)
      simp only [Machine.exec] at he
      split at he
      · simp at he
      · rename_i c hc
        obtain rfl := Option.some.inj he
        exact h.go hp (h.leave hp hc) (hf c) hfew fun _ => hl
  | spawn child full k =>
      obtain ⟨hl, hp⟩ := hlive (by simp)
      simp only [Machine.exec] at he
      split_ifs at he with hfree
      · obtain rfl := Option.some.inj he
        obtain ⟨hn, hl'⟩ := h.spawn hp hl hfree (of_decide_eq_true hok)
        exact h.go hp hn hf.2 hfew fun _ => hl'
      · obtain rfl := Option.some.inj he
        exact h.go hp hrefl hf.1 hfew fun _ => hl
  | idec i k =>
      obtain ⟨hl, hp⟩ := hlive (by simp)
      obtain ⟨hfr, hk'⟩ := hf
      simp only [Machine.exec] at he
      split_ifs at he
      · obtain rfl := Option.some.inj he
        refine h.go hp (h.near (.refl _) (h.booked.note rfl rfl) rfl ⟨rfl, rfl, rfl⟩) ⟨rfl, ?_⟩ hfew
          fun _ => hl
        have : { (({ m.w.tally p with freeing := some i } : Tally).unlock i).discharge i with
            freeing := none } = ((m.w.tally p).unlock i).discharge i := by
          rw [← hfr]
          rfl
        rw [this]
        exact hk'
      · obtain rfl := Option.some.inj he
        exact h.go hp (h.near_irelse (.refl _) i ((h.booked.setOwn i none).note rfl rfl) rfl
          ⟨rfl, rfl, rfl⟩) hk' hfew fun _ => hl
  | freeing i k =>
      obtain ⟨hl, hp⟩ := hlive (by simp)
      obtain rfl := Option.some.inj he
      have hb : Booked (m.w.modNode i fun x => { x with alloc := false, nlink := 0 }) :=
        h.booked.modNode fun _ => rfl
      exact h.go hp (h.near_irelse
        (u := m.w.modNode i fun x => { x with alloc := false, nlink := 0 })
        ⟨rfl, rfl, rfl, rfl, rfl, rfl, rfl⟩ i ((hb.setOwn i none).note rfl rfl) rfl
        ⟨rfl, rfl, rfl⟩) hf.2 hfew fun _ => hl

lemma fair_of_roomy {c : Trap} (h : c.roomy = true) : c.task.Fair .clear :=
  c.fair (by rintro child rfl; exact absurd h (by simp [Trap.roomy]))

/-- Where a call can be aborted it has nothing to make good, or it waits for carrier and has. -/
lemma Kept.calm (h : Kept m) {e : Event} {pri : ℕ} (hs : asleep (m.task p) = some (e, pri))
    (hpri : pri < sigPri) : if e = .mstate then (m.w.tally p).owed ≠ [] else m.w.tally p = .clear := by
  have hf := h.fair p
  generalize m.task p = k at *
  cases k with
  | sleep e' pri' k | await e' pri' f k =>
      obtain ⟨rfl, rfl⟩ : e' = e ∧ pri' = pri := by simpa [asleep] using hs
      exact hf.1 hpri
  | relock i k =>
      obtain ⟨rfl, rfl⟩ : Event.inode = e ∧ priNod = pri := by simpa [asleep] using hs
      exact absurd hpri (by decide)
  | freeing i k | getsb k =>
      obtain ⟨rfl, rfl⟩ : Event.buf = e ∧ priBio = pri := by simpa [asleep] using hs
      exact absurd hpri (by decide)
  | _ => simp [asleep] at hs

/-- **One step.** -/
lemma Kept.step (h : Kept m) (hok : Honest m l) (he : step m l = some m') : Kept m' := by
  cases l with
  | start p c =>
      simp only [Machine.step] at he
      split at he
      · rename_i hdone
        split_ifs at he with hc
        obtain rfl := Option.some.inj he
        have hclear := h.fair p
        rw [hdone] at hclear
        have hk : c.task.Fair (m.w.tally p) := by
          rw [show m.w.tally p = .clear from hclear]
          exact fair_of_roomy hok
        exact h.go hc.2.1 (h.near_same (.refl _) h.booked) hk (h.few p) fun _ => hc.2.2
      · simp at he
  | exec p n =>
      simp only [Machine.step] at he
      split_ifs at he
      exact h.exec hok he
  | abort p =>
      simp only [Machine.step] at he
      split at he
      · rename_i e pri hs
        split_ifs at he with hc
        obtain rfl := Option.some.inj he
        have hcalm := h.calm hs hc.2
        rw [if_neg fun hm => hok (by rw [hs, hm]; rfl)] at hcalm
        refine ⟨h.booked, fun q => ?_, h.few, h.own, h.turn, h.sb, h.away, fun q hq => ?_,
          h.mounts⟩
        · by_cases hq : q = p
          · subst hq
            simp only [Function.update_self]
            exact hcalm
          · simp only [Function.update_of_ne hq]
            exact h.fair q
        · by_cases hqp : q = p
          · subst hqp
            simp at hq
          · simp only [Function.update_of_ne hqp] at hq
            exact h.live q hq
      · simp at he

/-- The system when no call is in progress. -/
structure Boot (m : Machine) : Prop where
  booked : Booked m.w
  tally : ∀ p, m.w.tally p = .clear
  own : ∀ i, m.w.own i = none
  sb : m.w.sb = none
  execing : m.w.execing = none
  mounts : m.w.mounts.length ≤ 8
  task : ∀ p, m.task p = .done
  turn : m.turn = none

lemma Boot.kept (h : Boot m) : Kept m where
  booked := h.booked
  fair p := by
    rw [h.task p]
    exact h.tally p
  few p := by simp [h.tally p, Tally.clear]
  own i p e := by simp [h.own i] at e
  turn p e := by simp [h.execing] at e
  sb p e := by simp [h.tally p, Tally.clear] at e
  away p e := by simp [h.tally p, Tally.clear] at e
  live p hp := absurd (h.task p) hp
  mounts := h.mounts

/-! ## The sums are small -/

lemma sum_le_range {s : ℕ → ℕ} {n c : ℕ} (h : ∀ x, s x ≤ c) : ∑ x ∈ range n, s x ≤ n * c := by
  have := Finset.sum_le_card_nsmul (range n) s c fun x _ => h x
  rwa [card_range] at this

/-- The references to an inode, pending ones included, fit in a byte. -/
lemma Kept.total_lt (h : Kept m) (i : ℕ) : m.w.refs i + m.w.pending i < 256 := by
  have h1 : ∑ f ∈ range nfile, names (m.w.file f) i ≤ nfile * 1 := sum_le_range fun f => by
    unfold names
    split_ifs <;> decide
  have h2 : ∑ q ∈ range nproc, at_ (m.w.cdir q) i ≤ nproc * 1 := sum_le_range fun q => by
    unfold at_
    split_ifs <;> decide
  have h3 : m.w.pending i ≤ nproc * 2 := sum_le_range fun q => List.count_le_length.trans (h.few q)
  have h4 : m.w.mounts.count i ≤ 8 := List.count_le_length.trans h.mounts
  have hn : nfile = 60 := by simp [nfile]
  have hp : nproc = 20 := by simp [nproc]
  rw [refs_eq]
  omega

lemma Kept.count_eq (h : Kept m) (i : ℕ) :
    (m.w.node i).count.toNat = m.w.refs i + m.w.pending i := by
  rw [h.booked.inode i, UInt8.toNat_ofNat', Nat.mod_eq_of_lt (h.total_lt i)]

end Machine

namespace World

open Finset

/-- What the other processes have still to take from the count of an inode, or of a file. -/
def pendingBut (w : World) (p i : ℕ) : ℕ := ∑ q ∈ (range nproc).erase p, (w.tally q).owed.count i
def fpendingBut (w : World) (p f : ℕ) : ℕ := ∑ q ∈ (range nproc).erase p, (w.tally q).fowed.count f

variable {w : World} {p : ℕ}

lemma pending_eq (hp : p < nproc) (i : ℕ) :
    w.pending i = (w.tally p).owed.count i + w.pendingBut p i :=
  (Finset.add_sum_erase (range nproc) _ (mem_range.mpr hp)).symm

lemma fpending_eq (hp : p < nproc) (f : ℕ) :
    w.fpending f = (w.tally p).fowed.count f + w.fpendingBut p f :=
  (Finset.add_sum_erase (range nproc) _ (mem_range.mpr hp)).symm

end World

namespace Machine

open World

variable {m m' : Machine} {p : ℕ} {e : Event} {pri : ℕ}

/-- Process `p` has no inode locked, no buffer busy and not the turn in `exec`, and the counts are
those of the references and of what the other processes have still to make good. -/
def LeavesNothing (m : Machine) (p : ℕ) : Prop :=
  (∀ i, m.w.own i ≠ some p) ∧ (m.w.tally p).bufs = 0 ∧ m.w.execing ≠ some p ∧
    (∀ i, (m.w.node i).count.toNat = m.w.refs i + m.w.pendingBut p i) ∧
    ∀ f, (m.w.file f).count.toNat = m.w.slots f + m.w.fpendingBut p f

lemma Kept.leavesNothing (h : Kept m) (hs : asleep (m.task p) = some (e, pri))
    (hpri : pri < sigPri) : LeavesNothing m p ↔ e ≠ .mstate := by
  have hp : p < nproc := by
    refine (h.live p fun hd => ?_).2
    simp [hd, asleep] at hs
  have hcalm := h.calm hs hpri
  constructor
  · rintro ⟨-, -, -, hi, -⟩ he
    rw [if_pos he] at hcalm
    obtain ⟨i, hmem⟩ := List.exists_mem_of_ne_nil _ hcalm
    -- the count of the terminal is too high
    have hpos := List.count_pos_iff.mpr hmem
    have h1 := h.count_eq i
    have h2 := hi i
    rw [pending_eq hp] at h1
    omega
  · intro he
    rw [if_neg he] at hcalm
    refine ⟨fun i hi => ?_, by rw [hcalm]; rfl, fun hx => ?_, fun i => ?_, fun f => ?_⟩
    · have := h.own i p hi
      simp [hcalm, Tally.clear] at this
    · have := h.turn p hx
      simp [hcalm, Tally.clear] at this
    · rw [h.count_eq i, pending_eq hp, hcalm]
      simp [Tally.clear]
    · rw [h.booked.file f, fpending_eq hp, hcalm]
      simp [Tally.clear]

/-- **Aborted calls leave nothing behind**, except for an open that waits for carrier: in every run
in which no such open is aborted, a call that a signal ends, wherever it sleeps, leaves nothing
behind if and only if it was not waiting for carrier. -/
theorem abort_clean (h : Transition.Reach step Boot Honest m)
    (hs : asleep (m.task p) = some (e, pri)) (he : step m (.abort p) = some m') :
    LeavesNothing m' p ↔ e ≠ .mstate := by
  have hk : Kept m := h.invariant (fun _ hb => hb.kept) fun _ _ _ hk hok he => hk.step hok he
  simp only [step, hs] at he
  split_ifs at he with hc
  obtain rfl := Option.some.inj he
  exact hk.leavesNothing hs hc.2

/-- The root directory is inode 1, and no process has it. -/
def bare : World :=
  ⟨fun i => ⟨true, 1, if i = 1 then 1 else 0⟩, fun _ => none, fun _ => ⟨0, 0⟩, fun _ _ => none,
    fun p => p == 1 || p == 2, fun _ => none, [1], none, none, fun _ => .clear⟩

/-- Two processes in the root directory. -/
def small : Machine where
  w := (((bare.raise 1).setCdir 1 (some 1)).raise 1).setCdir 2 (some 1)
  task _ := .done
  turn := none

lemma boot_small : Boot small := by
  have h0 : Booked bare := by
    refine ⟨fun i => ?_, fun f => ?_, fun _ _ => rfl⟩
    · by_cases hi : i = 1
      · subst hi
        simp [refs, pending, Tally.clear, bare]
      · simp [refs, pending, Tally.clear, bare, hi, Ne.symm hi]
    · simp [slots, opens, fpending, Tally.clear, bare]
  have h1 := h0.enter (p := 1) (by simp [nproc]) rfl 1
  exact ⟨h1.enter (p := 2) (by simp [nproc]) rfl 1, fun _ => rfl, fun _ => rfl, rfl, rfl, by decide,
    fun _ => rfl, rfl⟩

/-- Process `p` goes on, and finds `ns` where it chooses. -/
def does (p : ℕ) (ns : List ℕ) : List Label := ns.map (.exec p)

/-- `pause`, which a signal ends. -/
theorem abort_clean_pause : ∃ m m', Transition.Reach step Boot Honest m ∧
    asleep (m.task 1) = some (.pause, priUser) ∧ step m (.abort 1) = some m' ∧
    LeavesNothing m' 1 := by
  have hrun : (Transition.run step Honest small [.start 1 .pause]).map
      (fun m => (asleep (m.task 1), (step m (.abort 1)).isSome))
        = some (some (.pause, priUser), true) := by
    decide +kernel
  obtain ⟨m, hm, he⟩ := Option.map_eq_some_iff.mp hrun
  simp only [Prod.mk.injEq] at he
  obtain ⟨m', he'⟩ := Option.isSome_iff_exists.mp he.2
  have hr := Transition.Reach.of_run boot_small hm
  exact ⟨m, m', hr, he.1, he', (abort_clean hr he.1 he').mpr (by decide)⟩

/-- Process 1 opens a terminal, inode 3, and is aborted while it waits for carrier: the count of the
inode stays at 1, without references. -/
theorem abort_raises_count : ¬∀ m, Transition.Reachable step Boot m → ∀ p m',
    step m (.abort p) = some m' → LeavesNothing m' p := by
  intro h
  have hrun : (Transition.run step Honest small
      (.start 1 (.open 1 1) :: does 1 [0, 1, 1, 0, 1, 0, 0, 4, 0, 0, 0, 1, 0, 0, 0, 1, 2, 0])).map
      (fun m => (asleep (m.task 1), (step m (.abort 1)).isSome))
        = some (some (.mstate, priTti), true) := by
    decide +kernel
  obtain ⟨m, hm, he⟩ := Option.map_eq_some_iff.mp hrun
  simp only [Prod.mk.injEq] at he
  obtain ⟨m', he'⟩ := Option.isSome_iff_exists.mp he.2
  have hr := Transition.Reach.of_run boot_small hm
  have hk : Kept m := hr.invariant (fun _ hb => hb.kept) fun _ _ _ hk hok he => hk.step hok he
  have hl := h m (hr.mono fun _ _ _ => trivial) 1 m' he'
  simp only [step, he.1] at he'
  split_ifs at he' with hc
  obtain rfl := Option.some.inj he'
  exact (hk.leavesNothing he.1 hc.2).mp hl rfl

end Machine

end Micronix
