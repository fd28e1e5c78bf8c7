import Micronix.Proc.Abort

/-!
# Unlinked inodes

An inode without links and references is about to be freed by somebody, or somebody has it locked;
one that is free or being freed has no references.  So when no call is in progress an allocated
inode without links has a reference.

What breaks it: `exit` and the calls that fail let go of an inode without `idec`, a `fork` without
room leaves the counts raised, and the entry of an inode that `unlink` is freeing can still be found.
-/

namespace Micronix

namespace World

/-- An allocated inode that has no links and no count. -/
def Last (w : World) (i : ℕ) : Prop :=
  (w.node i).alloc = true ∧ (w.node i).nlink = 0 ∧ (w.node i).count = 0

/-- A free inode, or one that is being freed. -/
def Gone (w : World) (i : ℕ) : Prop :=
  (w.node i).alloc = false ∨ ∃ q, (w.tally q).freeing = some i

/-- Neither. -/
def Usable (w : World) (i : ℕ) : Prop :=
  (w.node i).alloc = true ∧ ∀ q < nproc, (w.tally q).freeing ≠ some i

/-- Some process has the inode locked or will call `idec` on it. -/
def Kept (w : World) (i : ℕ) : Prop :=
  ∃ q < nproc, i ∈ (w.tally q).duty ∨ i ∈ (w.tally q).held

/-- Taking one from the count does not leave an inode that nobody frees. -/
def Spare (w : World) (i : ℕ) : Prop :=
  ¬((w.node i).alloc = true ∧ (w.node i).nlink = 0 ∧ (w.node i).count = 1) ∨ w.Kept i

instance (w : World) (i : ℕ) : Decidable (w.Last i) := inferInstanceAs (Decidable (_ ∧ _ ∧ _))
instance (w : World) (i : ℕ) : Decidable (w.Usable i) :=
  inferInstanceAs (Decidable (_ ∧ ∀ q < nproc, _))
instance (w : World) (i : ℕ) : Decidable (w.Kept i) :=
  inferInstanceAs (Decidable (∃ q < nproc, _ ∨ _))
instance (w : World) (i : ℕ) : Decidable (w.Spare i) := inferInstanceAs (Decidable (¬_ ∨ _))

end World

/-- What the next thing a process does must keep to.  An inode is locked, referred to and made the
current directory only if it is in use, except by `ialloc`; whoever lets go of an inode without
`idec` is not the last to hold one that has no links; `fork` does not make the count of a file
wrap. -/
def Task.wary (w : World) (p : ℕ) : Task → Bool
  | .ilock i _ => decide (w.Usable i ∨ w.sb = some p)
  | .fopen i _ => decide (w.Usable i)
  | .spawn _ _ _ => decide (∀ f < nfile, (w.file f).count.toNat + World.opens (w.olist p) f < 256)
  | .act d _ =>
      match d with
      | .ref i | .enter i => decide (w.Usable i)
      | .irelse i => decide (¬w.Last i ∨ ∃ q < nproc, i ∈ (w.tally q).duty)
      | .unref i => decide (w.Spare i)
      | .quit => decide (∀ c ∈ w.cdir p, w.Spare c)
      | _ => true
  | _ => true

namespace Machine

open Finset World

variable {m m' : Machine} {w u : World} {F : Tally → Tally} {p q i j n : ℕ} {l : Label}

/-- What a run must keep to; no call is aborted while it waits for carrier. -/
def Wary (m : Machine) : Label → Prop
  | .start _ c => c.roomy = true
  | .exec p _ => (m.task p).wary m.w p = true
  | .abort p => (asleep (m.task p)).map Prod.fst ≠ some .mstate

instance (m : Machine) : ∀ l, Decidable (Wary m l)
  | .start _ c => inferInstanceAs (Decidable (c.roomy = true))
  | .exec p _ => inferInstanceAs (Decidable ((m.task p).wary m.w p = true))
  | .abort p => inferInstanceAs (Decidable ((asleep (m.task p)).map Prod.fst ≠ some .mstate))

/-- A process has the inode locked or will call `idec` on it. -/
def Keeps (t : Tally) (i : ℕ) : Prop := i ∈ t.duty ∨ i ∈ t.held

/-- The invariant. -/
structure Sound (w : World) : Prop where
  last : ∀ i, w.Last i → ∃ q, Keeps (w.tally q) i
  gone : ∀ i, w.Gone i → w.refs i = 0 ∧ ∀ q, i ∈ (w.tally q).owed → w.sb = some q

/-- Nobody outside the process table has anything to make good. -/
lemma Kept.clear_of_le (h : Kept m) (hp : nproc ≤ p) : m.w.tally p = .clear := by
  have hdone : m.task p = .done := by
    by_contra hne
    have := (h.live p hne).2
    omega
  have hf := h.fair p
  rw [hdone] at hf
  exact hf

lemma Kept.not_gone (h : Kept m) (hi : m.w.Usable i) : ¬m.w.Gone i := by
  rintro (ha | ⟨q, hq⟩)
  · simp [hi.1] at ha
  · by_cases hqn : q < nproc
    · exact hi.2 q hqn hq
    · rw [h.clear_of_le (Nat.le_of_not_lt hqn)] at hq
      simp [Tally.clear] at hq

/-- An inode whose count is 0 has no references, pending ones included. -/
lemma Kept.none_of_count (h : Kept m) (hi : (m.w.node i).count = 0) :
    m.w.refs i = 0 ∧ ∀ q, i ∉ (m.w.tally q).owed := by
  have hc := h.count_eq i
  rw [hi, UInt8.toNat_zero] at hc
  refine ⟨by omega, fun q hmem => ?_⟩
  by_cases hq : q < nproc
  · have := pending_eq (w := m.w) hq i
    have := List.count_pos_iff.mpr hmem
    omega
  · rw [h.clear_of_le (Nat.le_of_not_lt hq)] at hmem
    simp [Tally.clear] at hmem

/-! ## Steps -/

/-- What a step of process `p` must do to keep the invariant. -/
lemma Sound.change (h : Sound w) (ht : u.tally = w.tally)
    (hl : ∀ i, u.Last i →
      w.Last i ∧ (Keeps (w.tally p) i → Keeps (F (w.tally p)) i) ∨
        ∃ q, Keeps ((u.note p F).tally q) i)
    (hg : ∀ i, (u.note p F).Gone i →
      w.Gone i ∧ u.refs i ≤ w.refs i ∧
        (i ∈ (F (w.tally p)).owed → i ∈ (w.tally p).owed ∨ u.sb = some p) ∨
      u.refs i = 0 ∧ ∀ q, i ∉ ((u.note p F).tally q).owed)
    (hsb : ∀ q, w.sb = some q → u.sb = some q ∨ q = p ∧ (F (w.tally p)).owed = []) :
    Sound (u.note p F) := by
  have hself : (u.note p F).tally p = F (w.tally p) := by rw [note_self, ht]
  have hothers : ∀ q, q ≠ p → (u.note p F).tally q = w.tally q := fun q hq => by
    rw [note_ne _ hq, ht]
  refine ⟨fun i hi => ?_, fun i hi => ?_⟩
  · rcases hl i hi with ⟨hw, hkeep⟩ | hq
    · obtain ⟨q, hq⟩ := h.last i hw
      by_cases hqp : q = p
      · subst hqp
        exact ⟨q, by rw [hself]; exact hkeep hq⟩
      · exact ⟨q, by rwa [hothers q hqp]⟩
    · exact hq
  · rcases hg i hi with ⟨hw, hr, ho⟩ | ⟨hr, ho⟩
    · obtain ⟨h0, hq⟩ := h.gone i hw
      refine ⟨Nat.le_zero.mp (hr.trans h0.le), fun q hmem => ?_⟩
      have hold : i ∈ (w.tally q).owed → u.sb = some q := fun hmem' => by
        rcases hsb q (hq q hmem') with hs | ⟨rfl, hnil⟩
        · exact hs
        · rw [hself, hnil] at hmem
          exact absurd hmem List.not_mem_nil
      by_cases hqp : q = p
      · subst hqp
        rw [hself] at hmem
        exact (ho hmem).elim hold id
      · rw [hothers q hqp] at hmem
        exact hold hmem
    · exact ⟨hr, fun q hmem => absurd hmem (ho q)⟩

/-- A step that frees nothing, and does not begin to. -/
lemma Sound.tame (h : Sound w) (ht : u.tally = w.tally)
    (hf : (F (w.tally p)).freeing = (w.tally p).freeing)
    (ha : ∀ i, (u.node i).alloc = false → (w.node i).alloc = false)
    (hr : ∀ i, w.Gone i → u.refs i ≤ w.refs i)
    (ho : ∀ i, w.Gone i → i ∈ (F (w.tally p)).owed → i ∈ (w.tally p).owed ∨ u.sb = some p)
    (hl : ∀ i, u.Last i →
      w.Last i ∧ (Keeps (w.tally p) i → Keeps (F (w.tally p)) i) ∨
        ∃ q, Keeps ((u.note p F).tally q) i)
    (hsb : ∀ q, w.sb = some q → u.sb = some q ∨ q = p ∧ (F (w.tally p)).owed = []) :
    Sound (u.note p F) := by
  refine h.change ht hl (fun i hi => ?_) hsb
  have hg : w.Gone i := by
    rcases hi with hi | ⟨q, hq⟩
    · exact Or.inl (ha i hi)
    · refine Or.inr ⟨q, ?_⟩
      by_cases hqp : q = p
      · subst hqp
        rwa [note_self, ht, hf] at hq
      · rwa [note_ne _ hqp, ht] at hq
  exact Or.inl ⟨hg, hr i hg, ho i hg⟩

/-- Neither nodes nor references change; the process has at least as much locked as before, and no
new debt. -/
lemma Sound.calm (h : Sound w) (ht : u.tally = w.tally) (hn : u.node = w.node)
    (hr : ∀ i, u.refs i ≤ w.refs i) (hf : (F (w.tally p)).freeing = (w.tally p).freeing)
    (hk : ∀ i, Keeps (w.tally p) i → Keeps (F (w.tally p)) i)
    (ho : ∀ i, i ∈ (F (w.tally p)).owed → i ∈ (w.tally p).owed)
    (hsb : ∀ q, w.sb = some q → u.sb = some q ∨ q = p ∧ (F (w.tally p)).owed = []) :
    Sound (u.note p F) :=
  h.tame ht hf (fun i e => hn ▸ e) (fun i _ => hr i) (fun i _ hm => Or.inl (ho i hm))
    (fun i hi => Or.inl ⟨by simpa only [Last, hn] using hi, hk i⟩) hsb

/-- One node changes, and stays allocated if it was. -/
lemma Sound.one (h : Sound w) (ht : u.tally = w.tally) (hn : ∀ j, j ≠ i → u.node j = w.node j)
    (ha : (u.node i).alloc = false → (w.node i).alloc = false)
    (hr : ∀ j, w.Gone j → u.refs j ≤ w.refs j) (hf : (F (w.tally p)).freeing = (w.tally p).freeing)
    (hk : ∀ j, j ≠ i → Keeps (w.tally p) j → Keeps (F (w.tally p)) j)
    (ho : ∀ j, w.Gone j → j ∈ (F (w.tally p)).owed → j ∈ (w.tally p).owed ∨ u.sb = some p)
    (hl : u.Last i → ∃ q, Keeps ((u.note p F).tally q) i) (hsb : u.sb = w.sb) :
    Sound (u.note p F) := by
  refine h.tame ht hf (fun j e => ?_) hr ho (fun j hj => ?_) fun q e => Or.inl (hsb ▸ e)
  all_goals by_cases hji : j = i
  · subst hji
    exact ha e
  · rwa [hn j hji] at e
  · subst hji
    exact Or.inr (hl hj)
  · exact Or.inl ⟨by simpa only [Last, hn j hji] using hj, hk j hji⟩

lemma keeps_self (ht : u.tally = w.tally) (h : Keeps (F (w.tally p)) i) :
    ∃ q, Keeps ((u.note p F).tally q) i :=
  ⟨p, by rwa [note_self, ht]⟩

/-- The account of the others does not change, nor what the process keeps. -/
lemma keeps_note (ht : u.tally = w.tally) (hk : Keeps (w.tally p) i → Keeps (F (w.tally p)) i)
    (h : ∃ q, Keeps (w.tally q) i) : ∃ q, Keeps ((u.note p F).tally q) i := by
  obtain ⟨q, hq⟩ := h
  by_cases hqp : q = p
  · subst hqp
    exact keeps_self ht (hk hq)
  · exact ⟨q, by rwa [note_ne _ hqp, ht]⟩

lemma sub_one_eq_zero {x : UInt8} (h : x - 1 = 0) : x = 1 := by
  rw [← UInt8.sub_add_cancel x 1, h]
  rfl

/-- `Spare`: a count that comes to 0 is the last hold on an inode that somebody keeps. -/
lemma kept_of_spare (hs : w.Spare i) (hn : u.node i = { w.node i with count := (w.node i).count - 1 })
    (hl : u.Last i) : ∃ q, Keeps (w.tally q) i := by
  rw [Last, hn] at hl
  rcases hs with hs | ⟨q, -, hq⟩
  · exact absurd ⟨hl.1, hl.2.1, sub_one_eq_zero hl.2.2⟩ hs
  · exact ⟨q, hq⟩

/-- The same for a step that changes nothing in the account of the process. -/
lemma Sound.same (h : Sound w) (ht : u.tally = w.tally) (hn : ∀ j, j ≠ i → u.node j = w.node j)
    (ha : (u.node i).alloc = false → (w.node i).alloc = false)
    (hr : ∀ j, w.Gone j → u.refs j ≤ w.refs j) (hl : u.Last i → ∃ q, Keeps (w.tally q) i)
    (hsb : u.sb = w.sb) : Sound u := by
  have hid : u.note 0 id = u := by simp [World.note]
  rw [← hid]
  refine h.one (i := i) ht hn ha hr rfl (fun _ _ => id) (fun _ _ => Or.inl) (fun h => ?_) hsb
  rw [hid, ht]
  exact hl h

lemma effect_tally (d : Deed) : (d.effect p w).tally = w.tally := by
  cases d <;> rfl

/-- A change of the tables that does not sleep; `hb` is from the invariant that the books are
right. -/
lemma Sound.act {d : Deed} {k : Task} (h : Sound m.w) (hk : Kept m) (hp : p < nproc)
    (hok : (Task.act d k).wary m.w p = true) (ho : d.Ok (m.w.tally p))
    (hb : ∀ i, ((d.effect p m.w).node i).count = 0 → (d.effect p m.w).refs i = 0 ∧
      i ∉ (d.tally (m.w.tally p)).owed) : Sound (d.run p m.w) := by
  cases d with
  | ref i =>
      have hi := hk.not_gone (of_decide_eq_true hok)
      refine h.one (i := i) rfl (fun j hj => raise_ne hj) (fun e => ?_) (fun _ _ => le_rfl) rfl
        (fun _ _ => id) (fun j hg hm => Or.inl ?_) (fun hl => ?_) rfl
      · simpa [Deed.effect, World.raise] using e
      · rcases List.mem_cons.mp hm with rfl | hm
        · exact absurd hg hi
        · exact hm
      · exact absurd List.mem_cons_self (hb i hl.2.2).2
  | unref i =>
      refine h.one (i := i) rfl (fun j hj => lower_ne hj) (fun e => ?_) (fun _ _ => le_rfl) rfl
        (fun _ _ => id) (fun j _ hm => Or.inl (List.mem_of_mem_erase hm)) (fun hl => ?_) rfl
      · simpa [Deed.effect, World.lower] using e
      · have hsp : m.w.Spare i := of_decide_eq_true hok
        exact keeps_note (w := m.w) rfl id (kept_of_spare hsp lower_node hl)
  | irelse i =>
      refine h.one (i := i) rfl (fun _ _ => rfl) id (fun _ _ => le_rfl) rfl (fun j hj => ?_)
        (fun j _ => Or.inl) (fun hl => ?_) rfl
      · exact Or.imp id (List.mem_erase_of_ne hj).mpr
      · rcases (of_decide_eq_true hok : ¬m.w.Last i ∨ _) with hn | ⟨q, -, hq⟩
        · exact absurd hl hn
        · refine ⟨q, Or.inl ?_⟩
          by_cases hqp : q = p
          · subst hqp
            rwa [note_self]
          · rwa [note_ne _ hqp]
  | enter i =>
      have hi := hk.not_gone (of_decide_eq_true hok)
      have hc : m.w.cdir p = none := hk.away p ho
      have hr : ∀ j, ((Deed.enter i).effect p m.w).refs j = m.w.refs j + at_ (some i) j := by
        intro j
        have := (m.w.raise i).refs_setCdir hp (some i) j
        rwa [raise_cdir, hc, at_none] at this
      refine h.one (i := i) rfl (fun j hj => raise_ne hj) (fun e => ?_) (fun j hg => ?_) rfl
        (fun _ _ => id) (fun j _ => Or.inl) (fun hl => ?_) rfl
      · simpa [Deed.effect, World.raise] using e
      · have hji : j ≠ i := by
          rintro rfl
          exact hi hg
        rw [hr, at_ne hji]
        exact le_rfl
      · have := (hb i hl.2.2).1
        rw [hr, at_self] at this
        omega
  | quit =>
      have hsp : ∀ c, m.w.cdir p = some c → m.w.Spare c := of_decide_eq_true hok
      have hr : ∀ j, (Deed.quit.effect p m.w).refs j ≤ m.w.refs j := by
        intro j
        have := m.w.refs_setCdir hp none j
        rw [at_none] at this
        have he : (Deed.quit.effect p m.w).refs j = (m.w.setCdir p none).refs j := rfl
        omega
      cases hc : m.w.cdir p with
      | none =>
          have hn : (Deed.quit.effect p m.w).node = m.w.node := by simp only [Deed.effect, hc]
          exact h.calm rfl hn hr rfl (fun _ => id) (fun _ => id) fun q e => Or.inl e
      | some c =>
          have hn : (Deed.quit.effect p m.w).node = (m.w.lower c).node := by
            simp only [Deed.effect, hc]
          refine h.one (i := c) rfl (fun j hj => by rw [hn, lower_ne hj]) (fun e => ?_)
            (fun j _ => hr j) rfl (fun _ _ => id) (fun j _ => Or.inl) (fun hl => ?_) rfl
          · simpa [hn, World.lower] using e
          · refine keeps_note (w := m.w) rfl id (kept_of_spare (hsp c hc) ?_ hl)
            rw [hn, lower_node]
  | unspawn child => exact absurd ho id
  | unlink i =>
      refine h.one (i := i) rfl (fun j hj => Function.update_of_ne hj ..) (fun e => ?_)
        (fun _ _ => le_rfl) rfl (fun j _ => Or.imp (List.mem_cons_of_mem _) id)
        (fun j _ => Or.inl) (fun _ => keeps_self rfl (Or.inl List.mem_cons_self)) rfl
      simpa [Deed.effect] using e
  | mklink i =>
      refine h.one (i := i) rfl (fun j hj => Function.update_of_ne hj ..) (fun e => ?_)
        (fun _ _ => le_rfl) rfl (fun _ _ => id) (fun j _ => Or.inl) (fun hl => ?_) rfl
      · simpa [Deed.effect] using e
      · have := hl.2.1
        simp [Deed.effect] at this
  | putsb =>
      refine h.calm rfl rfl (fun _ => le_rfl) rfl (fun _ => id) (fun _ => id)
        fun q e => Or.inr ⟨?_, ho.2⟩
      exact Option.some.inj (e.symm.trans (hk.sb p ho.1))
  | takeTurn | giveTurn | bget _ | brelse _ =>
      exact h.calm rfl rfl (fun _ => le_rfl) rfl (fun _ => id) (fun _ => id) fun q e => Or.inl e

/-- The end of `iopen`. -/
lemma Sound.fopen (h : Sound w) (hi : ¬w.Gone i)
    (hb : ((w.fopen p i).node i).count = 0 → (w.fopen p i).refs i = 0) : Sound (w.fopen p i) := by
  have hcases := fopen_cases w p i
  have ht : (w.fopen p i).tally = w.tally := by
    unfold World.fopen
    split <;> rfl
  have hs : (w.fopen p i).sb = w.sb := by
    unfold World.fopen
    split <;> rfl
  refine h.same (i := i) ht (fun j hj => ?_) (fun e => ?_) (fun j hg => ?_) (fun hl => ?_) hs
  · exact ((hcases j).resolve_right fun e => hj e.1).1
  · rcases hcases i with ⟨hn, -⟩ | ⟨-, hn, -⟩
    · rwa [hn] at e
    · rwa [hn] at e
  · rcases hcases j with ⟨-, hr⟩ | ⟨rfl, -⟩
    · exact hr.le
    · exact absurd hg hi
  · rcases hcases i with ⟨hn, -⟩ | ⟨-, -, hr⟩
    · rw [Last, hn] at hl
      exact h.last i hl
    · have := hb hl.2.2
      omega

/-- `--fp->count`: an entry that is given up referred to the inode. -/
lemma Sound.drop {f : ℕ} (h : Sound w) (hne : (w.file f).count ≠ 0) (hf : f < nfile) :
    Sound (w.drop p f) := by
  set x : File := ⟨(w.file f).count - 1, (w.file f).inode⟩ with hx
  have hr := w.refs_setFile hf x
  have hle : ∀ j, names x j ≤ names (w.file f) j := by
    intro j
    unfold names
    split_ifs with h1 h2
    · exact le_rfl
    · exact absurd ⟨hne, h1.2⟩ h2
    · exact Nat.zero_le _
    · exact le_rfl
  refine h.tame (u := w.setFile f x) (F := fun t =>
    if x.count = 0 then (t.fpay f).owe x.inode else t.fpay f) rfl ?_ (fun _ => id) (fun j _ => ?_)
    (fun j hg hm => Or.inl ?_) (fun j hj => Or.inl ⟨hj, ?_⟩) fun q e => Or.inl e
  · split_ifs <;> rfl
  · have := hr j
    have := hle j
    omega
  · split_ifs at hm
    · rcases List.mem_cons.mp hm with rfl | hm
      · have h0 := (h.gone _ hg).1
        have := hr x.inode
        rw [h0, show names (w.file f) x.inode = 1 from if_pos ⟨hne, rfl⟩] at this
        have hz : names x x.inode = 0 := if_neg fun e => e.1 ‹_›
        omega
      · exact hm
    · exact hm
  · split_ifs <;> exact id

/-- `--ip->count` -/
lemma Sound.release (h : Sound w) : Sound (w.release p i) := by
  set F : Tally → Tally := fun t =>
    if (w.node i).count - 1 = 0 then (t.pay i).charge i else t.pay i with hF
  refine h.one (u := w.lower i) (F := F) (i := i) rfl (fun j hj => lower_ne hj) (fun e => ?_)
    (fun _ _ => le_rfl) ?_ (fun j _ => ?_) (fun j _ hm => Or.inl ?_) (fun hl => ?_) rfl
  · simpa [World.lower] using e
  · rw [hF]
    dsimp only
    split_ifs <;> rfl
  · rw [hF]
    dsimp only
    split_ifs
    · exact Or.imp (List.mem_cons_of_mem _) id
    · exact id
  · rw [hF] at hm
    dsimp only at hm
    split_ifs at hm <;> exact List.mem_of_mem_erase hm
  · have h0 : (w.node i).count - 1 = 0 := by
      rw [← lower_self]
      exact hl.2.2
    refine keeps_self rfl ?_
    rw [hF]
    dsimp only
    rw [if_pos h0]
    exact Or.inl List.mem_cons_self

/-- `fork` raises the count of the current directory, and the child has it for a reference. -/
lemma Sound.spawn {child : ℕ} (h : Sound w) (hp : p < nproc)
    (hr : ∀ j, (w.spawn p child).refs j = w.refs j + at_ (w.cdir p) j)
    (hb : ∀ i, ((w.spawn p child).node i).count = 0 → (w.spawn p child).refs i = 0) :
    Sound (w.spawn p child) := by
  have hnode : ∀ j, w.cdir p ≠ some j → (w.spawn p child).node j = w.node j := fun j hj =>
    if_neg hj
  have hself : ∀ c, w.cdir p = some c →
      (w.spawn p child).node c = { w.node c with count := (w.node c).count + 1 } := fun c hc =>
    if_pos hc
  cases hc : w.cdir p with
  | none =>
      refine h.same (i := 0) rfl (fun j _ => hnode j (by simp [hc])) (fun e => ?_) (fun j _ => ?_)
        (fun hl => ?_) rfl
      · rwa [hnode 0 (by simp [hc])] at e
      · rw [hr, hc, at_none]
        exact le_rfl
      · rw [Last, hnode 0 (by simp [hc])] at hl
        exact h.last 0 hl
  | some c =>
      refine h.same (i := c) rfl (fun j hj => hnode j ?_) (fun e => ?_) (fun j hg => ?_)
        (fun hl => ?_) rfl
      · rw [hc]
        exact fun e => hj (Option.some.inj e).symm
      · rwa [hself c hc] at e
      · have hjc : j ≠ c := by
          rintro rfl
          have := (h.gone j hg).1
          have := w.refs_setCdir hp none j
          rw [hc, at_self, at_none] at this
          omega
        rw [hr, hc, at_ne hjc]
        exact le_rfl
      · have := hb c hl.2.2
        rw [hr, hc, at_self] at this
        omega

/-- `idec` begins to free an inode that has no references. -/
lemma Sound.condemn (h : Sound w) (hr : w.refs i = 0) (ho : ∀ q, i ∉ (w.tally q).owed) :
    Sound (w.condemn p i) := by
  refine h.change (u := w) (F := fun t => { t with freeing := some i }) rfl
    (fun j hj => Or.inl ⟨hj, id⟩) (fun j hg => ?_) fun q e => Or.inl e
  by_cases hji : j = i
  · subst hji
    refine Or.inr ⟨hr, fun q hm => ?_⟩
    by_cases hqp : q = p
    · subst hqp
      rw [note_self] at hm
      exact ho q hm
    · rw [note_ne _ hqp] at hm
      exact ho q hm
  · refine Or.inl ⟨?_, le_rfl, Or.inl⟩
    rcases hg with hg | ⟨q, hq⟩
    · exact Or.inl hg
    · by_cases hqp : q = p
      · subst hqp
        rw [note_self] at hq
        exact absurd (Option.some.inj hq).symm hji
      · rw [note_ne _ hqp] at hq
        exact Or.inr ⟨q, hq⟩

/-- It is free now. -/
lemma Sound.freed (h : Sound w) (hf : (w.tally p).freeing = some i) : Sound (w.freed p i) := by
  have hgone : w.Gone i := Or.inr ⟨p, hf⟩
  refine h.change (u := (w.modNode i fun x => { x with alloc := false, nlink := 0 }).setOwn i none)
    (F := fun t => { (t.unlock i).discharge i with freeing := none }) rfl
    (fun j hj => Or.inl ?_) (fun j hg => Or.inl ⟨?_, le_rfl, Or.inl⟩) fun q e => Or.inl e
  all_goals by_cases hji : j = i
  · subst hji
    have := hj.1
    simp [setOwn] at this
  · refine ⟨?_, Or.imp (List.mem_erase_of_ne hji).mpr (List.mem_erase_of_ne hji).mpr⟩
    simpa only [Last, setOwn, modNode, Function.update_of_ne hji] using hj
  · exact hji ▸ hgone
  · rcases hg with hg | ⟨q, hq⟩
    · refine Or.inl ?_
      simpa only [note_node, setOwn, modNode, Function.update_of_ne hji] using hg
    · by_cases hqp : q = p
      · subst hqp
        rw [note_self] at hq
        exact absurd hq (by simp)
      · rw [note_ne _ hqp] at hq
        exact Or.inr ⟨q, hq⟩

/-- **One step of a process.** -/
lemma Sound.exec (h : Sound m.w) (hk : Kept m) (hk' : Kept m') (hok : Wary m (.exec p n))
    (he : m.exec p n (m.task p) = some m') : Sound m'.w := by
  have hf := hk.fair p
  have hlive := hk.live p
  simp only [Wary] at hok
  generalize m.task p = k at *
  cases k with
  | done => exact absurd he (by simp [Machine.exec])
  | look _ _ | choose _ | sleep _ _ _ =>
      obtain rfl := Option.some.inj he
      exact h
  | await _ _ _ _ =>
      simp only [Machine.exec] at he
      split_ifs at he
      · obtain rfl := Option.some.inj he
        exact h
      · obtain rfl := Option.some.inj he
        exact h
  | act d k =>
      obtain ⟨-, hp⟩ := hlive (by simp)
      obtain rfl := Option.some.inj he
      refine h.act hk hp hok hf.1 fun i hi => (hk'.none_of_count hi).imp_right fun hq => ?_
      have := hq p
      rwa [show (m.go p k (d.run p m.w)).w.tally p = _ from note_self _, effect_tally] at this
  | ilock i k =>
      simp only [Machine.exec] at he
      split_ifs at he
      · obtain rfl := Option.some.inj he
        exact h.calm (u := m.w.setOwn i (some p)) (F := fun t => t.lock i) rfl rfl
          (fun _ => le_rfl) rfl (fun j => Or.imp id (List.mem_cons_of_mem _)) (fun _ => id)
          fun q e => Or.inl e
      · -- the count is raised while the process waits
        obtain rfl := Option.some.inj he
        refine h.one (u := m.w.raise i) (F := fun t => t.owe i) (i := i) rfl
          (fun j hj => raise_ne hj) (fun e => ?_) (fun _ _ => le_rfl) rfl (fun _ _ => id)
          (fun j hg hm => ?_) (fun hl => ?_) rfl
        · simpa [World.raise] using e
        · rcases List.mem_cons.mp hm with rfl | hm
          · exact Or.inr ((of_decide_eq_true hok : m.w.Usable j ∨ _).resolve_left fun hu =>
              hk.not_gone hu hg)
          · exact Or.inl hm
        · refine absurd ?_ ((hk'.none_of_count hl.2.2).2 p)
          show i ∈ ((m.w.await p i).tally p).owed
          rw [World.await, note_self]
          exact List.mem_cons_self
  | relock i k =>
      simp only [Machine.exec] at he
      split_ifs at he
      · obtain rfl := Option.some.inj he
        refine h.one (u := (m.w.lower i).setOwn i (some p)) (F := fun t => (t.pay i).lock i) (i := i)
          rfl (fun j hj => lower_ne hj) (fun e => ?_) (fun _ _ => le_rfl) rfl
          (fun j _ => Or.imp id (List.mem_cons_of_mem _))
          (fun j _ hm => Or.inl (List.mem_of_mem_erase hm))
          (fun _ => keeps_self rfl (Or.inr List.mem_cons_self)) rfl
        simpa [setOwn, World.lower] using e
      · obtain rfl := Option.some.inj he
        exact h
  | fopen i k =>
      obtain rfl := Option.some.inj he
      exact h.fopen (hk.not_gone (of_decide_eq_true hok)) fun h0 => (hk'.none_of_count h0).1
  | unslot fd k =>
      simp only [Machine.exec] at he
      split at he
      · obtain rfl := Option.some.inj he
        exact h
      · rename_i f ho
        obtain rfl := Option.some.inj he
        exact h.calm (u := m.w.setSlot p fd none) (F := fun t => t.fowe f) rfl rfl (fun _ => le_rfl)
          rfl (fun _ => id) (fun _ => id) fun q e => Or.inl e
  | drop f last k =>
      obtain ⟨-, hp⟩ := hlive (by simp)
      obtain ⟨hne, hfn⟩ := hk.booked.of_mem_fowed hp hf.1
      simp only [Machine.exec] at he
      split_ifs at he
      · obtain rfl := Option.some.inj he
        exact h.drop hne hfn
      · obtain rfl := Option.some.inj he
        exact h.drop hne hfn
  | release i last k =>
      simp only [Machine.exec] at he
      split_ifs at he
      · obtain rfl := Option.some.inj he
        exact h.release
      · obtain rfl := Option.some.inj he
        exact h.release
  | getsb k =>
      simp only [Machine.exec] at he
      split_ifs at he with hsb
      · obtain rfl := Option.some.inj he
        refine h.calm (u := { m.w with sb := some p }) (F := fun t => { t with super := true }) rfl
          rfl (fun _ => le_rfl) rfl (fun _ => id) (fun _ => id) fun q e => ?_
        rw [hsb] at e
        exact absurd e (by simp)
      · obtain rfl := Option.some.inj he
        exact h
  | take i used k =>
      simp only [Machine.exec] at he
      split_ifs at he with ha
      · obtain rfl := Option.some.inj he
        exact h
      · obtain rfl := Option.some.inj he
        refine h.same (i := i) rfl (fun j hj => Function.update_of_ne hj ..) (fun _ => ?_)
          (fun _ _ => le_rfl) (fun _ => ⟨p, Or.inr hf.1.1⟩) rfl
        simpa using ha
  | leave k =>
      obtain ⟨-, hp⟩ := hlive (by simp)
      simp only [Machine.exec] at he
      split at he
      · simp at he
      · rename_i c hc
        obtain rfl := Option.some.inj he
        refine h.one (u := (m.w.lower c).setCdir p none) (i := c)
          (F := fun t => { t.charge c with away := true }) rfl (fun j hj => lower_ne hj)
          (fun e => ?_) (fun j _ => ?_) rfl (fun j _ => Or.imp (List.mem_cons_of_mem _) id)
          (fun j _ => Or.inl) (fun _ => keeps_self rfl (Or.inl List.mem_cons_self)) rfl
        · simpa [World.lower] using e
        · have := (m.w.lower c).refs_setCdir hp none j
          rw [at_none, lower_refs] at this
          omega
  | spawn child full k =>
      obtain ⟨-, hp⟩ := hlive (by simp)
      simp only [Machine.exec] at he
      split_ifs at he with hfree
      · obtain rfl := Option.some.inj he
        exact h.spawn hp
          (hk.booked.spawn_refs hp hfree (hk.booked.wrap hp (of_decide_eq_true hok)))
          fun i h0 => (hk'.none_of_count h0).1
      · obtain rfl := Option.some.inj he
        exact h
  | idec i k =>
      simp only [Machine.exec] at he
      split_ifs at he with h0
      · obtain rfl := Option.some.inj he
        obtain ⟨hr, ho⟩ := hk.none_of_count h0.1
        exact h.condemn hr ho
      · obtain rfl := Option.some.inj he
        exact h.one (u := m.w.setOwn i none) (F := fun t => (t.unlock i).discharge i) (i := i) rfl
          (fun _ _ => rfl) id (fun _ _ => le_rfl) rfl
          (fun j hj => Or.imp (List.mem_erase_of_ne hj).mpr (List.mem_erase_of_ne hj).mpr)
          (fun j _ => Or.inl) (fun hl => absurd ⟨hl.2.2, hl.2.1⟩ h0) rfl
  | freeing i k =>
      obtain rfl := Option.some.inj he
      exact h.freed hf.1

/-- The inode that `ialloc` takes has no count to lose: the process has the superblock, and the
books are right. -/
lemma Sound.honest (h : Sound m.w) (hk : Kept m) (hok : Wary m l) : Honest m l := by
  cases l with
  | start p c => exact hok
  | abort p => exact hok
  | exec p n =>
      have hf := hk.fair p
      simp only [Wary, Honest] at hok ⊢
      generalize m.task p = k at *
      cases k with
      | take i used k =>
          cases ha : (m.w.node i).alloc with
          | true => simp [Task.modest, ha]
          | false =>
              obtain ⟨hr, ho⟩ := h.gone i (Or.inl ha)
              have hpend : m.w.pending i = 0 := by
                refine Finset.sum_eq_zero fun q _ => List.count_eq_zero_of_not_mem fun hm => ?_
                have hq := (ho q hm).symm.trans (hk.sb p hf.1.2.1)
                obtain rfl := Option.some.inj hq
                rw [hf.1.2.2] at hm
                exact absurd hm List.not_mem_nil
              have hc := hk.count_eq i
              rw [hr, hpend] at hc
              have h0 : (m.w.node i).count = 0 := UInt8.toNat_inj.mp hc
              simp [Task.modest, ha, h0]
      | spawn child full k => exact hok
      | _ => rfl

/-- **One step.** -/
lemma Sound.step (h : Sound m.w) (hk : Kept m) (hok : Wary m l) (he : step m l = some m') :
    Kept m' ∧ Sound m'.w := by
  have hk' := hk.step (h.honest hk hok) he
  refine ⟨hk', ?_⟩
  cases l with
  | start p c =>
      simp only [Machine.step] at he
      split at he
      · split_ifs at he
        obtain rfl := Option.some.inj he
        exact h
      · simp at he
  | exec p n =>
      simp only [Machine.step] at he
      split_ifs at he
      exact h.exec hk hk' hok he
  | abort p =>
      simp only [Machine.step] at he
      split at he
      · split_ifs at he
        obtain rfl := Option.some.inj he
        exact h
      · simp at he

/-- No call is in progress, no inode is an orphan and no free inode is referred to. -/
structure Clean (m : Machine) : Prop where
  boot : Boot m
  last : ∀ i, ¬m.w.Last i
  free : ∀ i, (m.w.node i).alloc = false → m.w.refs i = 0

lemma Clean.sound (h : Clean m) : Sound m.w := by
  refine ⟨fun i hi => absurd hi (h.last i), fun i hi => ?_⟩
  rcases hi with hi | ⟨q, hq⟩
  · refine ⟨h.free i hi, fun q hq => ?_⟩
    simp [h.boot.tally q, Tally.clear] at hq
  · simp [h.boot.tally q, Tally.clear] at hq

end Machine

/-- The process is not in a call. -/
def Task.idle : Task → Bool
  | .done => true
  | _ => false

namespace Machine

open Finset World

variable {m : Machine} {i : ℕ}

/-- No call is in progress. -/
def Idle (m : Machine) : Prop := ∀ p < nproc, (m.task p).idle = true

instance (m : Machine) : Decidable (Idle m) :=
  inferInstanceAs (Decidable (∀ p < nproc, _))

lemma Kept.clear_of_idle (h : Kept m) (hi : Idle m) (p : ℕ) : m.w.tally p = .clear := by
  by_cases hp : p < nproc
  · have hf := h.fair p
    have hidle := hi p hp
    generalize m.task p = k at *
    cases k with
    | done => exact hf
    | _ => simp [Task.idle] at hidle
  · exact h.clear_of_le (Nat.le_of_not_lt hp)

/-- **No orphans**, when no process drops the last reference to an unlinked inode without `idec`:
whenever no call is in progress, something refers to every allocated inode without links. -/
theorem no_orphans (h : Transition.Reach step Clean Wary m) (hidle : Idle m)
    (ha : (m.w.node i).alloc = true) (hl : (m.w.node i).nlink = 0) : 0 < m.w.refs i := by
  obtain ⟨hk, hs⟩ := h.invariant (I := fun m => Kept m ∧ Sound m.w)
    (fun _ hb => ⟨hb.boot.kept, hb.sound⟩) fun _ _ _ hi hok he => hi.2.step hi.1 hok he
  have hclear := hk.clear_of_idle hidle
  have hne : (m.w.node i).count ≠ 0 := by
    intro h0
    obtain ⟨q, hq⟩ := hs.last i ⟨ha, hl, h0⟩
    simp [Keeps, hclear q, Tally.clear] at hq
  have hpend : m.w.pending i = 0 := Finset.sum_eq_zero fun q _ => by simp [hclear q, Tally.clear]
  have hc := hk.count_eq i
  rw [hpend] at hc
  have : (m.w.node i).count.toNat ≠ 0 := fun e => hne (UInt8.toNat_inj.mp e)
  omega

lemma clean_small : Clean small := by
  have hn : ∀ i, (small.w.node i).alloc = true ∧ (small.w.node i).nlink = 1 := by
    intro i
    by_cases h1 : i = 1
    · subst h1
      simp [small, bare, World.raise]
    · rw [show small.w.node i = bare.node i from (raise_ne h1).trans (raise_ne h1)]
      exact ⟨rfl, rfl⟩
  refine ⟨boot_small, fun i hi => ?_, fun i hi => ?_⟩
  · have := hi.2.1
    rw [(hn i).2] at this
    exact absurd this one_ne_zero
  · rw [(hn i).1] at hi
    exact absurd hi (by simp)

/-- Process 1 makes the inode 3, an entry of the root, its current directory. -/
def chdir3 : List Label := .start 1 (.chdir 1 1) :: does 1 [0, 1, 1, 0, 1, 0, 0, 4, 0, 0, 0, 1, 0, 0, 0, 0]

/-- Process 2 removes the entry. -/
def unlink3 : List Label :=
  .start 2 (.unlink 1 1) :: does 2 [0, 1, 1, 0, 1, 0, 0, 4, 0, 0, 0, 0, 1, 0, 0, 0, 0, 0, 0, 0]

theorem no_orphans_chdir : ∃ m, Transition.Reach step Clean Wary m ∧ Idle m ∧
    (m.w.node 3).alloc = true ∧ (m.w.node 3).nlink = 0 ∧ 0 < m.w.refs 3 := by
  have hrun : (Transition.run step Wary small (chdir3 ++ unlink3)).map
      (fun m => (decide (Idle m), (m.w.node 3).alloc, (m.w.node 3).nlink)) = some (true, true, 0) := by
    decide +kernel
  obtain ⟨m, hm, he⟩ := Option.map_eq_some_iff.mp hrun
  simp only [Prod.mk.injEq, decide_eq_true_eq] at he
  have hr := Transition.Reach.of_run clean_small hm
  exact ⟨m, hr, he.1, he.2.1, he.2.2, no_orphans hr he.1 he.2.1 he.2.2⟩

/-- Process 1 ends with the unlinked directory as its current directory. -/
theorem exit_leaves_orphan : ¬∀ m, Transition.Reachable step Clean m → Idle m →
    ∀ i, (m.w.node i).alloc = true → (m.w.node i).nlink = 0 → 0 < m.w.refs i := by
  intro h
  have hrun : (Transition.run step (fun _ _ => True) small
      (chdir3 ++ unlink3 ++ .start 1 .exit :: does 1 (List.replicate 17 0))).map
      (fun m => (decide (Idle m), (m.w.node 3).alloc, (m.w.node 3).nlink, m.w.refs 3))
        = some (true, true, 0, 0) := by
    decide +kernel
  obtain ⟨m, hm, he⟩ := Option.map_eq_some_iff.mp hrun
  simp only [Prod.mk.injEq, decide_eq_true_eq] at he
  have hlt := h m (Transition.Reach.of_run clean_small hm) he.1 3 he.2.1 he.2.2.1
  rw [he.2.2.2] at hlt
  exact absurd hlt (lt_irrefl 0)

end Machine

end Micronix
