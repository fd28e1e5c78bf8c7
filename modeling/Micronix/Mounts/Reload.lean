import Micronix.Lib.Ensures
import Micronix.Lib.Search
import Micronix.Mounts.Calls
import Mathlib.Tactic.Common

/-!
# What looking for an inode leaves alone

`iname`, `iget` and `isync` take slots over and read inodes into them, but only slots that nobody
refers to: the mount table stays, and so does every inode that is referred to or mounted on, with its
count.  `Reloads` is this relation between two states.
-/

namespace Micronix

namespace Mounting

variable {n : ℕ}

/-! ## Slots -/

/-- Nobody refers to the slot. -/
def Ref.Unused (x : Ref) : Prop := x.count = 0 ∧ x.mount = none

/-- The same inode with the same references, or nothing that anyone refers to. -/
def Like (x y : Ref) : Prop := y = x ∨ x.Unused ∧ y.Unused

namespace Like

variable {x y z : Ref}

lemma refl (x : Ref) : Like x x := .inl rfl

lemma trans (h : Like x y) (h' : Like y z) : Like x z := by
  obtain rfl | ⟨hx, hy⟩ := h
  · exact h'
  · obtain rfl | ⟨-, hz⟩ := h'
    · exact .inr ⟨hx, hy⟩
    · exact .inr ⟨hx, hz⟩

lemma count (h : Like x y) : y.count = x.count := by
  obtain rfl | ⟨hx, hy⟩ := h
  · rfl
  · rw [hx.1, hy.1]

/-- What is referred to stays. -/
lemma eq (h : Like x y) (hx : x.count ≠ 0) : y = x := h.resolve_right fun hu => hx hu.1.1

lemma mount (h : Like x y) (hx : x.mount = none) : y.mount = none := by
  obtain rfl | ⟨-, hy⟩ := h
  · exact hx
  · exact hy.2

end Like

/-! ## States -/

namespace Sys

/-- The inode of a slot and its references. -/
def ref (s : Sys n) (i : Fin n) : Ref := (s.ilist i).toRef

/-- The mount table and the inodes with their references. -/
def tables (s : Sys n) : (Fin NMOUNT → Mount n) × ℕ × (Fin n → Ref) := (s.mlist, s.rootdev, s.ref)

variable (io : Io) (s : Sys n) (i : Fin n)

lemma modSlot_self (f : Inode → Inode) : (s.modSlot i f).ilist i = f (s.ilist i) :=
  Function.update_self ..

variable {i} in
lemma modSlot_ne (f : Inode → Inode) {j : Fin n} (h : j ≠ i) :
    (s.modSlot i f).ilist j = s.ilist j :=
  Function.update_of_ne h ..

lemma ref_modSlot (f : Inode → Inode) :
    (s.modSlot i f).ref = Function.update s.ref i (f (s.ilist i)).toRef := by
  funext j
  rw [ref]
  by_cases hj : j = i
  · subst hj
    rw [modSlot_self, Function.update_self]
  · rw [modSlot_ne s f hj, Function.update_of_ne hj, ref]

variable {s} in
lemma ref_of_tables {t : Sys n} (h : t.tables = s.tables) : t.ref = s.ref :=
  (Prod.mk.inj (Prod.mk.inj h).2).2

lemma tables_modSlot {f : Inode → Inode} (h : ∀ x, (f x).toRef = x.toRef) :
    (s.modSlot i f).tables = s.tables := by
  refine congrArg (fun r => (s.mlist, s.rootdev, r)) ?_
  rw [ref_modSlot, h]
  exact Function.update_eq_self i s.ref

@[simp] lemma tables_fail (e : Errno) : (s.fail e).tables = s.tables := rfl

@[simp] lemma tables_doIo : (s.doIo io).tables = s.tables := rfl

@[simp] lemma tables_itime : (s.itime i).tables = s.tables := by
  unfold itime
  dsimp only
  split_ifs
  · exact tables_modSlot { s with ilist := fun j => { s.ilist j with time := 0 } } i
      (f := fun x => { x with time := (s.icount + 1) % 65536 }) fun _ => rfl
  · exact tables_modSlot s i (f := fun x => { x with time := (s.icount + 1) % 65536 }) fun _ => rfl

@[simp] lemma tables_irelse : (s.irelse i).tables = s.tables :=
  (tables_itime _ i).trans (tables_modSlot s i fun _ => rfl)

variable {s i}

lemma tables_ilock {t : Sys n} (h : s.ilock i = some t) : t.tables = s.tables := by
  unfold ilock at h
  split_ifs at h
  cases h
  exact tables_modSlot s i fun _ => rfl

lemma error_ilock {t : Sys n} (h : s.ilock i = some t) : t.error = s.error := by
  unfold ilock at h
  split_ifs at h
  cases h
  rfl

@[simp] lemma error_itime : (s.itime i).error = s.error := by
  unfold itime
  dsimp only
  split_ifs <;> rfl

@[simp] lemma error_irelse : (s.irelse i).error = s.error := error_itime

end Sys

/-- The mount table stays, and what is referred to. -/
structure Reloads (s t : Sys n) : Prop where
  mlist : t.mlist = s.mlist
  rootdev : t.rootdev = s.rootdev
  like : ∀ i, Like (s.ref i) (t.ref i)

namespace Reloads

variable {s t u : Sys n}

lemma of_tables (h : t.tables = s.tables) : Reloads s t := by
  obtain ⟨hmlist, hrest⟩ := Prod.mk.inj h
  obtain ⟨hrootdev, href⟩ := Prod.mk.inj hrest
  exact ⟨hmlist, hrootdev, fun i => href ▸ .refl _⟩

lemma refl (s : Sys n) : Reloads s s := .of_tables rfl

lemma trans (h : Reloads s t) (h' : Reloads t u) : Reloads s u where
  mlist := h'.mlist.trans h.mlist
  rootdev := h'.rootdev.trans h.rootdev
  like i := (h.like i).trans (h'.like i)

/-- The same tables before or after. -/
lemma congr_left {r : Sys n} (h : Reloads s t) (hr : s.tables = r.tables) : Reloads r t :=
  (of_tables hr).trans h

lemma congr_right {r : Sys n} (h : Reloads s t) (hr : r.tables = t.tables) : Reloads s r :=
  h.trans (of_tables hr)

/-- A slot that nobody refers to is used for something else. -/
lemma modSlot {i : Fin n} {f : Inode → Inode} (h : (s.ref i).Unused)
    (hf : (f (s.ilist i)).toRef.Unused) : Reloads s (s.modSlot i f) where
  mlist := rfl
  rootdev := rfl
  like j := by
    rw [Sys.ref_modSlot]
    by_cases hj : j = i
    · subst hj
      rw [Function.update_self]
      exact .inr ⟨h, hf⟩
    · rw [Function.update_of_ne hj]
      exact .refl _

end Reloads

/-- Nothing is mounted on an inode that nobody refers to, and the counts are below a bound. -/
structure Tidy (k : ℕ) (s : Sys n) : Prop where
  loose : ∀ i, (s.ref i).count = 0 → (s.ref i).mount = none
  few : ∀ i, (s.ref i).count.toNat < k

namespace Tidy

variable {k : ℕ} {s t : Sys n}

lemma reloads (h : Tidy k s) (hst : Reloads s t) : Tidy k t where
  loose i hi := (hst.like i).mount (h.loose i ((hst.like i).count ▸ hi))
  few i := (hst.like i).count ▸ h.few i

lemma tables (h : Tidy k s) (hst : t.tables = s.tables) : Tidy k t := h.reloads (.of_tables hst)

lemma unused (h : Tidy k s) {i : Fin n} (hi : (s.ref i).count = 0) : (s.ref i).Unused :=
  ⟨hi, h.loose i hi⟩

end Tidy

/-! ## `iget.c` -/

/-- What a search for an inode ends with. -/
structure Finds {α : Type} (s : Sys n) (r : Option α × Sys n) : Prop where
  reloads : Reloads s r.2
  error : r.1 = none → r.2.error ≠ none
  quiet : r.1 ≠ none → s.error = none → r.2.error = none

namespace Finds

variable {s t : Sys n} {α : Type} {r : Option α × Sys n}

/-- Something is wrong. -/
lemma none (h : Reloads s t) (ht : t.error ≠ .none) : Finds s ((.none : Option α), t) :=
  ⟨h, fun _ => ht, fun h => absurd rfl h⟩

lemma some (h : Reloads s t) (ht : s.error = .none → t.error = .none) (a : α) :
    Finds s (.some a, t) :=
  ⟨h, nofun, fun _ => ht⟩

/-- The search goes on in another state. -/
lemma after (h : Finds t r) (hst : Reloads s t) (ht : s.error = .none → t.error = .none) :
    Finds s r :=
  ⟨hst.trans h.reloads, h.error, fun hr hs => h.quiet hr (ht hs)⟩

end Finds

namespace Sys

variable (io : Io) {s : Sys n} {i : Fin n} {k : ℕ}

lemma ensures_iio {f : Inode → Inode} (hf : ∀ x, (f x).toRef = x.toRef) :
    Ensures (s.iio io i f) fun r => r.2.tables = s.tables ∧ (r.1 = true ↔ r.2.error = none) := by
  refine .map ?_
  intro m _
  dsimp only
  split_ifs with hbad herror
  · exact ⟨tables_fail s _, ⟨nofun, nofun⟩⟩
  · exact ⟨tables_modSlot (s.doIo io) i (f := fun x => { f x with mod := false }) hf,
      ⟨fun _ => herror, fun _ => rfl⟩⟩
  · exact ⟨tables_doIo io s, ⟨nofun, fun h => absurd h herror⟩⟩

lemma ensures_iread :
    Ensures (s.iread io i) fun r => r.2.tables = s.tables ∧ (r.1 = true ↔ r.2.error = none) :=
  ensures_iio io fun _ => rfl

lemma ensures_iwrite :
    Ensures (s.iwrite io i) fun r => r.2.tables = s.tables ∧ (r.1 = true ↔ r.2.error = none) :=
  ensures_iio io fun _ => rfl

lemma ensures_claim (h : (s.ref i).Unused) (num dev : ℕ) :
    Ensures (s.claim io i num dev) (Finds s) := by
  rw [claim]
  refine (ensures_iread io).bind fun r hr => ?_
  obtain ⟨htables, hok⟩ := hr
  set t := s.modSlot i fun x => { x with inum := num, dev := dev, count := 0, mount := none }
  have hclaim : Reloads s t := .modSlot h ⟨rfl, rfl⟩
  split_ifs with hread
  · exact .some (.some (hclaim.congr_right htables) (fun _ => hok.mp hread) i)
  · have hunused : (r.2.ref i).Unused := by
      rw [ref_of_tables htables, ref_modSlot, Function.update_self]
      exact ⟨rfl, rfl⟩
    have hzero : Reloads r.2 (r.2.modSlot i fun _ => Inode.zero) := .modSlot hunused ⟨rfl, rfl⟩
    refine .some (.none (((hclaim.congr_right htables).trans hzero).congr_right
      (tables_irelse _ i)) ?_)
    rw [error_irelse]
    exact fun herror => hread (hok.mpr herror)

/-- A slot to be taken over is one that nobody refers to. -/
lemma victim_count (h : s.victim = some i) : (s.ref i).count = 0 := by
  have hsearch : Searches (fun j => (s.ref j).count = 0 ∧ (s.ilist j).busy = false)
      fun f j => s.elder j f := by
    refine ⟨fun f j hj => if_pos ?_, fun j hj => if_neg ?_, fun f j hj => ?_⟩
    · by_contra hno
      obtain ⟨hcount, hbusy⟩ := not_or.mp hno
      exact hj ⟨not_not.mp hcount, Bool.eq_false_iff.mpr hbusy⟩
    · exact not_or.mpr ⟨not_not.mpr hj.1, Bool.eq_false_iff.mp hj.2⟩
    · unfold elder
      dsimp only
      split_ifs
      · exact .inl rfl
      · exact .inr rfl
      · exact .inl rfl
  obtain hnone | ⟨-, hfree⟩ := hsearch.found _ none h
  · cases hnone
  · exact hfree.1

lemma ensures_iget (fuel num dev : ℕ) (h : Tidy k s) : Ensures (iget io fuel num dev s) (Finds s) := by
  induction fuel generalizing num dev s with
  | zero => exact .none
  | succ fuel ih =>
      rw [iget]
      split
      · intro r hr
        obtain ⟨t, ht, hr⟩ := Option.bind_eq_some_iff.mp hr
        have htables := tables_ilock ht
        have herror := error_ilock ht
        split at hr
        · refine (ih _ _ ((h.tables htables).tables (tables_irelse t _)) r hr).after
            (.of_tables ((tables_irelse t _).trans htables)) ?_
          rw [error_irelse, herror]
          exact id
        · cases hr
          exact .some (.of_tables htables) (fun hs => herror.trans hs) _
      · split
        · exact .some (.none (.of_tables (tables_fail s _)) nofun)
        · rename_i i hvictim
          intro r hr
          obtain ⟨t, ht, hr⟩ := Option.bind_eq_some_iff.mp hr
          have htables := tables_ilock ht
          have herror := error_ilock ht
          have hunused : (t.ref i).Unused := by
            rw [ref_of_tables htables]
            exact h.unused (victim_count hvictim)
          have hquiet : s.error = none → t.error = none := fun hs => herror.trans hs
          split_ifs at hr with hmod
          · obtain ⟨w, hw, hr⟩ := Option.bind_eq_some_iff.mp hr
            obtain ⟨hwtables, hwok⟩ := ensures_iwrite io w hw
            split_ifs at hr with hwritten
            · have hwunused : (w.2.ref i).Unused := by
                rw [ref_of_tables hwtables]
                exact hunused
              exact (ensures_claim io hwunused num dev r hr).after
                (.of_tables (hwtables.trans htables)) fun _ => hwok.mp hwritten
            · cases hr
              refine .none (.of_tables ((tables_irelse _ i).trans (hwtables.trans htables))) ?_
              rw [error_irelse]
              exact fun h => hwritten (hwok.mpr h)
          · exact (ensures_claim io hunused num dev r hr).after (.of_tables htables) hquiet

lemma ensures_isync : Ensures (s.isync io) fun t => t.tables = s.tables := by
  refine Ensures.foldlM (I := fun a b => b.tables = a.tables) (fun _ => rfl)
    (fun a b c (h : b.tables = a.tables) (h' : c.tables = b.tables) => h'.trans h)
    (fun a i _ => ?_) s
  refine .ite (fun _ => ?_) fun _ => .some rfl
  refine Ensures.bind (fun t ht => tables_ilock ht) fun t ht => ?_
  refine (ensures_iwrite io).bind fun r hr => .some ?_
  rw [tables_irelse, hr.1]
  exact ht

/-- Nobody refers to the inodes of the device. -/
def Clear (s : Sys n) (dev : ℕ) : Prop := ∀ i, (s.ref i).dev = dev → (s.ref i).Unused

lemma ensures_iflush {dev : ℕ} (h : s.Clear dev) : Ensures (s.iflush io dev) (Reloads s) := by
  refine (Ensures.foldlM (I := fun a b => a.Clear dev → Reloads a b ∧ b.Clear dev)
    (fun a ha => ⟨.refl a, ha⟩)
    (fun a b c hab hbc ha => ⟨(hab ha).1.trans (hbc (hab ha).2).1, (hbc (hab ha).2).2⟩)
    (fun a i _ => ?_) s).mono fun t ht => (ht h).1
  refine .ite (fun hdev => ?_) fun _ => .some fun ha => ⟨.refl a, ha⟩
  refine Ensures.bind (fun t ht => tables_ilock ht) fun t ht => ?_
  have hzero : ∀ u : Sys n, u.tables = a.tables →
      Ensures (some ((u.irelse i).modSlot i fun _ => Inode.zero))
        fun b => a.Clear dev → Reloads a b ∧ b.Clear dev := by
    refine fun u hu => .some fun ha => ?_
    have htables : (u.irelse i).tables = a.tables := (tables_irelse u i).trans hu
    have href := ref_of_tables htables
    have hunused : ((u.irelse i).ref i).Unused := href ▸ ha i hdev
    refine ⟨(Reloads.modSlot hunused ⟨rfl, rfl⟩).congr_left htables, fun j hj => ?_⟩
    rw [ref_modSlot, href] at hj ⊢
    by_cases hji : j = i
    · subst hji
      rw [Function.update_self]
      exact ⟨rfl, rfl⟩
    · rw [Function.update_of_ne hji] at hj ⊢
      exact ha j hj
  refine .ite (fun _ => ?_) fun _ => .bind (.some ht) hzero
  exact Ensures.bind ((ensures_iwrite io).mono fun r hr => hr.1.trans ht).map hzero

end Sys

/-! ## `name.c` -/

/-- One reference more, and one less. -/
def Ref.hold (x : Ref) : Ref := { x with count := x.count + 1 }
def Ref.drop (x : Ref) : Ref := { x with count := x.count - 1 }

lemma Ref.drop_hold (x : Ref) : x.hold.drop = x :=
  congrArg (fun c => { x with count := c }) (BitVec.add_sub_cancel x.count 1)

lemma Ref.hold_ne {x : Ref} (h : x.count.toNat < 255) : x.hold.count ≠ 0 := by
  show x.count + 1 ≠ 0
  bv_omega

namespace Sys

lemma ref_hold (s : Sys n) (i : Fin n) :
    (s.hold i).ref = Function.update s.ref i (s.ref i).hold := ref_modSlot s i _

lemma ref_drop (s : Sys n) (i : Fin n) :
    (s.drop i).ref = Function.update s.ref i (s.ref i).drop := ref_modSlot s i _

end Sys

/-- A slot that is held while others are looked for. -/
lemma Reloads.release {s t : Sys n} {i : Fin n} (h : Reloads (s.hold i) t)
    (hfew : (s.ref i).count.toNat < 255) : Reloads s (t.drop i) where
  mlist := h.mlist
  rootdev := h.rootdev
  like j := by
    have hlike := h.like j
    rw [Sys.ref_hold] at hlike
    rw [Sys.ref_drop]
    by_cases hj : j = i
    · subst hj
      rw [Function.update_self] at hlike ⊢
      rw [hlike.eq (Ref.hold_ne hfew), Ref.drop_hold]
      exact .refl _
    · rw [Function.update_of_ne hj] at hlike ⊢
      exact hlike

/-- One slot more is referred to. -/
lemma Tidy.update {k : ℕ} {s t : Sys n} (h : Tidy k s) {i : Fin n} {x : Ref}
    (ht : t.ref = Function.update s.ref i x) (hx : x.count ≠ 0) (hlt : x.count.toNat < k + 1) :
    Tidy (k + 1) t where
  loose j hj := by
    rw [ht] at hj ⊢
    by_cases hji : j = i
    · subst hji
      rw [Function.update_self] at hj
      exact absurd hj hx
    · rw [Function.update_of_ne hji] at hj ⊢
      exact h.loose j hj
  few j := by
    rw [ht]
    by_cases hji : j = i
    · subst hji
      rw [Function.update_self]
      exact hlt
    · rw [Function.update_of_ne hji]
      exact (h.few j).trans (Nat.lt_succ_self k)

lemma Ref.hold_lt {k : ℕ} {x : Ref} (h : x.count.toNat < k) : x.hold.count.toNat < k + 1 := by
  show (x.count + 1).toNat < k + 1
  bv_omega

lemma Tidy.hold {k : ℕ} {s : Sys n} (h : Tidy k s) (hk : k ≤ 255) (i : Fin n) :
    Tidy (k + 1) (s.hold i) :=
  h.update (Sys.ref_hold s i) (Ref.hold_ne ((h.few i).trans_le hk)) (Ref.hold_lt (h.few i))

namespace Sys

variable (io : Io) {s : Sys n} {k : ℕ}

lemma dlook_spec (s : Sys n) (last : Bool) :
    (s.dlook io last).2.tables = s.tables ∧
      ((s.dlook io last).1 = 0 → (s.dlook io last).2.error ≠ none) ∧
      ((s.dlook io last).1 ≠ 0 → (s.dlook io last).2.error = none) := by
  unfold dlook
  dsimp only
  split_ifs with hfound herror hlast
  · exact ⟨rfl, fun h => absurd h hfound, fun _ => rfl⟩
  · exact ⟨rfl, nofun, fun h => absurd rfl h⟩
  · exact ⟨rfl, nofun, fun h => absurd rfl h⟩
  · exact ⟨rfl, fun _ => herror, fun h => absurd rfl h⟩

lemma ensures_walk (fuel names : ℕ) (ip : Fin n) (h : Tidy k s) (hk : k ≤ 255) :
    Ensures (walk io fuel names ip s) (Finds s) := by
  induction names generalizing ip s with
  | zero => exact .some (.some (.refl s) id ip)
  | succ names ih =>
      rw [walk]
      refine .ite (fun _ => .some (.none (.of_tables (tables_irelse _ ip)) ?_)) fun _ => ?_
      · rw [error_irelse]
        exact nofun
      refine .ite (fun _ => .some (.none (.of_tables (tables_irelse _ ip)) ?_)) fun _ => ?_
      · rw [error_irelse]
        exact nofun
      obtain ⟨htables, hmissing, hfound⟩ := dlook_spec io s (decide (names = 0))
      generalize s.dlook io (decide (names = 0)) = d at htables hmissing hfound ⊢
      dsimp only
      refine .ite (fun hinum => .some (.none (.of_tables ((tables_irelse _ ip).trans htables)) ?_))
        fun hinum => ?_
      · rw [error_irelse]
        exact hmissing hinum
      have htidy : Tidy k d.2 := h.tables htables
      have hheld : ((d.2.hold ip).irelse ip).tables = (d.2.hold ip).tables := tables_irelse _ ip
      refine (ensures_iget io fuel d.1 _ ((htidy.hold hk ip).tables hheld)).bind fun r hr => ?_
      have hback : Reloads s (r.2.drop ip) :=
        ((hr.reloads.congr_left hheld).release ((htidy.few ip).trans_le hk)).congr_left htables
      have hquiet : ((d.2.hold ip).irelse ip).error = none :=
        error_irelse.trans (hfound hinum)
      cases hr1 : r.1 with
      | none => exact .some (.none hback (hr.error hr1))
      | some i =>
          refine (ih i (h.reloads hback)).mono fun q hq => hq.after hback fun _ => ?_
          exact hr.quiet (by rw [hr1]; exact nofun) hquiet

lemma ensures_iname (fuel : ℕ) (name : Path) (h : Tidy k s) (hk : k ≤ 255) :
    Ensures (s.iname io fuel name) (Finds s) := by
  refine Ensures.bind (P := fun t => t.tables = s.tables ∧ t.error = s.error)
    (fun t ht => ⟨tables_ilock ht, error_ilock ht⟩) fun t ht => ?_
  exact (ensures_walk io fuel name.names _ (h.tables ht.1) hk).mono fun r hr =>
    hr.after (.of_tables ht.1) fun hs => ht.2.trans hs

end Sys

end Mounting

end Micronix
