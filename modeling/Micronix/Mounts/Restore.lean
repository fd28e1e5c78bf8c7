import Micronix.Mounts.Reload

/-!
# Mounting and unmounting

The type test of `umount` compares two constants and lets every file through, and `umount` takes the
first block number of a file for its device.  It gives back the file that it was called for, which is
not always the one that `mount` has counted, and does not look at the errors of the i/o at its end.
`mount` leaves everything in place when it does not get the special file back at its end.
-/

namespace Micronix

namespace Mounting

variable {n : ℕ}

/-! ## What the last i/o leaves in `u.error` -/

/-- The last i/o from one state to another has failed. -/
def Failed (io : Io) (s t : Sys n) : Prop := ∃ k, s.ios ≤ k ∧ k + 1 = t.ios ∧ io.error k ≠ none

/-- Only i/o changes `u.error`. -/
structure Answered (io : Io) (s t : Sys n) : Prop where
  le : s.ios ≤ t.ios
  error : t.error = if t.ios = s.ios then s.error else io.error (t.ios - 1)

namespace Answered

variable {io : Io} {s t u : Sys n}

lemma of_eq (hios : t.ios = s.ios) (herror : t.error = s.error) : Answered io s t :=
  ⟨hios.ge, by rw [if_pos hios, herror]⟩

lemma doIo (s : Sys n) : Answered io s (s.doIo io) :=
  ⟨Nat.le_succ _, (if_neg (Nat.succ_ne_self s.ios)).symm⟩

lemma trans (h : Answered io s t) (h' : Answered io t u) : Answered io s u where
  le := h.le.trans h'.le
  error := by
    have hle := h.le
    have hle' := h'.le
    rw [h'.error]
    by_cases hut : u.ios = t.ios
    · rw [if_pos hut, h.error, hut]
    · rw [if_neg hut, if_neg (by omega)]

/-- Where there was no error there is one exactly if the last i/o has failed. -/
lemma error_iff (h : Answered io s t) (hs : s.error = none) : t.error ≠ none ↔ Failed io s t := by
  have hle := h.le
  rw [h.error, Failed]
  by_cases hts : t.ios = s.ios
  · rw [if_pos hts]
    refine ⟨fun herror => absurd hs herror, ?_⟩
    rintro ⟨k, hk, hkt, -⟩
    omega
  · rw [if_neg hts]
    constructor
    · exact fun herror => ⟨t.ios - 1, by omega, by omega, herror⟩
    · rintro ⟨k, -, hkt, hk⟩
      rwa [show t.ios - 1 = k by omega]

end Answered

namespace Sys

variable {io : Io} {s t : Sys n} {i : Fin n}

lemma ios_irelse : (s.irelse i).ios = s.ios := by
  unfold irelse itime
  dsimp only
  split_ifs <;> rfl

lemma ios_ilock (h : s.ilock i = some t) : t.ios = s.ios := by
  unfold ilock at h
  split_ifs at h
  cases h
  rfl

lemma answered_irelse : Answered io s (s.irelse i) := .of_eq ios_irelse error_irelse

lemma answered_ilock (h : s.ilock i = some t) : Answered io s t := .of_eq (ios_ilock h) (error_ilock h)

lemma tables_ifree : (s.ifree io i).tables = s.tables :=
  tables_modSlot (s.doIo io) i (f := fun x => { x with toNode := ⟨0, 0, 0⟩, mod := true }) fun _ => rfl

lemma tables_idec : (s.idec io i).tables = s.tables := by
  refine (tables_irelse _ i).trans ?_
  split_ifs
  · exact tables_ifree
  · rfl

lemma answered_idec : Answered io s (s.idec io i) := by
  have hfree : Answered io s (s.ifree io i) := (Answered.doIo s).trans (.of_eq rfl rfl)
  unfold idec
  split_ifs
  · exact hfree.trans answered_irelse
  · exact answered_irelse

lemma tables_of_ref (hmlist : t.mlist = s.mlist) (hrootdev : t.rootdev = s.rootdev)
    (href : t.ref = s.ref) : t.tables = s.tables := by
  rw [tables, tables, hmlist, hrootdev, href]

lemma tables_hold {u : Sys n} (h : u.tables = s.tables) (i : Fin n) :
    (u.hold i).tables = (s.hold i).tables := by
  obtain ⟨hmlist, hrest⟩ := Prod.mk.inj h
  refine tables_of_ref hmlist (Prod.mk.inj hrest).1 ?_
  rw [ref_hold, ref_hold, (Prod.mk.inj hrest).2]

lemma tables_drop {u : Sys n} (h : u.tables = s.tables) (i : Fin n) :
    (u.drop i).tables = (s.drop i).tables := by
  obtain ⟨hmlist, hrest⟩ := Prod.mk.inj h
  refine tables_of_ref hmlist (Prod.mk.inj hrest).1 ?_
  rw [ref_drop, ref_drop, (Prod.mk.inj hrest).2]

lemma tables_drop_hold (s : Sys n) (i : Fin n) : ((s.hold i).drop i).tables = s.tables := by
  refine tables_of_ref rfl rfl ?_
  rw [ref_drop, ref_hold, Function.update_self, Ref.drop_hold, Function.update_idem]
  exact Function.update_eq_self i s.ref

/-- A reference less, whatever the closing does. -/
lemma iclose_spec (h : s.iclose io i = some t) :
    t.tables = (s.drop i).tables ∧ Answered io s t := by
  have hdrop : Answered io s (s.drop i) := .of_eq rfl rfl
  rw [iclose] at h
  dsimp only at h
  split_ifs at h with hlast
  · obtain ⟨u, hu, h⟩ := Option.bind_eq_some_iff.mp h
    have htables := tables_ilock hu
    have hlock := hdrop.trans (answered_ilock hu)
    split_ifs at h with hchr hblk
    · -- the count of a character device goes up and down again
      obtain ⟨v, hv, h⟩ := Option.bind_eq_some_iff.mp h
      cases h
      have hv' : v.tables = (u.hold i).tables := (tables_ilock hv).trans (tables_irelse _ i)
      refine ⟨tables_idec.trans (((tables_drop hv' i).trans (tables_drop_hold u i)).trans htables), ?_⟩
      have hhold : Answered io u ((u.hold i).irelse i) :=
        (Answered.of_eq rfl rfl : Answered io u (u.hold i)).trans answered_irelse
      exact (((hlock.trans hhold).trans (.doIo _)).trans (answered_ilock hv)).trans
        ((Answered.of_eq rfl rfl : Answered io v (v.drop i)).trans answered_idec)
    · cases h
      exact ⟨tables_idec.trans htables, (hlock.trans (.doIo u)).trans answered_idec⟩
    · cases h
      exact ⟨tables_idec.trans htables, hlock.trans answered_idec⟩
  · cases h
    exact ⟨rfl, hdrop⟩

end Sys

/-! ## `umount` -/

/-- A file system is mounted on the inode, and unmounted. -/
def Ref.graft (m : Fin NMOUNT) (x : Ref) : Ref := { x with count := x.count + 1, mount := some m }
def Ref.prune (x : Ref) : Ref := { x with count := x.count - 1, mount := none }

lemma Ref.prune_graft {m : Fin NMOUNT} {x : Ref} (h : x.mount = none) : (x.graft m).prune = x := by
  have hcount : x.count + 1 - 1 = x.count := BitVec.add_sub_cancel x.count 1
  rw [graft, prune, hcount, ← h]

/-- The references when a file has been given back, and the inode that was mounted on. -/
def released (r : Fin n → Ref) (file : Fin n) (inode : Option (Fin n)) : Fin n → Ref :=
  let r := Function.update r file (r file).drop
  match inode with
  | some ip => Function.update r ip (r ip).prune
  | none => r

lemma released_apply (r : Fin n → Ref) (file ip j : Fin n) :
    released r file (some ip) j =
      let x := if j = file then (r j).drop else r j
      if j = ip then x.prune else x := by
  have hfile : ∀ k, Function.update r file (r file).drop k = if k = file then (r k).drop else r k := by
    intro k
    by_cases hk : k = file
    · rw [if_pos hk, hk, Function.update_self]
    · rw [if_neg hk, Function.update_of_ne hk]
  show Function.update _ ip _ j = _
  by_cases hj : j = ip
  · subst hj
    rw [Function.update_self, if_pos rfl, hfile]
  · rw [Function.update_of_ne hj, if_neg hj, hfile]

/-- The count of the file is another one then. -/
lemma released_count (r : Fin n → Ref) (file : Fin n) (inode : Option (Fin n)) :
    (released r file inode file).count ≠ (r file).count := by
  have hone : ((Function.update r file (r file).drop) file).count = (r file).count - 1 := by
    rw [Function.update_self]
    rfl
  cases inode with
  | none =>
      rw [released, hone]
      bv_omega
  | some ip =>
      rw [released]
      by_cases hip : file = ip
      · subst hip
        rw [Function.update_self, Ref.prune, hone]
        bv_omega
      · rw [Function.update_of_ne hip, hone]
        bv_omega

namespace Sys

variable {io : Io} {s t : Sys n} {k : ℕ}

lemma detach_spec {d : Target n} (h : s.detach io d = some t) :
    Answered io s t ∧ t.rootdev = s.rootdev ∧
      t.mlist = Function.update s.mlist d.entry Mount.zero ∧
      t.ref = released s.ref d.file (s.mlist d.entry).inode := by
  obtain ⟨u, hu, h⟩ := Option.bind_eq_some_iff.mp h
  obtain ⟨htables, hanswered⟩ := iclose_spec hu
  have hanswered : Answered io s u := answered_irelse.trans hanswered
  have htables : u.tables = (s.drop d.file).tables :=
    htables.trans (tables_drop (tables_irelse s d.file) d.file)
  have hmlist : u.mlist = s.mlist := (Prod.mk.inj htables).1
  have hrootdev : u.rootdev = s.rootdev := (Prod.mk.inj (Prod.mk.inj htables).2).1
  have href : u.ref = Function.update s.ref d.file (s.ref d.file).drop :=
    (ref_of_tables htables).trans (ref_drop s d.file)
  cases h
  rw [← hmlist]
  cases (u.mlist d.entry).inode with
  | none => exact ⟨hanswered.trans (.of_eq rfl rfl), hrootdev, rfl, href⟩
  | some ip =>
      set v := (u.modSlot ip fun x => { x with mount := none }).drop ip
      have hv : Answered io u v := .of_eq rfl rfl
      have hidec : (v.idec io ip).tables = v.tables := tables_idec
      refine ⟨(hanswered.trans hv).trans (answered_idec.trans (.of_eq rfl rfl)), ?_, ?_, ?_⟩
      · exact (Prod.mk.inj (Prod.mk.inj hidec).2).1.trans hrootdev
      · exact congrArg (fun m => Function.update m d.entry Mount.zero) (Prod.mk.inj hidec).1
      · have hprune : v.ref = Function.update u.ref ip (u.ref ip).prune := by
          rw [ref_drop, ref_modSlot, Function.update_self, Function.update_idem]
          rfl
        show (v.idec io ip).ref = _
        rw [ref_of_tables hidec, hprune, href]
        rfl

lemma mlook_some {dev : ℕ} {m : Fin NMOUNT} (h : s.mlook dev = some m) : (s.mlist m).dev = dev :=
  of_decide_eq_true (List.find?_some (p := fun m => decide ((s.mlist m).dev = dev)) h)

lemma mlook_none {dev : ℕ} (h : s.mlook dev = none) (m : Fin NMOUNT) : (s.mlist m).dev ≠ dev :=
  fun hm => List.find?_eq_none.mp h m (List.mem_finRange m) (decide_eq_true hm)

/-- What is known of a file that `umount` goes on with. -/
structure Targets (s : Sys n) (d : Target n) (t : Sys n) : Prop where
  reloads : Reloads s t
  error : t.error = none
  entry : (s.mlist d.entry).dev = d.dev
  dev : d.dev ≠ s.rootdev

/-- It is refused, or goes on with a file. -/
def Clears (s : Sys n) (r : Option (Target n) × Sys n) : Prop :=
  match r with
  | (none, t) => Reloads s t ∧ t.error ≠ none
  | (some d, t) => Targets s d t

lemma ensures_cleared (fuel : ℕ) (ioname : Path) (h : Tidy k s) (hk : k ≤ 255) :
    Ensures (s.cleared io fuel ioname) (Clears s) := by
  refine .ite (fun _ => ?_) fun _ => .some ⟨.of_tables (tables_fail s _), nofun⟩
  refine (ensures_iname io fuel ioname h hk).bind fun r hr => ?_
  obtain ⟨i | i, t⟩ := r
  · exact .some ⟨hr.reloads, hr.error rfl⟩
  have hrefuse : ∀ u : Sys n, Reloads s u → ∀ e, Clears s (none, (u.fail e).irelse i) := by
    refine fun u hu e => ⟨hu.congr_right (tables_irelse _ i), ?_⟩
    rw [error_irelse]
    exact nofun
  dsimp only
  refine .ite (fun _ => .some (hrefuse t hr.reloads _)) fun _ => ?_
  cases hlook : t.mlook (t.ilist i).addr0 with
  | none => exact .some (hrefuse t hr.reloads _)
  | some m =>
      dsimp only
      refine .ite (fun _ => .some (hrefuse t hr.reloads _)) fun hroot => ?_
      refine (ensures_isync io).bind fun u hu => ?_
      have hsync : Reloads s u := hr.reloads.congr_right hu
      refine .ite (fun _ => .some (hrefuse u hsync _)) fun hidle => ?_
      have hclear : u.Clear (t.ilist i).addr0 := fun j hj =>
        (h.reloads hsync).unused (not_not.mp fun hc => hidle ⟨j, hj, .inr (.inr hc)⟩)
      refine (ensures_iflush io hclear).bind fun v hv => ?_
      refine .ite (fun herror => .some ?_) fun _ => .none
      refine ⟨(hsync.trans hv).congr_right (tables_doIo io v), herror, ?_, ?_⟩
      · rw [← hr.reloads.mlist]
        exact mlook_some hlook
      · rw [← hr.reloads.rootdev]
        exact hroot

end Sys

/-! ## `mount` -/

/-- What `mount` has done when it comes to its last `iget`: the file system is in the table and mounted
on the inode, in `u` still free. -/
structure Grafted (s : Sys n) (m : Made n) (u t : Sys n) : Prop where
  reloads : Reloads s u
  free : (u.ref m.id).mount = none
  ref : t.ref = Function.update u.ref m.id ((u.ref m.id).graft m.entry)
  entry : (s.mlist m.entry).dev = 0
  mlist : ∃ e : Mount n, e.dev ≠ 0 ∧ e.inode = some m.id ∧
    t.mlist = Function.update s.mlist m.entry e
  rootdev : t.rootdev = s.rootdev
  error : t.error = none

namespace Sys

variable {io : Io} {s t : Sys n} {k : ℕ}

/-- It is refused, or goes on. -/
def Enters (s : Sys n) (r : Option (Made n) × Sys n) : Prop :=
  match r with
  | (none, t) => Reloads s t ∧ t.error ≠ none
  | (some m, t) => ∃ u, Grafted s m u t

lemma Enters.after {r : Option (Made n) × Sys n} (h : t.Enters r) (hst : Reloads s t) :
    s.Enters r := by
  obtain ⟨m | m, u⟩ := r
  · exact ⟨hst.trans h.1, h.2⟩
  · obtain ⟨v, hv⟩ := h
    obtain ⟨e, hdev, hinode, hmlist⟩ := hv.mlist
    exact ⟨v, hst.trans hv.reloads, hv.free, hv.ref, hst.mlist ▸ hv.entry,
      ⟨e, hdev, hinode, hst.mlist ▸ hmlist⟩, hv.rootdev.trans hst.rootdev, hv.error⟩

lemma ensures_graft (fuel : ℕ) (dname : Path) (ronly : Bool) (dev inum idev : ℕ) (h : Tidy k s)
    (hk : k ≤ 255) : Ensures (s.graft io fuel dname ronly dev inum idev) s.Enters := by
  refine (ensures_iname io fuel dname h hk).bind fun r hr => ?_
  obtain ⟨id | id, t⟩ := r
  · exact .some ⟨hr.reloads, hr.error rfl⟩
  have hrefuse : ∀ u : Sys n, u.tables = t.tables → u.error ≠ none →
      s.Enters (none, u.irelse id) := fun u hu herror =>
    ⟨hr.reloads.congr_right ((tables_irelse u id).trans hu), error_irelse.symm ▸ herror⟩
  dsimp only
  refine .ite (fun _ => .some (hrefuse _ (tables_fail t _) nofun)) fun _ => ?_
  refine .ite (fun _ => .some (hrefuse _ (tables_fail t _) nofun)) fun hfree => ?_
  obtain ⟨hlook, hmount⟩ := not_or.mp hfree
  have hlook : t.mlook dev = none := not_not.mp hlook
  refine .ite (fun hopen => .some (hrefuse _ (tables_doIo io t) hopen)) fun _ => ?_
  rw [tmount]
  cases hslot : (t.doIo io).mlook 0 with
  | none => exact .some (hrefuse _ rfl nofun)
  | some m =>
      dsimp only
      by_cases hread : ((t.doIo io).doIo io).error = none
      · rw [if_neg (not_not.mpr hread)]
        have hzero : (t.mlist m).dev = 0 := mlook_some hslot
        have hdev : dev ≠ 0 := fun h0 => mlook_none hlook m (hzero.trans h0.symm)
        let e : Mount n :=
          ⟨dev, some id, ronly, io.fsize (t.doIo io).ios, io.isize (t.doIo io).ios⟩
        refine .some ⟨t, hr.reloads, not_not.mp hmount, ?_, ?_, ⟨e, hdev, rfl, ?_⟩, ?_, hread⟩
        · rw [ref_hold, ref_modSlot, Function.update_self, Function.update_idem]
          rfl
        · rw [← hr.reloads.mlist]
          exact hzero
        · exact congrArg (fun l => Function.update l m e) hr.reloads.mlist
        · exact hr.reloads.rootdev
      · rw [if_pos hread]
        exact .some (hrefuse _ rfl hread)

lemma ensures_entered (fuel : ℕ) (ioname dname : Path) (ronly : Bool) (h : Tidy k s) (hk : k ≤ 255) :
    Ensures (s.entered io fuel ioname dname ronly) s.Enters := by
  refine .ite (fun _ => ?_) fun _ => .some ⟨.of_tables (tables_fail s _), nofun⟩
  refine (ensures_iname io fuel ioname h hk).bind fun r hr => ?_
  obtain ⟨i | i, t⟩ := r
  · exact .some ⟨hr.reloads, hr.error rfl⟩
  have hrelse : Reloads s (t.irelse i) := hr.reloads.congr_right (tables_irelse t i)
  refine .ite (fun _ => .some ⟨hrelse.congr_right (tables_fail _ _), nofun⟩) fun _ => ?_
  exact (ensures_graft fuel dname ronly _ _ _ (h.reloads hrelse) hk).mono fun r hr => hr.after hrelse

/-- The special file is got and counted, or an error is left. -/
def Counts (s : Sys n) (r : Option (Fin n) × Sys n) : Prop :=
  ∃ v, Reloads s v ∧
    match r with
    | (none, t) => t.tables = v.tables ∧ t.error ≠ none
    | (some a, t) => t.tables = (v.hold a).tables ∧ (s.error = none → t.error = none)

lemma ensures_countIo (fuel : ℕ) (m : Made n) (h : Tidy k s) :
    Ensures (s.countIo io fuel m) s.Counts := by
  refine (ensures_iget io fuel _ _ h).bind fun r hr => ?_
  obtain ⟨a | a, v⟩ := r
  · refine .some ⟨v, hr.reloads, tables_irelse v _, ?_⟩
    rw [error_irelse]
    exact hr.error rfl
  · refine .some ⟨v, hr.reloads, (tables_irelse _ _).trans (tables_irelse _ _), fun hs => ?_⟩
    rw [error_irelse, error_irelse]
    exact hr.quiet nofun hs

/-- `mount` does not get the special file back exactly if `iget` fails. -/
lemma countIo_iget {fuel : ℕ} {m : Made n} {r : Option (Fin n) × Sys n}
    (h : s.countIo io fuel m = some r) :
    r.1 = none ↔ ∃ v, iget io fuel m.inum m.idev s = some (none, v) := by
  obtain ⟨⟨a, v⟩, hget, h⟩ := Option.bind_eq_some_iff.mp h
  rw [hget]
  cases a with
  | none =>
      cases h
      exact ⟨fun _ => ⟨v, rfl⟩, fun _ => rfl⟩
  | some a =>
      cases h
      refine ⟨nofun, ?_⟩
      rintro ⟨w, hw⟩
      cases hw

end Sys

/-! ## The calls -/

/-- What the kernel keeps: nothing is mounted on an inode that nobody refers to, there are fewer
references to an inode than its count can hold (there are 60 open files, 20 current directories and 4
mounts), and a free entry of the table is clear.  A call begins without an error. -/
structure Ready (s : Sys n) : Prop where
  tidy : Tidy 250 s
  free : ∀ m, (s.mlist m).dev = 0 → s.mlist m = Mount.zero
  error : s.error = none

/-- The device is mounted. -/
def Mounted (s : Sys n) (dev : ℕ) : Prop := dev ≠ 0 ∧ ∃ m, (s.mlist m).dev = dev

/-- The file was a block special file. -/
def Target.Special (d : Target n) : Prop := d.mode &&& IFMT = IFBLK

/-- What is asked of `umount`: where it succeeds, the file that it was called for was a block special
file with a device that is mounted and not the root's; where it fails, nothing has changed. -/
def Unmounts (s : Sys n) (d : Option (Target n)) (t : Sys n) : Prop :=
  (t.error = none → ∃ x, d = some x ∧ x.Special ∧ Mounted s x.dev ∧ x.dev ≠ s.rootdev) ∧
    (t.error ≠ none → Reloads s t)

section

variable {io : Io} {fuel : ℕ} {s t : Sys n}

/-- What has been unmounted is not as it was. -/
lemma not_reloads_detach {d : Target n} {u : Sys n} (hu : Reloads s u)
    (ht : u.detach io d = some t) : ¬Reloads s t := by
  intro h
  have hcount : (t.ref d.file).count = (u.ref d.file).count :=
    (h.like d.file).count.trans (hu.like d.file).count.symm
  rw [(Sys.detach_spec ht).2.2.2] at hcount
  exact released_count _ _ _ hcount

lemma umount_iff (h : Ready s) {ioname : Path} {d : Option (Target n)}
    (hrun : s.umount io fuel ioname = some (d, t)) :
    Unmounts s d t ↔
      ∀ x u, s.cleared io fuel ioname = some (some x, u) →
        x.Special ∧ x.dev ≠ 0 ∧ ∀ v, u.detach io x = some v → ¬Failed io u v := by
  obtain ⟨⟨c, u⟩, hcleared, hrun⟩ := Option.bind_eq_some_iff.mp hrun
  have hclears := Sys.ensures_cleared fuel ioname h.tidy (by decide) _ hcleared
  cases c with
  | none =>
      cases hrun
      refine ⟨fun _ x v hx => ?_, fun _ => ⟨fun he => absurd he hclears.2, fun _ => hclears.1⟩⟩
      rw [hcleared] at hx
      cases hx
  | some x =>
      obtain ⟨v, hv, hrun⟩ := Option.bind_eq_some_iff.mp hrun
      cases hrun
      have hfailed : t.error ≠ none ↔ Failed io u t :=
        (Sys.detach_spec hv).1.error_iff hclears.error
      constructor
      · intro hmeets y w hy
        rw [hcleared] at hy
        cases hy
        have hsuccess : t.error = none :=
          not_not.mp fun he => not_reloads_detach hclears.reloads hv (hmeets.2 he)
        obtain ⟨y, hy, hspecial, hmounted, -⟩ := hmeets.1 hsuccess
        cases hy
        refine ⟨hspecial, hmounted.1, fun w hw => ?_⟩
        rw [hv] at hw
        cases hw
        exact fun hf => hfailed.mpr hf hsuccess
      · intro hcond
        obtain ⟨hspecial, hdev, hlast⟩ := hcond x u hcleared
        have hsuccess : t.error = none := not_not.mp fun he => hlast t hv (hfailed.mp he)
        exact ⟨fun _ => ⟨x, rfl, hspecial, ⟨hdev, x.entry, hclears.entry⟩, hclears.dev⟩,
          fun he => absurd hsuccess he⟩

/-- What has been mounted is not as it was. -/
lemma not_reloads_graft {m : Made n} {u v : Sys n} (hu : Grafted s m v u) (ht : Reloads u t) :
    ¬Reloads s t := by
  intro h
  obtain ⟨e, hdev, -, hmlist⟩ := hu.mlist
  have hentry : t.mlist m.entry = e := by rw [ht.mlist, hmlist, Function.update_self]
  rw [h.mlist] at hentry
  exact hdev (hentry ▸ hu.entry)

/-- What `mount` ends with: it has refused, has left everything in place, or has succeeded. -/
lemma mount_cases (h : Ready s) {ioname dname : Path} {ronly : Bool}
    {r : Option (Made n × Option (Fin n))} (hrun : s.mount io fuel ioname dname ronly = some (r, t)) :
    (r = none ∧ s.entered io fuel ioname dname ronly = some (none, t) ∧ Reloads s t ∧
        t.error ≠ none) ∨
      ∃ m a u v, r = some (m, a) ∧ s.entered io fuel ioname dname ronly = some (some m, u) ∧
        Grafted s m v u ∧ Tidy 251 u ∧ u.countIo io fuel m = some (a, t) ∧ u.Counts (a, t) := by
  obtain ⟨⟨c, u⟩, hentered, hrun⟩ := Option.bind_eq_some_iff.mp hrun
  have henters := Sys.ensures_entered fuel ioname dname ronly h.tidy (by decide) _ hentered
  cases c with
  | none =>
      cases hrun
      exact .inl ⟨rfl, hentered, henters.1, henters.2⟩
  | some m =>
      obtain ⟨v, hv⟩ := henters
      obtain ⟨⟨a, w⟩, hcount, hrun⟩ := Option.bind_eq_some_iff.mp hrun
      cases hrun
      have htidy : Tidy 251 u :=
        (h.tidy.reloads hv.reloads).update hv.ref
          (Ref.hold_ne (((h.tidy.reloads hv.reloads).few m.id).trans_le (by decide)))
          (Ref.hold_lt ((h.tidy.reloads hv.reloads).few m.id))
      exact .inr ⟨m, a, u, v, rfl, hentered, hv, htidy, hcount,
        Sys.ensures_countIo fuel m htidy _ hcount⟩

lemma mount_iff (h : Ready s) {ioname dname : Path} {ronly : Bool}
    {r : Option (Made n × Option (Fin n))} (hrun : s.mount io fuel ioname dname ronly = some (r, t)) :
    (t.error ≠ none → Reloads s t) ↔
      ∀ m u, s.entered io fuel ioname dname ronly = some (some m, u) →
        ∀ v, Sys.iget io fuel m.inum m.idev u ≠ some (none, v) := by
  obtain ⟨-, hentered, hreloads, -⟩ | ⟨m, a, u, v, -, hentered, hv, -, hcount, w, hw, ha⟩ :=
    mount_cases h hrun
  · refine ⟨fun _ m v hm => ?_, fun _ _ => hreloads⟩
    rw [hentered] at hm
    cases hm
  · have hget := Sys.countIo_iget hcount
    cases a with
    | none =>
        obtain ⟨x, hx⟩ := hget.mp rfl
        exact ⟨fun hr => absurd (hr ha.2) (not_reloads_graft hv (hw.congr_right ha.1)),
          fun hcond => absurd hx (hcond m u hentered x)⟩
    | some a =>
        refine ⟨fun _ m' u' hm' x hx => ?_, fun _ he => absurd (ha.2 hv.error) he⟩
        rw [hentered] at hm'
        cases hm'
        cases hget.mpr ⟨x, hx⟩

/-- The references of a slot after `mount` (up to `t`) and `umount`, where both have found the special
file in the same slot. -/
lemma like_restored {m : Made n} {a : Fin n} {u v w x : Sys n} (hs : Tidy 250 s)
    (hv : Grafted s m v u) (hw : Reloads u w) (ht : t.tables = (w.hold a).tables)
    (hx : Reloads t x) (j : Fin n) : Like (s.ref j) (released x.ref a (some m.id) j) := by
  have hfew : (v.ref j).count.toNat < 250 := (hs.reloads hv.reloads).few j
  have hsv := hv.reloads.like j
  have huw := hw.like j
  have htx := hx.like j
  rw [hv.ref] at huw
  rw [Sys.ref_of_tables ht, Sys.ref_hold] at htx
  rw [released_apply]
  dsimp only
  have hgraft : ((v.ref j).graft m.entry).count ≠ 0 := Ref.hold_ne (hfew.trans (by decide))
  have hgraft' : ((v.ref j).graft m.entry).hold.count ≠ 0 :=
    Ref.hold_ne ((Ref.hold_lt hfew).trans (by decide))
  by_cases hid : j = m.id
  · have hfree : (v.ref j).mount = none := hid ▸ hv.free
    rw [← hid, Function.update_self] at huw
    have hwj := huw.eq hgraft
    rw [if_pos hid]
    by_cases ha : j = a
    · rw [← ha, Function.update_self, hwj] at htx
      rw [if_pos ha, htx.eq hgraft', Ref.drop_hold, Ref.prune_graft hfree]
      exact hsv
    · rw [Function.update_of_ne ha, hwj] at htx
      rw [if_neg ha, htx.eq hgraft, Ref.prune_graft hfree]
      exact hsv
  · rw [Function.update_of_ne hid] at huw
    rw [if_neg hid]
    have hwfew : (w.ref j).count.toNat < 255 := huw.count ▸ hfew.trans (by decide)
    by_cases ha : j = a
    · rw [← ha, Function.update_self] at htx
      rw [if_pos ha, htx.eq (Ref.hold_ne hwfew), Ref.drop_hold]
      exact hsv.trans huw
    · rw [Function.update_of_ne ha] at htx
      rw [if_neg ha]
      exact (hsv.trans huw).trans htx

/-- The slot that `mount` has counted keeps that reference if `umount` gives another one back. -/
lemma count_other {m : Made n} {a file : Fin n} {u v w x : Sys n} (hv : Grafted s m v u)
    (hw : Reloads u w) (ht : t.tables = (w.hold a).tables) (hx : Reloads t x) (ha : file ≠ a) :
    (released x.ref file (some m.id) a).count = (s.ref a).count + 1 := by
  have hsv := (hv.reloads.like a).count
  have huw := (hw.like a).count
  have htx := (hx.like a).count
  rw [hv.ref] at huw
  rw [Sys.ref_of_tables ht, Sys.ref_hold, Function.update_self] at htx
  have htx : (x.ref a).count = (w.ref a).count + 1 := htx
  rw [released_apply]
  dsimp only
  rw [if_neg ha.symm]
  by_cases hid : a = m.id
  · rw [← hid, Function.update_self] at huw
    have huw : (w.ref a).count = (v.ref a).count + 1 := huw
    rw [if_pos hid]
    show (x.ref a).count - 1 = _
    rw [htx, huw, hsv]
    exact BitVec.add_sub_cancel _ 1
  · rw [Function.update_of_ne hid] at huw
    rw [if_neg hid, htx, huw, hsv]

/-- `mount` and then `umount`, both without an error. -/
lemma restored_iff (h : Ready s) {ioname dname : Path} {ronly : Bool}
    {r : Option (Made n × Option (Fin n))} (hmount : s.mount io fuel ioname dname ronly = some (r, t))
    (hsuccess : t.error = none) :
    ∃ m a, r = some (m, some a) ∧
      ∀ name d u, t.umount io fuel name = some (d, u) → u.error = none →
        ∃ x, d = some x ∧ (x.entry = m.entry → (Reloads s u ↔ x.file = a)) := by
  obtain ⟨-, -, -, herror⟩ | ⟨m, a, u, v, rfl, -, hv, htidy, -, w, hw, ha⟩ := mount_cases h hmount
  · exact absurd hsuccess herror
  cases a with
  | none => exact absurd hsuccess ha.2
  | some a =>
      refine ⟨m, a, rfl, fun name d y humount hy => ?_⟩
      have htidy : Tidy 252 t := ((htidy.reloads hw).hold (by decide) a).tables ha.1
      obtain ⟨⟨c, x⟩, hcleared, humount⟩ := Option.bind_eq_some_iff.mp humount
      have hclears := Sys.ensures_cleared fuel name htidy (by decide) _ hcleared
      cases c with
      | none =>
          cases humount
          exact absurd hy hclears.2
      | some d =>
          obtain ⟨y, hdetach, humount⟩ := Option.bind_eq_some_iff.mp humount
          cases humount
          refine ⟨d, rfl, fun hentry => ?_⟩
          obtain ⟨-, hrootdev, hmlist, href⟩ := Sys.detach_spec hdetach
          obtain ⟨e, -, hinode, htable⟩ := hv.mlist
          have hxmlist : x.mlist = Function.update s.mlist m.entry e :=
            hclears.reloads.mlist.trans (((Prod.mk.inj ha.1).1.trans hw.mlist).trans htable)
          rw [hxmlist, hentry, Function.update_self, hinode] at href
          constructor
          · intro hreloads
            by_contra hfile
            have hcount := (hreloads.like a).count
            rw [href, count_other hv hw ha.1 hclears.reloads hfile] at hcount
            bv_omega
          · rintro rfl
            refine ⟨?_, ?_, fun j => ?_⟩
            · rw [hmlist, hxmlist, hentry, Function.update_idem, ← h.free m.entry hv.entry]
              exact Function.update_eq_self m.entry s.mlist
            · have htrootdev : t.rootdev = w.rootdev := (Prod.mk.inj (Prod.mk.inj ha.1).2).1
              exact hrootdev.trans (hclears.reloads.rootdev.trans
                (htrootdev.trans (hw.rootdev.trans hv.rootdev)))
            · rw [href]
              exact like_restored h.tidy hv hw ha.1 hclears.reloads j

end

/-- **Mounting.**  `umount` does what is asked of it exactly if a file that it goes on with is a block
special file, its device is not 0, and the last i/o of closing the device and giving the inodes back
succeeds.  A `mount` that fails leaves everything as it was exactly if it does not come to an `iget` of
the special file that fails.  A `mount` and an `umount` of the same entry restore the tables exactly if
`umount` has been called for the slot that `mount` has counted. -/
theorem mounting {s : Sys n} (h : Ready s) (io : Io) (fuel : ℕ) :
    (∀ ioname d t, s.umount io fuel ioname = some (d, t) →
      (Unmounts s d t ↔
        ∀ x u, s.cleared io fuel ioname = some (some x, u) →
          x.Special ∧ x.dev ≠ 0 ∧ ∀ v, u.detach io x = some v → ¬Failed io u v)) ∧
      (∀ ioname dname ronly r t, s.mount io fuel ioname dname ronly = some (r, t) →
        ((t.error ≠ none → Reloads s t) ↔
          ∀ m u, s.entered io fuel ioname dname ronly = some (some m, u) →
            ∀ v, Sys.iget io fuel m.inum m.idev u ≠ some (none, v))) ∧
      ∀ ioname dname ronly r t, s.mount io fuel ioname dname ronly = some (r, t) → t.error = none →
        ∃ m a, r = some (m, some a) ∧
          ∀ name d u, t.umount io fuel name = some (d, u) → u.error = none →
            ∃ x, d = some x ∧ (x.entry = m.entry → (Reloads s u ↔ x.file = a)) :=
  ⟨fun _ _ _ hrun => umount_iff h hrun, fun _ _ _ _ _ hrun => mount_iff h hrun,
    fun _ _ _ _ _ hrun hsuccess => restored_iff h hrun hsuccess⟩

namespace Sample

/-- A root directory, a directory, a disk with device 513 and a file whose first block is block 513. -/
def ilist (mounted : Bool) (i : Fin 4) : Inode :=
  let c : BitVec 8 := if mounted then 1 else 0
  if i = 0 then ⟨⟨1, 1, 2, none⟩, ⟨0o140755, 2, 40⟩, false, false, 1⟩
  else if i = 1 then ⟨⟨1, 2, c, if mounted then some 1 else none⟩, ⟨0o140755, 2, 41⟩, false, false, 2⟩
  else if i = 2 then ⟨⟨1, 3, c, none⟩, ⟨0o160600, 1, 513⟩, false, false, 3⟩
  else ⟨⟨1, 4, 0, none⟩, ⟨0o100644, 1, 513⟩, false, false, 4⟩

def mlist (mounted : Bool) (m : Fin NMOUNT) : Mount 4 :=
  if m = 0 then ⟨1, none, false, 1000, 20⟩
  else if m = 1 ∧ mounted then ⟨513, some 1, false, 900, 10⟩
  else Mount.zero

def sys (mounted : Bool) : Sys 4 := ⟨mlist mounted, ilist mounted, 1, 0, 0, true, none, 4, 0⟩

/-- No i/o fails, and `dlook` finds what it is told to. -/
def disk (entry : ℕ → ℕ) : Io := ⟨fun _ => none, fun _ => ⟨0, 0, 0⟩, entry, fun _ => 900, fun _ => 10⟩

/-- The disk, the directory, and then the disk again. -/
def names (k : ℕ) : ℕ := if k = 1 then 2 else 3

lemma ready (mounted : Bool) : Ready (sys mounted) where
  tidy := ⟨by cases mounted <;> decide, by cases mounted <;> decide⟩
  free := by cases mounted <;> decide
  error := rfl

end Sample

open Sample in
/-- The disk is mounted on the directory and unmounted. -/
theorem mounting_disk : ∃ r t d u,
    (sys false).mount (disk names) 2 ⟨true, 1⟩ ⟨true, 1⟩ false = some (r, t) ∧
      t.umount (disk names) 2 ⟨true, 1⟩ = some (d, u) ∧ Reloads (sys false) u := by
  have hrun : ((sys false).mount (disk names) 2 ⟨true, 1⟩ ⟨true, 1⟩ false >>= fun r =>
      (r.2.umount (disk names) 2 ⟨true, 1⟩).map fun q => (r.1, r.2.error, q.1, q.2.error)) =
      some (some (⟨1, 1, 3, 1⟩, some 2), none, some ⟨2, 0o160600, 513, 1⟩, none) := by rfl
  obtain ⟨⟨r, t⟩, hmount, hrun⟩ := Option.bind_eq_some_iff.mp hrun
  obtain ⟨⟨d, u⟩, humount, hends⟩ := Option.map_eq_some_iff.mp hrun
  obtain ⟨hr, hends⟩ := Prod.mk.inj hends
  obtain ⟨ht, hends⟩ := Prod.mk.inj hends
  obtain ⟨hd, hu⟩ := Prod.mk.inj hends
  refine ⟨r, t, d, u, hmount, humount, ?_⟩
  obtain ⟨m, a, hra, hrestored⟩ := (mounting (ready false) (disk names) 2).2.2 _ _ _ r t hmount ht
  obtain ⟨x, hx, hiff⟩ := hrestored _ d u humount hu
  cases hr.symm.trans hra
  cases hd.symm.trans hx
  exact (hiff rfl).mpr rfl

open Sample in
/-- `umount` of a file that is not a special file unmounts the disk whose number the file has as that of
its first block. -/
theorem umount_file : ∃ d t, Ready (sys true) ∧
    (sys true).umount (disk fun _ => 4) 2 ⟨true, 1⟩ = some (d, t) ∧ ¬Unmounts (sys true) d t := by
  have hrun : ((sys true).umount (disk fun _ => 4) 2 ⟨true, 1⟩).map (fun q => (q.1, q.2.error)) =
      some (some ⟨3, 0o100644, 513, 1⟩, none) := by rfl
  obtain ⟨⟨d, t⟩, humount, hends⟩ := Option.map_eq_some_iff.mp hrun
  obtain ⟨hd, ht⟩ := Prod.mk.inj hends
  refine ⟨d, t, ready true, humount, fun hmeets => ?_⟩
  obtain ⟨x, hx, hspecial, -⟩ := hmeets.1 ht
  cases hd.symm.trans hx
  have hmode : (0o100644 : BitVec 16) &&& IFMT = IFBLK := hspecial
  exact absurd hmode (by decide)

end Mounting

end Micronix
