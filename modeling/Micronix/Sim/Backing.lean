import Micronix.Sim.Harddisk
import Mathlib.Tactic.Ring

/-!
# The backing store of a drive

A formatted drive is a store with one value for each address, as long as the geometry is left alone
wherever a sector that has been written depends on it (`Settled`): the number of sectors on a track
places all tracks but the first, and the number of heads places all cylinders but the first.
-/

namespace Micronix

namespace Harddisk

/-! ## Places -/

/-- Digits of a mixed radix. -/
lemma digits_inj {s s' t t' r : ℤ} (hs : 0 ≤ s) (hlt : s < r) (hs' : 0 ≤ s') (hlt' : s' < r)
    (h : s + r * t = s' + r * t') : s = s' ∧ t = t' := by
  have hmod : s = s' := by
    have := congrArg (· % r) h
    simpa only [Int.add_mul_emod_self_left, Int.emod_eq_of_lt hs hlt,
      Int.emod_eq_of_lt hs' hlt'] using this
  subst hmod
  exact ⟨rfl, Int.eq_of_mul_eq_mul_left (by omega) (Int.add_left_cancel h)⟩

/-- The address is in the geometry, and its place in the file has an `int`. -/
structure Within (l : Label) (n : ℕ) (a : Address) : Prop where
  cylinder : 0 ≤ a.cylinder
  head : 0 ≤ a.head
  head_lt : a.head < l.heads
  sector : 0 ≤ a.sector
  sector_lt : a.sector < l.spt
  fits : l.offset n a < 2 ^ 31

/-- The number of a sector, counted from the first one. -/
def Label.index (l : Label) (a : Address) : ℤ :=
  a.sector + l.spt * (a.head + l.heads * a.cylinder)

variable {n : ℕ} {l : Label} {a b : Address}

lemma offset_eq : l.offset n a = 2048 + n * l.index a := by
  rw [Label.offset, Label.index]
  ring

lemma Within.index_nonneg (h : Within l n a) : 0 ≤ l.index a := by
  have hheads : 0 ≤ l.heads := h.head.trans h.head_lt.le
  have hspt : 0 ≤ l.spt := h.sector.trans h.sector_lt.le
  have hcyl : 0 ≤ l.heads * a.cylinder := mul_nonneg hheads h.cylinder
  have htrack : 0 ≤ l.spt * (a.head + l.heads * a.cylinder) :=
    mul_nonneg hspt (add_nonneg h.head hcyl)
  exact add_nonneg h.sector htrack

/-- The sectors come behind the label. -/
lemma Within.le_offset (h : Within l n a) : 2048 ≤ l.offset n a := by
  rw [offset_eq]
  exact le_add_of_nonneg_right (mul_nonneg (Int.natCast_nonneg n) h.index_nonneg)

lemma Within.index_inj (ha : Within l n a) (hb : Within l n b) (h : l.index a = l.index b) :
    a = b := by
  obtain ⟨hsector, hrest⟩ := digits_inj ha.sector ha.sector_lt hb.sector hb.sector_lt h
  obtain ⟨hhead, hcylinder⟩ := digits_inj ha.head ha.head_lt hb.head hb.head_lt hrest
  cases a
  cases b
  simp_all only

/-- No byte of one sector is a byte of the other. -/
def Apart (n : ℕ) (i j : ℤ) : Prop :=
  i + n ≤ j ∨ j + n ≤ i

lemma apart_of_lt {i j : ℤ} (h : i < j) : 2048 + n * i + n ≤ 2048 + n * j := by
  have hmul : (n : ℤ) * (i + 1) ≤ n * j := mul_le_mul_of_nonneg_left h (Int.natCast_nonneg n)
  have hexp : (n : ℤ) * (i + 1) = n * i + n := by ring
  omega

/-- **Two addresses of the geometry share no bytes of the file.** -/
lemma Within.apart (ha : Within l n a) (hb : Within l n b) (hne : a ≠ b) :
    Apart n (l.offset n a) (l.offset n b) := by
  rw [offset_eq, offset_eq]
  rcases lt_trichotomy (l.index a) (l.index b) with hlt | heq | hgt
  · exact Or.inl (apart_of_lt hlt)
  · exact absurd (ha.index_inj hb heq) hne
  · exact Or.inr (apart_of_lt hgt)

/-! ## One access -/

lemma int_of_lt {x : ℤ} (h : 0 ≤ x) (hlt : x < 2 ^ 31) : int x = x := by
  rw [int]
  exact Int.bmod_eq_of_le (by omega) (by omega)

/-- The label is written over the label. -/
lemma lseek_write_label {f : File} {w : Fin 20 → UInt8} {k : ℕ} (h : 20 ≤ k) :
    ((f.lseek 0).write w).byte k = f.byte k :=
  Window.put_apply_of_not_mem (Or.inr (by simpa [File.lseek] using h))

lemma size_le_label {f : File} {w : Fin 20 → UInt8} : f.size ≤ ((f.lseek 0).write w).size :=
  le_max_left _ _

/-- What `diskoff` does for an address that is in the geometry it leaves. -/
lemma diskoff_spec {d : Drive n} (hn : 0 < n) (h : Within (d.label.bump a) n a) :
    (d.diskoff a).2 = (d.label.bump a).offset n a ∧ (d.diskoff a).1.label = d.label.bump a ∧
      d.file.size ≤ (d.diskoff a).1.file.size ∧
      ∀ k, 20 ≤ k → (d.diskoff a).1.file.byte k = d.file.byte k := by
  have hint : int ((d.label.bump a).offset n a) = (d.label.bump a).offset n a :=
    int_of_lt (by have := h.le_offset; omega) h.fits
  rw [Drive.diskoff, if_neg hn.ne']
  refine ⟨hint, rfl, ?_, fun k hk => ?_⟩
  · dsimp only
    split_ifs
    · exact le_rfl
    · exact size_le_label
  · dsimp only
    split_ifs
    · rfl
    · exact lseek_write_label hk

lemma bump_of_within (h : Within l n a) : (l.bump a).spt = l.spt ∧ (l.bump a).heads = l.heads :=
  ⟨if_neg (by have := h.sector_lt; omega), if_neg (by have := h.head_lt; omega)⟩

lemma index_congr {l' : Label} (hs : l'.spt = l.spt ∨ a.head = 0 ∧ a.cylinder = 0)
    (hh : l'.heads = l.heads ∨ a.cylinder = 0) : l'.index a = l.index a := by
  rw [Label.index, Label.index]
  rcases hs with hs | ⟨h0, h1⟩
  · rw [hs]
    rcases hh with hh | h1
    · rw [hh]
    · rw [h1, mul_zero, mul_zero]
  · rw [h0, h1, mul_zero, mul_zero, add_zero, mul_zero, mul_zero]

/-- The geometry grows only where no sector that has been written depends on it. -/
structure Settled (s : Disk n) (a : Address) : Prop where
  within : Within (s.drive.label.bump a) n a
  spt : a.sector < s.drive.label.spt ∨
    ∀ b, s.last b ≠ none → b.head = 0 ∧ b.cylinder = 0
  heads : a.head < s.drive.label.heads ∨ ∀ b, s.last b ≠ none → b.cylinder = 0

/-- What has been written stands at its place. -/
structure Sound (s : Disk n) : Prop where
  pos : 0 < n
  within : ∀ a, s.last a ≠ none → Within s.drive.label n a
  data : ∀ a w, s.last a = some w →
    Window.get n s.drive.file.byte (s.drive.label.offset n a).toNat = w ∧
      (s.drive.label.offset n a).toNat + n ≤ s.drive.file.size

lemma le_bump : l.spt ≤ (l.bump a).spt ∧ l.heads ≤ (l.bump a).heads := by
  dsimp only [Label.bump]
  constructor
  · split_ifs <;> omega
  · split_ifs <;> omega

/-- Written sectors keep their place. -/
lemma Settled.offset {s : Disk n} (h : Settled s a) (hb : s.last b ≠ none) :
    (s.drive.label.bump a).offset n b = s.drive.label.offset n b := by
  rw [offset_eq, offset_eq]
  congr 2
  refine index_congr ?_ ?_
  · rcases h.spt with hlt | hall
    · exact Or.inl (if_neg (by omega))
    · exact Or.inr (hall b hb)
  · rcases h.heads with hlt | hall
    · exact Or.inl (if_neg (by omega))
    · exact Or.inr (hall b hb)

/-- `diskoff` moves no written sector. -/
lemma Sound.diskoff {s : Disk n} (h : Sound s) (ha : Settled s a) :
    Sound ⟨(s.drive.diskoff a).1, s.last⟩ := by
  obtain ⟨-, hlabel, hsize, hbyte⟩ := diskoff_spec h.pos ha.within
  refine ⟨h.pos, fun b hb => ?_, fun b w hw => ?_⟩
  · have hb' := h.within b hb
    dsimp only
    rw [hlabel]
    exact ⟨hb'.cylinder, hb'.head, hb'.head_lt.trans_le le_bump.2, hb'.sector,
      hb'.sector_lt.trans_le le_bump.1, (ha.offset hb).trans_lt hb'.fits⟩
  · have hb : s.last b ≠ none := by
      rw [show s.last b = some w from hw]
      exact Option.some_ne_none w
    obtain ⟨hget, hend⟩ := h.data b w hw
    have hlo := (h.within b hb).le_offset
    dsimp only
    rw [hlabel, ha.offset hb]
    refine ⟨?_, hend.trans hsize⟩
    rw [← hget]
    funext j
    exact hbyte _ (by omega)

/-- Reading and seeking leave the store alone. -/
lemma Sound.congr {s s' : Disk n} (h : Sound s) (hlabel : s'.drive.label = s.drive.label)
    (hbyte : s'.drive.file.byte = s.drive.file.byte)
    (hsize : s'.drive.file.size = s.drive.file.size) (hlast : s'.last = s.last) : Sound s' := by
  refine ⟨h.pos, ?_, ?_⟩
  · rw [hlabel, hlast]
    exact h.within
  · rw [hlabel, hlast, hbyte, hsize]
    exact h.data

lemma lseek_of_nonneg {f : File} {x : ℤ} (h : 0 ≤ x) : f.lseek x = { f with pos := x.toNat } :=
  if_neg (by omega)

lemma driveWrite_eq {d : Drive n} {w : Fin n → UInt8} (h : 0 ≤ (d.diskoff a).2) :
    d.driveWrite a w =
      ⟨(d.diskoff a).1.label,
        { (d.diskoff a).1.file with pos := (d.diskoff a).2.toNat }.write w⟩ := by
  rw [Drive.driveWrite]
  dsimp only
  rw [lseek_of_nonneg h]

lemma Sound.write {s : Disk n} (h : Sound s) (ha : Settled s a) (w : Fin n → UInt8) :
    Sound (s.write a w) := by
  obtain ⟨hoff, hlabel, -⟩ := diskoff_spec h.pos ha.within
  have hlo := ha.within.le_offset
  have h' := h.diskoff ha
  set l' := s.drive.label.bump a with hl'
  set x := l'.offset n a with hx
  have hwithin (b : Address) (hb : Function.update s.last a (some w) b ≠ none) : Within l' n b := by
    rcases eq_or_ne b a with rfl | hne
    · exact ha.within
    · rw [Function.update_of_ne hne] at hb
      exact hlabel ▸ h'.within b hb
  rw [Disk.write, driveWrite_eq (by omega)]
  refine ⟨h.pos, ?_, fun b v hv => ?_⟩
  · dsimp only
    rw [hlabel]
    exact hwithin
  · dsimp only at hv ⊢
    rw [hlabel, hoff]
    rcases eq_or_ne b a with rfl | hne
    · rw [Function.update_self, Option.some.injEq] at hv
      subst hv
      exact ⟨Window.get_put, le_max_right _ _⟩
    · rw [Function.update_of_ne hne] at hv
      obtain ⟨hget, hend⟩ := h'.data b v hv
      dsimp only at hget hend
      rw [hlabel] at hget hend
      have hb : Within l' n b := hwithin b (by
        rw [Function.update_of_ne hne, hv]
        exact Option.some_ne_none v)
      have hlo' := hb.le_offset
      have hapart := hb.apart ha.within hne
      refine ⟨?_, hend.trans (le_max_left _ _)⟩
      rw [← hget]
      refine Window.get_put_of_apart ?_
      rcases hapart with hle | hle
      · exact Or.inl (show (l'.offset n b).toNat + n ≤ x.toNat by omega)
      · exact Or.inr (show x.toNat + n ≤ (l'.offset n b).toNat by omega)

lemma Sound.read {s : Disk n} (h : Sound s) (ha : Settled s a) :
    Sound { s with drive := (s.drive.driveRead a).1 } := by
  obtain ⟨hoff, -⟩ := diskoff_spec h.pos ha.within
  have hlo := ha.within.le_offset
  have hseek : (s.drive.diskoff a).1.file.lseek (s.drive.diskoff a).2 =
      { (s.drive.diskoff a).1.file with pos := (s.drive.diskoff a).2.toNat } :=
    lseek_of_nonneg (by omega)
  refine (h.diskoff ha).congr rfl ?_ ?_ rfl
  · dsimp only [Drive.driveRead]
    rw [hseek]
  · dsimp only [Drive.driveRead]
    rw [hseek]

/-- An address of the geometry leaves it alone. -/
lemma settled_of_within {s : Disk n} (h : Within s.drive.label n a) : Settled s a := by
  obtain ⟨hspt, hheads⟩ := bump_of_within h
  refine ⟨⟨h.cylinder, h.head, hheads ▸ h.head_lt, h.sector, hspt ▸ h.sector_lt, ?_⟩,
    Or.inl h.sector_lt, Or.inl h.head_lt⟩
  rw [offset_eq, index_congr (Or.inl hspt) (Or.inl hheads), ← offset_eq]
  exact h.fits

/-- **Read back.** -/
lemma Sound.read_back {s : Disk n} (h : Sound s) {w : Fin n → UInt8} (hw : s.last a = some w) :
    (s.drive.driveRead a).2 = (n, w) := by
  have hwithin := h.within a (by
    rw [hw]
    exact Option.some_ne_none w)
  have ha : Settled s a := settled_of_within hwithin
  obtain ⟨hoff, hlabel, -⟩ := diskoff_spec h.pos ha.within
  have hlo := ha.within.le_offset
  obtain ⟨hget, hend⟩ := (h.diskoff ha).data a w hw
  dsimp only at hget hend
  rw [hlabel, ← hoff] at hget hend
  have hvalid : min n ((s.drive.diskoff a).1.file.size - (s.drive.diskoff a).2.toNat) = n := by
    omega
  dsimp only [Drive.driveRead]
  rw [lseek_of_nonneg (by omega)]
  dsimp only [File.read]
  rw [hvalid]
  refine Prod.ext rfl ?_
  rw [← hget]
  funext i
  exact if_pos i.isLt

lemma Sound.step {s s' : Disk n} {x : Access n} (h : Sound s) (ha : Settled s x.address)
    (he : s.step x = some s') : Sound s' := by
  cases x with
  | write a w =>
      obtain rfl := Option.some.inj he
      exact h.write ha w
  | read a =>
      obtain rfl := Option.some.inj he
      exact h.read ha

/-! ## Formatting -/

/-- A geometry that is not larger than another one has its places before the end of that. -/
lemma index_lt {spt heads cylinders : ℕ} (ha : a ∈ box cylinders heads spt)
    (hspt : l.spt ≤ spt) (hheads : l.heads ≤ heads) (hheads0 : 0 ≤ l.heads) :
    l.index a + 1 ≤ spt * (heads * cylinders) := by
  obtain ⟨⟨hc, hc'⟩, ⟨hh, hh'⟩, hs, hs'⟩ := mem_box.mp ha
  have hcyl : l.heads * a.cylinder ≤ heads * (cylinders - 1) :=
    mul_le_mul hheads (by omega) hc (by omega)
  have hcyl0 : 0 ≤ l.heads * a.cylinder := mul_nonneg hheads0 hc
  have htrack : a.head + l.heads * a.cylinder ≤ heads * cylinders - 1 := by
    have hexp : (heads : ℤ) * (cylinders - 1) = heads * cylinders - heads := by ring
    omega
  have hall : l.spt * (a.head + l.heads * a.cylinder) ≤ spt * (heads * cylinders - 1) :=
    mul_le_mul hspt htrack (by omega) (by omega)
  have hexp : (spt : ℤ) * (heads * cylinders - 1) = spt * (heads * cylinders) - spt := by ring
  rw [Label.index]
  omega

lemma bump_le {spt heads : ℕ} (hspt : l.spt ≤ spt) (hheads : l.heads ≤ heads)
    (hs : a.sector < spt) (hh : a.head < heads) :
    (l.bump a).spt ≤ spt ∧ (l.bump a).heads ≤ heads := by
  dsimp only [Label.bump]
  constructor
  · split_ifs <;> omega
  · split_ifs <;> omega

lemma lt_bump : a.sector < (l.bump a).spt ∧ a.head < (l.bump a).heads := by
  dsimp only [Label.bump]
  constructor
  · split_ifs <;> omega
  · split_ifs <;> omega

/-- While tracks are written one after the other, nothing that has been written moves. -/
lemma settled_of_orderly {s : Disk n} {spt heads cylinders : ℕ} {written : List Address}
    (hs : Sound s) (hfit : 2048 + n * (spt * (heads * cylinders)) ≤ 2 ^ 31)
    (hspt : s.drive.label.spt ≤ spt) (hheads : s.drive.label.heads ≤ heads)
    (hheads0 : 0 ≤ s.drive.label.heads)
    (hlast : ∀ b, s.last b ≠ none ↔ b ∈ written)
    (hall : ∀ b ∈ written, b ∈ box cylinders heads spt)
    (hbefore : ∀ b ∈ written, ∀ c ∈ box cylinders heads spt, c.Before b → c ∈ written)
    (ha : a ∈ box cylinders heads spt) : Settled s a := by
  obtain ⟨⟨hc, hc'⟩, ⟨hh, hh'⟩, hsec, hsec'⟩ := mem_box.mp ha
  obtain ⟨hspt', hheads'⟩ := bump_le hspt hheads hsec' hh'
  have hindex : (s.drive.label.bump a).index a + 1 ≤ spt * (heads * cylinders) :=
    index_lt ha hspt' hheads' (hheads0.trans le_bump.2)
  have hmul : (n : ℤ) * ((s.drive.label.bump a).index a + 1) ≤ n * (spt * (heads * cylinders)) :=
    mul_le_mul_of_nonneg_left hindex (Int.natCast_nonneg n)
  have hexp : (n : ℤ) * ((s.drive.label.bump a).index a + 1) =
      n * (s.drive.label.bump a).index a + n := by ring
  have hfit' : 2048 + (n : ℤ) * (spt * (heads * cylinders)) ≤ 2 ^ 31 := by exact_mod_cast hfit
  have hpos := hs.pos
  refine ⟨⟨hc, hh, lt_bump.2, hsec, lt_bump.1, ?_⟩, ?_, ?_⟩
  · rw [offset_eq]
    omega
  · -- a sector of the first track comes before all other tracks
    refine (lt_or_ge a.sector s.drive.label.spt).imp_right fun hge b hb => ?_
    have hbw := (hlast b).mp hb
    obtain ⟨⟨hbc, -⟩, ⟨hbh, -⟩, -⟩ := mem_box.mp (hall b hbw)
    by_contra hne
    have hfirst : (⟨0, 0, a.sector⟩ : Address) ∈ box cylinders heads spt :=
      mem_box.mpr ⟨⟨le_rfl, hc.trans_lt hc'⟩, ⟨le_rfl, hh.trans_lt hh'⟩, hsec, hsec'⟩
    have hin := hbefore b hbw _ hfirst (by
      dsimp only [Address.Before]
      omega)
    have hlt := (hs.within _ ((hlast _).mpr hin)).sector_lt
    exact absurd hlt (by simpa using hge)
  · refine (lt_or_ge a.head s.drive.label.heads).imp_right fun hge b hb => ?_
    have hbw := (hlast b).mp hb
    obtain ⟨⟨hbc, -⟩, -⟩ := mem_box.mp (hall b hbw)
    by_contra hne
    have hfirst : (⟨0, a.head, a.sector⟩ : Address) ∈ box cylinders heads spt :=
      mem_box.mpr ⟨⟨le_rfl, hc.trans_lt hc'⟩, ⟨hh, hh'⟩, hsec, hsec'⟩
    have hin := hbefore b hbw _ hfirst (by
      dsimp only [Address.Before]
      omega)
    have hlt := (hs.within _ ((hlast _).mpr hin)).head_lt
    exact absurd hlt (by simpa using hge)

lemma write_label {s : Disk n} {w : Fin n → UInt8} (hs : Sound s) (ha : Settled s a) :
    (s.write a w).drive.label = s.drive.label.bump a := by
  obtain ⟨hoff, hlabel, -⟩ := diskoff_spec hs.pos ha.within
  have hlo := ha.within.le_offset
  rw [Disk.write, driveWrite_eq (by omega)]
  exact hlabel

lemma Sound.format {fill : Address → Fin n → UInt8} {spt heads cylinders : ℕ}
    (hfit : 2048 + n * (spt * (heads * cylinders)) ≤ 2 ^ 31) {written as : List Address}
    (ho : Orderly (box cylinders heads spt) written as) {s : Disk n} (hs : Sound s)
    (hspt : s.drive.label.spt ≤ spt) (hheads : s.drive.label.heads ≤ heads)
    (hheads0 : 0 ≤ s.drive.label.heads)
    (hlast : ∀ b, s.last b ≠ none ↔ b ∈ written)
    (hall : ∀ b ∈ written, b ∈ box cylinders heads spt)
    (hbefore : ∀ b ∈ written, ∀ c ∈ box cylinders heads spt, c.Before b → c ∈ written) :
    Sound (Disk.format fill s as) := by
  induction as generalizing written s with
  | nil => exact hs
  | cons a as ih =>
      obtain ⟨ha, hbef, ho⟩ := ho
      obtain ⟨-, ⟨hh, hh'⟩, hsec, hsec'⟩ := mem_box.mp ha
      have hset : Settled s a :=
        settled_of_orderly hs hfit hspt hheads hheads0 hlast hall hbefore ha
      have hlabel := write_label (w := fill a) hs hset
      have hle := bump_le (l := s.drive.label) hspt hheads hsec' hh'
      refine ih ho (hs.write hset (fill a)) ?_ ?_ ?_ (fun b => ?_) ?_ fun b hb c hc hcb => ?_
      · rw [hlabel]
        exact hle.1
      · rw [hlabel]
        exact hle.2
      · rw [hlabel]
        exact hheads0.trans le_bump.2
      · rw [List.mem_cons, ← hlast b]
        dsimp only [Disk.write]
        rcases eq_or_ne b a with rfl | hne
        · simp
        · rw [Function.update_of_ne hne]
          simp [hne]
      · exact List.forall_mem_cons.mpr ⟨ha, hall⟩
      · rcases List.mem_cons.mp hb with rfl | hb
        · exact List.mem_cons_of_mem _ (hbef c hc hcb)
        · exact List.mem_cons_of_mem _ (hbefore b hb c hc hcb)

lemma Formatted.sound {s : Disk n} (h : Formatted s) : Sound s := by
  obtain ⟨cylinders, heads, spt, as, fill, file, hn, hfit, ho, -, rfl⟩ := h
  refine Sound.format hfit ho ⟨hn, fun a ha => absurd rfl ha, fun a w hw => by cases hw⟩
    (Int.natCast_nonneg _) (Int.natCast_nonneg _) le_rfl (fun b => ?_)
    (fun b hb => absurd hb List.not_mem_nil) fun b hb => absurd hb List.not_mem_nil
  exact iff_of_false (fun h => h rfl) List.not_mem_nil

/-- **Backing store.**  As long as every access leaves the geometry alone where written sectors
depend on it, `drive_read` returns what was written last at its address, and two addresses share no
bytes. -/
theorem backing_store {s : Disk n}
    (h : Transition.Reach Disk.step Formatted (fun s x => Settled s x.address) s) :
    (∀ a w, s.last a = some w →
      Within s.drive.label n a ∧ (s.drive.driveRead a).2 = (n, w)) ∧
    ∀ a b, Within s.drive.label n a → Within s.drive.label n b → a ≠ b →
      Apart n (s.drive.diskoff a).2 (s.drive.diskoff b).2 := by
  have hs : Sound s := h.invariant (fun _ h => h.sound) fun _ _ _ hs ha he => hs.step ha he
  refine ⟨fun a w hw => ⟨hs.within a ?_, hs.read_back hw⟩, fun a b ha hb hne => ?_⟩
  · rw [hw]
    exact Option.some_ne_none w
  · have hoff {c : Address} (hc : Within s.drive.label n c) :
        (s.drive.diskoff c).2 = s.drive.label.offset n c := by
      have hset : Settled s c := settled_of_within hc
      obtain ⟨hspt, hheads⟩ := bump_of_within hc
      rw [(diskoff_spec hs.pos hset.within).1, offset_eq,
        index_congr (Or.inl hspt) (Or.inl hheads), ← offset_eq]
    rw [hoff ha, hoff hb]
    exact ha.apart hb hne

/-- A drive of two tracks with one sector of one byte each. -/
def twoTracks : Disk 1 :=
  Disk.format (fun a _ => if a.head = 0 then 1 else 2) ⟨⟨⟨0, 0, 0⟩, ⟨0, fun _ => 0, 0⟩⟩, fun _ => none⟩
    [⟨0, 0, 0⟩, ⟨0, 1, 0⟩]

lemma twoTracks_formatted : Formatted twoTracks :=
  ⟨1, 2, 1, [⟨0, 0, 0⟩, ⟨0, 1, 0⟩], _, _, by decide, by decide, by decide, by decide, rfl⟩

/-- The second track is read back. -/
theorem backing_store_twoTracks : (twoTracks.drive.driveRead ⟨0, 1, 0⟩).2 = (1, fun _ => 2) :=
  ((backing_store (.start twoTracks_formatted)).1 ⟨0, 1, 0⟩ (fun _ => 2) rfl).2

/-- A read of the second sector of the first track, where there is none, moves the second track. -/
theorem read_moves_sectors : ¬∀ (n : ℕ) (s : Disk n), Transition.Reachable Disk.step Formatted s →
    ∀ a w, s.last a = some w → (s.drive.driveRead a).2.2 = w := by
  intro h
  have hreach : Transition.Reachable Disk.step Formatted
      { twoTracks with drive := (twoTracks.drive.driveRead ⟨0, 0, 1⟩).1 } :=
    .step (.start twoTracks_formatted) trivial (rfl : twoTracks.step (.read ⟨0, 0, 1⟩) = _)
  have hread := congrFun (h 1 _ hreach ⟨0, 1, 0⟩ (fun _ => 2) rfl) 0
  exact absurd hread (by decide)

end Harddisk

end Micronix
