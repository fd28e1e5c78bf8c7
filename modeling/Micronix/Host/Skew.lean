import Mathlib.Data.Set.Finite.Basic
import Mathlib.Order.Interval.Set.Nat

/-!
# Sector skew

On a diskette with alternating sectors the blocks of a track are on every second sector.  The host
library reckons with 16-bit block numbers (`secmap`), the driver with bytes (`sio`); both compute
`interleave`.
-/

namespace Micronix

namespace Skew

/-! ## Every second place -/

/-- Of `n` places first the even ones, then the odd ones. -/
def interleave (n k : ℕ) : ℕ :=
  (if n % 2 = 0 ∧ n ≤ 2 * k then 2 * k + 1 else 2 * k) % n

/-- `interleave` within each track of `n` blocks. -/
def place (n b : ℕ) : ℕ :=
  b / n * n + interleave n (b % n)

variable {n k l b c : ℕ}

lemma interleave_lt (hn : 0 < n) (k : ℕ) : interleave n k < n :=
  Nat.mod_lt _ hn

/-- The first round takes the even places. -/
lemma interleave_low (h : 2 * k < n) : interleave n k = 2 * k := by
  rw [interleave, if_neg (by omega), Nat.mod_eq_of_lt h]

/-- The second round takes the odd ones: with an even `n` it has to be shifted by one. -/
lemma interleave_high (hk : k < n) (h : n ≤ 2 * k) : interleave n k = 2 * k + 1 - n % 2 - n := by
  by_cases he : n % 2 = 0
  · rw [interleave, if_pos ⟨he, h⟩, Nat.mod_eq_sub_mod (by omega), Nat.mod_eq_of_lt (by omega)]
    omega
  · rw [interleave, if_neg (fun hc => he hc.1), Nat.mod_eq_sub_mod h, Nat.mod_eq_of_lt (by omega)]
    omega

lemma interleave_inj (hk : k < n) (hl : l < n) (h : interleave n k = interleave n l) : k = l := by
  rcases Nat.lt_or_ge (2 * k) n with hk' | hk' <;> rcases Nat.lt_or_ge (2 * l) n with hl' | hl'
  · rw [interleave_low hk', interleave_low hl'] at h
    omega
  · rw [interleave_low hk', interleave_high hl hl'] at h
    omega
  · rw [interleave_high hk hk', interleave_low hl'] at h
    omega
  · rw [interleave_high hk hk', interleave_high hl hl'] at h
    omega

lemma place_div (hn : 0 < n) (b : ℕ) : place n b / n = b / n := by
  rw [place, Nat.mul_comm, Nat.mul_add_div hn, Nat.div_eq_of_lt (interleave_lt hn _), add_zero]

lemma place_mod (hn : 0 < n) (b : ℕ) : place n b % n = interleave n (b % n) := by
  rw [place, Nat.mul_comm, Nat.mul_add_mod, Nat.mod_eq_of_lt (interleave_lt hn _)]

lemma place_inj (hn : 0 < n) (h : place n b = place n c) : b = c := by
  have hd : b / n = c / n := by rw [← place_div hn b, ← place_div hn c, h]
  have hm : b % n = c % n :=
    interleave_inj (Nat.mod_lt b hn) (Nat.mod_lt c hn)
      (by rw [← place_mod hn b, ← place_mod hn c, h])
  rw [← Nat.div_add_mod b n, ← Nat.div_add_mod c n, hd, hm]

/-- The blocks of a track. -/
def track (n t : ℕ) : Set ℕ := Set.Ico (t * n) (t * n + n)

lemma mem_track (hn : 0 < n) {t : ℕ} : b ∈ track n t ↔ b / n = t := by
  rw [track, Set.mem_Ico, Nat.div_eq_iff hn]
  omega

/-- **Each track is mapped onto itself.** -/
lemma place_bijOn (hn : 0 < n) (t : ℕ) : Set.BijOn (place n) (track n t) (track n t) := by
  have hmaps : Set.MapsTo (place n) (track n t) (track n t) := fun b hb => by
    rw [mem_track hn] at hb ⊢
    rw [place_div hn, hb]
  exact ((Set.finite_Ico _ _).injOn_iff_bijOn_of_mapsTo hmaps).mp fun _ _ _ _ h => place_inj hn h

/-! ## `secmap` -/

/-- `secmap(fs, blkno)`, for an image with `spt` sectors per track. -/
def secmap (altsec : Bool) (spt blkno : ℕ) : ℕ :=
  let trk := blkno / spt
  let sec := blkno % spt
  let sec :=
    if altsec then
      let sec := sec <<< 1
      let sec := if spt &&& 1 = 0 ∧ spt ≤ sec then sec + 1 else sec
      sec % spt
    else sec
  (trk * spt + sec) % 65536

lemma secmap_alt (n b : ℕ) : secmap true n b = place n b % 65536 := by
  simp only [secmap, place, interleave, if_true, Nat.shiftLeft_eq, Nat.and_one_is_mod, pow_one,
    Nat.mul_comm _ 2]

lemma secmap_plain (n : ℕ) (hb : b < 65536) : secmap false n b = b := by
  simp only [secmap, Bool.false_eq_true, if_false]
  rw [Nat.mul_comm, Nat.div_add_mod, Nat.mod_eq_of_lt hb]

/-- A track that is within the 16-bit numbers is mapped onto itself. -/
lemma secmap_bijOn (altsec : Bool) (hn : 0 < n) {t : ℕ} (ht : t * n + n ≤ 65536) :
    Set.BijOn (secmap altsec n) (track n t) (track n t) := by
  have hlt : ∀ b ∈ track n t, b < 65536 := fun b hb => lt_of_lt_of_le hb.2 ht
  cases altsec with
  | false => exact (Set.bijOn_id _).congr fun b hb => (secmap_plain n (hlt b hb)).symm
  | true =>
      refine (place_bijOn hn t).congr fun b hb => ?_
      rw [secmap_alt, Nat.mod_eq_of_lt (hlt _ ((place_bijOn hn t).mapsTo hb))]

/-- What is left of the last track: at most one block, which stays where it is. -/
lemma place_lt (hn : 0 < n) (hr : 65536 % n ≤ 1) (hb : b < 65536) : place n b < 65536 := by
  have hlt := interleave_lt hn (b % n)
  have hsplit := Nat.div_add_mod 65536 n
  rw [Nat.mul_comm] at hsplit
  rw [place]
  rcases Nat.lt_or_ge (b / n) (65536 / n) with hd | hd
  · have hle : (b / n + 1) * n ≤ 65536 / n * n := Nat.mul_le_mul_right n hd
    rw [Nat.add_mul] at hle
    omega
  · have he : b / n = 65536 / n := le_antisymm (Nat.div_le_div_right hb.le) hd
    have hbs := Nat.div_add_mod b n
    rw [Nat.mul_comm, he] at hbs
    have hm : b % n = 0 := by omega
    rw [he, hm, interleave_low (by omega)]
    omega

/-- A longer rest is not mapped onto itself. -/
lemma not_injOn_of_rest (hn : 0 < n) (hr : 1 < 65536 % n)
    (hinj : Set.InjOn (secmap true n) (Set.Iio 65536))
    (htrack : ∀ b < 65536, secmap true n b / n = b / n) : False := by
  set r := 65536 % n with hrdef
  set t := 65536 / n with htdef
  have hsplit : t * n + r = 65536 := by
    rw [Nat.mul_comm]
    exact Nat.div_add_mod 65536 n
  have hrn : r < n := Nat.mod_lt _ hn
  -- the block in the middle of the rest
  set k := (r + 1) / 2 with hk
  have hkn : k < n := by omega
  have hlow : 2 * k < n := by
    by_contra hge
    have hodd : n = r + 1 := by omega
    obtain ⟨m, hm⟩ : ∃ m, n = 2 * m := ⟨n / 2, by omega⟩
    have : t * n = 2 * (t * m) := by rw [hm, Nat.mul_left_comm]
    omega
  have hdiv : (t * n + k) / n = t := by
    rw [Nat.mul_comm, Nat.mul_add_div hn, Nat.div_eq_of_lt hkn, add_zero]
  have hmod : (t * n + k) % n = k := by
    rw [Nat.mul_comm, Nat.mul_add_mod, Nat.mod_eq_of_lt hkn]
  have hval : secmap true n (t * n + k) = 2 * k - r := by
    rw [secmap_alt, place, hdiv, hmod, interleave_low hlow]
    omega
  rcases Nat.eq_zero_or_pos t with ht | ht
  · have h0 : secmap true n 0 = 0 := by
      rw [secmap_alt, place, Nat.zero_div, Nat.zero_mod, interleave_low hn]
      omega
    have heq : t * n + k = 0 :=
      hinj (Set.mem_Iio.mpr (by omega)) (Set.mem_Iio.mpr (by omega)) (by
        rw [h0, hval]
        rw [ht] at hsplit
        omega)
    omega
  · have := htrack (t * n + k) (by omega)
    rw [hval, hdiv, Nat.div_eq_of_lt (by omega)] at this
    omega

/-! ## `sio` -/

/-- What `sio` reads of `struct specs`. -/
structure Specs where
  ds : Bool
  spt : UInt8
  cylinder : UInt8
  toff : UInt8

/-- `D[6]`, before the corrections for its origin and its side. -/
def sector (spt : UInt8) (sec : UInt16) (alt : Bool) : UInt8 :=
  let d := (sec % spt.toUInt16).toUInt8
  if alt then
    let d := d <<< 1
    let d := if spt &&& 1 = 0 ∧ spt ≤ d then d + 1 else d
    d % spt
  else d

/-- Up to 127 sectors the bytes do not wrap. -/
lemma sector_alt {spt : UInt8} (h : 0 < spt.toNat) (h' : spt.toNat ≤ 127) (sec : UInt16) :
    (sector spt sec true).toNat = interleave spt.toNat (sec.toNat % spt.toNat) := by
  have hlt : sec.toNat % spt.toNat < spt.toNat := Nat.mod_lt _ h
  set k := sec.toNat % spt.toNat with hk
  set d : UInt8 := (sec % spt.toUInt16).toUInt8 <<< 1 with hd
  have hdn : d.toNat = 2 * k := by
    rw [hd, UInt8.toNat_shiftLeft, UInt16.toNat_toUInt8, UInt16.toNat_mod, UInt8.toNat_toUInt16,
      ← hk, Nat.shiftLeft_eq, Nat.mod_eq_of_lt (show k < 2 ^ 8 by omega)]
    show k * 2 % 256 = 2 * k
    omega
  have hcond : (spt &&& 1 = 0 ∧ spt ≤ d) ↔ spt.toNat % 2 = 0 ∧ spt.toNat ≤ 2 * k := by
    rw [← UInt8.toNat_inj, UInt8.toNat_and, UInt8.toNat_one, Nat.and_one_is_mod,
      UInt8.le_iff_toNat_le, hdn]
    rfl
  rw [interleave]
  simp only [sector, if_true, ← hd]
  rw [UInt8.toNat_mod]
  congr 1
  by_cases hc : spt.toNat % 2 = 0 ∧ spt.toNat ≤ 2 * k
  · rw [if_pos (hcond.mpr hc), if_pos hc, UInt8.toNat_add, hdn, UInt8.toNat_one]
    omega
  · rw [if_neg (fun h => hc (hcond.mp h)), if_neg hc, hdn]

lemma sector_plain (spt : UInt8) (sec : UInt16) :
    (sector spt sec false).toNat = sec.toNat % spt.toNat % 256 := by
  simp [sector]

/-- The command that `sio` leaves in `djcomm`. -/
structure Command where
  addr : UInt16
  xaddr : UInt8
  op : UInt8
  track : UInt8
  sector : UInt8
  drive : UInt8

/-- `sio(d, addr, xaddr, op, sec, dev)`, where `org1` is the flag `ORG1` of `d`. -/
def sio (sp : Specs) (org1 : Bool) (addr : UInt16) (xaddr op : UInt8) (sec dev : UInt16) :
    Command :=
  let d := sector sp.spt sec (dev &&& 8 ≠ 0)
  let d := if org1 then d + 1 else d
  let d := if sp.ds ∧ sp.spt.toUInt16 ≤ sec % sp.cylinder.toUInt16 then d ||| 0x80 else d
  { addr, xaddr, op
    track := (sec / sp.cylinder.toUInt16).toUInt8 + sp.toff
    sector := d
    drive := (dev &&& 7).toUInt8 }

/-- **`secmap`** maps onto itself each track that is within the 16-bit numbers, and the rest of them
as well just if it has at most one block; the sectors are those of `sio`. -/
theorem secmap_skewed (altsec : Bool) {spt : ℕ} (h : 0 < spt) :
    (∀ t, t * spt + spt ≤ 65536 → Set.BijOn (secmap altsec spt) (track spt t) (track spt t)) ∧
      (Set.BijOn (secmap altsec spt) (Set.Iio 65536) (Set.Iio 65536) ∧
          (∀ b < 65536, secmap altsec spt b / spt = b / spt) ↔
        altsec = false ∨ 65536 % spt ≤ 1) ∧
      ∀ sp : Specs, sp.spt.toNat = spt → spt ≤ 127 → ∀ b : UInt16,
        secmap altsec spt b.toNat =
          (b.toNat / spt * spt + (sector sp.spt b altsec).toNat) % 65536 := by
  refine ⟨fun t ht => secmap_bijOn altsec h ht, ⟨fun hb => ?_, fun hc => ?_⟩, ?_⟩
  · cases altsec with
    | false => exact Or.inl rfl
    | true => exact Or.inr (Nat.not_lt.mp fun hr => not_injOn_of_rest h hr hb.1.injOn hb.2)
  · -- no block leaves the 16-bit numbers
    have hval : ∀ b < 65536, secmap altsec spt b < 65536 ∧ secmap altsec spt b / spt = b / spt ∧
        ∀ c < 65536, secmap altsec spt b = secmap altsec spt c → b = c := by
      intro b hb
      cases altsec with
      | false =>
          rw [secmap_plain spt hb]
          exact ⟨hb, rfl, fun c hc he => by rwa [secmap_plain spt hc] at he⟩
      | true =>
          have hr := hc.resolve_left (by simp)
          have hp (b : ℕ) (hb : b < 65536) : secmap true spt b = place spt b := by
            rw [secmap_alt, Nat.mod_eq_of_lt (place_lt h hr hb)]
          rw [hp b hb]
          exact ⟨place_lt h hr hb, place_div h b, fun c hc he =>
            place_inj h (by rwa [hp c hc] at he)⟩
    refine ⟨((Set.finite_Iio _).injOn_iff_bijOn_of_mapsTo fun b hb => (hval b hb).1).mp
      fun b hb c hc he => (hval b hb).2.2 c hc he, fun b hb => (hval b hb).2.1⟩
  · rintro sp rfl h' b
    cases altsec with
    | false =>
        have hlt := Nat.mod_lt b.toNat h
        rw [sector_plain, Nat.mod_eq_of_lt (a := b.toNat % _) (by omega), Nat.mul_comm,
          Nat.div_add_mod, secmap_plain _ b.toNat_lt, Nat.mod_eq_of_lt b.toNat_lt]
    | true => rw [secmap_alt, place, sector_alt h h']

/-- The eight-inch diskettes: 65536 is one more than a multiple of 15. -/
theorem secmap_skewed_fifteen :
    Set.BijOn (secmap true 15) (Set.Iio 65536) (Set.Iio 65536) :=
  ((@secmap_skewed true 15 (by decide)).2.1.mpr (Or.inr (by decide))).1

/-- With ten sectors the last six blocks are not a track: block 65533 has the place of block 0. -/
theorem secmap_collides :
    ¬∀ altsec spt, 0 < spt → Set.InjOn (secmap altsec spt) (Set.Iio 65536) := by
  intro h
  have he : (65533 : ℕ) = 0 :=
    h true 10 (by decide) (Set.mem_Iio.mpr (by decide)) (Set.mem_Iio.mpr (by decide)) (by decide)
  cases he

end Skew

end Micronix
