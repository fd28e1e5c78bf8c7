import Mathlib.Algebra.Order.Ring.Nat
import Mathlib.Tactic.Linarith
import Micronix.Io.Service

/-!
# A floppy disk is a row of blocks

The driver takes a request for bytes of a volume apart into sectors, and sectors of 1024 bytes through
its cache.  Here the diskettes are seen as the volumes they are for the rest of the kernel: what is
proved is that the requests, in the order in which they are done with, read and write these volumes.

A drive is opened as one device at a time (`djopen` refuses it as another), which is what `name` says;
the formats are those of the table, whose sectors have different places on the diskette.
-/

namespace Micronix

namespace Floppy

open Transition

/-! ## Places -/

/-- What all the formats of the table have in common. -/
structure Specs.Sane (sp : Specs) : Prop where
  spt : 0 < sp.spt.toNat ∧ sp.spt.toNat < 64
  cylinder : sp.cylinder.toNat = if sp.ds then 2 * sp.spt.toNat else sp.spt.toNat
  tracks : sp.volume + sp.toff.toNat * sp.cylinder.toNat ≤ 256 * sp.cylinder.toNat
  volume : sp.volume ≤ 3900
  block : (0 < sp.bps ∧ sp.bps * sp.spb = 512) ∨ sp.bps = 1024

instance (sp : Specs) : Decidable sp.Sane :=
  decidable_of_iff (((0 < sp.spt.toNat ∧ sp.spt.toNat < 64) ∧
      sp.cylinder.toNat = (if sp.ds then 2 * sp.spt.toNat else sp.spt.toNat)) ∧
      (sp.volume + sp.toff.toNat * sp.cylinder.toNat ≤ 256 * sp.cylinder.toNat ∧ sp.volume ≤ 3900) ∧
      ((0 < sp.bps ∧ sp.bps * sp.spb = 512) ∨ sp.bps = 1024))
    ⟨fun h => ⟨h.1.1, h.1.2, h.2.1.1, h.2.1.2, h.2.2⟩,
      fun h => ⟨⟨h.spt, h.cylinder⟩, ⟨h.tracks, h.volume⟩, h.block⟩⟩

/-- The table holds no other formats. -/
lemma specs_sane : ∀ sp ∈ specs, sp.Sane := by decide

section

variable (name : UInt8 → UInt16) (dm : UInt8 → Dm)

/-- The device is open, under its own number. -/
structure Good (dev : UInt16) : Prop where
  named : dev = name (drive dev)
  block : isGetstat dev = false
  isopen : (dm (drive dev)).isopen = true

/-- The format of a device. -/
def spec (dev : UInt16) : Specs := (dm (drive dev)).specs

/-- The place of a sector. -/
def loc (dev : UInt16) (sec : ℕ) : Place :=
  let c := Skew.sio (spec dm dev).toSpecs (dm (drive dev)).org1 0 0 sread (UInt16.ofNat sec) dev
  (c.drive, c.track, c.sector)

end

variable {name : UInt8 → UInt16} {dm : UInt8 → Dm} {dev dev' : UInt16} {sec sec' : ℕ}

lemma toNat_ofNat_sec (h : sec < 65536) : (UInt16.ofNat sec).toNat = sec := by
  rw [UInt16.toNat_ofNat']
  exact Nat.mod_eq_of_lt h

/-- The track of a sector in the volume. -/
lemma track_toNat {sp : Specs} (hs : sp.Sane) (h : sec < sp.volume) :
    ((UInt16.ofNat sec / sp.cylinder.toUInt16).toUInt8 + sp.toff).toNat =
      sec / sp.cylinder.toNat + sp.toff.toNat := by
  have hvol := hs.volume
  have htracks := hs.tracks
  have hdiv : sec / sp.cylinder.toNat + sp.toff.toNat < 256 := by
    have hlt : sec < (256 - sp.toff.toNat) * sp.cylinder.toNat := by
      rw [Nat.sub_mul]
      omega
    have hquot := Nat.div_lt_of_lt_mul (by rwa [Nat.mul_comm] at hlt)
    have htoff := sp.toff.toNat_lt
    exact Nat.add_lt_of_lt_sub hquot
  rw [UInt8.toNat_add, UInt16.toNat_toUInt8, UInt16.toNat_div, UInt8.toNat_toUInt16,
    toNat_ofNat_sec (by omega), Nat.mod_eq_of_lt (show sec / sp.cylinder.toNat < 2 ^ 8 by omega),
    Nat.mod_eq_of_lt (show sec / sp.cylinder.toNat + sp.toff.toNat < 2 ^ 8 by omega)]

/-- The number of a sector in its track, with or without alternation. -/
lemma sector_toNat {sp : Specs} (hs : sp.Sane) (h : sec < sp.volume) (alt : Bool) :
    (Skew.sector sp.spt (UInt16.ofNat sec) alt).toNat =
      if alt then Skew.interleave sp.spt.toNat (sec % sp.spt.toNat) else sec % sp.spt.toNat := by
  have hvol := hs.volume
  obtain ⟨hpos, hlt⟩ := hs.spt
  have hmod : sec % sp.spt.toNat < sp.spt.toNat := Nat.mod_lt _ hpos
  cases alt with
  | false =>
      rw [Skew.sector_plain, toNat_ofNat_sec (by omega), Nat.mod_eq_of_lt (a := sec % _) (by omega)]
      rfl
  | true =>
      rw [Skew.sector_alt hpos (by omega), toNat_ofNat_sec (by omega)]
      rfl

lemma or_side {x : UInt8} (h : x.toNat < 128) : (x ||| 0x80).toNat = 128 + x.toNat := by
  rw [UInt8.toNat_or, Nat.or_comm]
  exact (Nat.two_pow_add_eq_or_of_lt (i := 7) h 1).symm

/-- The number with its origin and its side, as it stands in the command. -/
lemma side_inj {x y : UInt8} {org1 : Bool} {p q : Prop} [Decidable p] [Decidable q]
    (hx : x.toNat < 64) (hy : y.toNat < 64)
    (h : (if p then (if org1 then x + 1 else x) ||| 0x80 else if org1 then x + 1 else x) =
      if q then (if org1 then y + 1 else y) ||| 0x80 else if org1 then y + 1 else y) :
    (p ↔ q) ∧ x.toNat = y.toNat := by
  have hnum (z : UInt8) (hz : z.toNat < 64) :
      (if org1 then z + 1 else z).toNat = z.toNat + if org1 then 1 else 0 := by
    cases org1
    · rfl
    · rw [if_pos rfl, if_pos rfl, UInt8.toNat_add, UInt8.toNat_one, Nat.mod_eq_of_lt (by omega)]
  have hone : (if org1 then 1 else 0) ≤ 1 := by
    cases org1 <;> decide
  have hnat := congrArg UInt8.toNat h
  by_cases hp : p <;> by_cases hq : q
  · rw [if_pos hp, if_pos hq, or_side (by rw [hnum x hx]; omega), or_side (by rw [hnum y hy]; omega),
      hnum x hx, hnum y hy] at hnat
    exact ⟨iff_of_true hp hq, by omega⟩
  · rw [if_pos hp, if_neg hq, or_side (by rw [hnum x hx]; omega), hnum x hx, hnum y hy] at hnat
    omega
  · rw [if_neg hp, if_pos hq, or_side (by rw [hnum y hy]; omega), hnum x hx, hnum y hy] at hnat
    omega
  · rw [if_neg hp, if_neg hq, hnum x hx, hnum y hy] at hnat
    exact ⟨iff_of_false hp hq, by omega⟩

/-- A sector is known by its track, its side, and its number in the track. -/
lemma sec_eq {sp : Specs} (hs : sp.Sane) (htrack : sec / sp.cylinder.toNat = sec' / sp.cylinder.toNat)
    (hside : (sp.ds = true ∧ sp.spt.toNat ≤ sec % sp.cylinder.toNat) ↔
      (sp.ds = true ∧ sp.spt.toNat ≤ sec' % sp.cylinder.toNat))
    (hnum : sec % sp.spt.toNat = sec' % sp.spt.toNat) : sec = sec' := by
  obtain ⟨hpos, -⟩ := hs.spt
  have hcyl := hs.cylinder
  -- the place in the cylinder
  have hin : sec % sp.cylinder.toNat = sec' % sp.cylinder.toNat := by
    cases hds : sp.ds with
    | false =>
        rw [hcyl, hds]
        exact hnum
    | true =>
        rw [hds, if_pos rfl] at hcyl
        rw [hds] at hside
        have hdvd : sp.spt.toNat ∣ sp.cylinder.toNat := ⟨2, by omega⟩
        have hlt := Nat.mod_lt sec (show 0 < sp.cylinder.toNat by omega)
        have hlt' := Nat.mod_lt sec' (show 0 < sp.cylinder.toNat by omega)
        rw [← Nat.mod_mod_of_dvd sec hdvd, ← Nat.mod_mod_of_dvd sec' hdvd] at hnum
        generalize sec % sp.cylinder.toNat = x at *
        generalize sec' % sp.cylinder.toNat = y at *
        by_cases h : sp.spt.toNat ≤ x
        · have h' := (hside.mp ⟨rfl, h⟩).2
          rw [Nat.mod_eq_sub_mod h, Nat.mod_eq_sub_mod h', Nat.mod_eq_of_lt (by omega),
            Nat.mod_eq_of_lt (by omega)] at hnum
          omega
        · have h' : ¬sp.spt.toNat ≤ y := fun hle => h (hside.mpr ⟨rfl, hle⟩).2
          rwa [Nat.mod_eq_of_lt (by omega), Nat.mod_eq_of_lt (by omega)] at hnum
  rw [← Nat.div_add_mod sec sp.cylinder.toNat, ← Nat.div_add_mod sec' sp.cylinder.toNat, htrack, hin]

/-- **Different sectors have different places.** -/
lemma loc_inj (hg : Good name dm dev) (hg' : Good name dm dev') (hs : (spec dm dev).Sane)
    (h : sec < (spec dm dev).volume) (h' : sec' < (spec dm dev').volume)
    (heq : loc dm dev sec = loc dm dev' sec') : dev = dev' ∧ sec = sec' := by
  have hdrive : drive dev = drive dev' := congrArg Prod.fst heq
  obtain rfl : dev = dev' := by rw [hg.named, hg'.named, hdrive]
  refine ⟨rfl, ?_⟩
  have hvol := hs.volume
  obtain ⟨hpos, hlt⟩ := hs.spt
  have htrack : sec / (spec dm dev).cylinder.toNat = sec' / (spec dm dev).cylinder.toNat := by
    have hnat := congrArg UInt8.toNat (congrArg (fun c : Place => c.2.1) heq)
    have h1 := track_toNat hs h
    have h2 := track_toNat hs h'
    have hsum := h1.symm.trans (hnat.trans h2)
    omega
  have hsector := congrArg (fun c : Place => c.2.2) heq
  have hnum (sec : ℕ) (h : sec < (spec dm dev).volume) :
      (Skew.sector (spec dm dev).spt (UInt16.ofNat sec) (dev &&& 8 ≠ 0)).toNat < 64 := by
    rw [sector_toNat hs h]
    split_ifs
    · exact Nat.lt_trans (Skew.interleave_lt hpos _) hlt
    · exact Nat.lt_trans (Nat.mod_lt _ hpos) hlt
  obtain ⟨hside, hn⟩ := side_inj (hnum sec h) (hnum sec' h') hsector
  have hle (sec : ℕ) (h : sec < (spec dm dev).volume) :
      (spec dm dev).spt.toUInt16 ≤ UInt16.ofNat sec % (spec dm dev).cylinder.toUInt16 ↔
        (spec dm dev).spt.toNat ≤ sec % (spec dm dev).cylinder.toNat := by
    rw [UInt16.le_iff_toNat_le, UInt16.toNat_mod, toNat_ofNat_sec (by omega), UInt8.toNat_toUInt16,
      UInt8.toNat_toUInt16]
  rw [hle sec h, hle sec' h'] at hside
  refine sec_eq hs htrack hside ?_
  rw [sector_toNat hs h, sector_toNat hs h'] at hn
  split_ifs at hn
  · exact Skew.interleave_inj (Nat.mod_lt _ hpos) (Nat.mod_lt _ hpos) hn
  · exact hn

/-! ## Volumes -/

/-- For every device its volume. -/
abbrev Store := UInt16 → ℕ → UInt8

/-- The volumes that are on the diskettes. -/
def vol (dm : UInt8 → Dm) (disk : Place → Bytes) : Store := fun dev p =>
  disk (loc dm dev (p / (spec dm dev).bps)) (p % (spec dm dev).bps)

/-- The byte is one of the first `m` of the transfer. -/
def Buf.Within (b : Buf) (m : ℕ) (dev : UInt16) (p : ℕ) : Prop :=
  dev = b.dev ∧ 512 * b.blk ≤ p ∧ p < 512 * b.blk + m

instance (b : Buf) (m : ℕ) (dev : UInt16) (p : ℕ) : Decidable (b.Within m dev p) :=
  inferInstanceAs (Decidable (_ ∧ _ ∧ _))

/-- The first `m` bytes of the buffer are written to the volume. -/
def Buf.written (b : Buf) (m : ℕ) (v : Store) : Store := fun dev p =>
  if b.Within m dev p then b.data (p - 512 * b.blk) else v dev p

/-- What a request that is done with has read from the volumes, or has made of them: one that failed,
if it was to write, may have changed any of the bytes it was to write. -/
def Serve (v v' : Store) (b : Buf) : Prop :=
  if isGetstat b.dev then v' = v
  else if b.error.isSome then
    (b.bread = true → v' = v) ∧ ∀ dev p, ¬b.Within b.count dev p → v' dev p = v dev p
  else if b.bread then v' = v ∧ ∀ j < b.count, b.data j = v b.dev (512 * b.blk + j)
  else v' = b.written b.count v

/-- What a list of requests has read and has made of the volumes, one after the other. -/
inductive Serves : Store → List Buf → Store → Prop
  | nil (v : Store) : Serves v [] v
  | snoc {v v' v'' : Store} {l : List Buf} {b : Buf} :
      Serves v l v' → Serve v' v'' b → Serves v (l ++ [b]) v''

section

variable (name : UInt8 → UInt16) (dm : UInt8 → Dm)

/-- The volumes of the open drives. -/
def Agree (disk : Place → Bytes) (v : Store) : Prop :=
  ∀ dev, Good name dm dev → ∀ p < (spec dm dev).volume * (spec dm dev).bps,
    vol dm disk dev p = v dev p

/-- A request that the driver may be asked for: whole sectors, or up to a block out of a sector of 1024
bytes.  The requests of the block cache are for one block. -/
structure Fits (b : Buf) : Prop where
  error : b.error = none
  named : isGetstat b.dev = false → b.dev = name (drive b.dev)
  size : isGetstat b.dev = false → (dm (drive b.dev)).isopen = true →
    0 < b.count ∧ b.count < 65536 ∧ ((spec dm b.dev).bps ∣ b.count ∧ (spec dm b.dev).bps ≤ 512 ∨
      (spec dm b.dev).bps = 1024 ∧ b.count ≤ 512)

/-- What the runs keep to: requests fit, the drives stay as they are, and the controller does not fail
when it writes a sector back from the cache. -/
def Allowed (s : State) : Label → Prop
  | .djstrat b _ => Fits name s.dm b
  | .djint _ => True
  | .controller bad => s.target = .kbuf → s.comm.op ≠ sread → bad = none
  | .drive _ _ => False

/-- The cache holds what is on the diskette. -/
def Cached (s : State) : Prop :=
  ∀ dev, s.kdev = some dev → Good name s.dm dev ∧ s.ksec < (spec s.dm dev).volume ∧
    (spec s.dm dev).bps = 1024 ∧ ∀ j < 1024, s.kbuf j = s.disk (loc s.dm dev s.ksec) j

/-- A transfer in whole sectors. -/
structure Whole (off bps togo count : ℕ) : Prop where
  start : off = 0
  size : bps ≤ 512
  step : togo = bps
  dvd : bps ∣ count

/-- A transfer of a part of one sector. -/
structure Half (off bps togo count : ℕ) : Prop where
  size : bps = 1024
  step : togo = count
  room : off + count ≤ 1024
  short : count ≤ 512

/-- The statics of the driver are those of the request `b`, of which `s.addr` bytes are transferred. -/
structure At (s : State) (b : Buf) : Prop where
  cur : s.curbuf = some b
  error : b.error = none
  good : Good name s.dm b.dev
  dev : s.dev = b.dev
  sp : s.sp = spec s.dm b.dev
  bps : s.bps = s.sp.bps
  op : s.op = if b.bread then sread else swrite
  count : s.addr + s.count = b.count
  pos : 0 < s.count
  lt : b.count < 65536
  sec : s.sec * s.bps + s.off = 512 * b.blk + s.addr
  mode : Whole s.off s.bps s.togo s.count ∨ Half s.off s.bps s.togo s.count ∧ s.addr = 0

/-- So many bytes of the request are transferred. -/
structure Part (disk : Place → Bytes) (b : Buf) (v : Store) (m : ℕ) : Prop where
  agree : Agree name dm disk (if b.bread then v else b.written m v)
  data : b.bread = true → ∀ j < m, b.data j = v b.dev (512 * b.blk + j)

/-- The command in `djcomm` is for the sector `sec`. -/
structure Command (s : State) (target : Target) (op : UInt8) (sec : ℕ) : Prop where
  target : s.target = target
  op : s.comm.op = op
  place : s.place = loc s.dm s.dev sec

/-- How far the controller and the driver are with the request `b`. -/
inductive Doing (v : Store) (s : State) (b : Buf) : Prop
  /-- a sector is to be transferred -/
  | whole (at_ : At name s b) (part : Part name s.dm s.disk b v s.addr) (cached : Cached name s)
      (w : Whole s.off s.bps s.togo s.count) (sec : s.sec < (spec s.dm b.dev).volume)
      (command : Command s (.data s.addr) s.op s.sec) (stat : s.intstat = nostat)
  /-- it has been transferred -/
  | moved (at_ : At name s b) (part : Part name s.dm s.disk b v (s.addr + s.bps))
      (cached : Cached name s) (w : Whole s.off s.bps s.togo s.count)
      (sec : s.sec < (spec s.dm b.dev).volume) (ok : s.iostat = okstat) (stat : s.intstat ≠ nostat)
  /-- the cache is to be filled -/
  | fill (at_ : At name s b) (part : Part name s.dm s.disk b v 0)
      (half : Half s.off s.bps s.togo s.count) (addr : s.addr = 0)
      (sec : s.sec < (spec s.dm b.dev).volume) (command : Command s .kbuf sread s.sec)
      (kdev : s.kdev = none) (kw : s.kw = false) (stat : s.intstat = nostat)
  /-- it has been filled -/
  | filled (at_ : At name s b) (part : Part name s.dm s.disk b v 0)
      (half : Half s.off s.bps s.togo s.count) (addr : s.addr = 0)
      (sec : s.sec < (spec s.dm b.dev).volume)
      (kbuf : ∀ j < 1024, s.kbuf j = s.disk (loc s.dm b.dev s.sec) j)
      (kw : s.kw = false) (ok : s.iostat = okstat) (stat : s.intstat ≠ nostat)
  /-- the cache is to be written out -/
  | store (at_ : At name s b) (part : Part name s.dm s.disk b v 0)
      (half : Half s.off s.bps s.togo s.count) (addr : s.addr = 0) (write : b.bread = false)
      (sec : s.sec < (spec s.dm b.dev).volume) (ksec : s.ksec = s.sec) (kdev : s.kdev = some b.dev)
      (kbuf : ∀ j < 1024, s.kbuf j = if s.off ≤ j ∧ j < s.off + s.count then b.data (j - s.off)
        else s.disk (loc s.dm b.dev s.sec) j)
      (command : Command s .kbuf swrite s.sec) (kw : s.kw = true) (stat : s.intstat = nostat)
  /-- it has been written out -/
  | stored (at_ : At name s b) (part : Part name s.dm s.disk b v b.count)
      (half : Half s.off s.bps s.togo s.count) (addr : s.addr = 0)
      (write : b.bread = false) (cached : Cached name s) (kw : s.kw = true) (ok : s.iostat = okstat)
      (stat : s.intstat ≠ nostat)
  /-- the controller has failed -/
  | failed (at_ : At name s b) (cached : Cached name s)
      (read : b.bread = true → Agree name s.dm s.disk v)
      (frame : ∀ dev, Good name s.dm dev → ∀ p < (spec s.dm dev).volume * (spec s.dm dev).bps,
        ¬b.Within b.count dev p → vol s.dm s.disk dev p = v dev p)
      (bad : s.iostat ≠ okstat) (stat : s.intstat ≠ nostat)

/-- The request in `curbuf` is done with. -/
structure Served (v : Store) (s : State) : Prop where
  cached : Cached name s
  serve : ∃ b v', s.curbuf = some b ∧ Serve v v' b ∧ Agree name s.dm s.disk v'

end

/-! ## Sectors of a volume -/

section

variable {name : UInt8 → UInt16} {dm : UInt8 → Dm} {disk : Place → Bytes} {v v' : Store} {b : Buf}
  {dev : UInt16} {sec m p : ℕ} {s t : State}

/-- Where the bytes of a sector are in the volume. -/
lemma vol_sector (disk : Place → Bytes) (sec : ℕ) {r : ℕ} (hr : r < (spec dm dev).bps) :
    vol dm disk dev (sec * (spec dm dev).bps + r) = disk (loc dm dev sec) r := by
  have hpos : 0 < (spec dm dev).bps := Nat.zero_lt_of_lt hr
  rw [vol, Nat.mul_comm, Nat.mul_add_div hpos, Nat.div_eq_of_lt hr, Nat.mul_add_mod,
    Nat.mod_eq_of_lt hr, Nat.add_zero]

lemma sector_lt (hsec : sec < (spec dm dev).volume) {r : ℕ} (hr : r < (spec dm dev).bps) :
    sec * (spec dm dev).bps + r < (spec dm dev).volume * (spec dm dev).bps := by
  have hle : (sec + 1) * (spec dm dev).bps ≤ (spec dm dev).volume * (spec dm dev).bps :=
    Nat.mul_le_mul_right _ hsec
  rw [Nat.add_mul] at hle
  omega

/-- A sector written changes its own bytes of the volumes, and no others. -/
lemma vol_update (hg : Good name dm b.dev) (hs : (spec dm b.dev).Sane)
    (hsec : sec < (spec dm b.dev).volume) (x : Bytes) (hg' : Good name dm dev)
    (hp : p < (spec dm dev).volume * (spec dm dev).bps) :
    vol dm (Function.update disk (loc dm b.dev sec) x) dev p =
      if dev = b.dev ∧ p / (spec dm dev).bps = sec then x (p % (spec dm dev).bps)
      else vol dm disk dev p := by
  have hlt : p / (spec dm dev).bps < (spec dm dev).volume :=
    Nat.div_lt_of_lt_mul (by rwa [Nat.mul_comm] at hp)
  by_cases h : dev = b.dev ∧ p / (spec dm dev).bps = sec
  · rw [if_pos h, vol, h.2, h.1, Function.update_self]
  · rw [if_neg h, vol, Function.update_of_ne, vol]
    intro heq
    obtain ⟨hd, he⟩ := loc_inj hg hg' hs hsec hlt heq.symm
    exact h ⟨hd.symm, he.symm⟩

/-- The bytes of a sector are those of a stretch of the volume. -/
lemma div_eq_iff {n : ℕ} (hn : 0 < n) : p / n = sec ↔ sec * n ≤ p ∧ p < sec * n + n := by
  rw [Nat.div_eq_iff hn]
  omega

lemma Within.mono {n : ℕ} (h : m ≤ n) (hw : b.Within m dev p) : b.Within n dev p :=
  ⟨hw.1, hw.2.1, by have := hw.2.2; omega⟩

lemma written_of_not (h : ¬b.Within m dev p) : b.written m v dev p = v dev p := if_neg h

lemma written_zero : b.written 0 v = v := by
  funext dev p
  exact written_of_not fun h => by
    have h1 := h.2.1
    have h2 := h.2.2
    omega

/-- **A sector of the buffer is written.** -/
lemma agree_written (hg : Good name dm b.dev) (hs : (spec dm b.dev).Sane)
    (hsec : sec < (spec dm b.dev).volume) (h : Agree name dm disk (b.written m v))
    (hplace : sec * (spec dm b.dev).bps = 512 * b.blk + m) (hpos : 0 < (spec dm b.dev).bps) :
    Agree name dm (Function.update disk (loc dm b.dev sec) fun j => b.data (m + j))
      (b.written (m + (spec dm b.dev).bps) v) := by
  intro dev hg' p hp
  rw [vol_update hg hs hsec _ hg' hp]
  by_cases hd : dev = b.dev
  · subst hd
    by_cases hdiv : p / (spec dm b.dev).bps = sec
    · rw [if_pos ⟨rfl, hdiv⟩]
      obtain ⟨hlo, hhi⟩ := (div_eq_iff hpos).mp hdiv
      have hmod : p % (spec dm b.dev).bps = p - sec * (spec dm b.dev).bps := by
        rw [← hdiv, Nat.mul_comm, Nat.mod_eq_sub_mul_div]
      rw [Buf.written, if_pos ⟨rfl, by omega, by omega⟩, hmod]
      congr 1
      omega
    · rw [if_neg fun h => hdiv h.2, h _ hg p hp]
      rw [div_eq_iff hpos] at hdiv
      by_cases hw : b.Within m b.dev p
      · rw [Buf.written, Buf.written, if_pos hw, if_pos (Within.mono (by omega) hw)]
      · rw [written_of_not hw, written_of_not]
        rintro ⟨-, h1, h2⟩
        exact hw ⟨rfl, h1, by omega⟩
  · rw [if_neg fun h => hd h.1, h _ hg' p hp, written_of_not fun h => hd h.1,
      written_of_not fun h => hd h.1]

/-- **A sector of which a part comes from the buffer is written.** -/
lemma agree_patched {off : ℕ} (hg : Good name dm b.dev) (hs : (spec dm b.dev).Sane)
    (hsec : sec < (spec dm b.dev).volume) (h : Agree name dm disk v)
    (hplace : sec * (spec dm b.dev).bps + off = 512 * b.blk) (hpos : 0 < (spec dm b.dev).bps)
    (hroom : off + b.count ≤ (spec dm b.dev).bps) {x : Bytes}
    (hx : ∀ j < (spec dm b.dev).bps, x j = if off ≤ j ∧ j < off + b.count then b.data (j - off)
      else disk (loc dm b.dev sec) j) :
    Agree name dm (Function.update disk (loc dm b.dev sec) x) (b.written b.count v) := by
  intro dev hg' p hp
  rw [vol_update hg hs hsec _ hg' hp]
  by_cases hd : dev = b.dev
  · subst hd
    by_cases hdiv : p / (spec dm b.dev).bps = sec
    · rw [if_pos ⟨rfl, hdiv⟩, hx _ (Nat.mod_lt _ hpos)]
      obtain ⟨hlo, hhi⟩ := (div_eq_iff hpos).mp hdiv
      have hmod : p % (spec dm b.dev).bps = p - sec * (spec dm b.dev).bps := by
        rw [← hdiv, Nat.mul_comm, Nat.mod_eq_sub_mul_div]
      rw [hmod]
      by_cases hw : b.Within b.count b.dev p
      · have h1 := hw.2.1
        have h2 := hw.2.2
        rw [Buf.written, if_pos hw, if_pos (by omega)]
        congr 1
        omega
      · have hout : ¬(off ≤ p - sec * (spec dm b.dev).bps ∧
            p - sec * (spec dm b.dev).bps < off + b.count) :=
          fun hin => hw ⟨rfl, by omega, by omega⟩
        have hr : p - sec * (spec dm b.dev).bps < (spec dm b.dev).bps := by omega
        rw [written_of_not hw, if_neg hout, ← h _ hg p hp, ← vol_sector disk sec hr]
        congr 1
        omega
    · rw [if_neg fun h => hdiv h.2, h _ hg p hp, written_of_not]
      rw [div_eq_iff hpos] at hdiv
      rintro ⟨-, h1, h2⟩
      exact hdiv ⟨by omega, by omega⟩
  · rw [if_neg fun h => hd h.1, h _ hg' p hp, written_of_not fun h => hd h.1]

/-- What is left of the volumes when a sector has been spoiled. -/
lemma agree_spoiled {n : ℕ} (hg : Good name dm b.dev) (hs : (spec dm b.dev).Sane)
    (hsec : sec < (spec dm b.dev).volume) (h : Agree name dm disk (b.written m v)) (hm : m ≤ n)
    (hlo : 512 * b.blk ≤ sec * (spec dm b.dev).bps) (hpos : 0 < (spec dm b.dev).bps)
    (hhi : sec * (spec dm b.dev).bps + (spec dm b.dev).bps ≤ 512 * b.blk + n) (x : Bytes)
    (hg' : Good name dm dev) (hp : p < (spec dm dev).volume * (spec dm dev).bps)
    (hout : ¬b.Within n dev p) :
    vol dm (Function.update disk (loc dm b.dev sec) x) dev p = v dev p := by
  rw [vol_update hg hs hsec x hg' hp, if_neg, h _ hg' p hp,
    written_of_not fun hw => hout (Within.mono hm hw)]
  rintro ⟨rfl, hdiv⟩
  obtain ⟨h1, h2⟩ := (div_eq_iff hpos).mp hdiv
  exact hout ⟨rfl, by omega, by omega⟩

/-! ## The routines -/

lemma Part.zero (h : Agree name dm disk v) : Part name dm disk b v 0 := by
  refine ⟨?_, fun _ j hj => absurd hj (Nat.not_lt_zero j)⟩
  rw [written_zero, ite_self]
  exact h

/-- What is known of the volumes outside the transfer. -/
lemma Part.frame (h : Part name dm disk b v m) (hm : m ≤ b.count) (hg : Good name dm dev)
    (hp : p < (spec dm dev).volume * (spec dm dev).bps) (hout : ¬b.Within b.count dev p) :
    vol dm disk dev p = v dev p := by
  rw [h.agree dev hg p hp]
  cases b.bread with
  | true => rfl
  | false => exact written_of_not fun hw => hout (Within.mono hm hw)

lemma Part.read (h : Part name dm disk b v m) (hr : b.bread = true) : Agree name dm disk v := by
  have hvol := h.agree
  rwa [if_pos hr] at hvol

lemma Part.write (h : Part name dm disk b v m) (hr : b.bread = false) :
    Agree name dm disk (b.written m v) := by
  have hvol := h.agree
  rwa [hr] at hvol

lemma Part.wrote (hr : b.bread = false) (h : Agree name dm disk (b.written m v)) :
    Part name dm disk b v m := by
  refine ⟨?_, fun hread => ?_⟩
  · rwa [hr]
  · cases hr.symm.trans hread

lemma serve_failed (hget : isGetstat b.dev = false) (he : b.error.isSome = true) :
    Serve v v' b ↔ (b.bread = true → v' = v) ∧ ∀ dev p, ¬b.Within b.count dev p → v' dev p = v dev p := by
  rw [Serve, if_neg (by simp [hget]), if_pos he]

lemma serve_read (hget : isGetstat b.dev = false) (he : b.error = none) (hr : b.bread = true) :
    Serve v v' b ↔ v' = v ∧ ∀ j < b.count, b.data j = v b.dev (512 * b.blk + j) := by
  rw [Serve, if_neg (by simp [hget]), if_neg (by simp [he]), if_pos hr]

lemma serve_write (hget : isGetstat b.dev = false) (he : b.error = none) (hr : b.bread = false) :
    Serve v v' b ↔ v' = b.written b.count v := by
  rw [Serve, if_neg (by simp [hget]), if_neg (by simp [he]), if_neg (by simp [hr])]

lemma serve_status (hget : isGetstat b.dev = true) : Serve v v b := by
  rw [Serve, if_pos hget]

/-- A request that fails. -/
lemma served_fault (hb : s.curbuf = some b) (hget : isGetstat b.dev = false)
    (hc : Cached name s) (hread : b.bread = true → Agree name s.dm s.disk v)
    (hframe : ∀ dev, Good name s.dm dev → ∀ p < (spec s.dm dev).volume * (spec s.dm dev).bps,
      ¬b.Within b.count dev p → vol s.dm s.disk dev p = v dev p) (e : Error) :
    Served name v (s.fault e) := by
  set b' : Buf := { b with error := some e } with hb'
  have hget' : isGetstat b'.dev = false := hget
  have hcur : (s.fault e).curbuf = some b' := by
    rw [State.fault, hb]
    rfl
  refine ⟨hc, b', ?_⟩
  by_cases hr : b.bread = true
  · exact ⟨v, hcur, (serve_failed hget' rfl).mpr ⟨fun _ => rfl, fun _ _ _ => rfl⟩, hread hr⟩
  · refine ⟨fun dev p => if b.Within b.count dev p then vol s.dm s.disk dev p else v dev p, hcur,
      (serve_failed hget' rfl).mpr ⟨fun h => absurd h hr, fun dev p hout => if_neg hout⟩, ?_⟩
    intro dev hg p hp
    by_cases hw : b.Within b.count dev p
    · exact (if_pos hw).symm
    · exact (hframe dev hg p hp hw).trans (if_neg hw).symm

/-- A request that has been transferred. -/
lemma served_part (hb : s.curbuf = some b) (hget : isGetstat b.dev = false) (he : b.error = none)
    (hc : Cached name s) (hp : Part name s.dm s.disk b v b.count) : Served name v s := by
  refine ⟨hc, b, ?_⟩
  cases hr : b.bread with
  | true => exact ⟨v, hb, (serve_read hget he hr).mpr ⟨rfl, hp.data hr⟩, hp.read hr⟩
  | false => exact ⟨b.written b.count v, hb, (serve_write hget he hr).mpr rfl, hp.write hr⟩

/-- The statics that a transfer depends on. -/
def State.regs (s : State) : (UInt8 → Dm) × UInt16 × Specs × UInt8 × ℕ × ℕ × ℕ × ℕ × ℕ × ℕ :=
  (s.dm, s.dev, s.sp, s.op, s.bps, s.addr, s.count, s.sec, s.off, s.togo)

/-- Nothing else matters. -/
lemma At.regs (h : At name s b) (hcur : t.curbuf = s.curbuf) (hregs : t.regs = s.regs) :
    At name t b := by
  simp only [State.regs, Prod.mk.injEq] at hregs
  obtain ⟨hdm, hdev, hsp, hop, hbps, haddr, hcount, hsec, hoff, htogo⟩ := hregs
  constructor
  case cur => rw [hcur, h.cur]
  case error => exact h.error
  case good => rw [hdm]; exact h.good
  case dev => rw [hdev, h.dev]
  case sp => rw [hsp, hdm, h.sp]
  case bps => rw [hbps, hsp, h.bps]
  case op => rw [hop, h.op]
  case count => rw [haddr, hcount, h.count]
  case pos => rw [hcount]; exact h.pos
  case lt => exact h.lt
  case sec => rw [hsec, hbps, hoff, haddr, h.sec]
  case mode => rw [hoff, hbps, htogo, hcount, haddr]; exact h.mode

lemma At.addr_le (h : At name s b) : s.addr ≤ b.count := by
  have := h.count
  omega

lemma Half.not_direct {off bps togo count : ℕ} (h : Half off bps togo count) :
    ¬(off = 0 ∧ bps ≤ count) := by
  have h1 := h.size
  have h2 := h.short
  omega

lemma Whole.direct {off bps togo count : ℕ} (h : Whole off bps togo count) (hpos : 0 < count) :
    off = 0 ∧ bps ≤ count := ⟨h.start, Nat.le_of_dvd hpos h.dvd⟩

/-- The rest of a transfer in whole sectors. -/
lemma rest_whole (hw : Whole s.off s.bps s.togo s.count) (hpos : 0 < s.count)
    (hlt : s.count < 65536) : s.rest = s.count - s.bps := by
  have hle := (hw.direct hpos).2
  rw [State.rest, hw.step]
  omega

lemma rest_half (hh : Half s.off s.bps s.togo s.count) : s.rest = 0 := by
  rw [State.rest, hh.step, Nat.add_comm, Nat.add_sub_cancel]

/-- A part of a sector has been copied from the cache. -/
lemma part_kread (ha : At name s b) (hh : Half s.off s.bps s.togo s.count) (haddr : s.addr = 0)
    (hr : b.bread = true) (hp : Part name s.dm s.disk b v 0)
    (hsec : s.sec < (spec s.dm b.dev).volume)
    (hk : ∀ j < 1024, s.kbuf j = s.disk (loc s.dm b.dev s.sec) j) :
    Part name s.dm s.disk
      { b with data := Bytes.copyBytes s.kbuf s.off b.data s.addr s.togo } v b.count := by
  have hbps : (spec s.dm b.dev).bps = 1024 := by rw [← ha.sp, ← ha.bps, hh.size]
  have hcount : s.count = b.count := by
    have := ha.count
    omega
  have hplace := ha.sec
  rw [hh.size, haddr, Nat.add_zero] at hplace
  have hroom := hh.room
  refine ⟨?_, fun _ j hj => ?_⟩
  · rw [if_pos hr]
    exact hp.read hr
  · have hin : s.off + j < (spec s.dm b.dev).bps := by omega
    have hat : s.sec * (spec s.dm b.dev).bps + (s.off + j) = 512 * b.blk + j := by
      rw [hbps]
      omega
    have hlt := sector_lt hsec hin
    rw [hat] at hlt
    show Bytes.copyBytes s.kbuf s.off b.data s.addr s.togo j = v b.dev (512 * b.blk + j)
    rw [haddr, hh.step, Bytes.copyBytes_inside (Nat.zero_le j) (by omega), Nat.sub_zero,
      hk _ (by omega), ← vol_sector s.disk s.sec hin, hat, hp.read hr b.dev ha.good _ hlt]

/-- The part has been copied into the cache, which is to be written out. -/
lemma kwrite_doing (ha : At name s b) (hp : Part name s.dm s.disk b v 0)
    (hh : Half s.off s.bps s.togo s.count) (haddr : s.addr = 0) (hr : b.bread = false)
    (hsec : s.sec < (spec s.dm b.dev).volume) (hksec : s.ksec = s.sec) (hkdev : s.kdev = some b.dev)
    (hk : ∀ j < 1024, s.kbuf j = s.disk (loc s.dm b.dev s.sec) j) : Doing name v s.kwrite b := by
  have ha' : At name s.kwrite b :=
    ha.regs rfl rfl
  have hkbuf : s.kwrite.kbuf = Bytes.copyBytes b.data 0 s.kbuf s.off s.togo := by
    show s.curbuf.elim _ _ = _
    rw [ha.cur]
    rfl
  have hplace : s.kwrite.place = loc s.dm s.dev s.sec := by
    rw [← hksec]
    rfl
  refine .store ha' hp hh haddr hr hsec hksec hkdev (fun j hj => ?_) ⟨rfl, rfl, hplace⟩ rfl rfl
  show s.kwrite.kbuf j = if s.off ≤ j ∧ j < s.off + s.count then b.data (j - s.off)
    else s.disk (loc s.dm b.dev s.sec) j
  rw [hkbuf, hh.step]
  by_cases hin : s.off ≤ j ∧ j < s.off + s.count
  · rw [if_pos hin, Bytes.copyBytes_inside hin.1 hin.2, Nat.zero_add]
  · rw [if_neg hin, ← hk j hj]
    exact if_neg hin

/-- The part has been copied from the cache, and the request is done with. -/
lemma kread_served (ha : At name s b) (hp : Part name s.dm s.disk b v 0)
    (hh : Half s.off s.bps s.togo s.count) (haddr : s.addr = 0) (hr : b.bread = true)
    (hsec : s.sec < (spec s.dm b.dev).volume) (hc : Cached name s)
    (hk : ∀ j < 1024, s.kbuf j = s.disk (loc s.dm b.dev s.sec) j) :
    s.kread.secdone.Holds (fun t => ∃ b, Doing name v t b) (Served name v) := by
  have hrest : s.kread.rest = 0 := rest_half hh
  have hcur : s.kread.curbuf =
      some { b with data := Bytes.copyBytes s.kbuf s.off b.data s.addr s.togo } := by
    rw [State.kread, ha.cur]
    rfl
  have hpart := part_kread ha hh haddr hr hp hsec hk
  rw [State.secdone, if_pos hrest]
  exact served_part hcur ha.good.block ha.error hc hpart

/-- `nextsec`, on the way to the next sector of a request. -/
lemma nextsec_doing (ha : At name s b) (hp : Part name s.dm s.disk b v s.addr)
    (hc : Cached name s) :
    s.nextsec.Holds (fun t => ∃ b, Doing name v t b) (Served name v) := by
  have hcount := ha.addr_le
  rw [State.nextsec_eq]
  by_cases hvol : s.sp.volume ≤ s.sec
  · rw [if_pos hvol]
    exact served_fault ha.cur ha.good.block hc hp.read (fun dev hg p hlt => hp.frame hcount hg hlt) _
  rw [if_neg hvol]
  have hsec : s.sec < (spec s.dm b.dev).volume := by
    rw [← ha.sp]
    exact Nat.lt_of_not_le hvol
  rcases ha.mode with hw | ⟨hh, haddr⟩
  · rw [if_pos (hw.direct ha.pos)]
    have ha' : At name (s.sio (.data s.addr) s.op s.sec) b :=
      ha.regs rfl rfl
    exact ⟨b, .whole ha' hp hc hw hsec ⟨rfl, rfl, rfl⟩ rfl⟩
  rw [if_neg hh.not_direct]
  rw [haddr] at hp
  by_cases hhit : s.ksec = s.sec ∧ s.kdev = some s.dev
  · rw [if_neg (not_not.mpr hhit)]
    obtain ⟨hksec, hkdev⟩ := hhit
    rw [ha.dev] at hkdev
    obtain ⟨-, -, -, hkbuf⟩ := hc b.dev hkdev
    rw [hksec] at hkbuf
    cases hr : b.bread with
    | true =>
        rw [if_pos (by rw [ha.op, if_pos hr])]
        exact kread_served ha hp hh haddr hr hsec hc hkbuf
    | false =>
        rw [if_neg (by rw [ha.op, if_neg (by simp [hr])]; decide)]
        exact ⟨b, kwrite_doing ha hp hh haddr hr hsec hksec hkdev hkbuf⟩
  · rw [if_pos hhit]
    have ha' : At name s.fill b :=
      ha.regs rfl rfl
    exact ⟨b, .fill ha' hp hh haddr hsec ⟨rfl, rfl, rfl⟩ rfl rfl rfl⟩

/-- `secdone`, when a whole sector has been transferred. -/
lemma secdone_doing (ha : At name s b) (hp : Part name s.dm s.disk b v (s.addr + s.bps))
    (hc : Cached name s) (hw : Whole s.off s.bps s.togo s.count) :
    s.secdone.Holds (fun t => ∃ b, Doing name v t b) (Served name v) := by
  have hcount := ha.count
  have hlt := ha.lt
  have hrest := rest_whole hw ha.pos (by omega)
  have hle := (hw.direct ha.pos).2
  rw [State.secdone]
  by_cases hz : s.rest = 0
  · rw [if_pos hz]
    refine served_part ha.cur ha.good.block ha.error hc ?_
    rwa [show s.addr + s.bps = b.count by omega] at hp
  rw [if_neg hz]
  have hsec := ha.sec
  rw [hw.start] at hsec
  have ha' : At name (s.advance s.rest) b := by
    refine ⟨ha.cur, ha.error, ha.good, ha.dev, ha.sp, ha.bps, ha.op, ?_, Nat.pos_of_ne_zero hz, ha.lt,
      ?_, .inl ⟨rfl, hw.size, hw.step, ?_⟩⟩
    · show s.addr + s.togo + s.rest = b.count
      rw [hw.step]
      omega
    · show (s.sec + 1) * s.bps + 0 = 512 * b.blk + (s.addr + s.togo)
      rw [hw.step, Nat.add_mul]
      omega
    · show s.bps ∣ s.rest
      rw [hrest]
      exact Nat.dvd_sub hw.dvd (Nat.dvd_refl _)
  refine nextsec_doing ha' ?_ hc
  show Part name s.dm s.disk b v (s.addr + s.togo)
  rwa [hw.step]

/-- `djint` looks at the request whose command is done. -/
lemma check_doing (h : Doing name v s b) (hstat : s.intstat ≠ nostat) :
    (s.check b).Holds (fun t => ∃ b, Doing name v t b) (Served name v) := by
  rw [State.check]
  cases h with
  | whole ha hp hc hw hsec hcmd hno => exact absurd hno hstat
  | fill ha hp hh haddr hsec hcmd hkdev hkw hno => exact absurd hno hstat
  | store ha hp hh haddr hr hsec hksec hkdev hk hcmd hkw hno => exact absurd hno hstat
  | moved ha hp hc hw hsec hok hdone =>
      rw [if_neg (not_not.mpr hok), if_pos (hw.direct ha.pos)]
      exact secdone_doing ha hp hc hw
  | filled ha hp hh haddr hsec hk hkw hok hdone =>
      rw [if_neg (not_not.mpr hok), if_neg hh.not_direct]
      have hfilled : s.filled = { s with kdev := some s.dev, ksec := s.sec } := by
        rw [State.filled, hkw]
        rfl
      rw [hfilled]
      set u : State := { s with kdev := some s.dev, ksec := s.sec } with hu
      have ha' : At name u b :=
        ha.regs rfl rfl
      have hkdev : u.kdev = some b.dev := congrArg some ha.dev
      have hbps : (spec s.dm b.dev).bps = 1024 := by rw [← ha.sp, ← ha.bps, hh.size]
      cases hr : b.bread with
      | true =>
          rw [if_pos rfl]
          refine kread_served ha' hp hh haddr hr hsec ?_ hk
          intro dev hdev
          obtain rfl : b.dev = dev := Option.some.inj (hkdev.symm.trans hdev)
          exact ⟨ha.good, hsec, hbps, hk⟩
      | false =>
          rw [if_neg (by simp), if_neg (by simp [hkw])]
          exact ⟨b, kwrite_doing ha' hp hh haddr hr hsec rfl hkdev hk⟩
  | stored ha hp hh haddr hr hc hkw hok hdone =>
      have hfilled : s.filled = s := by
        rw [State.filled, hkw]
        rfl
      rw [if_neg (not_not.mpr hok), if_neg hh.not_direct, if_neg (by simp [hr]), if_pos hkw, hfilled]
      exact served_part ha.cur ha.good.block ha.error hc hp
  | failed ha hc hread hframe hbad hdone =>
      rw [if_pos hbad]
      exact served_fault ha.cur ha.good.block hc hread hframe _

/-- Where a request begins. -/
lemma setup_mode (hs : s.sp.Sane) (hpos : 0 < b.count)
    (hsize : s.sp.bps ∣ b.count ∧ s.sp.bps ≤ 512 ∨ s.sp.bps = 1024 ∧ b.count ≤ 512) :
    (s.setup b).sec * s.sp.bps + (s.setup b).off = 512 * b.blk ∧
      (Whole (s.setup b).off s.sp.bps (s.setup b).togo b.count ∨
        Half (s.setup b).off s.sp.bps (s.setup b).togo b.count) := by
  rw [State.setup]
  dsimp only
  rcases hsize with ⟨hdvd, hle⟩ | ⟨heq, hle⟩
  · have hne : s.sp.bps ≠ 1024 := by omega
    obtain ⟨-, hblock⟩ := hs.block.resolve_right hne
    have hhalf : ¬(s.sp.bps = 1024 ∧ b.blk % 2 = 1) := fun h => hne h.1
    have hfew := Nat.le_of_dvd hpos hdvd
    have hno (n : ℕ) : ¬((s.sp.bps = 1024 ∧ b.blk % 2 = 1) ∧ 512 < n) := fun h => hhalf h.1
    rw [if_neg hhalf, if_neg (hno _), if_neg hne, if_neg (Nat.not_lt.mpr hfew)]
    refine ⟨?_, .inl ⟨rfl, hle, rfl, hdvd⟩⟩
    rw [Nat.mul_assoc, Nat.mul_comm s.sp.spb, hblock]
    omega
  · rw [if_pos heq, heq, if_pos (show b.count < 1024 by omega)]
    have hno : ¬((1024 = 1024 ∧ b.blk % 2 = 1) ∧ 512 < b.count) := fun h => by omega
    rw [if_neg hno]
    by_cases hodd : b.blk % 2 = 1
    · rw [if_pos ⟨rfl, hodd⟩]
      exact ⟨by omega, .inr ⟨rfl, rfl, by omega, hle⟩⟩
    · rw [if_neg fun h => hodd h.2]
      exact ⟨by omega, .inr ⟨rfl, rfl, by omega, hle⟩⟩

/-- `djint` takes a request from the queue. -/
lemma begin_doing (hb : s.curbuf = some b) (hv : Agree name s.dm s.disk v) (hc : Cached name s)
    (hf : Fits name s.dm b) (hsane : ∀ a, (s.dm a).isopen = true → (s.dm a).specs.Sane)
    (stat : Option Bytes) (junk : Bytes) :
    (s.begin b stat junk).Holds (fun t => ∃ b, Doing name v t b) (Served name v) := by
  rw [State.begin]
  by_cases hg : isGetstat b.dev = true
  · rw [if_pos hg]
    cases stat with
    | none =>
        refine ⟨fun dev hdev => ?_, { b with error := some .eio }, v, ?_, serve_status hg, hv⟩
        · cases hdev
        · show s.curbuf.map _ = _
          rw [hb]
          rfl
    | some st =>
        refine ⟨fun dev hdev => ?_, _, v, rfl, serve_status hg, hv⟩
        cases hdev
  rw [if_neg hg]
  have hget : isGetstat b.dev = false := by simpa using hg
  by_cases hopen : (!(s.dm (drive b.dev)).isopen) = true
  · rw [if_pos hopen]
    have hdev : { s with dev := b.dev }.curbuf = some b := hb
    exact served_fault hdev hget hc (fun _ => hv) (fun dev hg p hp _ => hv dev hg p hp) _
  rw [if_neg hopen]
  have hisopen : (s.dm (drive b.dev)).isopen = true := by simpa using hopen
  dsimp only
  set u : State := { s with dev := b.dev, sp := (s.dm (drive b.dev)).specs, count := b.count } with hu
  have hub : u.curbuf = some b := hb
  by_cases hmax : 3000 < b.blk
  · rw [if_pos hmax]
    exact served_fault hub hget hc (fun _ => hv) (fun dev hg p hp _ => hv dev hg p hp) _
  rw [if_neg hmax]
  by_cases hwp : (!b.bread && (s.dm (drive b.dev)).wp) = true
  · rw [if_pos hwp]
    have hset : (u.setup b).curbuf = some b := hb
    exact served_fault hset hget hc (fun _ => hv) (fun dev hg p hp _ => hv dev hg p hp) _
  rw [if_neg hwp]
  obtain ⟨hpos, hlt, hsize⟩ := hf.size hget hisopen
  obtain ⟨hsec, hmode⟩ := setup_mode (s := u) (hsane _ hisopen) hpos hsize
  have ha : At name { u.setup b with addr := 0 } b := by
    refine ⟨hb, hf.error, ⟨hf.named hget, hget, hisopen⟩, rfl, rfl, rfl, rfl, ?_, hpos, hlt, hsec, ?_⟩
    · exact Nat.zero_add _
    · exact hmode.imp_right fun hh => ⟨hh, rfl⟩
  exact nextsec_doing ha (Part.zero hv) hc

end

/-! ## Runs -/

section

variable (name : UInt8 → UInt16)

/-- The diskettes as they are at first, with the formats of the table. -/
structure Boot (v : Store) (s : State) : Prop where
  start : Start s
  specs : ∀ a, (s.dm a).isopen = true → (s.dm a).specs ∈ Floppy.specs
  agree : Agree name s.dm s.disk v

/-- The requests that are done with have been served from the volumes `v₀`; while none is being
served, the diskettes hold what has become of these. -/
structure Deblocked (v₀ : Store) (s : State) : Prop where
  sane : ∀ a, (s.dm a).isopen = true → (s.dm a).specs.Sane
  fits : ∀ b ∈ s.queue, Fits name s.dm b
  books : ∃ v, Serves v₀ s.done v ∧
    (s.curbuf = none ∧ Agree name s.dm s.disk v ∧ Cached name s ∨ ∃ b, Doing name v s b)

variable {name} {v₀ v : Store} {s t : State} {b : Buf} {o : Luck}

lemma Doing.at (h : Doing name v s b) : At name s b := by
  cases h with
  | whole ha hp hc hw hsec hcmd hno => exact ha
  | moved ha hp hc hw hsec hok hdone => exact ha
  | fill ha hp hh haddr hsec hcmd hkdev hkw hno => exact ha
  | filled ha hp hh haddr hsec hk hkw hok hdone => exact ha
  | store ha hp hh haddr hr hsec hksec hkdev hk hcmd hkw hno => exact ha
  | stored ha hp hh haddr hr hc hkw hok hdone => exact ha
  | failed ha hc hread hframe hbad hdone => exact ha

lemma Doing.cur (h : Doing name v s b) : s.curbuf = some b := h.at.cur

/-- What the driver notes beside the transfer. -/
lemma Doing.service (h : Doing name v s b) {q l : List Buf} {i c : Bool} :
    Doing name v { s with queue := q, asked := l, inservice := i, contender := c } b := by
  have hat (ha : At name s b) :
      At name { s with queue := q, asked := l, inservice := i, contender := c } b :=
    ha.regs rfl rfl
  cases h with
  | whole ha hp hc hw hsec hcmd hno =>
      exact .whole (hat ha) hp hc hw hsec ⟨hcmd.target, hcmd.op, hcmd.place⟩ hno
  | moved ha hp hc hw hsec hok hdone => exact .moved (hat ha) hp hc hw hsec hok hdone
  | fill ha hp hh haddr hsec hcmd hkdev hkw hno =>
      exact .fill (hat ha) hp hh haddr hsec ⟨hcmd.target, hcmd.op, hcmd.place⟩ hkdev hkw hno
  | filled ha hp hh haddr hsec hk hkw hok hdone =>
      exact .filled (hat ha) hp hh haddr hsec hk hkw hok hdone
  | store ha hp hh haddr hr hsec hksec hkdev hk hcmd hkw hno =>
      exact .store (hat ha) hp hh haddr hr hsec hksec hkdev hk ⟨hcmd.target, hcmd.op, hcmd.place⟩ hkw hno
  | stored ha hp hh haddr hr hc hkw hok hdone => exact .stored (hat ha) hp hh haddr hr hc hkw hok hdone
  | failed ha hc hread hframe hbad hdone => exact .failed (hat ha) hc hread hframe hbad hdone

/-- The diskettes between two requests. -/
lemma served_iodone (h : Served name v s) (hdone : Serves v₀ s.done v) :
    ∃ v', Serves v₀ s.iodone.done v' ∧ Agree name s.dm s.disk v' ∧ Cached name s.iodone := by
  obtain ⟨hc, b, v', hb, hserve, hagree⟩ := h
  refine ⟨v', ?_, hagree, hc⟩
  show Serves v₀ (s.done ++ s.curbuf.toList) v'
  rw [hb]
  exact hdone.snoc hserve

/-- `request`, by induction on the queue. -/
lemma deblocked_request (o : Luck) (q : List Buf) (s : State) (hcur : s.curbuf = none)
    (hsane : ∀ a, (s.dm a).isopen = true → (s.dm a).specs.Sane) (hfits : ∀ b ∈ q, Fits name s.dm b)
    (hdone : Serves v₀ s.done v) (hv : Agree name s.dm s.disk v) (hc : Cached name s) :
    Deblocked name v₀ (State.request o q s) := by
  induction q generalizing s v with
  | nil => exact ⟨hsane, List.forall_mem_nil _, v, hdone, .inl ⟨hcur, hv, hc⟩⟩
  | cons b q ih =>
      obtain ⟨hfb, hfq⟩ := List.forall_mem_cons.mp hfits
      set u : State := { s with queue := q, curbuf := some b } with hu
      have hub : u.curbuf = some b := rfl
      have hsame := State.begin_under u hub (o.stat q.length) (o.junk q.length)
      have hbegin := begin_doing hub hv hc hfb hsane (o.stat q.length) (o.junk q.length)
      rw [State.request]
      cases hr : u.begin b (o.stat q.length) (o.junk q.length) with
      | go t =>
          rw [hr] at hsame hbegin
          obtain ⟨b', hdoing⟩ := hbegin
          have hdm : t.dm = s.dm := hsame.dm
          have hqueue : t.queue = q := hsame.queue
          have hlog : t.done = s.done := hsame.done
          refine ⟨?_, ?_, v, ?_, .inr ⟨b', ?_⟩⟩
          · simpa only [hdm] using hsane
          · simpa only [hdm, hqueue] using hfq
          · simpa only [hlog] using hdone
          · exact hdoing.service
      | finished t =>
          rw [hr] at hsame hbegin
          have hdm : t.dm = s.dm := hsame.dm
          have hqueue : t.queue = q := hsame.queue
          have hlog : t.done = s.done := hsame.done
          obtain ⟨v', hdone', hv', hc'⟩ := served_iodone hbegin (by rwa [hlog])
          have hsane' : ∀ a, (t.iodone.dm a).isopen = true → (t.iodone.dm a).specs.Sane := by
            show ∀ a, (t.dm a).isopen = true → (t.dm a).specs.Sane
            rwa [hdm]
          have hfits' : ∀ b ∈ q, Fits name t.iodone.dm b := by
            show ∀ b ∈ q, Fits name t.dm b
            rwa [hdm]
          by_cases hkeep : q = [] ∨ o.keep q.length = true
          · simp only [if_pos hkeep]
            exact ih t.iodone rfl hsane' hfits' hdone' hv' hc'
          · simp only [if_neg hkeep]
            refine ⟨hsane', ?_, v', hdone', .inl ⟨rfl, hv', hc'⟩⟩
            show ∀ b ∈ t.queue, Fits name t.iodone.dm b
            rwa [hqueue]

lemma deblocked_after {r : Outcome} (hsane : ∀ a, (s.dm a).isopen = true → (s.dm a).specs.Sane)
    (hfits : ∀ b ∈ s.queue, Fits name s.dm b) (hdone : Serves v₀ s.done v)
    (hsame : r.Holds (State.Under s) (State.Same s))
    (hr : r.Holds (fun t => ∃ b, Doing name v t b) (Served name v)) :
    Deblocked name v₀ (State.after o r) := by
  cases r with
  | go t =>
      obtain ⟨b, hdoing⟩ := hr
      have hdm : t.dm = s.dm := hsame.dm
      have hqueue : t.queue = s.queue := hsame.queue
      have hlog : t.done = s.done := hsame.done
      rw [State.after]
      refine ⟨?_, ?_, v, ?_, .inr ⟨b, hdoing.service⟩⟩
      · simpa only [hdm] using hsane
      · simpa only [hdm, hqueue] using hfits
      · simpa only [hlog] using hdone
  | finished t =>
      have hdm : t.dm = s.dm := hsame.dm
      have hqueue : t.queue = s.queue := hsame.queue
      have hlog : t.done = s.done := hsame.done
      obtain ⟨v', hdone', hv', hc'⟩ := served_iodone hr (by rwa [hlog])
      have hsane' : ∀ a, (t.iodone.dm a).isopen = true → (t.iodone.dm a).specs.Sane := by
        show ∀ a, (t.dm a).isopen = true → (t.dm a).specs.Sane
        rwa [hdm]
      have hfits' : ∀ b ∈ t.queue, Fits name t.iodone.dm b := by
        show ∀ b ∈ t.queue, Fits name t.dm b
        rwa [hdm, hqueue]
      rw [State.after]
      by_cases hkeep : t.queue = [] ∨ o.keep t.queue.length = true
      · rw [if_pos hkeep]
        exact deblocked_request o t.queue t.iodone rfl hsane' hfits' hdone' hv' hc'
      · rw [if_neg hkeep]
        exact ⟨hsane', hfits', v', hdone', .inl ⟨rfl, hv', hc'⟩⟩

/-- `djint`. -/
lemma Deblocked.djint (h : Deblocked name v₀ s) (hsound : s.Sound) (o : Luck) :
    Deblocked name v₀ (s.djint o) := by
  rw [State.djint]
  by_cases hidle : s.inservice ∨ (s.curbuf.isSome ∧ s.intstat = nostat) ∨
      (s.curbuf = none ∧ s.queue = [])
  · rw [if_pos hidle]
    exact h
  rw [if_neg hidle]
  obtain ⟨v, hdone, hwork⟩ := h.books
  by_cases hbus : (!o.bus) = true
  · rw [if_pos hbus]
    rcases hwork with hwork | ⟨b, hdoing⟩
    · exact ⟨h.sane, h.fits, v, hdone, .inl hwork⟩
    · exact ⟨h.sane, h.fits, v, hdone, .inr ⟨b, hdoing.service⟩⟩
  rw [if_neg hbus]
  rcases hwork with ⟨hcur, hv, hc⟩ | ⟨b, hdoing⟩
  · have hnone : { s with inservice := true, contender := false }.curbuf = none := hcur
    rw [State.serve_none hnone]
    exact deblocked_request o s.queue _ hcur h.sane h.fits hdone hv hc
  · have hcur : s.curbuf = some b := hdoing.cur
    set u : State := { s with inservice := true, contender := false } with hu
    have hub : u.curbuf = some b := hcur
    rw [State.serve_some hub]
    have hstat : u.intstat ≠ nostat := fun hno => hidle (.inr (.inl ⟨by rw [hcur]; rfl, hno⟩))
    exact deblocked_after (s := u) h.sane h.fits hdone (State.check_under u hub hsound.reads)
      (check_doing hdoing.service hstat)

/-! ## The controller -/

lemma okstat_ne : okstat ≠ nostat := by decide

lemma badstat_ne : badstat ≠ okstat := by decide

/-- A sector written elsewhere leaves the cache as good as it was. -/
lemma cached_update (hc : Cached name s) (hg : Good name s.dm b.dev) (hs : (spec s.dm b.dev).Sane)
    (hsec : s.sec < (spec s.dm b.dev).volume) (hne : (spec s.dm b.dev).bps ≠ 1024) (x : Bytes) :
    Cached name { s with disk := Function.update s.disk (loc s.dm b.dev s.sec) x } := by
  intro dev hdev
  obtain ⟨hgood, hksec, hbps, hkbuf⟩ := hc dev hdev
  refine ⟨hgood, hksec, hbps, fun j hj => ?_⟩
  show s.kbuf j = Function.update s.disk (loc s.dm b.dev s.sec) x (loc s.dm dev s.ksec) j
  rw [Function.update_of_ne, hkbuf j hj]
  intro heq
  obtain ⟨rfl, -⟩ := loc_inj hg hgood hs hsec hksec heq.symm
  exact hne hbps

/-- The bytes of a sector lie in the transfer. -/
lemma At.sector (ha : At name s b) (hw : Whole s.off s.bps s.togo s.count) :
    s.sec * (spec s.dm b.dev).bps = 512 * b.blk + s.addr ∧ s.addr + s.bps ≤ b.count ∧
      (spec s.dm b.dev).bps = s.bps ∧ 0 < s.bps := by
  have hbps : (spec s.dm b.dev).bps = s.bps := by rw [← ha.sp, ← ha.bps]
  have hsec := ha.sec
  have hle := (hw.direct ha.pos).2
  have hcount := ha.count
  have hpos : 0 < s.bps := Nat.pos_of_dvd_of_pos hw.dvd ha.pos
  rw [hw.start, Nat.add_zero] at hsec
  rw [hbps]
  exact ⟨hsec, by omega, rfl, hpos⟩

/-- A sector is read into the buffer. -/
lemma obey_read (ha : At name s b) (hp : Part name s.dm s.disk b v s.addr) (hc : Cached name s)
    (hw : Whole s.off s.bps s.togo s.count) (hsec : s.sec < (spec s.dm b.dev).volume)
    (hcmd : Command s (.data s.addr) s.op s.sec) (hr : b.bread = true) (bad : Option Bytes) :
    ∃ b', Doing name v (s.obey b bad) b' := by
  obtain ⟨hplace, hle, hbps, hpos⟩ := ha.sector hw
  have hop : s.comm.op = sread := by rw [hcmd.op, ha.op, if_pos hr]
  have hloc : s.place = loc s.dm b.dev s.sec := by rw [hcmd.place, ha.dev]
  set b' : Buf :=
    { b with data := Bytes.copyBytes (bad.getD (s.disk s.place)) 0 b.data s.addr s.bps } with hb'
  have hobey : s.obey b bad = { s with
      curbuf := some b', iostat := if bad.isSome then badstat else okstat, intstat := okstat } := by
    rw [State.obey, if_pos hop, State.receive_data hcmd.target, ha.cur]
    rfl
  have ha' : At name (s.obey b bad) b' := by
    rw [hobey]
    exact ⟨rfl, ha.error, ha.good, ha.dev, ha.sp, ha.bps, ha.op, ha.count, ha.pos, ha.lt, ha.sec, ha.mode⟩
  refine ⟨b', ?_⟩
  rw [hobey] at ha' ⊢
  cases bad with
  | some junk =>
      exact .failed ha' hc (fun _ => hp.read hr)
        (fun dev hg p hlt _ => hp.read hr dev hg p hlt) badstat_ne okstat_ne
  | none =>
      refine .moved ha' ⟨?_, fun _ j hj => ?_⟩ hc hw hsec rfl okstat_ne
      · rw [show b'.bread = true from hr, if_pos rfl]
        exact hp.read hr
      show Bytes.copyBytes (s.disk s.place) 0 b.data s.addr s.bps j = v b.dev (512 * b.blk + j)
      rcases Nat.lt_or_ge j s.addr with hlt | hge
      · rw [Bytes.copyBytes_outside (.inl hlt)]
        exact hp.data hr j hlt
      · have hin : j - s.addr < (spec s.dm b.dev).bps := by
          have hj' : j < s.addr + s.bps := hj
          omega
        have hat : s.sec * (spec s.dm b.dev).bps + (j - s.addr) = 512 * b.blk + j := by omega
        have hlt := sector_lt hsec hin
        rw [hat] at hlt
        rw [Bytes.copyBytes_inside hge hj, Nat.zero_add, hloc, ← vol_sector s.disk s.sec hin, hat]
        exact hp.read hr b.dev ha.good _ hlt

/-- A sector is written from the buffer. -/
lemma obey_write (hs : (spec s.dm b.dev).Sane) (ha : At name s b)
    (hp : Part name s.dm s.disk b v s.addr) (hc : Cached name s)
    (hw : Whole s.off s.bps s.togo s.count) (hsec : s.sec < (spec s.dm b.dev).volume)
    (hcmd : Command s (.data s.addr) s.op s.sec) (hr : b.bread = false) (bad : Option Bytes) :
    Doing name v (s.obey b bad) b := by
  obtain ⟨hplace, hle, hbps, hpos⟩ := ha.sector hw
  have hop : s.comm.op ≠ sread := by
    rw [hcmd.op, ha.op, if_neg (by simp [hr])]
    decide
  have hloc : s.place = loc s.dm b.dev s.sec := by rw [hcmd.place, ha.dev]
  have hsend : s.sending b = fun j => b.data (s.addr + j) := by
    rw [State.sending, hcmd.target]
  have hsize : (spec s.dm b.dev).bps ≠ 1024 := by
    have := hw.size
    omega
  have hobey : s.obey b bad = { s with
      disk := Function.update s.disk (loc s.dm b.dev s.sec)
        (bad.getD fun j => b.data (s.addr + j))
      iostat := if bad.isSome then badstat else okstat
      intstat := okstat } := by
    rw [State.obey, if_neg hop, hloc, hsend]
  have hc' := cached_update hc ha.good hs hsec hsize (bad.getD fun j => b.data (s.addr + j))
  have ha' : At name (s.obey b bad) b := by
    rw [hobey]
    exact ha.regs rfl rfl
  rw [hobey] at ha' ⊢
  cases bad with
  | some junk =>
      refine .failed ha' hc' (fun h => ?_) (fun dev hg p hlt hout => ?_) badstat_ne okstat_ne
      · cases hr.symm.trans h
      · exact agree_spoiled ha.good hs hsec (hp.write hr) (by omega) (by omega) (by omega)
          (by omega) _ hg hlt hout
  | none =>
      refine .moved ha' (Part.wrote hr ?_) hc' hw hsec rfl okstat_ne
      have hwritten := agree_written ha.good hs hsec (hp.write hr) hplace (by omega)
      rw [hbps] at hwritten
      exact hwritten

/-- The cache is filled. -/
lemma obey_fill (ha : At name s b) (hp : Part name s.dm s.disk b v 0)
    (hh : Half s.off s.bps s.togo s.count) (haddr : s.addr = 0)
    (hsec : s.sec < (spec s.dm b.dev).volume) (hcmd : Command s .kbuf sread s.sec)
    (hkdev : s.kdev = none) (hkw : s.kw = false) (bad : Option Bytes) :
    Doing name v (s.obey b bad) b := by
  have hloc : s.place = loc s.dm b.dev s.sec := by rw [hcmd.place, ha.dev]
  have hobey : s.obey b bad = { s with
      kbuf := bad.getD (s.disk s.place)
      iostat := if bad.isSome then badstat else okstat
      intstat := okstat } := by
    rw [State.obey, if_pos hcmd.op, State.receive_kbuf hcmd.target]
  have ha' : At name (s.obey b bad) b := by
    rw [hobey]
    exact ha.regs rfl rfl
  rw [hobey] at ha' ⊢
  cases bad with
  | some junk =>
      refine .failed ha' (fun dev hdev => ?_) hp.read
        (fun dev hg p hlt hout => hp.frame (Nat.zero_le _) hg hlt hout) badstat_ne okstat_ne
      cases hkdev.symm.trans hdev
  | none =>
      refine .filled ha' hp hh haddr hsec (fun j _ => ?_) hkw rfl okstat_ne
      show s.disk s.place j = s.disk (loc s.dm b.dev s.sec) j
      rw [hloc]

/-- The cache is written out. -/
lemma obey_store (hs : (spec s.dm b.dev).Sane) (ha : At name s b)
    (hp : Part name s.dm s.disk b v 0) (hh : Half s.off s.bps s.togo s.count) (haddr : s.addr = 0)
    (hr : b.bread = false) (hsec : s.sec < (spec s.dm b.dev).volume) (hksec : s.ksec = s.sec)
    (hkdev : s.kdev = some b.dev)
    (hk : ∀ j < 1024, s.kbuf j = if s.off ≤ j ∧ j < s.off + s.count then b.data (j - s.off)
      else s.disk (loc s.dm b.dev s.sec) j)
    (hcmd : Command s .kbuf swrite s.sec) (hkw : s.kw = true) :
    Doing name v (s.obey b none) b := by
  have hloc : s.place = loc s.dm b.dev s.sec := by rw [hcmd.place, ha.dev]
  have hop : s.comm.op ≠ sread := by
    rw [hcmd.op]
    decide
  have hsend : s.sending b = s.kbuf := by rw [State.sending, hcmd.target]
  have hbps : (spec s.dm b.dev).bps = 1024 := by rw [← ha.sp, ← ha.bps, hh.size]
  have hcount : s.count = b.count := by
    have := ha.count
    omega
  have hplace := ha.sec
  rw [hh.size, haddr, Nat.add_zero] at hplace
  have hroom := hh.room
  have hobey : s.obey b none = { s with
      disk := Function.update s.disk (loc s.dm b.dev s.sec) s.kbuf
      iostat := okstat
      intstat := okstat } := by
    rw [State.obey, if_neg hop, hloc, hsend]
    rfl
  have ha' : At name (s.obey b none) b := by
    rw [hobey]
    exact ha.regs rfl rfl
  rw [hobey] at ha' ⊢
  refine .stored ha' (Part.wrote hr ?_) hh haddr hr (fun dev hdev => ?_) hkw rfl okstat_ne
  · have hzero := hp.write hr
    rw [written_zero] at hzero
    rw [hcount] at hk
    exact agree_patched ha.good hs hsec hzero (by rw [hbps]; omega) (by omega) (by omega)
      fun j hj => hk j (by omega)
  · obtain rfl : b.dev = dev := Option.some.inj (hkdev.symm.trans hdev)
    refine ⟨ha.good, by rw [hksec]; exact hsec, hbps, fun j _ => ?_⟩
    show s.kbuf j = Function.update s.disk (loc s.dm b.dev s.sec) s.kbuf (loc s.dm b.dev s.ksec) j
    rw [hksec, Function.update_self]

/-- What the controller leaves alone. -/
lemma obey_leaves (s : State) (b : Buf) (bad : Option Bytes) :
    (s.obey b bad).dm = s.dm ∧ (s.obey b bad).queue = s.queue ∧ (s.obey b bad).done = s.done := by
  rw [State.obey]
  by_cases hop : s.comm.op = sread
  · rw [if_pos hop]
    cases ht : s.target with
    | kbuf =>
        rw [State.receive_kbuf ht]
        exact ⟨rfl, rfl, rfl⟩
    | data a =>
        rw [State.receive_data ht]
        exact ⟨rfl, rfl, rfl⟩
  · rw [if_neg hop]
    exact ⟨rfl, rfl, rfl⟩

/-- The controller is done with its command. -/
lemma Deblocked.obey (h : Deblocked name v₀ s) (hb : s.curbuf = some b) (hno : s.intstat = nostat)
    {bad : Option Bytes} (hok : s.target = .kbuf → s.comm.op ≠ sread → bad = none) :
    Deblocked name v₀ (s.obey b bad) := by
  obtain ⟨v, hdone, ⟨hcur, -⟩ | ⟨b', hdoing⟩⟩ := h.books
  · cases hcur.symm.trans hb
  obtain rfl : b' = b := Option.some.inj (hdoing.cur.symm.trans hb)
  have hs : (spec s.dm b'.dev).Sane := h.sane _ hdoing.at.good.isopen
  have hnext : ∃ b, Doing name v (s.obey b' bad) b := by
    cases hdoing with
    | whole ha hp hc hw hsec hcmd _ =>
        cases hr : b'.bread with
        | true => exact obey_read ha hp hc hw hsec hcmd hr bad
        | false => exact ⟨b', obey_write hs ha hp hc hw hsec hcmd hr bad⟩
    | fill ha hp hh haddr hsec hcmd hkdev hkw _ =>
        exact ⟨b', obey_fill ha hp hh haddr hsec hcmd hkdev hkw bad⟩
    | store ha hp hh haddr hr hsec hksec hkdev hk hcmd hkw _ =>
        have hop : s.comm.op ≠ sread := by
          rw [hcmd.op]
          decide
        rw [hok hcmd.target hop]
        exact ⟨b', obey_store hs ha hp hh haddr hr hsec hksec hkdev hk hcmd hkw⟩
    | moved _ _ _ _ _ _ hstat => exact absurd hno hstat
    | filled _ _ _ _ _ _ _ _ hstat => exact absurd hno hstat
    | stored _ _ _ _ _ _ _ _ hstat => exact absurd hno hstat
    | failed _ _ _ _ _ hstat => exact absurd hno hstat
  obtain ⟨hdm, hqueue, hlog⟩ := obey_leaves s b' bad
  refine ⟨?_, ?_, v, ?_, .inr hnext⟩
  · rw [hdm]
    exact h.sane
  · rw [hdm, hqueue]
    exact h.fits
  · rw [hlog]
    exact hdone

/-- A request goes to the end of the queue. -/
lemma Deblocked.enqueue (h : Deblocked name v₀ s) (hf : Fits name s.dm b) :
    Deblocked name v₀ { s with queue := s.queue ++ [b], asked := s.asked ++ [b] } := by
  obtain ⟨v, hdone, hwork⟩ := h.books
  refine ⟨h.sane, ?_, v, hdone, ?_⟩
  · exact List.forall_mem_append.mpr ⟨h.fits, List.forall_mem_singleton.mpr hf⟩
  · rcases hwork with hidle | ⟨b', hdoing⟩
    · exact .inl hidle
    · exact .inr ⟨b', hdoing.service⟩

lemma Boot.deblocked (h : Boot name v₀ s) : Deblocked name v₀ s where
  sane a ha := specs_sane _ (h.specs a ha)
  fits := by
    rw [h.start.queue]
    exact List.forall_mem_nil _
  books := by
    refine ⟨v₀, ?_, .inl ⟨h.start.curbuf, h.agree, fun dev hdev => ?_⟩⟩
    · rw [h.start.done]
      exact .nil v₀
    · cases h.start.kdev.symm.trans hdev

/-- What one step preserves. -/
lemma deblocked_step {l : Label} (h : Deblocked name v₀ s ∧ s.Orderly) (hok : Allowed name s l)
    (hs : step s l = some t) : Deblocked name v₀ t ∧ t.Orderly := by
  refine ⟨?_, orderly_step h.2 hs⟩
  cases l with
  | djstrat b o =>
      obtain rfl := Option.some.inj hs
      exact (h.1.enqueue hok).djint (h.2.toSound.enqueue b) o
  | djint o =>
      obtain rfl := Option.some.inj hs
      exact h.1.djint h.2.toSound o
  | controller bad =>
      rw [step] at hs
      cases hb : s.curbuf with
      | none =>
          rw [hb] at hs
          cases hs
      | some b =>
          rw [hb] at hs
          obtain ⟨hno, hs⟩ := Option.ite_none_right_eq_some.mp hs
          obtain rfl := Option.some.inj hs
          exact h.1.obey hb hno hok
  | drive a d => exact hok.elim

end

end Floppy

end Micronix
