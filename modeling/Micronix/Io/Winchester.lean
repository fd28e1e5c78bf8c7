import Micronix.Lib.Transition
import Mathlib.Data.UInt
import Mathlib.Tactic.Linarith

/-!
# Addresses on the hard disk

`sys/mw.c` checks a request when it comes (`mwstrat`); then the controller moves one sector with
each command, and its interrupts issue the next command, the same one again, or, after a
recalibration of the drive, the first one (`rwint`, `newdrv`, `newrw`).  `rwcmd` reckons cylinder,
head and sector from the number of the block.

The driver serves one request until `advque`; the queue and the bus are in `Micronix.Io.Bus`.
-/

namespace Micronix

namespace Winchester

/-- `struct spec`. -/
structure Spec where
  tracks : UInt16
  heads : UInt8
  sectors : UInt8
  stpdel : UInt8
  precomp : UInt16
  lowcur : UInt16

/-- `struct info`; `open` and `type` are used by `mwopen` alone. -/
structure Info extends Spec where
  maxblk : UInt16
  spc : UInt16
  curtrk : UInt16
  calib : Bool
  recal : Bool

/-- What `mwopen` makes of the geometry. -/
def mwopen (i : Info) (spec : Spec) : Info :=
  { i with
    toSpec := spec
    maxblk := spec.tracks * spec.heads.toUInt16 * spec.sectors.toUInt16 - 1
    spc := spec.heads.toUInt16 * spec.sectors.toUInt16 }

/-- The operations of the controller. -/
inductive Op
  | reads | writes | load | stat | home
  deriving DecidableEq, Repr

/-- The command for the controller, with the bytes that are left and the block. -/
structure Cmd where
  seksel : UInt8
  steps : UInt16
  hedsel : UInt8
  dma : UInt16
  xdma : UInt8
  arg0 : UInt16
  arg2 : UInt8
  arg3 : UInt8
  op : Op
  count : UInt16
  blk : UInt16

/-- A request. -/
structure Buf where
  bread : Bool
  dev : UInt16
  blk : UInt16
  count : UInt16
  data : UInt16
  xmem : UInt8
  cyl : UInt16

/-- `mwcyl(blk, info)`: block 0 is in the middle of the disk. -/
def mwcyl (blk : UInt16) (i : Info) : UInt16 :=
  let cyl := blk / i.spc
  let roll := i.tracks
  let cyl := cyl + (roll >>> 1)
  if roll ≤ cyl then cyl - roll else cyl

/-- `mwstrat`, up to the queue: `none` is `ENXIO`. -/
def mwstrat (i : Info) (b : Buf) : Option Buf :=
  if i.maxblk < b.blk then none else some { b with cyl := mwcyl b.blk i }

/-- The driver while it serves the request `mwbuf`; `mwinfo` is the entry of its drive. -/
structure Driver where
  mwbuf : Buf
  mwinfo : Info
  cmd : Cmd
  curdrv : UInt8
  retry : UInt8

namespace Driver

/-- `rwcmd()`. -/
def rwcmd (s : Driver) : Driver :=
  let i := s.mwinfo
  let csec := s.cmd.blk % i.spc
  let nsecs := i.sectors.toUInt16
  let track := mwcyl s.cmd.blk i
  let head := csec / nsecs
  let sector := csec % nsecs
  let out := ¬i.curtrk < track
  let hedsel := s.curdrv ||| ((~~~head.toUInt8 &&& 7) <<< 2) ||| 0x40
  let hedsel := if i.precomp ≤ track then hedsel ||| 0x80 else hedsel
  let hedsel := if i.lowcur ≤ track then hedsel &&& ~~~0x40 else hedsel
  { s with
    mwinfo := { i with curtrk := track }
    cmd := { s.cmd with
      seksel := if out then s.curdrv ||| 0x10 else s.curdrv
      steps := if out then i.curtrk - track else track - i.curtrk
      hedsel
      arg0 := track
      arg2 := head.toUInt8
      arg3 := sector.toUInt8 } }

/-- `newrw()`. -/
def newrw (s : Driver) : Driver :=
  let cmd := { s.cmd with
    blk := s.mwbuf.blk
    dma := s.mwbuf.data
    xdma := s.mwbuf.xmem
    count := s.mwbuf.count
    op := if s.mwbuf.bread then .reads else .writes }
  if s.mwinfo.recal then
    rwcmd { s with cmd, mwinfo := { s.mwinfo with recal := false } }
  else
    rwcmd { s with cmd, retry := 10 }

/-- `cmd.arg0.byte.high = b`. -/
def setHigh (w : UInt16) (b : UInt8) : UInt16 :=
  w &&& (0xff : UInt16) ||| b.toUInt16 <<< (8 : UInt16)

/-- `newdrv()`; `ready` is the answer to `STAT`.  `none` is an error, and then `advque`. -/
def newdrv (s : Driver) (ready : Bool) : Option Driver :=
  let curdrv := (s.mwbuf.dev &&& 3).toUInt8
  let cmd := { s.cmd with steps := 0, seksel := curdrv, hedsel := curdrv, arg2 := 0, arg3 := 3 }
  if s.mwinfo.calib then
    let cmd := { cmd with
      arg0 := setHigh cmd.arg0 (s.mwinfo.stpdel ||| 0x80), hedsel := cmd.hedsel ||| 0x30,
      op := .load }
    some (newrw { s with curdrv, cmd })
  else if ready then
    let cmd := { cmd with
      arg0 := setHigh cmd.arg0 (30 ||| 0x80)
      hedsel := cmd.hedsel ||| 0x30
      steps := 0xffff
      seksel := cmd.seksel ||| 0x10
      op := .home }
    some { s with curdrv, cmd, mwinfo := { s.mwinfo with curtrk := 0, calib := true } }
  else none

/-- The status of a command. -/
inductive Stat
  | ok | notrdy | other
  deriving DecidableEq, Repr

/-- `rwint()`; `none` is `advque`. -/
def rwint (s : Driver) (stat : Stat) (ready : Bool) : Option Driver :=
  match stat with
  | .ok =>
      if s.cmd.count ≤ 512 then none
      else
        some (rwcmd { s with cmd := { s.cmd with
          count := s.cmd.count - 512, dma := s.cmd.dma + 512, blk := s.cmd.blk + 1 } })
  | .notrdy => none
  | .other =>
      let s' := { s with retry := s.retry - 1 }
      if s.retry = 10 / 2 then
        newdrv { s' with mwinfo := { s'.mwinfo with calib := false, recal := true } } ready
      else if s.retry - 1 ≠ 0 then some { s' with cmd := { s'.cmd with steps := 0 } }
      else none

/-- An interrupt: the status of the command, and the answer to `STAT` if there is one. -/
structure Label where
  stat : Stat
  ready : Bool
  deriving DecidableEq, Repr

/-- `mwint()`. -/
def mwint (s : Driver) (l : Label) : Option Driver :=
  match s.cmd.op with
  | .reads | .writes => s.rwint l.stat l.ready
  | .load | .stat | .home => s.newdrv l.ready

end Driver

/-! ## What is to be shown -/

/-- Cylinder, head and sector, as `rwcmd` gives them to the controller. -/
def address (i : Info) (blk : UInt16) : UInt16 × UInt8 × UInt8 :=
  let csec := blk % i.spc
  let nsecs := i.sectors.toUInt16
  (mwcyl blk i, (csec / nsecs).toUInt8, (csec % nsecs).toUInt8)

/-- The driver begins with the request: after `advque`, or when the drive has been selected. -/
def Begins (i : Info) (b : Buf) (s : Driver) : Prop :=
  ∃ s₀ : Driver, s₀.mwbuf = b ∧
    (s₀.mwinfo.toSpec = i.toSpec ∧ s₀.mwinfo.spc = i.spc) ∧
    (s = s₀.newrw ∨ ∃ ready, s₀.newdrv ready = some s)

/-- The driver serves the request. -/
abbrev Serves (i : Info) (b : Buf) : Driver → Prop :=
  Transition.Reachable Driver.mwint (Begins i b)

/-- The command moves a sector. -/
def Driver.Moves (s : Driver) : Prop := s.cmd.op = .reads ∨ s.cmd.op = .writes

/-- How many blocks are to be moved. -/
def Buf.blocks (b : Buf) : ℕ := max 1 ((b.count.toNat + 511) / 512)

/-- Which of them is being moved, by the bytes that have been. -/
def Driver.index (s : Driver) : ℕ := (s.mwbuf.count - s.cmd.count).toNat / 512

/-- Every command moves a sector that there is, of a block that the check allows, and no two blocks
of the disk have the same place. -/
structure Sound (i : Info) (b : Buf) : Prop where
  range : ∀ s, Serves i b s → s.Moves →
    s.cmd.arg0 < i.tracks ∧ s.cmd.arg2 < i.heads ∧ s.cmd.arg3 < i.sectors
  within : ∀ s, Serves i b s → s.Moves → b.blk.toNat + s.index ≤ i.maxblk.toNat
  distinct : ∀ a c, a ≤ i.maxblk → c ≤ i.maxblk → address i a = address i c → a = c

/-! ## One request -/

namespace Driver

variable {i : Info} {b : Buf} {s s' : Driver} {k : ℕ}

/-- The command is the one for the `k`-th block. -/
structure At (i : Info) (b : Buf) (k : ℕ) (s : Driver) : Prop where
  moves : s.Moves
  lt : k < b.blocks
  blk : s.cmd.blk = b.blk + UInt16.ofNat k
  count : s.cmd.count.toNat = b.count.toNat - 512 * k
  address : (s.cmd.arg0, s.cmd.arg2, s.cmd.arg3) = address i s.cmd.blk

/-- What holds while the request is served. -/
structure Serving (i : Info) (b : Buf) (s : Driver) : Prop where
  mwbuf : s.mwbuf = b
  spec : s.mwinfo.toSpec = i.toSpec
  spc : s.mwinfo.spc = i.spc
  at_ : s.Moves → ∃ k, At i b k s

lemma toNat_512 : (512 : UInt16).toNat = 512 := rfl

lemma blocks_pos (b : Buf) : 0 < b.blocks := lt_of_lt_of_le Nat.zero_lt_one (le_max_left _ _)

lemma lt_blocks (hk : 0 < k) : k < b.blocks ↔ 512 * k < b.count.toNat := by
  rw [Buf.blocks]
  omega

lemma address_congr {j : Info} (h : j.toSpec = i.toSpec) (h' : j.spc = i.spc) (blk : UInt16) :
    Winchester.address j blk = Winchester.address i blk := by
  simp only [Winchester.address, mwcyl, h, h']

/-- `rwcmd` with the block and the count of the `k`-th block. -/
lemma serving_rwcmd (hb : s.mwbuf = b) (hspec : s.mwinfo.toSpec = i.toSpec)
    (hspc : s.mwinfo.spc = i.spc) (hm : s.Moves) (hk : k < b.blocks)
    (hblk : s.cmd.blk = b.blk + UInt16.ofNat k)
    (hcount : s.cmd.count.toNat = b.count.toNat - 512 * k) :
    Serving i b s.rwcmd ∧ At i b k s.rwcmd := by
  have hat : At i b k s.rwcmd := ⟨hm, hk, hblk, hcount, address_congr hspec hspc s.cmd.blk⟩
  exact ⟨⟨hb, hspec, hspc, fun _ => ⟨k, hat⟩⟩, hat⟩

lemma serving_newrw (hb : s.mwbuf = b) (hspec : s.mwinfo.toSpec = i.toSpec)
    (hspc : s.mwinfo.spc = i.spc) : Serving i b s.newrw ∧ At i b 0 s.newrw := by
  have hop : (if s.mwbuf.bread then Op.reads else Op.writes) = .reads ∨
      (if s.mwbuf.bread then Op.reads else Op.writes) = .writes := by
    cases s.mwbuf.bread
    · exact Or.inr rfl
    · exact Or.inl rfl
  have hblk : s.mwbuf.blk = b.blk + UInt16.ofNat 0 := by
    rw [hb]
    exact (UInt16.add_zero _).symm
  have hcount : s.mwbuf.count.toNat = b.count.toNat - 512 * 0 := by
    rw [hb, Nat.mul_zero, Nat.sub_zero]
  unfold newrw
  dsimp only
  by_cases hr : s.mwinfo.recal = true
  · rw [if_pos hr]
    exact serving_rwcmd hb hspec hspc hop (blocks_pos b) hblk hcount
  · rw [if_neg hr]
    exact serving_rwcmd hb hspec hspc hop (blocks_pos b) hblk hcount

lemma Serving.newdrv {ready : Bool} (hb : s.mwbuf = b) (hspec : s.mwinfo.toSpec = i.toSpec)
    (hspc : s.mwinfo.spc = i.spc) (he : s.newdrv ready = some s') : Serving i b s' := by
  unfold Driver.newdrv at he
  dsimp only at he
  split_ifs at he
  · obtain rfl := Option.some.inj he
    exact And.left (serving_newrw hb hspec hspc)
  · obtain rfl := Option.some.inj he
    exact ⟨hb, hspec, hspc, fun h => by rcases h with h | h <;> cases h⟩

/-- The next block. -/
lemma Serving.next (h : Serving i b s) (hat : At i b k s) (hc : ¬s.cmd.count ≤ 512) :
    ∃ s', s.mwint ⟨.ok, true⟩ = some s' ∧ Serving i b s' ∧ At i b (k + 1) s' := by
  have hlt : 512 < s.cmd.count.toNat := by
    rw [UInt16.le_iff_toNat_le, toNat_512] at hc
    exact Nat.not_le.mp hc
  have hcount := hat.count
  have hrun : s.mwint ⟨.ok, true⟩ = s.rwint .ok true := by
    rcases hat.moves with e | e <;> rw [mwint, e]
  set t : Driver := { s with cmd := { s.cmd with
    count := s.cmd.count - 512, dma := s.cmd.dma + 512, blk := s.cmd.blk + 1 } } with ht
  have hblk : t.cmd.blk = b.blk + UInt16.ofNat (k + 1) := by
    show s.cmd.blk + 1 = _
    rw [hat.blk, UInt16.ofNat_add, UInt16.add_assoc]
    rfl
  have hcount' : t.cmd.count.toNat = b.count.toNat - 512 * (k + 1) := by
    show (s.cmd.count - 512).toNat = _
    rw [UInt16.toNat_sub_of_le _ _ (by rw [UInt16.le_iff_toNat_le, toNat_512]; exact hlt.le),
      toNat_512]
    omega
  have hmoves : t.cmd.op = .reads ∨ t.cmd.op = .writes := hat.moves
  exact ⟨t.rwcmd, by rw [hrun, rwint, if_neg hc], serving_rwcmd h.mwbuf h.spec h.spc hmoves
    ((lt_blocks (Nat.succ_pos k)).mpr (by omega)) hblk hcount'⟩

/-- **The step lemma.** -/
lemma Serving.step {l : Label} (h : Serving i b s) (he : s.mwint l = some s') : Serving i b s' := by
  have hrw (hm : s.Moves) (he : s.rwint l.stat l.ready = some s') : Serving i b s' := by
    obtain ⟨k, hat⟩ := h.at_ hm
    unfold rwint at he
    split at he
    · split_ifs at he with hc
      obtain ⟨t, ht, hs, -⟩ := h.next hat hc
      have hrun : s.mwint ⟨.ok, true⟩ = s.rwint .ok true := by
        rcases hm with e | e <;> rw [mwint, e]
      rw [hrun, rwint, if_neg hc, he] at ht
      exact Option.some.inj ht ▸ hs
    · cases he
    · dsimp only at he
      split_ifs at he
      · refine .newdrv ?_ ?_ ?_ he
        exacts [h.mwbuf, h.spec, h.spc]
      · obtain rfl := Option.some.inj he
        exact ⟨h.mwbuf, h.spec, h.spc,
          fun _ => ⟨k, hat.moves, hat.lt, hat.blk, hat.count, hat.address⟩⟩
  unfold mwint at he
  split at he
  · rename_i hop
    exact hrw (Or.inl hop) he
  · rename_i hop
    exact hrw (Or.inr hop) he
  · exact .newdrv h.mwbuf h.spec h.spc he
  · exact .newdrv h.mwbuf h.spec h.spc he
  · exact .newdrv h.mwbuf h.spec h.spc he

lemma Serving.of_serves (h : Serves i b s) : Serving i b s := by
  refine h.invariant (fun s hs => ?_) fun _ _ _ hs _ he => hs.step he
  obtain ⟨s₀, hb, ⟨hspec, hspc⟩, rfl | ⟨ready, he⟩⟩ := hs
  · exact (serving_newrw hb hspec hspc).1
  · exact .newdrv hb hspec hspc he

/-- Every block comes up. -/
lemma exists_at (i : Info) (b : Buf) (s₀ : Driver) (hb : s₀.mwbuf = b)
    (hspec : s₀.mwinfo.toSpec = i.toSpec) (hspc : s₀.mwinfo.spc = i.spc) :
    ∀ k < b.blocks, ∃ s, Serves i b s ∧ Serving i b s ∧ At i b k s
  | 0, _ => ⟨s₀.newrw, .start ⟨s₀, hb, ⟨hspec, hspc⟩, Or.inl rfl⟩, serving_newrw hb hspec hspc⟩
  | k + 1, hk => by
      obtain ⟨s, hs, hserv, hat⟩ := exists_at i b s₀ hb hspec hspc k (by omega)
      have hlt := (lt_blocks (Nat.succ_pos k)).mp hk
      have hc : ¬s.cmd.count ≤ 512 := by
        rw [UInt16.le_iff_toNat_le, hat.count, toNat_512]
        omega
      obtain ⟨s', he, hserv', hat'⟩ := hserv.next hat hc
      exact ⟨s', .step hs trivial he, hserv', hat'⟩

lemma At.index (hb : s.mwbuf = b) (h : At i b k s) : s.index = k := by
  have hcount := h.count
  have hk : 512 * k ≤ b.count.toNat := by
    rcases Nat.eq_zero_or_pos k with rfl | hk
    · exact Nat.zero_le _
    · exact ((lt_blocks hk).mp h.lt).le
  rw [Driver.index, hb, UInt16.toNat_sub_of_le _ _ (by rw [UInt16.le_iff_toNat_le]; omega), hcount]
  omega

end Driver

/-! ## The geometry -/

section Geometry

variable {i : Info} {spec : Spec} {blk a c : UInt16}

/-- The cylinder of the `c`-th cylinder's blocks. -/
def roll (tracks c : ℕ) : ℕ :=
  if tracks ≤ c + tracks / 2 then c + tracks / 2 - tracks else c + tracks / 2

lemma roll_lt {t c : ℕ} (hc : c < t) : roll t c < t := by
  rw [roll]
  split_ifs <;> omega

lemma roll_inj {t c d : ℕ} (hc : c < t) (hd : d < t) (h : roll t c = roll t d) : c = d := by
  rw [roll, roll] at h
  split_ifs at h <;> omega

/-- The number of sectors. -/
def Spec.size (spec : Spec) : ℕ := spec.tracks.toNat * (spec.heads.toNat * spec.sectors.toNat)

lemma spc_toNat (i : Info) (spec : Spec) :
    (mwopen i spec).spc.toNat = spec.heads.toNat * spec.sectors.toNat := by
  have hle : spec.heads.toNat * spec.sectors.toNat ≤ 255 * 255 :=
    Nat.mul_le_mul (Nat.le_of_lt_succ spec.heads.toNat_lt) (Nat.le_of_lt_succ spec.sectors.toNat_lt)
  show (spec.heads.toUInt16 * spec.sectors.toUInt16).toNat = _
  rw [UInt16.toNat_mul, UInt8.toNat_toUInt16, UInt8.toNat_toUInt16, Nat.mod_eq_of_lt (by omega)]

/-- The last block, also where there are 65536 of them. -/
lemma maxblk_toNat (i : Info) (h0 : 0 < spec.size) (h : spec.size ≤ 65536) :
    (mwopen i spec).maxblk.toNat = spec.size - 1 := by
  show (spec.tracks * spec.heads.toUInt16 * spec.sectors.toUInt16 - 1).toNat = _
  rw [UInt16.toNat_sub, UInt16.toNat_mul, UInt16.toNat_mul, UInt8.toNat_toUInt16,
    UInt8.toNat_toUInt16, Nat.mod_mul_mod, Nat.mul_assoc, ← Spec.size]
  show (2 ^ 16 - 1 + spec.size % 2 ^ 16) % 2 ^ 16 = _
  omega

variable (hspc : 0 < spec.heads.toNat * spec.sectors.toNat)
  (hcyl : blk.toNat / (spec.heads.toNat * spec.sectors.toNat) < spec.tracks.toNat)

include hcyl in
/-- The cylinder, if the sum does not wrap. -/
lemma mwcyl_toNat (hwrap : spec.tracks.toNat + spec.tracks.toNat / 2 ≤ 65536) :
    (mwcyl blk (mwopen i spec)).toNat =
      roll spec.tracks.toNat (blk.toNat / (spec.heads.toNat * spec.sectors.toNat)) := by
  generalize hn : blk.toNat / (spec.heads.toNat * spec.sectors.toNat) = n at hcyl
  set cyl := blk / (mwopen i spec).spc + spec.tracks >>> 1 with hcyldef
  have hsum : cyl.toNat = n + spec.tracks.toNat / 2 := by
    rw [hcyldef, UInt16.toNat_add, UInt16.toNat_div, spc_toNat, hn, UInt16.toNat_shiftRight,
      Nat.shiftRight_eq_div_pow]
    show (n + spec.tracks.toNat / 2) % 65536 = _
    omega
  show (if spec.tracks ≤ cyl then cyl - spec.tracks else cyl).toNat = _
  rw [roll]
  by_cases hle : spec.tracks.toNat ≤ n + spec.tracks.toNat / 2
  · have hle' : spec.tracks ≤ cyl := by rwa [UInt16.le_iff_toNat_le, hsum]
    rw [if_pos hle', if_pos hle, UInt16.toNat_sub_of_le _ _ hle', hsum]
  · rw [if_neg (by rwa [UInt16.le_iff_toNat_le, hsum]), if_neg hle, hsum]

include hspc in
/-- Head and sector. -/
lemma headsec_toNat : (address (mwopen i spec) blk).2.1.toNat =
      blk.toNat % (spec.heads.toNat * spec.sectors.toNat) / spec.sectors.toNat ∧
    (address (mwopen i spec) blk).2.2.toNat =
      blk.toNat % (spec.heads.toNat * spec.sectors.toNat) % spec.sectors.toNat ∧
    blk.toNat % (spec.heads.toNat * spec.sectors.toNat) / spec.sectors.toNat
      < spec.heads.toNat := by
  have hsec : 0 < spec.sectors.toNat := Nat.pos_of_mul_pos_left hspc
  have hhead : blk.toNat % (spec.heads.toNat * spec.sectors.toNat) / spec.sectors.toNat <
      spec.heads.toNat := (Nat.div_lt_iff_lt_mul hsec).mpr (Nat.mod_lt _ hspc)
  have hhead' := hhead.trans spec.heads.toNat_lt
  have hsec' : blk.toNat % (spec.heads.toNat * spec.sectors.toNat) % spec.sectors.toNat < 256 :=
    (Nat.mod_lt _ hsec).trans spec.sectors.toNat_lt
  refine ⟨?_, ?_, hhead⟩
  · show ((blk % (mwopen i spec).spc) / spec.sectors.toUInt16).toUInt8.toNat = _
    rw [UInt16.toNat_toUInt8, UInt16.toNat_div, UInt16.toNat_mod, spc_toNat, UInt8.toNat_toUInt16,
      Nat.mod_eq_of_lt hhead']
  · show ((blk % (mwopen i spec).spc) % spec.sectors.toUInt16).toUInt8.toNat = _
    rw [UInt16.toNat_toUInt8, UInt16.toNat_mod, UInt16.toNat_mod, spc_toNat, UInt8.toNat_toUInt16,
      Nat.mod_eq_of_lt hsec']

/-- In the range of the geometry, and each block at a place of its own. -/
lemma address_lt (hblk : blk.toNat < spec.size)
    (hwrap : spec.tracks.toNat + spec.tracks.toNat / 2 ≤ 65536) :
    (address (mwopen i spec) blk).1 < spec.tracks ∧ (address (mwopen i spec) blk).2.1 < spec.heads ∧
      (address (mwopen i spec) blk).2.2 < spec.sectors := by
  have hspc : 0 < spec.heads.toNat * spec.sectors.toNat :=
    Nat.pos_of_mul_pos_left (lt_of_le_of_lt (Nat.zero_le _) hblk)
  have hcyl : blk.toNat / (spec.heads.toNat * spec.sectors.toNat) < spec.tracks.toNat :=
    (Nat.div_lt_iff_lt_mul hspc).mpr hblk
  obtain ⟨hhead, hsec, hlt⟩ := @headsec_toNat i spec blk hspc
  refine ⟨?_, ?_, ?_⟩
  · rw [UInt16.lt_iff_toNat_lt]
    exact (mwcyl_toNat hcyl hwrap).trans_lt (roll_lt hcyl)
  · rw [UInt8.lt_iff_toNat_lt, hhead]
    exact hlt
  · rw [UInt8.lt_iff_toNat_lt, hsec]
    exact Nat.mod_lt _ (Nat.pos_of_mul_pos_left hspc)

lemma address_inj (ha : a.toNat < spec.size) (hc : c.toNat < spec.size)
    (hwrap : spec.tracks.toNat + spec.tracks.toNat / 2 ≤ 65536)
    (h : address (mwopen i spec) a = address (mwopen i spec) c) : a = c := by
  set n := spec.heads.toNat * spec.sectors.toNat with hn
  have hspc : 0 < n := Nat.pos_of_mul_pos_left (lt_of_le_of_lt (Nat.zero_le _) ha)
  have hcyl (b : UInt16) (hb : b.toNat < spec.size) : b.toNat / n < spec.tracks.toNat :=
    (Nat.div_lt_iff_lt_mul hspc).mpr hb
  obtain ⟨ha1, ha2, -⟩ := @headsec_toNat i spec a hspc
  obtain ⟨hc1, hc2, -⟩ := @headsec_toNat i spec c hspc
  have hdiv : a.toNat / n = c.toNat / n := by
    refine roll_inj (hcyl a ha) (hcyl c hc) ?_
    rw [← mwcyl_toNat (hcyl a ha) hwrap, ← mwcyl_toNat (hcyl c hc) hwrap]
    exact congrArg (fun x => x.1.toNat) h
  have hmod : a.toNat % n = c.toNat % n := by
    rw [← Nat.div_add_mod (a.toNat % n) spec.sectors.toNat,
      ← Nat.div_add_mod (c.toNat % n) spec.sectors.toNat, ← ha1, ← ha2, ← hc1, ← hc2, h]
  rw [← UInt16.toNat_inj, ← Nat.div_add_mod a.toNat n, ← Nat.div_add_mod c.toNat n, hdiv, hmod]

/-- On a disk with more tracks than that, two cylinders are one. -/
lemma exists_collision (i : Info) (h : spec.size ≤ 65536) (h0 : 0 < spec.size)
    (hwrap : 65536 < spec.tracks.toNat + spec.tracks.toNat / 2) :
    ∃ a c : UInt16, a.toNat < spec.size ∧ c.toNat < spec.size ∧ a ≠ c ∧
      address (mwopen i spec) a = address (mwopen i spec) c := by
  have hspc : 0 < spec.heads.toNat * spec.sectors.toNat := Nat.pos_of_mul_pos_left h0
  have ht := spec.tracks.toNat_lt
  have hone : spec.heads.toNat * spec.sectors.toNat = 1 := by
    by_contra hne
    have : spec.tracks.toNat * 2 ≤ spec.size := Nat.mul_le_mul_left _ (by omega)
    omega
  have hsize : spec.size = spec.tracks.toNat := by rw [Spec.size, hone, Nat.mul_one]
  have hspc1 : (mwopen i spec).spc = 1 := by
    rw [← UInt16.toNat_inj, spc_toNat, hone]
    rfl
  have hhalf : (spec.tracks >>> 1).toNat = spec.tracks.toNat / 2 := by
    rw [UInt16.toNat_shiftRight, Nat.shiftRight_eq_div_pow]
    rfl
  have hle : spec.tracks >>> 1 ≤ spec.tracks := by
    rw [UInt16.le_iff_toNat_le, hhalf]
    omega
  -- one sum is the number of tracks, the other one is 65536
  have hval : (spec.tracks - spec.tracks >>> 1).toNat =
      spec.tracks.toNat - spec.tracks.toNat / 2 := by
    rw [UInt16.toNat_sub_of_le _ _ hle, hhalf]
  have hneg : (-(spec.tracks >>> 1)).toNat = 65536 - spec.tracks.toNat / 2 := by
    rw [UInt16.toNat_neg, hhalf]
    show (65536 - spec.tracks.toNat / 2) % 65536 = _
    omega
  have hcyl (b : UInt16) (hb : b + spec.tracks >>> 1 = spec.tracks ∨ b + spec.tracks >>> 1 = 0) :
      mwcyl b (mwopen i spec) = 0 := by
    show (if spec.tracks ≤ b / (mwopen i spec).spc + spec.tracks >>> 1 then
      b / (mwopen i spec).spc + spec.tracks >>> 1 - spec.tracks
      else b / (mwopen i spec).spc + spec.tracks >>> 1) = 0
    rw [hspc1, UInt16.div_one]
    rcases hb with hb | hb
    · rw [hb, if_pos (UInt16.le_refl _), UInt16.sub_self]
    · rw [hb, if_neg]
      rw [UInt16.le_iff_toNat_le]
      show ¬_ ≤ 0
      omega
  have hrest (b : UInt16) : (address (mwopen i spec) b).2 = (address (mwopen i spec) 0).2 := by
    simp only [address, hspc1]
    rw [show b % 1 = 0 from UInt16.mod_one]
    rfl
  refine ⟨spec.tracks - spec.tracks >>> 1, -(spec.tracks >>> 1), by rw [hval]; omega,
    by rw [hneg]; omega, fun he => ?_, Prod.ext ?_ ((hrest _).trans (hrest _).symm)⟩
  · have := congrArg UInt16.toNat he
    rw [hval, hneg] at this
    omega
  · exact (hcyl _ (Or.inl (UInt16.sub_add_cancel _ _))).trans
      (hcyl _ (Or.inr (UInt16.add_left_neg _))).symm

end Geometry

/-! ## The result -/

/-- A drive just before it is opened. -/
def Info.zero : Info :=
  { tracks := 0, heads := 0, sectors := 0, stpdel := 0, precomp := 0, lowcur := 0, maxblk := 0,
    spc := 0, curtrk := 0, calib := false, recal := false }

/-- The driver, idle, with a request. -/
def Driver.idle (i : Info) (b : Buf) : Driver where
  mwbuf := b
  mwinfo := i
  cmd := { seksel := 0, steps := 0, hedsel := 0, dma := 0, xdma := 0, arg0 := 0, arg2 := 0,
           arg3 := 0, op := .load, count := 0, blk := 0 }
  curdrv := 0
  retry := 0

/-- **Addresses.**  Each block of a request that `mwstrat` accepts comes up, and the commands are
sound just if the disk has blocks, the cylinders do not wrap, and the request ends on the disk. -/
theorem mwstrat_sound {spec : Spec} {i : Info} {b b' : Buf} (h : spec.size ≤ 65536)
    (hb : mwstrat (mwopen i spec) b = some b') :
    (∀ k < b.blocks, ∃ s, Serves (mwopen i spec) b' s ∧ s.Moves ∧ s.index = k ∧
      s.cmd.blk = b.blk + UInt16.ofNat k ∧
      (s.cmd.arg0, s.cmd.arg2, s.cmd.arg3) = address (mwopen i spec) s.cmd.blk) ∧
    (Sound (mwopen i spec) b' ↔
      0 < spec.size ∧ spec.tracks.toNat + spec.tracks.toNat / 2 ≤ 65536 ∧
        b.blk.toNat + b.blocks ≤ spec.size) := by
  have hsame : b'.blk = b.blk ∧ b'.blocks = b.blocks := by
    rw [mwstrat] at hb
    split_ifs at hb
    exact Option.some.inj hb ▸ ⟨rfl, rfl⟩
  rw [← hsame.1, ← hsame.2]
  have hall : ∀ k < b'.blocks, ∃ s, Serves (mwopen i spec) b' s ∧
      Driver.Serving (mwopen i spec) b' s ∧ Driver.At (mwopen i spec) b' k s :=
    Driver.exists_at (mwopen i spec) b' (.idle (mwopen i spec) b') rfl rfl rfl
  refine ⟨fun k hk => ?_, fun hs => ?_, fun ⟨h0, hwrap, hend⟩ => ?_⟩
  · obtain ⟨s, hs, hserv, hat⟩ := hall k hk
    exact ⟨s, hs, hat.moves, hat.index hserv.mwbuf, hat.blk, hat.address⟩
  · obtain ⟨s, hserves, hserv, hat⟩ := hall (b'.blocks - 1) (by have := Driver.blocks_pos b'; omega)
    obtain ⟨h1, h2, h3⟩ := hs.range s hserves hat.moves
    have h0 : 0 < spec.size :=
      Nat.mul_pos (lt_of_le_of_lt (Nat.zero_le _) (UInt16.lt_iff_toNat_lt.mp h1))
        (Nat.mul_pos (lt_of_le_of_lt (Nat.zero_le _) (UInt8.lt_iff_toNat_lt.mp h2))
          (lt_of_le_of_lt (Nat.zero_le _) (UInt8.lt_iff_toNat_lt.mp h3)))
    have hmax := maxblk_toNat i h0 h
    refine ⟨h0, ?_, ?_⟩
    · by_contra hwrap
      obtain ⟨a, c, ha, hc, hne, heq⟩ := exists_collision i h h0 (Nat.not_le.mp hwrap)
      refine hne (hs.distinct a c ?_ ?_ heq)
      all_goals
        rw [UInt16.le_iff_toNat_le, hmax]
        omega
    · have hwithin := hs.within s hserves hat.moves
      rw [hat.index hserv.mwbuf, hmax] at hwithin
      have := Driver.blocks_pos b'
      omega
  · have hmax := maxblk_toNat i h0 h
    refine ⟨fun s hs hm => ?_, fun s hs hm => ?_, fun a c ha hc heq => ?_⟩
    · obtain ⟨k, hat⟩ := (Driver.Serving.of_serves hs).at_ hm
      have hk := hat.lt
      have hblk : s.cmd.blk.toNat < spec.size := by
        rw [hat.blk, UInt16.toNat_add, UInt16.toNat_ofNat_of_lt' (show k < 65536 by omega)]
        exact lt_of_le_of_lt (Nat.mod_le _ _) (by omega)
      obtain ⟨h1, h2, h3⟩ := address_lt (i := i) hblk hwrap
      rw [← hat.address] at h1 h2 h3
      exact ⟨h1, h2, h3⟩
    · obtain ⟨k, hat⟩ := (Driver.Serving.of_serves hs).at_ hm
      have hk := hat.lt
      rw [hat.index (Driver.Serving.of_serves hs).mwbuf, hmax]
      omega
    · rw [UInt16.le_iff_toNat_le, hmax] at ha hc
      exact address_inj (i := i) (by omega) (by omega) hwrap heq

/-- The small Seagate drive. -/
def seagate : Spec :=
  { tracks := 153, heads := 4, sectors := 17, stpdel := 30, precomp := 128, lowcur := 128 }

/-- A request for `count` bytes. -/
def request (blk count : UInt16) : Buf :=
  { bread := true, dev := 0, blk, count, data := 0, xmem := 0, cyl := 0 }

/-- The last two blocks. -/
theorem mwstrat_sound_last : ∃ b, mwstrat (mwopen .zero seagate) (request 10402 1024) = some b ∧
    Sound (mwopen .zero seagate) b :=
  ⟨_, rfl, (mwstrat_sound (b := request 10402 1024) (by decide) rfl).2.mpr
    ⟨by decide, by decide, by decide⟩⟩

/-- A request for two blocks that begins with the last one is accepted, and moves block 10404, which
there is not: it has the place of block 0. -/
theorem mwstrat_runs_over : ∃ b, mwstrat (mwopen .zero seagate) (request 10403 1024) = some b ∧
    ¬Sound (mwopen .zero seagate) b ∧
    ∃ s, Serves (mwopen .zero seagate) b s ∧ s.Moves ∧ s.cmd.blk = 10404 ∧
      (mwopen .zero seagate).maxblk < s.cmd.blk ∧
      (s.cmd.arg0, s.cmd.arg2, s.cmd.arg3) = address (mwopen .zero seagate) 0 := by
  have hs : ∃ s, Serves (mwopen .zero seagate) { request 10403 1024 with cyl := 75 } s ∧ s.Moves ∧
      s.cmd.blk = 10404 ∧ s.index = 1 ∧
      (s.cmd.arg0, s.cmd.arg2, s.cmd.arg3) = address (mwopen .zero seagate) 0 :=
    ⟨_, .step (.start ⟨.idle _ _, rfl, ⟨rfl, rfl⟩, Or.inl rfl⟩) trivial (l := ⟨.ok, true⟩) rfl,
      Or.inl rfl, by decide, by decide, by decide⟩
  obtain ⟨s, hs, hm, hblk, hindex, haddr⟩ := hs
  refine ⟨_, rfl, fun hsound => ?_, s, hs, hm, hblk, by rw [hblk]; decide, haddr⟩
  have := hsound.within s hs hm
  rw [hindex] at this
  exact absurd this (by decide)

end Winchester

end Micronix
