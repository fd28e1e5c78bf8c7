import Micronix.Lib.Bytes
import Mathlib.Data.Fin.Tuple.Basic
import Mathlib.Data.List.OfFn
import Mathlib.Data.Int.Order.Basic
import Mathlib.Logic.Function.Basic
import Mathlib.Tactic.Common
import Mathlib.Algebra.Group.Nat.Defs

/-!
# Disk images in IMD files

`lib/imdlib.c`: an image is a comment and a list of tracks, each with its own sectors, and next to
it there may be a delta file with the sectors that have been written.  The library reads all of it
into memory, and `imd_read` and `imd_write` work there; a write goes to the delta file too.

What a call returns is `none` if it uses an array outside of its bounds or a pointer that nobody has
set, and then nothing more is said of it.  A `char` has a sign.
-/

namespace Micronix

namespace Imdlib

/-! ## Tracks -/

/-- The header of a track, `fixed`. -/
structure Fixed where
  mode : UInt8
  cyl : UInt8
  head : UInt8
  nsec : UInt8
  size : UInt8
  deriving DecidableEq

/-- The head, without the flags for the two maps. -/
def Fixed.side (x : Fixed) : ℕ := x.head.toNat % 64

def Fixed.hasCylmap (x : Fixed) : Bool := x.head.toNat.testBit 7
def Fixed.hasHeadmap (x : Fixed) : Bool := x.head.toNat.testBit 6

/-- `0x80 << size` -/
def Fixed.secsize (x : Fixed) : ℕ := 128 * 2 ^ x.size.toNat

/-- `struct imd_trk`; a sector that is absent has no data. -/
structure Track where
  fixed : Fixed
  secmap : Fin fixed.nsec.toNat → UInt8
  cylmap : Option (Fin fixed.nsec.toNat → UInt8)
  headmap : Option (Fin fixed.nsec.toNat → UInt8)
  data : Fin fixed.nsec.toNat → Option (Fin fixed.secsize → UInt8)
  cylmap_flag : cylmap.isSome = fixed.hasCylmap
  headmap_flag : headmap.isSome = fixed.hasHeadmap

namespace Track

def nsec (t : Track) : ℕ := t.fixed.nsec.toNat
def secsize (t : Track) : ℕ := t.fixed.secsize

/-- Data for one sector. -/
def put (t : Track) (k : Fin t.fixed.nsec.toNat) (d : Fin t.fixed.secsize → UInt8) : Track :=
  { t with data := Function.update t.data k (some d) }

end Track

/-! ## Reading an image -/

/-- `read(fd, buf, n)` of as many bytes. -/
def read (n : ℕ) (img : List UInt8) : Option ((Fin n → UInt8) × List UInt8) :=
  if h : n ≤ img.length then some (fun i => img.get ⟨i, by omega⟩, img.drop n) else none

/-- A map that is there or not. -/
def readIf (flag : Bool) (n : ℕ) (img : List UInt8) :
    Option ({ map : Option (Fin n → UInt8) // map.isSome = flag } × List UInt8) :=
  match flag with
  | true => (read n img).map fun r => (⟨some r.1, rfl⟩, r.2)
  | false => some (⟨none, rfl⟩, img)

/-- A sector with its type: absent, full of one byte, or else full of data. -/
def readSector (size : ℕ) : List UInt8 → Option (Option (Fin size → UInt8) × List UInt8)
  | [] => none
  | c :: img =>
      if c ≠ 0 then
        if c = 2 then
          match img with
          | [] => none
          | c :: img => some (some fun _ => c, img)
        else (read size img).map fun r => (some r.1, r.2)
      else some (none, img)

/-- The sectors of a track. -/
def readSectors (size : ℕ) :
    (n : ℕ) → List UInt8 → Option ((Fin n → Option (Fin size → UInt8)) × List UInt8)
  | 0, img => some (Fin.elim0, img)
  | n + 1, img => do
      let (d, img) ← readSector size img
      let (ds, img) ← readSectors size n img
      pure (Fin.cons d ds, img)

/-- What follows the header. -/
def readTrack (x : Fixed) (img : List UInt8) : Option (Track × List UInt8) := do
  let (secmap, img) ← read x.nsec.toNat img
  let (cylmap, img) ← readIf x.hasCylmap x.nsec.toNat img
  let (headmap, img) ← readIf x.hasHeadmap x.nsec.toNat img
  let (data, img) ← readSectors x.secsize x.nsec.toNat img
  pure (⟨x, secmap, cylmap.1, headmap.1, data, cylmap.2, headmap.2⟩, img)

/-- What `get_track` comes to. -/
inductive Got
  | outside
  | stop
  | track (t : Track) (img : List UInt8)

/-- `get_track(fd)`.  From size 24 on the shift is beyond an `int`. -/
def getTrack : List UInt8 → Got
  | mode :: cyl :: head :: nsec :: size :: img =>
      if 24 ≤ size.toNat then .outside
      else
        match readTrack ⟨mode, cyl, head, nsec, size⟩ img with
        | some (t, img) => .track t img
        | none => .stop
  | _ => .stop

/-! ## Files -/

/-- A file of the host. -/
structure File where
  size : ℕ
  byte : ℕ → UInt8

namespace File

def truncate (f : File) (n : ℕ) : File := ⟨n, fun k => if k < f.size then f.byte k else 0⟩

/-- `read` of up to `n` bytes; what is beyond the end of the file stays in the buffer. -/
def read (f : File) (offset : ℕ) {n : ℕ} (buf : Fin n → UInt8) : Fin n → UInt8 :=
  fun k => if offset + k < f.size then f.byte (offset + k) else buf k

def write (f : File) (offset : ℕ) {n : ℕ} (buf : Fin n → UInt8) : File where
  size := max f.size (offset + n)
  byte k :=
    if h : offset ≤ k ∧ k < offset + n then buf ⟨k - offset, by omega⟩
    else if k < f.size then f.byte k
    else 0

end File

/-- `delta_fd`: no file, or one that is open for reading or for writing too. -/
inductive Delta
  | none
  | readOnly (f : File)
  | readWrite (f : File)

def HEADS : ℕ := 2
def CYLINDERS : ℕ := 80
def TRACKS : ℕ := CYLINDERS * HEADS
def SECTORS : ℕ := 32
def MAXSECSIZE : ℕ := 1024
def DELTA_YES : UInt8 := 1

def trknum (c h : ℤ) : ℤ := c * HEADS + h

def DELTA_SIZE : ℕ := CYLINDERS * HEADS * SECTORS

/-- `DIRTY_OFF` and `DELTA_OFF`, from the number of the track. -/
def dirtyOff (trk s : ℕ) : ℕ := trk * SECTORS + s
def deltaOff (trk s : ℕ) : ℕ := DELTA_SIZE + MAXSECSIZE * dirtyOff trk s

/-- `DELTA_OFF(TRACKS, 0, 0)`, where `TRACKS` is taken for a cylinder. -/
def MAXDELTA : ℕ := deltaOff (TRACKS * HEADS) 0

/-! ## Loading -/

/-- A pointer to a track: null, one that nobody has set, or one to a track. -/
inductive Slot
  | null
  | wild
  | track (t : Track)

/-- `struct imd` -/
structure Imd where
  drive : ℤ
  comment : List UInt8
  heads : ℤ
  cyls : ℤ
  tracks : ℕ → Slot
  delta : Delta

/-- What `malloc` leaves in memory: whether a pointer in `tracks[]` is null, the bytes of
`delta_map`, and those of a sector. -/
structure Memory where
  null : ℕ → Bool
  map : ℕ → UInt8
  sector : ℕ → ℕ → ℕ → UInt8

/-- The comment, with the character that ends it. -/
def readComment : List UInt8 → Option (List UInt8 × List UInt8)
  | [] => none
  | c :: img =>
      if c = 0x1a then some ([c], img)
      else (readComment img).map fun r => (c :: r.1, r.2)

/-- A track is put into its place; the place of a track beyond the last cylinder is outside of
`tracks[]`. -/
def addTrack (ip : Imd) (t : Track) : Option Imd :=
  let trk := t.fixed.cyl.toNat * HEADS + t.fixed.side
  if trk < TRACKS then
    some { ip with
      tracks := Function.update ip.tracks trk (.track t)
      cyls := max ip.cyls t.fixed.cyl.toNat
      heads := max ip.heads t.fixed.head.toNat }
  else none

/-- The loop over the tracks; each has at least 5 bytes. -/
def loadTracks : ℕ → List UInt8 → Imd → Option Imd
  | 0, _, ip => some ip
  | n + 1, img, ip =>
      match getTrack img with
      | .outside => none
      | .stop => some ip
      | .track t img =>
          match addTrack ip t with
          | some ip => loadTracks n img ip
          | none => none

/-- The cylinders, heads and sectors that a delta file has places for, in order. -/
def places : List (ℕ × ℕ × ℕ) :=
  (List.range CYLINDERS).flatMap fun cyl => (List.range HEADS).flatMap fun head =>
    (List.range SECTORS).map fun sec => (cyl, head, sec)

/-- The byte of `delta_map`. -/
def deltaMap (mem : Memory) (f : File) (k : ℕ) : UInt8 := if k < f.size then f.byte k else mem.map k

/-- One sector of the delta file. -/
def applyDelta (mem : Memory) (f : File) (tracks : ℕ → Slot) : ℕ × ℕ × ℕ → Option (ℕ → Slot)
  | (cyl, head, sec) =>
      let trk := cyl * HEADS + head
      if deltaMap mem f (dirtyOff trk sec) = DELTA_YES then
        match tracks trk with
        | .track t =>
            if h : sec < t.fixed.nsec.toNat then
              let old := (t.data ⟨sec, h⟩).getD fun k => mem.sector trk sec k
              some (Function.update tracks trk
                (.track (t.put ⟨sec, h⟩ (f.read (deltaOff trk sec) old))))
            else none
        | _ => none
      else some tracks

/-- The delta file as `imd_load` opens it. -/
def openDelta (create_delta : Bool) (delta : Option File) : Delta :=
  match create_delta, delta with
  | true, some f => .readWrite (f.truncate MAXDELTA)
  | true, none => .readWrite ⟨MAXDELTA, fun _ => 0⟩
  | false, some f => .readOnly f
  | false, none => .none

/-- The replay of the delta file. -/
def replay (mem : Memory) (ip : Imd) (d : Delta) : Option Imd :=
  match d with
  | .none => some { ip with delta := d }
  | .readOnly f | .readWrite f =>
      (places.foldlM (applyDelta mem f) ip.tracks).map fun tracks => { ip with tracks, delta := d }

/-- What `imd_load` comes to. -/
inductive Load
  | refused
  | outside
  | loaded (ip : Imd)

/-- `imd_load(fname, drive, create_delta)`, from what is in the two files. -/
def imdLoad (img : List UInt8) (delta : Option File) (drive : ℤ) (create_delta : Bool)
    (mem : Memory) : Load :=
  match readComment img with
  | none => .refused
  | some (comment, img) =>
      let tracks := fun k => if mem.null k then Slot.null else .wild
      match loadTracks img.length img ⟨drive, comment, 0, 0, tracks, .none⟩ with
      | none => .outside
      | some ip =>
          match replay mem { ip with cyls := ip.cyls + 1, heads := ip.heads + 1 }
              (openDelta create_delta delta) with
          | none => .outside
          | some ip => .loaded ip

/-! ## Reading and writing sectors -/

/-- A `char` as an `int`. -/
def char (c : UInt8) : ℤ := if c.toNat < 128 then c.toNat else c.toNat - 256

/-- `translate_sector(tp, sec, head)`; a number that is not found is taken for index 0. -/
def translateSector (t : Track) (sec : ℤ) : ℕ :=
  let mysec := (List.finRange t.fixed.nsec.toNat).foldl
    (fun mysec i => if char (t.secmap i) = sec then some i else mysec) none
  (mysec.map Fin.val).getD 0

/-- `ip->tracks[trk]` -/
def Imd.slot (ip : Imd) (trk : ℤ) : Slot :=
  if 0 ≤ trk ∧ trk < TRACKS then ip.tracks trk.toNat else .wild

def Imd.setTrack (ip : Imd) (trk : ℤ) (t : Track) : Imd :=
  { ip with tracks := Function.update ip.tracks trk.toNat (.track t) }

/-- A sector is written to the delta file, if that is open for it. -/
def Delta.store (d : Delta) (trk sec : ℕ) {n : ℕ} (buf : Fin n → UInt8) : Delta :=
  match d with
  | .readWrite f =>
      .readWrite
        ((f.write (dirtyOff trk sec) fun _ : Fin 1 => DELTA_YES).write (deltaOff trk sec) buf)
  | d => d

def Delta.isNone : Delta → Bool
  | .none => true
  | _ => false

/-- `imd_write(vp, cyl, head, osec, buf)`: what it returns, and the image. -/
def imdWrite (ip : Imd) (cyl head osec : ℤ) (buf : Bytes) : Option (ℕ × Imd) :=
  if cyl ≥ ip.cyls ∨ head ≥ ip.heads then some (0, ip)
  else if ip.delta.isNone then some (0, ip)
  else
    match ip.slot (trknum cyl head) with
    | .track t =>
        let tsec := translateSector t osec
        if h : tsec < t.fixed.nsec.toNat then
          let ip := ip.setTrack (trknum cyl head) (t.put ⟨tsec, h⟩ fun k => buf k)
          some (t.secsize, { ip with
            delta := ip.delta.store (trknum cyl head).toNat tsec fun k : Fin t.secsize => buf k })
        else none
    | _ => none

/-- `imd_read(vp, cyl, head, osec, buf)`: the bytes that it returns, and the image, in which an
absent sector is full of zeros now. -/
def imdRead (ip : Imd) (cyl head osec : ℤ) : Option (List UInt8 × Imd) :=
  if cyl ≥ ip.cyls ∨ head ≥ ip.heads then some ([], ip)
  else
    match ip.slot (trknum cyl head) with
    | .track t =>
        let tsec := translateSector t osec
        if h : tsec < t.fixed.nsec.toNat then
          match t.data ⟨tsec, h⟩ with
          | some d => some (List.ofFn d, ip)
          | none =>
              let zeros : Fin t.fixed.secsize → UInt8 := fun _ => 0
              some (List.ofFn zeros, ip.setTrack (trknum cyl head) (t.put ⟨tsec, h⟩ zeros))
        else none
    | _ => none

end Imdlib

end Micronix
