import Micronix.Lib.Transition
import Micronix.Lib.Window
import Mathlib.Data.Int.DivMod
import Mathlib.Tactic.Linarith

/-!
# The simulated hard disk

The simulators keep a drive in a file of the host: 2048 bytes for the label, then the sectors.  Where
a sector stands follows from the geometry in the label (`diskoff`), and the geometry grows with every
access that is outside of it, a read as well.

A sector size is fixed, so that a sector is a window of `n` bytes.
-/

namespace Micronix

namespace Harddisk

/-- The value of a C `int`. -/
def int (x : ℤ) : ℤ :=
  Int.bmod x (2 ^ 32)

/-- Where an access goes. -/
structure Address where
  cylinder : ℤ
  head : ℤ
  sector : ℤ
  deriving DecidableEq, Repr

/-- The geometry in the label. -/
structure Label where
  cylinders : ℤ
  heads : ℤ
  spt : ℤ
  deriving DecidableEq, Repr

/-- A file of the host, open at a position. -/
structure File where
  size : ℕ
  byte : ℕ → UInt8
  pos : ℕ

namespace File

/-- `lseek` to an offset; there is nothing before the file. -/
def lseek (f : File) (offset : ℤ) : File :=
  if offset < 0 then f else { f with pos := offset.toNat }

def write {m : ℕ} (f : File) (buf : Fin m → UInt8) : File :=
  { size := max f.size (f.pos + m), byte := Window.put f.byte f.pos buf, pos := f.pos + m }

/-- How many of `m` bytes `read` finds, and a buffer of zeros with them. -/
def read (f : File) (m : ℕ) : ℕ × (Fin m → UInt8) :=
  let valid := min m (f.size - f.pos)
  (valid, fun i => if i < valid then f.byte (f.pos + i) else 0)

end File

/-- The `i`-th byte of a 32-bit number. -/
def byteOf (x : ℤ) (i : ℕ) : UInt8 :=
  UInt8.ofNat (x / 256 ^ i % 256).toNat

/-- The label as it stands in the file: `magic`, `secsize`, `cylinders`, `heads` and `spt`. -/
def Label.bytes (l : Label) (n : ℕ) : Fin 20 → UInt8 := fun i =>
  byteOf ([0xD15CC0DE, (n : ℤ), l.cylinders, l.heads, l.spt].getD (i / 4) 0) (i % 4)

/-- An open drive. -/
structure Drive (n : ℕ) where
  label : Label
  file : File

/-- If we exceed the previous bounds, bump them. -/
def Label.bump (l : Label) (a : Address) : Label where
  cylinders := if l.cylinders < a.cylinder + 1 then a.cylinder + 1 else l.cylinders
  heads := if l.heads < a.head + 1 then a.head + 1 else l.heads
  spt := if l.spt < a.sector + 1 then a.sector + 1 else l.spt

/-- Where a sector stands under a geometry. -/
def Label.offset (l : Label) (n : ℕ) (a : Address) : ℤ :=
  2048 + a.sector * n + a.head * n * l.spt + a.cylinder * n * l.spt * l.heads

namespace Drive

variable {n : ℕ}

/-- `diskoff`. -/
def diskoff (d : Drive n) (a : Address) : Drive n × ℤ :=
  if n = 0 then (d, 2048)
  else
    let label := d.label.bump a
    let file := if label = d.label then d.file else (d.file.lseek 0).write (label.bytes n)
    (⟨label, file⟩, int (label.offset n a))

/-- `drive_write`. -/
def driveWrite (d : Drive n) (a : Address) (buf : Fin n → UInt8) : Drive n :=
  let (d, offset) := d.diskoff a
  { d with file := (d.file.lseek offset).write buf }

/-- `drive_read`, with how much it read. -/
def driveRead (d : Drive n) (a : Address) : Drive n × ℕ × (Fin n → UInt8) :=
  let (d, offset) := d.diskoff a
  let file := d.file.lseek offset
  let found := file.read n
  ({ d with file := { file with pos := file.pos + found.1 } }, found)

end Drive

/-- A drive, and what has been written last at each address. -/
structure Disk (n : ℕ) where
  drive : Drive n
  last : Address → Option (Fin n → UInt8)

/-- An access. -/
inductive Access (n : ℕ)
  | write (a : Address) (buf : Fin n → UInt8)
  | read (a : Address)

/-- Its address. -/
def Access.address {n : ℕ} : Access n → Address
  | .write a _ => a
  | .read a => a

namespace Disk

variable {n : ℕ}

def write (s : Disk n) (a : Address) (buf : Fin n → UInt8) : Disk n :=
  ⟨s.drive.driveWrite a buf, Function.update s.last a (some buf)⟩

/-- One access. -/
def step (s : Disk n) : Access n → Option (Disk n)
  | .write a buf => some (s.write a buf)
  | .read a => some { s with drive := (s.drive.driveRead a).1 }

end Disk

/-! ## Formatting -/

/-- `a` is on an earlier track than `b`. -/
def Address.Before (a b : Address) : Prop :=
  a.cylinder < b.cylinder ∨ a.cylinder = b.cylinder ∧ a.head < b.head

instance (a b : Address) : Decidable (a.Before b) :=
  inferInstanceAs (Decidable (_ ∨ _))

/-- The addresses of a geometry. -/
def box (cylinders heads spt : ℕ) : List Address :=
  (List.range cylinders).flatMap fun c : ℕ =>
    (List.range heads).flatMap fun h : ℕ => (List.range spt).map fun s : ℕ => ⟨c, h, s⟩

lemma mem_box {cylinders heads spt : ℕ} {a : Address} :
    a ∈ box cylinders heads spt ↔ (0 ≤ a.cylinder ∧ a.cylinder < cylinders) ∧
      (0 ≤ a.head ∧ a.head < heads) ∧ 0 ≤ a.sector ∧ a.sector < spt := by
  obtain ⟨c, h, s⟩ := a
  simp only [box, List.mem_flatMap, List.mem_map, List.mem_range, Address.mk.injEq]
  constructor
  · rintro ⟨i, hi, j, hj, k, hk, rfl, rfl, rfl⟩
    omega
  · rintro ⟨⟨hc, hc'⟩, ⟨hh, hh'⟩, hs, hs'⟩
    exact ⟨c.toNat, by omega, h.toNat, by omega, s.toNat, by omega, by omega, by omega, by omega⟩

/-- The tracks are written one after the other, the sectors of a track in any order: whatever is on
an earlier track than the next address has been written. -/
def Orderly (all : List Address) : List Address → List Address → Prop
  | _, [] => True
  | written, a :: as =>
      a ∈ all ∧ (∀ b ∈ all, b.Before a → b ∈ written) ∧ Orderly all (a :: written) as

instance decidableOrderly (all : List Address) : ∀ written as, Decidable (Orderly all written as)
  | _, [] => .isTrue trivial
  | written, a :: as =>
      have := decidableOrderly all (a :: written) as
      inferInstanceAs (Decidable (_ ∧ _ ∧ _))

/-- Formatting: write each sector. -/
def Disk.format {n : ℕ} (fill : Address → Fin n → UInt8) (s : Disk n) (as : List Address) : Disk n :=
  as.foldl (fun s a => s.write a (fill a)) s

/-- The drive has just been formatted: an empty one, of at most 2^31 bytes, all sectors of all heads
of each cylinder before the next. -/
def Formatted {n : ℕ} (s : Disk n) : Prop :=
  ∃ (cylinders heads spt : ℕ) (as : List Address) (fill : Address → Fin n → UInt8) (file : File),
    0 < n ∧ 2048 + n * (spt * (heads * cylinders)) ≤ 2 ^ 31 ∧
      Orderly (box cylinders heads spt) [] as ∧ (∀ a ∈ box cylinders heads spt, a ∈ as) ∧
      s = Disk.format fill ⟨⟨⟨0, 0, 0⟩, file⟩, fun _ => none⟩ as

end Harddisk

end Micronix
