import Mathlib.Data.List.Basic
import Mathlib.Order.Lattice
import Mathlib.Tactic.Common

/-!
# Skewed devices of the simulator

The image of a floppy disk has the sectors of a track in another order than the blocks of the device.
`seekfile` puts the host's file to the place of the block in which a transfer begins, and then the
transfer goes on in the order of the image (`read` and `write`, system calls 3 and 4 of `usersim.c`).
`readBlocks` and `writeBlocks` are what they should come to: the same calls for one block after
another.
-/

namespace Micronix

namespace Seekfile

/-- A file of the host. -/
structure File where
  size : ℕ
  byte : ℕ → UInt8

namespace File

/-- The bytes that a read at a place finds. -/
def get (f : File) (pos len : ℕ) : List UInt8 :=
  (List.range (min len (f.size - pos))).map fun k => f.byte (pos + k)

def put (f : File) (pos : ℕ) (buf : List UInt8) : File where
  size := if buf = [] then f.size else max f.size (pos + buf.length)
  byte k := if pos ≤ k ∧ k < pos + buf.length then buf.getD (k - pos) 0 else f.byte k

end File

/-- `struct openfile`, and the file of the host. -/
structure Device where
  /-- the type is `b` -/
  block : Bool
  major : ℕ
  minor : ℕ
  /-- the size when it was opened -/
  filesize : ℕ
  image : File
  offset : ℕ

/-- The sectors are in another order. -/
def Device.Skewed (d : Device) : Prop := d.block = true ∧ d.major = 2 ∧ d.minor.testBit 3 = true

instance (d : Device) : Decidable d.Skewed := inferInstanceAs (Decidable (_ ∧ _))

def SPT : ℕ := 15

/-- Where a byte of a skewed device is in the image. -/
def skew (offset : ℕ) : ℕ :=
  let blkno := offset / 512
  let trk := blkno / SPT
  let sec := blkno % SPT * 2 % SPT
  (trk * SPT + sec) * 512 + offset % 512

/-- `seekfile`: the place for the host, or `ENXIO`. -/
def seekfile (d : Device) : Option ℕ :=
  if d.block ∧ d.filesize < d.offset then none
  else if d.Skewed then some (skew d.offset)
  else some d.offset

/-- System call 3: the bytes, or none if it fails.  A count of 65535 is taken for a failure. -/
def read (d : Device) (len : ℕ) : Option (List UInt8) × Device :=
  match seekfile d with
  | none => (none, d)
  | some pos =>
      let buf := d.image.get pos len
      if buf.length = 65535 then (none, d)
      else (some buf, { d with offset := d.offset + buf.length })

/-- System call 4: the count, or none if it fails. -/
def write (d : Device) (buf : List UInt8) : Option ℕ × Device :=
  match seekfile d with
  | none => (none, d)
  | some pos =>
      let d := { d with image := d.image.put pos buf }
      if buf.length = 65535 then (none, d)
      else (some buf.length, { d with offset := d.offset + buf.length })

/-! ## Block by block -/

/-- What is left of the block at an offset. -/
def room (offset : ℕ) : ℕ := 512 - offset % 512

lemma room_pos (offset : ℕ) : 0 < room offset := by
  rw [room]
  omega

/-- A read of one block after another, until one comes back short. -/
def readBlocks (d : Device) (len : ℕ) : List UInt8 × Device :=
  if _h : len = 0 then ([], d)
  else
    let m := min len (room d.offset)
    match read d m with
    | (none, d) => ([], d)
    | (some bytes, d') =>
        if bytes.length < m then (bytes, d')
        else
          let r := readBlocks d' (len - m)
          (bytes ++ r.1, r.2)
termination_by len
decreasing_by
  have := room_pos d.offset
  omega

/-- A write of one block after another, until one fails: the count, and the device. -/
def writeBlocks (d : Device) (buf : List UInt8) : ℕ × Device :=
  if _h : buf = [] then (0, d)
  else
    match write d (buf.take (room d.offset)) with
    | (none, d) => (0, d)
    | (some n, d') =>
        let r := writeBlocks d' (buf.drop (room d.offset))
        (n + r.1, r.2)
termination_by buf.length
decreasing_by
  have := room_pos d.offset
  have := List.length_pos_of_ne_nil _h
  rw [List.length_drop]
  omega

/-- One call has the effect of the calls for one block after another, whatever is in the image. -/
def Agrees (filesize offset len : ℕ) : Prop :=
  ∀ d : Device, d.Skewed → d.filesize = filesize → d.offset = offset → filesize ≤ d.image.size →
    ((read d len).1.getD [], (read d len).2) = readBlocks d len ∧
      ∀ buf : List UInt8, buf.length = len →
        ((write d buf).1.getD 0, (write d buf).2) = writeBlocks d buf

/-! ## Within a block -/

section Within

variable {d : Device} {len : ℕ} {buf : List UInt8}

lemma File.length_get (f : File) (pos len : ℕ) : (f.get pos len).length = min len (f.size - pos) := by
  rw [File.get, List.length_map, List.length_range]

/-- Behind the end both fail. -/
lemma beyond (hs : d.Skewed) (h : d.filesize < d.offset) : seekfile d = none :=
  if_pos ⟨hs.1, h⟩

lemma readBlocks_beyond (h : seekfile d = none) : readBlocks d len = ([], d) := by
  rw [readBlocks]
  split_ifs
  · rfl
  · simp only [read, h]

lemma writeBlocks_beyond (h : seekfile d = none) : writeBlocks d buf = (0, d) := by
  rw [writeBlocks]
  split_ifs
  · rfl
  · simp only [write, h]

lemma readBlocks_zero (d : Device) : readBlocks d 0 = ([], d) := by
  rw [readBlocks, dif_pos rfl]

lemma writeBlocks_nil (d : Device) : writeBlocks d [] = (0, d) := by
  rw [writeBlocks, dif_pos rfl]

lemma File.put_nil (f : File) (pos : ℕ) : f.put pos [] = f := by
  have hbyte : (f.put pos []).byte = f.byte := by
    funext k
    refine if_neg fun h => ?_
    rw [List.length_nil] at h
    omega
  exact congrArg (File.mk f.size) hbyte

lemma readBlocks_within {pos : ℕ} (h : seekfile d = some pos) (hlen : len ≤ room d.offset) :
    readBlocks d len = ((read d len).1.getD [], (read d len).2) := by
  have hroom : room d.offset ≤ 512 := Nat.sub_le _ _
  have hget := d.image.length_get pos len
  have hread : read d len =
      (some (d.image.get pos len), { d with offset := d.offset + (d.image.get pos len).length }) := by
    simp only [read, h]
    exact if_neg (by omega)
  rw [readBlocks]
  split_ifs with h0
  · rw [hread, List.eq_nil_of_length_eq_zero (l := d.image.get pos len) (by omega)]
    rfl
  · simp only [min_eq_left hlen, hread, Nat.sub_self, readBlocks_zero, List.append_nil]
    split_ifs <;> rfl

lemma writeBlocks_within {pos : ℕ} (h : seekfile d = some pos) (hlen : buf.length ≤ room d.offset) :
    writeBlocks d buf = ((write d buf).1.getD 0, (write d buf).2) := by
  have hroom : room d.offset ≤ 512 := Nat.sub_le _ _
  have hwrite : write d buf = (some buf.length,
      { d with image := d.image.put pos buf, offset := d.offset + buf.length }) := by
    simp only [write, h]
    exact if_neg (by omega)
  rw [writeBlocks]
  split_ifs with h0
  · subst h0
    rw [hwrite, File.put_nil]
    rfl
  · simp only [List.take_of_length_le hlen, hwrite, List.drop_of_length_le hlen, writeBlocks_nil]
    rfl

end Within

/-! ## Across blocks -/

/-- Within a block the image goes on as the device does. -/
lemma skew_add {offset k : ℕ} (hk : k < room offset) : skew (offset + k) = skew offset + k := by
  rw [room] at hk
  have hdiv : (offset + k) / 512 = offset / 512 := by omega
  have hmod : (offset + k) % 512 = offset % 512 + k := by omega
  rw [skew, skew, hdiv, hmod, Nat.add_assoc]

/-- Behind the end of a block it never does. -/
lemma skew_next (offset : ℕ) : skew (offset + room offset) ≠ skew offset + room offset := by
  simp only [skew, SPT, room]
  omega

section Across

variable {d : Device} {buf : List UInt8}

/-- A write of at most a block. -/
lemma write_piece (hs : d.Skewed) (hlen : buf.length ≤ room d.offset) :
    write d buf = (none, d) ∨ write d buf = (some buf.length,
      { d with image := d.image.put (skew d.offset) buf, offset := d.offset + buf.length }) := by
  have hroom : room d.offset ≤ 512 := Nat.sub_le _ _
  by_cases hout : d.block = true ∧ d.filesize < d.offset
  · exact Or.inl (by rw [write, seekfile, if_pos hout])
  · refine Or.inr ?_
    rw [write, seekfile, if_neg hout, if_pos hs]
    exact if_neg (by omega)

/-- A byte of the image after a write of at most a block. -/
lemma put_piece (f : File) {offset : ℕ} (hlen : buf.length ≤ room offset) (q : ℕ) :
    (f.put (skew offset) buf).byte q = f.byte q ∨
      ∃ k < buf.length, skew (offset + k) = q ∧
        (f.put (skew offset) buf).byte q = buf.getD k 0 := by
  by_cases hq : skew offset ≤ q ∧ q < skew offset + buf.length
  · refine Or.inr ⟨q - skew offset, by omega, ?_, if_pos hq⟩
    rw [skew_add (by omega)]
    omega
  · exact Or.inl (if_neg hq)

/-- What the writes of one block after another leave in the image. -/
lemma writeBlocks_byte (hs : d.Skewed) (buf : List UInt8) (q : ℕ) :
    (writeBlocks d buf).2.image.byte q = d.image.byte q ∨
      ∃ k < buf.length, skew (d.offset + k) = q ∧
        (writeBlocks d buf).2.image.byte q = buf.getD k 0 := by
  induction hn : buf.length using Nat.strongRecOn generalizing d buf with
  | ind n ih =>
      have hpos := room_pos d.offset
      have htake : (buf.take (room d.offset)).length ≤ room d.offset := List.length_take_le _ _
      rw [writeBlocks]
      split_ifs with h0
      · exact Or.inl rfl
      · have hlen := List.length_pos_of_ne_nil h0
        rcases write_piece hs htake with hw | hw
        · exact Or.inl (by rw [hw])
        · rw [hw]
          dsimp only
          set d' : Device := { d with
            image := d.image.put (skew d.offset) (buf.take (room d.offset))
            offset := d.offset + (buf.take (room d.offset)).length } with hd'
          have hrest := ih _ (by rw [List.length_drop]; omega) (d := d') hs
            (buf.drop (room d.offset)) rfl
          rcases hrest with hsame | ⟨k, hk, hskew, hbyte⟩
          · -- not one of the later blocks
            rw [hsame]
            rcases put_piece d.image htake q with hold | ⟨k, hk, hskew, hbyte⟩
            · exact Or.inl hold
            · rw [List.length_take] at hk
              refine Or.inr ⟨k, by omega, hskew, hbyte.trans ?_⟩
              rw [List.getD_eq_getElem?_getD, List.getElem?_take, if_pos (by omega),
                List.getD_eq_getElem?_getD]
          · rw [List.length_drop] at hk
            have hoffset : d'.offset = d.offset + room d.offset := by
              rw [hd']
              dsimp only
              rw [List.length_take, min_eq_left (by omega)]
            rw [hoffset, Nat.add_assoc] at hskew
            refine Or.inr ⟨room d.offset + k, by omega, hskew, hbyte.trans ?_⟩
            rw [List.getD_eq_getElem?_getD, List.getElem?_drop, List.getD_eq_getElem?_getD]

end Across

/-- **A transfer** has the effect of one block after another exactly if it stays in a block, or begins
behind the end of the device, where both fail. -/
theorem transfer_iff (filesize offset len : ℕ) :
    Agrees filesize offset len ↔ offset % 512 + len ≤ 512 ∨ filesize < offset := by
  have hpos := room_pos offset
  constructor
  · intro h
    by_contra hno
    obtain ⟨hlen, hin⟩ := not_or.mp hno
    -- a device of zeros, and a single 1 at the beginning of the second block
    let d : Device := ⟨true, 2, 8, filesize, ⟨filesize, fun _ => 0⟩, offset⟩
    let buf : List UInt8 := (List.range len).map fun k => if k = room offset then 1 else 0
    have hs : d.Skewed := ⟨rfl, rfl, show Nat.testBit 8 3 = true by decide⟩
    have hbuf : buf.length = len := by rw [List.length_map, List.length_range]
    have hget : ∀ k < len, buf.getD k 0 = if k = room offset then 1 else 0 := fun k hk => by
      rw [List.getD_eq_getElem?_getD, List.getElem?_map, List.getElem?_range hk]
      rfl
    have hroom : room offset < len := by
      rw [room]
      omega
    have himage : (write d buf).2.image = d.image.put (skew offset) buf := by
      rw [write, seekfile, if_neg fun hout => hin hout.2, if_pos hs]
      dsimp only
      split_ifs <;> rfl
    have hone : (writeBlocks d buf).2.image.byte (skew offset + room offset) = 1 := by
      rw [← (h d hs rfl rfl le_rfl).2 buf hbuf]
      dsimp only
      rw [himage]
      refine (if_pos ⟨by omega, by omega⟩).trans ?_
      rw [Nat.add_sub_cancel_left, hget _ hroom, if_pos rfl]
    rcases writeBlocks_byte hs buf (skew offset + room offset) with hold | ⟨k, hk, hskew, hbyte⟩
    · rw [hone] at hold
      exact absurd (show (1 : UInt8) = 0 from hold) (by decide)
    · rw [hone, hget k (hbuf ▸ hk)] at hbyte
      split_ifs at hbyte with hkr
      · subst hkr
        exact skew_next offset hskew
      · exact absurd hbyte (by decide)
  · rintro hcond d hs rfl rfl -
    cases hseek : seekfile d with
    | none =>
        refine ⟨?_, fun buf _ => ?_⟩
        · rw [readBlocks_beyond hseek]
          simp only [read, hseek]
          rfl
        · rw [writeBlocks_beyond hseek]
          simp only [write, hseek]
          rfl
    | some pos =>
        have hroom : len ≤ room d.offset := by
          have hin : ¬d.filesize < d.offset := fun hout => by
            rw [beyond hs hout] at hseek
            cases hseek
          rw [room]
          omega
        refine ⟨(readBlocks_within hseek hroom).symm, ?_⟩
        rintro buf rfl
        exact (writeBlocks_within hseek hroom).symm

/-- A read or a write of two blocks of the device. -/
theorem transfer_two_blocks : ¬∀ filesize offset len, Agrees filesize offset len := fun h =>
  absurd ((transfer_iff 1024 0 1024).mp (h 1024 0 1024)) (by decide)

end Seekfile

end Micronix
