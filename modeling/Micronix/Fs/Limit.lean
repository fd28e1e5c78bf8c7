import Micronix.Fs.Ownership

/-!
# The file-size limit

`imap` takes a logical block as a 16-bit int and answers a negative one with `EFBIG`: "just right
for 24-bit file size".  The loops of `fio.c` get the logical block by shifting `u.offset`, which
has 32 bits, so that the half of the offsets whose bit 24 is off is taken for one of the first 2^24
bytes of the file.
-/

namespace Micronix

open Bytes Super

/-! ## `EFBIG` -/

section Errors

variable {s : Sys} {dev ip log : ℕ}

lemma balloc_ne_efbig (s : Sys) (dev : ℕ) : (balloc s dev).2.error ≠ some .EFBIG := by
  unfold balloc ballocFull
  dsimp only
  split_ifs <;> simp

lemma bfree_ne_efbig {bn : ℕ} (h : s.error ≠ some .EFBIG) :
    (bfree s bn dev).error ≠ some .EFBIG := by
  unfold bfree
  dsimp only
  split_ifs
  · exact h
  all_goals simp

lemma plug_ne_efbig (s : Sys) (p : Ptr) (dev : ℕ) : (plug s p dev).2.error ≠ some .EFBIG := by
  have hb := balloc_ne_efbig s dev
  unfold plug
  dsimp only
  split_ifs
  · exact hb
  · cases p <;> exact hb
  · exact bfree_ne_efbig hb

lemma imapi_ne_efbig {n : ℕ} (h : s.error ≠ some .EFBIG) :
    (imapi s ip n).2.error ≠ some .EFBIG := by
  have hp := plug_ne_efbig s (.addr ip n) (s.ino ip).dev
  unfold imapi
  dsimp only
  split_ifs <;> assumption

lemma imapb_ne_efbig {ind n : ℕ} (h : s.error ≠ some .EFBIG) :
    (imapb s ind n dev).2.error ≠ some .EFBIG := by
  have hp := plug_ne_efbig (s.setError none) (.word dev ind n) dev
  unfold imapb
  dsimp only
  split_ifs
  · exact h
  · exact hp
  · exact hp
  all_goals exact nofun

lemma imapLarge_ne_efbig (h : s.error ≠ some .EFBIG) :
    (imapLarge s ip log dev).2.error ≠ some .EFBIG := by
  unfold imapLarge
  dsimp only
  split_ifs
  · exact imapb_ne_efbig (imapb_ne_efbig (imapi_ne_efbig h))
  · exact imapb_ne_efbig (imapi_ne_efbig h)

lemma toLarge_ne_efbig (s : Sys) (ip dev : ℕ) : (toLarge s ip dev).2.error ≠ some .EFBIG := by
  have hb := balloc_ne_efbig s dev
  unfold toLarge
  dsimp only
  split_ifs <;> exact hb

/-- `imap` gives `EFBIG` to no block that is not negative. -/
lemma imap_ne_efbig (hlog : log < 32768) (h : s.error ≠ some .EFBIG) :
    (imap s ip log).2.error ≠ some .EFBIG := by
  unfold imap
  dsimp only
  split_ifs
  · exact h
  · omega
  · exact imapLarge_ne_efbig h
  · exact imapi_ne_efbig h
  · exact imapLarge_ne_efbig (toLarge_ne_efbig s ip _)
  · exact toLarge_ne_efbig s ip _

lemma imap_efbig (hio : (s.ino ip).fmt.iio = false) (hlog : 32768 ≤ log) :
    imap s ip log = ((0, 0), s.setError (some .EFBIG)) := by
  simp [imap, hio, hlog]

end Errors

/-! ## A first block that is not to be had -/

section Stopped

variable {drv : CharDriver} {s : Sys} {dev ip : ℕ} {io : Io}

lemma iwrite_stopped (hreg : (s.ino ip).fmt = .IFREG) (hc : io.count ≠ 0)
    (he : (imap s ip (io.offset / 512 % 65536)).2.error ≠ none) :
    iwrite drv s ip io =
      (0, touchWrite (imap s ip (io.offset / 512 % 65536)).2 ip io.offset, io) := by
  obtain ⟨c, hc'⟩ := Nat.exists_eq_succ_of_ne_zero hc
  have hloop : iwriteLoop ip (ioDev (s.ino ip)) io.count (io.offset / 512 % 65536)
      (io.offset % 512) s io = ((imap s ip (io.offset / 512 % 65536)).2, io) := by
    rw [hc', iwriteLoop, if_neg hc]
    dsimp only
    rw [if_pos he]
  rw [iwrite, if_neg hc]
  simp only [hreg, hloop, Nat.sub_self]
  rfl

/-- The end of the file as `iread` sees it. -/
def AtEnd (size offset : ℕ) : Prop :=
  readGap size offset = 0 ∨ 2147483648 ≤ readGap size offset

lemma iread_stopped (hreg : (s.ino ip).fmt = .IFREG) (hc : io.count ≠ 0)
    (hend : ¬AtEnd (s.ino ip).size io.offset)
    (he : (imap s ip (io.offset / 512 % 65536)).2.error ≠ none) :
    (iread drv s ip io).2.1 = touchRead (imap s ip (io.offset / 512 % 65536)).2 ip := by
  have hgap : readGap (s.ino ip).size io.offset ≠ 0 := fun h => hend (.inl h)
  have hloop : ∀ q, q ≠ 0 → (ireadLoop ip (ioDev (s.ino ip)) q (io.offset / 512 % 65536)
      (io.offset % 512) s { io with count := q }).1 =
        (imap s ip (io.offset / 512 % 65536)).2 := by
    intro q hq
    obtain ⟨c, rfl⟩ := Nat.exists_eq_succ_of_ne_zero hq
    rw [ireadLoop, if_neg hq]
    dsimp only
    rw [if_pos he]
  have hno : ¬((s.ino ip).fmt ≠ .IFBLK ∧ (readGap (s.ino ip).size io.offset = 0 ∨
      readGap (s.ino ip).size io.offset ≥ 2147483648)) := fun h => hend h.2
  rw [iread, if_neg hc]
  dsimp only
  rw [if_neg (by rw [hreg]; decide), if_neg hno]
  dsimp only
  rw [hloop]
  split_ifs
  · exact hgap
  · exact hc

end Stopped

/-! ## The limit -/

/-- Where the last block that can be mapped ends: there are 32768 of them. -/
def mappable : ℕ := 16777216

/-- An access that is refused: no block and no byte of a file changes. -/
structure TooBig (s s' : Sys) (dev : ℕ) : Prop where
  error : s'.error = some .EFBIG
  blk : s'.blk = s.blk
  bytes : ∀ k o, byteAt s' dev k o = byteAt s dev k o

/-- What becomes of accesses to `count` bytes at `offset`, whatever the bytes are. -/
structure Limited (drv : CharDriver) (s : Sys) (dev ip offset count : ℕ) : Prop where
  frame : ∀ base mem k o, ¬(k = ip ∧ offset ≤ o ∧ o < offset + count) →
    byteAt (iwrite drv s ip ⟨count, offset, base, mem⟩).2.1 dev k o = byteAt s dev k o
  write : mappable ≤ offset → count ≠ 0 → ∀ base mem,
    TooBig s (iwrite drv s ip ⟨count, offset, base, mem⟩).2.1 dev
  read : mappable ≤ offset → count ≠ 0 → ¬AtEnd (s.ino ip).size offset → ∀ base mem,
    TooBig s (iread drv s ip ⟨count, offset, base, mem⟩).2.1 dev

/-- The offset, cut to the 25 bits that the block number keeps, is beyond the limit if the offset
is. -/
def KeepsLimit (offset : ℕ) : Prop := offset < mappable ∨ mappable ≤ offset % 33554432

section Limit

variable {drv : CharDriver} {s s' : Sys} {dev ip offset count : ℕ}

lemma Touched.tooBig (h : Touched (s.setError (some .EFBIG)) s' ip) : TooBig s s' dev :=
  ⟨h.error, h.blk, h.bytes⟩

/-- A negative block: refused. -/
lemma limited_of_beyond (hreg : (s.ino ip).fmt = .IFREG)
    (hlog : 32768 ≤ offset / 512 % 65536) : Limited drv s dev ip offset count := by
  have hbig : imap s ip (offset / 512 % 65536) = ((0, 0), s.setError (some .EFBIG)) :=
    imap_efbig (by rw [hreg]; rfl) hlog
  have herr : (imap s ip (offset / 512 % 65536)).2.error ≠ none := by
    rw [hbig]
    simp
  have hwrite : ∀ base mem, count ≠ 0 →
      TooBig s (iwrite drv s ip ⟨count, offset, base, mem⟩).2.1 dev := by
    intro base mem hc
    rw [iwrite_stopped hreg hc herr, hbig]
    exact (touchWrite_touched _ ip offset).tooBig
  refine ⟨fun base mem k o _ => ?_, fun _ hc base mem => hwrite base mem hc,
    fun _ hc hend base mem => ?_⟩
  · by_cases hc : count = 0
    · subst hc
      simp [iwrite]
    · exact (hwrite base mem hc).bytes k o
  · rw [iread_stopped hreg hc hend herr, hbig]
    exact (touchRead_touched _ ip).tooBig

variable (drv) in
/-- A low offset that is taken for the offset of another byte is not refused: the write stores
there, or fails for lack of space. -/
lemma not_tooBig_of_low (ho : WellFormed s dev) (hd : (s.ino ip).dev = dev)
    (hreg : (s.ino ip).fmt = .IFREG) (he : s.error = none) (hof : offset < 4294967296)
    (hc : count ≠ 0) (hlog : offset / 512 % 65536 < 32768) :
    ∃ base mem, ¬TooBig s (iwrite drv s ip ⟨count, offset, base, mem⟩).2.1 dev := by
  obtain ⟨L, ho⟩ := ho
  have hio : (s.ino ip).fmt.iio = false := by
    rw [hreg]
    rfl
  -- bytes that differ from what stands there
  let mem : Bytes := fun _ => byteAt s dev ip (startPos offset) + 1
  refine ⟨0, mem, fun hbig => ?_⟩
  obtain ⟨n, -, -, -, -, -, -, -, -, hbytes, -, hfirst⟩ :=
    iwrite_spec drv ⟨count, offset, 0, mem⟩ ho hd hio he hof
  by_cases hav : Avail s dev ip (offset / 512 % 65536) L
  · have hn : n ≠ 0 := fun h => (hfirst hc).mp h hav
    have hsame := hbig.bytes ip (startPos offset)
    rw [hbytes, if_pos ⟨rfl, le_rfl, by dsimp only; omega⟩] at hsame
    exact absurd hsame (by simp [mem])
  · obtain ⟨-, ⟨herr, -⟩ | ⟨-, hav', -⟩⟩ := imap_turn (offset / 512 % 65536) ho hd hio he
    · have hne : (imap s ip (offset / 512 % 65536)).2.error ≠ some .EFBIG :=
        imap_ne_efbig hlog (by rw [he]; simp)
      refine hne ?_
      rw [← hbig.error, iwrite_stopped hreg hc herr]
      exact (touchWrite_touched _ ip offset).error.symm
    · exact hav hav'

/-- **The file-size limit.**  Accesses at an offset keep to the limit exactly when the offset keeps
to it in its lower 25 bits. -/
theorem file_size_limit (drv : CharDriver) {s : Sys} {dev ip offset count : ℕ}
    (ho : WellFormed s dev) (hd : (s.ino ip).dev = dev) (hreg : (s.ino ip).fmt = .IFREG)
    (he : s.error = none) (hof : offset < 4294967296) :
    Limited drv s dev ip offset count ↔ count = 0 ∨ KeepsLimit offset := by
  constructor
  · intro h
    by_contra hno
    obtain ⟨hc, hlim⟩ := not_or.mp hno
    obtain ⟨hge, hlow⟩ := not_or.mp hlim
    rw [mappable] at hge hlow
    obtain ⟨base, mem, hbig⟩ := not_tooBig_of_low drv ho hd hreg he hof hc
      (show offset / 512 % 65536 < 32768 by omega)
    exact hbig (h.write (by rw [mappable]; omega) hc base mem)
  · rintro (rfl | hlow | hbeyond)
    · exact ⟨fun _ _ _ _ _ => by simp [iwrite], fun _ hc => absurd rfl hc, fun _ hc => absurd rfl hc⟩
    · rw [mappable] at hlow
      refine ⟨fun base mem k o hout => ?_, fun hge => ?_, fun hge => ?_⟩
      · obtain ⟨L, ho⟩ := ho
        obtain ⟨n, hn, -, -, -, -, -, -, -, hbytes, -⟩ :=
          iwrite_spec drv ⟨count, offset, base, mem⟩ ho hd (by rw [hreg]; rfl) he hof
        have hn : n ≤ count := hn
        rw [hbytes, startPos_eq (by dsimp only; omega), if_neg]
        rintro ⟨hk, hle, hlt⟩
        exact hout ⟨hk, hle, Nat.lt_of_lt_of_le hlt (Nat.add_le_add_left hn _)⟩
      · rw [mappable] at hge
        omega
      · rw [mappable] at hge
        omega
    · rw [mappable] at hbeyond
      exact limited_of_beyond hreg (by omega)

end Limit

/-- An offset that is refused on the small device. -/
theorem file_size_limit_beyond :
    Limited nullDriver (smallDisk .IFREG) 0 0 16777216 1 ↔ 1 = 0 ∨ KeepsLimit 16777216 :=
  file_size_limit nullDriver ⟨[2], smallDisk_owned .IFREG⟩ rfl rfl rfl (by decide)

/-- One byte at offset 2^25 of the empty file of the small device is stored at offset 0. -/
theorem offset_taken_for_low :
    ¬∀ (drv : CharDriver) (s : Sys) (dev ip offset count : ℕ), WellFormed s dev →
      (s.ino ip).dev = dev → (s.ino ip).fmt = .IFREG → s.error = none → offset < 4294967296 →
        Limited drv s dev ip offset count := by
  intro h
  have hw := (h nullDriver (smallDisk .IFREG) 0 0 33554432 1 ⟨[2], smallDisk_owned .IFREG⟩ rfl rfl
    rfl (by decide)).frame 0 (fun _ => 7) 0 0 (by decide)
  exact absurd hw (by decide)

end Micronix
