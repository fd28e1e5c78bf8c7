import Micronix.Fs.Ownership
import Micronix.Lib.Transition

/-!
# What a file contains over whole runs

The history of a file is the list of the writes reported for it.  As long as no write that starts
beyond the end finds the disk full, the file is at all times what its history says: each byte is
the one most recently reported written there, and the size is the largest end reported.  A write
beyond the end that cannot get its first block stores nothing and reports 0, but the code at
`done:` in `iwrite` still moves the size up to the offset; `full_disk_grows_file` is such a run.
-/

namespace Micronix

open Bytes Super

/-! ## The history of a file -/

/-- A write as reported: `n` bytes at `offset`. -/
structure Report where
  offset : ℕ
  n : ℕ
  data : ℕ → UInt8

/-- The byte most recently reported written at `o`; the list has the latest write first. -/
def lastWritten : List Report → ℕ → Option UInt8
  | [], _ => none
  | w :: ws, o =>
      if w.offset ≤ o ∧ o < w.offset + w.n then some (w.data (o - w.offset)) else lastWritten ws o

/-- The largest end offset reported. -/
def largestEnd : List Report → ℕ
  | [] => 0
  | w :: ws => if w.n = 0 then largestEnd ws else max (w.offset + w.n) (largestEnd ws)

/-- A call on the file. -/
inductive FileCall
  | read (io : Io)
  | write (io : Io)

/-- The transfer parameters of a call. -/
def FileCall.io : FileCall → Io
  | read io | write io => io

/-- The file system and the history of the file. -/
abbrev FileRun := Sys × List Report

/-- Serve one call; a system call starts with `u.error = 0`.  What `iwrite` returns is reported. -/
def fileStep (drv : CharDriver) (ip : ℕ) (st : FileRun) : FileCall → Option FileRun
  | .read io => some ((iread drv (st.1.setError none) ip io).2.1, st.2)
  | .write io =>
      let r := iwrite drv (st.1.setError none) ip io
      some (r.2.1, ⟨io.offset, r.1, fun i => io.mem (io.base + i)⟩ :: st.2)

/-- A regular file of a well-formed file system, before any call.  Its size fits 24 bits, as on
disk. -/
structure FileStart (dev ip : ℕ) (s₀ : Sys) : Prop where
  wf : WellFormed s₀ dev
  dev : (s₀.ino ip).dev = dev
  reg : (s₀.ino ip).fmt = .IFREG
  size : (s₀.ino ip).size < 16777216

/-- The calls considered: `offset + count < 2^24` and `0 < count < 32768`. -/
def InBounds (c : FileCall) : Prop :=
  c.io.offset + c.io.count < 16777216 ∧ 0 < c.io.count ∧ c.io.count < 32768

/-- The blocks that a transfer at `offset` has to allocate first are to be had. -/
def Room (s : Sys) (dev ip offset : ℕ) : Prop :=
  ∃ L, FreeList s dev L ∧ Avail s dev ip (offset / 512) L

/-- The calls that do not go wrong: a write that starts beyond the end gets its first block. -/
def NoGap (dev ip : ℕ) (st : FileRun) (c : FileCall) : Prop :=
  InBounds c ∧ ∀ io, c = .write io → (st.1.ino ip).size < io.offset → Room st.1 dev ip io.offset

/-- The file is what its history says; `s₀` is the file before the first call. -/
structure IsHistory (s₀ : Sys) (dev ip : ℕ) (st : FileRun) : Prop where
  bytes : ∀ o, byteAt st.1 dev ip o = (lastWritten st.2 o).getD (byteAt s₀ dev ip o)
  size : (st.1.ino ip).size = max (s₀.ino ip).size (largestEnd st.2)

/-- Reads return the history: a read that sets no error returns `min(count, max(0, size - offset))`
bytes, each of them the byte most recently reported written there. -/
def ReadsHistory (drv : CharDriver) (s₀ : Sys) (dev ip : ℕ) (st : FileRun) : Prop :=
  ∀ io, InBounds (.read io) → (iread drv (st.1.setError none) ip io).2.1.error = none →
    (iread drv (st.1.setError none) ip io).1 = min io.count ((st.1.ino ip).size - io.offset) ∧
    ∀ i < (iread drv (st.1.setError none) ip io).1,
      (iread drv (st.1.setError none) ip io).2.2.mem (io.base + i)
        = (lastWritten st.2 (io.offset + i)).getD (byteAt s₀ dev ip (io.offset + i))

/-! ## One call -/

/-- The invariant of a run. -/
structure FileInv (s₀ : Sys) (dev ip : ℕ) (st : FileRun) : Prop where
  start : FileStart dev ip st.1
  history : IsHistory s₀ dev ip st

section Step

variable {drv : CharDriver} {s₀ : Sys} {dev ip : ℕ} {st : FileRun} {io : Io}

lemma FileStart.iio {s : Sys} (h : FileStart dev ip s) : (s.ino ip).fmt.iio = false := by
  rw [h.reg]
  rfl

/-- A read changes neither the file nor its history. -/
lemma FileInv.read (h : FileInv s₀ dev ip st) (hb : InBounds (.read io)) :
    FileInv s₀ dev ip ((iread drv (st.1.setError none) ip io).2.1, st.2) := by
  obtain ⟨L, ho⟩ := h.start.wf
  have hof : io.offset < 4294967296 := by
    have := hb.1
    simp only [FileCall.io] at this
    omega
  obtain ⟨hw, -, hdev, hfmt, hsize, hbytes⟩ := iread_owned drv io (ho.setError none)
    h.start.dev h.start.iio rfl hof
  refine ⟨⟨hw, hdev, hfmt.trans h.start.reg, ?_⟩, fun o => ?_, ?_⟩
  · rw [hsize]
    exact h.start.size
  · rw [hbytes]
    exact h.history.bytes o
  · rw [hsize]
    exact h.history.size

/-- A write adds to the file what it adds to the history. -/
lemma FileInv.write (h : FileInv s₀ dev ip st) (hg : NoGap dev ip st (.write io)) :
    FileInv s₀ dev ip ((iwrite drv (st.1.setError none) ip io).2.1,
      ⟨io.offset, (iwrite drv (st.1.setError none) ip io).1, fun i => io.mem (io.base + i)⟩
        :: st.2) := by
  obtain ⟨L, ho⟩ := h.start.wf
  obtain ⟨⟨hend, hpos, hlt⟩, hroom⟩ := hg
  simp only [FileCall.io] at hend hpos hlt
  obtain ⟨n, hn, hret, -, hw, -, hdev, hfmt, hsize, hbytes, -, hfirst⟩ := iwrite_spec drv io
    (ho.setError none) h.start.dev h.start.iio rfl (by omega)
  have hstart : startPos io.offset = io.offset := startPos_eq (by omega)
  have hadv : (io.advance n).offset = io.offset + n := Nat.mod_eq_of_lt (by omega)
  rw [hret]
  rw [hstart] at hbytes
  rw [if_neg (by omega), hadv] at hsize
  -- a write that stores nothing starts within the file
  have hzero : n = 0 → io.offset ≤ (st.1.ino ip).size := by
    intro hn0
    by_contra hgap
    obtain ⟨L', hl', hav⟩ := hroom io rfl (by omega)
    have hL : L' = L := Represents.unique hl' ho.list
    subst hL
    have hlog : io.offset / 512 % 65536 = io.offset / 512 := Nat.mod_eq_of_lt (by omega)
    rw [hlog] at hfirst
    exact (hfirst (by omega)).mp hn0 hav
  have hsize0 := h.start.size
  refine ⟨⟨hw, hdev, hfmt.trans h.start.reg, ?_⟩, fun o => ?_, ?_⟩
  · rw [hsize]
    exact max_lt hsize0 (by omega)
  · rw [hbytes]
    simp only [lastWritten, true_and]
    by_cases ho' : io.offset ≤ o ∧ o < io.offset + n
    · rw [if_pos ho', if_pos ho']
      rfl
    · rw [if_neg ho', if_neg ho']
      exact h.history.bytes o
  · rw [hsize]
    have hsz : ((st.1.setError none).ino ip).size = (st.1.ino ip).size := rfl
    have hold := h.history.size
    simp only [largestEnd]
    split_ifs with hn0
    · have := hzero hn0
      rw [hsz]
      omega
    · rw [hsz]
      omega

end Step

/-! ## Whole runs -/

/-- Before the first call the history is empty. -/
lemma FileInv.init {s₀ : Sys} {dev ip : ℕ} (h : FileStart dev ip s₀) :
    FileInv s₀ dev ip (s₀, []) :=
  ⟨h, fun _ => rfl, by simp [largestEnd]⟩

/-- The run lemma. -/
lemma FileInv.of_reach {drv : CharDriver} {s₀ : Sys} {dev ip : ℕ} (h0 : FileStart dev ip s₀)
    {st : FileRun}
    (h : Transition.Reach (fileStep drv ip) (fun st => st = (s₀, [])) (NoGap dev ip) st) :
    FileInv s₀ dev ip st := by
  refine h.invariant (fun st hst => hst ▸ FileInv.init h0) fun st c st' hi hg he => ?_
  cases c with
  | read io =>
      simp only [fileStep, Option.some.injEq] at he
      exact he ▸ hi.read hg.1
  | write io =>
      simp only [fileStep, Option.some.injEq] at he
      exact he ▸ hi.write hg

lemma smallDisk_fileStart : FileStart 0 0 (smallDisk .IFREG) :=
  ⟨⟨[2], smallDisk_owned .IFREG⟩, rfl, rfl, by decide⟩

end Micronix
