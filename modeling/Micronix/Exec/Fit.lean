import Micronix.Exec.Bounds
import Micronix.Lib.Carry

/-!
# The fit check of exec

`fit` adds up what a program needs: the end of its text or of its data, whichever is later, the heap
and the stack that the header asks for, and the space of the arguments.  `putargs` puts the stack
below the arguments, at the top of the program's memory.

All of this is in words of 16 bits, and so is the comparison with `MAXMEM`, which is the largest
word.  A program is refused by nothing, and it fits if and only if none of the additions carries.
-/

namespace Micronix

namespace Exec

open Carry

abbrev Word := BitVec 16

/-- The header of an object file. -/
structure Obj where
  ident : UInt8
  conf : UInt8
  table : Word
  text : Word
  data : Word
  bss : Word
  /-- stack and heap -/
  heap : Word
  textoff : Word
  dataoff : Word
  deriving DecidableEq

/-- The maximum process size. -/
def MAXMEM : Word := 0xffff

/-- `fit`: the break of the program, or `none` with `ENOMEM`. -/
def fit (hdr : Obj) (nargs nbytes : Word) : Option Word :=
  let brake := hdr.dataoff + hdr.data + hdr.bss
  let tbrake := hdr.textoff + hdr.text
  let brake := if tbrake < brake then brake else tbrake
  if MAXMEM < brake + hdr.heap + 4 + nargs + nargs + nbytes then none else some brake

/-- `u.sp` of `putargs`: below the arguments are their pointers, the terminator of the table, and
`nargs`. -/
def stack (nargs nbytes : Word) : Word :=
  let a := BitVec.ofNat 16 usrtop - nbytes
  let av := a - 2 * nargs - 2
  av - 2

/-! ## What a program needs -/

/-- Where the text ends. -/
def textEnd (hdr : Obj) : ℕ := hdr.textoff.toNat + hdr.text.toNat

/-- Where data and bss end. -/
def dataEnd (hdr : Obj) : ℕ := hdr.dataoff.toNat + hdr.data.toNat + hdr.bss.toNat

/-- Where the program ends. -/
def programEnd (hdr : Obj) : ℕ := max (textEnd hdr) (dataEnd hdr)

/-- The space of the arguments and their pointers. -/
def argSpace (nargs nbytes : Word) : ℕ := 4 + 2 * nargs.toNat + nbytes.toNat

/-- Break and stack of the program that `fit` accepts are what they should be, and the heap is
between them. -/
def Guards (hdr : Obj) (nargs nbytes : Word) : Prop :=
  ∀ brake, fit hdr nargs nbytes = some brake →
    programEnd hdr + hdr.heap.toNat + argSpace nargs nbytes ≤ 65535 ∧
    brake.toNat = programEnd hdr ∧
    (stack nargs nbytes).toNat + argSpace nargs nbytes = usrtop ∧
    brake.toNat + hdr.heap.toNat ≤ (stack nargs nbytes).toNat

/-- The break that `fit` works out. -/
def breakOf (hdr : Obj) : Word :=
  if hdr.textoff + hdr.text < hdr.dataoff + hdr.data + hdr.bss then hdr.dataoff + hdr.data + hdr.bss
  else hdr.textoff + hdr.text

/-- None of the additions of `fit` carries. -/
structure NoCarry (hdr : Obj) (nargs nbytes : Word) : Prop where
  text : Exact hdr.textoff [hdr.text]
  data : Exact hdr.dataoff [hdr.data, hdr.bss]
  need : Exact (breakOf hdr) [hdr.heap, 4, nargs, nargs, nbytes]

variable {hdr : Obj} {nargs nbytes : Word}

/-- Nothing is greater than `MAXMEM`. -/
lemma fit_eq : fit hdr nargs nbytes = some (breakOf hdr) :=
  if_neg fun h => by
    have hlt := BitVec.lt_def.mp h
    have hmax : MAXMEM.toNat = 65535 := rfl
    omega

lemma breakOf_toNat (ht : Exact hdr.textoff [hdr.text]) (hd : Exact hdr.dataoff [hdr.data, hdr.bss]) :
    (breakOf hdr).toNat = programEnd hdr := by
  have het : (hdr.textoff + hdr.text).toNat = textEnd hdr := by
    simpa [total, natTotal, textEnd] using toNat_total ht
  have hed : (hdr.dataoff + hdr.data + hdr.bss).toNat = dataEnd hdr := by
    simpa [total, natTotal, dataEnd, Nat.add_assoc] using toNat_total hd
  rw [breakOf, programEnd, ← het, ← hed]
  split
  · exact (Nat.max_eq_right (Nat.le_of_lt (BitVec.lt_def.mp ‹_›))).symm
  · exact (Nat.max_eq_left (Nat.le_of_not_lt fun h => ‹¬ _› (BitVec.lt_def.mpr h))).symm

/-- No carry: the sum of the numbers is one of the word's. -/
lemma noCarry_iff :
    NoCarry hdr nargs nbytes ↔
      programEnd hdr + hdr.heap.toNat + argSpace nargs nbytes ≤ 65535 := by
  have ht : Exact hdr.textoff [hdr.text] ↔ textEnd hdr < 65536 := by
    simpa [natTotal, textEnd] using
      (exact_iff : Exact hdr.textoff [hdr.text] ↔ _)
  have hd : Exact hdr.dataoff [hdr.data, hdr.bss] ↔ dataEnd hdr < 65536 := by
    simpa [natTotal, dataEnd, Nat.add_assoc] using
      (exact_iff : Exact hdr.dataoff [hdr.data, hdr.bss] ↔ _)
  have hn : Exact (breakOf hdr) [hdr.heap, 4, nargs, nargs, nbytes] ↔
      (breakOf hdr).toNat + hdr.heap.toNat + argSpace nargs nbytes < 65536 := by
    rw [exact_iff, natTotal, argSpace]
    simp only [List.map_cons, List.map_nil, List.sum_cons, List.sum_nil]
    have hfour : (4 : Word).toNat = 4 := rfl
    omega
  constructor
  · rintro ⟨htext, hdata, hneed⟩
    have hlt := hn.mp hneed
    rw [breakOf_toNat htext hdata] at hlt
    omega
  · intro h
    have htext := ht.mpr (by rw [programEnd] at h; omega)
    have hdata := hd.mpr (by rw [programEnd] at h; omega)
    refine ⟨htext, hdata, hn.mpr ?_⟩
    rw [breakOf_toNat htext hdata]
    omega

lemma stack_toNat (h : argSpace nargs nbytes ≤ usrtop) :
    (stack nargs nbytes).toNat + argSpace nargs nbytes = usrtop := by
  rw [argSpace, usrtop] at h ⊢
  rw [stack, usrtop]
  bv_omega

/-- `stack` is where `putargs` leaves the stack. -/
lemma putargs_sp {g : Args} {mem : Bytes} {r : Stack} (h : g.putargs mem = .ok r)
    (hroom : 4 + 2 * g.nargs + g.nbytes ≤ usrtop) :
    (stack (BitVec.ofNat 16 g.nargs) (BitVec.ofNat 16 g.nbytes)).toNat = r.sp := by
  have hspace : argSpace (BitVec.ofNat 16 g.nargs) (BitVec.ofNat 16 g.nbytes) =
      4 + 2 * g.nargs + g.nbytes := by
    rw [usrtop] at hroom
    rw [argSpace, BitVec.toNat_ofNat, BitVec.toNat_ofNat]
    omega
  have hstack := stack_toNat (hspace.trans_le hroom)
  rw [hspace] at hstack
  have hsp : r.sp = usrtop - g.nbytes - 2 * g.nargs - 2 - 2 := by
    rw [Args.putargs] at h
    split at h
    · split at h
      · cases h
        rfl
      · cases h
    · cases h
  omega

/-- **The fit check.**  What `fit` accepts fits exactly when none of its additions carries. -/
theorem fit_guards (hdr : Obj) (nargs nbytes : Word) :
    Guards hdr nargs nbytes ↔ NoCarry hdr nargs nbytes := by
  constructor
  · intro h
    exact noCarry_iff.mpr (h _ fit_eq).1
  · intro h brake hfit
    obtain rfl : breakOf hdr = brake := Option.some.inj (fit_eq.symm.trans hfit)
    have hneed := noCarry_iff.mp h
    have hstack : (stack nargs nbytes).toNat + argSpace nargs nbytes = usrtop :=
      stack_toNat (by rw [usrtop]; omega)
    have hbreak := breakOf_toNat h.text h.data
    refine ⟨hneed, hbreak, hstack, ?_⟩
    rw [usrtop] at hstack
    omega

/-- Data of 32768 bytes and a bss of 32752, after 16 bytes of text. -/
def large : Obj := ⟨0x99, 0x94, 0, 16, 0x8000, 0x7ff0, 1024, 0x100, 0x110⟩

/-- The end of the program is beyond the end of memory, and its break is in the first segment. -/
theorem fit_accepts_large : ¬∀ hdr nargs nbytes, Guards hdr nargs nbytes := by
  intro h
  have hfit := (h large 1 2 (fit large 1 2).get!) (by decide)
  exact absurd hfit.1 (by decide)

end Exec

end Micronix
