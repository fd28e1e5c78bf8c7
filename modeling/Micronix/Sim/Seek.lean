import Mathlib.Data.Nat.Init
import Mathlib.Tactic.Common
import Mathlib.Tactic.IntervalCases

/-!
# Two implementations of seek

`seek` of the kernel (`sys2.c`) and system call 19 of the simulator (`usersim.c`).  A displacement has
16 bits, with a sign unless it counts from the start; the origin codes 3 to 5 are those from 0 to 2
with a displacement in blocks.  Both add up in 32 bits.
-/

namespace Micronix

namespace Seek

abbrev Word := BitVec 16
abbrev Long := BitVec 32

/-- A file, as far as seek needs it. -/
structure File where
  pipe : Bool
  rwptr : Long
  size : Long

inductive Error
  | ESPIPE
  | EINVAL
  deriving DecidableEq, Repr

/-- `seek` of the kernel: the new offset. -/
def kernel (fp : File) (disp : Word) (origin : Word) : Except Error Long :=
  if fp.pipe then .error .ESPIPE
  else
    let origin := origin.toNat % 6
    let offset : Long :=
      if origin = 0 ∨ origin = 3 then disp.setWidth 32 else disp.signExtend 32
    let offset := if 3 ≤ origin then offset <<< 9 else offset
    let offset :=
      match origin with
      | 1 | 4 => offset + fp.rwptr
      | 2 | 5 => offset + fp.size
      | _ => offset
    if offset.slt 0 then .error .EINVAL else .ok offset

/-- Case 19 of `SystemCall`: the new offset, `i`. -/
def simulator (fp : File) (arg1 arg2 : Word) : Long :=
  let i : Long := if arg2.toNat % 3 ≠ 0 then arg1.signExtend 32 else arg1.setWidth 32
  let (i, arg2) := if arg2.toNat > 2 then (i * 512, arg2.toNat - 3) else (i, arg2.toNat)
  match arg2 with
  | 1 => i + fp.rwptr
  | 2 => i + fp.size
  | _ => i

/-! ## Where they agree -/

/-- The displacement in 32 bits. -/
def extend (disp origin : Word) : Long :=
  if origin.toNat % 3 = 0 then disp.setWidth 32 else disp.signExtend 32

/-- The offset that is asked for, if origin codes go round after six. -/
def target (rwptr size : Long) (disp origin : Word) : Long :=
  let d := if 3 ≤ origin.toNat % 6 then extend disp origin * 512 else extend disp origin
  match origin.toNat % 3 with
  | 1 => d + rwptr
  | 2 => d + size
  | _ => d

variable {rwptr size : Long} {disp origin : Word}

lemma shift_nine (x : Long) : x <<< 9 = x * 512 :=
  (BitVec.mul_twoPow_eq_shiftLeft x 9).symm

lemma kernel_eq :
    kernel ⟨false, rwptr, size⟩ disp origin =
      if (target rwptr size disp origin).slt 0 then .error .EINVAL
      else .ok (target rwptr size disp origin) := by
  have hthree : origin.toNat % 3 = origin.toNat % 6 % 3 := by omega
  have hlt : origin.toNat % 6 < 6 := Nat.mod_lt _ (by omega)
  rw [kernel, if_neg Bool.false_ne_true, target, extend, hthree]
  generalize origin.toNat % 6 = n at hlt
  interval_cases n <;> simp [shift_nine]

/-- The simulator takes the codes from 6 on as displacements in blocks from the start. -/
lemma simulator_eq :
    simulator ⟨false, rwptr, size⟩ disp origin =
      if origin.toNat < 6 then target rwptr size disp origin else extend disp origin * 512 := by
  rw [simulator, target, extend]
  by_cases hlt : origin.toNat < 6
  · rw [if_pos hlt]
    generalize origin.toNat = n at hlt
    interval_cases n <;> simp
  · obtain ⟨n, hn⟩ : ∃ n, origin.toNat = n + 6 := ⟨origin.toNat - 6, by omega⟩
    rw [if_neg hlt, hn]
    simp only [ite_not]
    rw [if_pos (show n + 6 > 2 by omega)]
    rfl

/-- **The two agree** exactly if the offset that is asked for is not negative and the origin code is
below 6, or the offset is the displacement in blocks. -/
theorem seek_agrees_iff (rwptr size : Long) (disp origin : Word) :
    kernel ⟨false, rwptr, size⟩ disp origin = .ok (simulator ⟨false, rwptr, size⟩ disp origin) ↔
      ¬(target rwptr size disp origin).slt 0 = true ∧
        (origin.toNat < 6 ∨ target rwptr size disp origin = extend disp origin * 512) := by
  rw [kernel_eq, simulator_eq]
  by_cases hneg : (target rwptr size disp origin).slt 0 = true
  · rw [if_pos hneg]
    exact iff_of_false (by simp) fun h => h.1 hneg
  · rw [if_neg hneg, Except.ok.injEq]
    split_ifs with hlt
    · exact iff_of_true rfl ⟨hneg, Or.inl hlt⟩
    · exact ⟨fun h => ⟨hneg, Or.inr h⟩, fun h => h.2.resolve_left hlt⟩

/-- One byte back from the start: the kernel fails, the simulator is at offset -1. -/
theorem seek_before_start : ¬∀ (rwptr size : Long) (disp origin : Word),
    kernel ⟨false, rwptr, size⟩ disp origin = .ok (simulator ⟨false, rwptr, size⟩ disp origin) := by
  intro h
  have hagrees := h 0 0 (-1) 1
  rw [kernel_eq] at hagrees
  exact absurd hagrees (by decide)

end Seek

end Micronix
