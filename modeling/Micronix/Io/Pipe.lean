import Micronix.Lib.Bytes
import Micronix.Lib.Transition

/-!
# Pipes, `sys/rdwri.c`

A pipe is a file of at most 4096 bytes.  Its size is the write position, and the read position is in
the file structure of the read end, which the readers share: `rdwri` loads it into `u.offset` before
`pread` waits for the inode and for bytes, and stores it when `pread` returns.  A reader that finds
the pipe empty sets the size to 0 and sleeps.  Reads and writes of the blocks are made with the
inode locked, so that what is between two locks is one step.
-/

namespace Micronix

/-- `PIPSIZE` -/
def pipsize : ℕ := 4096

/-- Where a process is in a system call on the pipe. -/
inductive Pipe.Pc
  | idle
  /-- at `lock` in `pread`, with `u.offset` and `u.count` -/
  | read (offset count : ℕ)
  /-- asleep in `pread`, with `u.offset` 0 -/
  | readSleep (count : ℕ)
  /-- at `lock` in `pwrite`, with the bytes left -/
  | write (bytes : List UInt8)
  /-- asleep in `pwrite` -/
  | writeSleep (bytes : List UInt8)
deriving DecidableEq

/-- A pipe, the processes that use it, and what has gone in and come out. -/
structure Pipe where
  /-- `ip->count` -/
  count : ℕ
  /-- `ip->size` -/
  size : ℕ
  data : Bytes
  /-- `fp->rwptr` of the read end -/
  rwptr : ℕ
  pc : ℕ → Pipe.Pc
  /-- The bytes read since the pipe was last empty; not in the code. -/
  taken : ℕ
  written : List UInt8
  delivered : List UInt8

namespace Pipe

/-- Process `p` goes to `c`. -/
def goto (s : Pipe) (p : ℕ) (c : Pc) : Pipe := { s with pc := Function.update s.pc p c }

/-- `pread(ip)` from `lock` to the next `irelse`, and the end of `rdwri`.  `iread` moves `k` bytes
at most: fewer than there are on an I/O error. -/
def pread (s : Pipe) (p offset count k : ℕ) : Pipe :=
  if s.size ≤ offset then
    if s.count < 2 then { s.goto p .idle with rwptr := offset }
    else { s.goto p (.readSleep count) with size := 0, taken := 0 }
  else
    let nbytes := min k (min count (s.size - offset))
    { s.goto p .idle with
      rwptr := offset + nbytes
      taken := offset + nbytes
      delivered := s.delivered ++ s.data.slice offset nbytes }

/-- `iwrite` of the first `n` bytes at the end of the pipe. -/
def append (s : Pipe) (bytes : List UInt8) (n : ℕ) : Pipe :=
  { s with
    size := s.size + n
    data := Bytes.copyBytes (Bytes.ofList bytes) 0 s.data s.size n
    written := s.written ++ bytes.take n }

/-- `pwrite(ip)` from `lock` to the next `irelse`.  After a chunk the pipe is full or nothing is
left, so that the loop makes one round. -/
def pwrite (s : Pipe) (p : ℕ) (bytes : List UInt8) (k : ℕ) : Pipe :=
  if s.count < 2 ∨ bytes = [] then s.goto p .idle
  else if pipsize ≤ s.size then s.goto p (.writeSleep bytes)
  else
    let chunk := min (pipsize - s.size) bytes.length
    let s := s.append bytes (min k chunk)
    if k < chunk ∨ chunk = bytes.length then s.goto p .idle
    else s.goto p (.writeSleep (bytes.drop chunk))

/-- What happens next.  `wake` and `abort` end the sleep of a process, and one of the ends can be
closed. -/
inductive Label
  | read (p count : ℕ)
  | write (p : ℕ) (bytes : List UInt8)
  | go (p k : ℕ)
  | wake (p : ℕ)
  | abort (p : ℕ)
  | close
deriving DecidableEq

def step (s : Pipe) : Label → Option Pipe
  | .read p count =>
      if s.pc p = .idle ∧ count ≠ 0 then some (s.goto p (.read s.rwptr count)) else none
  | .write p bytes =>
      if s.pc p = .idle ∧ bytes ≠ [] then some (s.goto p (.write bytes)) else none
  | .go p k =>
      match s.pc p with
      | .read offset count => some (s.pread p offset count k)
      | .write bytes => some (s.pwrite p bytes k)
      | _ => none
  | .wake p =>
      match s.pc p with
      | .readSleep count => some (s.goto p (.read 0 count))
      | .writeSleep bytes => some (s.goto p (.write bytes))
      | _ => none
  | .abort p =>
      match s.pc p with
      | .readSleep _ => some (s.goto p .idle)
      | .writeSleep _ => some (s.goto p .idle)
      | _ => none
  | .close => if s.count = 2 then some { s with count := 1 } else none

/-- After `pipe()`. -/
def Start (s : Pipe) : Prop :=
  s.count = 2 ∧ s.size = 0 ∧ s.rwptr = 0 ∧ s.taken = 0 ∧ s.written = [] ∧ s.delivered = [] ∧
    ∀ p, s.pc p = .idle

/-- When `pread` goes on, `u.offset` is where the pipe has been read up to; or nothing is left to
read and it is not before the end. -/
def Current (s : Pipe) : Label → Prop
  | .go p _ =>
      match s.pc p with
      | .read offset _ => offset = s.taken ∨ s.taken = s.size ∧ s.size ≤ offset
      | _ => True
  | _ => True

instance (s : Pipe) (l : Label) : Decidable (s.Current l) := by
  cases l <;> dsimp only [Current]
  case go => split <;> infer_instance
  all_goals infer_instance

/-- What has come out and what is left is what has gone in. -/
structure Inv (s : Pipe) : Prop where
  taken : s.taken ≤ s.size
  bytes : s.written = s.delivered ++ s.data.slice s.taken (s.size - s.taken)

variable {s s' : Pipe} {p offset count k n : ℕ} {bytes : List UInt8}

lemma Inv.goto (h : Inv s) (c : Pc) : Inv (s.goto p c) := ⟨h.taken, h.bytes⟩

/-- Reading at the right place keeps the bytes in order. -/
lemma Inv.pread (h : Inv s) (hc : offset = s.taken ∨ s.taken = s.size ∧ s.size ≤ offset) :
    Inv (s.pread p offset count k) := by
  have htaken := h.taken
  rw [Pipe.pread]
  split
  · rename_i hle
    split
    · exact ⟨h.taken, h.bytes⟩
    · -- the pipe is empty
      have hempty : s.size - s.taken = 0 := by
        rcases hc with rfl | ⟨he, -⟩ <;> omega
      have hbytes := h.bytes
      rw [hempty] at hbytes
      exact ⟨Nat.le_refl 0, hbytes⟩
  · rename_i hgt
    obtain rfl : offset = s.taken := hc.resolve_right fun hc => hgt hc.2
    obtain ⟨n, hn⟩ : ∃ n, n = min k (min count (s.size - s.taken)) := ⟨_, rfl⟩
    rw [← hn]
    refine ⟨show s.taken + n ≤ s.size by omega, ?_⟩
    show s.written = s.delivered ++ s.data.slice s.taken n ++
      s.data.slice (s.taken + n) (s.size - (s.taken + n))
    rw [h.bytes, List.append_assoc, ← Bytes.slice_add,
      show n + (s.size - (s.taken + n)) = s.size - s.taken by omega]

/-- Writing adds at the end. -/
lemma Inv.append {x : List UInt8} (h : Inv s) (hn : n ≤ x.length) : Inv (s.append x n) := by
  have htaken := h.taken
  refine ⟨show s.taken ≤ s.size + n by omega, ?_⟩
  show s.written ++ x.take n = s.delivered ++
    Bytes.slice (Bytes.copyBytes (Bytes.ofList x) 0 s.data s.size n) s.taken
      (s.size + n - s.taken)
  rw [show s.size + n - s.taken = (s.size - s.taken) + n by omega, Bytes.slice_add,
    show s.taken + (s.size - s.taken) = s.size by omega, Bytes.slice_copyBytes_self x _ _ hn,
    Bytes.slice_congr fun i hi => Bytes.copyBytes_outside (Or.inl (by omega)), h.bytes,
    List.append_assoc]

lemma Inv.pwrite (h : Inv s) : Inv (s.pwrite p bytes k) := by
  rw [Pipe.pwrite]
  split
  · exact h.goto _
  · split
    · exact h.goto _
    · have := h.append (x := bytes) (n := min k (min (pipsize - s.size) bytes.length)) (by omega)
      dsimp only
      split
      · exact this.goto _
      · exact this.goto _

/-- **The step.** -/
lemma Inv.step {l : Label} (h : Inv s) (hc : s.Current l) (he : step s l = some s') : Inv s' := by
  cases l with
  | read p count =>
      simp only [Pipe.step, Option.ite_none_right_eq_some, Option.some.injEq] at he
      exact he.2 ▸ h.goto _
  | write p bytes =>
      simp only [Pipe.step, Option.ite_none_right_eq_some, Option.some.injEq] at he
      exact he.2 ▸ h.goto _
  | go p k =>
      simp only [Pipe.step] at he
      simp only [Current] at hc
      split at he
      · rename_i offset count hpc
        rw [hpc] at hc
        cases he
        exact h.pread hc
      · cases he
        exact h.pwrite
      · cases he
  | wake p =>
      simp only [Pipe.step] at he
      split at he <;> cases he
      · exact h.goto _
      · exact h.goto _
  | abort p =>
      simp only [Pipe.step] at he
      split at he <;> cases he
      · exact h.goto _
      · exact h.goto _
  | close =>
      simp only [Pipe.step, Option.ite_none_right_eq_some, Option.some.injEq] at he
      exact he.2 ▸ ⟨h.taken, h.bytes⟩

/-- A new pipe. -/
def new : Pipe := ⟨2, 0, Bytes.zero, 0, fun _ => .idle, 0, [], []⟩

lemma new_start : Start new := ⟨rfl, rfl, rfl, rfl, rfl, rfl, fun _ => rfl⟩

end Pipe

end Micronix
