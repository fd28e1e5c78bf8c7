import Micronix.Sim.Usersim
import Mathlib.Data.Option.Basic

/-!
# Signals of the user-mode simulator

`emulate` notices a signal after it has executed an instruction, and pushes the address of that
instruction.  A handler that returns comes back to an instruction that has been executed already.
Only where an instruction leaves the pc at itself is this the address of the next one
(`signal_transparent`); and the HALT of a system call, which does, cannot be interrupted.
-/

namespace Micronix

namespace Usersim

variable {ρ : Type}

/-- As the core leaves the processor: `S_HLTA` comes from the pin, and the pin goes on at a HALT, where
the pc stays. -/
structure Z80.Settled (c : Z80 ρ) : Prop where
  pin : c.hlta = true → c.halt = true
  pc : c.stopped = true → c.mem c.pc = HALT

/-- What is used of `z80_run`: `S_HLTA` is on after it only if a fetch found the pin on, and such a
processor is still halted, at the HALT that it has executed once more. -/
structure Core.Lawful (core : Core ρ) : Prop where
  stopped : ∀ c : Z80 ρ, c.Settled → (core.run c).hlta = true → (core.run c).stopped = true
  halt : ∀ c : Z80 ρ, c.Settled → (core.run c).hlta = true → (core.run c).mem c.pc = HALT

namespace Process

variable {core : Core ρ} {p t u : Process ρ}

/-- `t` is about to run a handler that, when it returns and has changed nothing, goes on as `u`.  The
two bytes below the stack pointer of `u` are where the address has been pushed. -/
structure Interrupts (h : Word) (t u : Process ρ) : Prop where
  handler : t.cpu.pc = h
  runs : t.cpu.stopped = false
  address : t.cpu.top = u.cpu.pc
  sp : t.cpu.sp + 2 = u.cpu.sp
  mem : ∀ a, a ≠ t.cpu.sp → a ≠ t.cpu.sp + 1 → t.cpu.mem a = u.cpu.mem a
  halt : t.cpu.halt = u.cpu.halt ∧ t.cpu.hlta = u.cpu.hlta ∧ t.cpu.unhalt = u.cpu.unhalt
  rest : t.cpu.rest = u.cpu.rest
  handlers : t.handler = u.handler
  calls : t.calls = u.calls

/-- Signal `i` is the next one to be delivered, and it is caught. -/
def Catches (p : Process ρ) (i : ℕ) : Prop :=
  pending p.signalled = some i ∧ p.handler i ≠ 0

instance (p : Process ρ) (i : ℕ) : Decidable (p.Catches i) :=
  inferInstanceAs (Decidable (_ ∧ _))

/-- The same without a signal. -/
def quiet (p : Process ρ) : Process ρ :=
  { p with signalled := 0 }

/-- The delivery is transparent: this turn enters the handler of signal `i`, and it interrupts what the
turn would have come to without a signal. -/
def Transparent (core : Core ρ) (p : Process ρ) (i : ℕ) : Prop :=
  ∃ t u, p.emulate core = some t ∧ p.quiet.emulate core = some u ∧
    t.signalled = p.signalled &&& ~~~(1#16 <<< i) ∧ Interrupts (p.handler i) t u

end Process

/-! ## The stack -/

namespace Z80

variable (c : Z80 ρ) (s : Word)

lemma add_one_ne (a : Word) : a + 1 ≠ a := by
  intro h
  bv_omega

/-- The two halves of a word. -/
lemma halves : (s >>> 8).setWidth 8 ++ s.setWidth 8 = s := by
  ext i hi
  rw [BitVec.getElem_append]
  split_ifs with h
  · simp [BitVec.getLsbD_eq_getElem hi]
  · simp only [BitVec.getElem_setWidth, BitVec.getLsbD_ushiftRight]
    have hsum : 8 + (i - 8) = i := by omega
    rw [hsum, BitVec.getLsbD_eq_getElem]

/-- The halves of a word that is put together. -/
lemma halves_append {m n : ℕ} (a : BitVec m) (b : BitVec n) :
    ((a ++ b) >>> n).setWidth m = a ∧ (a ++ b).setWidth n = b := by
  constructor
  all_goals
    apply BitVec.eq_of_getLsbD_eq
    intro i hi
    simp [BitVec.getLsbD_append, hi]

@[simp] lemma push_top : (c.push s).top = s := by
  rw [top, push, putWord]
  dsimp only
  rw [Function.update_self, Function.update_of_ne (add_one_ne _).symm, Function.update_self, halves]

lemma push_mem {a : Word} (h : a ≠ c.sp - 2) (h' : a ≠ c.sp - 2 + 1) : (c.push s).mem a = c.mem a := by
  rw [push, putWord]
  dsimp only
  rw [Function.update_of_ne h', Function.update_of_ne h]

variable {c s}

/-- What is popped is on top. -/
lemma pop_some {c' : Z80 ρ} (h : c.pop = some (s, c')) :
    s = c.top ∧ c' = { c with sp := c.sp + 2 } := by
  obtain ⟨w, hw, hpair⟩ := Option.map_eq_some_iff.mp h
  rw [getWord] at hw
  split_ifs at hw
  obtain rfl := Option.some.inj hw
  obtain ⟨rfl, rfl⟩ := Prod.mk.inj hpair
  exact ⟨rfl, rfl⟩

/-- To push what has just been popped changes nothing. -/
lemma push_pop {c' : Z80 ρ} (h : c.pop = some (s, c')) : c'.push s = c := by
  obtain ⟨rfl, rfl⟩ := pop_some h
  have hsp : c.sp + 2 - 2 = c.sp := by bv_omega
  obtain ⟨hhigh, hlow⟩ := halves_append (c.mem (c.sp + 1)) (c.mem c.sp)
  rw [push, putWord]
  dsimp only
  rw [hsp, top, hhigh, hlow, Function.update_eq_self, Function.update_eq_self]

end Z80

/-! ## One turn -/

namespace Process

variable {core : Core ρ} {p q t u : Process ρ} {i : ℕ}

@[simp] lemma pending_zero : pending 0 = none := by decide

/-- A turn without a signal. -/
lemma emulate_quiet (core : Core ρ) (p : Process ρ) :
    p.quiet.emulate core =
      if (core.run p.cpu).hlta then { p with cpu := core.run p.cpu, signalled := 0 }.systemCall core
      else some { p with cpu := core.run p.cpu, signalled := 0 } := by
  rw [emulate, deliver, quiet]
  simp only [pending_zero]

/-- The state in which the handler of a signal is entered. -/
def entered (core : Core ρ) (p : Process ρ) (i : ℕ) : Process ρ :=
  { p with
    cpu := { (core.run p.cpu).push p.cpu.pc with pc := p.handler i }
    signalled := p.signalled &&& ~~~(1#16 <<< i) }

/-- A turn with one. -/
lemma emulate_caught (h : p.Catches i) :
    p.emulate core =
      if (core.run p.cpu).hlta then (entered core p i).systemCall core else some (entered core p i) := by
  rw [emulate, deliver]
  simp only [h.1, if_neg h.2]
  rfl

/-- No call has the number of a HALT. -/
lemma descriptor_halt {c : Z80 ρ} {sc : Word} (h : c.mem (sc + 1) = HALT) :
    descriptor c sc = some (118, sc, false) := by
  rw [descriptor, h]
  rfl

/-- A system call that is served stood before the address on the stack, and its number is not the
code of a HALT. -/
lemma systemCall_some (h : p.systemCall core = some q) :
    q.calls = p.calls ++ [p.cpu.top - 1] ∧ p.cpu.mem p.cpu.top ≠ HALT := by
  rw [systemCall] at h
  simp only [Option.bind_eq_bind, Option.bind_eq_some_iff, Prod.exists] at h
  obtain ⟨sc, cpu, hpop, _, -, code, args, indirect, hdesc, _, hcode, _, _, -, _, -, _, _, -, _, _, -,
    hq⟩ := h
  obtain rfl := Option.some.inj hq
  obtain ⟨hsc, -⟩ := Z80.pop_some hpop
  rw [Z80.push_pop hpop] at hdesc
  refine ⟨by rw [hsc], fun hhalt => ?_⟩
  have hnext : sc - 1 + 1 = p.cpu.top := by bv_omega
  rw [descriptor_halt (hnext.symm ▸ hhalt)] at hdesc
  obtain ⟨rfl, -⟩ := Prod.mk.inj (Option.some.inj hdesc)
  rw [guard, if_neg (by decide)] at hcode
  cases hcode

/-- At the HALT of a system call there is no way to run the handler and to serve the call. -/
lemma not_transparent_hlta (hc : core.Lawful) (hs : p.cpu.Settled) (h : p.Catches i)
    (hhlta : (core.run p.cpu).hlta = true) : ¬ Transparent core p i := by
  rintro ⟨t, u, ht, hu, -, hint⟩
  rw [emulate_caught h, if_pos hhlta] at ht
  rw [emulate_quiet, if_pos hhlta] at hu
  obtain ⟨htcalls, -⟩ := systemCall_some ht
  obtain ⟨hucalls, hcode⟩ := systemCall_some hu
  have hsame : p.cpu.pc - 1 = (core.run p.cpu).top - 1 := by
    have hcalls := hint.calls
    rw [htcalls, hucalls] at hcalls
    exact (Z80.push_top _ _ ▸ List.cons.inj (List.append_cancel_left hcalls)).1
  have htop : (core.run p.cpu).top = p.cpu.pc := by bv_omega
  exact hcode (htop ▸ hc.halt p.cpu hs hhlta)

/-- A caught signal is delivered transparently exactly where the instruction has left the pc at itself
and the processor is not halted. -/
theorem signal_transparent (hc : core.Lawful) (hs : p.cpu.Settled) (h : p.Catches i) :
    Transparent core p i ↔
      (core.run p.cpu).pc = p.cpu.pc ∧ (core.run p.cpu).stopped = false := by
  by_cases hhlta : (core.run p.cpu).hlta = true
  · have hstop : (core.run p.cpu).stopped = true := hc.stopped p.cpu hs hhlta
    simp [not_transparent_hlta hc hs h hhlta, hstop]
  · have ht : p.emulate core = some (entered core p i) := by
      rw [emulate_caught h, if_neg hhlta]
    have hu : p.quiet.emulate core =
        some { p with cpu := core.run p.cpu, signalled := 0 } := by
      rw [emulate_quiet, if_neg hhlta]
    constructor
    · rintro ⟨t, u, ht', hu', -, hint⟩
      obtain rfl := Option.some.inj (ht.symm.trans ht')
      obtain rfl := Option.some.inj (hu.symm.trans hu')
      have hpc : p.cpu.pc = (core.run p.cpu).pc := (Z80.push_top _ _).symm.trans hint.address
      exact ⟨hpc.symm, hint.runs⟩
    · rintro ⟨hpc, hstop⟩
      refine ⟨_, _, ht, hu, rfl, ?_⟩
      exact
        { handler := rfl
          runs := hstop
          address := (Z80.push_top _ _).trans hpc.symm
          sp := by
            change (core.run p.cpu).sp - 2 + 2 = (core.run p.cpu).sp
            bv_omega
          mem := fun a h h' => Z80.push_mem _ _ h h'
          halt := ⟨rfl, rfl, rfl⟩
          rest := rfl
          handlers := rfl
          calls := rfl }

end Process

/-! ## A small processor -/

namespace Small

/-- The tick of a fetch. -/
def fetch (c : Z80 Unit) : Z80 Unit :=
  if c.unhalt then { c with halt := false, hlta := false, unhalt := false }
  else { c with hlta := c.hlta || c.halt }

/-- HALT and RST 1, and an instruction of one byte that does nothing for all others but JR. -/
def exec (c : Z80 Unit) : Z80 Unit :=
  if c.mem c.pc = HALT then { c with halt := true }
  else if c.mem c.pc = RST1 then { c.push (c.pc + 1) with pc := 8 }
  else if c.mem c.pc = 0x18 then { c with pc := c.pc + 2 + (c.mem (c.pc + 1)).signExtend 16 }
  else { c with pc := c.pc + 1 }

/-- With these instructions, and a system call that succeeds. -/
def core : Core Unit where
  run c := exec (fetch c)
  serve _ _ c handler := some (c, handler)

lemma exec_hlta (c : Z80 Unit) : (exec c).hlta = c.hlta := by
  rw [exec]
  split_ifs <;> rfl

/-- `S_HLTA` after an instruction: it was a HALT, executed once more. -/
lemma run_hlta {c : Z80 Unit} (hs : c.Settled) (h : (core.run c).hlta = true) :
    core.run c = { c with halt := true, hlta := true } ∧ c.unhalt = false ∧ c.mem c.pc = HALT := by
  change (exec (fetch c)).hlta = true at h
  rw [exec_hlta, fetch] at h
  split_ifs at h with hun
  have hpin : c.halt = true := by
    rcases Bool.or_eq_true_iff.mp h with h | h
    · exact hs.pin h
    · exact h
  have hmem : c.mem c.pc = HALT := hs.pc (by simp [Z80.stopped, hpin, hun])
  refine ⟨?_, by simpa using hun, hmem⟩
  change exec (fetch c) = _
  rw [fetch, if_neg hun, exec, if_pos hmem, h]

lemma core_lawful : core.Lawful where
  stopped c hs h := by
    obtain ⟨hrun, hun, -⟩ := run_hlta hs h
    simp [hrun, Z80.stopped, hun]
  halt c hs h := by
    obtain ⟨hrun, -, hmem⟩ := run_hlta hs h
    rw [hrun]
    exact hmem

/-- A program at 0x100 with signal 2 pending, and its handler at 0x200. -/
def program (code : Word → Byte) : Process Unit where
  cpu := ⟨0x100, 0x8000, code, false, false, false, ()⟩
  signalled := 4
  handler i := if i = 2 then 0x200 else 0
  calls := []

lemma program_settled (code : Word → Byte) : (program code).cpu.Settled where
  pin h := nomatch h
  pc h := nomatch h

/-- `JR` to itself. -/
def spin (a : Word) : Byte := if a = 0x100 then 0x18 else if a = 0x101 then 0xfe else 0

/-- A program that waits for the signal in a loop of one instruction. -/
theorem signal_transparent_spin : Process.Transparent core (program spin) 2 := by
  have hcaught : (program spin).Catches 2 := by decide
  exact (Process.signal_transparent core_lawful (program_settled spin) hcaught).mpr (by decide)

/-- **A signal after any other instruction.**  The address of the instruction that has been executed is
pushed: the handler comes back to it, and not to the next one. -/
theorem executed_again :
    ¬ Process.Transparent core (program fun _ => 0) 2 ∧
      ((program fun _ => 0).emulate core).map (fun t => (t.cpu.pc, t.cpu.top)) =
        some (0x200, 0x100) ∧
      ((program fun _ => 0).quiet.emulate core).map (fun u => u.cpu.pc) =
        some 0x101 := by
  have ht : ((program fun _ => 0).emulate core).map (fun t => (t.cpu.pc, t.cpu.top)) =
      some (0x200, 0x100) := by decide
  have hu : ((program fun _ => 0).quiet.emulate core).map (fun u => u.cpu.pc) =
      some 0x101 := by decide
  refine ⟨?_, ht, hu⟩
  rintro ⟨t, u, ht', hu', -, hint⟩
  rw [ht'] at ht
  rw [hu'] at hu
  have htop : t.cpu.top = 0x100 := (Prod.mk.inj (Option.some.inj ht)).2
  have hpc : u.cpu.pc = 0x101 := Option.some.inj hu
  have haddr := hint.address
  rw [htop, hpc] at haddr
  exact absurd haddr (by decide)

/-- The HALT of a system call with number 20 at 0x100. -/
def halted : Process Unit where
  cpu := ⟨8, 0x8000, fun a => if a = 8 then HALT else if a = 0x100 then RST1
    else if a = 0x101 then 20 else if a = 0x8000 then 1 else if a = 0x8001 then 1 else 0,
    true, false, false, ()⟩
  signalled := 4
  handler i := if i = 2 then 0x200 else 0
  calls := []

/-- A signal at the HALT of a system call ends the simulator. -/
example : halted.emulate core = none ∧
    (halted.quiet.emulate core).map (fun u => (u.cpu.pc, u.calls)) =
      some (0x102, [0x100]) := by
  constructor <;> decide

end Small

end Usersim

end Micronix
