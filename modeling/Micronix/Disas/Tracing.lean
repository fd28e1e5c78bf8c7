import Mathlib.Data.List.Nodup
import Mathlib.Data.List.Infix
import Mathlib.Tactic.Common

/-!
# Code tracing of the disassembler

The disassembler finds out what is code by following it: from each target in the table that is code,
instruction by instruction up to a jump (`trace`, `disas.c`), and what the instructions refer to comes
into the table (`outval`, `reg_target`).  A pass goes through the table in order, and what it appends
is still looked at; but a target that it has gone by as data and that becomes code is left to the next
pass, and there are five of them.  The targets from the base of `SEG_UNDEF` on, where the undefined
symbols are, are never registered.

The decoder, the image and the symbols are any.
-/

namespace Micronix

namespace Disas

/-- `OUT_*` -/
inductive Out
  | n | nn | d | dd | pc | inp | outp | epu | jr | jp | call | rst | a | nnw
  deriving DecidableEq, Repr

/-- What `dis` makes of the bytes at an address: the length, what it gives to `outval` (of a relative
jump the address) and whether the code ends here. -/
structure Insn where
  length : ℕ
  operands : List (Out × ℕ)
  jumped : Bool

structure Seg where
  base : ℕ
  length : ℕ

structure Image where
  segs : List Seg
  /-- the base of `SEG_UNDEF` -/
  undef : ℕ
  /-- with what is around it -/
  codebuf : ℤ → UInt8
  /-- `lookup_sym` -/
  symbol : ℕ → Option String
  dis : ℕ → Insn

abbrev Flags := BitVec 8

def WORD : Flags := 0x02
def REF : Flags := 0x04
def CODE : Flags := 0x08

def isCode (flags : Flags) : Bool := flags &&& CODE != 0

/-- A call of `reg_target`. -/
structure Reg where
  addr : ℕ
  flags : Flags
  deriving DecidableEq, Repr

namespace Image

variable (im : Image)

/-- `getseg` is not -1. -/
def inside (addr : ℕ) : Bool := im.segs.any fun s => s.base ≤ addr && addr < s.base + s.length

def word (addr : ℕ) : ℕ := (im.codebuf (addr + 1)).toNat * 256 + (im.codebuf addr).toNat

/-- The loop over a table of Whitesmiths' switch, if it ends within the limit. -/
def switchTable : ℕ → ℕ → Option (List Reg)
  | 0, _ => none
  | limit + 1, swaddr =>
      let i := im.word swaddr
      let regs : List Reg := [⟨swaddr, WORD ||| REF⟩, ⟨(swaddr + 2) % 65536, WORD ||| REF⟩]
      if i ≠ 0 then
        (switchTable limit ((swaddr + 4) % 65536)).map fun more => regs ++ ⟨i, CODE ||| REF⟩ :: more
      else some (regs ++ [⟨im.word ((swaddr + 2) % 65536), CODE ||| REF⟩])

/-- `outval`, as far as it registers something. -/
def outval (limit traceAddr : ℕ) (operand : Out × ℕ) : Option (List Reg) :=
  let (out, value) := operand
  match out with
  | .nnw => some [⟨value, WORD ||| REF⟩]
  | .jr | .nn | .jp | .call =>
      let target : Reg := ⟨value, if out ≠ .nn then CODE ||| REF else REF⟩
      if im.symbol value = some "c.switch" ∧ im.codebuf (traceAddr - 3) = 0x21 then
        (im.switchTable limit (im.word ((traceAddr + 65534) % 65536))).map (· ++ [target])
      else some [target]
  | _ => some []

/-- What an instruction registers. -/
def regs (limit addr : ℕ) : Option (List Reg) :=
  ((im.dis addr).operands.mapM (im.outval limit addr)).map List.flatten

/-- `trace`: what it registers, if it ends within the limit. -/
def trace (limit : ℕ) : ℕ → ℕ → Option (List Reg)
  | 0, _ => none
  | k + 1, addr =>
      if im.inside addr then
        (im.regs limit addr).bind fun rs =>
          if (im.dis addr).jumped then some rs
          else (trace limit k ((addr + (im.dis addr).length) % 65536)).map (rs ++ ·)
      else some []

end Image

def TARGETS : ℕ := 5000

/-- `struct target` -/
structure Target where
  addr : ℕ
  flags : Flags
  deriving DecidableEq, Repr

/-- `targets` up to `ntarg`: no address is twice, and one more place is left. -/
structure Targets where
  list : List Target
  nodup : (list.map Target.addr).Nodup
  short : list.length < TARGETS

namespace Targets

/-- The flags of a target are added to those at its address. -/
def mark (r : Reg) (t : Target) : Target :=
  if t.addr = r.addr then { t with flags := t.flags ||| r.flags } else t

lemma addr_mark (r : Reg) (l : List Target) : (l.map (mark r)).map Target.addr = l.map Target.addr := by
  rw [List.map_map]
  refine List.map_congr_left fun t _ => ?_
  rw [Function.comp_apply, mark]
  split_ifs <;> rfl

/-- `reg_target`; none if the table overflows. -/
def register (undef : ℕ) (T : Targets) (r : Reg) : Option Targets :=
  if undef ≠ 0 ∧ undef ≤ r.addr then some T
  else if h : r.addr ∈ T.list.map Target.addr then
    some ⟨T.list.map (mark r), addr_mark r T.list ▸ T.nodup, by
      rw [List.length_map]
      exact T.short⟩
  else if hroom : T.list.length + 1 = TARGETS then none
  else
    some ⟨T.list ++ [⟨r.addr, r.flags⟩], by
      rw [List.map_append, List.map_singleton]
      exact T.nodup.append (List.nodup_singleton _) (List.disjoint_singleton.mpr h), by
      have := T.short
      rw [List.length_append, List.length_singleton]
      omega⟩

/-- `code_addr` -/
def Code (T : Targets) (addr : ℕ) : Prop := ∃ t ∈ T.list, t.addr = addr ∧ isCode t.flags = true

end Targets

section Passes

variable (im : Image) (limit : ℕ)

/-- The body of the loop over the table. -/
def visit (i : ℕ) (T : Targets) : Option Targets :=
  match T.list[i]? with
  | none => some T
  | some t =>
      if isCode t.flags then
        (im.trace limit limit t.addr).bind fun rs => rs.foldlM (Targets.register im.undef) T
      else some T

/-- The loop from `i` on; `TARGETS` turns are enough (`passFrom_ends`). -/
def passFrom : ℕ → ℕ → Targets → Option Targets
  | 0, _, T => some T
  | k + 1, i, T =>
      if i ≤ T.list.length then (visit im limit i T).bind (passFrom k (i + 1)) else some T

def pass (T : Targets) : Option Targets := passFrom im limit TARGETS 0 T

/-- A number of passes. -/
def passes : ℕ → Targets → Option Targets
  | 0, T => some T
  | m + 1, T => (passes m T).bind (pass im limit)

/-- The five passes of `main`. -/
def tracing (T : Targets) : Option Targets := passes im limit 5 T

end Passes

/-! ## Closed under traces -/

/-- A jump or call target (or a case of a switch) that is met on the way from an address. -/
inductive Met (im : Image) (limit : ℕ) : ℕ → ℕ → Prop
  | here {addr v : ℕ} {flags : Flags} {rs : List Reg} : im.inside addr = true →
      im.regs limit addr = some rs → ⟨v, flags⟩ ∈ rs → isCode flags = true → Met im limit addr v
  | next {addr v : ℕ} : im.inside addr = true → (im.dis addr).jumped = false →
      Met im limit ((addr + (im.dis addr).length) % 65536) v → Met im limit addr v

/-- What `reg_target` does not take. -/
def Image.Refused (im : Image) (v : ℕ) : Prop := im.undef ≠ 0 ∧ im.undef ≤ v

/-- Every target that is met from a code target is one, up to those that are exempt. -/
def Closed (im : Image) (limit : ℕ) (exempt : ℕ → Prop) (T : Targets) : Prop :=
  ∀ addr v, T.Code addr → Met im limit addr v → ¬exempt v → T.Code v

/-- The targets that the loop finds to be data when it gets to them. -/
def passed (im : Image) (limit : ℕ) : ℕ → ℕ → Targets → List ℕ
  | 0, _, _ => []
  | k + 1, i, T =>
      if i ≤ T.list.length then
        ((T.list[i]?.filter fun t => !isCode t.flags).map Target.addr).toList ++
          ((visit im limit i T).map (passed im limit k (i + 1))).getD []
      else []

section

variable {im : Image} {limit k i : ℕ} {T T' : Targets} {r : Reg}

lemma isCode_or (f g : Flags) : isCode (f ||| g) = (isCode f || isCode g) := by
  have hbit : ∀ f : Flags, isCode f = f.getLsbD 3 := by decide
  rw [hbit, hbit, hbit, BitVec.getLsbD_or]

/-- The targets stay where they are, and code stays code. -/
structure Targets.Grows (T T' : Targets) : Prop where
  addrs : T.list.map Target.addr <+: T'.list.map Target.addr
  code : ∀ v, T.Code v → T'.Code v

lemma Targets.Grows.refl (T : Targets) : T.Grows T := ⟨List.prefix_rfl, fun _ h => h⟩

lemma Targets.Grows.trans {T'' : Targets} (h : T.Grows T') (h' : T'.Grows T'') : T.Grows T'' :=
  ⟨h.addrs.trans h'.addrs, fun v hv => h'.code v (h.code v hv)⟩

lemma register_grows {undef : ℕ} (h : T.register undef r = some T') : T.Grows T' := by
  rw [Targets.register] at h
  split_ifs at h
  · cases h
    exact .refl _
  · cases h
    refine ⟨(Targets.addr_mark r T.list).symm ▸ List.prefix_rfl, ?_⟩
    rintro v ⟨t, ht, haddr, hcode⟩
    refine ⟨Targets.mark r t, List.mem_map_of_mem ht, ?_⟩
    rw [Targets.mark]
    split_ifs
    · exact ⟨haddr, by rw [isCode_or, hcode, Bool.true_or]⟩
    · exact ⟨haddr, hcode⟩
  · cases h
    refine ⟨?_, fun v ⟨t, ht, h⟩ => ⟨t, List.mem_append_left _ ht, h⟩⟩
    rw [List.map_append]
    exact List.prefix_append _ _

/-- A code target is registered as such. -/
lemma register_code {undef : ℕ} (h : T.register undef r = some T') (hcode : isCode r.flags = true)
    (htaken : ¬(undef ≠ 0 ∧ undef ≤ r.addr)) : T'.Code r.addr := by
  rw [Targets.register, if_neg htaken] at h
  split_ifs at h with hmem
  · cases h
    obtain ⟨t, ht, haddr⟩ := List.mem_map.mp hmem
    refine ⟨Targets.mark r t, List.mem_map_of_mem ht, ?_⟩
    rw [Targets.mark, if_pos haddr]
    exact ⟨haddr, by rw [isCode_or, hcode, Bool.or_true]⟩
  · cases h
    exact ⟨_, List.mem_append_right _ (List.mem_singleton_self _), rfl, hcode⟩

lemma foldlM_register {undef : ℕ} {rs : List Reg} (h : rs.foldlM (Targets.register undef) T = some T') :
    T.Grows T' ∧ ∀ r ∈ rs, isCode r.flags = true → ¬(undef ≠ 0 ∧ undef ≤ r.addr) →
      T'.Code r.addr := by
  induction rs generalizing T with
  | nil =>
      cases h
      exact ⟨.refl _, fun r hr => absurd hr List.not_mem_nil⟩
  | cons r rs ih =>
      rw [List.foldlM_cons, Option.bind_eq_bind, Option.bind_eq_some_iff] at h
      obtain ⟨T₁, hone, hrest⟩ := h
      obtain ⟨hgrows, hcode⟩ := ih hrest
      refine ⟨(register_grows hone).trans hgrows, ?_⟩
      rw [List.forall_mem_cons]
      exact ⟨fun hc ht => hgrows.code _ (register_code hone hc ht), hcode⟩

/-- What is met is what the trace registers. -/
lemma met_trace {addr v : ℕ} (h : Met im limit addr v) {rs : List Reg}
    (htrace : im.trace limit k addr = some rs) : ∃ r ∈ rs, r.addr = v ∧ isCode r.flags = true := by
  induction h generalizing k rs with
  | here hin hregs hmem hcode =>
      cases k with
      | zero => cases htrace
      | succ k =>
          rw [Image.trace, if_pos hin, hregs, Option.bind_some] at htrace
          split_ifs at htrace
          · cases htrace
            exact ⟨_, hmem, rfl, hcode⟩
          · obtain ⟨more, -, rfl⟩ := Option.map_eq_some_iff.mp htrace
            exact ⟨_, List.mem_append_left _ hmem, rfl, hcode⟩
  | @next addr v hin hjumped _ ih =>
      cases k with
      | zero => cases htrace
      | succ k =>
          rw [Image.trace, if_pos hin, Option.bind_eq_some_iff] at htrace
          obtain ⟨first, -, htrace⟩ := htrace
          rw [if_neg (by rw [hjumped]; exact Bool.false_ne_true)] at htrace
          obtain ⟨more, hmore, rfl⟩ := Option.map_eq_some_iff.mp htrace
          obtain ⟨r, hr, hr'⟩ := ih hmore
          exact ⟨r, List.mem_append_right _ hr, hr'⟩

lemma visit_grows (h : visit im limit i T = some T') : T.Grows T' := by
  rw [visit] at h
  cases ht : T.list[i]? with
  | none =>
      rw [ht] at h
      cases h
      exact .refl _
  | some t =>
      rw [ht] at h
      dsimp only at h
      split_ifs at h
      · obtain ⟨rs, -, hfold⟩ := Option.bind_eq_some_iff.mp h
        exact (foldlM_register hfold).1
      · cases h
        exact .refl _

/-- A visit of a code target registers all that is met from it. -/
lemma visit_code {t : Target} (ht : T.list[i]? = some t) (hcode : isCode t.flags = true)
    (h : visit im limit i T = some T') {v : ℕ} (hv : Met im limit t.addr v) (htaken : ¬im.Refused v) :
    T'.Code v := by
  rw [visit, ht] at h
  dsimp only at h
  rw [if_pos hcode] at h
  obtain ⟨rs, htrace, hfold⟩ := Option.bind_eq_some_iff.mp h
  obtain ⟨r, hr, rfl, hrcode⟩ := met_trace hv htrace
  exact (foldlM_register hfold).2 r hr hrcode htaken

lemma passFrom_grows (h : passFrom im limit k i T = some T') : T.Grows T' := by
  induction k generalizing i T with
  | zero =>
      cases h
      exact .refl _
  | succ k ih =>
      rw [passFrom] at h
      split_ifs at h
      · obtain ⟨T₁, hvisit, hrest⟩ := Option.bind_eq_some_iff.mp h
        exact (visit_grows hvisit).trans (ih hrest)
      · cases h
        exact .refl _

lemma passFrom_stop (h : T.list.length < i) : passFrom im limit k i T = some T := by
  cases k with
  | zero => rfl
  | succ k => rw [passFrom, if_neg (Nat.not_le_of_lt h)]

/-- More turns than `TARGETS` make no difference. -/
lemma passFrom_ends (m : ℕ) (h : i + k = TARGETS) :
    passFrom im limit (k + m) i T = passFrom im limit k i T := by
  induction k generalizing i T with
  | zero =>
      have hshort := T.short
      rw [passFrom_stop (by omega), passFrom]
  | succ k ih =>
      rw [Nat.succ_add, passFrom, passFrom]
      split_ifs
      · exact congrArg _ (funext fun T => ih (by omega))
      · rfl

/-- A target stays at its place. -/
lemma Targets.Grows.entry (h : T.Grows T') {t : Target} (ht : T.list[i]? = some t) :
    ∃ t', T'.list[i]? = some t' ∧ t'.addr = t.addr := by
  obtain ⟨more, hmore⟩ := h.addrs
  have haddr : (T'.list.map Target.addr)[i]? = some t.addr := by
    have hlt : i < (T.list.map Target.addr).length := by
      rw [List.length_map]
      exact (List.getElem?_eq_some_iff.mp ht).1
    rw [← hmore, List.getElem?_append_left hlt, List.getElem?_map, ht]
    rfl
  rw [List.getElem?_map, Option.map_eq_some_iff] at haddr
  exact haddr

/-- A pass from `i` on in which nothing it has gone by as data becomes code: from every code target
there all is registered that is met. -/
lemma passFrom_closed (hk : i + k = TARGETS) (h : passFrom im limit k i T = some T')
    (hlate : ∀ a ∈ passed im limit k i T, ¬T'.Code a) {j : ℕ} (hj : i ≤ j) {t : Target}
    (ht : T'.list[j]? = some t) (hcode : isCode t.flags = true) {v : ℕ}
    (hv : Met im limit t.addr v) (htaken : ¬im.Refused v) : T'.Code v := by
  have hlt := (List.getElem?_eq_some_iff.mp ht).1
  have hshort := T'.short
  induction k generalizing i T with
  | zero => omega
  | succ k ih =>
      rw [passFrom] at h
      rw [passed] at hlate
      split_ifs at h hlate with hle
      · obtain ⟨T₁, hvisit, hrest⟩ := Option.bind_eq_some_iff.mp h
        rw [hvisit, Option.map_some, Option.getD_some] at hlate
        rcases Nat.eq_or_lt_of_le hj with rfl | hnext
        · cases hold : T.list[i]? with
          | none =>
              -- the turn behind the last target: nothing happens any more
              have hend : T.list.length < i + 1 := Nat.lt_succ_of_le (List.getElem?_eq_none_iff.mp hold)
              rw [visit, hold] at hvisit
              cases hvisit
              rw [passFrom_stop hend] at hrest
              cases hrest
              rw [hold] at ht
              cases ht
          | some t₀ =>
              obtain ⟨t', ht', haddr⟩ := ((visit_grows hvisit).trans (passFrom_grows hrest)).entry hold
              rw [ht, Option.some.injEq] at ht'
              subst ht'
              rw [haddr] at hv
              cases hcode₀ : isCode t₀.flags with
              | true => exact (passFrom_grows hrest).code v (visit_code hold hcode₀ hvisit hv htaken)
              | false =>
                  refine absurd ⟨t, List.mem_of_getElem? ht, haddr, hcode⟩
                    (hlate t₀.addr (List.mem_append_left _ ?_))
                  rw [hold]
                  simp [hcode₀]
        · exact ih (by omega) hrest (fun a ha => hlate a (List.mem_append_right _ ha)) hnext
      · cases h
        omega

end

/-- **Tracing is complete** up to what `reg_target` does not take, if in the fifth pass nothing that it
has gone by as data becomes code. -/
theorem tracing_closed {im : Image} {limit : ℕ} {T T₅ : Targets} (h : tracing im limit T = some T₅)
    (hlate : ∀ T₄, passes im limit 4 T = some T₄ →
      ∀ a ∈ passed im limit TARGETS 0 T₄, ¬T₅.Code a) : Closed im limit im.Refused T₅ := by
  obtain ⟨T₄, hfour, hpass⟩ := Option.bind_eq_some_iff.mp h
  rintro addr v ⟨t, ht, rfl, hcode⟩ hv htaken
  obtain ⟨j, hj⟩ := List.getElem?_of_mem ht
  exact passFrom_closed (Nat.zero_add _) hpass (hlate T₄ hfour) (Nat.zero_le j) hj hcode hv htaken

/-- A code segment in which each instruction is a jump three bytes on, and targets at some addresses:
data but for the last. -/
def jumps (undef : ℕ) : Image where
  segs := [⟨0x100, 0x18⟩]
  undef := undef
  codebuf _ := 0
  symbol _ := none
  dis addr := ⟨3, [(.jp, addr + 3)], true⟩

/-- The targets `-d 10f 10c 109 106 103 -c 100`. -/
def backward : Targets where
  list := [⟨0x10f, 5⟩, ⟨0x10c, 5⟩, ⟨0x109, 5⟩, ⟨0x106, 5⟩, ⟨0x103, 5⟩, ⟨0x100, 12⟩]
  nodup := by decide
  short := by decide

/-- The target `-c 100`. -/
def start : Targets where
  list := [⟨0x100, 12⟩]
  nodup := by decide
  short := by decide

/-- Without targets that are data the trace goes to the end of the segment. -/
theorem tracing_closed_start : ∃ T₅, tracing (jumps 0) 1 start = some T₅ ∧
    Closed (jumps 0) 1 (jumps 0).Refused T₅ := by
  have hpassed : (passes (jumps 0) 1 4 start).map (passed (jumps 0) 1 TARGETS 0) = some [] := by
    decide +kernel
  have hsome : (tracing (jumps 0) 1 start).isSome = true := by decide +kernel
  obtain ⟨T₅, h⟩ := Option.isSome_iff_exists.mp hsome
  refine ⟨T₅, h, tracing_closed h fun T₄ h₄ a ha => ?_⟩
  rw [h₄, Option.map_some, Option.some.injEq] at hpassed
  rw [hpassed] at ha
  exact absurd ha List.not_mem_nil

lemma jumps_met (undef : ℕ) {addr : ℕ} (h : (jumps undef).inside addr = true) :
    Met (jumps undef) 1 addr (addr + 3) :=
  .here h rfl (List.mem_singleton_self _) (by decide)

/-- Five targets that become code one after the other, each in front of the one before: after five
passes the last has not been traced.  And a jump to an undefined symbol is not registered. -/
theorem tracing_incomplete :
    (∃ T₅, tracing (jumps 0) 1 backward = some T₅ ∧ ¬Closed (jumps 0) 1 (fun _ => False) T₅) ∧
      ∃ T₅, tracing (jumps 0x103) 1 start = some T₅ ∧
        ¬Closed (jumps 0x103) 1 (fun _ => False) T₅ := by
  have hfirst : (tracing (jumps 0) 1 backward).map Targets.list =
      some [⟨0x10f, 13⟩, ⟨0x10c, 13⟩, ⟨0x109, 13⟩, ⟨0x106, 13⟩, ⟨0x103, 13⟩, ⟨0x100, 12⟩] := by
    decide +kernel
  have hsecond : (tracing (jumps 0x103) 1 start).map Targets.list = some [⟨0x100, 12⟩] := by
    decide +kernel
  obtain ⟨T₅, h, hlist⟩ := Option.map_eq_some_iff.mp hfirst
  obtain ⟨T₅', h', hlist'⟩ := Option.map_eq_some_iff.mp hsecond
  refine ⟨⟨T₅, h, fun hclosed => ?_⟩, ⟨T₅', h', fun hclosed => ?_⟩⟩
  · obtain ⟨t, ht, haddr, -⟩ := hclosed 0x10f 0x112
      ⟨⟨0x10f, 13⟩, hlist ▸ List.mem_cons_self, rfl, by decide⟩ (jumps_met 0 (by decide)) id
    rw [hlist] at ht
    revert t
    decide
  · obtain ⟨t, ht, haddr, -⟩ := hclosed 0x100 0x103
      ⟨⟨0x100, 12⟩, hlist' ▸ List.mem_cons_self, rfl, by decide⟩ (jumps_met _ (by decide)) id
    rw [hlist'] at ht
    revert t
    decide

end Disas

end Micronix
