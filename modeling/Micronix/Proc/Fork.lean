import Micronix.Mem.Swapmap
import Micronix.Proc.Pids

/-!
# `fork` and its failures

The whole call: it counts the current directory and the open files once more, copies the entry of the
process table, and gives the child memory or writes it to the swap device.  What a failure leaves
behind depends on how far it has come.
-/

namespace Micronix

namespace Forks

open Procs

/-- `EAGAIN` -/
def eagain : ℕ := 11

/-- What `fork` reads and changes: the process table, the counts of inodes and files, the segments and
the swap map; and `u.p`, `u.cdir`, `u.olist` and `u.error`. -/
structure State where
  table : Table
  icount : ℕ → UInt8
  fcount : ℕ → UInt8
  pool : Memory.Pool
  swapmap : Swapmap
  swapdev : ℕ
  p : ℕ
  cdir : ℕ
  olist : ℕ → Option ℕ
  error : ℕ

/-- `(*o)->count++` for the first `n` slots. -/
def bump (olist : ℕ → Option ℕ) (count : ℕ → UInt8) : ℕ → ℕ → UInt8
  | 0 => count
  | n + 1 =>
      let count := bump olist count n
      match olist n with
      | none => count
      | some f => Function.update count f (count f + 1)

/-- `swapout(p)`; `io` says that `swapio` succeeds.  No result where `salloc` runs off its map.  The
`SIGKILL` that a failure sends to `p` is left out: `procopy` clears the entry. -/
def swapout (t : Table) (m : Swapmap) (p : ℕ) (io : Bool) : Option (Bool × Table × Swapmap) :=
  let t := t.modify p fun e => { e with mode := { e.mode with loaded := false } }
  (m.salloc ((t.plist p).nsegs <<< 3)).map fun r =>
    let blk := r.1.getD 0
    let t := t.modify p fun e => { e with swap := blk, time := if blk = 0 then e.time else 0 }
    if blk ≠ 0 ∧ io = true then
      (true, t.modify p fun e => { e with mode := { e.mode with swapped := true } }, r.2)
    else (false, t.modify p fun e => { e with mode := { e.mode with loaded := true } }, r.2)

/-- `procopy(child)`, in the parent.  What `bankcopy` copies is left out. -/
def procopy (s : State) (child frame : ℕ) (io : Bool) : Option State :=
  let t := s.table.spawn s.p child frame
  let e := t.plist child
  match s.pool.mget ⟨.core, e.nsegs, e.mem, e.swap, .no⟩ with
  | some r =>
      some { s with table := t.modify child fun e => { e with mem := r.2.mem }, pool := r.1 }
  | none =>
      let mode := (t.plist s.p).mode
      let t := t.modify s.p fun e => { e with mode := { e.mode with locked := true } }
      if s.swapdev ≠ 0 then
        (swapout t s.swapmap child io).map fun r =>
          let s := { s with swapmap := r.2.2 }
          if r.1 then
            { s with table := (r.2.1.run Table.swapproc).modify s.p fun e => { e with mode } }
          else
            { s with
              table := (r.2.1.set child .zero).modify s.p fun e => { e with mode }
              error := eagain }
      else
        some { s with
          table := (t.set child .zero).modify s.p fun e => { e with mode }
          error := eagain }

/-- `fork()`: what it returns in the parent, and the state. -/
def fork (s : State) (frame : ℕ) (io : Bool) : Option (ℕ × State) :=
  match s.table.slot with
  | none => some (0, { s with error := eagain })
  | some child =>
      let s := { s with
        icount := Function.update s.icount s.cdir (s.icount s.cdir + 1)
        fcount := bump s.olist s.fcount nopen }
      (procopy s child frame io).map fun s => (forkReturn s.table child 1, s)

/-! ## Failure -/

/-- There is no process slot; or too little memory, and no swap device, no swap space or an error in
the transfer. -/
def Fails (s : State) (io : Bool) : Prop :=
  s.table.slot = none ∨ s.pool.nsegs < (s.table.plist s.p).nsegs ∧
    (s.swapdev = 0 ∨ io = false ∨
      ∀ r, s.swapmap.salloc ((s.table.plist s.p).nsegs <<< 3) = some r → r.1.getD 0 = 0)

/-- The counts, the process table and the memory maps are as before. -/
def Same (s s' : State) : Prop :=
  s'.icount = s.icount ∧ s'.fcount = s.fcount ∧ s'.table.plist = s.table.plist ∧
    s'.pool = s.pool ∧ s'.swapmap = s.swapmap

variable {s : State} {child frame : ℕ} {io : Bool}

/-- The copy has the segments of the parent. -/
lemma spawn_nsegs (t : Table) (p child frame : ℕ) :
    ((t.spawn p child frame).plist child).nsegs = (t.plist p).nsegs := by
  simp [Table.spawn, Table.modify, Table.set]

lemma mget_none {p : Memory.Pool} {x : Memory.Proc} : p.mget x = none ↔ p.nsegs < x.nsegs := by
  unfold Memory.Pool.mget
  split_ifs with h
  · exact iff_of_true rfl h
  · exact iff_of_false (by simp) h

/-- `procopy` does not touch the counts. -/
lemma procopy_counts {s' : State} (h : procopy s child frame io = some s') :
    s'.icount = s.icount ∧ s'.fcount = s.fcount := by
  unfold procopy at h
  dsimp only at h
  split at h
  · cases h
    exact ⟨rfl, rfl⟩
  · split_ifs at h
    · obtain ⟨r, -, rfl⟩ := Option.map_eq_some_iff.mp h
      split_ifs <;> exact ⟨rfl, rfl⟩
    · cases h
      exact ⟨rfl, rfl⟩

/-- Whether `swapout` succeeds. -/
lemma swapout_fails {t : Table} {m : Swapmap} {p : ℕ} {r : Bool × Table × Swapmap}
    (h : swapout t m p io = some r) :
    r.1 = false ↔ io = false ∨
      ∀ q, m.salloc ((t.plist p).nsegs <<< 3) = some q → q.1.getD 0 = 0 := by
  obtain ⟨q, hq, rfl⟩ := Option.map_eq_some_iff.mp h
  have hn : ((t.modify p fun e =>
      { e with mode := { e.mode with loaded := false } }).plist p).nsegs = (t.plist p).nsegs := by
    simp [Table.modify, Table.set]
  rw [hn] at hq
  rw [hq]
  by_cases hc : q.1.getD 0 ≠ 0 ∧ io = true
  · simp only [if_pos hc]
    refine iff_of_false (by simp) ?_
    rintro (hio | hall)
    · rw [hc.2] at hio
      exact absurd hio (by simp)
    · exact hc.1 (hall q rfl)
  · simp only [if_neg hc]
    refine iff_of_true trivial ?_
    cases io with
    | false => exact Or.inl rfl
    | true =>
        refine Or.inr ?_
        rintro q' h'
        cases h'
        by_contra h0
        exact hc ⟨h0, rfl⟩

/-- `procopy` sets `u.error` where it fails, and there only. -/
lemma procopy_error {s' : State} (h : procopy s child frame io = some s') :
    (s.pool.nsegs < (s.table.plist s.p).nsegs ∧ (s.swapdev = 0 ∨ io = false ∨
        ∀ r, s.swapmap.salloc ((s.table.plist s.p).nsegs <<< 3) = some r → r.1.getD 0 = 0) →
      s'.error = eagain) ∧
    (¬(s.pool.nsegs < (s.table.plist s.p).nsegs ∧ (s.swapdev = 0 ∨ io = false ∨
        ∀ r, s.swapmap.salloc ((s.table.plist s.p).nsegs <<< 3) = some r → r.1.getD 0 = 0)) →
      s'.error = s.error) := by
  have hn := spawn_nsegs s.table s.p child frame
  unfold procopy at h
  dsimp only at h
  split at h
  next r hget =>
    cases h
    have hroom : ¬s.pool.nsegs < (s.table.plist s.p).nsegs := by
      rw [← hn]
      intro hc
      rw [mget_none.mpr hc] at hget
      exact absurd hget (by simp)
    exact ⟨fun hc => absurd hc.1 hroom, fun _ => rfl⟩
  next hget =>
    have hfull : s.pool.nsegs < (s.table.plist s.p).nsegs := hn ▸ mget_none.mp hget
    split_ifs at h with hdev
    · obtain ⟨r, hr, rfl⟩ := Option.map_eq_some_iff.mp h
      have hiff := swapout_fails hr
      have hn' : ((((s.table.spawn s.p child frame).modify s.p fun e =>
          { e with mode := { e.mode with locked := true } }).plist child).nsegs) =
            (s.table.plist s.p).nsegs := by
        rw [← hn]
        by_cases hc : child = s.p
        · simp [Table.modify, Table.set, hc]
        · simp [Table.modify, Table.set, Function.update_of_ne hc]
      rw [hn'] at hiff
      cases hb : r.1 with
      | true =>
          refine ⟨fun hc => ?_, fun _ => rfl⟩
          have := hiff.mpr (hc.2.resolve_left hdev)
          rw [hb] at this
          exact absurd this (by simp)
      | false =>
          refine ⟨fun _ => rfl, fun hc => absurd ⟨hfull, Or.inr (hiff.mp hb)⟩ hc⟩
    · cases h
      refine ⟨fun _ => rfl, fun hc => absurd ⟨hfull, Or.inl ?_⟩ hc⟩
      exact not_not.mp hdev

/-- **A failing fork.**  It returns an error, and leaves the counts, the process table and the memory
maps as they were if and only if it fails because there is no process slot; otherwise it has counted
the current directory and the open files. -/
theorem fork_fails {r : ℕ × State} (hr : fork s frame io = some r) :
    (Fails s io → r.2.error = eagain ∧ (Same s r.2 ↔ s.table.slot = none)) ∧
      (¬Fails s io → r.2.error = s.error) := by
  unfold fork at hr
  cases hslot : s.table.slot with
  | none =>
      rw [hslot] at hr
      cases hr
      exact ⟨fun _ => ⟨rfl, iff_of_true ⟨rfl, rfl, rfl, rfl, rfl⟩ rfl⟩,
        fun hc => absurd (Or.inl hslot) hc⟩
  | some child =>
      rw [hslot] at hr
      obtain ⟨s', hs', rfl⟩ := Option.map_eq_some_iff.mp hr
      obtain ⟨hbad, hgood⟩ := procopy_error hs'
      refine ⟨fun hf => ⟨hbad (hf.resolve_left (by simp [hslot])), iff_of_false ?_ (by simp)⟩,
        fun hf => hgood fun hc => hf (Or.inr hc)⟩
      -- the count of the current directory is one more
      rintro ⟨hcount, -⟩
      have hne := congrFun hcount s.cdir
      rw [(procopy_counts hs').1] at hne
      simp at hne

/-- The init process, with its current directory counted once and one open file. -/
def parent (full : Bool) : State where
  table := ⟨fun p => if p < 2 ∨ full = true then
    { Entry.zero with mode := ⟨true, true, true, true, false, false, false, false⟩, nsegs := 3 }
    else .zero, 2, false⟩
  icount := fun _ => 1
  fcount := fun _ => 1
  pool := ⟨0, fun _ => true, 16⟩
  swapmap := fun _ => ⟨0, 0⟩
  swapdev := 0
  p := 1
  cdir := 0
  olist := fun fd => if fd = 0 then some 0 else none
  error := 0

/-- With a full process table nothing is changed. -/
theorem fork_fails_full : ∃ r, fork (parent true) 0 true = some r ∧ Same (parent true) r.2 := by
  have hslot : (parent true).table.slot = none := by decide +kernel
  have hr : fork (parent true) 0 true = some (0, { parent true with error := eagain }) := by
    rw [fork, hslot]
  exact ⟨_, hr, (((fork_fails hr).1 (Or.inl hslot)).2.mpr hslot)⟩

/-- **Counts that stay up.**  Without memory and without a swap device `fork` fails with `EAGAIN`; the
current directory and the open file are then counted twice, by one process. -/
theorem fork_keeps_counts :
    (fork (parent false) 0 true).map (fun r => (r.1, r.2.error, r.2.icount 0, r.2.fcount 0)) =
      some (0, eagain, 2, 2) ∧ Fails (parent false) true := by
  refine ⟨by decide +kernel, Or.inr ⟨by decide +kernel, Or.inl rfl⟩⟩

end Forks

end Micronix
