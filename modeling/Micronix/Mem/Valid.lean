import Mathlib.Data.UInt
import Micronix.Mem.Transfer

/-!
# User addresses

`valid`, which the system calls ask about the memory that they are to use.  It calls `grow` for the
pages of the interval that are marked `GROW`; while `grow` waits for memory other processes go on,
and the swapper may take the process away and bring it back.
-/

namespace Micronix.Memory

open Swapping (mget_keeps)

variable {s s' : State} {x : ℕ}

/-- While the process is asleep in `grow`; `ls` is what happens until it goes on. -/
def sleepOn (x : ℕ) : State → List Label → Option State
  | s, [] => if (s.proc x).Runs then some s else none
  | s, l :: ls => if (s.proc x).Runs then none else (step s l).bind fun s => sleepOn x s ls

/-- The loop of `valid` from page `i`, with `n` rounds left.  `env` says what happens while `grow`
waits. -/
def validFrom (x brakeseg stackseg : ℕ) : ℕ → ℕ → State → List (List Label) → Option (Bool × State)
  | 0, _, s, _ => some (true, s)
  | n + 1, i, s, env =>
      if ((s.proc x).mem i).per = .grow then
        if brakeseg < i ∧ i < stackseg then some (false, s)
        else
          match env with
          | [] => none
          | ls :: env =>
              (step s (.grow x i brakeseg stackseg)).bind fun s =>
                (sleepOn x s ls).bind fun s => validFrom x brakeseg stackseg n (i + 1) s env
      else validFrom x brakeseg stackseg n (i + 1) s env

/-- The first and the last page that `valid` looks at. -/
def firstPage (addr : UInt16) : ℕ := (addr >>> 12).toNat
def lastPage (addr count : UInt16) : ℕ := ((addr + count - 1) >>> 12).toNat

/-- `valid(addr, count)`, called by process `x`. -/
def valid (s : State) (x : ℕ) (addr count brake sp : UInt16) (env : List (List Label)) :
    Option (Bool × State) :=
  if count ≠ 0 then
    validFrom x (brake >>> 12).toNat (sp >>> 12).toNat (lastPage addr count + 1 - firstPage addr)
      (firstPage addr) s env
  else some (true, s)

/-! ## The wait -/

/-- In `grow`, wherever the swapper has the process. -/
def Proc.Growing (p : Proc) : Prop :=
  p.Waits = true ∧ (p.stat = .core ∨ p.stat = .leaving ∨ p.stat = .swapped ∨ p.stat = .entering)

lemma Proc.Growing.not_runs {p : Proc} (h : p.Growing) : ¬p.Runs := by
  intro hr
  have := h.1
  rw [Proc.Waits, hr.2] at this
  cases this

lemma put_of_ne {y : ℕ} {r : Pool × Proc} (h : x ≠ y) : (s.put y r).proc x = s.proc x :=
  Function.update_of_ne h _ _

lemma put_eq {r : Pool × Proc} : (s.put x r).proc x = r.2 := Function.update_self ..

/-- The course of `grow` leaves the permissions as they are. -/
structure Keeps (p q : Proc) : Prop where
  on : q.Growing ∨ q.Runs
  per : ∀ i, (q.mem i).per = (p.mem i).per

lemma Proc.Growing.keeps {p : Proc} (h : p.Growing) : Keeps p p := ⟨Or.inl h, fun _ => rfl⟩

lemma growOn_keeps {p : Proc} (pool : Pool) (h : p.Growing) (hc : p.stat = .core) :
    Keeps p (pool.growOn p).2 := by
  unfold Pool.growOn
  split_ifs
  · exact h.keeps
  · exact ⟨Or.inr ⟨hc, rfl⟩, fun _ => rfl⟩
  · refine ⟨Or.inr ⟨hc, rfl⟩, fun i => ?_⟩
    dsimp only
    split_ifs with hi
    · exact hi.2.symm
    · rfl

/-- The entry of a process is replaced, that of `x` or another one. -/
lemma Proc.Growing.put (h : (s.proc x).Growing) {y : ℕ} {r : Pool × Proc}
    (hk : (s.proc y).Growing → Keeps (s.proc y) r.2) : Keeps (s.proc x) ((s.put y r).proc x) := by
  by_cases hxy : x = y
  · subst hxy
    rw [put_eq]
    exact hk h
  · rw [put_of_ne hxy]
    exact h.keeps

/-- A process with another status is another process. -/
lemma Proc.Growing.ne (h : (s.proc x).Growing) {st : Stat} {y : ℕ} (hy : (s.proc y).stat = st)
    (hst : st ≠ .core ∧ st ≠ .leaving ∧ st ≠ .swapped ∧ st ≠ .entering) : x ≠ y := by
  rintro rfl
  obtain ⟨h1, h2, h3, h4⟩ := hst
  rcases h.2 with hc | hc | hc | hc <;> rw [hy] at hc
  exacts [h1 hc, h2 hc, h3 hc, h4 hc]

/-- **The wait, step by step.** -/
lemma step_keeps {l : Label} (h : (s.proc x).Growing) (he : step s l = some s') :
    Keeps (s.proc x) (s'.proc x) := by
  have hruns {y : ℕ} (hy : (s.proc y).Runs) : x ≠ y := fun e => h.not_runs (e ▸ hy)
  have hother {t : State} (e : t.proc x = s.proc x) : Keeps (s.proc x) (t.proc x) := e ▸ h.keeps
  cases l with
  | fork y c blk =>
      simp only [step, Option.ite_none_right_eq_some, Option.some.injEq] at he
      obtain ⟨⟨hr, hf⟩, rfl⟩ := he
      have hxc : x ≠ c := h.ne hf (by decide)
      refine hother ?_
      unfold procopy
      split
      · exact put_of_ne hxc
      · split_ifs
        · exact put_of_ne hxc
        · rw [put_of_ne (hruns hr), put_of_ne hxc]
  | forked y =>
      simp only [step] at he
      split at he
      · rename_i c hw
        simp only [Option.ite_none_right_eq_some, Option.some.injEq] at he
        obtain ⟨hf, rfl⟩ := he
        have hxy : x ≠ y := by
          rintro rfl
          have := h.1
          rw [Proc.Waits, hw] at this
          cases this
        exact hother (by rw [put_of_ne hxy, put_of_ne (h.ne hf (by decide))])
      · cases he
  | exec y =>
      simp only [step, Option.ite_none_right_eq_some, Option.some.injEq] at he
      obtain ⟨⟨-, hr⟩, rfl⟩ := he
      exact hother (put_of_ne (hruns hr))
  | grow y seg b t =>
      simp only [step, Option.ite_none_right_eq_some, Option.some.injEq] at he
      obtain ⟨⟨-, hr, -⟩, rfl⟩ := he
      exact hother (put_of_ne (hruns hr))
  | wake y =>
      simp only [step, Option.ite_none_right_eq_some, Option.some.injEq] at he
      obtain ⟨⟨-, hc, -⟩, rfl⟩ := he
      exact h.put fun hy => growOn_keeps _ hy hc
  | exit y =>
      simp only [step, Option.ite_none_right_eq_some, Option.some.injEq] at he
      obtain ⟨⟨-, hr⟩, rfl⟩ := he
      exact hother (put_of_ne (hruns hr))
  | reap y =>
      simp only [step, Option.ite_none_right_eq_some, Option.some.injEq] at he
      obtain ⟨hz, rfl⟩ := he
      exact hother (put_of_ne (h.ne hz (by decide)))
  | swapout y blk =>
      simp only [step, Option.ite_none_right_eq_some, Option.some.injEq] at he
      obtain ⟨⟨-, hc, -⟩, rfl⟩ := he
      refine h.put fun hy => ?_
      rw [swapout]
      split_ifs
      · exact ⟨Or.inl ⟨hy.1, Or.inl hc⟩, fun _ => rfl⟩
      · exact ⟨Or.inl ⟨hy.1, Or.inr (Or.inl rfl)⟩, fun _ => rfl⟩
  | swappedOut y =>
      simp only [step, Option.ite_none_right_eq_some, Option.some.injEq] at he
      obtain ⟨-, rfl⟩ := he
      refine h.put fun hy => ?_
      rw [Pool.mfree]
      refine ⟨Or.inl ⟨hy.1, Or.inr (Or.inr (Or.inl rfl))⟩, fun i => ?_⟩
      dsimp only
      split_ifs <;> rfl
  | swapin y =>
      simp only [step, Option.ite_none_right_eq_some, Option.some.injEq] at he
      obtain ⟨-, rfl⟩ := he
      split
      · rename_i r hget
        refine h.put fun hy => ?_
        obtain ⟨mem, hr, hper⟩ := mget_keeps hget
        rw [hr]
        exact ⟨Or.inl ⟨hy.1, Or.inr (Or.inr (Or.inr rfl))⟩, hper⟩
      · exact h.keeps
  | swappedIn y =>
      simp only [step, Option.ite_none_right_eq_some, Option.some.injEq] at he
      obtain ⟨-, rfl⟩ := he
      exact h.put fun hy => ⟨Or.inl ⟨hy.1, Or.inl rfl⟩, fun _ => rfl⟩

/-- The wait. -/
lemma sleepOn_per : ∀ {ls : List Label} {s s' : State}, (s.proc x).Growing ∨ (s.proc x).Runs →
    sleepOn x s ls = some s' → ∀ i, ((s'.proc x).mem i).per = ((s.proc x).mem i).per
  | [], s, s', _, he, i => by
      rw [sleepOn] at he
      split_ifs at he
      obtain rfl := Option.some.inj he
      rfl
  | l :: ls, s, s', h, he, i => by
      rw [sleepOn] at he
      split_ifs at he with hr
      obtain ⟨t, ht, hrest⟩ := Option.bind_eq_some_iff.mp he
      have hk := step_keeps (h.resolve_right hr) ht
      rw [sleepOn_per hk.on hrest i, hk.per]

/-! ## The loop -/

variable {b t n i : ℕ} {env : List (List Label)} {r : Bool}

/-- `grow` makes its page `FULL` and leaves the permissions of the others as they are. -/
lemma grow_spec (hp : ((s.proc x).mem i).per = .grow) (hbt : ¬(b < i ∧ i < t))
    (he : step s (.grow x i b t) = some s') :
    ((s'.proc x).Growing ∨ (s'.proc x).Runs) ∧
      ∀ j, ((s'.proc x).mem j).per = if j = i then .full else ((s.proc x).mem j).per := by
  simp only [step, Option.ite_none_right_eq_some, Option.some.injEq] at he
  obtain ⟨⟨-, hr, -⟩, rfl⟩ := he
  rw [put_eq, Pool.grow, if_neg (by rw [hp]; decide), if_neg hbt]
  have hupd (j : ℕ) : (Function.update (s.proc x).mem i ⟨((s.proc x).mem i).seg, .full⟩ j).per =
      if j = i then .full else ((s.proc x).mem j).per := by
    by_cases hj : j = i
    · rw [hj, Function.update_self, if_pos rfl]
    · rw [Function.update_of_ne hj, if_neg hj]
  dsimp only
  split_ifs
  · exact ⟨Or.inr hr, hupd⟩
  · have hk := growOn_keeps s.pool (p := { s.proc x with
      mem := Function.update (s.proc x).mem i ⟨((s.proc x).mem i).seg, .full⟩
      nsegs := (s.proc x).nsegs + 1, swap := 0, sleep := .grow i }) ⟨rfl, Or.inl hr.1⟩ hr.1
    exact ⟨hk.on, fun j => (hk.per j).trans (hupd j)⟩

/-- `valid` comes to a page that `grow` refuses. -/
def Refused (s : State) (x b t first last : ℕ) : Prop :=
  ∃ i, first ≤ i ∧ i ≤ last ∧ ((s.proc x).mem i).per = .grow ∧ b < i ∧ i < t

/-- **The loop.**  It fails if and only if it comes to a page that `grow` refuses; else it makes the
pages that are marked `GROW` `FULL`. -/
lemma validFrom_spec : ∀ {n i : ℕ} {s s' : State} {env : List (List Label)} {r : Bool},
    validFrom x b t n i s env = some (r, s') →
      (r = false ↔ ∃ j, i ≤ j ∧ j < i + n ∧ ((s.proc x).mem j).per = .grow ∧ b < j ∧ j < t) ∧
        (r = true → ∀ j, ((s'.proc x).mem j).per =
          if i ≤ j ∧ j < i + n ∧ ((s.proc x).mem j).per = .grow then .full
          else ((s.proc x).mem j).per)
  | 0, i, s, s', env, r, h => by
      simp only [validFrom, Option.some.injEq, Prod.mk.injEq] at h
      obtain ⟨rfl, rfl⟩ := h
      refine ⟨iff_of_false nofun ?_, fun _ j => ?_⟩
      · rintro ⟨j, h1, h2, -⟩
        omega
      · rw [if_neg fun hc => by omega]
  | n + 1, i, s, s', env, r, h => by
      unfold validFrom at h
      by_cases hp : ((s.proc x).mem i).per = .grow
      · rw [if_pos hp] at h
        by_cases hbt : b < i ∧ i < t
        · rw [if_pos hbt, Option.some.injEq, Prod.mk.injEq] at h
          obtain ⟨rfl, rfl⟩ := h
          exact ⟨iff_of_true rfl ⟨i, Nat.le_refl _, by omega, hp, hbt⟩, nofun⟩
        rw [if_neg hbt] at h
        cases env with
        | nil => cases h
        | cons ls env =>
            obtain ⟨s1, h1, h⟩ := Option.bind_eq_some_iff.mp h
            obtain ⟨s2, h2, h⟩ := Option.bind_eq_some_iff.mp h
            obtain ⟨hon, hper⟩ := grow_spec hp hbt h1
            have hper2 (j : ℕ) := (sleepOn_per hon h2 j).trans (hper j)
            obtain ⟨hfalse, htrue⟩ := validFrom_spec h
            constructor
            · rw [hfalse]
              constructor
              · rintro ⟨j, hij, hjn, hj, hbj⟩
                rw [hper2, if_neg (by omega)] at hj
                exact ⟨j, by omega, by omega, hj, hbj⟩
              · rintro ⟨j, hij, hjn, hj, hbj⟩
                have hji : j ≠ i := fun e => hbt (e ▸ hbj)
                exact ⟨j, by omega, by omega, by rw [hper2, if_neg hji, hj], hbj⟩
            · intro hr j
              rw [htrue hr j, hper2 j]
              by_cases hji : j = i
              · subst hji
                rw [if_pos rfl, if_neg fun hc => by omega, if_pos ⟨Nat.le_refl _, by omega, hp⟩]
              · rw [if_neg hji]
                exact if_congr ⟨fun ⟨h1, h2, hj⟩ => ⟨by omega, by omega, hj⟩,
                  fun ⟨h1, h2, hj⟩ => ⟨by omega, by omega, hj⟩⟩ rfl rfl
      · rw [if_neg hp] at h
        obtain ⟨hfalse, htrue⟩ := validFrom_spec h
        have hne {j : ℕ} (hj : ((s.proc x).mem j).per = .grow) : j ≠ i := fun e => hp (e ▸ hj)
        constructor
        · rw [hfalse]
          constructor
          · rintro ⟨j, hij, hjn, hj, hbj⟩
            exact ⟨j, by omega, by omega, hj, hbj⟩
          · rintro ⟨j, hij, hjn, hj, hbj⟩
            have := hne hj
            exact ⟨j, by omega, by omega, hj, hbj⟩
        · intro hr j
          rw [htrue hr j]
          refine if_congr ⟨fun ⟨h1, h2, hj⟩ => ⟨by omega, by omega, hj⟩,
            fun ⟨h1, h2, hj⟩ => ?_⟩ rfl rfl
          have := hne hj
          exact ⟨by omega, by omega, hj⟩

/-- The bytes of the interval are below 64K, and in pages that are `FULL`. -/
def Owned (s : State) (x : ℕ) (addr count : UInt16) : Prop :=
  ∀ a, addr.toNat ≤ a → a < addr.toNat + count.toNat →
    a < 2 ^ 16 ∧ ((s.proc x).mem (a / 4096)).per = .full

lemma shift_toNat (a : UInt16) : (a >>> 12).toNat = a.toNat / 4096 := by
  rw [UInt16.toNat_shiftRight]
  simp [Nat.shiftRight_eq_div_pow]

/-- **User addresses.**  Where `valid` reports success the process has every page of the interval,
if and only if the interval is empty, or `grow` refuses one of the pages that `valid` looks at, or
the interval ends within 64K and none of its pages is marked `NONE`. -/
theorem valid_owned {addr count brake sp : UInt16}
    (h : valid s x addr count brake sp env = some (r, s')) :
    (r = true → Owned s' x addr count) ↔
      count = 0 ∨
      Refused s x (brake.toNat / 4096) (sp.toNat / 4096) (firstPage addr) (lastPage addr count) ∨
      (addr.toNat + count.toNat ≤ 2 ^ 16 ∧
        ∀ i, firstPage addr ≤ i → i ≤ lastPage addr count → ((s.proc x).mem i).per ≠ .none) := by
  rw [valid] at h
  by_cases h0 : count = 0
  · refine iff_of_true (fun _ a ha hlt => ?_) (Or.inl h0)
    rw [h0, UInt16.toNat_zero] at hlt
    omega
  rw [if_pos h0, shift_toNat, shift_toNat] at h
  obtain ⟨hfalse, htrue⟩ := validFrom_spec h
  set first := firstPage addr with hfirst
  set last := lastPage addr count with hlast
  have hpos : 0 < count.toNat := by
    rw [Nat.pos_iff_ne_zero]
    exact fun e => h0 (UInt16.toNat_inj.mp e)
  have hf : first = addr.toNat / 4096 := shift_toNat addr
  have hl : last = (addr.toNat + count.toNat - 1) % 2 ^ 16 / 4096 := by
    rw [hlast, lastPage, shift_toNat, UInt16.toNat_sub, UInt16.toNat_add]
    have := addr.toNat_lt
    have := count.toNat_lt
    simp only [UInt16.toNat_one]
    omega
  have hrefused : r = false ↔ Refused s x (brake.toNat / 4096) (sp.toNat / 4096) first last := by
    rw [hfalse]
    exact exists_congr fun j => ⟨fun ⟨h1, h2, h3⟩ => ⟨h1, by omega, h3⟩,
      fun ⟨h1, h2, h3⟩ => ⟨h1, by omega, h3⟩⟩
  cases r with
  | false => exact iff_of_true nofun (Or.inr (Or.inl (hrefused.mp rfl)))
  | true =>
      have hno := mt hrefused.mpr nofun
      replace htrue := htrue rfl
      have hlt := addr.toNat_lt
      simp only [h0, hno, false_or, forall_true_left]
      constructor
      · intro hown
        have hend : addr.toNat + count.toNat ≤ 2 ^ 16 := by
          have := (hown (addr.toNat + count.toNat - 1) (by omega) (by omega)).1
          omega
        refine ⟨hend, fun i hi hil hnone => ?_⟩
        -- a byte of the interval in page `i`
        obtain ⟨a, ha, hlt, rfl⟩ : ∃ a, addr.toNat ≤ a ∧ a < addr.toNat + count.toNat ∧
            a / 4096 = i := by
          refine ⟨max addr.toNat (i * 4096), by omega, ?_, ?_⟩ <;> omega
        have := (hown a ha hlt).2
        rw [htrue, hnone, if_neg (fun hc => by cases hc.2.2)] at this
        cases this
      · rintro ⟨hend, hnone⟩ a ha hlt
        refine ⟨by omega, ?_⟩
        rw [htrue]
        have hi : first ≤ a / 4096 := by omega
        have hil : a / 4096 ≤ last := by omega
        split_ifs with hg
        · rfl
        · cases hp : ((s.proc x).mem (a / 4096)).per with
          | none => exact absurd hp (hnone _ hi hil)
          | full => rfl
          | grow => exact absurd ⟨hi, by omega, hp⟩ hg

/-- A process after `exec`, with its grow segment in use. -/
def execed : State where
  pool := meminit fun _ => false
  proc := fun x =>
    if x = 1 then
      { stat := .core, nsegs := 3, swap := 0, sleep := .no
        mem := fun i => if i ≤ 14 then ⟨20, .grow⟩ else ⟨i + 6, .full⟩ }
    else .zero

/-- 10 bytes at the end of the first page and at the start of the second. -/
theorem valid_owned_two : ∃ s', valid execed 1 4090 10 0x2000 0xfff0 [[], []] = some (true, s') ∧
    Owned s' 1 4090 10 := by
  have hsome : ((valid execed 1 4090 10 0x2000 0xfff0 [[], []]).map Prod.fst) = some true := by
    decide +kernel
  obtain ⟨⟨r, s'⟩, hs, rfl⟩ := Option.map_eq_some_iff.mp hsome
  refine ⟨s', hs, (valid_owned hs).mpr (Or.inr (Or.inr ⟨by decide, fun i hi hil => ?_⟩)) rfl⟩
  have hle : i ≤ 14 := hil.trans (by decide)
  show ((if i ≤ 14 then (⟨20, .grow⟩ : Seg) else ⟨i + 6, .full⟩) : Seg).per ≠ .none
  rw [if_pos hle]
  decide

/-- 49152 bytes at 20480 end beyond 64K: `valid` looks at no page. -/
theorem valid_wraps : ∃ s', valid execed 1 0x5000 0xc000 0x2000 0xfff0 [] = some (true, s') ∧
    (s'.proc 1).mem (0x5000 / 4096) = ⟨20, .grow⟩ := by
  refine ⟨execed, rfl, ?_⟩
  decide

end Micronix.Memory
