import Micronix.Lib.Transition
import Mathlib.Logic.Function.Basic
import Mathlib.Data.Nat.Bitwise

/-!
# User and group ids

`setuid`, `getuid`, `exec`'s `setusr` and `fork` on the two id words of a process.  The words are
`union bytepair`, and the macros `u_uid`, `u_gid`, `u_euid`, `u_egid` all name the low byte of their
word: a group id is stored over the user id.

Beside the processes runs what the calls promise of user 0, `Right`: whether a process has the real
and the effective user id 0 from its beginning, by inheritance, by `setuid` of an id whose low byte is
0 or by a set-uid file of user 0.
-/

namespace Micronix

namespace Ids

/-- `union bytepair` -/
structure Bytepair where
  low : UInt8
  high : UInt8
  deriving DecidableEq

/-- The ids in `struct user`. -/
structure User where
  real : Bytepair
  effective : Bytepair
  deriving DecidableEq

namespace User

/-- `#define u_uid real.bytes.low` -/
def u_uid (u : User) : UInt8 := u.real.low

/-- `#define u_gid real.bytes.low` -/
def u_gid (u : User) : UInt8 := u.real.low

/-- `#define u_euid effective.bytes.low` -/
def u_euid (u : User) : UInt8 := u.effective.low

/-- `#define u_egid effective.bytes.low` -/
def u_egid (u : User) : UInt8 := u.effective.low

def setUid (u : User) (v : UInt8) : User := { u with real := { u.real with low := v } }
def setGid (u : User) (v : UInt8) : User := { u with real := { u.real with low := v } }
def setEuid (u : User) (v : UInt8) : User := { u with effective := { u.effective with low := v } }
def setEgid (u : User) (v : UInt8) : User := { u with effective := { u.effective with low := v } }

end User

/-- A process: `u`, and the `uid` in `struct proc`, for signals. -/
structure Proc where
  uid : UInt8
  u : User
  deriving DecidableEq

/-- What `setusr` reads of the file: `ISUID`, `ISGID`, `i_uid` and `i_gid`. -/
structure Image where
  isuid : Bool
  isgid : Bool
  i_uid : UInt8
  i_gid : UInt8

/-- `super()` -/
def super (u : User) : Bool := u.u_euid == 0

/-- `uid = (char) id`, as a byte -/
def uidOf (id : UInt16) : UInt8 := id.toUInt8

/-- `gid = id >> 8`, as a byte -/
def gidOf (id : UInt16) : UInt8 := (id >>> 8).toUInt8

/-- The test of `setuid`.  Its `uid` and `gid` are signed characters, the ids of the process are not. -/
def mayBe (u : User) (id : UInt16) : Bool :=
  (uidOf id).toInt8.toInt == u.u_uid.toNat && (gidOf id).toInt8.toInt == u.u_gid.toNat || super u

/-- `setuid(id)`; `none` is the error `EPERM`. -/
def setuid (p : Proc) (id : UInt16) : Option Proc :=
  if mayBe p.u id then
    some ⟨uidOf id,
      (((p.u.setUid (uidOf id)).setGid (gidOf id)).setEuid (uidOf id)).setEgid (gidOf id)⟩
  else none

/-- `getuid()` -/
def getuid (u : User) : ℕ := u.u_gid.toNat <<< 8 ||| u.u_uid.toNat

/-- The ids in `setusr()`. -/
def setusr (u : User) (f : Image) : User :=
  let u := u.setEuid (if f.isuid then f.i_uid else u.u_uid)
  u.setEgid (if f.isgid then f.i_gid else u.u_gid)

/-- `setuid`, `exec` of a file, whose checks pass or not, and `fork` into a process slot. -/
inductive Call
  | setuid (id : UInt16)
  | exec (f : Image) (ok : Bool)
  | fork (child : ℕ)

/-- The user id 0 that a process may have. -/
structure Right where
  real : Bool
  effective : Bool
  deriving DecidableEq

/-- The processes, and beside each the user id 0 it may have. -/
structure State where
  procs : ℕ → Option Proc
  right : ℕ → Right

/-- A step of process `k`. -/
def step (s : State) : ℕ × Call → Option State
  | (k, .setuid id) =>
      (s.procs k).map fun p =>
        match setuid p id with
        | none => s
        | some p' =>
            ⟨Function.update s.procs k (some p'),
              Function.update s.right k ⟨uidOf id == 0, uidOf id == 0⟩⟩
  | (k, .exec f ok) =>
      (s.procs k).map fun p =>
        if ok then
          ⟨Function.update s.procs k (some ⟨p.uid, setusr p.u f⟩),
            Function.update s.right k
              ⟨(s.right k).real, if f.isuid then f.i_uid == 0 else (s.right k).real⟩⟩
        else s
  | (k, .fork child) =>
      (s.procs k).map fun p =>
        if (s.procs child).isSome then s
        else ⟨Function.update s.procs child (some p),
          Function.update s.right child (s.right k)⟩

/-! ## What the calls do -/

/-- What a successful `setuid(id)` is to leave behind. -/
def Taken (u : User) (id : UInt16) : Prop :=
  u.u_uid = uidOf id ∧ u.u_euid = uidOf id ∧ u.u_gid = gidOf id ∧ u.u_egid = gidOf id ∧
    getuid u = id.toNat

lemma id_bytes (id : UInt16) : id.toNat = (gidOf id).toNat * 256 + (uidOf id).toNat := by
  have hlt := id.toNat_lt
  have h8 : UInt16.toNat 8 % 16 = 8 := by decide
  simp only [gidOf, uidOf, UInt16.toNat_toUInt8, UInt16.toNat_shiftRight,
    Nat.shiftRight_eq_div_pow, h8]
  omega

lemma getuid_eq (u : User) : getuid u = u.u_gid.toNat * 256 + u.u_uid.toNat := by
  rw [getuid, ← Nat.shiftLeft_add_eq_or_of_lt u.u_uid.toNat_lt, Nat.shiftLeft_eq]

/-- The high byte is stored last. -/
lemma setuid_ids {p p' : Proc} {id : UInt16} (h : setuid p id = some p') :
    mayBe p.u id = true ∧ p'.u.real.low = gidOf id ∧ p'.u.effective.low = gidOf id := by
  unfold setuid at h
  split_ifs at h with hm
  cases h
  exact ⟨hm, rfl, rfl⟩

/-- **`setuid`** leaves the ids of `id` behind if and only if its two bytes are the same. -/
lemma setuid_iff {p p' : Proc} {id : UInt16} (h : setuid p id = some p') :
    Taken p'.u id ↔ uidOf id = gidOf id := by
  obtain ⟨-, hr, he⟩ := setuid_ids h
  constructor
  · rintro ⟨hu, -⟩
    exact hu.symm.trans hr
  · intro heq
    refine ⟨hr.trans heq.symm, he.trans heq.symm, hr, he, ?_⟩
    rw [getuid_eq, id_bytes, heq]
    simp only [User.u_gid, User.u_uid, hr]

/-- The user id that `exec` is to give. -/
def execUid (u : User) (f : Image) : UInt8 := if f.isuid then f.i_uid else u.u_uid

/-- The group id that `exec` is to give: it is stored last. -/
def execGid (u : User) (f : Image) : UInt8 := if f.isgid then f.i_gid else u.u_gid

lemma setusr_euid (u : User) (f : Image) : (setusr u f).u_euid = execGid u f := rfl

/-! ## Runs -/

/-- The condition: a `setuid` that succeeds has an id with two equal bytes, and `exec` stores a group
id 0 only where the user id is to be 0. -/
def Fine (s : State) : ℕ × Call → Prop
  | (k, .setuid id) => ∀ p, s.procs k = some p → mayBe p.u id = true → uidOf id = gidOf id
  | (k, .exec f ok) => ∀ p, s.procs k = some p → ok = true → execGid p.u f = 0 → execUid p.u f = 0
  | (_, .fork _) => True

/-- At the beginning a process may have the user id 0 that it has. -/
def Start (s : State) : Prop :=
  ∀ k p, s.procs k = some p → s.right k = ⟨p.u.u_uid == 0, p.u.u_euid == 0⟩

/-- The user id 0 that a process has it may have, and it has the real one that it may have. -/
def Rightful (s : State) : Prop :=
  ∀ k p, s.procs k = some p →
    (p.u.u_uid = 0 ↔ (s.right k).real = true) ∧ (p.u.u_euid = 0 → (s.right k).effective = true)

lemma Start.rightful {s : State} (h : Start s) : Rightful s := by
  intro k p hp
  rw [h k p hp]
  simp

/-- Only process `k` is changed. -/
lemma Rightful.update {s : State} (h : Rightful s) {k : ℕ} {p : Proc} {r : Right}
    (hr : p.u.u_uid = 0 ↔ r.real = true) (he : p.u.u_euid = 0 → r.effective = true) :
    Rightful ⟨Function.update s.procs k (some p), Function.update s.right k r⟩ := by
  intro j q hq
  by_cases hj : j = k
  · subst hj
    simp only [Function.update_self, Option.some.injEq] at hq ⊢
    subst hq
    exact ⟨hr, he⟩
  · simp only [Function.update_of_ne hj] at hq ⊢
    exact h j q hq

/-- **One step.** -/
lemma Rightful.step {s s' : State} {l : ℕ × Call} (h : Rightful s) (hf : Fine s l)
    (hs : step s l = some s') : Rightful s' := by
  obtain ⟨k, c⟩ := l
  cases c with
  | setuid id =>
      obtain ⟨p, hp, rfl⟩ := Option.map_eq_some_iff.mp hs
      cases hset : Ids.setuid p id with
      | none => exact h
      | some p' =>
          obtain ⟨hm, hr, he⟩ := setuid_ids hset
          have hb : uidOf id = gidOf id := hf p hp hm
          refine h.update ?_ ?_
          · simp [User.u_uid, hr, hb]
          · simp [User.u_euid, he, hb]
  | exec f ok =>
      obtain ⟨p, hp, rfl⟩ := Option.map_eq_some_iff.mp hs
      cases ok with
      | false => exact h
      | true =>
          obtain ⟨hr, -⟩ := h k p hp
          refine h.update hr ?_
          intro h0
          have hu := hf p hp rfl h0
          unfold execUid at hu
          split_ifs at hu ⊢ with hsuid
          · simpa using hu
          · exact hr.mp hu
  | fork child =>
      obtain ⟨p, hp, rfl⟩ := Option.map_eq_some_iff.mp hs
      split_ifs
      · exact h
      · exact h.update (h k p hp).1 (h k p hp).2

/-- **Identity of a process.**  `setuid` does what it is to do if and only if the two bytes of the id
are equal; in every run whose steps are fine a process has the effective user id 0 only by right; and a
process that is fine so far keeps to that in an `exec` if and only if that is fine. -/
theorem identity {s : State} (h : Transition.Reach step Start Fine s) :
    (∀ p p' id, setuid p id = some p' → (Taken p'.u id ↔ uidOf id = gidOf id)) ∧
      (∀ k p, s.procs k = some p → p.u.u_euid = 0 → (s.right k).effective = true) ∧
      ∀ k p f s', s.procs k = some p → step s (k, .exec f true) = some s' →
        (((setusr p.u f).u_euid = 0 → (s'.right k).effective = true) ↔ Fine s (k, .exec f true)) := by
  have hinv : Rightful s := h.invariant (fun _ => Start.rightful) fun _ _ _ => Rightful.step
  refine ⟨fun p p' id => setuid_iff, fun k p hp => (hinv k p hp).2, ?_⟩
  intro k p f s' hp hs
  have hr := (hinv k p hp).1
  simp only [step, hp, Option.map_some, if_true, Option.some.injEq] at hs
  subst hs
  have hright : (if f.isuid then f.i_uid == 0 else (s.right k).real) = true ↔
      execUid p.u f = 0 := by
    unfold execUid
    split_ifs
    · exact beq_iff_eq
    · exact hr.symm
  simp only [Function.update_self, setusr_euid, hright, Fine, hp, Option.some.injEq, forall_eq',
    true_implies]

/-- One process with the given ids. -/
def alone (real effective : UInt8) : State where
  procs k := if k = 0 then some ⟨real, ⟨real, 0⟩, ⟨effective, 0⟩⟩ else none
  right _ := ⟨real == 0, effective == 0⟩

lemma alone_start (real effective : UInt8) : Start (alone real effective) := by
  intro k p hp
  by_cases hk : k = 0
  · subst hk
    cases hp
    rfl
  · simp [alone, hk] at hp

/-- The super-user becomes user 7 of group 7. -/
theorem identity_seven :
    ∃ p', setuid ⟨0, ⟨0, 0⟩, ⟨0, 0⟩⟩ 0x0707 = some p' ∧ Taken p'.u 0x0707 :=
  ⟨_, rfl, ((identity (.start (alone_start 0 0))).1 ⟨0, ⟨0, 0⟩, ⟨0, 0⟩⟩ _ 0x0707 rfl).mpr rfl⟩

/-- **Two ways to stay or become super-user.**  After `setuid(5)` by the super-user, user 5 of group
0, `getuid` is 0 and the effective user id is still 0; and a set-gid file of group 0 makes user 5 the
super-user. -/
theorem setuid_keeps_super :
    (∃ p', setuid ⟨0, ⟨0, 0⟩, ⟨0, 0⟩⟩ 5 = some p' ∧ p'.u.u_uid = 0 ∧ p'.u.u_euid = 0 ∧
      getuid p'.u = 0) ∧
    ∃ s', step (alone 5 5) (0, .exec ⟨false, true, 5, 0⟩ true) = some s' ∧
      (s'.procs 0).map (fun p => p.u.u_euid) = some 0 ∧ (s'.right 0).effective = false :=
  ⟨⟨_, rfl, by decide, by decide, by decide⟩, _, rfl, by decide, by decide⟩

end Ids

end Micronix
