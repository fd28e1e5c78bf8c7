import Micronix.Lib.Transition
import Mathlib.Logic.Function.Basic
import Mathlib.Data.UInt

/-!
# The signal table

`slist` has a word for each signal, and in entry 0 the signal that waits.  `send` and `sig` use a
number as an index without a look at it; so the words before and behind the table are in the model
as well, at negative indices and from `NSIG` on, and `used` keeps the indices that a table has been
used with.
-/

namespace Micronix

namespace Slist

def NSIG : ℤ := 16
def NPROC : ℕ := 20

/-- The codes for terminate and ignore. -/
def TERMIN : UInt16 := 0
def IGNORE : UInt16 := 1

def SIGINT : ℤ := 2
def SIGBACK : ℤ := 6
def SIGTINT : ℤ := 7
def SIGKILL : ℤ := 9

/-- Below here, a signal can wake a sleeper. -/
def SIGPRI : UInt8 := 80

def ALLOC : UInt8 := 0o001
def ALIVE : UInt8 := 0o002
def AWAKE : UInt8 := 0o004

/-- Within the table. -/
def InTable (i : ℤ) : Prop := 0 ≤ i ∧ i < NSIG

instance (i : ℤ) : Decidable (InTable i) := inferInstanceAs (Decidable (_ ∧ _))

inductive Errno
  | EINVAL
  | ESRCH
  deriving DecidableEq, Repr

/-- The value of an `int`, stored in a word. -/
def word (x : ℤ) : UInt16 := UInt16.ofNat (x % 65536).toNat

/-- A word as a `char`. -/
def char (w : UInt16) : ℤ := Int.bmod w.toNat 256

/-- `struct proc`, as far as signals use it. -/
structure Proc where
  mode : UInt8
  uid : UInt8
  pid : UInt8
  tty : UInt16
  event : UInt16
  pri : UInt8
  status : UInt16
  slist : ℤ → UInt16
  /-- the indices used so far -/
  used : List ℤ

namespace Proc

/-- `p->slist[i]` is looked at. -/
def look (p : Proc) (i : ℤ) : Proc := { p with used := i :: p.used }

/-- `p->slist[i] = v`. -/
def set (p : Proc) (i : ℤ) (v : UInt16) : Proc :=
  { p with slist := Function.update p.slist i v, used := i :: p.used }

/-- `run(p)`. -/
def run (p : Proc) : Proc := { p with mode := p.mode ||| AWAKE, event := 0 }

/-- `send(p, sig)`. -/
def send (p : Proc) (sig : ℤ) : Proc :=
  if p.mode &&& ALIVE = 0 then p
  else
    let p := p.look sig
    if p.slist sig = IGNORE then p
    else
      let p := p.look 0
      if p.slist 0 = word SIGKILL then p
      else
        let p := p.set 0 (word sig)
        if p.pri < SIGPRI ∧ p.mode &&& AWAKE = 0 ∧ sig ≠ SIGTINT then p.run else p

/-- The `signal` system call: the disposition there was. -/
def signal (p : Proc) (sig func : UInt16) : Proc × Except Errno UInt16 :=
  if 16 ≤ sig ∨ sig = word SIGKILL ∨ sig = 0 then (p, .error .EINVAL)
  else
    let i : ℤ := sig.toNat
    let p := p.look i
    let old := p.slist i
    let func := if func = TERMIN ∧ (i = SIGTINT ∨ i = SIGBACK) then IGNORE else func
    let p := (p.set i func).look 0
    (if p.slist 0 = sig ∧ func = IGNORE then p.set 0 0 else p, .ok old)

/-- Where the process goes on: in a function of its own, or at the exit system call. -/
inductive Func
  | user (a : UInt16)
  | exit
  deriving DecidableEq

/-- `sig()`, with the function that the process is sent to. -/
def sig (p : Proc) : Proc × Option Func :=
  let p := p.look 0
  let s := char (p.slist 0)
  if s = 0 then (p, none)
  else
    let p := p.look s
    let func := p.slist s
    if func = IGNORE ∨ SIGPRI ≤ p.pri then (p, none)
    else
      let (p, func) :=
        if func = TERMIN then ({ p with status := word s }, Func.exit) else (p, .user func)
      let p := p.set 0 0
      let p := if s ≠ SIGTINT then p.set s 0 else p
      (p, some func)

/-- In `setusr`: the caught signals are no longer caught, and the one that waits is forgotten. -/
def setusr (p : Proc) : Proc :=
  { p with slist := fun i =>
      if InTable i ∧ 1 < Int.bmod (p.slist i).toNat 65536 then 0 else p.slist i }

end Proc

/-- The process table. -/
abbrev Table := ℕ → Proc

/-- `procptr(id)`. -/
def procptr (t : Table) (id : ℤ) : Option ℕ :=
  (List.range NPROC).find? fun p => ((t p).pid.toNat : ℤ) = id ∧ (t p).mode &&& ALLOC ≠ 0

/-- `killall(tty, sig)`. -/
def killall (t : Table) (tty : UInt16) (sig : ℤ) : Table := fun p =>
  if 2 ≤ p ∧ p < NPROC ∧ (t p).tty = tty then (t p).send sig else t p

/-- The `kill` system call of process `q`, whose real user id is `uid`. -/
def kill (t : Table) (q : ℕ) (uid : UInt8) (super : Bool) (pid sig : ℤ) : Table × Option Errno :=
  if pid = 0 then (killall t (t q).tty sig, none)
  else match procptr t pid with
    | some p =>
        if p ≠ q ∧ (t p).mode &&& ALIVE ≠ 0 ∧ ((t p).uid = uid ∨ super) then
          (Function.update t p ((t p).send sig), none)
        else (t, some .ESRCH)
    | none => (t, some .ESRCH)

/-- What happens to the tables: `kill` by a process; a signal from the kernel itself, whose numbers
are constants; the `signal` call; delivery; `exec`; `fork`; `wait`, which clears an entry; and any
change of the other fields. -/
inductive Label
  | kill (q : ℕ) (uid : UInt8) (super : Bool) (pid sig : ℤ)
  | send (p : ℕ) (sig : Fin 16)
  | signal (q : ℕ) (sig func : UInt16)
  | sig (q : ℕ)
  | setusr (q : ℕ)
  | copy (q c : ℕ)
  | zero (p : ℕ)
  | other (p : ℕ) (mode uid pid : UInt8) (tty event : UInt16) (pri : UInt8)

/-- The step function. -/
def step (t : Table) : Label → Option Table
  | .kill q uid super pid sig => some (kill t q uid super pid sig).1
  | .send p sig => some (Function.update t p ((t p).send sig))
  | .signal q sig func => some (Function.update t q ((t q).signal sig func).1)
  | .sig q => some (Function.update t q (t q).sig.1)
  | .setusr q => some (Function.update t q (t q).setusr)
  | .copy q c => some (Function.update t c { t q with
      slist := fun i => if InTable i then (t q).slist i else (t c).slist i, used := (t c).used })
  | .zero p => some (Function.update t p { t p with
      mode := 0, uid := 0, pid := 0, tty := 0, event := 0, pri := 0, status := 0
      slist := fun i => if InTable i then 0 else (t p).slist i })
  | .other p mode uid pid tty event pri =>
      some (Function.update t p { t p with mode, uid, pid, tty, event, pri })

/-- At boot no signal waits. -/
def Start (t : Table) : Prop := ∀ p, (t p).slist 0 = 0 ∧ (t p).used = []

/-- The processes that a call of `kill` sends the signal to. -/
def Gets (t : Table) (q : ℕ) (uid : UInt8) (super : Bool) (pid : ℤ) (p : ℕ) : Prop :=
  if pid = 0 then 2 ≤ p ∧ p < NPROC ∧ (t p).tty = (t q).tty
  else procptr t pid = some p ∧ p ≠ q ∧ (t p).mode &&& ALIVE ≠ 0 ∧ ((t p).uid = uid ∨ super)

instance (t : Table) (q : ℕ) (uid : UInt8) (super : Bool) (pid : ℤ) (p : ℕ) :
    Decidable (Gets t q uid super pid p) := by
  unfold Gets
  infer_instance

/-- The number is one of the table, or no live process is sent it. -/
def Careful (t : Table) : Label → Prop
  | .kill q uid super pid sig =>
      InTable sig ∨ ∀ p < NPROC, Gets t q uid super pid p → (t p).mode &&& ALIVE = 0
  | .send .. | .signal .. | .sig _ | .setusr _ | .copy .. | .zero _ | .other .. => True

instance (t : Table) : ∀ l, Decidable (Careful t l)
  | .kill .. => inferInstanceAs (Decidable (_ ∨ _))
  | .send .. | .signal .. | .sig _ | .setusr _ | .copy .. | .zero _ | .other .. => .isTrue trivial

/-! ## One entry -/

namespace Proc

variable {p : Proc} {n i : ℤ}

/-- All indices were in the table. -/
def Within (p : Proc) : Prop := ∀ i ∈ p.used, InTable i

/-- Besides, the signal that waits is one of the table. -/
structure Sound (p : Proc) : Prop where
  within : p.Within
  waits : (p.slist 0).toNat < 16

lemma inTable_zero : InTable 0 := by decide

@[simp] lemma within_look : (p.look i).Within ↔ InTable i ∧ p.Within := List.forall_mem_cons

@[simp] lemma within_set {v : UInt16} : (p.set i v).Within ↔ InTable i ∧ p.Within :=
  List.forall_mem_cons

@[simp] lemma within_run : p.run.Within ↔ p.Within := Iff.rfl

lemma set_ne {v : UInt16} {j : ℤ} (h : j ≠ i) : (p.set i v).slist j = p.slist j :=
  Function.update_of_ne h ..

lemma set_self (p : Proc) (i : ℤ) (v : UInt16) : (p.set i v).slist i = v :=
  Function.update_self ..

lemma ne_of_not_inTable {j : ℤ} (hi : InTable i) (hj : ¬InTable j) : j ≠ i := by
  rintro rfl
  exact hj hi

/-- **`send`** uses the number as an index just if the process lives. -/
lemma within_send : (p.send n).Within ↔ p.Within ∧ (p.mode &&& ALIVE ≠ 0 → InTable n) := by
  unfold send
  by_cases ha : p.mode &&& ALIVE = 0
  · rw [if_pos ha]
    exact ⟨fun h => ⟨h, fun hne => absurd ha hne⟩, And.left⟩
  · rw [if_neg ha]
    have hz := inTable_zero
    dsimp only
    split_ifs <;> simp [hz, ha, and_comm]

/-- Only entry 0 is written. -/
lemma send_slist (p : Proc) (n : ℤ) :
    (p.send n).slist = p.slist ∨ (p.send n).slist = Function.update p.slist 0 (word n) := by
  unfold send
  dsimp only
  split_ifs
  · exact Or.inl rfl
  · exact Or.inl rfl
  · exact Or.inl rfl
  · exact Or.inr rfl
  · exact Or.inr rfl

lemma word_toNat (h : InTable i) : (word i).toNat = i.toNat := by
  obtain ⟨h0, h1⟩ := h
  rw [NSIG] at h1
  rw [word, UInt16.toNat_ofNat_of_lt' (show _ < 65536 by omega)]
  omega

lemma Sound.send (h : p.Sound) (hs : p.mode &&& ALIVE ≠ 0 → InTable n) : (p.send n).Sound := by
  refine ⟨within_send.mpr ⟨h.within, hs⟩, ?_⟩
  by_cases ha : p.mode &&& ALIVE = 0
  · rw [Proc.send, if_pos ha]
    exact h.waits
  · have ht := hs ha
    rcases send_slist p n with e | e <;> rw [e]
    · exact h.waits
    · rw [Function.update_self, word_toNat ht]
      obtain ⟨h0, h1⟩ := ht
      rw [NSIG] at h1
      omega

/-- The number that waits, as a `char`. -/
lemma char_eq {w : UInt16} (h : w.toNat < 16) : char w = w.toNat :=
  Int.bmod_eq_of_le (by omega) (by omega)

lemma Sound.signal (h : p.Sound) (sig func : UInt16) : (p.signal sig func).1.Sound ∧
    ∀ j, ¬InTable j → (p.signal sig func).1.slist j = p.slist j := by
  unfold Proc.signal
  by_cases hbad : 16 ≤ sig ∨ sig = word SIGKILL ∨ sig = 0
  · rw [if_pos hbad]
    exact ⟨h, fun _ _ => rfl⟩
  rw [if_neg hbad]
  dsimp only
  rw [not_or, not_or, UInt16.not_le, UInt16.lt_iff_toNat_lt] at hbad
  have hlt : sig.toNat < 16 := hbad.1
  have hi : InTable (sig.toNat : ℤ) := ⟨by omega, by rw [NSIG]; omega⟩
  have hne : (0 : ℤ) ≠ sig.toNat := by
    intro e
    exact hbad.2.2 (UInt16.toNat_inj.mp (by rw [UInt16.toNat_zero]; omega))
  have hz := inTable_zero
  generalize (if func = TERMIN ∧ ((sig.toNat : ℤ) = SIGTINT ∨ (sig.toNat : ℤ) = SIGBACK) then IGNORE
    else func) = f
  have h0 : (((p.look sig.toNat).set sig.toNat f).look 0).slist 0 = p.slist 0 := set_ne hne
  have hout (j : ℤ) (hj : ¬InTable j) :
      (((p.look sig.toNat).set sig.toNat f).look 0).slist j = p.slist j :=
    set_ne (ne_of_not_inTable hi hj)
  split_ifs
  · refine ⟨⟨by simp [hz, hi, h.within], ?_⟩, fun j hj => ?_⟩
    · rw [set_self]
      decide
    · rw [set_ne (ne_of_not_inTable hz hj), hout j hj]
  · exact ⟨⟨by simp [hz, hi, h.within], by rw [h0]; exact h.waits⟩, hout⟩

lemma Sound.sig (h : p.Sound) : p.sig.1.Sound ∧
    ∀ j, ¬InTable j → p.sig.1.slist j = p.slist j := by
  have hz := inTable_zero
  unfold Proc.sig
  dsimp only
  rw [show (p.look 0).slist 0 = p.slist 0 from rfl, char_eq h.waits]
  have hs : InTable ((p.slist 0).toNat : ℤ) := ⟨by omega, by rw [NSIG]; have := h.waits; omega⟩
  generalize ((p.slist 0).toNat : ℤ) = s at hs
  by_cases h0 : s = 0
  · rw [if_pos h0]
    exact ⟨⟨within_look.mpr ⟨hz, h.within⟩, h.waits⟩, fun _ _ => rfl⟩
  rw [if_neg h0]
  set q := (p.look 0).look s with hq
  have hqw : q.Within := within_look.mpr ⟨hs, within_look.mpr ⟨hz, h.within⟩⟩
  by_cases hi : q.slist s = IGNORE ∨ SIGPRI ≤ q.pri
  · rw [if_pos hi]
    exact ⟨⟨hqw, h.waits⟩, fun _ _ => rfl⟩
  rw [if_neg hi]
  -- what is left of the entry after either branch
  have hrest (r : Proc) (hr : r.Within) (hrs : r.slist = p.slist) :
      (if s ≠ SIGTINT then (r.set 0 0).set s 0 else r.set 0 0).Sound ∧
        ∀ j, ¬InTable j → (if s ≠ SIGTINT then (r.set 0 0).set s 0 else r.set 0 0).slist j =
          p.slist j := by
    have h00 : (r.set 0 0).slist 0 = 0 := set_self ..
    split_ifs
    · refine ⟨⟨by simp [hz, hs, hr], ?_⟩, fun j hj => ?_⟩
      · rw [set_ne (Ne.symm h0), h00]
        decide
      · rw [set_ne (ne_of_not_inTable hs hj), set_ne (ne_of_not_inTable hz hj), hrs]
    · refine ⟨⟨by simp [hz, hr], by rw [h00]; decide⟩, fun j hj => ?_⟩
      rw [set_ne (ne_of_not_inTable hz hj), hrs]
  by_cases ht : q.slist s = TERMIN
  · rw [if_pos ht]
    exact hrest { q with status := word s } hqw rfl
  · rw [if_neg ht]
    exact hrest q hqw rfl

lemma Sound.setusr (h : p.Sound) : p.setusr.Sound ∧
    ∀ j, ¬InTable j → p.setusr.slist j = p.slist j := by
  refine ⟨⟨h.within, ?_⟩, fun j hj => if_neg fun hc => hj hc.1⟩
  rw [Proc.setusr]
  dsimp only
  split_ifs
  · decide
  · exact h.waits

end Proc

/-! ## The table -/

variable {t t' : Table} {q p : ℕ} {uid : UInt8} {super : Bool} {pid sig : ℤ} {l : Label}

/-- `kill` sends the signal to the processes that get it. -/
lemma kill_eq (t : Table) (q : ℕ) (uid : UInt8) (super : Bool) (pid sig : ℤ) :
    (kill t q uid super pid sig).1 = fun p =>
      if Gets t q uid super pid p then (t p).send sig else t p := by
  funext p
  unfold kill Gets
  by_cases hpid : pid = 0
  · rw [if_pos hpid]
    simp only [hpid, if_true]
    rfl
  · simp only [hpid, if_false]
    cases hk : procptr t pid with
    | none => simp
    | some r =>
        dsimp only
        by_cases hpr : r = p
        · subst hpr
          split_ifs with h1 h2 h2
          · exact Function.update_self ..
          · exact absurd ⟨rfl, h1⟩ h2
          · exact absurd h2.2 h1
          · rfl
        · simp only [Option.some.injEq, hpr, false_and, if_false]
          split_ifs
          · exact Function.update_of_ne (Ne.symm hpr) ..
          · rfl

lemma Gets.lt (h : Gets t q uid super pid p) : p < NPROC := by
  rw [Gets] at h
  split_ifs at h
  · exact h.2.1
  · have := List.mem_of_find?_eq_some h.1
    exact List.mem_range.mp this

/-- A change of one entry. -/
lemma update_forall {P : Proc → Prop} (h : ∀ p, P (t p)) {e : Proc} (he : P e) (p : ℕ) :
    P (Function.update t q e p) := by
  by_cases hp : p = q
  · rw [hp, Function.update_self]
    exact he
  · rw [Function.update_of_ne hp]
    exact h p

lemma update_slist {e : Proc} {j : ℤ} (he : e.slist j = (t q).slist j) (p : ℕ) :
    (Function.update t q e p).slist j = (t p).slist j := by
  by_cases hp : p = q
  · rw [hp, Function.update_self, he]
  · rw [Function.update_of_ne hp]

/-- **The step lemma.** -/
lemma step_sound (h : ∀ p, (t p).Sound) (hc : Careful t l) (he : step t l = some t') :
    (∀ p, (t' p).Sound) ∧ ∀ p j, ¬InTable j → (t' p).slist j = (t p).slist j := by
  have hz := Proc.inTable_zero
  have hsend (e : Proc) (n j : ℤ) (hj : ¬InTable j) : (e.send n).slist j = e.slist j := by
    rcases Proc.send_slist e n with hs | hs <;> rw [hs]
    exact Function.update_of_ne (Proc.ne_of_not_inTable hz hj) ..
  cases l with
  | kill q uid super pid sig =>
      obtain rfl := Option.some.inj he
      rw [kill_eq]
      refine ⟨fun p => ?_, fun p j hj => ?_⟩
      · dsimp only
        split_ifs with hg
        · exact (h p).send fun ha => hc.resolve_right fun hall => ha (hall p hg.lt hg)
        · exact h p
      · dsimp only
        split_ifs
        · exact hsend _ _ _ hj
        · rfl
  | send p sig =>
      obtain rfl := Option.some.inj he
      have hs : InTable (sig : ℤ) := ⟨by omega, by rw [NSIG]; omega⟩
      exact ⟨update_forall h ((h p).send fun _ => hs), fun r j hj =>
        update_slist (hsend _ _ _ hj) r⟩
  | signal q sig func =>
      obtain rfl := Option.some.inj he
      obtain ⟨h1, h2⟩ := (h q).signal sig func
      exact ⟨update_forall h h1, fun r j hj => update_slist (h2 j hj) r⟩
  | sig q =>
      obtain rfl := Option.some.inj he
      obtain ⟨h1, h2⟩ := (h q).sig
      exact ⟨update_forall h h1, fun r j hj => update_slist (h2 j hj) r⟩
  | setusr q =>
      obtain rfl := Option.some.inj he
      obtain ⟨h1, h2⟩ := (h q).setusr
      exact ⟨update_forall h h1, fun r j hj => update_slist (h2 j hj) r⟩
  | copy q c =>
      obtain rfl := Option.some.inj he
      exact ⟨update_forall h ⟨(h c).within, by dsimp only; rw [if_pos hz]; exact (h q).waits⟩,
        fun r j hj => update_slist (if_neg hj) r⟩
  | zero p =>
      obtain rfl := Option.some.inj he
      exact ⟨update_forall h ⟨(h p).within, by dsimp only; rw [if_pos hz]; decide⟩,
        fun r j hj => update_slist (if_neg hj) r⟩
  | other p mode uid pid tty event pri =>
      obtain rfl := Option.some.inj he
      exact ⟨update_forall h ⟨(h p).within, (h p).waits⟩,
        fun r j _ => update_slist (e := { t p with mode, uid, pid, tty, event, pri }) rfl r⟩

/-- A call that does not meet the condition uses the number as an index. -/
lemma careful_of_within (he : step t l = some t') (h : ∀ p, (t' p).Within) : Careful t l := by
  cases l with
  | kill q uid super pid sig =>
      obtain rfl := Option.some.inj he
      rw [kill_eq] at h
      by_cases hg : ∃ p < NPROC, Gets t q uid super pid p ∧ (t p).mode &&& ALIVE ≠ 0
      · obtain ⟨p, hp, hg, ha⟩ := hg
        have hw := h p
        dsimp only at hw
        rw [if_pos hg, Proc.within_send] at hw
        exact Or.inl (hw.2 ha)
      · exact Or.inr fun p hp hgp => by_contra fun ha => hg ⟨p, hp, hgp, ha⟩
  | _ => trivial

lemma Start.sound (h : Start t) (p : ℕ) : (t p).Sound := by
  obtain ⟨h0, hu⟩ := h p
  refine ⟨fun i hi => ?_, by rw [h0]; decide⟩
  rw [hu] at hi
  cases hi

/-- **Indices.**  In a run whose calls of `kill` meet the condition every index is within the table
and no word outside of the tables changes; and any call that does not meet it uses one that is
not. -/
theorem kill_in_table (h : Transition.Reach step Start Careful t) :
    (∀ p, ∀ i ∈ (t p).used, InTable i) ∧
      ∀ l t', step t l = some t' →
        ((∀ p, ∀ i ∈ (t' p).used, InTable i) ↔ Careful t l) ∧
        (Careful t l → ∀ p j, ¬InTable j → (t' p).slist j = (t p).slist j) := by
  have hs : ∀ p, (t p).Sound :=
    h.invariant (fun _ hs => hs.sound) fun _ _ _ hs hc he => (step_sound hs hc he).1
  refine ⟨fun p => (hs p).within, fun l t' he =>
    ⟨⟨careful_of_within he, fun hc p => ?_⟩, fun hc => ?_⟩⟩
  · exact ((step_sound hs hc he).1 p).within
  · exact (step_sound hs hc he).2

/-- At boot, with two processes of user 5, and a word 0x1234 at the index 100 of the second one. -/
def boot : Table := fun p =>
  { mode := ALLOC ||| ALIVE ||| AWAKE, uid := 5, pid := UInt8.ofNat p, tty := 0, event := 0
    pri := 40, status := 0, slist := fun i => if p = 4 ∧ i = 100 then 0x1234 else 0, used := [] }

lemma start_boot : Start boot := fun _ => ⟨by simp [boot], rfl⟩

/-- Process 3 sends `SIGINT` to process 4, which gets it. -/
theorem kill_in_table_sigint : ∃ t, Transition.Reach step Start Careful t ∧ (t 4).used ≠ [] ∧
    ∀ i ∈ (t 4).used, InTable i := by
  obtain ⟨t, ht, hu⟩ : ∃ t, Transition.run step Careful boot [.kill 3 5 false 4 SIGINT, .sig 4] =
      some t ∧ (t 4).used ≠ [] := by
    refine ⟨_, rfl, ?_⟩
    decide +kernel
  have hr : Transition.Reach step Start Careful t := .of_run start_boot ht
  exact ⟨t, hr, hu, (kill_in_table hr).1 4⟩

/-- Process 3 sends signal 100 to process 4 of the same user; `sig` clears the word there. -/
theorem kill_writes_outside : ∃ t, Transition.Reachable step Start t ∧
    (∃ i ∈ (t 4).used, ¬InTable i) ∧ (boot 4).slist 100 = 0x1234 ∧ (t 4).slist 100 = 0 := by
  obtain ⟨t, ht, hu⟩ : ∃ t, Transition.run step (fun _ _ => True) boot
      [.kill 3 5 false 4 100, .sig 4] = some t ∧
      (∃ i ∈ (t 4).used, ¬InTable i) ∧ (boot 4).slist 100 = 0x1234 ∧ (t 4).slist 100 = 0 := by
    refine ⟨_, rfl, ?_⟩
    decide +kernel
  exact ⟨t, .of_run start_boot ht, hu⟩

end Slist

end Micronix
