import Micronix.Proc.Table

/-!
# Process numbers

`newpid` counts up to 30000 and passes over the numbers that `procptr` finds, but `p->pid` is a byte.
As long as the number that it comes to is below 256 the ids of the processes are distinct; from 256 on
the byte that is stored is 0 or may be another process' id.
-/

namespace Micronix

namespace Procs

open Transition

namespace Table

/-! ## What `procptr` and `newpid` find -/

/-- Some process has this id. -/
def InUse (t : Table) (id : ℕ) : Prop :=
  ∃ p < nproc, (t.plist p).mode.alloc = true ∧ (t.plist p).pid.toNat = id

variable {t t' : Table} {p q c id : ℕ}

lemma procptr_isNone : (t.procptr id).isNone = true ↔ ¬t.InUse id := by
  simp only [procptr, Option.isNone_iff_eq_none, List.find?_eq_none, List.mem_range, InUse,
    Bool.and_eq_true, beq_iff_eq]
  constructor
  · rintro h ⟨p, hp, ha, he⟩
    exact h p hp ⟨he, ha⟩
  · rintro h p hp ⟨he, ha⟩
    exact h ⟨p, hp, ha, he⟩

lemma InUse.lt (h : t.InUse id) : id < 256 := by
  obtain ⟨p, -, -, rfl⟩ := h
  exact (t.plist p).pid.toNat_lt

/-- The loop of `newpid` comes to the first number that is not in use. -/
lemma newpidFrom_spec {fuel pid : ℕ} (h1 : 1 ≤ pid) (hle : pid ≤ 30000) (hf : 256 - pid < fuel) :
    ¬t.InUse (t.newpidFrom fuel pid).1 ∧ pid ≤ (t.newpidFrom fuel pid).1 ∧
      (∀ k, pid ≤ k → k < (t.newpidFrom fuel pid).1 → t.InUse k) ∧
      1 ≤ (t.newpidFrom fuel pid).2 ∧ (t.newpidFrom fuel pid).2 ≤ 30000 := by
  induction fuel generalizing pid with
  | zero => omega
  | succ fuel ih =>
      rw [newpidFrom]
      by_cases hn : (t.procptr pid).isNone
      · simp only [hn, if_true]
        refine ⟨procptr_isNone.mp hn, le_rfl, fun k hk hlt => by omega, ?_, ?_⟩ <;> split_ifs <;> omega
      · have huse : t.InUse pid := by
          by_contra hc
          exact hn (procptr_isNone.mpr hc)
        have hlt := huse.lt
        simp only [hn, Bool.false_eq_true, if_false, if_neg (show ¬pid + 1 > 30000 by omega)]
        obtain ⟨h3, h4, h5, h6⟩ := @ih (pid + 1) (by omega) (by omega) (by omega)
        refine ⟨h3, by omega, ?_, h6⟩
        intro k hk hkn
        rcases Nat.eq_or_lt_of_le hk with rfl | hk
        · exact huse
        · exact h5 k hk hkn

/-- The number that `newpid` returns, seen from its counter. -/
lemma newpid_spec (h1 : 1 ≤ t.pid) (hle : t.pid ≤ 30000) :
    ¬t.InUse t.newpid.1 ∧ t.pid ≤ t.newpid.1 ∧ (∀ k, t.pid ≤ k → k < t.newpid.1 → t.InUse k) ∧
      1 ≤ t.newpid.2 ∧ t.newpid.2 ≤ 30000 :=
  newpidFrom_spec h1 hle (by omega)

/-! ## The invariant -/

/-- The ids of the processes are distinct, and 0 for the swapper only. -/
def Distinct (t : Table) : Prop :=
  (∀ p < nproc, ∀ q < nproc, (t.plist p).mode.alloc = true → (t.plist q).mode.alloc = true →
    (t.plist p).pid = (t.plist q).pid → p = q) ∧
  ∀ p < nproc, (t.plist p).mode.alloc = true → ((t.plist p).pid = 0 ↔ p = swapproc)

/-- With it goes that the swapper is there and has no parent, and where the counter is. -/
structure Sound (t : Table) : Prop where
  distinct : t.Distinct
  swapper : (t.plist swapproc).mode.alloc = true ∧ (t.plist swapproc).parent = none
  counter : 1 ≤ t.pid ∧ t.pid ≤ 30000

/-- In distinct ids `procptr` finds every process. -/
lemma Distinct.procptr (h : t.Distinct) (hp : p < nproc) (ha : (t.plist p).mode.alloc = true) :
    t.procptr (t.procid p) = some p := by
  cases hf : t.procptr (t.procid p) with
  | none =>
      have hn := procptr_isNone.mp (Option.isNone_iff_eq_none.mpr hf)
      exact absurd ⟨p, hp, ha, rfl⟩ hn
  | some q =>
      have hq := List.find?_some hf
      have hmem := List.mem_of_find?_eq_some hf
      simp only [Bool.and_eq_true, beq_iff_eq] at hq
      rw [List.mem_range] at hmem
      have heq : (t.plist q).pid = (t.plist p).pid := UInt8.toNat_inj.mp hq.1
      rw [h.1 q hmem p hp hq.2 ha heq]

/-- An entry keeps its process, if not its parent, or it is freed. -/
def Keeps (e e' : Entry) : Prop :=
  e' = .zero ∧ e.parent ≠ none ∨ e'.pid = e.pid ∧ e'.mode.alloc = e.mode.alloc ∧
    (e.parent = none → e'.parent = none)

lemma Keeps.refl (e : Entry) : Keeps e e := Or.inr ⟨rfl, rfl, id⟩

/-- Where entries are kept or freed the ids stay distinct. -/
lemma Sound.keeps (h : t.Sound) (hk : ∀ p, Keeps (t.plist p) (t'.plist p)) (hc : t'.pid = t.pid) :
    t'.Sound := by
  have hback : ∀ p, (t'.plist p).mode.alloc = true →
      (t'.plist p).pid = (t.plist p).pid ∧ (t.plist p).mode.alloc = true := by
    intro p ha
    rcases hk p with ⟨h0, -⟩ | ⟨h1, h2, -⟩
    · rw [h0] at ha
      exact absurd ha (by decide)
    · exact ⟨h1, h2 ▸ ha⟩
  refine ⟨⟨?_, ?_⟩, ?_, hc ▸ h.counter⟩
  · intro p hp q hq hap haq he
    obtain ⟨h1, h2⟩ := hback p hap
    obtain ⟨h3, h4⟩ := hback q haq
    exact h.distinct.1 p hp q hq h2 h4 (h1 ▸ h3 ▸ he)
  · intro p hp hap
    obtain ⟨h1, h2⟩ := hback p hap
    rw [h1]
    exact h.distinct.2 p hp h2
  · rcases hk swapproc with ⟨-, h0⟩ | ⟨-, h2, h3⟩
    · exact absurd h.swapper.2 h0
    · exact ⟨h2.trans h.swapper.1, h3 h.swapper.2⟩

/-! ## `exit` and `wait` -/

/-- No id, no `ALLOC` bit and no parent changes. -/
def SameIds (t t' : Table) : Prop :=
  t'.pid = t.pid ∧ ∀ p, (t'.plist p).pid = (t.plist p).pid ∧
    (t'.plist p).mode.alloc = (t.plist p).mode.alloc ∧ (t'.plist p).parent = (t.plist p).parent

lemma SameIds.refl (t : Table) : SameIds t t := ⟨rfl, fun _ => ⟨rfl, rfl, rfl⟩⟩

lemma SameIds.trans {t'' : Table} (h : SameIds t t') (h' : SameIds t' t'') : SameIds t t'' :=
  ⟨h'.1.trans h.1, fun p => ⟨(h'.2 p).1.trans (h.2 p).1, (h'.2 p).2.1.trans (h.2 p).2.1,
    (h'.2 p).2.2.trans (h.2 p).2.2⟩⟩

lemma sameIds_modify {f : Entry → Entry} (hf : ∀ e, (f e).pid = e.pid ∧
    (f e).mode.alloc = e.mode.alloc ∧ (f e).parent = e.parent) (t : Table) (p : ℕ) :
    SameIds t (t.modify p f) := by
  refine ⟨rfl, fun q => ?_⟩
  by_cases hq : q = p
  · subst hq
    simpa [modify, set] using hf (t.plist q)
  · simp [modify, set, Function.update_of_ne hq]

lemma sameIds_run (t : Table) (p : ℕ) : SameIds t (t.run p) := by
  unfold run
  dsimp only
  split_ifs
  · exact sameIds_modify (f := .rouse) (fun _ => ⟨rfl, rfl, rfl⟩) t p
  · exact (sameIds_modify (f := .rouse) (fun _ => ⟨rfl, rfl, rfl⟩) t p).trans
      (sameIds_modify (f := .rouse) (fun _ => ⟨rfl, rfl, rfl⟩) _ _)

lemma sameIds_wakeup (t : Table) (e : Chan) : SameIds t (t.wakeup e) := by
  unfold wakeup
  generalize List.range nproc = L
  induction L generalizing t with
  | nil => exact .refl t
  | cons p L ih =>
      rw [List.foldl_cons]
      split_ifs
      · exact (sameIds_run t p).trans (ih _)
      · exact ih t

lemma SameIds.keeps (h : SameIds t t') (p : ℕ) : Keeps (t.plist p) (t'.plist p) :=
  Or.inr ⟨(h.2 p).1, (h.2 p).2.1, fun h0 => (h.2 p).2.2.trans h0⟩

lemma Sound.sameIds (h : t.Sound) (hs : SameIds t t') : t'.Sound := h.keeps hs.keeps hs.1

lemma Sound.disown (h : t.Sound) (x : ℕ) : (t.disown x).Sound := by
  refine h.keeps (fun q => ?_) rfl
  simp only [Table.disown]
  split_ifs with hq ha
  · refine Or.inr ⟨rfl, rfl, fun h0 => ?_⟩
    rw [hq.2] at h0
    exact absurd h0 (by simp)
  · exact Or.inl ⟨rfl, by simp [hq.2]⟩
  · exact .refl _

/-- `exit` -/
lemma Sound.quit (h : t.Sound) (x : ℕ) : (t.quit x).Sound := by
  unfold Table.quit
  dsimp only
  have hd := (h.disown x).sameIds (sameIds_modify (f := .die) (fun _ => ⟨rfl, rfl, rfl⟩) _ x)
  split
  · exact hd.sameIds (sameIds_wakeup _ _)
  · exact hd.sameIds (sameIds_wakeup _ _)

/-- `wait`, when it finds a dead child. -/
lemma Sound.reap {x : ℕ} (h : t.Sound) (hz : t.zombie x = some q) : (t.set q .zero).Sound := by
  have hf := List.find?_some hz
  simp only [Bool.and_eq_true, decide_eq_true_eq] at hf
  refine h.keeps (fun p => ?_) rfl
  by_cases hp : p = q
  · subst hp
    exact Or.inl ⟨by simp [set], by simp [hf.1]⟩
  · simp only [set, Function.update_of_ne hp]
    exact .refl _

/-! ## `fork` -/

/-- The condition: the counter is below 256 and a number from there to 255 is not in use, or the low
byte of the counter is not 0 and is not in use. -/
def Fine (t : Table) : Prop :=
  t.pid < 256 ∧ (∃ n < 256, t.pid ≤ n ∧ (t.procptr n).isNone = true) ∨
    256 ≤ t.pid ∧ t.pid % 256 ≠ 0 ∧ (t.procptr (t.pid % 256)).isNone = true

instance (t : Table) : Decidable t.Fine := inferInstanceAs (Decidable (_ ∨ _))

/-- It says that the low byte of the number is neither 0 nor in use. -/
lemma fine_iff (h : t.Sound) :
    t.Fine ↔ t.newpid.1 % 256 ≠ 0 ∧ ¬t.InUse (t.newpid.1 % 256) := by
  obtain ⟨hnot, hle, hfirst, -⟩ := newpid_spec h.counter.1 h.counter.2
  have hpos := h.counter.1
  simp only [Fine, procptr_isNone]
  constructor
  · rintro (⟨hlt, n, hn, hpn, hfree⟩ | ⟨hge, h0, hfree⟩)
    · -- the number is at most `n`
      have hle' : t.newpid.1 ≤ n := by
        by_contra hc
        exact hfree (hfirst n hpn (by omega))
      rw [Nat.mod_eq_of_lt (by omega)]
      exact ⟨by omega, hnot⟩
    · -- the counter itself is not in use
      have heq : t.newpid.1 = t.pid := by
        by_contra hc
        have := (hfirst t.pid le_rfl (by omega)).lt
        omega
      rw [heq]
      exact ⟨h0, hfree⟩
  · rintro ⟨h0, hfree⟩
    rcases lt_or_ge t.pid 256 with hlt | hge
    · have hn : t.newpid.1 < 256 := by
        by_contra hc
        -- all numbers up to 255 are in use, so the number is 256
        have h256 : t.newpid.1 = 256 := by
          by_contra hne
          have := (hfirst 256 (by omega) (by omega)).lt
          omega
        exact h0 (by rw [h256])
      exact Or.inl ⟨hlt, t.newpid.1, hn, hle, hnot⟩
    · have heq : t.newpid.1 = t.pid := by
        by_contra hc
        have := (hfirst t.pid le_rfl (by omega)).lt
        omega
      rw [heq] at h0 hfree
      exact Or.inr ⟨hge, h0, hfree⟩

lemma newpidFrom_congr (h : ∀ id, (t'.procptr id).isNone = (t.procptr id).isNone) :
    ∀ fuel pid, t'.newpidFrom fuel pid = t.newpidFrom fuel pid
  | 0, _ => rfl
  | fuel + 1, pid => by
      simp only [newpidFrom, h, newpidFrom_congr h fuel]

/-- The free slot is no process. -/
lemma slot_spec (hc : t.slot = some c) : c < nproc ∧ (t.plist c).mode.alloc = false := by
  have hf := List.find?_some hc
  have hm := List.mem_of_find?_eq_some hc
  exact ⟨List.mem_range.mp hm, by simpa using hf⟩

section Spawn

variable {x m : ℕ}

/-- What `spawn` leaves behind: the copy has the byte of the number. -/
lemma spawn_spec (hx : x < nproc) (ha : (t.plist x).mode.alloc = true)
    (hc : c < nproc ∧ (t.plist c).mode.alloc = false) :
    (t.spawn x c m).pid = t.newpid.2 ∧
      ((t.spawn x c m).plist c).pid = UInt8.ofNat t.newpid.1 ∧
      ((t.spawn x c m).plist c).mode = (t.plist x).mode ∧
      ∀ p ≠ c, ((t.spawn x c m).plist p).pid = (t.plist p).pid ∧
        ((t.spawn x c m).plist p).mode.alloc = (t.plist p).mode.alloc ∧
        ((t.spawn x c m).plist p).parent = (t.plist p).parent := by
  have hxc : x ≠ c := by
    rintro rfl
    rw [ha] at hc
    exact absurd hc.2 (by simp)
  set t₁ := t.modify x fun e => { e with frame := m } with ht₁
  set t₂ := t₁.set c { t₁.plist x with time := 0, parent := some x } with ht₂
  have hp₁ : ∀ p, (t₁.plist p).pid = (t.plist p).pid ∧
      (t₁.plist p).mode = (t.plist p).mode ∧ (t₁.plist p).parent = (t.plist p).parent := by
    intro p
    by_cases hp : p = x
    · subst hp
      simp [ht₁, modify, set]
    · simp [ht₁, modify, set, Function.update_of_ne hp]
  have hself : t₂.plist c = { t₁.plist x with time := 0, parent := some x } := by
    simp [ht₂, set]
  have hother : ∀ p ≠ c, t₂.plist p = t₁.plist p := fun p hp => by
    simp [ht₂, set, Function.update_of_ne hp]
  have huse : ∀ id, t₂.InUse id ↔ t.InUse id := by
    intro id
    constructor
    · rintro ⟨p, hp, hpa, hid⟩
      by_cases hpc : p = c
      · subst hpc
        rw [hself] at hid
        exact ⟨x, hx, ha, by rw [← (hp₁ x).1]; exact hid⟩
      · rw [hother p hpc, (hp₁ p).2.1] at hpa
        rw [hother p hpc, (hp₁ p).1] at hid
        exact ⟨p, hp, hpa, hid⟩
    · rintro ⟨p, hp, hpa, hid⟩
      have hpc : p ≠ c := by
        rintro rfl
        rw [hc.2] at hpa
        exact absurd hpa (by simp)
      refine ⟨p, hp, ?_, ?_⟩
      · rw [hother p hpc, (hp₁ p).2.1, hpa]
      · rw [hother p hpc, (hp₁ p).1, hid]
  have hnew : t₂.newpid = t.newpid := by
    have hcongr : ∀ id, (t₂.procptr id).isNone = (t.procptr id).isNone := fun id => by
      rw [Bool.eq_iff_iff, procptr_isNone, procptr_isNone, huse]
    exact newpidFrom_congr hcongr _ _
  have hspawn : t.spawn x c m =
      { t₂.modify c fun e => { e with pid := UInt8.ofNat t.newpid.1 } with
        pid := t.newpid.2 } := by
    rw [← hnew]
    rfl
  rw [hspawn]
  refine ⟨rfl, ?_, ?_, ?_⟩
  · simp [modify, set]
  · simp only [modify, set, Function.update_self, hself]
    exact (hp₁ x).2.1
  · intro p hp
    simp only [modify, set, Function.update_of_ne hp, hother p hp]
    exact ⟨(hp₁ p).1, by rw [(hp₁ p).2.1], (hp₁ p).2.2⟩

variable (h : t.Sound) (hx : x < nproc) (ha : (t.plist x).mode.alloc = true)
  (hc : t.slot = some c)

include h hx ha hc

/-- **`fork`** keeps the ids distinct if and only if the condition holds. -/
lemma distinct_spawn_iff : (t.spawn x c m).Distinct ↔ t.Fine := by
  obtain ⟨hcn, hca⟩ := slot_spec hc
  obtain ⟨-, hpid, hmode, hother⟩ := spawn_spec (m := m) hx ha ⟨hcn, hca⟩
  have hc0 : c ≠ swapproc := by
    rintro rfl
    rw [h.swapper.1] at hca
    exact absurd hca (by simp)
  have halloc : ((t.spawn x c m).plist c).mode.alloc = true := by rw [hmode, ha]
  have hbyte : (UInt8.ofNat t.newpid.1).toNat = t.newpid.1 % 256 := UInt8.toNat_ofNat'
  rw [fine_iff h]
  constructor
  · rintro ⟨hdist, hzero⟩
    refine ⟨?_, ?_⟩
    · intro h0
      have hz : ((t.spawn x c m).plist c).pid = 0 := by
        rw [hpid, ← UInt8.toNat_inj, hbyte, h0]
        rfl
      exact hc0 ((hzero c hcn halloc).mp hz)
    · rintro ⟨p, hp, hpa, hid⟩
      have hpc : p ≠ c := by
        rintro rfl
        rw [hca] at hpa
        exact absurd hpa (by simp)
      obtain ⟨h1, h2, -⟩ := hother p hpc
      refine hpc (hdist p hp c hcn (h2.trans hpa) halloc ?_)
      rw [h1, hpid, ← UInt8.toNat_inj, hbyte, hid]
  · rintro ⟨h0, hfree⟩
    have hnot : ∀ p < nproc, p ≠ c → ((t.spawn x c m).plist p).mode.alloc = true →
        ((t.spawn x c m).plist p).pid ≠ ((t.spawn x c m).plist c).pid := by
      intro p hp hpc hpa he
      obtain ⟨h1, h2, -⟩ := hother p hpc
      refine hfree ⟨p, hp, h2 ▸ hpa, ?_⟩
      rw [← h1, he, hpid, hbyte]
    refine ⟨?_, ?_⟩
    · intro p hp q hq hpa hqa he
      by_cases hpc : p = c
      · by_cases hqc : q = c
        · rw [hpc, hqc]
        · exact absurd (hpc ▸ he.symm) (hnot q hq hqc hqa)
      · by_cases hqc : q = c
        · exact absurd (hqc ▸ he) (hnot p hp hpc hpa)
        · obtain ⟨h1, h2, -⟩ := hother p hpc
          obtain ⟨h3, h4, -⟩ := hother q hqc
          exact h.distinct.1 p hp q hq (h2 ▸ hpa) (h4 ▸ hqa) (h1 ▸ h3 ▸ he)
    · intro p hp hpa
      by_cases hpc : p = c
      · subst hpc
        refine iff_of_false ?_ hc0
        rw [hpid, ← UInt8.toNat_inj, hbyte]
        exact h0
      · obtain ⟨h1, h2, -⟩ := hother p hpc
        rw [h1]
        exact h.distinct.2 p hp (h2 ▸ hpa)

end Spawn

/-- A `fork` that meets the condition. -/
lemma Sound.spawn {x m : ℕ} (h : t.Sound) (hx : x < nproc)
    (ha : (t.plist x).mode.alloc = true) (hc : t.slot = some c) (hf : t.Fine) :
    (t.spawn x c m).Sound := by
  obtain ⟨hcn, hca⟩ := slot_spec hc
  obtain ⟨hpid, -, -, hother⟩ := spawn_spec (m := m) hx ha ⟨hcn, hca⟩
  have hc0 : swapproc ≠ c := by
    rintro rfl
    rw [h.swapper.1] at hca
    exact absurd hca (by simp)
  obtain ⟨-, h2, h3⟩ := hother swapproc hc0
  refine ⟨(distinct_spawn_iff h hx ha hc).mpr hf, ⟨h2.trans h.swapper.1, h3.trans h.swapper.2⟩, ?_⟩
  rw [hpid]
  exact (newpid_spec h.counter.1 h.counter.2).2.2.2

/-- A `fork` that fails leaves the table, but for the counter, as it was. -/
lemma unspawn_eq {x m : ℕ} (hx : x < nproc) (ha : (t.plist x).mode.alloc = true)
    (hc : t.slot = some c) (hf : (t.plist x).frame = m) (hz : t.plist c = .zero) :
    (t.spawn x c m).set c .zero = { t with pid := t.newpid.2 } := by
  refine Table.ext ?_ (spawn_spec (m := m) hx ha (slot_spec hc)).1 rfl
  funext p
  by_cases hp : p = c
  · subst hp
    simp [set, hz]
  · by_cases hpx : p = x
    · subst hpx
      simp [spawn, set, modify, Function.update_of_ne hp, ← hf]
    · simp [spawn, set, modify, Function.update_of_ne hp, Function.update_of_ne hpx]

/-- A `fork` that fails zeroes the slot again. -/
lemma Sound.unspawn {x m : ℕ} (h : t.Sound) (hx : x < nproc)
    (ha : (t.plist x).mode.alloc = true) (hc : t.slot = some c) :
    ((t.spawn x c m).set c .zero).Sound := by
  obtain ⟨hcn, hca⟩ := slot_spec hc
  obtain ⟨hpid, -, -, hother⟩ := spawn_spec (m := m) hx ha ⟨hcn, hca⟩
  have hcount := (newpid_spec h.counter.1 h.counter.2).2.2.2
  have hback : ∀ p, (((t.spawn x c m).set c .zero).plist p).mode.alloc = true →
      (((t.spawn x c m).set c .zero).plist p).pid = (t.plist p).pid ∧
        (t.plist p).mode.alloc = true := by
    intro p hpa
    by_cases hp : p = c
    · subst hp
      simp [set, Entry.zero] at hpa
    · obtain ⟨h1, h2, -⟩ := hother p hp
      simp only [set, Function.update_of_ne hp] at hpa ⊢
      exact ⟨h1, h2 ▸ hpa⟩
  have hc0 : swapproc ≠ c := by
    rintro rfl
    rw [h.swapper.1] at hca
    exact absurd hca (by simp)
  obtain ⟨-, h2, h3⟩ := hother swapproc hc0
  refine ⟨⟨?_, ?_⟩, ?_, ?_⟩
  · intro p hp q hq hpa hqa he
    obtain ⟨h4, h5⟩ := hback p hpa
    obtain ⟨h6, h7⟩ := hback q hqa
    exact h.distinct.1 p hp q hq h5 h7 (h4 ▸ h6 ▸ he)
  · intro p hp hpa
    obtain ⟨h4, h5⟩ := hback p hpa
    rw [h4]
    exact h.distinct.2 p hp h5
  · simp only [set, Function.update_of_ne hc0]
    exact ⟨h2.trans h.swapper.1, h3.trans h.swapper.2⟩
  · show 1 ≤ (t.spawn x c m).pid ∧ (t.spawn x c m).pid ≤ 30000
    rw [hpid]
    exact hcount

end Table

/-! ## Runs -/

/-- What `fork` returns when its `procopy` returns `r`: 1 in the parent, and 0, from `next`, in the
child. -/
def forkReturn (t : Table) (child r : ℕ) : ℕ := if r ≠ 0 then t.procid child else 0

/-- A `fork` for which there is room or not, an `exit`, a `wait`. -/
inductive Call
  | fork (frame : ℕ) (room : Bool)
  | exit
  | wait

/-- A call of process `x`. -/
def step (t : Table) : ℕ × Call → Option Table
  | (x, c) =>
      if x < nproc ∧ (t.plist x).mode.alloc = true ∧ (t.plist x).mode.alive = true then
        match c with
        | .fork frame room =>
            match t.slot with
            | none => some t
            | some child =>
                if room then some (t.spawn x child frame)
                else some ((t.spawn x child frame).set child .zero)
        | .exit => some (t.quit x)
        | .wait =>
            match t.zombie x with
            | none => some t
            | some q => some (t.set q .zero)
      else none

/-- After `pinit`: there is the swapper. -/
def Start (t : Table) : Prop :=
  t.pid = 1 ∧ t.plist = Function.update (fun _ => Entry.zero) Table.swapproc
    { Entry.zero with mode := ⟨true, true, true, true, false, true, true, false⟩, nsegs := 17 }

/-- A `fork` that makes a child meets the condition. -/
def Meets (t : Table) : ℕ × Call → Prop
  | (_, .fork _ room) => room = true → t.Fine
  | _ => True

lemma Start.sound {t : Table} (h : Start t) : t.Sound := by
  obtain ⟨h1, h2⟩ := h
  have hne : ∀ p, (t.plist p).mode.alloc = true → p = Table.swapproc := by
    intro p ha
    by_contra hp
    rw [h2, Function.update_of_ne hp] at ha
    exact absurd ha (by decide)
  refine ⟨⟨?_, ?_⟩, ?_, by omega⟩
  · intro p _ q _ hpa hqa _
    rw [hne p hpa, hne q hqa]
  · intro p _ hpa
    have hp := hne p hpa
    refine iff_of_true ?_ hp
    rw [h2, hp, Function.update_self]
    rfl
  · rw [h2, Function.update_self]
    exact ⟨rfl, rfl⟩

/-- **One call.** -/
lemma sound_step {t t' : Table} {l : ℕ × Call} (h : t.Sound) (hm : Meets t l)
    (hs : step t l = some t') : t'.Sound := by
  obtain ⟨x, c⟩ := l
  simp only [step] at hs
  split_ifs at hs with hx
  cases c with
  | fork frame room =>
      cases hslot : t.slot with
      | none =>
          rw [hslot] at hs
          cases hs
          exact h
      | some child =>
          rw [hslot] at hs
          cases room with
          | true =>
              cases hs
              exact h.spawn hx.1 hx.2.1 hslot (hm rfl)
          | false =>
              cases hs
              exact h.unspawn hx.1 hx.2.1 hslot
  | exit =>
      cases hs
      exact h.quit x
  | wait =>
      cases hz : t.zombie x with
      | none =>
          rw [hz] at hs
          cases hs
          exact h
      | some q =>
          rw [hz] at hs
          cases hs
          exact h.reap hz

/-- **Process numbers.**  In every run whose forks meet the condition the ids of the processes are
distinct, 0 for the swapper only, and `procptr` finds each process by its id.  A further `fork` keeps
it so, returns to the parent the id by which `procptr` finds the child, not 0, and 0 to the child, if
and only if it meets the condition. -/
theorem pids {t : Table} (h : Reach step Start Meets t) :
    (t.Distinct ∧ ∀ p < nproc, (t.plist p).mode.alloc = true →
      t.procptr (t.procid p) = some p) ∧
    ∀ x c frame, x < nproc → (t.plist x).mode.alloc = true → t.slot = some c →
      (((t.spawn x c frame).Distinct ∧
        (t.spawn x c frame).procptr (forkReturn (t.spawn x c frame) c 1) = some c ∧
        forkReturn (t.spawn x c frame) c 1 ≠ 0 ∧ forkReturn (t.spawn x c frame) c 0 = 0) ↔
          t.Fine) := by
  have hs : t.Sound := h.invariant (fun _ => Start.sound) fun _ _ _ => sound_step
  refine ⟨⟨hs.distinct, fun p hp => hs.distinct.procptr hp⟩, ?_⟩
  intro x c frame hx ha hc
  have hiff := Table.distinct_spawn_iff (m := frame) hs hx ha hc
  refine ⟨fun hall => hiff.mp hall.1, fun hf => ?_⟩
  have hd := hiff.mpr hf
  obtain ⟨hcn, hca⟩ := Table.slot_spec hc
  obtain ⟨-, -, hmode, -⟩ := Table.spawn_spec (m := frame) hx ha ⟨hcn, hca⟩
  have halloc : ((t.spawn x c frame).plist c).mode.alloc = true := by rw [hmode, ha]
  have hret : forkReturn (t.spawn x c frame) c 1 = (t.spawn x c frame).procid c := if_pos (by simp)
  refine ⟨hd, ?_, ?_, rfl⟩
  · rw [hret]
    exact hd.procptr hcn halloc
  · rw [hret]
    intro h0
    have hz : ((t.spawn x c frame).plist c).pid = 0 := UInt8.toNat_inj.mp h0
    have hcs := (hd.2 c hcn halloc).mp hz
    rw [hcs, hs.swapper.1] at hca
    exact absurd hca (by simp)

/-! ## The counter at 256 -/

/-- After `pinit`. -/
def boot : Table :=
  ⟨Function.update (fun _ => Entry.zero) Table.swapproc
    { Entry.zero with mode := ⟨true, true, true, true, false, true, true, false⟩, nsegs := 17 },
    1, false⟩

/-- `fork` of the init process. -/
theorem pids_boot :
    (boot.spawn 0 1 0).Distinct ∧ (boot.spawn 0 1 0).procptr 1 = some 1 := by
  have hf : boot.Fine := by decide +kernel
  have hc : boot.slot = some 1 := by decide +kernel
  have h := (pids (.start (show Start boot from ⟨rfl, rfl⟩))).2 0 1 0 (by decide +kernel) rfl hc
  obtain ⟨hd, -, -, -⟩ := h.mpr hf
  exact ⟨hd, by decide +kernel⟩

/-- There are the swapper and init, and the counter is at `n`. -/
def idle (n : ℕ) : Table := { boot.spawn 0 1 0 with pid := n }

/-- A number from 2 on is free there. -/
lemma idle_newpid {n : ℕ} (h : 2 ≤ n) (hle : n ≤ 256) : (idle n).newpid = (n, n + 1) := by
  have hfree : ((idle n).procptr n).isNone = true := by
    rw [Table.procptr_isNone]
    rintro ⟨p, hp, ha, hid⟩
    have hall : ∀ p < nproc, ((boot.spawn 0 1 0).plist p).mode.alloc = true →
        ((boot.spawn 0 1 0).plist p).pid.toNat < 2 := by decide +kernel
    have := hall p hp ha
    have hid' : ((boot.spawn 0 1 0).plist p).pid.toNat = n := hid
    omega
  show (idle n).newpidFrom (29999 + 1) n = _
  rw [Table.newpidFrom, if_pos hfree, if_neg (by omega)]

/-- A `fork` for which there is no room leaves the counter one further. -/
lemma idle_step {n : ℕ} (h : 2 ≤ n) (hle : n ≤ 256) :
    step (idle n) (1, .fork 0 false) = some (idle (n + 1)) := by
  have hslot : (idle n).slot = some 2 := by
    show (boot.spawn 0 1 0).slot = some 2
    decide +kernel
  have halive : 1 < nproc ∧ ((idle n).plist 1).mode.alloc = true ∧
      ((idle n).plist 1).mode.alive = true := by
    show 1 < nproc ∧ ((boot.spawn 0 1 0).plist 1).mode.alloc = true ∧
      ((boot.spawn 0 1 0).plist 1).mode.alive = true
    decide +kernel
  have hframe : ((idle n).plist 1).frame = 0 := by
    show ((boot.spawn 0 1 0).plist 1).frame = 0
    decide +kernel
  have hzero : (idle n).plist 2 = .zero := by
    simp [idle, boot, Table.spawn, Table.set, Table.modify, Function.update_of_ne, Table.swapproc]
  simp only [step, if_pos halive, hslot, Bool.false_eq_true, if_false,
    Table.unspawn_eq halive.1 halive.2.1 hslot hframe hzero, idle_newpid h hle]
  rfl

/-- The swapper, init, and a counter at 256, after a `fork` of the swapper and 254 of init for which
there was no room. -/
lemma idle_reach (k : ℕ) (hk : k ≤ 254) : Reach step Start (fun _ _ => True) (idle (2 + k)) := by
  induction k with
  | zero =>
      have hstep : step boot (0, .fork 0 true) = some (idle 2) := by
        have hslot : boot.slot = some 1 := by decide +kernel
        have halive : 0 < nproc ∧ (boot.plist 0).mode.alloc = true ∧
            (boot.plist 0).mode.alive = true := by decide +kernel
        simp only [step, if_pos halive, hslot, if_true, idle]
        have hpid : (boot.spawn 0 1 0).pid = 2 := by decide +kernel
        rw [← hpid]
      exact .step (.start ⟨rfl, rfl⟩) trivial hstep
  | succ k ih => exact .step (ih (by omega)) trivial (idle_step (by omega) (by omega))

/-- **A process with id 0.**  The next `fork` of init makes a child with the id of the swapper, and
returns 0 to the parent as it does to the child. -/
theorem fork_makes_zero :
    ∃ t, Reach step Start (fun _ _ => True) t ∧ t.pid = 256 ∧ t.slot = some 2 ∧
      forkReturn (t.spawn 1 2 0) 2 1 = 0 ∧ forkReturn (t.spawn 1 2 0) 2 0 = 0 ∧
      ((t.spawn 1 2 0).plist 2).mode.alloc = true ∧ ¬(t.spawn 1 2 0).Distinct := by
  have hx : 1 < nproc := by decide +kernel
  have ha : ((idle 256).plist 1).mode.alloc = true := by
    show ((boot.spawn 0 1 0).plist 1).mode.alloc = true
    decide +kernel
  have hslot : (idle 256).slot = some 2 := by
    show (boot.spawn 0 1 0).slot = some 2
    decide +kernel
  obtain ⟨-, hpid, hmode, -⟩ := Table.spawn_spec (m := 0) hx ha (Table.slot_spec hslot)
  have hzero : ((idle 256).spawn 1 2 0).procid 2 = 0 := by
    rw [Table.procid, hpid, idle_newpid (by omega) le_rfl]
    rfl
  refine ⟨idle 256, idle_reach 254 le_rfl, rfl, hslot, ?_, rfl, by rw [hmode, ha], ?_⟩
  · rw [forkReturn, if_pos (by simp), hzero]
  · intro hd
    have h2 := (hd.2 2 (by decide +kernel) (by rw [hmode, ha])).mp (UInt8.toNat_inj.mp hzero)
    exact absurd h2 (by decide)

end Procs

end Micronix
