import Mathlib.Data.List.Basic
import Mathlib.Logic.Function.Basic
import Mathlib.Tactic.Common

/-!
# The memory map of the simulated processor board

The MPZ80 (`hwsim/morrow/mpz80.c`) has 512 map registers, a pair for each of the 16 pages of each of
the 16 tasks.  Task 0 writes them at the addresses from 0x600 on, and every task's addresses are
translated through its own 32 of them, as far as the number of a register fits into a byte.
-/

namespace Micronix

namespace Mpz80

abbrev Byte := BitVec 8
abbrev Word := BitVec 16

/-- `maps[0x200]` -/
abbrev Maps := Fin 512 → Byte

def MAP : Word := 0x600

/-- `taskreg & 0xf` -/
def taskid (taskreg : Byte) : Byte := taskreg &&& 0xf

/-- `super()` -/
def super (taskreg : Byte) : Bool := taskid taskreg == 0

/-- `pte` of `getpte`, a byte. -/
def pte (taskreg : Byte) (addr : Word) : Byte :=
  let page : Byte := ((addr &&& 0xf000) >>> 12).setWidth 8
  (taskid taskreg <<< 5) + (page <<< 1)

/-- `getpte`: the physical address, and the attributes of the page.  The number `pte` is even. -/
def getpte (maps : Maps) (taskreg : Byte) (addr : Word) : ℕ × Byte :=
  let pte := (pte taskreg addr).toNat
  (((taskreg &&& 0xf0).toNat <<< 16) |||
      ((maps (Fin.ofNat 512 pte)).toNat <<< 12 + (addr &&& 0xfff).toNat),
    maps (Fin.ofNat 512 (pte + 1)))

/-- The map register at an address. -/
def offset (addr : Word) : Fin 512 := Fin.ofNat 512 (addr &&& 0x1ff).toNat

/-- `put_byte`, as far as it concerns the map registers. -/
def putByte (maps : Maps) (taskreg : Byte) (addr : Word) (value : Byte) : Maps :=
  if super taskreg = true ∧ addr < 0x1000 ∧ addr &&& 0xe00 = MAP then
    Function.update maps (offset addr) value
  else maps

/-- A write of the processor, in whatever task it is. -/
structure Write where
  taskreg : Byte
  addr : Word
  value : Byte

def writes (maps : Maps) (ws : List Write) : Maps :=
  ws.foldl (fun maps w => putByte maps w.taskreg w.addr w.value) maps

/-! ## What a translation depends on -/

/-- `(addr >> 5) & 0xf`: the task that a map register is for. -/
def task (offset : Fin 512) : ℕ := offset / 32

/-- The map registers of task `t` are the same. -/
def Same (t : ℕ) (maps maps' : Maps) : Prop := ∀ k, task k = t → maps k = maps' k

/-- The writes to the map registers of task `t`. -/
def written (t : ℕ) (ws : List Write) : List Write := ws.filter fun w => task (offset w.addr) = t

/-- The translation of a task's addresses depends on its own map registers and what is written there,
and on nothing else that is in the map or written to it. -/
def Isolated (taskreg : Byte) : Prop :=
  ∀ maps maps' ws ws', Same (taskid taskreg).toNat maps maps' →
    written (taskid taskreg).toNat ws = written (taskid taskreg).toNat ws' →
      ∀ addr, getpte (writes maps ws) taskreg addr = getpte (writes maps' ws') taskreg addr

variable {t : ℕ} {maps maps' : Maps} {w : Write} {ws ws' : List Write}

lemma Same.putByte (h : Same t maps maps') (taskreg : Byte) (addr : Word) (value : Byte) :
    Same t (putByte maps taskreg addr value) (putByte maps' taskreg addr value) := by
  intro k hk
  rw [Mpz80.putByte, Mpz80.putByte]
  split_ifs
  · rcases eq_or_ne k (offset addr) with rfl | hne
    · rw [Function.update_self, Function.update_self]
    · rw [Function.update_of_ne hne, Function.update_of_ne hne, h k hk]
  · exact h k hk

/-- A write for another task. -/
lemma same_putByte (taskreg : Byte) {addr : Word} (value : Byte) (h : task (offset addr) ≠ t) :
    Same t (putByte maps taskreg addr value) maps := by
  intro k hk
  rw [putByte]
  split_ifs
  · rw [Function.update_of_ne]
    rintro rfl
    exact h hk
  · rfl

lemma Same.symm (h : Same t maps maps') : Same t maps' maps := fun k hk => (h k hk).symm

lemma Same.trans {maps'' : Maps} (h : Same t maps maps') (h' : Same t maps' maps'') :
    Same t maps maps'' :=
  fun k hk => (h k hk).trans (h' k hk)

lemma Same.writes (h : Same t maps maps') (ws : List Write) :
    Same t (writes maps ws) (writes maps' ws) := by
  induction ws generalizing maps maps' with
  | nil => exact h
  | cons w ws ih => exact ih (h.putByte _ _ _)

/-- Only the writes to the task's own map registers count. -/
lemma same_written (maps : Maps) (ws : List Write) :
    Same t (writes maps ws) (writes maps (written t ws)) := by
  induction ws generalizing maps with
  | nil => exact fun _ _ => rfl
  | cons w ws ih =>
      rw [written, List.filter_cons]
      split_ifs with hw
      · exact ih _
      · rw [decide_eq_true_eq] at hw
        have hother : Same t (putByte maps w.taskreg w.addr w.value) maps := same_putByte _ _ hw
        exact (hother.writes ws).trans (ih maps)

/-! ## The number of a map register -/

lemma page_lt (addr : Word) : ((addr &&& 0xf000) >>> 12).toNat < 16 := by
  rw [BitVec.toNat_ushiftRight, Nat.shiftRight_eq_div_pow]
  have := (addr &&& 0xf000).isLt
  omega

/-- The upper bit of the task is lost. -/
lemma pte_toNat (taskreg : Byte) (addr : Word) :
    (pte taskreg addr).toNat =
      (taskid taskreg).toNat % 8 * 32 + ((addr &&& 0xf000) >>> 12).toNat * 2 := by
  have hpage := page_lt addr
  rw [pte, BitVec.toNat_add, BitVec.toNat_shiftLeft, BitVec.toNat_shiftLeft, BitVec.toNat_setWidth,
    Nat.shiftLeft_eq, Nat.shiftLeft_eq]
  omega

lemma getpte_congr {taskreg : Byte} (h : Same ((taskid taskreg).toNat % 8) maps maps') (addr : Word) :
    getpte maps taskreg addr = getpte maps' taskreg addr := by
  have hpage := page_lt addr
  have hpte := pte_toNat taskreg addr
  have hlow : task (Fin.ofNat 512 (pte taskreg addr).toNat) = (taskid taskreg).toNat % 8 := by
    rw [task, Fin.val_ofNat]
    omega
  have hhigh : task (Fin.ofNat 512 ((pte taskreg addr).toNat + 1)) = (taskid taskreg).toNat % 8 := by
    rw [task, Fin.val_ofNat]
    omega
  rw [getpte, getpte, h _ hlow, h _ hhigh]

/-- The address of a map register of the tasks below 8. -/
lemma map_addr : ∀ k : Byte, MAP + k.setWidth 16 < 0x1000 ∧ (MAP + k.setWidth 16) &&& 0xe00 = MAP ∧
    (offset (MAP + k.setWidth 16)).val = k.toNat := by
  decide +kernel

/-- **The tasks that are isolated** are those below 8: the others share the map registers of the task
eight below. -/
theorem isolated_iff (taskreg : Byte) : Isolated taskreg ↔ (taskid taskreg).toNat < 8 := by
  constructor
  · intro h
    by_contra hge
    -- a write for the task eight below
    set k := pte taskreg 0 with hk
    have hpte := pte_toNat taskreg 0
    rw [show ((0 : Word) &&& 0xf000) >>> 12 = 0 from rfl, ← hk] at hpte
    obtain ⟨hlt, hmap, hoffset⟩ := map_addr k
    have hother : written (taskid taskreg).toNat [⟨0, MAP + k.setWidth 16, 1⟩] = [] := by
      rw [written, List.filter_singleton, task, hoffset]
      have hne : ¬k.toNat / 32 = (taskid taskreg).toNat := by
        have : (0 : Word).toNat = 0 := rfl
        omega
      simp [hne]
    have hsame := h (fun _ => 0) (fun _ => 0) [] [⟨0, MAP + k.setWidth 16, 1⟩] (fun _ _ => rfl)
      (by rw [hother]; rfl) 0
    have hplace : Fin.ofNat 512 k.toNat = offset (MAP + k.setWidth 16) := by
      apply Fin.ext
      rw [hoffset, Fin.val_ofNat, Nat.mod_eq_of_lt (by omega)]
    have hfirst := congrArg Prod.fst hsame
    have hwrites : writes (fun _ => 0) [⟨0, MAP + k.setWidth 16, 1⟩] =
        Function.update (fun _ => 0) (offset (MAP + k.setWidth 16)) 1 :=
      if_pos ⟨show super 0 = true by decide, hlt, hmap⟩
    rw [hwrites, getpte, getpte, ← hk, hplace] at hfirst
    dsimp only at hfirst
    rw [Function.update_self] at hfirst
    have hbit := congrArg (Nat.testBit · 12) hfirst
    simp [writes, Nat.testBit_shiftLeft] at hbit
    exact absurd hbit (by decide)
  · intro hlt maps maps' ws ws' hsame hws addr
    refine getpte_congr ?_ addr
    rw [Nat.mod_eq_of_lt hlt]
    have hown := hsame.writes (written (taskid taskreg).toNat ws)
    refine (same_written maps ws).trans (hown.trans ?_)
    rw [hws]
    exact (same_written maps' ws').symm

/-- Task 8 has no map registers of its own. -/
theorem task_eight_shares : ¬∀ taskreg, Isolated taskreg :=
  fun h => absurd ((isolated_iff 8).mp (h 8)) (by decide)

end Mpz80

end Micronix
