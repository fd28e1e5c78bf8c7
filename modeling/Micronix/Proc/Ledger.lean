import Micronix.Lib.Slots
import Micronix.Proc.Calls

/-!
# The books of references

The count of an inode is the number of its references and of what processes have still to take from
it; the same for files.  Each operation on the tables keeps this.
-/

namespace Micronix

namespace World

open Finset
open Slots (sum_change)

variable {w : World} {p q i j f g n : ℕ}

/-! ## Sums over the tables -/

lemma pending_note (hp : p < nproc) (F : Tally → Tally) (j : ℕ) :
    (w.note p F).pending j + (w.tally p).owed.count j
      = w.pending j + (F (w.tally p)).owed.count j := by
  have h := sum_change (s := fun q => (w.tally q).owed.count j)
    (t := fun q => ((w.note p F).tally q).owed.count j)
    (fun q hq => by simp [note, Function.update_of_ne hq]) hp
  simpa [pending, note] using h

lemma fpending_note (hp : p < nproc) (F : Tally → Tally) (g : ℕ) :
    (w.note p F).fpending g + (w.tally p).fowed.count g
      = w.fpending g + (F (w.tally p)).fowed.count g := by
  have h := sum_change (s := fun q => (w.tally q).fowed.count g)
    (t := fun q => ((w.note p F).tally q).fowed.count g)
    (fun q hq => by simp [note, Function.update_of_ne hq]) hp
  simpa [fpending, note] using h

/-- A file entry refers to an inode. -/
def names (x : File) (j : ℕ) : ℕ := if x.count ≠ 0 ∧ x.inode = j then 1 else 0

/-- A current directory or a descriptor slot refers to something. -/
def at_ (c : Option ℕ) (j : ℕ) : ℕ := if c = some j then 1 else 0

lemma refs_eq (w : World) (j : ℕ) : w.refs j = (∑ f ∈ range nfile, names (w.file f) j) +
    (∑ p ∈ range nproc, at_ (w.cdir p) j) + w.mounts.count j := rfl

lemma refs_setFile (hf : f < nfile) (x : File) (j : ℕ) :
    (w.setFile f x).refs j + names (w.file f) j = w.refs j + names x j := by
  have h := sum_change (s := fun g => names (w.file g) j)
    (t := fun g => names (Function.update w.file f x g) j)
    (fun g hg => by rw [Function.update_of_ne hg]) hf
  have hr : (w.setFile f x).refs j = (∑ g ∈ range nfile, names (Function.update w.file f x g) j) +
      (∑ p ∈ range nproc, at_ (w.cdir p) j) + w.mounts.count j := rfl
  simp only [Function.update_self] at h
  rw [hr, refs_eq w]
  omega

lemma refs_setCdir (hp : p < nproc) (c : Option ℕ) (j : ℕ) :
    (w.setCdir p c).refs j + at_ (w.cdir p) j = w.refs j + at_ c j := by
  have h := sum_change (s := fun q => at_ (w.cdir q) j)
    (t := fun q => at_ (Function.update w.cdir p c q) j)
    (fun q hq => by rw [Function.update_of_ne hq]) hp
  have hr : (w.setCdir p c).refs j = (∑ f ∈ range nfile, names (w.file f) j) +
      (∑ q ∈ range nproc, at_ (Function.update w.cdir p c q) j) + w.mounts.count j := rfl
  simp only [Function.update_self] at h
  rw [hr, refs_eq w]
  omega

lemma slots_update (hp : p < nproc) (o : ℕ → Option ℕ) (g : ℕ) :
    ({ w with olist := Function.update w.olist p o } : World).slots g + opens (w.olist p) g
      = w.slots g + opens o g := by
  have h := sum_change (s := fun q => opens (w.olist q) g)
    (t := fun q => opens (Function.update w.olist p o q) g)
    (fun q hq => by rw [Function.update_of_ne hq]) hp
  simpa [slots] using h

lemma slots_setSlot {fd : ℕ} (hp : p < nproc) (hfd : fd < nopen) (x : Option ℕ) (g : ℕ) :
    (w.setSlot p fd x).slots g + at_ (w.olist p fd) g = w.slots g + at_ x g := by
  have h := sum_change (s := fun k => at_ (w.olist p k) g)
    (t := fun k => at_ (Function.update (w.olist p) fd x k) g)
    (fun k hk => by rw [Function.update_of_ne hk]) hfd
  simp only [Function.update_self] at h
  have hs := slots_update (w := w) hp (Function.update (w.olist p) fd x) g
  rw [show ({ w with olist := Function.update w.olist p (Function.update (w.olist p) fd x) } : World)
    = w.setSlot p fd x from rfl] at hs
  simp only [opens] at hs
  unfold at_ at h ⊢
  omega

/-! ## Bytes -/

lemma ofNat_succ (n : ℕ) : UInt8.ofNat (n + 1) = UInt8.ofNat n + 1 := UInt8.ofNat_add n 1

lemma ofNat_succ_sub (n : ℕ) : UInt8.ofNat (n + 1) - 1 = UInt8.ofNat n := by
  rw [ofNat_succ, UInt8.add_sub_cancel]

/-! ## Books -/

/-- The counts of inodes and files are right. -/
structure Booked (w : World) : Prop where
  inode : ∀ i, (w.node i).count = UInt8.ofNat (w.refs i + w.pending i)
  file : ∀ f, (w.file f).count.toNat = w.slots f + w.fpending f
  top : ∀ f, nfile ≤ f → (w.file f).count = 0

variable {w' : World}

/-- Every change is made in the count and in the books. -/
lemma Booked.of (h : Booked w)
    (hi : ∀ j, (w'.node j).count = (w.node j).count ∧
        w'.refs j + w'.pending j = w.refs j + w.pending j ∨
      (w'.node j).count = (w.node j).count + 1 ∧
        w'.refs j + w'.pending j = w.refs j + w.pending j + 1 ∨
      (w'.node j).count = (w.node j).count - 1 ∧
        w'.refs j + w'.pending j + 1 = w.refs j + w.pending j)
    (hf : ∀ f, (w'.file f).count.toNat + (w.slots f + w.fpending f)
      = (w.file f).count.toNat + (w'.slots f + w'.fpending f))
    (ht : ∀ f, nfile ≤ f → (w'.file f).count = 0) : Booked w' := by
  refine ⟨fun j => ?_, fun f => ?_, ht⟩
  · rcases hi j with ⟨hc, hs⟩ | ⟨hc, hs⟩ | ⟨hc, hs⟩
    · rw [hc, hs]
      exact h.inode j
    · rw [hc, hs, ofNat_succ, h.inode j]
    · rw [hc, h.inode j, ← hs, ofNat_succ_sub]
  · have := hf f
    have := h.file f
    omega

/-- Nothing that counts has changed. -/
lemma Booked.congr (h : Booked w) (hn : ∀ i, (w'.node i).count = (w.node i).count)
    (hf : w'.file = w.file) (hc : w'.cdir = w.cdir) (ho : w'.olist = w.olist)
    (hm : w'.mounts = w.mounts) (hi : ∀ p, (w'.tally p).owed = (w.tally p).owed)
    (hfi : ∀ p, (w'.tally p).fowed = (w.tally p).fowed) : Booked w' := by
  have hr : ∀ i, w'.refs i = w.refs i := fun i => by simp only [refs, hf, hc, hm]
  have hp : ∀ i, w'.pending i = w.pending i := fun i => by simp only [pending, hi]
  have hs : ∀ f, w'.slots f = w.slots f := fun f => by simp only [slots, ho]
  have hfp : ∀ f, w'.fpending f = w.fpending f := fun f => by simp only [fpending, hfi]
  refine ⟨fun i => ?_, fun f => ?_, fun f hft => ?_⟩
  · rw [hn, hr, hp]
    exact h.inode i
  · rw [hf, hs, hfp]
    exact h.file f
  · rw [hf]
    exact h.top f hft

/-! ## Fields -/

@[simp] lemma note_self (F : Tally → Tally) : (w.note p F).tally p = F (w.tally p) :=
  Function.update_self ..

lemma note_ne (F : Tally → Tally) (h : q ≠ p) : (w.note p F).tally q = w.tally q :=
  Function.update_of_ne h ..

@[simp] lemma note_node (F : Tally → Tally) : (w.note p F).node = w.node := rfl
@[simp] lemma note_file (F : Tally → Tally) : (w.note p F).file = w.file := rfl
@[simp] lemma note_refs (F : Tally → Tally) : (w.note p F).refs = w.refs := rfl
@[simp] lemma note_slots (F : Tally → Tally) : (w.note p F).slots = w.slots := rfl

@[simp] lemma modNode_self (G : Node → Node) : (w.modNode i G).node i = G (w.node i) :=
  Function.update_self ..

lemma lower_node : (w.lower i).node i = { w.node i with count := (w.node i).count - 1 } :=
  Function.update_self ..

@[simp] lemma raise_self : ((w.raise i).node i).count = (w.node i).count + 1 := by
  simp [raise, modNode]

@[simp] lemma lower_self : ((w.lower i).node i).count = (w.node i).count - 1 := by
  simp [lower, modNode]

lemma raise_ne (h : j ≠ i) : (w.raise i).node j = w.node j := Function.update_of_ne h ..
lemma lower_ne (h : j ≠ i) : (w.lower i).node j = w.node j := Function.update_of_ne h ..

@[simp] lemma raise_file : (w.raise i).file = w.file := rfl
@[simp] lemma raise_cdir : (w.raise i).cdir = w.cdir := rfl
@[simp] lemma raise_refs : (w.raise i).refs = w.refs := rfl
@[simp] lemma raise_slots : (w.raise i).slots = w.slots := rfl
@[simp] lemma raise_pending : (w.raise i).pending = w.pending := rfl
@[simp] lemma raise_fpending : (w.raise i).fpending = w.fpending := rfl
@[simp] lemma raise_tally : (w.raise i).tally = w.tally := rfl
@[simp] lemma lower_file : (w.lower i).file = w.file := rfl
@[simp] lemma lower_cdir : (w.lower i).cdir = w.cdir := rfl
@[simp] lemma lower_refs : (w.lower i).refs = w.refs := rfl
@[simp] lemma lower_slots : (w.lower i).slots = w.slots := rfl
@[simp] lemma lower_pending : (w.lower i).pending = w.pending := rfl
@[simp] lemma lower_fpending : (w.lower i).fpending = w.fpending := rfl
@[simp] lemma lower_tally : (w.lower i).tally = w.tally := rfl

variable {o c : Option ℕ} {x : File} {fd : ℕ}

@[simp] lemma setCdir_node : (w.setCdir p c).node = w.node := rfl
@[simp] lemma setCdir_file : (w.setCdir p c).file = w.file := rfl
@[simp] lemma setCdir_slots : (w.setCdir p c).slots = w.slots := rfl
@[simp] lemma setCdir_pending : (w.setCdir p c).pending = w.pending := rfl
@[simp] lemma setCdir_fpending : (w.setCdir p c).fpending = w.fpending := rfl
@[simp] lemma setCdir_tally : (w.setCdir p c).tally = w.tally := rfl
@[simp] lemma setFile_node : (w.setFile f x).node = w.node := rfl
@[simp] lemma setFile_slots : (w.setFile f x).slots = w.slots := rfl
@[simp] lemma setFile_pending : (w.setFile f x).pending = w.pending := rfl
@[simp] lemma setFile_fpending : (w.setFile f x).fpending = w.fpending := rfl
@[simp] lemma setFile_tally : (w.setFile f x).tally = w.tally := rfl
@[simp] lemma setSlot_node : (w.setSlot p fd o).node = w.node := rfl
@[simp] lemma setSlot_file : (w.setSlot p fd o).file = w.file := rfl
@[simp] lemma setSlot_refs : (w.setSlot p fd o).refs = w.refs := rfl
@[simp] lemma setSlot_pending : (w.setSlot p fd o).pending = w.pending := rfl
@[simp] lemma setSlot_fpending : (w.setSlot p fd o).fpending = w.fpending := rfl
@[simp] lemma setSlot_tally : (w.setSlot p fd o).tally = w.tally := rfl

/-! ## The counts of a list -/

lemma count_cons_self (l : List ℕ) (i : ℕ) : (i :: l).count i = l.count i + 1 := by simp

lemma count_cons_ne (l : List ℕ) (h : j ≠ i) : (i :: l).count j = l.count j := by
  simp [Ne.symm h]

lemma count_erase_self {l : List ℕ} (h : i ∈ l) : (l.erase i).count i + 1 = l.count i := by
  have := List.count_pos_iff.mpr h
  rw [List.count_erase_self]
  omega

lemma count_erase_ne (l : List ℕ) (h : j ≠ i) : (l.erase i).count j = l.count j :=
  List.count_erase_of_ne h

@[simp] lemma at_self (c : ℕ) : at_ (some c) c = 1 := if_pos rfl
@[simp] lemma at_none (j : ℕ) : at_ none j = 0 := if_neg (by simp)
lemma at_ne {c : ℕ} (h : j ≠ c) : at_ (some c) j = 0 := if_neg (by simpa using Ne.symm h)

/-! ## Operations -/

variable {F : Tally → Tally}

/-- Only what a process notes changes, and neither what it owes. -/
lemma Booked.note (h : Booked w) (hi : (F (w.tally p)).owed = (w.tally p).owed)
    (hfi : (F (w.tally p)).fowed = (w.tally p).fowed) : Booked (w.note p F) := by
  refine h.congr (fun _ => rfl) rfl rfl rfl rfl (fun q => ?_) fun q => ?_
  · by_cases hq : q = p
    · subst hq
      rw [note_self, hi]
    · rw [note_ne _ hq]
  · by_cases hq : q = p
    · subst hq
      rw [note_self, hfi]
    · rw [note_ne _ hq]

/-- The count of inode `i` and what process `p` owes for it rise together. -/
lemma Booked.owe (h : Booked w) (hp : p < nproc) (hi : (F (w.tally p)).owed = i :: (w.tally p).owed)
    (hf : (F (w.tally p)).fowed = (w.tally p).fowed) : Booked ((w.raise i).note p F) := by
  refine h.of (fun j => ?_) (fun f => ?_) h.top
  · have hpend := (w.raise i).pending_note hp F j
    simp only [raise_tally, raise_pending, hi, note_refs, raise_refs, note_node] at hpend ⊢
    by_cases hj : j = i
    · subst hj
      rw [count_cons_self] at hpend
      exact Or.inr (Or.inl ⟨raise_self, by omega⟩)
    · rw [count_cons_ne _ hj] at hpend
      exact Or.inl ⟨by rw [raise_ne hj], by omega⟩
  · have hpend := (w.raise i).fpending_note hp F f
    simp only [raise_tally, raise_fpending, hf, note_slots, raise_slots, note_file,
      raise_file] at hpend ⊢
    omega

/-- They fall together. -/
lemma Booked.pay (h : Booked w) (hp : p < nproc) (hm : i ∈ (w.tally p).owed)
    (hi : (F (w.tally p)).owed = (w.tally p).owed.erase i)
    (hf : (F (w.tally p)).fowed = (w.tally p).fowed) : Booked ((w.lower i).note p F) := by
  refine h.of (fun j => ?_) (fun f => ?_) h.top
  · have hpend := (w.lower i).pending_note hp F j
    simp only [lower_tally, lower_pending, hi, note_refs, lower_refs, note_node] at hpend ⊢
    by_cases hj : j = i
    · subst hj
      have := count_erase_self hm
      exact Or.inr (Or.inr ⟨lower_self, by omega⟩)
    · rw [count_erase_ne _ hj] at hpend
      exact Or.inl ⟨by rw [lower_ne hj], by omega⟩
  · have hpend := (w.lower i).fpending_note hp F f
    simp only [lower_tally, lower_fpending, hf, note_slots, lower_slots, note_file,
      lower_file] at hpend ⊢
    omega

/-- `u.cdir = i; i->count++` by a process that has no current directory. -/
lemma Booked.enter (h : Booked w) (hp : p < nproc) (hc : w.cdir p = none) (i : ℕ) :
    Booked ((w.raise i).setCdir p (some i)) := by
  refine h.of (fun j => ?_) (fun f => ?_) h.top
  · have hr := (w.raise i).refs_setCdir hp (some i) j
    simp only [raise_cdir, hc, at_none, raise_refs, setCdir_pending, raise_pending,
      setCdir_node] at hr ⊢
    by_cases hj : j = i
    · subst hj
      rw [at_self] at hr
      exact Or.inr (Or.inl ⟨raise_self, by omega⟩)
    · rw [at_ne hj] at hr
      exact Or.inl ⟨by rw [raise_ne hj], by omega⟩
  · simp only [setCdir_file, raise_file, setCdir_slots, raise_slots, setCdir_fpending,
      raise_fpending]

/-- `u.cdir->count--` -/
lemma Booked.away {c : ℕ} (h : Booked w) (hp : p < nproc) (hc : w.cdir p = some c) :
    Booked ((w.lower c).setCdir p none) := by
  refine h.of (fun j => ?_) (fun f => ?_) h.top
  · have hr := (w.lower c).refs_setCdir hp none j
    simp only [lower_cdir, hc, at_none, lower_refs, setCdir_pending, lower_pending,
      setCdir_node] at hr ⊢
    by_cases hj : j = c
    · subst hj
      rw [at_self] at hr
      exact Or.inr (Or.inr ⟨lower_self, by omega⟩)
    · rw [at_ne hj] at hr
      exact Or.inl ⟨by rw [lower_ne hj], by omega⟩
  · simp only [setCdir_file, lower_file, setCdir_slots, lower_slots, setCdir_fpending,
      lower_fpending]

/-- A file that is pending is an entry of the table that is in use. -/
lemma Booked.of_mem_fowed (h : Booked w) (hp : p < nproc) (hf : f ∈ (w.tally p).fowed) :
    (w.file f).count ≠ 0 ∧ f < nfile := by
  have hpos : 0 < w.fpending f := by
    refine Nat.lt_of_lt_of_le (List.count_pos_iff.mpr hf) ?_
    rw [fpending, ← Finset.add_sum_erase (range nproc) _ (mem_range.mpr hp)]
    exact Nat.le_add_right _ _
  have hne : (w.file f).count ≠ 0 := by
    intro e
    have := h.file f
    rw [e, UInt8.toNat_zero] at this
    omega
  exact ⟨hne, Nat.lt_of_not_le fun hf' => hne (h.top f hf')⟩

lemma toNat_sub_one {x : UInt8} (h : x ≠ 0) : (x - 1).toNat + 1 = x.toNat := by
  have hx : x.toNat ≠ 0 := fun e => h (UInt8.toNat_inj.mp e)
  have h1 : (1 : UInt8) ≤ x := UInt8.le_iff_toNat_le.mpr (by simpa using Nat.one_le_iff_ne_zero.mpr hx)
  rw [UInt8.toNat_sub_of_le _ _ h1]
  simp only [UInt8.toNat_one]
  omega

lemma byte_one_ne_zero : (1 : UInt8) ≠ 0 := by decide

/-- `u.olist[fd] = 0` -/
lemma Booked.unslot {fd : ℕ} (h : Booked w) (hp : p < nproc) (hfd : fd < nopen)
    (ho : w.olist p fd = some f) : Booked (w.unslot p fd f) := by
  refine h.of (fun j => ?_) (fun g => ?_) h.top
  · have hpend := (w.setSlot p fd none).pending_note hp (fun t => t.fowe f) j
    simp only [World.unslot, note_node, note_refs, setSlot_node, setSlot_refs, setSlot_pending,
      setSlot_tally, Tally.fowe] at hpend ⊢
    exact Or.inl ⟨trivial, by omega⟩
  · have hs := slots_setSlot (w := w) hp hfd none g
    have hpend := (w.setSlot p fd none).fpending_note hp (fun t => t.fowe f) g
    simp only [World.unslot, note_file, note_slots, setSlot_file, setSlot_fpending, setSlot_tally,
      Tally.fowe, ho, at_none] at hs hpend ⊢
    by_cases hg : g = f
    · subst hg
      rw [at_self] at hs
      rw [count_cons_self] at hpend
      omega
    · rw [at_ne hg] at hs
      rw [count_cons_ne _ hg] at hpend
      omega

lemma find?_range {n : ℕ} {P : ℕ → Bool} {a : ℕ} (h : (List.range n).find? P = some a) :
    a < n ∧ P a = true :=
  ⟨List.mem_range.mp (List.mem_of_find?_eq_some h), by simpa using List.find?_some h⟩

/-- The references after the end of `iopen`: the entry of the file table was free. -/
lemma fopen_cases (w : World) (p i j : ℕ) :
    (w.fopen p i).node j = w.node j ∧ (w.fopen p i).refs j = w.refs j ∨
      j = i ∧ (w.fopen p i).node j = { w.node j with count := (w.node j).count + 1 } ∧
        (w.fopen p i).refs j = w.refs j + 1 := by
  unfold World.fopen
  split
  · rename_i f fd hfa hoa
    obtain ⟨hf, hf0⟩ := find?_range hfa
    simp only [decide_eq_true_eq] at hf0
    have hold : names (w.file f) = fun _ => 0 := funext fun j => if_neg (by simp [hf0])
    have hr := (w.raise i).refs_setFile hf ⟨1, i⟩ j
    simp only [raise_file, hold, setSlot_node, setFile_node, setSlot_refs, raise_refs] at hr ⊢
    by_cases hj : j = i
    · subst hj
      rw [show names ⟨1, j⟩ j = 1 from if_pos ⟨byte_one_ne_zero, rfl⟩] at hr
      exact Or.inr ⟨rfl, Function.update_self .., by omega⟩
    · rw [show names ⟨1, i⟩ j = 0 from if_neg fun e => hj e.2.symm] at hr
      exact Or.inl ⟨raise_ne hj, by omega⟩
  · exact Or.inl ⟨rfl, rfl⟩

/-- The end of `iopen`. -/
lemma Booked.fopen (h : Booked w) (hp : p < nproc) (i : ℕ) : Booked (w.fopen p i) := by
  have hcases := fopen_cases w p i
  unfold World.fopen at hcases ⊢
  split
  · rename_i f fd hfa hoa
    simp only [hfa, hoa] at hcases
    obtain ⟨hf, hf0⟩ := find?_range hfa
    obtain ⟨hfd, hfd0⟩ := find?_range hoa
    simp only [decide_eq_true_eq] at hf0 hfd0
    refine h.of (fun j => ?_) (fun g => ?_) fun g hg => ?_
    · have hpend : (((w.raise i).setFile f ⟨1, i⟩).setSlot p fd (some f)).pending j
        = w.pending j := rfl
      rcases hcases j with ⟨hn, hr⟩ | ⟨rfl, hn, hr⟩
      · exact Or.inl ⟨by rw [hn], by omega⟩
      · exact Or.inr (Or.inl ⟨by rw [hn], by omega⟩)
    · have hs := slots_setSlot (w := (w.raise i).setFile f ⟨1, i⟩) hp hfd (some f) g
      have hz := h.file f
      rw [hf0, UInt8.toNat_zero] at hz
      rw [show ((w.raise i).setFile f ⟨1, i⟩).olist p fd = none from hfd0, at_none] at hs
      simp only [setFile_slots, raise_slots, setSlot_fpending, setFile_fpending,
        raise_fpending, setSlot_file] at hs ⊢
      by_cases hg : g = f
      · subst hg
        rw [at_self] at hs
        rw [show ((w.raise i).setFile g ⟨1, i⟩).file g = ⟨1, i⟩ from Function.update_self ..,
          hf0]
        simp only [UInt8.toNat_one, UInt8.toNat_zero]
        omega
      · rw [at_ne hg] at hs
        rw [show ((w.raise i).setFile f ⟨1, i⟩).file g = w.file g from Function.update_of_ne hg ..]
        omega
    · rw [show (((w.raise i).setFile f ⟨1, i⟩).setSlot p fd (some f)).file g = w.file g from
        Function.update_of_ne (by omega) ..]
      exact h.top g hg
  · exact h

/-- `--fp->count` -/
lemma Booked.drop (h : Booked w) (hp : p < nproc) (hm : f ∈ (w.tally p).fowed) : Booked (w.drop p f) := by
  obtain ⟨hne, hf⟩ := h.of_mem_fowed hp hm
  have hsub := toNat_sub_one hne
  set x := w.file f with hx
  set F : Tally → Tally := fun t => if x.count - 1 = 0 then (t.fpay f).owe x.inode else t.fpay f
    with hF
  have hdrop : w.drop p f = (w.setFile f ⟨x.count - 1, x.inode⟩).note p F := rfl
  have howed : (F (w.tally p)).owed
      = if x.count - 1 = 0 then x.inode :: (w.tally p).owed else (w.tally p).owed := by
    rw [hF]
    dsimp only
    split_ifs <;> rfl
  have hfowed : (F (w.tally p)).fowed = (w.tally p).fowed.erase f := by
    rw [hF]
    dsimp only
    split_ifs <;> rfl
  rw [hdrop]
  refine h.of (fun j => ?_) (fun g => ?_) fun g hg => ?_
  · have hr := w.refs_setFile hf ⟨x.count - 1, x.inode⟩ j
    have hpend := (w.setFile f ⟨x.count - 1, x.inode⟩).pending_note hp F j
    simp only [setFile_tally, setFile_pending, howed, note_node, note_refs, setFile_node] at hpend ⊢
    refine Or.inl ⟨trivial, ?_⟩
    by_cases h0 : x.count - 1 = 0
    · rw [if_pos h0] at hpend
      rw [show names ⟨x.count - 1, x.inode⟩ j = 0 from if_neg fun e => e.1 h0] at hr
      by_cases hj : j = x.inode
      · subst hj
        rw [count_cons_self] at hpend
        rw [show names (w.file f) x.inode = 1 from if_pos ⟨hne, rfl⟩] at hr
        omega
      · rw [count_cons_ne _ hj] at hpend
        rw [show names (w.file f) j = 0 from if_neg fun e => hj e.2.symm] at hr
        omega
    · rw [if_neg h0] at hpend
      rw [show names ⟨x.count - 1, x.inode⟩ j = names (w.file f) j from by
        simp [names, h0, ← hx, hne]] at hr
      omega
  · have hpend := (w.setFile f ⟨x.count - 1, x.inode⟩).fpending_note hp F g
    simp only [setFile_tally, setFile_fpending, hfowed, note_file, note_slots, setFile_slots]
      at hpend ⊢
    by_cases hg : g = f
    · subst hg
      have := count_erase_self hm
      rw [show (w.setFile g ⟨x.count - 1, x.inode⟩).file g = ⟨x.count - 1, x.inode⟩ from
        Function.update_self .., ← hx]
      dsimp only
      omega
    · rw [count_erase_ne _ hg] at hpend
      rw [show (w.setFile f ⟨x.count - 1, x.inode⟩).file g = w.file g from
        Function.update_of_ne hg ..]
      omega
  · rw [show ((w.setFile f ⟨x.count - 1, x.inode⟩).note p F).file g = w.file g from
      Function.update_of_ne (by omega) ..]
    exact h.top g hg

/-! ## Processes -/

lemma opens_le (hp : p < nproc) (f : ℕ) : opens (w.olist p) f ≤ w.slots f := by
  rw [slots, ← Finset.add_sum_erase (range nproc) _ (mem_range.mpr hp)]
  exact Nat.le_add_right _ _

lemma opens_eq_zero {o : ℕ → Option ℕ} (h : ∀ fd < nopen, o fd = none) (f : ℕ) : opens o f = 0 := by
  refine Finset.sum_eq_zero fun fd hfd => if_neg ?_
  rw [h fd (mem_range.mp hfd)]
  simp

/-- An entry outside the file table has no slots. -/
lemma Booked.wrap (h : Booked w) (hp : p < nproc)
    (hwrap : ∀ f < nfile, (w.file f).count.toNat + opens (w.olist p) f < 256) (f : ℕ) :
    (w.file f).count.toNat + opens (w.olist p) f < 256 := by
  by_cases hf : f < nfile
  · exact hwrap f hf
  · have h0 := h.file f
    have hle := opens_le (w := w) hp f
    rw [h.top f (Nat.le_of_not_lt hf), UInt8.toNat_zero] at *
    omega

/-- `fork` copies the references to the child: the counts of files must not wrap. -/
lemma Booked.spawn_count {child : ℕ} (hwrap : ∀ f, (w.file f).count.toNat + opens (w.olist p) f < 256)
    (f : ℕ) : ((w.spawn p child).file f).count.toNat
      = (w.file f).count.toNat + opens (w.olist p) f := by
  have : ((w.spawn p child).file f).count = (w.file f).count + UInt8.ofNat (opens (w.olist p) f) :=
    rfl
  rw [this, UInt8.toNat_add, UInt8.toNat_ofNat']
  have := hwrap f
  omega

/-- No entry of the file table is taken or released. -/
lemma Booked.spawn_zero {child : ℕ} (h : Booked w) (hp : p < nproc)
    (hwrap : ∀ f, (w.file f).count.toNat + opens (w.olist p) f < 256) (f : ℕ) :
    ((w.spawn p child).file f).count = 0 ↔ (w.file f).count = 0 := by
  have h1 := @Booked.spawn_count w p child hwrap f
  have h2 := h.file f
  have h3 := opens_le (w := w) hp f
  rw [← UInt8.toNat_inj, ← UInt8.toNat_inj, UInt8.toNat_zero]
  omega

/-- The child has one more reference to the current directory. -/
lemma Booked.spawn_refs {child : ℕ} (h : Booked w) (hp : p < nproc) (hc : w.Free child)
    (hwrap : ∀ f, (w.file f).count.toNat + opens (w.olist p) f < 256) (j : ℕ) :
    (w.spawn p child).refs j = w.refs j + at_ (w.cdir p) j := by
  obtain ⟨hchild, -, hcdir, -⟩ := hc
  have hnames : ∀ f, names ((w.spawn p child).file f) j = names (w.file f) j := by
    intro f
    unfold names
    simp only [ne_eq, h.spawn_zero hp hwrap f]
    rfl
  have hr := w.refs_setCdir hchild (w.cdir p) j
  rw [hcdir, at_none] at hr
  have hrefs : (w.spawn p child).refs j = (w.setCdir child (w.cdir p)).refs j := by
    rw [refs_eq, refs_eq]
    simp only [hnames]
    rfl
  omega

lemma Booked.spawn {child : ℕ} (h : Booked w) (hp : p < nproc) (hc : w.Free child)
    (hwrap : ∀ f, (w.file f).count.toNat + opens (w.olist p) f < 256) :
    Booked (w.spawn p child) := by
  refine h.of (fun j => ?_) (fun f => ?_) fun f hf => (h.spawn_zero hp hwrap f).mpr (h.top f hf)
  · have hr := h.spawn_refs hp hc hwrap j
    have hpend : (w.spawn p child).pending j = w.pending j := rfl
    have hnode : ((w.spawn p child).node j).count
        = if w.cdir p = some j then (w.node j).count + 1 else (w.node j).count := by
      dsimp only [World.spawn]
      split_ifs <;> rfl
    rw [hnode, hpend]
    unfold at_ at hr
    split_ifs at hr ⊢ with hj
    · exact Or.inr (Or.inl ⟨rfl, by omega⟩)
    · exact Or.inl ⟨rfl, by omega⟩
  · have hs := slots_update (w := w) hc.1 (w.olist p) f
    rw [opens_eq_zero hc.2.2.2] at hs
    have hslots : (w.spawn p child).slots f
        = ({ w with olist := Function.update w.olist child (w.olist p) } : World).slots f := rfl
    have hpend : (w.spawn p child).fpending f = w.fpending f := rfl
    rw [spawn_count hwrap, hslots, hpend]
    omega

/-- The end of a process. -/
lemma Booked.quit (h : Booked w) (hp : p < nproc) : Booked (Deed.quit.effect p w) := by
  cases hc : w.cdir p with
  | none =>
      refine h.congr (fun i => ?_) rfl ?_ rfl rfl (fun _ => rfl) fun _ => rfl
      · simp only [Deed.effect, hc]
      · exact Function.update_eq_self_iff.mpr hc.symm
  | some c =>
      refine (h.away hp hc).congr (fun i => ?_) rfl rfl rfl rfl (fun _ => rfl) fun _ => rfl
      simp only [Deed.effect, hc, setCdir_node]

/-- `ip->i_count = 0` in `ialloc` is no change when the count is 0. -/
lemma Booked.take (h : Booked w) (hi : (w.node i).count = 0) :
    Booked (w.take i) := by
  refine h.congr (fun j => ?_) rfl rfl rfl rfl (fun _ => rfl) fun _ => rfl
  by_cases hj : j = i
  · subst hj
    simp [World.take, modNode, hi]
  · simp [World.take, modNode, hj]

lemma Booked.modNode (h : Booked w) {G : Node → Node} (hG : ∀ x, (G x).count = x.count) :
    Booked (w.modNode i G) := by
  refine h.congr (fun j => ?_) rfl rfl rfl rfl (fun _ => rfl) fun _ => rfl
  by_cases hj : j = i
  · subst hj
    simp [World.modNode, hG]
  · simp [World.modNode, hj]

lemma Booked.setOwn (h : Booked w) (i : ℕ) (o : Option ℕ) : Booked (w.setOwn i o) :=
  h.congr (fun _ => rfl) rfl rfl rfl rfl (fun _ => rfl) fun _ => rfl

end World

end Micronix
