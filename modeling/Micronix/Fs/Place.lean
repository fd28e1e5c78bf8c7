import Micronix.Fs.FreeList
import Micronix.Fs.Imap
import Micronix.Lib.Partition
import Mathlib.Algebra.GroupWithZero.Nat

/-!
# Places in a block map, and well-formed file systems

A block number is installed at a *place*: an entry of some inode's `i_addr[]`, a word of an
indirect block, or a word of a second-level block.  `place` reads a place through the blocks as
they are, so one map gives a meaning to every place of every inode of a device, 0 for an empty
one.  A file system is well formed when the free list and the places partition the block range.

The lemmas of this file say how `place` reacts to the few moves the kernel makes: storing a block
that is no indirect block, filling an empty place with a zeroed block, and the conversion of a
small inode.
-/

namespace Micronix

open Bytes Super

/-- A place in the block map of an inode. -/
inductive Slot
  | addr (n : ℕ)
  | ind (n k : ℕ)
  | dbl (k j : ℕ)
  deriving DecidableEq

/-- Word `k` of the indirect block `b`, 0 if there is no block. -/
def sub (blk : ℕ → Bytes) (b k : ℕ) : ℕ := if b ≠ 0 ∧ k < 256 then word (blk b) k else 0

/-- Entry `n` of `i_addr[]` as a block number; special files keep a device number there. -/
def addrVal (i : Inode) (n : ℕ) : ℕ := if n < 8 ∧ i.fmt.iio = false then i.addr n else 0

/-- The block number at a place of an inode.  Entries 0 to 6 of a large inode are indirect blocks,
entry 7 is a double indirect one. -/
def mapVal (blk : ℕ → Bytes) (i : Inode) : Slot → ℕ
  | .addr n => addrVal i n
  | .ind n k => if i.larg then sub blk (addrVal i n) k else 0
  | .dbl k j => if i.larg then sub blk (sub blk (addrVal i 7) k) j else 0

/-- The block number at a place of the file system on `dev`: a place is an inode and a slot. -/
def place (s : Sys) (dev : ℕ) (x : ℕ × Slot) : ℕ :=
  if (s.ino x.1).dev = dev then mapVal (s.blk dev) (s.ino x.1) x.2 else 0

/-- The places whose block is an indirect block. -/
def Slot.isInd (i : Inode) : Slot → Prop
  | .addr _ => i.larg = true
  | .ind n _ => n = 7
  | .dbl _ _ => False

/-- The place of the data block of logical block `log`. -/
def dataSlot (larg : Bool) (log : ℕ) : Slot :=
  if larg then
    if log / 256 < 7 then .ind (log / 256) (log % 256) else .dbl (log / 256 - 7) (log % 256)
  else .addr log

/-- The data block of logical block `log`, 0 for a hole. -/
def lookup (s : Sys) (dev ip log : ℕ) : ℕ := place s dev (ip, dataSlot (s.ino ip).larg log)

/-- The byte of the file at offset `o`; holes read as 0. -/
def byteAt (s : Sys) (dev ip o : ℕ) : UInt8 :=
  let b := lookup s dev ip (o / 512)
  if b = 0 then 0 else s.blk dev b (o % 512)

/-! ## Well-formed file systems -/

/-- The free list of `dev` is `L`, the blocks of `F` are in some routine's hand, all others are
installed at exactly one place. -/
structure Owned (s : Sys) (dev : ℕ) (L : List ℕ) (F : Set ℕ) : Prop where
  list : FreeList s dev L
  part : Divided (InRange (s.sb dev)) L F (place s dev)

/-- A well-formed file system: every block of `[isize + 2, fsize)` is either once on the free list
or once in the block map of exactly one inode. -/
def WellFormed (s : Sys) (dev : ℕ) : Prop := ∃ L, Owned s dev L ∅

lemma sub_zero (blk : ℕ → Bytes) (k : ℕ) : sub blk 0 k = 0 := by simp [sub]

lemma sub_of_zero {blk : ℕ → Bytes} {b : ℕ} (h : blk b = zero) (k : ℕ) : sub blk b k = 0 := by
  unfold sub
  split_ifs
  · rw [h, word_zero]
  · rfl

lemma sub_congr {blk blk' : ℕ → Bytes} {b : ℕ} (h : b ≠ 0 → blk' b = blk b) (k : ℕ) :
    sub blk' b k = sub blk b k := by
  unfold sub
  split_ifs with hb
  · rw [h hb.1]
  · rfl

/-- What the block map of an inode consists of. -/
def SameMap (i i' : Inode) : Prop :=
  i'.dev = i.dev ∧ i'.fmt = i.fmt ∧ i'.larg = i.larg ∧ i'.addr = i.addr

lemma SameMap.refl (i : Inode) : SameMap i i := ⟨rfl, rfl, rfl, rfl⟩

lemma SameMap.addrVal {i i' : Inode} (h : SameMap i i') (n : ℕ) :
    Micronix.addrVal i' n = Micronix.addrVal i n := by
  rw [Micronix.addrVal, Micronix.addrVal, h.2.1, h.2.2.2]

lemma place_of_dev {s : Sys} {dev ip : ℕ} (h : (s.ino ip).dev = dev) (q : Slot) :
    place s dev (ip, q) = mapVal (s.blk dev) (s.ino ip) q :=
  if_pos h

lemma place_other_dev {s : Sys} {dev ip : ℕ} {q : Slot} (h : (s.ino ip).dev ≠ dev) :
    place s dev (ip, q) = 0 :=
  if_neg h

/-- The places stay when the maps of the inodes and the contents of the indirect blocks do. -/
theorem place_congr {s s' : Sys} {dev : ℕ} (hino : ∀ ip, SameMap (s.ino ip) (s'.ino ip))
    (hblk : ∀ x : ℕ × Slot, x.2.isInd (s.ino x.1) → place s dev x ≠ 0 →
      s'.blk dev (place s dev x) = s.blk dev (place s dev x)) :
    place s' dev = place s dev := by
  funext ⟨ip, q⟩
  have hm := hino ip
  by_cases hdev : (s.ino ip).dev = dev
  · have hdev' : (s'.ino ip).dev = dev := by rw [hm.1, hdev]
    rw [place_of_dev hdev, place_of_dev hdev']
    have hind : ∀ p, p.isInd (s.ino ip) → mapVal (s.blk dev) (s.ino ip) p ≠ 0 →
        s'.blk dev (mapVal (s.blk dev) (s.ino ip) p)
          = s.blk dev (mapVal (s.blk dev) (s.ino ip) p) := by
      intro p hp h0
      have := hblk (ip, p) hp
      rw [place_of_dev hdev] at this
      exact this h0
    by_cases hl : (s.ino ip).larg = true
    · have hsub : ∀ n k, sub (s'.blk dev) (addrVal (s.ino ip) n) k
          = sub (s.blk dev) (addrVal (s.ino ip) n) k :=
        fun n k => sub_congr (hind (.addr n) hl) k
      cases q with
      | addr n => exact hm.addrVal n
      | ind n k => simp only [mapVal, hm.2.2.1, hl, if_true, hm.addrVal, hsub]
      | dbl k j =>
          have h2 := hind (.ind 7 k) rfl
          simp only [mapVal, hl, if_true] at h2
          simp only [mapVal, hm.2.2.1, hl, if_true, hm.addrVal, hsub]
          exact sub_congr h2 j
    · cases q with
      | addr n => exact hm.addrVal n
      | ind n k => simp [mapVal, hm.2.2.1, hl]
      | dbl k j => simp [mapVal, hm.2.2.1, hl]
  · have hdev' : (s'.ino ip).dev ≠ dev := by rw [hm.1]; exact hdev
    rw [place, place, if_neg hdev, if_neg hdev']

/-! ## Filling an empty place -/

section Fill

variable {s : Sys} {dev ip : ℕ} {L : List ℕ} {F : Set ℕ} {b : ℕ}

lemma Owned.place_ne (h : Owned s dev L F) (hb : b ∈ F) (x : ℕ × Slot) : place s dev x ≠ b := by
  intro e
  have h0 : place s dev x ≠ 0 := e ▸ (h.part.hand_range b hb).ne_zero
  exact h.part.place_hand x h0 (e ▸ hb)

lemma Owned.place_ne_one (h : Owned s dev L F) (x : ℕ × Slot) : place s dev x ≠ 1 := by
  intro e
  exact (h.part.place_range x (by omega)).ne_one e

/-- Two places that hold the same block are the same place. -/
lemma Owned.place_inj (h : Owned s dev L F) {x y : ℕ × Slot} (hx : place s dev x ≠ 0)
    (hxy : place s dev x = place s dev y) : x = y :=
  h.part.inj x y hx hxy

/-- Filling an entry of `i_addr[]` with a zeroed block fills that place and no other. -/
lemma place_store_addr {n : ℕ} (hdev : (s.ino ip).dev = dev) (hio : (s.ino ip).fmt.iio = false)
    (hn : n < 8) (h0 : (s.ino ip).addr n = 0) (hz : s.blk dev b = zero) :
    place (s.store (.addr ip n) b) dev
      = Function.update (place s dev) (ip, Slot.addr n) b := by
  funext ⟨ip', q⟩
  by_cases hip : ip' = ip
  · subst hip
    have haddr : ∀ m, addrVal ((s.ino ip').setAddr n b) m
        = if m = n then b else addrVal (s.ino ip') m := by
      intro m
      unfold addrVal Inode.setAddr
      by_cases hm : m = n
      · subst hm
        simp [hn, hio]
      · simp [hm]
    have hlarg : ((s.ino ip').setAddr n b).larg = (s.ino ip').larg := rfl
    have h0' : addrVal (s.ino ip') n = 0 := by simp [addrVal, h0]
    have hdev' : ((s.store (.addr ip' n) b).ino ip').dev = dev := by
      simpa [Sys.store, Inode.setAddr] using hdev
    rw [place_of_dev hdev']
    simp only [Sys.store, Sys.setIno_blk, Sys.setIno_ino_self]
    cases q with
    | addr m =>
        rw [mapVal, haddr]
        split_ifs with hm
        · subst hm
          rw [Function.update_self]
        · rw [Function.update_of_ne (by simpa using hm), place_of_dev hdev, mapVal]
    | ind m k =>
        rw [Function.update_of_ne (by simp), place_of_dev hdev]
        simp only [mapVal, haddr, hlarg]
        split_ifs with hl hm
        · subst hm
          rw [h0', sub_zero, sub_of_zero hz]
        · rfl
        · rfl
    | dbl k j =>
        rw [Function.update_of_ne (by simp), place_of_dev hdev]
        simp only [mapVal, haddr, hlarg]
        split_ifs with hl hm
        · subst hm
          rw [h0', sub_zero, sub_zero, sub_of_zero hz, sub_zero]
        · rfl
        · rfl
  · rw [Function.update_of_ne (by simp [hip])]
    simp only [place, Sys.store, Sys.setIno_blk, Sys.setIno_ino_ne hip]

/-- Filling a word of an indirect block with a zeroed block fills that place and no other. -/
lemma place_store_ind (h : Owned s dev L F) (hb : b ∈ F) (hz : s.blk dev b = zero) {n k : ℕ}
    (hdev : (s.ino ip).dev = dev) (hl : (s.ino ip).larg = true) (hk : k < 256)
    (hp : place s dev (ip, .addr n) ≠ 0) (h0 : place s dev (ip, .ind n k) = 0) :
    place (s.store (.word dev (place s dev (ip, .addr n)) k) b) dev
      = Function.update (place s dev) (ip, Slot.ind n k) b := by
  set P := place s dev (ip, .addr n) with hP
  have hlt : b < 65536 := (h.part.hand_range b hb).lt
  have hbP : b ≠ P := fun e => h.place_ne hb (ip, .addr n) (hP ▸ e.symm)
  have hoth : ∀ c, c ≠ P → (s.store (.word dev P k) b).blk dev c = s.blk dev c :=
    fun c hc => Sys.put_blk_other hc
  have hself : (s.store (.word dev P k) b).blk dev P = setWord (s.blk dev P) k b :=
    Sys.put_blk_self ..
  have hsub_other : ∀ c j, c ≠ P →
      sub ((s.store (.word dev P k) b).blk dev) c j = sub (s.blk dev) c j :=
    fun c j hc => sub_congr (fun _ => hoth c hc) j
  have hsub_self : ∀ j, sub ((s.store (.word dev P k) b).blk dev) P j
      = if j = k then b else sub (s.blk dev) P j := by
    intro j
    unfold sub
    rw [hself, word_setWord hlt]
    by_cases hj : j = k
    · subst hj
      simp [hp, hk]
    · simp [hj]
  -- the first-level words of every inode: only the one at `(ip, ind n k)` changes
  have hlevel1 : ∀ ip' m j, (s.ino ip').dev = dev → (s.ino ip').larg = true →
      sub ((s.store (.word dev P k) b).blk dev) (addrVal (s.ino ip') m) j
        = if ip' = ip ∧ m = n ∧ j = k then b else sub (s.blk dev) (addrVal (s.ino ip') m) j := by
    intro ip' m j hdev' hl'
    by_cases hA : addrVal (s.ino ip') m = P
    · have hpl : place s dev (ip', .addr m) = P := by rw [place_of_dev hdev']; exact hA
      have he := h.place_inj (hpl ▸ hp) (hpl.trans hP)
      simp only [Prod.mk.injEq, Slot.addr.injEq] at he
      obtain ⟨rfl, rfl⟩ := he
      rw [hA, hsub_self]
      simp
    · have hne : ¬(ip' = ip ∧ m = n ∧ j = k) := by
        rintro ⟨rfl, rfl, -⟩
        exact hA (by rw [hP, place_of_dev hdev]; rfl)
      rw [if_neg hne, hsub_other _ _ hA]
  funext ⟨ip', q⟩
  by_cases hdev' : (s.ino ip').dev = dev
  · have hdev'' : ((s.store (.word dev P k) b).ino ip').dev = dev := hdev'
    rw [place_of_dev hdev'']
    have hino : (s.store (.word dev P k) b).ino ip' = s.ino ip' := rfl
    rw [hino]
    cases q with
    | addr m => rw [Function.update_of_ne (by simp), place_of_dev hdev']; rfl
    | ind m j =>
        by_cases hl' : (s.ino ip').larg = true
        · simp only [mapVal, hl', if_true, hlevel1 ip' m j hdev' hl']
          by_cases he : ip' = ip ∧ m = n ∧ j = k
          · obtain ⟨rfl, rfl, rfl⟩ := he
            simp
          · rw [if_neg he, Function.update_of_ne (by simpa using he), place_of_dev hdev']
            simp [mapVal, hl']
        · have hne : (ip', Slot.ind m j) ≠ (ip, Slot.ind n k) := by
            rintro he
            simp only [Prod.mk.injEq] at he
            exact hl' (he.1 ▸ hl)
          rw [Function.update_of_ne hne, place_of_dev hdev']
          simp [mapVal, hl']
    | dbl m j =>
        rw [Function.update_of_ne (by simp), place_of_dev hdev']
        by_cases hl' : (s.ino ip').larg = true
        · simp only [mapVal, hl', if_true, hlevel1 ip' 7 m hdev' hl']
          have hB : place s dev (ip', .ind 7 m) = sub (s.blk dev) (addrVal (s.ino ip') 7) m := by
            rw [place_of_dev hdev']
            simp [mapVal, hl']
          by_cases he : ip' = ip ∧ 7 = n ∧ m = k
          · obtain ⟨rfl, rfl, rfl⟩ := he
            rw [if_pos ⟨rfl, rfl, rfl⟩, ← hB, h0, sub_zero, hsub_other _ _ hbP, sub_of_zero hz]
          · rw [if_neg he]
            by_cases hBP : sub (s.blk dev) (addrVal (s.ino ip') 7) m = P
            · have := h.place_inj (hB ▸ hBP ▸ hp) (hB.trans (hBP.trans hP))
              simp at this
            · exact hsub_other _ _ hBP
        · simp [mapVal, hl']
  · have hne : (ip', q) ≠ (ip, Slot.ind n k) := by
      rintro he
      simp only [Prod.mk.injEq] at he
      exact hdev' (he.1 ▸ hdev)
    rw [Function.update_of_ne hne, place_other_dev hdev', place_other_dev]
    exact hdev'

/-- Filling a word of a second-level block with a zeroed block fills that place and no other. -/
lemma place_store_dbl (h : Owned s dev L F) (hb : b ∈ F) {k j : ℕ}
    (hdev : (s.ino ip).dev = dev) (hj : j < 256)
    (hp : place s dev (ip, .ind 7 k) ≠ 0) :
    place (s.store (.word dev (place s dev (ip, .ind 7 k)) j) b) dev
      = Function.update (place s dev) (ip, Slot.dbl k j) b := by
  set P := place s dev (ip, .ind 7 k) with hP
  have hlt : b < 65536 := (h.part.hand_range b hb).lt
  have hoth : ∀ c, c ≠ P → (s.store (.word dev P j) b).blk dev c = s.blk dev c :=
    fun c hc => Sys.put_blk_other hc
  have hself : (s.store (.word dev P j) b).blk dev P = setWord (s.blk dev P) j b :=
    Sys.put_blk_self ..
  have hl : (s.ino ip).larg = true := by
    by_contra hl
    exact hp (by rw [hP, place_of_dev hdev]; simp [mapVal, hl])
  -- no first-level word changes: `P` is a second-level block
  have hlevel1 : ∀ ip' m i, (s.ino ip').dev = dev →
      sub ((s.store (.word dev P j) b).blk dev) (addrVal (s.ino ip') m) i
        = sub (s.blk dev) (addrVal (s.ino ip') m) i := by
    intro ip' m i hdev'
    refine sub_congr (fun h0 => hoth _ ?_) i
    intro hA
    have hpl : place s dev (ip', .addr m) = P := by rw [place_of_dev hdev']; exact hA
    have := h.place_inj (hpl ▸ hp) (hpl.trans hP)
    simp at this
  funext ⟨ip', q⟩
  by_cases hdev' : (s.ino ip').dev = dev
  · have hdev'' : ((s.store (.word dev P j) b).ino ip').dev = dev := hdev'
    have hino : (s.store (.word dev P j) b).ino ip' = s.ino ip' := rfl
    rw [place_of_dev hdev'', hino]
    cases q with
    | addr m => rw [Function.update_of_ne (by simp), place_of_dev hdev']; rfl
    | ind m i =>
        rw [Function.update_of_ne (by simp), place_of_dev hdev']
        simp only [mapVal, hlevel1 ip' m i hdev']
    | dbl m i =>
        by_cases hl' : (s.ino ip').larg = true
        · simp only [mapVal, hl', if_true, hlevel1 ip' 7 m hdev']
          have hB : place s dev (ip', .ind 7 m) = sub (s.blk dev) (addrVal (s.ino ip') 7) m := by
            rw [place_of_dev hdev']
            simp [mapVal, hl']
          by_cases hBP : sub (s.blk dev) (addrVal (s.ino ip') 7) m = P
          · have he := h.place_inj (hB ▸ hBP ▸ hp) (hB.trans (hBP.trans hP))
            simp only [Prod.mk.injEq, Slot.ind.injEq, true_and] at he
            obtain ⟨rfl, rfl⟩ := he
            rw [hBP]
            unfold sub
            rw [hself, word_setWord hlt]
            by_cases hi : i = j
            · subst hi
              simp [hp, hj]
            · rw [Function.update_of_ne (by simpa using hi), place_of_dev hdev']
              simp only [mapVal, hl', if_true, hBP, hi, if_false]
              rfl
          · have hne : (ip', Slot.dbl m i) ≠ (ip, Slot.dbl k j) := by
              rintro he
              simp only [Prod.mk.injEq, Slot.dbl.injEq] at he
              obtain ⟨rfl, rfl, -⟩ := he
              exact hBP hB.symm
            rw [Function.update_of_ne hne, place_of_dev hdev']
            simp only [mapVal, hl', if_true]
            exact sub_congr (fun _ => hoth _ hBP) i
        · have hne : (ip', Slot.dbl m i) ≠ (ip, Slot.dbl k j) := by
            rintro he
            simp only [Prod.mk.injEq] at he
            exact hl' (he.1 ▸ hl)
          rw [Function.update_of_ne hne, place_of_dev hdev']
          simp [mapVal, hl']
  · have hne : (ip', q) ≠ (ip, Slot.dbl k j) := by
      rintro he
      simp only [Prod.mk.injEq] at he
      exact hdev' (he.1 ▸ hdev)
    rw [Function.update_of_ne hne, place_other_dev hdev', place_other_dev]
    exact hdev'

end Fill

end Micronix
