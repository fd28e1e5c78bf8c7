import Micronix.Fs.Ifill
import Micronix.Lib.Writeback

/-!
# The inode list as a cache

`ilist` is a write-back cache in front of the inodes on the disks: a slot with a number carries the
inode of that number, `IMOD` is its dirty bit, and of the 32 bytes of an inode `ialloc` looks at one
bit, `IALLOC`.  `isync` writes back, and `iget` takes a slot over that is neither in use nor locked.
Neither changes which inodes are free.
-/

namespace Micronix

open Bytes Super

namespace Incore

/-- The slot is neither in use nor locked. -/
def Free (x : Incore) : Prop := x.count = 0 ∧ x.busy = false

/-- The same inode in the same use, which may have been written to the disk. -/
structure Same (x y : Incore) : Prop where
  inum : y.inum = x.inum
  dev : y.dev = x.dev
  alloc : y.alloc = x.alloc
  busy : y.busy = x.busy
  count : y.count = x.count
  mount : y.mount = x.mount
  mod : y.mod = true → x.mod = true

variable {x y z : Incore}

lemma Same.refl (x : Incore) : Same x x := ⟨rfl, rfl, rfl, rfl, rfl, rfl, fun h => h⟩

lemma Same.trans (h : Same x y) (h' : Same y z) : Same x z :=
  ⟨h'.inum.trans h.inum, h'.dev.trans h.dev, h'.alloc.trans h.alloc, h'.busy.trans h.busy,
    h'.count.trans h.count, h'.mount.trans h.mount, fun hm => h.mod (h'.mod hm)⟩

lemma Same.free (h : Same x y) : y.Free ↔ x.Free := by rw [Free, Free, h.count, h.busy]

end Incore

namespace Kern

variable {w w' : Kern} {dev num i j : ℕ}

/-- `IALLOC` in the inode on disk.  There is no inode 0. -/
def allocOnDisk (w : Kern) (t : ℕ × ℕ) : Bool :=
  t.1 == 0 || (word (w.blk t.2 ((t.1 + 31) / 16)) (16 * ((t.1 + 31) % 16))).testBit 15

/-- The inode list as a cache of the `IALLOC` bits. -/
def cache (w : Kern) : Writeback (ℕ × ℕ) Bool where
  n := w.ilist.n
  key i := if (w.ilist.slot i).inum = 0 then none else some (w.ilist.tag i)
  val i := (w.ilist.slot i).alloc
  dirty i := (w.ilist.slot i).mod
  store := w.allocOnDisk

/-- `num` is the number of an inode of a mounted device, of those that a word can count. -/
def Valid (w : Kern) (num dev : ℕ) : Prop :=
  ∃ m, w.ilist.mlook dev = some m ∧ m.isize ≤ 4094 ∧ 1 ≤ num ∧ num ≤ 16 * m.isize

/-- The table at a time when all blocks can be read and no buffers but superblocks are held.  A slot
carries an inode of a mounted device, or it is zero. -/
structure Table (w : Kern) : Prop where
  held : ∀ d n, (d, n) ∈ w.held → n = 1
  ok : ∀ n, w.ok n = true
  coherent : w.cache.Coherent
  slot : ∀ i < w.ilist.n, w.Valid (w.ilist.slot i).inum (w.ilist.slot i).dev ∨
    (w.ilist.slot i).inum = 0 ∧ (w.ilist.slot i).dev = 0 ∧ (w.ilist.slot i).mod = false

/-- Nothing has changed but slot `i`, the inode in it on disk, and the times. -/
structure Apart (i : ℕ) (w w' : Kern) : Prop where
  sb : ∀ d, w'.sb d = w.sb d
  held : w'.held = w.held
  ok : w'.ok = w.ok
  lastiblock : w'.lastiblock = w.lastiblock
  n : w'.ilist.n = w.ilist.n
  mlook : w'.ilist.mlook = w.ilist.mlook
  slot : ∀ j, j ≠ i → (w.ilist.slot j).Same (w'.ilist.slot j)

lemma Apart.refl (i : ℕ) (w : Kern) : Apart i w w :=
  ⟨fun _ => rfl, rfl, rfl, rfl, rfl, rfl, fun _ _ => .refl _⟩

lemma Apart.trans {w'' : Kern} (h : Apart i w w') (h' : Apart i w' w'') : Apart i w w'' :=
  ⟨fun d => (h'.sb d).trans (h.sb d), h'.held.trans h.held, h'.ok.trans h.ok,
    h'.lastiblock.trans h.lastiblock, h'.n.trans h.n, h'.mlook.trans h.mlook,
    fun j hj => (h.slot j hj).trans (h'.slot j hj)⟩

lemma Valid.of_mlook (h : w.Valid num dev) (hm : w'.ilist.mlook = w.ilist.mlook) :
    w'.Valid num dev := by
  rw [Valid, hm]
  exact h

lemma Table.reads (h : Table w) (dev : ℕ) : Reads dev w := by
  refine ⟨h.ok, fun n hn hheld => ?_⟩
  have := h.held dev n hheld
  omega

/-! ## The cache behind the routines -/

lemma key_eq_some {t : ℕ × ℕ} : w.cache.key i = some t ↔ (w.ilist.slot i).inum ≠ 0 ∧ w.ilist.tag i = t := by
  unfold cache
  dsimp only
  split <;> simp [*]

/-- Superblocks have no inodes. -/
lemma allocOnDisk_congr (h : ∀ d n, n ≠ 1 → w'.blk d n = w.blk d n) :
    w'.allocOnDisk = w.allocOnDisk := by
  funext t
  unfold allocOnDisk
  by_cases h0 : t.1 = 0
  · simp [h0]
  · rw [h t.2 ((t.1 + 31) / 16) (by omega)]

/-- What the cache sees of a state. -/
lemma cache_congr (hn : w'.ilist.n = w.ilist.n)
    (hslot : ∀ i, (w'.ilist.slot i).inum = (w.ilist.slot i).inum ∧
      (w'.ilist.slot i).dev = (w.ilist.slot i).dev ∧ (w'.ilist.slot i).alloc = (w.ilist.slot i).alloc ∧
      (w'.ilist.slot i).mod = (w.ilist.slot i).mod)
    (hblk : ∀ d n, n ≠ 1 → w'.blk d n = w.blk d n) : w'.cache = w.cache := by
  unfold cache
  congr 1
  · funext i
    rw [Ilist.tag, Ilist.tag, (hslot i).1, (hslot i).2.1]
  · funext i
    exact (hslot i).2.2.1
  · funext i
    exact (hslot i).2.2.2
  · exact allocOnDisk_congr hblk

lemma ilock_slot (w : Kern) (i : ℕ) :
    (w.ilock i).ilist.slot i = { w.ilist.slot i with busy := true } := w.ilist.lock_self w.me i

lemma apart_ilock (w : Kern) (i : ℕ) : Apart i w (w.ilock i) := by
  refine ⟨fun _ => rfl, rfl, rfl, rfl, rfl, rfl, fun j hj => ?_⟩
  rw [ilock, w.ilist.lock_ne w.me hj]
  exact .refl _

lemma cache_ilock (w : Kern) (i : ℕ) : (w.ilock i).cache = w.cache := by
  refine cache_congr rfl (fun j => ?_) fun _ _ _ => rfl
  by_cases hj : j = i
  · subst hj
    rw [ilock_slot]
    exact ⟨rfl, rfl, rfl, rfl⟩
  · rw [ilock, w.ilist.lock_ne w.me hj]
    exact ⟨rfl, rfl, rfl, rfl⟩

lemma apart_irelse (w : Kern) (i : ℕ) : Apart i w (w.irelse i) := by
  obtain ⟨-, -, -, -, hm, -⟩ := w.ilist.irelse_rest i
  refine ⟨fun _ => rfl, rfl, rfl, rfl, Ilist.irelse_n .., hm, fun j hj => ?_⟩
  obtain ⟨t, ht⟩ := w.ilist.irelse_other hj
  rw [irelse, ht]
  exact ⟨rfl, rfl, rfl, rfl, rfl, rfl, fun h => h⟩

lemma cache_irelse (w : Kern) (i : ℕ) : (w.irelse i).cache = w.cache := by
  refine cache_congr (Ilist.irelse_n ..) (fun j => ?_) fun _ _ _ => rfl
  by_cases hj : j = i
  · subst hj
    obtain ⟨t, ht⟩ := w.ilist.irelse_self j
    rw [irelse, ht]
    exact ⟨rfl, rfl, rfl, rfl⟩
  · obtain ⟨t, ht⟩ := w.ilist.irelse_other hj
    rw [irelse, ht]
    exact ⟨rfl, rfl, rfl, rfl⟩

lemma modify_self (w : Kern) (i : ℕ) (f : Incore → Incore) :
    (w.modify i f).ilist.slot i = f (w.ilist.slot i) := w.ilist.modSlot_self i f

lemma modify_ne (w : Kern) (f : Incore → Incore) (h : j ≠ i) :
    (w.modify i f).ilist.slot j = w.ilist.slot j := w.ilist.modSlot_ne f h

lemma apart_modify (w : Kern) (i : ℕ) (f : Incore → Incore) : Apart i w (w.modify i f) := by
  refine ⟨fun _ => rfl, rfl, rfl, rfl, rfl, rfl, fun j hj => ?_⟩
  rw [modify_ne w f hj]
  exact .refl _

/-! ## `iio` -/

lemma alloc_x4to3 (size : ℕ) (d : Bytes) : (word (Ilist.x4to3 size d) 0).testBit 15 = (word d 0).testBit 15 := rfl

/-- The block of an inode is not a superblock, and its number has no carry. -/
lemma Valid.block (h : w.Valid num dev) :
    (num + 31) % 65536 = num + 31 ∧ 2 ≤ (num + 31) / 16 ∧ num ≠ 0 := by
  obtain ⟨m, -, hs, h1, hn⟩ := h
  exact ⟨Nat.mod_eq_of_lt (by omega), by omega, by omega⟩

lemma badInum_eq {m : Mount} (hm : w.ilist.mlook (w.ilist.slot i).dev = some m) (hs : m.isize ≤ 4094) :
    w.ilist.badInum i = some (decide ¬(1 ≤ (w.ilist.slot i).inum ∧
      (w.ilist.slot i).inum ≤ 16 * m.isize)) := by
  rw [Ilist.badInum, hm, Option.map_some, Nat.mod_eq_of_lt (by omega)]
  congr 1
  rw [Bool.eq_iff_iff]
  simp only [Bool.or_eq_true, beq_iff_eq, decide_eq_true_eq]
  omega

lemma Valid.badInum (h : w.Valid (w.ilist.slot i).inum (w.ilist.slot i).dev) :
    w.ilist.badInum i = some false := by
  obtain ⟨m, hm, hs, hn⟩ := h
  rw [badInum_eq hm hs]
  simp [hn]

/-- A bad number. -/
lemma iio_bad {m : Mount} (hm : w.ilist.mlook (w.ilist.slot i).dev = some m) (hs : m.isize ≤ 4094)
    (hn : ¬(1 ≤ (w.ilist.slot i).inum ∧ (w.ilist.slot i).inum ≤ 16 * m.isize)) (write : Bool) :
    w.iio write i = some (false, w.setError eio) := by
  rw [iio, badInum_eq hm hs]
  simp only [hn, not_false_eq_true, decide_true, Option.bind_eq_bind, Option.bind_some, if_true]
  rfl

/-- `iio` up to the block of the inode. -/
lemma iio_bread (hr : Reads (w.ilist.slot i).dev w)
    (hv : w.Valid (w.ilist.slot i).inum (w.ilist.slot i).dev) :
    (((w.ilist.iio i).slot i).dev = (w.ilist.slot i).dev ∧
      ((w.ilist.iio i).slot i).inum = (w.ilist.slot i).inum) ∧
    ((w.ilist.slot i).dev, ((w.ilist.slot i).inum + 31) / 16) ∉ w.held ∧
    ({ w with ilist := w.ilist.iio i } : Kern).bread (w.ilist.slot i).dev
      (((w.ilist.slot i).inum + 31) / 16) = some (true, { w with
        ilist := w.ilist.iio i
        held := insert ((w.ilist.slot i).dev, ((w.ilist.slot i).inum + 31) / 16) w.held
        error := 0
        reads := w.reads + 1 }) := by
  have hfree := hr.free _ hv.block.2.1
  refine ⟨?_, hfree, bread_ok (hr.ok _) hfree⟩
  rw [Ilist.iio, Ilist.modSlot_self]
  exact ⟨rfl, rfl⟩

/-- The 32 bytes of an inode are stored in its place on disk. -/
lemma allocOnDisk_store {d : Bytes} (h0 : num ≠ 0)
    (hblk : ∀ d' n, w'.blk d' n = if d' = dev ∧ n = (num + 31) / 16 then
      copyBytes d 0 (w.blk dev ((num + 31) / 16)) ((num + 31) % 16 * 32) 32 else w.blk d' n) :
    w'.allocOnDisk = Function.update w.allocOnDisk (num, dev) ((word d 0).testBit 15) := by
  -- the bytes are 16 words
  have hword (n : ℕ) := word_copyBytes d (w.blk dev ((num + 31) / 16)) 0 (16 * ((num + 31) % 16)) 16 n
  rw [show 2 * (16 * ((num + 31) % 16)) = (num + 31) % 16 * 32 by omega] at hword
  funext t
  unfold allocOnDisk
  by_cases ht : t = (num, dev)
  · subst ht
    rw [Function.update_self, hblk, if_pos ⟨rfl, rfl⟩, hword, if_pos (by omega), Nat.sub_self]
    simp [h0]
  · rw [Function.update_of_ne ht]
    congr 2
    rw [hblk]
    split
    · rename_i hc
      rw [hword, if_neg fun hin => ht ?_, hc.1, hc.2]
      exact Prod.ext (by omega) hc.1
    · rfl

lemma cache_flush (hn : w'.ilist.n = w.ilist.n) (hself : (w.ilist.slot i).Same (w'.ilist.slot i))
    (hmod : (w'.ilist.slot i).mod = false) (hother : ∀ j, j ≠ i → w'.ilist.slot j = w.ilist.slot j)
    (hstore : w'.allocOnDisk = Function.update w.allocOnDisk (w.ilist.tag i) (w.ilist.slot i).alloc) :
    w'.cache = w.cache.flush i (w.ilist.tag i) := by
  have hsame (j : ℕ) : (w'.ilist.slot j).inum = (w.ilist.slot j).inum ∧
      (w'.ilist.slot j).dev = (w.ilist.slot j).dev ∧
      (w'.ilist.slot j).alloc = (w.ilist.slot j).alloc := by
    by_cases hj : j = i
    · subst hj
      exact ⟨hself.inum, hself.dev, hself.alloc⟩
    · rw [hother j hj]
      exact ⟨rfl, rfl, rfl⟩
  unfold cache Writeback.flush
  dsimp only
  congr 1
  · funext j
    rw [Ilist.tag, Ilist.tag, (hsame j).1, (hsame j).2.1]
  · funext j
    exact (hsame j).2.2
  · funext j
    by_cases hj : j = i
    · subst hj
      rw [Function.update_self, hmod]
    · rw [Function.update_of_ne hj, hother j hj]

/-- The inode after `iio` has written it. -/
lemma iio_write (hr : Reads (w.ilist.slot i).dev w)
    (hv : w.Valid (w.ilist.slot i).inum (w.ilist.slot i).dev) :
    ∃ w', w.iio true i = some (true, w') ∧ Apart i w w' ∧
      (w.ilist.slot i).Same (w'.ilist.slot i) ∧ (w'.ilist.slot i).mod = false ∧
      w'.cache = w.cache.flush i (w.ilist.tag i) := by
  obtain ⟨hmod, h2, h0⟩ := hv.block
  obtain ⟨hslot, hfree, hread⟩ := iio_bread hr hv
  rw [iio, hv.badInum, Option.bind_eq_bind, Option.bind_some]
  simp only [hslot, hmod, hread, if_true]
  -- the inode in core, and the bytes of it on disk
  have hself : ((w.ilist.iio i).writeNode i).slot i = { (w.ilist.iio i).slot i with
      node := Ilist.x4to3 (w.ilist.slot i).size (w.ilist.slot i).node, mod := false } := by
    rw [Ilist.writeNode, Ilist.modSlot_self, Ilist.iio, Ilist.modSlot_self]
  have hsame : (w.ilist.slot i).Same (((w.ilist.iio i).writeNode i).slot i) := by
    rw [hself, Ilist.iio, Ilist.modSlot_self]
    exact ⟨rfl, rfl, alloc_x4to3 .., rfl, rfl, rfl, fun h => absurd h Bool.false_ne_true⟩
  have hother (j : ℕ) (hj : j ≠ i) : ((w.ilist.iio i).writeNode i).slot j = w.ilist.slot j := by
    rw [Ilist.writeNode, Ilist.modSlot_ne _ _ hj, Ilist.iio, Ilist.modSlot_ne _ _ hj]
  refine ⟨_, rfl, ⟨fun d => ?_, Finset.erase_insert hfree, rfl, rfl, rfl, rfl, fun j hj => ?_⟩, hsame,
    by rw [bdwrite_ilist, put_ilist, hself], cache_flush rfl hsame (by rw [bdwrite_ilist, put_ilist, hself])
      hother ?_⟩
  · show (if _ then _ else _) = _
    rw [if_neg fun hc => by omega]
    rfl
  · rw [bdwrite_ilist, put_ilist, hother j hj]
    exact .refl _
  · refine allocOnDisk_store (d := (((w.ilist.iio i).writeNode i).slot i).node) h0 (fun _ _ => rfl)
      |>.trans ?_
    rw [hself]
    rfl

/-- The inode after `iio` has read it. -/
lemma iio_read (hr : Reads (w.ilist.slot i).dev w)
    (hv : w.Valid (w.ilist.slot i).inum (w.ilist.slot i).dev) :
    ∃ w', w.iio false i = some (true, w') ∧ Apart i w w' ∧ w'.blk = w.blk ∧
      (∀ j, j ≠ i → w'.ilist.slot j = w.ilist.slot j) ∧
      ∃ d size ronly, w'.ilist.slot i = { w.ilist.slot i with
        node := d, size := size, mod := false, ronly := ronly } ∧
        (word d 0).testBit 15 = w.allocOnDisk (w.ilist.tag i) := by
  obtain ⟨hmod, h2, h0⟩ := hv.block
  obtain ⟨hslot, hfree, hread⟩ := iio_bread hr hv
  rw [iio, hv.badInum, Option.bind_eq_bind, Option.bind_some]
  simp only [hslot, hmod, hread]
  have hself (d : Bytes) : ((w.ilist.iio i).readNode i d).slot i = { (w.ilist.iio i).slot i with
      node := d, size := Ilist.x3to4 d, mod := false } := by
    rw [Ilist.readNode, Ilist.modSlot_self]
  have hother (d : Bytes) (j : ℕ) (hj : j ≠ i) :
      ((w.ilist.iio i).readNode i d).slot j = w.ilist.slot j := by
    rw [Ilist.readNode, Ilist.modSlot_ne _ _ hj, Ilist.iio, Ilist.modSlot_ne _ _ hj]
  refine ⟨_, rfl, ⟨fun _ => rfl, Finset.erase_insert hfree, rfl, rfl, rfl, rfl, fun j hj => ?_⟩, rfl,
    fun j hj => hother _ j hj, _, _, _, (hself _).trans (by rw [Ilist.iio, Ilist.modSlot_self]), ?_⟩
  · rw [brelse_ilist, hother _ j hj]
    exact .refl _
  · unfold allocOnDisk word Ilist.tag
    simp only [beq_eq_false_iff_ne.mpr h0, Bool.false_or]
    rw [show 2 * (16 * (((w.ilist.slot i).inum + 31) % 16)) =
      ((w.ilist.slot i).inum + 31) % 16 * 32 by omega]
    simp only [Nat.mul_zero, Nat.add_zero, Nat.zero_add]

/-! ## Taking a slot over -/

/-- Two states that differ in slot `i` and nowhere on disk. -/
lemma cache_replace {k : Option (ℕ × ℕ)} {a : Bool} (hn : w'.ilist.n = w.ilist.n)
    (hother : ∀ j, j ≠ i → w'.ilist.slot j = w.ilist.slot j)
    (hk : (if (w'.ilist.slot i).inum = 0 then none else some (w'.ilist.tag i)) = k)
    (ha : (w'.ilist.slot i).alloc = a) (hmod : (w'.ilist.slot i).mod = false)
    (hblk : w'.blk = w.blk) :
    w'.cache = { w.cache with
      key := Function.update w.cache.key i k
      val := Function.update w.cache.val i a
      dirty := Function.update w.cache.dirty i false } := by
  have hstore : w'.allocOnDisk = w.allocOnDisk := allocOnDisk_congr fun d n _ => by rw [hblk]
  unfold cache
  rw [hn, hstore]
  congr 1
  · funext j
    by_cases hj : j = i
    · subst hj
      rw [Function.update_self, hk]
    · have htag : w'.ilist.tag j = w.ilist.tag j := by rw [Ilist.tag, Ilist.tag, hother j hj]
      rw [Function.update_of_ne hj, hother j hj, htag]
  · funext j
    by_cases hj : j = i
    · subst hj
      rw [Function.update_self, ha]
    · rw [Function.update_of_ne hj, hother j hj]
  · funext j
    by_cases hj : j = i
    · subst hj
      rw [Function.update_self, hmod]
    · rw [Function.update_of_ne hj, hother j hj]

/-- The slot that `iget` takes over, marked for other searchers. -/
def retagged (w : Kern) (i num dev : ℕ) : Kern :=
  w.modify i fun x => { x with inum := num, dev := dev, count := 0, mount := none }

lemma retagged_slot (w : Kern) (i num dev : ℕ) : (w.retagged i num dev).ilist.slot i =
    { w.ilist.slot i with inum := num, dev := dev, count := 0, mount := none } :=
  w.modify_self i _

/-- Taking a slot over for an inode. -/
lemma claim_valid (hr : Reads dev w) (hv : w.Valid num dev) :
    ∃ w', w.claim i num dev = some (some i, w') ∧ Apart i w w' ∧
      ((w'.ilist.slot i).inum = num ∧ (w'.ilist.slot i).dev = dev) ∧
      ((w'.ilist.slot i).count = 0 ∧ (w'.ilist.slot i).mount = none) ∧
      w'.cache = w.cache.load i (num, dev) := by
  have hslot := w.retagged_slot i num dev
  have hv' : (w.retagged i num dev).Valid ((w.retagged i num dev).ilist.slot i).inum
      ((w.retagged i num dev).ilist.slot i).dev := by
    rw [hslot]
    exact hv
  obtain ⟨w', hread, hap, hblk, hother, d, size, ronly, hself, halloc⟩ := iio_read (i := i)
    (w := w.retagged i num dev) (by rw [hslot]; exact ⟨hr.ok, hr.free⟩) hv'
  have htag : (w.retagged i num dev).ilist.tag i = (num, dev) := by rw [Ilist.tag, hslot]
  refine ⟨w', ?_, (w.apart_modify i _).trans hap, ?_, ?_, ?_⟩
  · rw [claim]
    show ((w.retagged i num dev).iio false i).bind _ = _
    rw [hread]
    rfl
  · rw [hself, hslot]
    exact ⟨rfl, rfl⟩
  · rw [hself, hslot]
    exact ⟨rfl, rfl⟩
  · refine cache_replace hap.n (fun j hj => ?_) ?_ ?_ ?_ hblk
    · rw [hother j hj]
      exact w.modify_ne _ hj
    · rw [Ilist.tag, hself, hslot, if_neg hv.block.2.2]
    · rw [hself]
      refine halloc.trans ?_
      rw [htag]
      rfl
    · rw [hself]

/-- Taking a slot over for a number that is none of an inode. -/
lemma claim_bad {m : Mount} (hm : w.ilist.mlook dev = some m) (hs : m.isize ≤ 4094)
    (hn : ¬(1 ≤ num ∧ num ≤ 16 * m.isize)) :
    ∃ w', w.claim i num dev = some (none, w') ∧ Apart i w w' ∧
      ((w'.ilist.slot i).inum = 0 ∧ (w'.ilist.slot i).dev = 0 ∧ (w'.ilist.slot i).mod = false) ∧
      ((w'.ilist.slot i).count = 0 ∧ (w'.ilist.slot i).busy = false ∧ (w'.ilist.slot i).mount = none) ∧
      w'.cache = w.cache.drop i false := by
  have hslot := w.retagged_slot i num dev
  have hbad : (w.retagged i num dev).iio false i = some (false, (w.retagged i num dev).setError eio) := by
    refine iio_bad (m := m) ?_ hs ?_ false
    · rw [hslot]
      exact hm
    · rw [hslot]
      exact hn
  set w₁ := ((w.retagged i num dev).setError eio).modify i fun _ => Incore.zero with hw₁
  have hzero : w₁.ilist.slot i = Incore.zero := modify_self _ i _
  obtain ⟨t, ht⟩ := w₁.ilist.irelse_self i
  have hself : (w₁.irelse i).ilist.slot i = { Incore.zero with time := t } := by
    rw [irelse, ht, hzero]
    rfl
  have hap : Apart i w w₁ := by
    have h₁ := (w.apart_modify i _).trans (apart_modify (w.retagged i num dev) i fun _ => Incore.zero)
    exact ⟨h₁.sb, h₁.held, h₁.ok, h₁.lastiblock, h₁.n, h₁.mlook, h₁.slot⟩
  refine ⟨w₁.irelse i, ?_, hap.trans (w₁.apart_irelse i), ?_, ?_, ?_⟩
  · rw [claim]
    show ((w.retagged i num dev).iio false i).bind _ = _
    rw [hbad]
    rfl
  · rw [hself]
    exact ⟨rfl, rfl, rfl⟩
  · rw [hself]
    exact ⟨rfl, rfl, rfl⟩
  · rw [cache_irelse]
    refine cache_replace rfl (fun j hj => ?_) ?_ ?_ ?_ rfl
    · have hre : (w.retagged i num dev).ilist.slot j = w.ilist.slot j := w.modify_ne _ hj
      exact (modify_ne _ _ hj).trans hre
    · rw [hzero]
      rfl
    · rw [hzero]
      rfl
    · rw [hzero]
      rfl

end Kern

end Micronix
