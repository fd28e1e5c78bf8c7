import Micronix.Fs.Balance
import Micronix.Inode.Locks
import Micronix.Lib.Circle

/-!
# Refilling the list of free inodes

`ifill` writes the modified inodes back and goes through the blocks of the inode list from
`lastiblock` on, in a circle.  The numbers of the free inodes that it finds go to the end of the list
in the superblock, up to a hundred.

Inode numbers are words.  An inode list of more than 4095 blocks has inodes beyond the last number,
and their numbers begin with 0 again.
-/

namespace Micronix

open Bytes Super

namespace Super

/-- `s_inode[0]`, ..., `s_inode[s_ninode - 1]` -/
def inodes (sb : Bytes) : List ℕ := (List.range (ninode sb)).map (inode sb)

variable {sb sb' : Bytes} {k v : ℕ}

@[simp] lemma length_inodes (sb : Bytes) : (inodes sb).length = ninode sb := by simp [inodes]

@[simp] lemma ninode_setNinode (hv : v < 65536) : ninode (setNinode sb v) = v := word_setWord_self hv

@[simp] lemma ninode_setInode : ninode (setInode sb k v) = ninode sb := word_setWord_ne (by omega)

@[simp] lemma isize_setNinode : isize (setNinode sb v) = isize sb := word_setWord_ne (by omega)

@[simp] lemma isize_setInode : isize (setInode sb k v) = isize sb := word_setWord_ne (by omega)

lemma inode_setNinode {j : ℕ} : inode (setNinode sb v) j = inode sb j := word_setWord_ne (by omega)

lemma inode_setInode (hv : v < 65536) {j : ℕ} :
    inode (setInode sb k v) j = if j = k then v else inode sb j := by
  rw [inode, setInode, word_setWord hv]
  simp only [Nat.add_left_cancel_iff]
  rfl

/-- A number is put at the end of the list. -/
lemma inodes_push (hv : v < 65536) (hn : ninode sb < 100) :
    inodes (setNinode (setInode sb (ninode sb) v) (ninode sb + 1)) = inodes sb ++ [v] := by
  have hlen : ninode (setNinode (setInode sb (ninode sb) v) (ninode sb + 1)) = ninode sb + 1 :=
    ninode_setNinode (by omega)
  rw [inodes, hlen, List.range_succ, List.map_append, List.map_singleton, inode_setNinode,
    inode_setInode hv, if_pos rfl, inodes]
  congr 1
  refine List.map_congr_left fun j hj => ?_
  rw [inode_setNinode, inode_setInode hv, if_neg (Nat.ne_of_lt (List.mem_range.mp hj))]

end Super

namespace Kern

variable {w w' : Kern} {dev d n i k iblk itop limit : ℕ} {b sup : Bytes} {xs : List ℕ}

/-! ## One block -/

/-- The inode is free, by the `k`-th entry of a block of the inode list. -/
def isFree (b : Bytes) (k : ℕ) : Bool := (word b (16 * k)).testBit 15 = false

/-- The numbers of the free inodes of block `iblk`, as the code counts. -/
def freeIn (b : Bytes) (iblk : ℕ) : List ℕ :=
  ((List.range 16).filter (isFree b)).map fun k => (16 * iblk + 65505 + k) % 65536

lemma ifillBlock_spec (left : ℕ) : ∀ {sup : Bytes}, left ≤ 16 → ninode sup ≤ 100 →
    inodes (ifillBlock b iblk left sup) = (inodes sup ++
      ((List.range' (16 - left) left).filter (isFree b)).map
        fun k => (16 * iblk + 65505 + k) % 65536).take 100 ∧
    isize (ifillBlock b iblk left sup) = isize sup := by
  induction left with
  | zero =>
      intro sup _ hn
      refine ⟨?_, rfl⟩
      rw [ifillBlock]
      simp [hn]
  | succ left ih =>
      intro sup hl hn
      have hrange : List.range' (16 - (left + 1)) (left + 1)
          = (16 - (left + 1)) :: List.range' (16 - left) left := by
        rw [List.range'_succ]
        congr 2
        omega
      rw [hrange, ifillBlock]
      by_cases hfree : isFree b (16 - (left + 1)) = true
      · have hbit : (word b (16 * (16 - (left + 1)))).testBit 15 = false := by
          simpa [isFree] using hfree
        rw [List.filter_cons_of_pos hfree, List.map_cons]
        by_cases hroom : ninode sup < 100
        · have hlt : (16 * iblk + 65505 + (16 - (left + 1))) % 65536 < 65536 :=
            Nat.mod_lt _ (by omega)
          have hpush := inodes_push hlt hroom
          have hlen := congrArg List.length hpush
          simp only [length_inodes, List.length_append, List.length_singleton] at hlen
          have hroom' : ninode (setNinode (setInode sup (ninode sup)
              ((16 * iblk + 65505 + (16 - (left + 1))) % 65536)) (ninode sup + 1)) ≤ 100 := by omega
          obtain ⟨h1, h2⟩ := ih (Nat.le_of_succ_le hl) hroom'
          simp only [hbit, hroom, and_self, if_true]
          rw [h1, hpush, h2]
          simp
        · -- the list is full
          obtain ⟨h1, h2⟩ := ih (Nat.le_of_succ_le hl) hn
          simp only [hbit, hroom, and_false, if_false]
          have hfull : (inodes sup).length = 100 := by
            rw [length_inodes]
            omega
          rw [h1, h2, List.take_append_of_le_length (Nat.le_of_eq hfull.symm),
            List.take_append_of_le_length (Nat.le_of_eq hfull.symm)]
          exact ⟨rfl, rfl⟩
      · have hbit : ¬(word b (16 * (16 - (left + 1)))).testBit 15 = false := by
          simpa [isFree] using hfree
        obtain ⟨h1, h2⟩ := ih (Nat.le_of_succ_le hl) hn
        rw [List.filter_cons_of_neg hfree]
        simp only [hbit]
        exact ⟨h1, h2⟩

/-! ## The loop -/

/-- The blocks that the loop of `ifill` reads. -/
def ifillVisits (dev itop : ℕ) : ℕ → ℕ → Kern → List ℕ
  | 0, _, _ => []
  | limit + 1, iblk, w =>
      let iblk := if itop < iblk then 2 else iblk
      iblk :: match w.bread dev iblk with
        | none => []
        | some (ok, w) =>
            if ok then
              let w := w.put dev 1 (ifillBlock (w.blk dev iblk) iblk 16 (w.sb dev))
              let w := w.brelse dev iblk
              if 100 ≤ ninode (w.sb dev) then []
              else ifillVisits dev itop limit ((iblk + 1) % 65536) w
            else ifillVisits dev itop limit ((iblk + 1) % 65536) w

/-- Only the list of free inodes has changed. -/
structure Refills (dev : ℕ) (w w' : Kern) : Prop where
  blk : ∀ d n, ¬(d = dev ∧ n = 1) → w'.blk d n = w.blk d n
  isize : Super.isize (w'.sb dev) = Super.isize (w.sb dev)
  ilist : w'.ilist = w.ilist
  held : w'.held = w.held
  ok : w'.ok = w.ok
  lastiblock : w'.lastiblock = w.lastiblock
  me : w'.me = w.me

lemma Refills.refl (dev : ℕ) (w : Kern) : Refills dev w w :=
  ⟨fun _ _ _ => rfl, rfl, rfl, rfl, rfl, rfl, rfl⟩

lemma Refills.trans {w'' : Kern} (h : Refills dev w w') (h' : Refills dev w' w'') :
    Refills dev w w'' :=
  ⟨fun d n hn => (h'.blk d n hn).trans (h.blk d n hn), h'.isize.trans h.isize,
    h'.ilist.trans h.ilist, h'.held.trans h.held, h'.ok.trans h.ok,
    h'.lastiblock.trans h.lastiblock, h'.me.trans h.me⟩

/-- The blocks of the inode list can be read, and the process has none of them. -/
structure Reads (dev : ℕ) (w : Kern) : Prop where
  ok : ∀ n, w.ok n = true
  free : ∀ n, 2 ≤ n → (dev, n) ∉ w.held

lemma Reads.of_refills (h : Reads dev w) (hr : Refills dev w w') : Reads dev w' :=
  ⟨fun n => by rw [hr.ok, h.ok], fun n hn => by rw [hr.held]; exact h.free n hn⟩

/-- The state after one block. -/
def scanned (dev : ℕ) (w : Kern) (iblk : ℕ) : Kern :=
  { w with
    blk := fun d m =>
      if d = dev ∧ m = 1 then ifillBlock (w.blk dev iblk) iblk 16 (w.sb dev) else w.blk d m
    error := 0
    reads := w.reads + 1 }

lemma bread_ok (hok : w.ok w.reads = true) (hn : (dev, n) ∉ w.held) :
    w.bread dev n = some (true, { w with
      held := insert (dev, n) w.held, error := 0, reads := w.reads + 1 }) := by
  simp only [bread, bget, if_neg hn, Option.map_some, hok, if_true]

lemma scanned_sb : (scanned dev w iblk).sb dev = ifillBlock (w.blk dev iblk) iblk 16 (w.sb dev) :=
  if_pos ⟨rfl, rfl⟩

/-- One round of the loop. -/
lemma ifillLoop_succ (h : Reads dev w) (hi : 2 ≤ iblk) (hle : iblk ≤ itop) (hw : itop < 65535)
    (limit : ℕ) :
    (ifillLoop dev itop (limit + 1) iblk w =
      if 100 ≤ ninode ((scanned dev w iblk).sb dev) then some (iblk, scanned dev w iblk)
      else ifillLoop dev itop limit (iblk + 1) (scanned dev w iblk)) ∧
    ifillVisits dev itop (limit + 1) iblk w = iblk ::
      if 100 ≤ ninode ((scanned dev w iblk).sb dev) then []
      else ifillVisits dev itop limit (iblk + 1) (scanned dev w iblk) := by
  have hread := bread_ok (h.ok w.reads) (h.free iblk hi)
  have hmod : (iblk + 1) % 65536 = iblk + 1 := Nat.mod_eq_of_lt (by omega)
  -- the buffer is released again
  have hafter : (({ w with held := insert (dev, iblk) w.held, error := 0, reads := w.reads + 1 } :
      Kern).put dev 1 (ifillBlock (w.blk dev iblk) iblk 16 (w.sb dev))).brelse dev iblk
      = scanned dev w iblk := by
    simp only [put, brelse, scanned, Finset.erase_insert (h.free iblk hi)]
  constructor
  · rw [ifillLoop, if_neg (Nat.not_lt_of_le hle), hread]
    simp only [Option.bind_eq_bind, Option.bind_some, if_true, hmod]
    rw [← hafter]
    rfl
  · rw [ifillVisits, if_neg (Nat.not_lt_of_le hle), hread]
    simp only [if_true, hmod]
    rw [← hafter]
    rfl

lemma scanned_refills (hn : ninode (w.sb dev) ≤ 100) (iblk : ℕ) :
    Refills dev w (scanned dev w iblk) := by
  refine ⟨fun d n hn => if_neg hn, ?_, rfl, rfl, rfl, rfl, rfl⟩
  rw [scanned_sb]
  exact (ifillBlock_spec 16 (Nat.le_refl _) hn).2

/-- The blocks that the loop has read, and what it leaves. -/
structure Loop (dev itop limit iblk : ℕ) (w : Kern) (f : ℕ → List ℕ) (iblk' : ℕ) (w' : Kern) (pre : List ℕ) :
    Prop where
  refills : Refills dev w w'
  visits : ifillVisits dev itop limit iblk w = pre
  before : pre <+: Circle.route 2 itop limit iblk
  inodes : inodes (w'.sb dev) = (inodes (w.sb dev) ++ pre.flatMap f).take 100
  all : ninode (w'.sb dev) < 100 → pre = Circle.route 2 itop limit iblk
  stop : 100 ≤ ninode (w'.sb dev) → pre.getLast? = some iblk'
  two : 2 ≤ iblk'

/-- The loop of `ifill`, by induction on the blocks to go; `f` are the free inodes of each block. -/
lemma ifillLoop_spec {f : ℕ → List ℕ} (hw : itop < 65535) (limit : ℕ) : ∀ {iblk : ℕ} {w : Kern},
    Reads dev w → (0 < limit → 2 ≤ itop) → 2 ≤ iblk → ninode (w.sb dev) < 100 →
    (∀ b, 2 ≤ b → f b = freeIn (w.blk dev b) b) →
    ∃ iblk' w' pre, ifillLoop dev itop limit iblk w = some (iblk', w') ∧
      Loop dev itop limit iblk w f iblk' w' pre := by
  induction limit with
  | zero =>
      intro iblk w _ _ hi hn _
      refine ⟨iblk, w, [], rfl, .refl dev w, rfl, List.nil_prefix, ?_, fun _ => rfl,
        fun h => absurd hn (Nat.not_lt_of_le h), hi⟩
      rw [List.flatMap_nil, List.append_nil, List.take_of_length_le]
      rw [length_inodes]
      exact Nat.le_of_lt hn
  | succ limit ih =>
      intro iblk w h hitop hi hn hf
      -- beyond the last block the round is that of block 2
      wlog hle : iblk ≤ itop generalizing iblk with this
      · have hlt := Nat.lt_of_not_le hle
        have htwo := hitop (Nat.succ_pos limit)
        obtain ⟨iblk', w', pre, hloop, hl⟩ := this (Nat.le_refl 2) htwo
        have hlt2 : ¬itop < 2 := by omega
        refine ⟨iblk', w', pre, ?_, hl.refills, ?_, ?_, hl.inodes, ?_, hl.stop, hl.two⟩
        · rw [← hloop, ifillLoop, ifillLoop, if_pos hlt, if_neg hlt2]
        · rw [← hl.visits, ifillVisits, ifillVisits, if_pos hlt, if_neg hlt2]
        · rw [Circle.route_beyond hlt htwo]
          exact hl.before
        · rw [Circle.route_beyond hlt htwo]
          exact hl.all
      obtain ⟨hstep, hvis⟩ := ifillLoop_succ h hi hle hw limit
      have hr := scanned_refills (Nat.le_of_lt hn) iblk
      have hone : inodes ((scanned dev w iblk).sb dev) = (inodes (w.sb dev) ++ f iblk).take 100 := by
        rw [scanned_sb, (ifillBlock_spec 16 (Nat.le_refl _) (Nat.le_of_lt hn)).1, hf iblk hi, freeIn,
          List.range_eq_range']
      have hroute : Circle.route 2 itop (limit + 1) iblk
          = iblk :: Circle.route 2 itop limit (iblk + 1) := by
        rw [Circle.route, if_neg (Nat.not_lt_of_le hle)]
      by_cases hfull : 100 ≤ ninode ((scanned dev w iblk).sb dev)
      · rw [if_pos hfull] at hstep hvis
        refine ⟨iblk, _, [iblk], hstep, hr, hvis, ?_, ?_, fun hc => absurd hfull (Nat.not_le_of_lt hc),
          fun _ => rfl, hi⟩
        · rw [hroute]
          exact List.prefix_append [iblk] _
        · rw [hone, List.flatMap_singleton]
      · rw [if_neg hfull] at hstep hvis
        obtain ⟨iblk', w', pre, hloop, hl⟩ := ih (h.of_refills hr)
          (fun _ => hitop (Nat.succ_pos limit)) (show 2 ≤ iblk + 1 by omega) (Nat.lt_of_not_le hfull)
          fun b hb => by rw [hf b hb, hr.blk dev b (by omega)]
        have hshort : (inodes (w.sb dev) ++ f iblk).length ≤ 100 := by
          have hlen := congrArg List.length hone
          rw [length_inodes, List.length_take] at hlen
          omega
        refine ⟨iblk', w', iblk :: pre, hstep.trans hloop, hr.trans hl.refills, ?_, ?_, ?_, fun hc => ?_,
          fun hc => ?_, hl.two⟩
        · rw [hvis, hl.visits]
        · rw [hroute]
          exact List.cons_prefix_cons.mpr ⟨rfl, hl.before⟩
        · rw [hl.inodes, hone, List.take_of_length_le hshort, List.flatMap_cons, List.append_assoc]
        · rw [hroute, hl.all hc]
        · rw [List.getLast?_cons, hl.stop hc]
          rfl

/-- Before the last block that it reads the list is not full. -/
lemma ifillVisits_early {f : ℕ → List ℕ} (hw : itop < 65535) (limit : ℕ) : ∀ {iblk : ℕ} {w : Kern},
    Reads dev w → (0 < limit → 2 ≤ itop) → 2 ≤ iblk → ninode (w.sb dev) < 100 →
    (∀ b, 2 ≤ b → f b = freeIn (w.blk dev b) b) →
    (inodes (w.sb dev) ++ (ifillVisits dev itop limit iblk w).dropLast.flatMap f).length < 100 := by
  induction limit with
  | zero =>
      intro iblk w _ _ _ hn _
      simpa [ifillVisits] using hn
  | succ limit ih =>
      intro iblk w h hitop hi hn hf
      -- beyond the last block the round is that of block 2
      wlog hle : iblk ≤ itop generalizing iblk with this
      · have hlt := Nat.lt_of_not_le hle
        have htwo := hitop (Nat.succ_pos limit)
        have hlt2 : ¬itop < 2 := by omega
        have hsame : ifillVisits dev itop (limit + 1) iblk w = ifillVisits dev itop (limit + 1) 2 w := by
          rw [ifillVisits, ifillVisits, if_pos hlt, if_neg hlt2]
        rw [hsame]
        exact this (Nat.le_refl 2) htwo
      rw [(ifillLoop_succ h hi hle hw limit).2]
      split
      · simpa using hn
      · rename_i hfull
        have hr := scanned_refills (Nat.le_of_lt hn) iblk
        have hone : inodes ((scanned dev w iblk).sb dev) = (inodes (w.sb dev) ++ f iblk).take 100 := by
          rw [scanned_sb, (ifillBlock_spec 16 (Nat.le_refl _) (Nat.le_of_lt hn)).1, hf iblk hi, freeIn,
            List.range_eq_range']
        have hshort : (inodes (w.sb dev) ++ f iblk).length ≤ 100 := by
          have hlen := congrArg List.length hone
          rw [length_inodes, List.length_take] at hlen
          omega
        have hrest := ih (h.of_refills hr) (fun _ => hitop (Nat.succ_pos limit))
          (show 2 ≤ iblk + 1 by omega) (Nat.lt_of_not_le hfull)
          fun b hb => by rw [hf b hb, hr.blk dev b (by omega)]
        cases hv : ifillVisits dev itop limit (iblk + 1) (scanned dev w iblk) with
        | nil => simpa using hn
        | cons b l =>
            rw [hv, hone, List.take_of_length_le hshort] at hrest
            rw [List.dropLast_cons_of_ne_nil (List.cons_ne_nil b l), List.flatMap_cons,
              ← List.append_assoc]
            exact hrest

/-! ## The free inodes -/

/-- The number is that of an inode of the device, and the inode is free on disk. -/
def FreeOnDisk (w : Kern) (dev n : ℕ) : Prop :=
  (1 ≤ n ∧ n ≤ 16 * isize (w.sb dev)) ∧ isFree (w.blk dev ((n + 31) / 16)) ((n + 31) % 16) = true

/-- Up to block 4096 the numbers do not wrap. -/
lemma mem_freeIn (h2 : 2 ≤ iblk) (hi : iblk ≤ 4096) :
    n ∈ freeIn b iblk ↔ (n + 31) / 16 = iblk ∧ isFree b ((n + 31) % 16) = true := by
  have hnum {k : ℕ} (hk : k < 16) : (16 * iblk + 65505 + k) % 65536 + 31 = 16 * iblk + k := by omega
  rw [freeIn, List.mem_map]
  constructor
  · rintro ⟨k, hk, rfl⟩
    obtain ⟨hlt, hfree⟩ := List.mem_filter.mp hk
    have hk := List.mem_range.mp hlt
    rw [hnum hk]
    refine ⟨by omega, ?_⟩
    rw [show (16 * iblk + k) % 16 = k by omega]
    exact hfree
  · rintro ⟨hblk, hfree⟩
    have hk : (n + 31) % 16 < 16 := Nat.mod_lt _ (by omega)
    refine ⟨(n + 31) % 16, List.mem_filter.mpr ⟨List.mem_range.mpr hk, hfree⟩, ?_⟩
    have := hnum hk
    omega

lemma nodup_freeIn : (freeIn b iblk).Nodup := by
  refine (List.nodup_range.filter _).map_on fun k hk l hl heq => ?_
  have hk := List.mem_range.mp (List.mem_filter.mp hk).1
  have hl := List.mem_range.mp (List.mem_filter.mp hl).1
  omega

/-- What blocks of the inode list have, each one taken once. -/
lemma nodup_flatMap_freeIn {l : List ℕ} (hl : l.Nodup) (hb : ∀ b ∈ l, 2 ≤ b ∧ b ≤ 4096)
    (g : ℕ → Bytes) : (l.flatMap fun b => freeIn (g b) b).Nodup := by
  rw [List.nodup_flatMap]
  refine ⟨fun _ _ => nodup_freeIn, hl.imp_of_mem fun {b c} hbl hcl hne n hnb hnc => ?_⟩
  rw [mem_freeIn (hb b hbl).1 (hb b hbl).2] at hnb
  rw [mem_freeIn (hb c hcl).1 (hb c hcl).2] at hnc
  exact hne (hnb.1.symm.trans hnc.1)

/-- The blocks of the inode list have all its free inodes. -/
lemma mem_flatMap_freeIn {l : List ℕ} (hs : isize (w.sb dev) ≤ 4095)
    (hl : l.Perm (List.range' 2 (isize (w.sb dev)))) :
    n ∈ l.flatMap (fun b => freeIn (w.blk dev b) b) ↔ w.FreeOnDisk dev n := by
  rw [List.mem_flatMap]
  constructor
  · rintro ⟨b, hb, hn⟩
    obtain ⟨h2, hi⟩ := List.mem_range'_1.mp (hl.subset hb)
    rw [mem_freeIn h2 (by omega)] at hn
    obtain ⟨rfl, hfree⟩ := hn
    exact ⟨⟨by omega, by omega⟩, hfree⟩
  · rintro ⟨⟨h1, hn⟩, hfree⟩
    refine ⟨(n + 31) / 16, hl.symm.subset (List.mem_range'_1.mpr ⟨by omega, by omega⟩), ?_⟩
    rw [mem_freeIn (by omega) (by omega)]
    exact ⟨rfl, hfree⟩

/-! ## `ifill` -/

/-- What `ifill` does to the list of free inodes. -/
structure Filled (dev : ℕ) (w : Kern) (visits : List ℕ) (found : Bool) (w' : Kern) : Prop where
  /-- Each block of the inode list is visited at most once, and no other block. -/
  visits : visits.Nodup ∧ ∀ b ∈ visits, 2 ≤ b ∧ b ≤ isize (w.sb dev) + 1
  /-- The numbers are those of inodes that are free on disk. -/
  free : ∀ n ∈ inodes (w'.sb dev), w.FreeOnDisk dev n
  nodup : (inodes (w'.sb dev)).Nodup
  length : (inodes (w'.sb dev)).length ≤ 100
  /-- A free inode is missed only if the list is full. -/
  complete : (inodes (w'.sb dev)).length < 100 → ∀ n, w.FreeOnDisk dev n → n ∈ inodes (w'.sb dev)
  failed : found = false ↔ ∀ n, ¬w.FreeOnDisk dev n

/-- The loop and what comes after it. -/
def search (w : Kern) (dev : ℕ) : Option (Bool × Kern) := do
  let limit := isize (w.sb dev)
  let (iblk, w) ← ifillLoop dev ((limit + 1) % 65536) limit w.lastiblock w
  let w := { w with lastiblock := iblk }
  if ninode (w.sb dev) ≠ 0 then return (true, w) else return (false, w.setError enospc)

lemma ifill_eq (w : Kern) (dev : ℕ) : w.ifill dev = (isync w.ilist.n w).bind fun w => w.search dev := rfl

/-- From an empty list, with the facts that a second search needs. -/
lemma search_spec (h : Reads dev w) (hs : isize (w.sb dev) ≤ 4095) (hi : 2 ≤ w.lastiblock)
    (hempty : ninode (w.sb dev) = 0) :
    ∃ iblk w₁ pre, Loop dev (isize (w.sb dev) + 1) (isize (w.sb dev)) w.lastiblock w
        (fun b => freeIn (w.blk dev b) b) iblk w₁ pre ∧
      w.search dev = some (if ninode (w₁.sb dev) ≠ 0 then (true, { w₁ with lastiblock := iblk })
        else (false, ({ w₁ with lastiblock := iblk } : Kern).setError enospc)) ∧
      Filled dev w pre (decide (ninode (w₁.sb dev) ≠ 0)) w₁ := by
  have hmod : (isize (w.sb dev) + 1) % 65536 = isize (w.sb dev) + 1 := Nat.mod_eq_of_lt (by omega)
  obtain ⟨iblk, w₁, pre, hloop, hl⟩ : ∃ iblk w₁ pre,
      ifillLoop dev (isize (w.sb dev) + 1) (isize (w.sb dev)) w.lastiblock w = some (iblk, w₁) ∧
      Loop dev (isize (w.sb dev) + 1) (isize (w.sb dev)) w.lastiblock w
        (fun b => freeIn (w.blk dev b) b) iblk w₁ pre :=
    ifillLoop_spec (by omega) _ h (by omega) hi (by omega) fun _ _ => rfl
  have hsearch : w.search dev = some (if ninode (w₁.sb dev) ≠ 0 then (true, { w₁ with lastiblock := iblk })
      else (false, ({ w₁ with lastiblock := iblk } : Kern).setError enospc)) := by
    unfold search
    simp only [hmod, hloop, Option.bind_eq_bind, Option.bind_some]
    split
    · rw [if_pos ‹_›]
      rfl
    · rw [if_neg ‹_›]
      rfl
  -- the blocks are those of the inode list, each one once
  have hperm : (Circle.route 2 (isize (w.sb dev) + 1) (isize (w.sb dev)) w.lastiblock).Perm
      (List.range' 2 (isize (w.sb dev))) := by
    rcases Nat.eq_zero_or_pos (isize (w.sb dev)) with hz | hpos
    · rw [hz]
      exact .refl _
    · exact Circle.route_perm hi (by omega)
  have hnodup := hperm.nodup_iff.mpr List.nodup_range'
  have hmem : ∀ b ∈ pre, 2 ≤ b ∧ b ≤ isize (w.sb dev) + 1 := by
    intro b hb
    have := List.mem_range'_1.mp (hperm.subset (hl.before.subset hb))
    omega
  have hinodes : inodes (w₁.sb dev) = (pre.flatMap fun b => freeIn (w.blk dev b) b).take 100 := by
    have hnil : inodes (w.sb dev) = [] := List.length_eq_zero_iff.mp (by rw [length_inodes, hempty])
    rw [hl.inodes, hnil, List.nil_append]
  have hfree : ∀ n ∈ inodes (w₁.sb dev), w.FreeOnDisk dev n := by
    intro n hn
    rw [hinodes] at hn
    rw [← mem_flatMap_freeIn hs hperm]
    obtain ⟨b, hb, hn⟩ := List.mem_flatMap.mp (List.mem_of_mem_take hn)
    exact List.mem_flatMap.mpr ⟨b, hl.before.subset hb, hn⟩
  have hlen : (inodes (w₁.sb dev)).length ≤ 100 := by
    rw [hinodes, List.length_take]
    exact Nat.min_le_left ..
  have hcomplete : (inodes (w₁.sb dev)).length < 100 → ∀ n, w.FreeOnDisk dev n →
      n ∈ inodes (w₁.sb dev) := by
    intro hlt n hn
    rw [hinodes, List.length_take] at hlt
    rw [hinodes, List.take_of_length_le (by omega), hl.all (by rw [← length_inodes, hinodes, List.length_take]; exact hlt),
      mem_flatMap_freeIn hs hperm]
    exact hn
  refine ⟨iblk, w₁, pre, hl, hsearch, ⟨hl.before.sublist.nodup hnodup, hmem⟩, hfree, ?_, hlen,
    hcomplete, ?_⟩
  · rw [hinodes]
    refine (nodup_flatMap_freeIn (hl.before.sublist.nodup hnodup) (fun b hb => ?_) _).sublist
      (List.take_sublist ..)
    have := hmem b hb
    omega
  · rw [decide_eq_false_iff_not, not_not, ← length_inodes, List.length_eq_zero_iff]
    constructor
    · intro hnil n hn
      have := hcomplete (by rw [hnil]; decide) n hn
      rw [hnil] at this
      exact List.not_mem_nil this
    · intro hnone
      exact List.eq_nil_iff_forall_not_mem.mpr fun n hn => hnone n (hfree n hn)

/-! ## The inodes that are written first -/

/-- What `isync` finds: no buffer is held but superblocks, all blocks can be read, and the modified
inodes are on mounted devices, whose inode lists have at most 4095 blocks. -/
structure Syncs (w : Kern) : Prop where
  held : ∀ d n, (d, n) ∈ w.held → n = 1
  ok : ∀ n, w.ok n = true
  mounted : ∀ i < w.ilist.n, (w.ilist.slot i).mod = true →
    ∃ m, w.ilist.mlook (w.ilist.slot i).dev = some m ∧ m.isize ≤ 4095

/-- No superblock is written, and nothing but inodes is. -/
structure Synced (w w' : Kern) : Prop where
  sb : ∀ d, w'.sb d = w.sb d
  held : w'.held = w.held
  ok : w'.ok = w.ok
  lastiblock : w'.lastiblock = w.lastiblock
  n : w'.ilist.n = w.ilist.n
  mlook : w'.ilist.mlook = w.ilist.mlook
  slot : ∀ i, (w'.ilist.slot i).dev = (w.ilist.slot i).dev ∧
    ((w'.ilist.slot i).mod = true → (w.ilist.slot i).mod = true)

lemma Synced.refl (w : Kern) : Synced w w :=
  ⟨fun _ => rfl, rfl, rfl, rfl, rfl, rfl, fun _ => ⟨rfl, fun h => h⟩⟩

lemma Synced.trans {w'' : Kern} (h : Synced w w') (h' : Synced w' w'') : Synced w w'' :=
  ⟨fun d => (h'.sb d).trans (h.sb d), h'.held.trans h.held, h'.ok.trans h.ok,
    h'.lastiblock.trans h.lastiblock, h'.n.trans h.n, h'.mlook.trans h.mlook,
    fun i => ⟨(h'.slot i).1.trans (h.slot i).1, fun hm => (h.slot i).2 ((h'.slot i).2 hm)⟩⟩

lemma Syncs.of_synced (h : Syncs w) (hs : Synced w w') : Syncs w' := by
  refine ⟨fun d n hn => h.held d n (hs.held ▸ hn), fun n => by rw [hs.ok, h.ok], fun i hi hm => ?_⟩
  rw [hs.mlook, (hs.slot i).1]
  exact h.mounted i (hs.n ▸ hi) ((hs.slot i).2 hm)

lemma synced_ilock (w : Kern) (i : ℕ) : Synced w (w.ilock i) := by
  refine ⟨fun _ => rfl, rfl, rfl, rfl, rfl, rfl, fun j => ?_⟩
  have hslot : (w.ilock i).ilist.slot = (w.ilist.modSlot i fun x => { x with busy := true }).slot := rfl
  rw [hslot]
  by_cases hj : j = i
  · subst hj
    rw [Ilist.modSlot_self]
    exact ⟨rfl, fun h => h⟩
  · rw [Ilist.modSlot_ne _ _ hj]
    exact ⟨rfl, fun h => h⟩

lemma synced_irelse (w : Kern) (i : ℕ) : Synced w (w.irelse i) := by
  obtain ⟨-, -, -, -, hm, -⟩ := w.ilist.irelse_rest i
  refine ⟨fun _ => rfl, rfl, rfl, rfl, Ilist.irelse_n .., hm, fun j => ?_⟩
  by_cases hj : j = i
  · subst hj
    obtain ⟨t, ht⟩ := w.ilist.irelse_self j
    rw [irelse, ht]
    exact ⟨rfl, fun h => h⟩
  · obtain ⟨t, ht⟩ := w.ilist.irelse_other hj
    rw [irelse, ht]
    exact ⟨rfl, fun h => h⟩

/-- `iio(IWRITE, i)` of an inode on a mounted device. -/
lemma iio_synced {i : ℕ} (h : Syncs w) (hm : ∃ m, w.ilist.mlook (w.ilist.slot i).dev = some m ∧ m.isize ≤ 4095) :
    ∃ r, w.iio true i = some r ∧ Synced w r.2 := by
  obtain ⟨m, hlook, hsize⟩ := hm
  have hbad : w.ilist.badInum i = some ((w.ilist.slot i).inum == 0 ||
      decide (m.isize * 16 % 65536 < (w.ilist.slot i).inum)) := by
    rw [Ilist.badInum, hlook, Option.map_some]
  rw [iio, hbad, Option.bind_eq_bind, Option.bind_some]
  split
  · exact ⟨_, rfl, fun _ => rfl, rfl, rfl, rfl, rfl, rfl, fun _ => ⟨rfl, fun h => h⟩⟩
  · rename_i hok
    have hnum : (w.ilist.slot i).inum ≠ 0 ∧ (w.ilist.slot i).inum ≤ 65520 := by
      simp only [Bool.or_eq_true, beq_iff_eq, decide_eq_true_eq, not_or] at hok
      exact ⟨hok.1, by omega⟩
    -- the block is not a superblock
    have hblk : ((w.ilist.slot i).inum + 31) % 65536 / 16 ≠ 1 := by omega
    have hslot : ((w.ilist.iio i).slot i).dev = (w.ilist.slot i).dev ∧
        ((w.ilist.iio i).slot i).inum = (w.ilist.slot i).inum := by
      rw [Ilist.iio, Ilist.modSlot_self]
      exact ⟨rfl, rfl⟩
    have hread : ({ w with ilist := w.ilist.iio i } : Kern).bread (w.ilist.slot i).dev
        (((w.ilist.slot i).inum + 31) % 65536 / 16) = some (true, { w with
          ilist := w.ilist.iio i
          held := insert ((w.ilist.slot i).dev, ((w.ilist.slot i).inum + 31) % 65536 / 16) w.held
          error := 0
          reads := w.reads + 1 }) :=
      bread_ok (h.ok _) fun hn => hblk (h.held _ _ hn)
    simp only [hslot, hread, if_true]
    refine ⟨_, rfl, fun d => ?_, ?_, rfl, rfl, rfl, rfl, fun j => ?_⟩
    · show (if _ then _ else _) = _
      rw [if_neg fun hc => hblk hc.2.symm]
      rfl
    · exact Finset.erase_insert fun hn => hblk (h.held _ _ hn)
    · by_cases hj : j = i
      · subst hj
        simp [bdwrite, brelse, put, Ilist.writeNode, Ilist.iio]
      · simp [bdwrite, brelse, put, Ilist.writeNode, Ilist.iio, Ilist.modSlot_ne _ _ hj]

/-- `isync`, by induction on the slots to go: it ends. -/
lemma isync_spec (left : ℕ) : ∀ {w : Kern}, Syncs w → left ≤ w.ilist.n →
    ∃ w', isync left w = some w' ∧ Synced w w' := by
  induction left with
  | zero => exact fun {w} _ _ => ⟨w, rfl, .refl w⟩
  | succ left ih =>
      intro w h hl
      rw [isync]
      split
      · rename_i hmod
        have hi : w.ilist.n - (left + 1) < w.ilist.n := by omega
        set i := w.ilist.n - (left + 1)
        have hlock := synced_ilock w i
        have hslot := hlock.slot i
        obtain ⟨r, hr, hs⟩ := iio_synced (i := i) (h.of_synced hlock) (by
          rw [hlock.mlook, hslot.1]
          exact h.mounted i hi hmod.1)
        have hall : Synced w (r.2.irelse i) := (hlock.trans hs).trans (synced_irelse r.2 i)
        obtain ⟨w', hw', hs'⟩ := ih (h.of_synced hall) (by rw [hall.n]; omega)
        refine ⟨w', ?_, hall.trans hs'⟩
        rw [hr, Option.bind_eq_bind, Option.bind_some]
        exact hw'
      · exact ih h (Nat.le_of_succ_le hl)

/-- **`ifill`.**  For every inode list of at most 4095 blocks and every search position from 2 on,
whatever is on disk: from an empty list `ifill` ends, having visited each block of the inode list at
most once; the list holds numbers of inodes that are free on disk, each at most once and at most 100,
and all of them if it holds fewer; and it fails if and only if there are none.  The search position
that it leaves is again one from 2 on. -/
theorem ifill_fills (h : Syncs w) (hsize : isize (w.sb dev) ≤ 4095) (hi : 2 ≤ w.lastiblock)
    (hempty : ninode (w.sb dev) = 0) :
    ∃ w₁ found w', isync w.ilist.n w = some w₁ ∧ w.ifill dev = some (found, w') ∧
      Filled dev w₁ (ifillVisits dev (isize (w.sb dev) + 1) (isize (w.sb dev)) w.lastiblock w₁)
        found w' ∧ 2 ≤ w'.lastiblock := by
  obtain ⟨w₁, hsync, hs⟩ := isync_spec w.ilist.n h (Nat.le_refl _)
  have hreads : Reads dev w₁ := by
    refine ⟨fun n => by rw [hs.ok, h.ok], fun n hn hheld => ?_⟩
    have := h.held dev n (hs.held ▸ hheld)
    omega
  rw [← hs.sb dev] at hsize hempty ⊢
  rw [← hs.lastiblock] at hi ⊢
  obtain ⟨iblk, w₂, pre, hl, hsearch, hfill⟩ := search_spec hreads hsize hi hempty
  have hrun := ifill_eq w dev
  rw [hsync, Option.bind_some, hsearch] at hrun
  by_cases hn : ninode (w₂.sb dev) = 0
  · rw [if_neg (not_not.mpr hn)] at hrun
    rw [decide_eq_false (not_not.mpr hn)] at hfill
    refine ⟨w₁, false, _, hsync, hrun, ⟨?_, hfill.free, hfill.nodup, hfill.length, hfill.complete,
      hfill.failed⟩, hl.two⟩
    rw [hl.visits]
    exact hfill.visits
  · rw [if_pos hn] at hrun
    rw [decide_eq_true hn] at hfill
    refine ⟨w₁, true, _, hsync, hrun, ⟨?_, hfill.free, hfill.nodup, hfill.length, hfill.complete,
      hfill.failed⟩, hl.two⟩
    rw [hl.visits]
    exact hfill.visits

/-- `ifree` keeps the search position in the inode list, up to inode 65504. -/
lemma ifree_lastiblock {ip : ℕ} (hi : 2 ≤ w.lastiblock) (h1 : 1 ≤ (w.ilist.slot ip).inum)
    (hn : (w.ilist.slot ip).inum ≤ 65504) : Ensures (w.ifree ip) fun w' => 2 ≤ w'.lastiblock := by
  refine getsb_spec.bind ?_
  rintro w1 ⟨-, e, rfl⟩
  refine .some ?_
  dsimp only
  split
  · exact hi
  · exact Nat.le_min.mpr ⟨hi, by omega⟩

/-- A device with an inode list of so many blocks, all inodes free, and the search from some block on. -/
def blank (size iblk : ℕ) : Kern where
  blk := fun _ n => if n = 1 then setWord zero 0 size else zero
  ilist :=
    { n := 0, slot := fun _ => Incore.zero, icount := 0, mlook := fun _ => none,
      stage := fun _ => .idle, event := fun _ => none, own := fun _ => none, refs := fun _ => 0,
      last := none }
  lastiblock := iblk
  error := 0
  seconds := 0
  stack := 0
  me := 0
  held := {(1, 1)}
  ok := fun _ => true
  reads := 0

lemma syncs_blank (size iblk : ℕ) : Syncs (blank size iblk) := by
  refine ⟨fun d n hn => ?_, fun _ => rfl, fun i hi => absurd hi (Nat.not_lt_zero i)⟩
  obtain ⟨-, rfl⟩ := Prod.mk.inj (Finset.mem_singleton.mp hn)
  rfl

/-- Eight blocks, and the search from the last one on. -/
theorem ifill_fills_wrapped :
    ∃ w₁ found w', isync (blank 8 9).ilist.n (blank 8 9) = some w₁ ∧
      (blank 8 9).ifill 1 = some (found, w') ∧
      Filled 1 w₁ (ifillVisits 1 (isize ((blank 8 9).sb 1) + 1) (isize ((blank 8 9).sb 1))
        (blank 8 9).lastiblock w₁) found w' ∧ 2 ≤ w'.lastiblock :=
  ifill_fills (syncs_blank 8 9) (by decide) (by decide) (by decide)

/-- With 4096 blocks the last inode has the number 0, and from block 0 the search goes on with blocks
that are not in the inode list. -/
theorem ifill_wraps :
    (¬∃ w₁ found w', isync (blank 4096 4097).ilist.n (blank 4096 4097) = some w₁ ∧
      (blank 4096 4097).ifill 1 = some (found, w') ∧
      Filled 1 w₁ (ifillVisits 1 4097 4096 4097 w₁) found w') ∧
    ¬∃ w₁ found w', isync (blank 8 0).ilist.n (blank 8 0) = some w₁ ∧
      (blank 8 0).ifill 1 = some (found, w') ∧ Filled 1 w₁ (ifillVisits 1 9 8 0 w₁) found w' := by
  constructor
  · rintro ⟨w₁, found, w', -, hrun, hfill⟩
    have hzero : ((blank 4096 4097).ifill 1).map (fun r => decide (0 ∈ inodes (r.2.sb 1)))
        = some true := by
      decide +kernel
    rw [hrun, Option.map_some] at hzero
    exact absurd (hfill.free 0 (of_decide_eq_true (Option.some.inj hzero))).1.1 (by decide)
  · rintro ⟨w₁, found, w', -, -, hfill⟩
    have hfirst : 0 ∈ ifillVisits 1 9 8 0 w₁ := List.mem_cons_self
    exact absurd (hfill.visits.2 0 hfirst).1 (by decide)

end Kern

end Micronix
