import Micronix.Host.Taken

/-!
# Allocation in `bmap`

`bmap` with `alloc` takes up to three blocks: the one to which a small file's addresses move, a single
indirect block and a block for data.  On the way from the image at the start the inode keeps its map
(`Stage`), but for a new single indirect block, which is put into the inode with whatever is in it.
-/

namespace Micronix

namespace Host

open Bytes Super Program
open Fslib (SameRange)

variable {im₀ : Image} {d₀ : Bytes} {L₀ L : List ℕ} {s t : Lib} {ip : Inode} {b : ℕ}

/-- The indirect blocks below the double indirect one are different, and none of them is the latter or
below it. -/
def Apart (blk : ℕ → Bytes) (d : Bytes) : Prop :=
  Dsknod.ilarg d = true → ∀ i < 7, Dsknod.addr d i ≠ 0 →
    (∀ j < 8, j ≠ i → Dsknod.addr d j ≠ Dsknod.addr d i) ∧
      ∀ k < 256, sub blk (Dsknod.addr d 7) k ≠ Dsknod.addr d i

/-! ## What a step does to the map -/

section Map

variable {blk : ℕ → Bytes} {d : Bytes}

/-- A small file's addresses move to a block of their own. -/
lemma mapOf_convert (hb : b < 65536) (hb0 : b ≠ 0) (hs : Dsknod.ilarg d = false) (l : ℕ) :
    mapOf (Function.update blk b (convertBlock d)) (convertInode d b) l = mapOf blk d l := by
  have hzero : sub (Function.update blk b (convertBlock d)) 0 = fun _ => 0 :=
    funext fun k => Micronix.sub_zero _ k
  rw [mapOf, mapOf, ilarg_convert, hs]
  simp only [if_true, Bool.false_eq_true, if_false]
  split_ifs with h7 h8 h8
  · rw [addr_convert hb (by omega), if_pos (by omega), sub, if_pos ⟨hb0, by omega⟩,
      Function.update_self, word_convertBlock, if_pos (by omega), Nat.mod_eq_of_lt (by omega)]
  · rw [addr_convert hb (by omega)]
    split_ifs with h0
    · rw [sub, if_pos ⟨hb0, by omega⟩, Function.update_self, word_convertBlock, if_neg (by omega)]
    · rw [hzero]
  · omega
  · rw [addr_convert hb (by omega), if_neg (by omega), hzero]
    exact Micronix.sub_zero _ _

/-- A hole among the single indirect blocks is filled, with whatever is in the block. -/
lemma mapOf_newIndirect {i : ℕ} (hb : b < 65536) (hb0 : b ≠ 0) (hl : Dsknod.ilarg d = true)
    (hi : i < 7) (l : ℕ) :
    mapOf blk (Dsknod.setAddr d i b) l =
      if l / 256 = i then word (blk b) (l % 256) else mapOf blk d l := by
  have hmod : l % 256 < 256 := Nat.mod_lt _ (by omega)
  rw [mapOf, mapOf, ilarg_setAddr, hl]
  simp only [if_true, addr_setAddr hb]
  rcases lt_or_ge (l / 256) 7 with h7 | h7
  · rw [if_pos h7, if_pos h7]
    split_ifs
    · exact sub_of_lt hb0 hmod
    · rfl
  · rw [if_neg (by omega), if_neg (by omega), if_neg (by omega), if_neg (by omega)]

/-- A word of a single indirect block. -/
lemma mapOf_word {i k r : ℕ} (ha : Apart blk d) (hl : Dsknod.ilarg d = true) (hi : i < 7)
    (h0 : Dsknod.addr d i ≠ 0) (hk : k < 256) (hr : r < 65536) (l : ℕ) :
    mapOf (Function.update blk (Dsknod.addr d i) (setWord (blk (Dsknod.addr d i)) k r)) d l =
      if l = 256 * i + k then r else mapOf blk d l := by
  obtain ⟨haddr, hdouble⟩ := ha hl i hi h0
  have hother : ∀ c, c ≠ Dsknod.addr d i → ∀ n,
      sub (Function.update blk (Dsknod.addr d i) (setWord (blk (Dsknod.addr d i)) k r)) c n =
        sub blk c n :=
    fun c hc => sub_congr fun _ => Function.update_of_ne hc _ _
  rw [mapOf, mapOf, hl]
  simp only [if_true]
  rcases lt_or_ge (l / 256) 7 with h7 | h7
  · rw [if_pos h7, if_pos h7]
    by_cases hli : l / 256 = i
    · have hword : l % 256 = k ↔ l = 256 * i + k := by omega
      have hmod : l % 256 < 256 := Nat.mod_lt _ (by omega)
      rw [hli, sub_of_lt h0 hmod, sub_of_lt h0 hmod, Function.update_self, word_setWord hr]
      exact if_congr hword rfl rfl
    · have hne : l ≠ 256 * i + k := by omega
      rw [hother _ (haddr _ (by omega) hli), if_neg hne]
  · rw [if_neg (by omega), if_neg (by omega), if_neg (by omega),
      hother _ (haddr 7 (by omega) (by omega))]
    refine hother _ ?_ _
    rcases lt_or_ge (l / 256 - 7) 256 with hlt | hge
    · exact hdouble _ hlt
    · rw [sub, if_neg (by omega)]
      exact h0.symm

end Map

/-- The image `im₀` with the inode `d₀` and the free list `L₀` has become that of `s` with the inode
`ip` and the free list `L`. -/
structure Stage (im₀ : Image) (d₀ : Bytes) (L₀ : List ℕ) (s : Lib) (ip : Inode) (L : List ℕ) :
    Prop where
  ready : Ready s ip.fs L
  inum : 1 ≤ ip.inum ∧ ip.inum ≤ I_PER_BLK * isize im₀.sb
  range : SameRange im₀.sb (s.fs ip.fs).sb
  apart : Apart (s.fs ip.fs).blk ip.ondisk
  own : ∀ b, Meta (s.fs ip.fs).blk ip.ondisk b → InRange im₀.sb b ∧ b ∉ L
  origin : ∀ b, Meta (s.fs ip.fs).blk ip.ondisk b → b ∈ L₀ ∨ Meta im₀.blk d₀ b
  list : ∀ b, b ∈ L → b ∈ L₀
  blk : ∀ b, InRange im₀.sb b → b ∉ L₀ → ¬Meta im₀.blk d₀ b → (s.fs ip.fs).blk b = im₀.blk b
  inode : ∀ j, 1 ≤ j → j ≠ ip.inum → j ≤ I_PER_BLK * isize im₀.sb →
    dsknod (s.fs ip.fs).blk j = dsknod im₀.blk j

/-- Block `b` has been taken and is nowhere yet. -/
structure Hand (im₀ : Image) (L₀ : List ℕ) (s : Lib) (ip : Inode) (L : List ℕ) (b : ℕ) : Prop where
  inRange : InRange im₀.sb b
  taken : b ∈ L₀
  notMem : b ∉ L
  fresh : ¬Meta (s.fs ip.fs).blk ip.ondisk b

lemma apart_congr {blk blk' : ℕ → Bytes} {d : Bytes} (h : Dsknod.ilarg d = true →
    Dsknod.addr d 7 ≠ 0 → blk' (Dsknod.addr d 7) = blk (Dsknod.addr d 7)) (ha : Apart blk d) :
    Apart blk' d := by
  intro hl i hi h0
  obtain ⟨haddr, hdouble⟩ := ha hl i hi h0
  refine ⟨haddr, fun k hk => ?_⟩
  rw [sub_congr (h hl)]
  exact hdouble k hk

namespace Stage

lemma inRange (h : Stage im₀ d₀ L₀ s ip L) (hb : b ∈ L) : InRange im₀.sb b :=
  h.range.inRange.mp (h.ready.free.kept.2 b hb)

/-- The block of the inode is before those for files. -/
lemma inodeBlock_lt (h : Stage im₀ d₀ L₀ s ip L) : inodeBlock ip.inum < isize im₀.sb + 2 :=
  Host.inodeBlock_lt h.inum.1 h.inum.2

/-- A double indirect block is an indirect block. -/
lemma meta_seven {blk : ℕ → Bytes} {d : Bytes} (hl : Dsknod.ilarg d = true)
    (h7 : Dsknod.addr d 7 ≠ 0) : Meta blk d (Dsknod.addr d 7) :=
  ⟨h7, hl, Or.inl ⟨7, by omega, rfl⟩⟩

/-- What a step has to say about itself: what it has written, and which indirect blocks are new. -/
lemma next (h : Stage im₀ d₀ L₀ s ip L) {d : Bytes} {L' : List ℕ} (hr : Ready t ip.fs L')
    (hrange : SameRange (s.fs ip.fs).sb (t.fs ip.fs).sb) (hL : ∀ b, b ∈ L' → b ∈ L)
    (hapart : Apart (t.fs ip.fs).blk d)
    (hmeta : ∀ c, Meta (t.fs ip.fs).blk d c → c ∉ L' ∧
      (InRange im₀.sb c ∧ c ∈ L₀ ∨ Meta (s.fs ip.fs).blk ip.ondisk c))
    (hblk : ∀ c, InRange im₀.sb c → c ∉ L₀ → ¬Meta (s.fs ip.fs).blk ip.ondisk c →
      (t.fs ip.fs).blk c = (s.fs ip.fs).blk c)
    (hinode : ∀ j, 1 ≤ j → j ≠ ip.inum → j ≤ I_PER_BLK * isize im₀.sb →
      dsknod (t.fs ip.fs).blk j = dsknod (s.fs ip.fs).blk j) :
    Stage im₀ d₀ L₀ t { ip with ondisk := d } L' where
  ready := hr
  inum := h.inum
  range := ⟨hrange.1.trans h.range.1, hrange.2.trans h.range.2⟩
  apart := hapart
  own c hc := by
    obtain ⟨hL', ⟨hin, -⟩ | hold⟩ := hmeta c hc
    · exact ⟨hin, hL'⟩
    · exact ⟨(h.own c hold).1, hL'⟩
  origin c hc := by
    obtain ⟨-, ⟨-, hL₀⟩ | hold⟩ := hmeta c hc
    · exact Or.inl hL₀
    · exact h.origin c hold
  list c hc := h.list c (hL c hc)
  blk c hc hL₀ hm := by
    have hold : ¬Meta (s.fs ip.fs).blk ip.ondisk c := fun hm' => (h.origin c hm').elim hL₀ hm
    rw [hblk c hc hL₀ hold, h.blk c hc hL₀ hm]
  inode j hj hne hle := by rw [hinode j hj hne hle, h.inode j hj hne hle]

/-- The other inodes' blocks are left alone. -/
lemma dsknod_of_blk {blk blk' : ℕ → Bytes} {c j : ℕ} (hc : InRange im₀.sb c)
    (hblk : ∀ c', c' ≠ c → blk' c' = blk c') (hj : 1 ≤ j) (hle : j ≤ I_PER_BLK * isize im₀.sb) :
    dsknod blk' j = dsknod blk j :=
  dsknod_congr (hblk _ (ne_inodeBlock hj hle hc).symm)

/-- A block is taken. -/
lemma balloc (h : Stage im₀ d₀ L₀ s ip (b :: L)) :
    ∃ t, balloc ip.fs s = .ok b t ∧ Stage im₀ d₀ L₀ t ip L ∧ Hand im₀ L₀ t ip L b ∧
      t.fs ip.fs = (s.fs ip.fs).pop.2 ∧ (s.fs ip.fs).pop.1 = b ∧
      (∀ c, c ≠ b → (t.fs ip.fs).blk c = (s.fs ip.fs).blk c) ∧
      (∀ c, Meta (t.fs ip.fs).blk ip.ondisk c ↔ Meta (s.fs ip.fs).blk ip.ondisk c) ∧
      ∀ l, mapOf (t.fs ip.fs).blk ip.ondisk l = mapOf (s.fs ip.fs).blk ip.ondisk l := by
  obtain ⟨t, hrun, hready, hfs, htakes⟩ := h.ready.balloc
  have hmem : b ∈ b :: L := List.mem_cons_self
  have hin := h.inRange hmem
  have hnd := List.nodup_cons.mp h.ready.free.kept.1
  have hne : ∀ c, Meta (s.fs ip.fs).blk ip.ondisk c → c ≠ b :=
    fun c hc e => (h.own c hc).2 (e ▸ hmem)
  have hseven : Dsknod.ilarg ip.ondisk = true → Dsknod.addr ip.ondisk 7 ≠ 0 →
      (t.fs ip.fs).blk (Dsknod.addr ip.ondisk 7) = (s.fs ip.fs).blk (Dsknod.addr ip.ondisk 7) :=
    fun hl h7 => htakes.other (hne _ (meta_seven hl h7))
  have hmeta := meta_congr hseven
  refine ⟨t, hrun, ?_, ⟨hin, h.list b hmem, hnd.1, ?_⟩, hfs, h.ready.free.pop_cons.1,
    fun _ => htakes.other, hmeta, ?_⟩
  · refine h.next hready htakes.range (fun c hc => List.mem_cons_of_mem b hc)
      (apart_congr hseven h.apart) ?_ ?_ ?_
    · intro c hc
      rw [hmeta] at hc
      exact ⟨fun hL => (h.own c hc).2 (List.mem_cons_of_mem b hL), Or.inr hc⟩
    · intro c _ hL₀ _
      exact htakes.other fun e => hL₀ (e ▸ h.list b hmem)
    · intro j hj _ hle
      exact dsknod_of_blk hin (fun c hc => htakes.other hc) hj hle
  · rw [hmeta]
    exact fun hc => hne b hc rfl
  · exact mapOf_congr fun c hc => htakes.other (hne c hc)

/-- An indirect block, or one in hand, is written through `iblk`. -/
lemma install (h : Stage im₀ d₀ L₀ s ip L) {c : ℕ} (hc : InRange im₀.sb c) (hL : c ∉ L)
    (hfrom : c ∈ L₀ ∨ Meta (s.fs ip.fs).blk ip.ondisk c)
    (h7 : Dsknod.ilarg ip.ondisk = true → Dsknod.addr ip.ondisk 7 ≠ c) (buf : Bytes) :
    ∃ t, install .iblk ip.fs c buf s = .ok () t ∧ Stage im₀ d₀ L₀ t ip L ∧
      (∀ c, Meta (t.fs ip.fs).blk ip.ondisk c ↔ Meta (s.fs ip.fs).blk ip.ondisk c) ∧
      t.fs ip.fs = { s.fs ip.fs with blk := Function.update (s.fs ip.fs).blk c buf } := by
  obtain ⟨t, hrun, hready, hfs⟩ := h.ready.install_iblk (by rw [h.range.1]; exact hc.1) hL buf
  have hother : ∀ c', c' ≠ c → (t.fs ip.fs).blk c' = (s.fs ip.fs).blk c' := by
    intro c' hc'
    rw [hfs]
    exact Function.update_of_ne hc' _ _
  have hseven : Dsknod.ilarg ip.ondisk = true → Dsknod.addr ip.ondisk 7 ≠ 0 →
      (t.fs ip.fs).blk (Dsknod.addr ip.ondisk 7) = (s.fs ip.fs).blk (Dsknod.addr ip.ondisk 7) :=
    fun hl _ => hother _ (h7 hl)
  refine ⟨t, hrun, ?_, meta_congr hseven, hfs⟩
  refine h.next hready ?_ (fun _ => id) (apart_congr hseven h.apart) ?_ ?_ ?_
  · rw [hfs]
    exact ⟨rfl, rfl⟩
  · intro c' hc'
    rw [meta_congr hseven] at hc'
    exact ⟨(h.own c' hc').2, Or.inr hc'⟩
  · intro c' _ hL₀ hm
    exact hother c' fun e => hfrom.elim (e ▸ hL₀) (e ▸ hm)
  · intro j hj _ hle
    exact dsknod_of_blk hc hother hj hle

/-- The inode is written, with the block in hand in it. -/
lemma iput (h : Stage im₀ d₀ L₀ s ip L) (hb : Hand im₀ L₀ s ip L b) {d : Bytes}
    (hapart : Apart (s.fs ip.fs).blk d)
    (hmeta : ∀ c, Meta (s.fs ip.fs).blk d c → c = b ∨ Meta (s.fs ip.fs).blk ip.ondisk c) :
    ∃ t, iput .cached { ip with ondisk := d } s = .ok () t ∧
      Stage im₀ d₀ L₀ t { ip with ondisk := d } L ∧ (t.fs ip.fs).sb = (s.fs ip.fs).sb ∧
      (∀ c, InRange im₀.sb c → (t.fs ip.fs).blk c = (s.fs ip.fs).blk c) ∧
      (∀ c, Meta (t.fs ip.fs).blk d c ↔ Meta (s.fs ip.fs).blk d c) ∧
      ∀ l, mapOf (t.fs ip.fs).blk d l = mapOf (s.fs ip.fs).blk d l := by
  have hlt := h.inodeBlock_lt
  rw [← h.range.1] at hlt
  have hrest : Ready s ({ ip with ondisk := d } : Inode).fs L := h.ready
  obtain ⟨t, hrun, hready, hfs⟩ := hrest.iput hlt
  have hother : ∀ c, InRange im₀.sb c → (t.fs ip.fs).blk c = (s.fs ip.fs).blk c := by
    intro c hc
    rw [hfs]
    exact Function.update_of_ne (ne_inodeBlock h.inum.1 h.inum.2 hc) _ _
  have hown : ∀ c, Meta (s.fs ip.fs).blk d c → InRange im₀.sb c := by
    intro c hc
    rcases hmeta c hc with rfl | hold
    · exact hb.inRange
    · exact (h.own c hold).1
  have hseven : Dsknod.ilarg d = true → Dsknod.addr d 7 ≠ 0 →
      (t.fs ip.fs).blk (Dsknod.addr d 7) = (s.fs ip.fs).blk (Dsknod.addr d 7) :=
    fun hl h7 => hother _ (hown _ (meta_seven hl h7))
  refine ⟨t, hrun, ?_, by rw [hfs], hother, meta_congr hseven,
    mapOf_congr fun c hc => hother c (hown c hc)⟩
  refine h.next hready (by rw [hfs]; exact ⟨rfl, rfl⟩) (fun _ => id) (apart_congr hseven hapart)
    ?_ ?_ ?_
  · intro c hc
    rw [meta_congr hseven] at hc
    rcases hmeta c hc with rfl | hold
    · exact ⟨hb.notMem, Or.inl ⟨hb.inRange, hb.taken⟩⟩
    · exact ⟨(h.own c hold).2, Or.inr hold⟩
  · intro c hc _ _
    exact hother c hc
  · intro j hj hne _
    rw [hfs]
    exact dsknod_put d h.inum.1 hj hne

lemma convert_apply {how : How} {u v : Lib} (hballoc : Host.balloc ip.fs s = .ok b u)
    (hinst : Host.install .iblk ip.fs b (convertBlock ip.ondisk) u = .ok () v)
    (hput : Host.iput how { ip with ondisk := convertInode ip.ondisk b } v = .ok () t) :
    Host.convert how ip s = .ok { ip with ondisk := convertInode ip.ondisk b } t := by
  rw [Host.convert, bind_ok hballoc]
  exact (bind_ok hinst).trans (bind_ok hput)

/-- A small file with a block in hand becomes a large one. -/
lemma convert (h : Stage im₀ d₀ L₀ s ip (b :: L)) (hs : ip.ilarg = false) :
    ∃ d t, convert .cached ip s = .ok { ip with ondisk := d } t ∧
      Stage im₀ d₀ L₀ t { ip with ondisk := d } L ∧ Dsknod.ilarg d = true ∧
      (∀ i < 8, Dsknod.addr d i = if i = 0 then b else 0) ∧
      (t.fs ip.fs).sb = (s.fs ip.fs).pop.2.sb ∧
      (∀ c ∈ L, (t.fs ip.fs).blk c = (s.fs ip.fs).pop.2.blk c) ∧
      ∀ l, mapOf (t.fs ip.fs).blk d l = mapOf (s.fs ip.fs).blk ip.ondisk l := by
  obtain ⟨u, hballoc, hu, hand, hpop, -, -, -, hmap⟩ := h.balloc
  have hb16 : b < 65536 := hand.inRange.2.trans (Bytes.word_lt _ 1)
  have hb0 := hand.inRange.ne_zero
  have hsmall : ∀ {blk c}, ¬Meta blk ip.ondisk c := fun hm => by
    have hl := hm.2.1
    rw [show Dsknod.ilarg ip.ondisk = false from hs] at hl
    cases hl
  obtain ⟨v, hinst, hv, -, hvfs⟩ := hu.install hand.inRange hand.notMem (Or.inl hand.taken)
    (fun hl => by rw [show Dsknod.ilarg ip.ondisk = false from hs] at hl; cases hl)
    (convertBlock ip.ondisk)
  have haddr : ∀ i < 8, Dsknod.addr (convertInode ip.ondisk b) i = if i = 0 then b else 0 :=
    fun i hi => addr_convert hb16 hi
  have hmeta : ∀ {blk c}, Meta blk (convertInode ip.ondisk b) c → c = b := by
    rintro blk c ⟨hc, -, ⟨i, hi, rfl⟩ | ⟨k, -, rfl⟩⟩
    · rw [haddr i hi] at hc ⊢
      split_ifs at hc ⊢ with hi0
      · rfl
      · exact absurd rfl hc
    · rw [haddr 7 (by omega), if_neg (by omega), Micronix.sub_zero] at hc
      exact absurd rfl hc
  have hapart : Apart (v.fs ip.fs).blk (convertInode ip.ondisk b) := by
    intro _ i hi h0
    rw [haddr i (by omega)] at h0 ⊢
    have hi0 : i = 0 := by
      by_contra hne
      exact h0 (if_neg hne)
    rw [if_pos hi0]
    refine ⟨fun j hj hne => ?_, fun k _ => ?_⟩
    · rw [haddr j hj, if_neg (by omega)]
      exact hb0.symm
    · rw [haddr 7 (by omega), if_neg (by omega), Micronix.sub_zero]
      exact hb0.symm
  obtain ⟨t, hput, ht, hsb, hblk, -, hmap'⟩ := hv.iput
    ⟨hand.inRange, hand.taken, hand.notMem, hsmall⟩ hapart fun c hc => Or.inl (hmeta hc)
  refine ⟨_, t, ?_, ht, ilarg_convert b, haddr, ?_, ?_, ?_⟩
  · exact convert_apply hballoc hinst hput
  · have hu : (u.fs ip.fs).sb = (s.fs ip.fs).pop.2.sb := congrArg Image.sb hpop
    rw [hsb, hvfs, ← hu]
  · intro c hc
    rw [hblk c (h.inRange (List.mem_cons_of_mem b hc)), hvfs, hpop]
    exact Function.update_of_ne (ne_of_mem_of_not_mem hc hand.notMem) _ _
  · intro l
    rw [hmap', hvfs, mapOf_convert hb16 hb0 hs, hmap]

/-- A single indirect block is put into the inode. -/
lemma newIndirect (h : Stage im₀ d₀ L₀ s ip (b :: L)) (hl : ip.ilarg = true) {i : ℕ} (hi : i < 7)
    (h0 : ip.addr i = 0) :
    ∃ u t, Host.balloc ip.fs s = .ok b u ∧ Host.iput .cached (ip.setAddr i b) u = .ok () t ∧
      Stage im₀ d₀ L₀ t (ip.setAddr i b) L ∧ (ip.setAddr i b).addr i = b ∧
      (s.fs ip.fs).pop.1 = b ∧ (t.fs ip.fs).blk b = (s.fs ip.fs).pop.2.blk b ∧
      (∀ c, c = b ∨ Meta (s.fs ip.fs).blk ip.ondisk c →
        Meta (t.fs ip.fs).blk (ip.setAddr i b).ondisk c) ∧
      ∀ l, mapOf (t.fs ip.fs).blk (ip.setAddr i b).ondisk l =
        if l / 256 = i then word ((s.fs ip.fs).pop.2.blk b) (l % 256)
        else mapOf (s.fs ip.fs).blk ip.ondisk l := by
  obtain ⟨u, hballoc, hu, hand, hpop, hb, -, hsame, hmap⟩ := h.balloc
  have hb16 : b < 65536 := hand.inRange.2.trans (Bytes.word_lt _ 1)
  have hb0 := hand.inRange.ne_zero
  have haddr : ∀ j, Dsknod.addr (ip.setAddr i b).ondisk j = if j = i then b else ip.addr j :=
    fun j => addr_setAddr hb16
  have hlarg : Dsknod.ilarg (ip.setAddr i b).ondisk = true := (ilarg_setAddr i b).trans hl
  have hseven : Dsknod.addr (ip.setAddr i b).ondisk 7 = ip.addr 7 :=
    (haddr 7).trans (if_neg (by omega))
  have hmeta : ∀ blk c, Meta blk ip.ondisk c → Meta blk (ip.setAddr i b).ondisk c := by
    rintro blk c ⟨hc, -, ⟨j, hj, rfl⟩ | ⟨k, hk, rfl⟩⟩
    · refine ⟨hc, hlarg, Or.inl ⟨j, hj, ?_⟩⟩
      have hji : j ≠ i := by
        rintro rfl
        exact hc h0
      rw [haddr, if_neg hji]
      rfl
    · exact ⟨hc, hlarg, Or.inr ⟨k, hk, by rw [hseven]; rfl⟩⟩
  have hmeta' : ∀ blk c, Meta blk (ip.setAddr i b).ondisk c → c = b ∨ Meta blk ip.ondisk c := by
    rintro blk c ⟨hc, -, ⟨j, hj, rfl⟩ | ⟨k, hk, rfl⟩⟩
    · rw [haddr] at hc ⊢
      split_ifs at hc ⊢ with hji
      · exact Or.inl rfl
      · exact Or.inr ⟨hc, hl, Or.inl ⟨j, hj, rfl⟩⟩
    · rw [hseven] at hc ⊢
      exact Or.inr ⟨hc, hl, Or.inr ⟨k, hk, rfl⟩⟩
  have hapart : Apart (u.fs ip.fs).blk (ip.setAddr i b).ondisk := by
    intro _ j hj hj0
    rcases eq_or_ne j i with rfl | hji
    · rw [haddr j, if_pos rfl]
      refine ⟨fun n hn hne => ?_, fun k hk => ?_⟩
      · rw [haddr n, if_neg hne]
        exact fun e => hand.fresh ⟨hb0, hl, Or.inl ⟨n, hn, e⟩⟩
      · rw [hseven]
        exact fun e => hand.fresh ⟨hb0, hl, Or.inr ⟨k, hk, e⟩⟩
    · rw [haddr j, if_neg hji] at hj0 ⊢
      obtain ⟨hdiff, hdouble⟩ := hu.apart hl j hj hj0
      refine ⟨fun n hn hne => ?_, fun k hk => ?_⟩
      · rw [haddr n]
        split_ifs with hni
        · exact fun e => hand.fresh ⟨hb0, hl, Or.inl ⟨j, by omega, e.symm⟩⟩
        · exact hdiff n hn hne
      · rw [hseven]
        exact hdouble k hk
  obtain ⟨t, hput, ht, -, hblk, hsame', hmap'⟩ := hu.iput hand hapart (hmeta' _)
  refine ⟨u, t, hballoc, hput, ht, (haddr i).trans (if_pos rfl), hb, ?_, ?_, ?_⟩
  · rw [hblk b hand.inRange, hpop]
  · rintro c (rfl | hc)
    · exact ⟨hb0, hlarg, Or.inl ⟨i, by omega, (haddr i).trans (if_pos rfl)⟩⟩
    · exact (hsame' c).mpr (hmeta _ c ((hsame c).mpr hc))
  · intro l
    rw [hmap', ← hmap, ← hpop]
    exact mapOf_newIndirect hb16 hb0 hl hi l

section Fill

variable {i k : ℕ}

/-- An address of a single indirect block. -/
lemma addr_own (h : Stage im₀ d₀ L₀ s ip L) (hl : ip.ilarg = true) (hi : i < 7)
    (h0 : ip.addr i ≠ 0) : InRange im₀.sb (ip.addr i) ∧ ip.addr i ∉ L ∧
      Meta (s.fs ip.fs).blk ip.ondisk (ip.addr i) := by
  have hm : Meta (s.fs ip.fs).blk ip.ondisk (ip.addr i) := ⟨h0, hl, Or.inl ⟨i, by omega, rfl⟩⟩
  exact ⟨(h.own _ hm).1, (h.own _ hm).2, hm⟩

lemma look_addr (h : Stage im₀ d₀ L₀ s ip L) (hl : ip.ilarg = true) (hi : i < 7)
    (h0 : ip.addr i ≠ 0) :
    ∃ t, look .cached .iblk ip.fs (ip.addr i) s = .ok ((s.fs ip.fs).blk (ip.addr i)) t ∧
      Stage im₀ d₀ L₀ t ip L ∧ t.fs ip.fs = s.fs ip.fs := by
  obtain ⟨hin, hL, -⟩ := h.addr_own hl hi h0
  obtain ⟨t, hrun, hready, hfs⟩ := h.ready.look_iblk (by rw [h.range.1]; exact hin.1) hL
  rw [Lib.block, if_neg h0] at hrun
  refine ⟨t, hrun, ?_, hfs⟩
  refine h.next hready ?_ (fun _ => id) ?_ ?_ ?_ ?_ <;> rw [hfs]
  · exact ⟨rfl, rfl⟩
  · exact h.apart
  · exact fun c hc => ⟨(h.own c hc).2, Or.inr hc⟩
  · exact fun _ _ _ _ => rfl
  · exact fun _ _ _ _ => rfl

/-- The word of an indirect block is there. -/
lemma fill_hit (h : Stage im₀ d₀ L₀ s ip L) (hl : ip.ilarg = true) (hi : i < 7)
    (h0 : ip.addr i ≠ 0) (hw : word ((s.fs ip.fs).blk (ip.addr i)) k ≠ 0) :
    ∃ t, indirect .cached ip.fs (ip.addr i) k true s =
        .ok (word ((s.fs ip.fs).blk (ip.addr i)) k) t ∧
      Stage im₀ d₀ L₀ t ip L ∧ t.fs ip.fs = s.fs ip.fs := by
  obtain ⟨t, hlook, ht, hfs⟩ := h.look_addr hl hi h0
  refine ⟨t, (bind_ok hlook).trans ?_, ht, hfs⟩
  rw [if_neg fun hc => hw hc.1]
  rfl

/-- It is 0, and a block is taken for it. -/
lemma fill_take (h : Stage im₀ d₀ L₀ s ip (b :: L)) (hl : ip.ilarg = true) (hi : i < 7)
    (h0 : ip.addr i ≠ 0) (hk : k < 256) (hw : word ((s.fs ip.fs).blk (ip.addr i)) k = 0) :
    ∃ t, indirect .cached ip.fs (ip.addr i) k true s = .ok b t ∧ Stage im₀ d₀ L₀ t ip L ∧
      (¬Meta (t.fs ip.fs).blk ip.ondisk b) ∧
      ∀ l, mapOf (t.fs ip.fs).blk ip.ondisk l =
        if l = 256 * i + k then b else mapOf (s.fs ip.fs).blk ip.ondisk l := by
  obtain ⟨u, hlook, hu, hufs⟩ := h.look_addr hl hi h0
  obtain ⟨v, hballoc, hv, hand, -, -, hother, -, hmap⟩ := hu.balloc
  obtain ⟨hin, hL, hm⟩ := hv.addr_own hl hi h0
  have hseven := (hv.apart hl i hi h0).1 7 (by omega) (by omega)
  have hne : ip.addr i ≠ b := fun e => hand.fresh (e ▸ hm)
  have hblk : (s.fs ip.fs).blk (ip.addr i) = (v.fs ip.fs).blk (ip.addr i) := by
    rw [hother _ hne, hufs]
  obtain ⟨t, hinst, ht, hsame, htfs⟩ := hv.install hin hL (Or.inr hm) (fun _ => hseven)
    (setWord ((s.fs ip.fs).blk (ip.addr i)) k b)
  refine ⟨t, (bind_ok hlook).trans ?_, ht, ?_, ?_⟩
  · rw [if_pos ⟨hw, rfl⟩]
    exact (bind_ok hballoc).trans (bind_ok hinst)
  · rw [hsame]
    exact hand.fresh
  · intro l
    rw [← hufs, ← hmap, htfs, hblk]
    exact mapOf_word hv.apart hl hi h0 hk (hand.inRange.2.trans (Bytes.word_lt _ 1)) l

/-- It is 0, and there is no block for it. -/
lemma fill_full (h : Stage im₀ d₀ L₀ s ip []) (hl : ip.ilarg = true) (hi : i < 7)
    (h0 : ip.addr i ≠ 0) (hw : word ((s.fs ip.fs).blk (ip.addr i)) k = 0) :
    ∃ t, indirect .cached ip.fs (ip.addr i) k true s = .ok 0 t := by
  obtain ⟨u, hlook, hu, -⟩ := h.look_addr hl hi h0
  obtain ⟨v, hballoc, hvfs, -⟩ := balloc_apply hu.ready.writable
  rw [hu.ready.free.pop_nil.1] at hballoc
  have hinst := install_apply .iblk ip.fs (ip.addr i)
    (setWord ((s.fs ip.fs).blk (ip.addr i)) k 0) v
  rw [if_neg (by simp [h0, hvfs, Image.pop_writable, hu.ready.writable])] at hinst
  rw [indirect, bind_ok hlook, if_pos ⟨hw, rfl⟩]
  exact ⟨_, (bind_ok hballoc).trans (bind_ok hinst)⟩

end Fill

end Stage

end Host

end Micronix
