import Micronix.Fs.Fetch
import Micronix.Lib.Fuel

/-!
# Whether `ialloc` ends

`ialloc` takes one number after another from the list in the superblock, refills the list from the
disk when it is empty, and tries again when `iget` brings nothing or an inode that is in use.  So it
looks for an inode that is free and that `iget` can bring.  If no slot of the table is left, `iget`
brings none but the inodes in the table, `ifill` lists the others again, and the loop does not end.
-/

namespace Micronix

open Bytes Super

/-- The last number of the list and the rest. -/
lemma Super.inodes_pop {sb : Bytes} (hn : ninode sb ≠ 0) :
    inodes sb = inodes (setNinode sb (ninode sb - 1)) ++ [inode sb (ninode sb - 1)] := by
  have hlt := word_lt sb 103
  have hlen : ninode (setNinode sb (ninode sb - 1)) = ninode sb - 1 := by
    refine ninode_setNinode ?_
    rw [ninode]
    omega
  have hsucc : ninode sb = ninode sb - 1 + 1 := by omega
  conv_lhs => rw [inodes, hsucc, List.range_succ, List.map_append, List.map_singleton]
  rw [inodes, hlen]
  congr 1
  exact List.map_congr_left fun _ _ => inode_setNinode.symm

namespace Kern

variable {w w' : Kern} {rank : ℕ → ℕ} {dev n fuel : ℕ}

/-- The inode is free: without `IALLOC` in core, or on disk if it is not in core. -/
def FreeInode (w : Kern) (dev n : ℕ) : Prop := w.Valid n dev ∧ w.alloc n dev = false

/-- What `ialloc` finds.  Device 0 is none.  The locked inodes of the device cannot come up: they are
allocated, in core and on disk, and not in the list. -/
structure Ready (rank : ℕ → ℕ) (dev : ℕ) (w : Kern) : Prop where
  table : Table w
  mounts : Mounts rank w
  dev_ne : dev ≠ 0
  look : ∃ m, w.ilist.mlook dev = some m ∧ m.isize = isize (w.sb dev) ∧ m.isize ≤ 4094
  two : 2 ≤ w.lastiblock
  ninode_le : ninode (w.sb dev) ≤ 100
  locked : ∀ i < w.ilist.n, (w.ilist.slot i).busy = true → (w.ilist.slot i).dev = dev →
    (w.ilist.slot i).alloc = true ∧ w.allocOnDisk (w.ilist.tag i) = true ∧
      (w.ilist.slot i).inum ∉ inodes (w.sb dev)

/-- The result of `ialloc`, or of its loop: an inode that was free in `w`, or `ENOSPC`. -/
def Result (w : Kern) (dev : ℕ) (r : Option ℕ × Kern) : Prop :=
  (r.1 = none → r.2.error = enospc) ∧
    ∀ i, r.1 = some i → (r.2.ilist.slot i).dev = dev ∧ w.FreeInode dev (r.2.ilist.slot i).inum

/-- The loop of `ialloc` ends. -/
def LoopEnds (w : Kern) (dev : ℕ) : Prop := Fuel.Returns (iallocLoop dev) (Result w dev) w

/-- `ialloc` ends, with a free inode or with an error. -/
def Ends (w : Kern) (dev : ℕ) : Prop := ∃ fuel r, w.ialloc dev fuel = some r ∧ Result w dev r

/-! ## What stays as it was -/

lemma Kept.freeInode (h : Kept w w') : w'.FreeInode dev n ↔ w.FreeInode dev n := by
  unfold FreeInode Valid
  rw [h.mlook, h.alloc]

lemma Kept.result (h : Kept w w') {r : Option ℕ × Kern} (hr : Result w' dev r) : Result w dev r :=
  ⟨hr.1, fun i hi => ⟨(hr.2 i hi).1, h.freeInode.mp (hr.2 i hi).2⟩⟩

/-- The loop goes on in a state where the same inodes are free. -/
lemma LoopEnds.returns (h : LoopEnds w' dev) (hk : Kept w w') :
    Fuel.Returns (iallocLoop dev) (Result w dev) w' := by
  obtain ⟨f, x, hx, hr⟩ := h
  exact ⟨f, x, hx, hk.result hr⟩

lemma LoopEnds.of_leads (hl : Fuel.Leads (iallocLoop dev) w w') (hk : Kept w w') (h : LoopEnds w' dev) :
    LoopEnds w dev := Fuel.Returns.of_leads hl (h.returns hk)

lemma Ready.of_kept (h : Ready rank dev w) (hk : Kept w w') (ht : Table w')
    (hs : isize (w'.sb dev) = isize (w.sb dev)) (hl : 2 ≤ w'.lastiblock)
    (hn : ninode (w'.sb dev) ≤ 100)
    (hin : ∀ n ∈ inodes (w'.sb dev), n ∈ inodes (w.sb dev) ∨ w'.allocOnDisk (n, dev) = false) :
    Ready rank dev w' := by
  refine ⟨ht, hk.mounts h.mounts, h.dev_ne, ?_, hl, hn, fun i hi hb hd => ?_⟩
  · rw [hk.mlook, hs]
    exact h.look
  · rw [hk.n] at hi
    have hsame : (w.ilist.slot i).Same (w'.ilist.slot i) := by
      rcases hk.slot i with hs | ⟨-, hf, -⟩
      · exact hs
      · cases hf.2.symm.trans hb
    rw [hsame.busy] at hb
    rw [hsame.dev] at hd
    obtain ⟨ha, hdisk, hlist⟩ := h.locked i hi hb hd
    have htag : w'.ilist.tag i = w.ilist.tag i := by rw [Ilist.tag, Ilist.tag, hsame.inum, hsame.dev]
    have hval : w.cache.value (w.ilist.tag i) = true := by
      have hne : (w.ilist.slot i).inum ≠ 0 := by
        rcases h.table.slot i hi with hv | ⟨-, hz, -⟩
        · exact hv.block.2.2
        · exact absurd (hd.symm.trans hz) h.dev_ne
      exact (Writeback.value_of_key h.table.coherent hi (key_eq_some.mpr ⟨hne, rfl⟩)).trans ha
    -- what is written is what is in core
    have hdisk' : w'.allocOnDisk (w'.ilist.tag i) = true := by
      rw [htag]
      rcases hk.keeps.store (w.ilist.tag i) with e | e
      · exact e.trans hdisk
      · exact e.trans hval
    refine ⟨hsame.alloc.trans ha, hdisk', fun hmem => ?_⟩
    rw [hsame.inum] at hmem
    rcases hin _ hmem with hm | hm
    · exact hlist hm
    · rw [htag, Ilist.tag, hd] at hdisk'
      cases hm.symm.trans hdisk'

/-! ## One candidate -/

/-- The last number is taken off the list. -/
def popped (w : Kern) (dev : ℕ) : Kern := w.put dev 1 (setNinode (w.sb dev) (ninode (w.sb dev) - 1))

lemma popped_sb : (w.popped dev).sb dev = setNinode (w.sb dev) (ninode (w.sb dev) - 1) :=
  if_pos ⟨rfl, rfl⟩

/-- Storing a superblock. -/
lemma kept_putSb (ht : Table w) {w' : Kern} (hheld : w'.held = w.held) (hok : w'.ok = w.ok)
    (hil : w'.ilist = w.ilist) (hblk : ∀ d n, n ≠ 1 → w'.blk d n = w.blk d n) :
    Table w' ∧ Kept w w' := by
  have hc : w'.cache = w.cache := by
    refine cache_congr (by rw [hil]) (fun i => ?_) hblk
    rw [hil]
    exact ⟨rfl, rfl, rfl, rfl⟩
  refine ⟨⟨?_, ?_, ?_, ?_⟩, hheld, hok, by rw [hil], by rw [hil], ?_, fun i => Or.inl ?_⟩
  · rw [hheld]
    exact ht.held
  · rw [hok]
    exact ht.ok
  · rw [hc]
    exact ht.coherent
  · unfold Valid
    rw [hil]
    exact ht.slot
  · rw [hc]
    exact .refl _
  · rw [hil]
    exact .refl _

lemma ready_popped (h : Ready rank dev w) (hn : ninode (w.sb dev) ≠ 0) :
    Ready rank dev (w.popped dev) ∧ Kept w (w.popped dev) ∧
      inodes (w.sb dev) = inodes ((w.popped dev).sb dev) ++
        [inode (w.sb dev) (ninode (w.sb dev) - 1)] := by
  have hpop := inodes_pop hn
  rw [← popped_sb] at hpop
  obtain ⟨ht, hk⟩ : Table (w.popped dev) ∧ Kept w (w.popped dev) := kept_putSb h.table rfl rfl rfl
    fun d n hn => if_neg fun hc => hn hc.2
  refine ⟨h.of_kept hk ht ?_ h.two ?_ fun n hm => Or.inl ?_, hk, hpop⟩
  · rw [popped_sb, isize_setNinode]
  · have hlen := congrArg List.length hpop
    have hle := h.ninode_le
    simp only [length_inodes, List.length_append, List.length_singleton] at hlen
    omega
  · rw [hpop]
    exact List.mem_append_left _ hm

/-- One round of the loop with a list that is not empty. -/
lemma iallocLoop_pop (h : Ready rank dev w) (hn : ninode (w.sb dev) ≠ 0) :
    (w.Good (inode (w.sb dev) (ninode (w.sb dev) - 1)) dev → LoopEnds w dev) ∧
    (¬w.Good (inode (w.sb dev) (ninode (w.sb dev) - 1)) dev →
      ∃ w', (∀ fuel, iallocLoop dev (fuel + 1) w = iallocLoop dev fuel w') ∧ Ready rank dev w' ∧
        Kept w w' ∧ w'.sb dev = (w.popped dev).sb dev ∧ w'.lastiblock = w.lastiblock) := by
  obtain ⟨hr, hk, hpop⟩ := ready_popped h hn
  set num := inode (w.sb dev) (ninode (w.sb dev) - 1) with hnum
  obtain ⟨m, hm, -, hms⟩ := hr.look
  have hfree : ∀ i < (w.popped dev).ilist.n, (w.popped dev).ilist.tag i = (num, dev) →
      ((w.popped dev).ilist.slot i).busy = false := by
    intro i hi htag
    refine Bool.eq_false_iff.mpr fun hb => ?_
    refine (h.locked i hi hb (congrArg Prod.snd htag)).2.2 ?_
    rw [hpop, show (w.ilist.slot i).inum = num from congrArg Prod.fst htag]
    exact List.mem_append_right _ (List.mem_singleton_self num)
  obtain ⟨r, w₁, hrun, hf⟩ := iget_alone (w.ilist.n + 1) hr.table hr.mounts ⟨m, hm, hms⟩
    (fun hc => h.dev_ne hc.2) hfree (show w.ilist.n < w.ilist.n + 1 + rank dev by omega)
  have hround (fuel : ℕ) : iallocLoop dev (fuel + 1) w =
      r.elim (iallocLoop dev fuel w₁) fun i =>
        if (w₁.ilist.slot i).alloc then iallocLoop dev fuel (w₁.irelse i) else some (some i, w₁) := by
    have hc : w.candidates dev = some (true, w) := if_neg hn
    rw [iallocLoop, hc]
    simp only [Option.bind_eq_bind, Option.bind_some, if_true]
    rw [show w.put dev 1 (setNinode (w.sb dev) (ninode (w.sb dev) - 1)) = w.popped dev from rfl, hrun]
    cases r <;> rfl
  rw [← hk.good]
  refine ⟨fun hg => ?_, fun hg => ?_⟩
  · obtain ⟨i, rfl, ha⟩ := hf.good.mp hg
    have htag := hf.tag i rfl ha
    refine ⟨1, (some i, w₁), (hround 0).trans ?_, nofun, fun j hj => ?_⟩
    · simp only [Option.elim_some, ha]
      rfl
    · obtain rfl := Option.some.inj hj
      obtain ⟨hnum', hdev⟩ := Prod.mk.inj htag
      dsimp only
      rw [hnum', hdev]
      exact ⟨rfl, hk.freeInode.mp ⟨hg.1, hg.2.1⟩⟩
  · have hk' := hk.trans hf.kept
    have hsb : (released r w₁).sb dev = (w.popped dev).sb dev := by
      cases r with
      | none => exact hf.sb dev
      | some i => exact hf.sb dev
    have hlast : (released r w₁).lastiblock = w.lastiblock := by
      cases r with
      | none => exact hf.lastiblock
      | some i => exact hf.lastiblock
    have hr' : Ready rank dev (released r w₁) := by
      refine hr.of_kept hf.kept hf.table (by rw [hsb]) (by rw [hlast]; exact h.two) ?_ fun n hm => ?_
      · rw [hsb]
        exact hr.ninode_le
      · rw [hsb] at hm
        exact Or.inl hm
    refine ⟨released r w₁, fun fuel => (hround fuel).trans ?_, hr', hk', hsb, hlast⟩
    cases r with
    | none => rfl
    | some i =>
        have ha : (w₁.ilist.slot i).alloc = true := by
          by_contra hc
          exact hg (hf.good.mpr ⟨i, rfl, Bool.eq_false_iff.mpr hc⟩)
        simp only [Option.elim_some, ha, if_true]
        rfl

/-- The numbers of the list, one after another: the loop ends, or it comes to an empty list, and no
number was that of an inode it looks for. -/
lemma iallocLoop_drain (k : ℕ) : ∀ {w : Kern}, Ready rank dev w → ninode (w.sb dev) = k →
    LoopEnds w dev ∨ (∀ n ∈ inodes (w.sb dev), ¬w.Good n dev) ∧
      ∃ w', Fuel.Leads (iallocLoop dev) w w' ∧ Ready rank dev w' ∧ Kept w w' ∧
        ninode (w'.sb dev) = 0 ∧ isize (w'.sb dev) = isize (w.sb dev) ∧
        w'.lastiblock = w.lastiblock := by
  induction k with
  | zero =>
      intro w h hn
      have hnil : inodes (w.sb dev) = [] := List.length_eq_zero_iff.mp (by rw [length_inodes, hn])
      exact Or.inr ⟨by rw [hnil]; nofun, w, .refl _ w, h, .refl w, hn, rfl, rfl⟩
  | succ k ih =>
      intro w h hn
      have hpos : ninode (w.sb dev) ≠ 0 := by omega
      obtain ⟨hgood, hnext⟩ := iallocLoop_pop h hpos
      by_cases hg : w.Good (inode (w.sb dev) (ninode (w.sb dev) - 1)) dev
      · exact Or.inl (hgood hg)
      obtain ⟨w₁, hround, hr, hk, hsb, hlast⟩ := hnext hg
      obtain ⟨-, -, hpop⟩ := ready_popped h hpos
      have hlen : ninode (w₁.sb dev) = k := by
        have hl := congrArg List.length hpop
        simp only [length_inodes, List.length_append, List.length_singleton] at hl
        rw [hsb]
        omega
      rcases ih hr hlen with he | ⟨hnone, w', hl, hr', hk', hempty, hs, hlast'⟩
      · exact Or.inl (he.of_leads (.round hround) hk)
      refine Or.inr ⟨fun n hmem => ?_, w', .trans (.round hround) hl, hr', hk.trans hk', hempty, ?_,
        hlast'.trans hlast⟩
      · rw [hpop, ← hsb] at hmem
        rcases List.mem_append.mp hmem with hm | hm
        · exact hk.good.not.mp (hnone n hm)
        · rw [List.mem_singleton.mp hm]
          exact hg
      · rw [hs, hsb, popped_sb, isize_setNinode]

/-! ## The list is refilled -/

/-- A scan that ended with a full list has listed what the block at position `k` has, or it has come
on its way to that block, if not to the end of it. -/
lemma listed_or_nearer {pre L : List ℕ} {f : ℕ → List ℕ} {b c k iblk : ℕ} (hpre : pre <+: L)
    (hf : ∀ b, (f b).length ≤ 16) (hearly : (pre.dropLast.flatMap f).length < 100)
    (hfull : 100 ≤ (pre.flatMap f).length) (hlast : pre.getLast? = some iblk)
    (hk : L[k]? = some b) (hc : c ∈ f b) :
    c ∈ (pre.flatMap f).take 100 ∨ ∃ p, L[p]? = some iblk ∧ 0 < p ∧ p ≤ k := by
  obtain ⟨post, rfl⟩ := hpre
  obtain ⟨init, rfl⟩ : ∃ init, pre = init ++ [iblk] := by
    obtain ⟨ne, e⟩ := List.getLast?_eq_some_iff.mp hlast
    exact ⟨ne, e⟩
  rw [List.dropLast_concat] at hearly
  rw [List.flatMap_append, List.flatMap_singleton] at hfull ⊢
  -- a block has no more than 16 numbers
  have hsome : init.length ≠ 0 := by
    intro h0
    rw [List.length_eq_zero_iff.mp h0, List.flatMap_nil, List.nil_append] at hfull
    have := hf iblk
    omega
  by_cases hlt : k < init.length
  · left
    have hmem : b ∈ init := by
      rw [List.append_assoc, List.getElem?_append_left hlt] at hk
      exact List.mem_of_getElem? hk
    have hin : c ∈ init.flatMap f := List.mem_flatMap.mpr ⟨b, hmem, hc⟩
    rw [List.take_append, List.take_of_length_le (by omega)]
    exact List.mem_append_left _ hin
  · right
    refine ⟨init.length, ?_, Nat.pos_of_ne_zero hsome, by omega⟩
    rw [List.append_assoc, List.getElem?_append_right (Nat.le_refl _), Nat.sub_self]
    rfl

/-- After `isync` the free inodes are those that are free on disk. -/
lemma freeOnDisk_iff (h : Ready rank dev w)
    (hclean : ∀ i < w.ilist.n, (w.ilist.slot i).busy = false → (w.ilist.slot i).mod = false) :
    w.FreeOnDisk dev n ↔ w.FreeInode dev n := by
  obtain ⟨m, hm, hsize, hms⟩ := h.look
  have hvalid : (1 ≤ n ∧ n ≤ 16 * isize (w.sb dev)) ↔ w.Valid n dev := by
    rw [← hsize]
    refine ⟨fun hn => ⟨m, hm, hms, hn⟩, fun ⟨m', hm', _, hn⟩ => ?_⟩
    obtain rfl := Option.some.inj (hm.symm.trans hm')
    exact hn
  have halloc : w.alloc n dev = w.allocOnDisk (n, dev) := by
    by_cases hb : ∃ i < w.ilist.n, w.cache.key i = some (n, dev) ∧ (w.ilist.slot i).busy = true
    · obtain ⟨i, hi, hkey, hb⟩ := hb
      have htag := (key_eq_some.mp hkey).2
      obtain ⟨ha, hdisk, -⟩ := h.locked i hi hb (congrArg Prod.snd htag)
      rw [htag] at hdisk
      exact (Writeback.value_of_key h.table.coherent hi hkey).trans (ha.trans hdisk.symm)
    · refine Writeback.value_of_clean h.table.coherent fun i hi hkey => hclean i hi ?_
      exact Bool.eq_false_iff.mpr fun hbusy => hb ⟨i, hi, hkey, hbusy⟩
  rw [FreeOnDisk, FreeInode, hvalid, halloc]
  refine and_congr_right fun hv => ?_
  have h0 : (n == 0) = false := beq_eq_false_iff_ne.mpr hv.block.2.2
  unfold isFree allocOnDisk
  simp only [h0, Bool.false_or, decide_eq_true_eq]

/-- Where the search for free inodes goes next. -/
def route (w : Kern) (dev : ℕ) : List ℕ :=
  Circle.route 2 (isize (w.sb dev) + 1) (isize (w.sb dev)) w.lastiblock

/-- `isync` before the search. -/
lemma isync_ready (h : Ready rank dev w) :
    ∃ w₁, isync w.ilist.n w = some w₁ ∧ Ready rank dev w₁ ∧ Kept w w₁ ∧ w₁.sb dev = w.sb dev ∧
      w₁.route dev = w.route dev ∧ ∀ n, w₁.FreeOnDisk dev n ↔ w.FreeInode dev n := by
  obtain ⟨w₁, hrun, ht, hk, hsb, hlast, hsame, hclean⟩ := isync_alone w.ilist.n h.table (Nat.le_refl _)
  have hr : Ready rank dev w₁ := by
    refine h.of_kept hk ht (by rw [hsb]) (by rw [hlast]; exact h.two) ?_ fun n hm => Or.inl ?_
    · rw [hsb]
      exact h.ninode_le
    · rwa [hsb] at hm
  refine ⟨w₁, hrun, hr, hk, hsb dev, by rw [route, route, hsb, hlast], fun n => ?_⟩
  refine (freeOnDisk_iff hr fun i hi hb => ?_).trans hk.freeInode
  rw [hk.n] at hi
  refine hclean i hi (by omega) ?_
  rw [← (hsame i).busy, hb]

/-- The search with a list that is not full lists every free inode, and one that ends with a full list
lists the inode or comes nearer to its block. -/
lemma search_nearer (h : Ready rank dev w) {iblk : ℕ} {pre : List ℕ}
    (hl : Loop dev (isize (w.sb dev) + 1) (isize (w.sb dev)) w.lastiblock w
      (fun b => freeIn (w.blk dev b) b) iblk w' pre) (hn : ninode (w.sb dev) = 0)
    (hfill : Filled dev w pre (decide (ninode (w'.sb dev) ≠ 0)) w') {c k : ℕ}
    (hc : w.FreeOnDisk dev c) (hk : (w.route dev)[k]? = some ((c + 31) / 16)) :
    c ∈ inodes (w'.sb dev) ∨ ∃ k' < k,
      (({ w' with lastiblock := iblk } : Kern).route dev)[k']? = some ((c + 31) / 16) := by
  obtain ⟨m, -, hsize, hms⟩ := h.look
  have hnil : inodes (w.sb dev) = [] := List.length_eq_zero_iff.mp (by rw [length_inodes, hn])
  by_cases hfull : ninode (w'.sb dev) < 100
  · exact Or.inl (hfill.complete (by rw [length_inodes]; exact hfull) c hc)
  have hmem : c ∈ freeIn (w.blk dev ((c + 31) / 16)) ((c + 31) / 16) := by
    obtain ⟨⟨h1, hle⟩, hfree⟩ := hc
    exact (mem_freeIn (by omega) (by omega)).mpr ⟨rfl, hfree⟩
  have hlist := hl.inodes
  rw [hnil, List.nil_append] at hlist
  have hlen : 100 ≤ (pre.flatMap fun b => freeIn (w.blk dev b) b).length := by
    have := congrArg List.length hlist
    rw [length_inodes, List.length_take] at this
    omega
  have hearly : (inodes (w.sb dev) ++ (ifillVisits dev (isize (w.sb dev) + 1) (isize (w.sb dev))
      w.lastiblock w).dropLast.flatMap fun b => freeIn (w.blk dev b) b).length < 100 :=
    ifillVisits_early (by omega) (isize (w.sb dev)) (h.table.reads dev) (by omega)
    h.two (by omega) fun _ _ => rfl
  rw [hl.visits, hnil, List.nil_append] at hearly
  have hsixteen (b : ℕ) : (freeIn (w.blk dev b) b).length ≤ 16 := by
    rw [freeIn, List.length_map]
    exact (List.length_filter_le ..).trans (by simp)
  rcases listed_or_nearer hl.before hsixteen hearly hlen (hl.stop (Nat.le_of_not_lt hfull)) hk hmem with
    hin | ⟨p, hp, hpos, hle⟩
  · left
    rw [hlist]
    exact hin
  · right
    -- the next search goes through the same circle from the last block on
    have hone : isize (w.sb dev) + 1 + 1 - 2 = isize (w.sb dev) := by omega
    have hsome : 1 ≤ isize (w.sb dev) := by
      have := hc.1
      omega
    have hrot := Circle.route_rotate (p := p) (j := iblk) h.two (show 2 ≤ isize (w.sb dev) + 1 by omega)
      (by rw [hone]; exact hp)
    rw [hone] at hrot
    have hnext : ({ w' with lastiblock := iblk } : Kern).route dev = (w.route dev).rotate p := by
      unfold route
      rw [← hrot, ← hl.refills.isize]
      rfl
    have hklt : k < (w.route dev).length := (List.getElem?_eq_some_iff.mp hk).1
    refine ⟨k - p, by omega, ?_⟩
    rw [hnext, List.getElem?_rotate (by omega), Nat.sub_add_cancel hle, Nat.mod_eq_of_lt hklt]
    exact hk

/-- `ialloc` with an empty list: without a free inode it ends, and else it goes on with a list of free
inodes, which has a given one, or the block of that one is nearer. -/
lemma iallocLoop_refill (h : Ready rank dev w) (hn : ninode (w.sb dev) = 0) :
    ((∀ n, ¬w.FreeInode dev n) → LoopEnds w dev) ∧
    ((∃ n, w.FreeInode dev n) → ∃ w', (∀ fuel, iallocLoop dev fuel w = iallocLoop dev fuel w') ∧
      Ready rank dev w' ∧ Kept w w' ∧ ninode (w'.sb dev) ≠ 0 ∧
      (∀ n ∈ inodes (w'.sb dev), w.FreeInode dev n) ∧
      ∀ c k : ℕ, w.FreeInode dev c → (w.route dev)[k]? = some ((c + 31) / 16) →
        c ∈ inodes (w'.sb dev) ∨ ∃ k' < k, (w'.route dev)[k']? = some ((c + 31) / 16)) := by
  obtain ⟨w₁, hsync, hr₁, hk₁, hsb, hroute, hfree⟩ := isync_ready h
  obtain ⟨m, -, hsize, hms⟩ := hr₁.look
  have hn₁ : ninode (w₁.sb dev) = 0 := by rw [hsb, hn]
  obtain ⟨iblk, w₂, pre, hl, hsearch, hfill⟩ := search_spec (hr₁.table.reads dev)
    (show isize (w₁.sb dev) ≤ 4095 by omega) hr₁.two hn₁
  have hcand : w.candidates dev = some (if ninode (w₂.sb dev) ≠ 0
      then (true, { w₂ with lastiblock := iblk })
      else (false, ({ w₂ with lastiblock := iblk } : Kern).setError enospc)) := by
    rw [candidates, if_pos hn, ifill_eq, hsync, Option.bind_some, hsearch]
  have hfound : ninode (w₂.sb dev) ≠ 0 ↔ ∃ n, w.FreeInode dev n := by
    have := hfill.failed
    simp only [decide_eq_false_iff_not, not_not, hfree] at this
    rw [Ne, this, not_forall]
    simp only [not_not]
  refine ⟨fun hnone => ?_, fun hsome => ?_⟩
  · have h0 : ninode (w₂.sb dev) = 0 := by
      by_contra hc
      obtain ⟨n, hf⟩ := hfound.mp hc
      exact hnone n hf
    rw [if_neg (not_not.mpr h0)] at hcand
    refine ⟨1, (none, ({ w₂ with lastiblock := iblk } : Kern).setError enospc), ?_, fun _ => rfl, nofun⟩
    rw [iallocLoop, hcand]
    rfl
  · have hne := hfound.mpr hsome
    rw [if_pos hne] at hcand
    set w' : Kern := { w₂ with lastiblock := iblk } with hw'
    obtain ⟨ht', hk'⟩ : Table w' ∧ Kept w₁ w' :=
      kept_putSb hr₁.table hl.refills.held hl.refills.ok hl.refills.ilist
      fun d n hn => hl.refills.blk d n fun hc => hn hc.2
    have hdisk : ∀ n ∈ inodes (w'.sb dev), w₁.FreeOnDisk dev n := hfill.free
    refine ⟨w', fun fuel => ?_, ?_, hk₁.trans hk', hne, fun n hm => (hfree n).mp (hdisk n hm),
      fun c k hc hk => ?_⟩
    · cases fuel with
      | zero => rfl
      | succ fuel =>
          have hcand' : w'.candidates dev = some (true, w') := if_neg hne
          rw [iallocLoop, iallocLoop, hcand, hcand']
    · refine hr₁.of_kept hk' ht' hl.refills.isize hl.two ?_ fun n hm => Or.inr ?_
      · have := hfill.length
        rwa [length_inodes] at this
      · obtain ⟨⟨h1, hle⟩, hbit⟩ := hdisk n hm
        have h0 : (n == 0) = false := beq_eq_false_iff_ne.mpr (by omega)
        have hblk := hl.refills.blk dev ((n + 31) / 16) fun hc => by omega
        unfold allocOnDisk
        rw [hblk]
        simpa [h0, isFree] using hbit
    · rw [← hroute] at hk
      exact search_nearer hr₁ hl hn₁ hfill ((hfree c).mpr hc) hk

/-! ## The loop -/

/-- Nothing is free. -/
lemma loopEnds_of_none (h : Ready rank dev w) (hnone : ∀ n, ¬w.FreeInode dev n) : LoopEnds w dev := by
  rcases iallocLoop_drain _ h rfl with he | ⟨-, w', hl, hr, hk, hempty, -⟩
  · exact he
  · refine .of_leads hl hk ((iallocLoop_refill hr hempty).1 fun n hf => ?_)
    exact hnone n (hk.freeInode.mp hf)

/-- A number of the list is that of an inode which the loop looks for. -/
lemma loopEnds_of_good (h : Ready rank dev w) {n : ℕ} (hn : n ∈ inodes (w.sb dev))
    (hg : w.Good n dev) : LoopEnds w dev := by
  rcases iallocLoop_drain _ h rfl with he | ⟨hbad, -⟩
  · exact he
  · exact absurd hg (hbad n hn)

/-- A slot can be taken over: then any number of the refilled list will do. -/
lemma loopEnds_of_avail (h : Ready rank dev w) (ha : w.Avail) : LoopEnds w dev := by
  rcases iallocLoop_drain _ h rfl with he | ⟨-, w₁, hl, hr₁, hk₁, hempty, -⟩
  · exact he
  refine .of_leads hl hk₁ ?_
  by_cases hsome : ∃ n, w₁.FreeInode dev n
  · obtain ⟨w₂, hsame, hr₂, hk₂, hne, hfree, -⟩ := (iallocLoop_refill hr₁ hempty).2 hsome
    refine .of_leads (.same hsame) hk₂ ?_
    obtain ⟨n, hn⟩ : ∃ n, n ∈ inodes (w₂.sb dev) :=
      List.exists_mem_of_length_pos (by rw [length_inodes]; exact Nat.pos_of_ne_zero hne)
    obtain ⟨hv, hal⟩ := hk₂.freeInode.mpr (hfree n hn)
    exact loopEnds_of_good hr₂ hn ⟨hv, hal, Or.inl (hk₂.avail.mpr (hk₁.avail.mpr ha))⟩
  · exact (iallocLoop_refill hr₁ hempty).1 fun n hf => hsome ⟨n, hf⟩

/-- The block of an inode is on the way of the search. -/
lemma exists_route (h : Ready rank dev w) {c : ℕ} (hc : w.Valid c dev) :
    ∃ k : ℕ, (w.route dev)[k]? = some ((c + 31) / 16) := by
  obtain ⟨m, hm, hsize, -⟩ := h.look
  obtain ⟨m', hm', -, h1, hle⟩ := hc
  obtain rfl := Option.some.inj (hm.symm.trans hm')
  have hone : isize (w.sb dev) + 1 + 1 - 2 = isize (w.sb dev) := by omega
  have hperm := Circle.route_perm h.two (show 2 ≤ isize (w.sb dev) + 1 by omega)
  rw [hone] at hperm
  refine List.mem_iff_getElem?.mp (hperm.mem_iff.mpr (List.mem_range'_1.mpr ?_))
  omega

/-- A free inode is in the table, and it is found when the search has come to its block; the measure
is how far the block is. -/
lemma loopEnds_of_inCore (h : Ready rank dev w) {c : ℕ} (hc : w.FreeInode dev c)
    (hin : w.InCore c dev) : LoopEnds w dev := by
  have hgood : w.Good c dev := ⟨hc.1, hc.2, Or.inr hin⟩
  -- with an empty list, by the position of the block
  have hempty := Fuel.returns_of_measure (E := iallocLoop dev) (Q := Result w dev)
    (I := fun k w₁ => (Ready rank dev w₁ ∧ Kept w w₁) ∧ ninode (w₁.sb dev) = 0 ∧
      (w₁.route dev)[k]? = some ((c + 31) / 16)) fun k w₁ ⟨⟨hr₁, hk₁⟩, hn₁, hpos⟩ => by
    have hc₁ := hk₁.freeInode.mpr hc
    obtain ⟨w₂, hsame, hr₂, hk₂, -, -, hnear⟩ := (iallocLoop_refill hr₁ hn₁).2 ⟨c, hc₁⟩
    have hk₂' := hk₁.trans hk₂
    have hl₂ : Fuel.Leads (iallocLoop dev) w₁ w₂ := .same hsame
    rcases hnear c k hc₁ hpos with hlist | ⟨k', hlt, hpos'⟩
    · have he := loopEnds_of_good hr₂ hlist (hk₂'.good.mpr hgood)
      exact Or.inl (.of_leads hl₂ (he.returns hk₂'))
    rcases iallocLoop_drain _ hr₂ rfl with he | ⟨-, w₃, hl₃, hr₃, hk₃, hn₃, hs, hlast⟩
    · exact Or.inl (.of_leads hl₂ (he.returns hk₂'))
    refine Or.inr ⟨k', hlt, w₃, hl₂.trans hl₃, ⟨hr₃, hk₂'.trans hk₃⟩, hn₃, ?_⟩
    unfold route
    rw [hs, hlast]
    exact hpos'
  rcases iallocLoop_drain _ h rfl with he | ⟨-, w₁, hl, hr₁, hk₁, hn₁, -⟩
  · exact he
  obtain ⟨k, hk⟩ := exists_route hr₁ (hk₁.freeInode.mpr hc).1
  exact Fuel.Returns.of_leads hl (hempty k w₁ ⟨⟨hr₁, hk₁⟩, hn₁, hk⟩)

/-- No slot can be taken over, and the inodes that are free are not in the table. -/
structure Stuck (rank : ℕ → ℕ) (dev : ℕ) (w : Kern) : Prop where
  ready : Ready rank dev w
  full : ¬w.Avail
  out : ∀ n, w.FreeInode dev n → ¬w.InCore n dev
  some : ∃ n, w.FreeInode dev n

lemma Stuck.of_kept (h : Stuck rank dev w) (hr : Ready rank dev w') (hk : Kept w w') :
    Stuck rank dev w' := by
  obtain ⟨n, hn⟩ := h.some
  refine ⟨hr, hk.avail.not.mpr h.full, fun n hf => ?_, n, hk.freeInode.mpr hn⟩
  rw [hk.inCore h.full]
  exact h.out n (hk.freeInode.mp hf)

lemma Stuck.not_good (h : Stuck rank dev w) : ¬w.Good n dev := by
  rintro ⟨hv, ha, hav | hin⟩
  · exact h.full hav
  · exact h.out n ⟨hv, ha⟩ hin

/-- One candidate with a list that is not empty. -/
lemma Stuck.pop (h : Stuck rank dev w) (hn : ninode (w.sb dev) ≠ 0) :
    ∃ w', (∀ fuel, iallocLoop dev (fuel + 1) w = iallocLoop dev fuel w') ∧ Stuck rank dev w' := by
  obtain ⟨w', hround, hr, hk, -⟩ := (iallocLoop_pop h.ready hn).2 h.not_good
  exact ⟨w', hround, h.of_kept hr hk⟩

/-- Then the loop does not end. -/
lemma Stuck.loop (h : Stuck rank dev w) (fuel : ℕ) : iallocLoop dev fuel w = none := by
  refine Fuel.not_returns (I := Stuck rank dev) (fun _ => rfl) (fun w h => ?_) fuel w h
  by_cases hn : ninode (w.sb dev) = 0
  · obtain ⟨w₁, hsame, hr₁, hk₁, hne, -⟩ := (iallocLoop_refill h.ready hn).2 h.some
    obtain ⟨w', hround, hs⟩ := (h.of_kept hr₁ hk₁).pop hne
    exact ⟨w', fun fuel => (hsame (fuel + 1)).trans (hround fuel), hs⟩
  · exact h.pop hn

/-! ## `ialloc` -/

/-- `ialloc` has the superblock in a buffer while it loops. -/
def started (w : Kern) (dev : ℕ) : Kern :=
  { w with held := insert (dev, 1) w.held, error := 0, reads := w.reads + 1 }

lemma ready_started (h : Ready rank dev w) : Ready rank dev (w.started dev) := by
  refine ⟨⟨fun d n hn => ?_, h.table.ok, h.table.coherent, h.table.slot⟩,
    ⟨h.mounts.rank_le, h.mounts.point, h.mounts.root⟩, h.dev_ne, h.look, h.two, h.ninode_le, h.locked⟩
  rcases Finset.mem_insert.mp hn with e | hn
  · exact congrArg Prod.snd e
  · exact h.table.held d n hn

/-- The inode that `ialloc` returns is made new. -/
def finished (dev : ℕ) (r : Option ℕ × Kern) : Option ℕ × Kern :=
  (r.1, (match r.1 with
    | some ip => r.2.modify ip fun x =>
        { x with node := newNode, mod := true, count := 0, mount := none, size := 0 }
    | none => r.2).bdwrite dev 1)

lemma ialloc_eq (h : Ready rank dev w) (hsb : (dev, 1) ∉ w.held) (fuel : ℕ) :
    w.ialloc dev fuel = (iallocLoop dev fuel (w.started dev)).map (finished dev) := by
  have hget : w.getsb dev = some (w.started dev) := by
    rw [getsb, bread_ok (h.table.ok _) hsb]
    rfl
  rw [ialloc, hget, Option.bind_eq_bind, Option.bind_some]
  cases iallocLoop dev fuel (w.started dev) with
  | none => rfl
  | some r => rfl

lemma result_finished {r : Option ℕ × Kern} (h : Result (w.started dev) dev r) :
    Result w dev (finished dev r) := by
  obtain ⟨ip, w₁⟩ := r
  cases ip with
  | none => exact ⟨fun _ => h.1 rfl, nofun⟩
  | some ip =>
      refine ⟨nofun, fun i hi => ?_⟩
      obtain rfl := Option.some.inj hi
      obtain ⟨hdev, hfree⟩ := h.2 ip rfl
      have hslot := w₁.modify_self ip fun x =>
        { x with node := newNode, mod := true, count := 0, mount := none, size := 0 }
      dsimp only [finished]
      rw [bdwrite_ilist, hslot]
      exact ⟨hdev, hfree⟩

/-- Device 1 has 64 inodes, of which the first fifty are files with one link, and these are in the
fifty slots of the table, each with a count.  The list in the superblock is empty. -/
def fifty (count : ℕ) : Kern where
  blk := fun _ b => if b = 1 then setWord zero 0 4
    else fun k => if 16 * b + k / 32 ≤ 81 then Ilist.plain (k % 32) else 0
  ilist :=
    { n := 50, slot := fun i => ⟨i + 1, 1, Ilist.plain, false, false, false, false, count, none, 0, 0⟩,
      icount := 0, mlook := fun d => if d = 1 then some ⟨4, false⟩ else none, stage := fun _ => .idle,
      event := fun _ => none, own := fun _ => none, refs := fun _ => count, last := none }
  lastiblock := 2
  error := 0
  seconds := 0
  stack := 0
  me := 1
  held := ∅
  ok := fun _ => true
  reads := 0

lemma allocOnDisk_fifty {count n : ℕ} (h0 : n ≠ 0) :
    (fifty count).allocOnDisk (n, 1) = decide (n ≤ 50) := by
  have hblk : (fifty count).blk 1 ((n + 31) / 16) = fun k =>
      if 16 * ((n + 31) / 16) + k / 32 ≤ 81 then Ilist.plain (k % 32) else 0 :=
    if_neg (by omega)
  unfold allocOnDisk
  rw [hblk]
  unfold word
  dsimp only
  rw [show 2 * (16 * ((n + 31) % 16)) / 32 = (n + 31) % 16 by omega,
    show (2 * (16 * ((n + 31) % 16)) + 1) / 32 = (n + 31) % 16 by omega,
    show 2 * (16 * ((n + 31) % 16)) % 32 = 0 by omega,
    show (2 * (16 * ((n + 31) % 16)) + 1) % 32 = 1 by omega, beq_eq_false_iff_ne.mpr h0, Bool.false_or]
  by_cases hn : n ≤ 50
  · rw [if_pos (by omega), if_pos (by omega), decide_eq_true hn]
    rfl
  · rw [if_neg (by omega), if_neg (by omega), decide_eq_false hn]
    rfl

lemma alloc_fifty (count i : ℕ) : ((fifty count).ilist.slot i).alloc = true := by
  have hnode : ((fifty count).ilist.slot i).node = Ilist.plain := rfl
  rw [Incore.alloc, Incore.mode, hnode]
  decide

lemma ready_fifty (count : ℕ) : Ready (fun _ => 0) 1 (fifty count) := by
  have hsb : (fifty count).sb 1 = setWord zero 0 4 := rfl
  have hvalid (i : ℕ) (hi : i < 50) : (fifty count).Valid (i + 1) 1 :=
    ⟨⟨4, false⟩, rfl, by decide, by omega, by dsimp only; omega⟩
  refine ⟨⟨nofun, fun _ => rfl, ⟨fun i j t _ _ hi hj => ?_, fun i t hi hk _ => ?_⟩,
    fun i hi => Or.inl (hvalid i hi)⟩, ⟨fun _ => Nat.zero_le _, nofun, nofun⟩, by decide,
    ⟨⟨4, false⟩, rfl, by rw [hsb]; decide, by decide⟩, Nat.le_refl 2, by rw [hsb]; decide, nofun⟩
  · have h := (key_eq_some.mp hi).2.trans (key_eq_some.mp hj).2.symm
    exact Nat.succ.inj (congrArg Prod.fst h)
  · have ht : (i + 1, 1) = t := (key_eq_some.mp hk).2
    subst ht
    have hval : (fifty count).cache.val i = ((fifty count).ilist.slot i).alloc := rfl
    rw [hval, alloc_fifty]
    exact ((allocOnDisk_fifty (Nat.succ_ne_zero i)).trans (decide_eq_true (Nat.succ_le_of_lt hi))).symm

/-- The fifty inodes are allocated, and the others are free. -/
lemma freeInode_fifty (count n : ℕ) :
    ((fifty count).FreeInode 1 n ↔ 51 ≤ n ∧ n ≤ 64) ∧
      ((fifty count).InCore n 1 → n ≤ 50) := by
  have hcore : (fifty count).InCore n 1 → n ≤ 50 := by
    rintro ⟨i, hi, htag⟩
    have hn : i + 1 = n := congrArg Prod.fst htag
    have hlt : i < 50 := hi
    omega
  have hvalid : (fifty count).Valid n 1 ↔ 1 ≤ n ∧ n ≤ 64 := by
    refine ⟨fun ⟨m, hm, _, hn⟩ => ?_, fun hn => ⟨⟨4, false⟩, rfl, by decide, hn⟩⟩
    have hm' : m = ⟨4, false⟩ := (Option.some.inj hm).symm
    rw [hm'] at hn
    exact hn
  refine ⟨?_, hcore⟩
  rw [FreeInode, hvalid]
  refine ⟨fun ⟨hn, ha⟩ => ?_, fun hn => ⟨by omega, ?_⟩⟩
  · refine ⟨?_, hn.2⟩
    by_contra hlt
    have hi : n - 1 < (fifty count).ilist.n := show n - 1 < 50 by omega
    have htag : (fifty count).ilist.tag (n - 1) = (n, 1) := Prod.ext (show n - 1 + 1 = n by omega) rfl
    have hal := (ready_fifty count).table.alloc_of_tag hi htag (by omega)
    cases ha.symm.trans (hal.trans (alloc_fifty count (n - 1)))
  · have hmiss : ∀ i < (fifty count).ilist.n, (fifty count).ilist.tag i ≠ (n, 1) := by
      intro i hi htag
      have := hcore ⟨i, hi, htag⟩
      omega
    rw [Table.alloc_of_miss hmiss, allocOnDisk_fifty (by omega)]
    exact decide_eq_false (by omega)

end Kern

end Micronix
