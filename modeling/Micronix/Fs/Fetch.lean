import Micronix.Fs.Icache

/-!
# `iget` and `isync` for a process that runs alone

They end, and the same inodes are free as before.  `iget` brings a free inode if there is a slot to
take over or the inode is in one; and from a mounted file system it goes on to the root of what is
mounted there, which is not free.
-/

namespace Micronix.Kern

variable {w w' : Kern} {rank : ℕ → ℕ} {dev num i j : ℕ}

/-- The inodes, and the table but for the slots that nobody uses. -/
structure Kept (w w' : Kern) : Prop where
  held : w'.held = w.held
  ok : w'.ok = w.ok
  n : w'.ilist.n = w.ilist.n
  mlook : w'.ilist.mlook = w.ilist.mlook
  keeps : w.cache.Keeps w'.cache
  slot : ∀ i, (w.ilist.slot i).Same (w'.ilist.slot i) ∨
    (w.ilist.slot i).Free ∧ (w'.ilist.slot i).Free ∧ (w'.ilist.slot i).mount = none

/-- Some slot is neither in use nor locked. -/
def Avail (w : Kern) : Prop := ∃ i < w.ilist.n, (w.ilist.slot i).Free

/-- `IALLOC` of an inode, in core or else on disk. -/
def alloc (w : Kern) (num dev : ℕ) : Bool := w.cache.value (num, dev)

/-- The inode is in a slot. -/
def InCore (w : Kern) (num dev : ℕ) : Prop := ∃ i < w.ilist.n, w.ilist.tag i = (num, dev)

/-- `iget` can bring the inode, and it is free. -/
def Good (w : Kern) (num dev : ℕ) : Prop :=
  w.Valid num dev ∧ w.alloc num dev = false ∧ (w.Avail ∨ w.InCore num dev)

/-- What is mounted on the inodes of the table: a mount is a use of the inode, the root of the file
system is allocated and not locked, and `rank` says that no file system is mounted below itself. -/
structure Mounts (rank : ℕ → ℕ) (w : Kern) : Prop where
  rank_le : ∀ d, rank d ≤ w.ilist.n
  point : ∀ i < w.ilist.n, ∀ d, (w.ilist.slot i).mount = some d →
    ((w.ilist.slot i).alloc = true ∧ 0 < (w.ilist.slot i).count) ∧
      rank (w.ilist.slot i).dev < rank d
  root : ∀ i < w.ilist.n, ∀ d, (w.ilist.slot i).mount = some d →
    w.Valid 1 d ∧ w.alloc 1 d = true ∧
      ∀ j < w.ilist.n, w.ilist.tag j = (1, d) → (w.ilist.slot j).busy = false

/-! ## What is kept -/

lemma Kept.refl (w : Kern) : Kept w w :=
  ⟨rfl, rfl, rfl, rfl, .refl _, fun _ => Or.inl (.refl _)⟩

lemma Kept.trans {w'' : Kern} (h : Kept w w') (h' : Kept w' w'') : Kept w w'' := by
  refine ⟨h'.held.trans h.held, h'.ok.trans h.ok, h'.n.trans h.n, h'.mlook.trans h.mlook,
    h.keeps.trans h'.keeps, fun i => ?_⟩
  rcases h.slot i with hs | ⟨hf, hf', hm⟩
  · rcases h'.slot i with hs' | ⟨hf', hf'', hm⟩
    · exact Or.inl (hs.trans hs')
    · exact Or.inr ⟨hs.free.mp hf', hf'', hm⟩
  · rcases h'.slot i with hs' | ⟨-, hf'', hm'⟩
    · exact Or.inr ⟨hf, hs'.free.mpr hf', hs'.mount.trans hm⟩
    · exact Or.inr ⟨hf, hf'', hm'⟩

lemma Kept.free (h : Kept w w') (i : ℕ) : (w'.ilist.slot i).Free ↔ (w.ilist.slot i).Free := by
  rcases h.slot i with hs | ⟨hf, hf', -⟩
  · exact hs.free
  · exact iff_of_true hf' hf

lemma Kept.avail (h : Kept w w') : w'.Avail ↔ w.Avail := by
  simp only [Avail, h.n, h.free]

lemma Kept.alloc (h : Kept w w') : w'.alloc num dev = w.alloc num dev := h.keeps.value (num, dev)

/-- Without a slot to take over the table has the same inodes. -/
lemma Kept.same (h : Kept w w') (hn : ¬w.Avail) (hi : i < w.ilist.n) :
    (w.ilist.slot i).Same (w'.ilist.slot i) := by
  rcases h.slot i with hs | ⟨hf, -⟩
  · exact hs
  · exact absurd ⟨i, hi, hf⟩ hn

lemma Kept.inCore (h : Kept w w') (hn : ¬w.Avail) : w'.InCore num dev ↔ w.InCore num dev := by
  unfold InCore
  rw [h.n]
  refine exists_congr fun i => and_congr_right fun hi => ?_
  rw [Ilist.tag, Ilist.tag, (h.same hn hi).inum, (h.same hn hi).dev]

lemma Kept.good (h : Kept w w') : w'.Good num dev ↔ w.Good num dev := by
  unfold Good Valid
  rw [h.mlook, h.alloc, h.avail]
  by_cases hn : w.Avail
  · simp only [hn, true_or]
  · rw [h.inCore hn]

lemma Kept.mounts (h : Kept w w') (hm : Mounts rank w) : Mounts rank w' := by
  -- a slot where something is mounted is none of the free ones
  have hsame : ∀ i d, (w'.ilist.slot i).mount = some d → (w.ilist.slot i).Same (w'.ilist.slot i) := by
    intro i d hd
    rcases h.slot i with hs | ⟨-, -, hnone⟩
    · exact hs
    · cases hnone.symm.trans hd
  refine ⟨fun d => by rw [h.n]; exact hm.rank_le d, ?_, ?_⟩
  · intro i hi d hd
    have hs := hsame i d hd
    rw [hs.alloc, hs.count, hs.dev]
    exact hm.point i (h.n ▸ hi) d (hs.mount ▸ hd)
  · intro i hi d hd
    have hs := hsame i d hd
    obtain ⟨hv, ha, hb⟩ := hm.root i (h.n ▸ hi) d (hs.mount ▸ hd)
    refine ⟨hv.of_mlook h.mlook, h.alloc.trans ha, fun j hj htag => ?_⟩
    rcases h.slot j with hs | ⟨-, hf, -⟩
    · rw [hs.busy]
      refine hb j (h.n ▸ hj) ?_
      rw [← htag, Ilist.tag, Ilist.tag, hs.inum, hs.dev]
    · exact hf.2

lemma Apart.kept (h : Apart i w w') (hk : w.cache.Keeps w'.cache)
    (hi : (w.ilist.slot i).Same (w'.ilist.slot i) ∨
      (w.ilist.slot i).Free ∧ (w'.ilist.slot i).Free ∧ (w'.ilist.slot i).mount = none) : Kept w w' := by
  refine ⟨h.held, h.ok, h.n, h.mlook, hk, fun j => ?_⟩
  by_cases hj : j = i
  · subst hj
    exact hi
  · exact Or.inl (h.slot j hj)

lemma Apart.table (h : Apart i w w') (ht : Table w) (hc : w'.cache.Coherent)
    (hi : i < w.ilist.n → w.Valid (w'.ilist.slot i).inum (w'.ilist.slot i).dev ∨
      (w'.ilist.slot i).inum = 0 ∧ (w'.ilist.slot i).dev = 0 ∧ (w'.ilist.slot i).mod = false) :
    Table w' := by
  refine ⟨fun d n hd => ht.held d n (h.held ▸ hd), fun n => by rw [h.ok, ht.ok], hc, fun j hj => ?_⟩
  rw [h.n] at hj
  by_cases hji : j = i
  · subst hji
    exact (hi hj).imp_left fun hv => hv.of_mlook h.mlook
  · have hs := h.slot j hji
    rw [hs.inum, hs.dev]
    rcases ht.slot j hj with hv | ⟨h0, hd, hm⟩
    · exact Or.inl (hv.of_mlook h.mlook)
    · refine Or.inr ⟨h0, hd, Bool.eq_false_iff.mpr fun hm' => ?_⟩
      cases hm.symm.trans (hs.mod hm')

/-! ## What the table says of an inode -/

lemma Table.alloc_of_tag (h : Table w) (hi : i < w.ilist.n) (htag : w.ilist.tag i = (num, dev))
    (h0 : num ≠ 0) : w.alloc num dev = (w.ilist.slot i).alloc := by
  have hnum : (w.ilist.slot i).inum = num := congrArg Prod.fst htag
  exact Writeback.value_of_key h.coherent hi (key_eq_some.mpr ⟨by rw [hnum]; exact h0, htag⟩)

lemma Table.alloc_of_miss (hmiss : ∀ i < w.ilist.n, w.ilist.tag i ≠ (num, dev)) :
    w.alloc num dev = w.allocOnDisk (num, dev) :=
  Writeback.value_of_not_key fun i hi hk => hmiss i hi (key_eq_some.mp hk).2

/-- A slot that carries an inode with a number. -/
lemma Table.valid_of_tag (h : Table w) (hi : i < w.ilist.n) (htag : w.ilist.tag i = (num, dev))
    (h0 : ¬(num = 0 ∧ dev = 0)) : w.Valid num dev := by
  obtain ⟨rfl, rfl⟩ := Prod.mk.inj htag
  rcases h.slot i hi with hv | ⟨hn, hd, -⟩
  · exact hv
  · exact absurd ⟨hn, hd⟩ h0

/-! ## Locking a slot for a while -/

/-- A slot is locked and released again. -/
lemma lock_release (ht : Table w) (hb : (w.ilist.slot i).busy = false) :
    Table ((w.ilock i).irelse i) ∧ Kept w ((w.ilock i).irelse i) ∧ Apart i w ((w.ilock i).irelse i) := by
  have hap := (w.apart_ilock i).trans ((w.ilock i).apart_irelse i)
  have hcache : ((w.ilock i).irelse i).cache = w.cache := (cache_irelse ..).trans (w.cache_ilock i)
  have hsame : (w.ilist.slot i).Same (((w.ilock i).irelse i).ilist.slot i) := by
    obtain ⟨t, e⟩ := (w.ilock i).ilist.irelse_self i
    rw [irelse, e, ilock_slot]
    exact ⟨rfl, rfl, rfl, hb.symm, rfl, rfl, fun h => h⟩
  refine ⟨hap.table ht (by rw [hcache]; exact ht.coherent) fun hi => ?_,
    hap.kept (by rw [hcache]; exact .refl _) (Or.inl hsame), hap⟩
  rw [hsame.inum, hsame.dev]
  exact (ht.slot i hi).imp_right fun h =>
    ⟨h.1, h.2.1, Bool.eq_false_iff.mpr fun hm => by cases h.2.2.symm.trans (hsame.mod hm)⟩

/-- A modified inode is written, the slot being locked by the process. -/
lemma lock_write (ht : Table w) (hi : i < w.ilist.n)
    (hmod : (w.ilist.slot i).mod = true) :
    ∃ w', (w.ilock i).iio true i = some (true, w') ∧ Apart i w w' ∧
      ((w.ilock i).ilist.slot i).Same (w'.ilist.slot i) ∧ (w'.ilist.slot i).mod = false ∧
      w'.cache.Coherent ∧ w.cache.Keeps w'.cache := by
  have hslot := w.ilock_slot i
  have hap := w.apart_ilock i
  have hvalid : w.Valid (w.ilist.slot i).inum (w.ilist.slot i).dev := by
    rcases ht.slot i hi with hv | ⟨-, -, hm⟩
    · exact hv
    · cases hmod.symm.trans hm
  have hvalid' : (w.ilock i).Valid ((w.ilock i).ilist.slot i).inum ((w.ilock i).ilist.slot i).dev := by
    rw [hslot]
    exact hvalid
  obtain ⟨w', hrun, hap', hsame, hclean, hcache⟩ := iio_write (w := w.ilock i) (i := i)
    ⟨ht.ok, (ht.reads _).free⟩ hvalid'
  have hkey : w.cache.key i = some (w.ilist.tag i) := key_eq_some.mpr ⟨hvalid.block.2.2, rfl⟩
  have htag : (w.ilock i).ilist.tag i = w.ilist.tag i := w.ilist.lock_tag i i w.me
  rw [cache_ilock, htag] at hcache
  refine ⟨w', hrun, hap.trans hap', hsame, hclean, ?_, ?_⟩
  · rw [hcache]
    exact Writeback.flush_coherent ht.coherent hi hkey
  · rw [hcache]
    exact Writeback.flush_keeps ht.coherent hi hkey

/-! ## `isync` -/

/-- One inode is written. -/
lemma isync_write (ht : Table w) (hi : i < w.ilist.n) (hmod : (w.ilist.slot i).mod = true)
    (hb : (w.ilist.slot i).busy = false) :
    ∃ w', (w.ilock i).iio true i = some (true, w') ∧ Table (w'.irelse i) ∧ Kept w (w'.irelse i) ∧
      Apart i w (w'.irelse i) ∧ (w.ilist.slot i).Same ((w'.irelse i).ilist.slot i) ∧
      ((w'.irelse i).ilist.slot i).mod = false := by
  obtain ⟨w', hrun, hap, hsame, hclean, hco, hk⟩ := lock_write ht hi hmod
  have hap' := hap.trans (w'.apart_irelse i)
  obtain ⟨t, e⟩ := w'.ilist.irelse_self i
  have hslot := w.ilock_slot i
  have hsame' : (w.ilist.slot i).Same ((w'.irelse i).ilist.slot i) := by
    rw [hslot] at hsame
    rw [irelse, e]
    exact ⟨hsame.inum, hsame.dev, hsame.alloc, hb.symm, hsame.count, hsame.mount, fun _ => hmod⟩
  have hclean' : ((w'.irelse i).ilist.slot i).mod = false := by
    rw [irelse, e]
    exact hclean
  refine ⟨w', hrun, hap'.table ht (by rw [cache_irelse]; exact hco) fun hi => ?_,
    hap'.kept (by rw [cache_irelse]; exact hk) (Or.inl hsame'), hap', hsame', hclean'⟩
  rw [hsame'.inum, hsame'.dev, hclean']
  exact (ht.slot i hi).imp_right fun h => ⟨h.1, h.2.1, rfl⟩

/-- `isync` from some slot on, by induction on the slots to go: afterwards the inodes of those that
are not locked are on disk as they are in core. -/
lemma isync_alone (left : ℕ) : ∀ {w : Kern}, Table w → left ≤ w.ilist.n →
    ∃ w', isync left w = some w' ∧ Table w' ∧ Kept w w' ∧ (∀ d, w'.sb d = w.sb d) ∧
      w'.lastiblock = w.lastiblock ∧ (∀ i, (w.ilist.slot i).Same (w'.ilist.slot i)) ∧
      ∀ i < w.ilist.n, w.ilist.n - left ≤ i → (w.ilist.slot i).busy = false →
        (w'.ilist.slot i).mod = false := by
  induction left with
  | zero =>
      intro w ht _
      exact ⟨w, rfl, ht, .refl w, fun _ => rfl, rfl, fun _ => .refl _, fun i hi hl => by omega⟩
  | succ left ih =>
      intro w ht hl
      rw [isync]
      set i := w.ilist.n - (left + 1) with hi
      have hlt : i < w.ilist.n := by omega
      have hstep : ∀ w₁ : Kern, Table w₁ → Kept w w₁ → Apart i w w₁ →
          (w.ilist.slot i).Same (w₁.ilist.slot i) →
          ((w.ilist.slot i).busy = false → (w₁.ilist.slot i).mod = false) →
          ∃ w', isync left w₁ = some w' ∧ Table w' ∧ Kept w w' ∧ (∀ d, w'.sb d = w.sb d) ∧
            w'.lastiblock = w.lastiblock ∧ (∀ i, (w.ilist.slot i).Same (w'.ilist.slot i)) ∧
            ∀ j < w.ilist.n, i ≤ j → (w.ilist.slot j).busy = false →
              (w'.ilist.slot j).mod = false := by
        intro w₁ ht₁ hk₁ hap hsame hclean
        obtain ⟨w', hrun, ht', hk', hsb, hlast, hslot, hmod⟩ := ih ht₁ (by rw [hap.n]; omega)
        have hsame₁ (j : ℕ) : (w.ilist.slot j).Same (w₁.ilist.slot j) := by
          by_cases hj : j = i
          · rw [hj]
            exact hsame
          · exact hap.slot j hj
        refine ⟨w', hrun, ht', hk₁.trans hk', fun d => (hsb d).trans (hap.sb d),
          hlast.trans hap.lastiblock, fun j => (hsame₁ j).trans (hslot j), fun j hj hij hb => ?_⟩
        by_cases hji : j = i
        · refine Bool.eq_false_iff.mpr fun hm => ?_
          rw [hji] at hm hb
          cases (hclean hb).symm.trans ((hslot i).mod hm)
        · exact hmod j (by rw [hap.n]; exact hj) (by rw [hap.n]; omega) (by rw [(hsame₁ j).busy, hb])
      split
      · rename_i hc
        obtain ⟨w', hrun, ht', hk', hap, hsame, hclean⟩ := isync_write ht hlt hc.1 hc.2
        rw [hrun, Option.bind_eq_bind, Option.bind_some]
        exact hstep (w'.irelse i) ht' hk' hap hsame fun _ => hclean
      · rename_i hc
        refine hstep w ht (.refl w) (.refl i w) (.refl _) fun hb => ?_
        exact Bool.eq_false_iff.mpr fun hm => hc ⟨hm, hb⟩

/-! ## `iget` -/

/-- The slot that a search has brought is released again. -/
def released (r : Option ℕ) (w : Kern) : Kern := r.elim w w.irelse

/-- What `iget` does: the inode that it brings is free if and only if the one asked for is, and if it
can be brought. -/
structure Fetched (w : Kern) (num dev : ℕ) (r : Option ℕ) (w' : Kern) : Prop where
  table : Table (released r w')
  kept : Kept w (released r w')
  sb : ∀ d, w'.sb d = w.sb d
  lastiblock : w'.lastiblock = w.lastiblock
  good : w.Good num dev ↔ ∃ i, r = some i ∧ (w'.ilist.slot i).alloc = false
  tag : ∀ i, r = some i → (w'.ilist.slot i).alloc = false → w'.ilist.tag i = (num, dev)

/-- The inode is in a slot where nothing is mounted. -/
lemma fetched_hit (ht : Table w) (hi : i < w.ilist.n) (htag : w.ilist.tag i = (num, dev))
    (h0 : ¬(num = 0 ∧ dev = 0)) (hb : (w.ilist.slot i).busy = false) :
    Fetched w num dev (some i) (w.ilock i) := by
  obtain ⟨ht', hk', hap⟩ := lock_release (i := i) ht hb
  have hvalid := ht.valid_of_tag hi htag h0
  have halloc := ht.alloc_of_tag hi htag hvalid.block.2.2
  have hslot : ((w.ilock i).ilist.slot i).alloc = (w.ilist.slot i).alloc := by
    rw [ilock_slot]
    rfl
  refine ⟨ht', hk', fun _ => rfl, rfl, ⟨fun hg => ⟨i, rfl, ?_⟩, ?_⟩, ?_⟩
  · rw [hslot, ← halloc]
    exact hg.2.1
  · rintro ⟨j, hj, ha⟩
    obtain rfl := Option.some.inj hj
    exact ⟨hvalid, halloc.trans (hslot ▸ ha), Or.inr ⟨i, hi, htag⟩⟩
  · rintro j hj -
    obtain rfl := Option.some.inj hj
    exact (w.ilist.lock_tag i i w.me).trans htag

/-- A slot of the table is taken over, after its inode has been written if it is modified. -/
lemma fetched_claim {m : Mount} (ht : Table w) (hm : w.ilist.mlook dev = some m) (hs : m.isize ≤ 4094)
    (hmiss : ∀ i < w.ilist.n, w.ilist.tag i ≠ (num, dev)) (hi : i < w.ilist.n)
    (hf : (w.ilist.slot i).Free) :
    ∃ r w', ((w.ilock i).writeBack i).bind (fun x =>
      if x.1 then x.2.claim i num dev else some (none, x.2.irelse i)) = some (r, w') ∧
      Fetched w num dev r w' := by
  have havail : w.Avail := ⟨i, hi, hf⟩
  -- the slot is clean before it is taken over
  obtain ⟨w₁, hwrite, hap, htag, hclean, hco, hk⟩ : ∃ w₁, (w.ilock i).writeBack i = some (true, w₁) ∧
      Apart i w w₁ ∧ w₁.ilist.tag i = w.ilist.tag i ∧ (w₁.ilist.slot i).mod = false ∧
      w₁.cache.Coherent ∧ w.cache.Keeps w₁.cache := by
    have hmod : ((w.ilock i).ilist.slot i).mod = (w.ilist.slot i).mod := by
      rw [ilock_slot]
    have htag : (w.ilock i).ilist.tag i = w.ilist.tag i := w.ilist.lock_tag i i w.me
    rw [writeBack, hmod]
    split
    · rename_i hd
      obtain ⟨w₁, hrun, hap, hsame, hclean, hco, hk⟩ := lock_write ht hi hd
      refine ⟨w₁, hrun, hap, ?_, hclean, hco, hk⟩
      rw [← htag, Ilist.tag, Ilist.tag, hsame.inum, hsame.dev]
    · rename_i hd
      refine ⟨w.ilock i, rfl, w.apart_ilock i, htag, hmod.trans (Bool.eq_false_iff.mpr hd), ?_, ?_⟩
      · rw [cache_ilock]
        exact ht.coherent
      · rw [cache_ilock]
        exact .refl _
  have hmiss₁ : ∀ j < w₁.cache.n, w₁.cache.key j ≠ some (num, dev) := by
    intro j hj hkey
    have hj' : j < w.ilist.n := hap.n ▸ hj
    refine hmiss j hj' ?_
    rw [← (key_eq_some.mp hkey).2]
    by_cases hji : j = i
    · rw [hji, htag]
    · rw [Ilist.tag, Ilist.tag, (hap.slot j hji).inum, (hap.slot j hji).dev]
  have hi₁ : i < w₁.cache.n := by
    show i < w₁.ilist.n
    rw [hap.n]
    exact hi
  have halloc : w.alloc num dev = w₁.allocOnDisk (num, dev) :=
    (hk.value (num, dev)).symm.trans (Writeback.value_of_not_key hmiss₁)
  rw [hwrite]
  simp only [Option.bind_some, if_true]
  by_cases hn : 1 ≤ num ∧ num ≤ 16 * m.isize
  · have hv : w.Valid num dev := ⟨m, hm, hs, hn⟩
    obtain ⟨w', hrun, hap', ⟨hnum, hdev⟩, ⟨hcount, hmount⟩, hcache⟩ := claim_valid (w := w₁) (i := i)
      ⟨fun n => by rw [hap.ok, ht.ok], fun n hn => by rw [hap.held]; exact (ht.reads dev).free n hn⟩
      (hv.of_mlook hap.mlook)
    have hval : (w'.ilist.slot i).alloc = w.alloc num dev := by
      rw [halloc]
      exact (congrArg (fun c => c.val i) hcache).trans (Function.update_self ..)
    obtain ⟨t, e⟩ := w'.ilist.irelse_self i
    have hap'' := (hap.trans hap').trans (w'.apart_irelse i)
    have hco' : (w'.irelse i).cache.Coherent := by
      rw [cache_irelse, hcache]
      exact Writeback.load_coherent hco hmiss₁
    have hk' : w.cache.Keeps (w'.irelse i).cache := by
      rw [cache_irelse, hcache]
      exact hk.trans (Writeback.load_keeps hco hi₁ hclean hmiss₁)
    refine ⟨some i, w', hrun, hap''.table ht hco' fun _ => Or.inl ?_, hap''.kept hk' (Or.inr ⟨hf, ?_⟩),
      (hap.trans hap').sb, (hap.trans hap').lastiblock, ⟨fun hg => ⟨i, rfl, hval.trans hg.2.1⟩, ?_⟩, ?_⟩
    · rw [irelse, e]
      dsimp only
      rw [hnum, hdev]
      exact hv
    · rw [irelse, e]
      exact ⟨⟨hcount, rfl⟩, hmount⟩
    · rintro ⟨j, hj, ha⟩
      obtain rfl := Option.some.inj hj
      exact ⟨hv, hval.symm.trans ha, Or.inl havail⟩
    · rintro j hj -
      obtain rfl := Option.some.inj hj
      exact Prod.ext hnum hdev
  · obtain ⟨w', hrun, hap', ⟨h0, hd, hmod⟩, ⟨hcount, hbusy, hmount⟩, hcache⟩ := claim_bad (i := i)
      (w := w₁) (by rw [hap.mlook]; exact hm) hs hn
    have hap'' := hap.trans hap'
    refine ⟨none, w', hrun, hap''.table ht ?_ fun _ => Or.inr ⟨h0, hd, hmod⟩,
      hap''.kept ?_ (Or.inr ⟨hf, ⟨hcount, hbusy⟩, hmount⟩), hap''.sb, hap''.lastiblock,
      ⟨fun hg => absurd ?_ hn, ?_⟩, ?_⟩
    · rw [hcache]
      exact Writeback.drop_coherent hco
    · rw [hcache]
      exact hk.trans (Writeback.drop_keeps hco hi₁ hclean)
    · obtain ⟨m', hm', -, hn'⟩ := hg.1
      obtain rfl := Option.some.inj (hm.symm.trans hm')
      exact hn'
    · rintro ⟨j, hj, -⟩
      cases hj
    · rintro j hj -
      cases hj

/-- **`iget`**, by induction on the mounted file systems that it may still come to. -/
lemma iget_alone (fuel : ℕ) : ∀ {w : Kern} {num dev : ℕ}, Table w → Mounts rank w →
    (∃ m, w.ilist.mlook dev = some m ∧ m.isize ≤ 4094) → ¬(num = 0 ∧ dev = 0) →
    (∀ i < w.ilist.n, w.ilist.tag i = (num, dev) → (w.ilist.slot i).busy = false) →
    w.ilist.n < fuel + rank dev →
    ∃ r w', iget fuel w num dev = some (r, w') ∧ Fetched w num dev r w' := by
  induction fuel with
  | zero =>
      intro w num dev _ hm _ _ _ hr
      have := hm.rank_le dev
      omega
  | succ fuel ih =>
      intro w num dev ht hm hlook h0 hfree hr
      rw [iget]
      cases hh : w.ilist.hit num dev with
      | some i =>
          obtain ⟨hi, htag⟩ := Ilist.hit_spec hh
          have hb := hfree i hi htag
          dsimp only
          rw [if_neg fun hc => by cases hb.symm.trans hc.1]
          have hslot : ((w.ilock i).ilist.slot i).mount = (w.ilist.slot i).mount := by
            rw [ilock_slot]
          rw [hslot]
          cases hmount : (w.ilist.slot i).mount with
          | none => exact ⟨some i, _, rfl, fetched_hit ht hi htag h0 hb⟩
          | some d =>
              -- the root of the file system that is mounted here, which is not free
              obtain ⟨⟨hal, hcount⟩, hlt⟩ := hm.point i hi d hmount
              obtain ⟨ht', hk', hap⟩ := lock_release (i := i) ht hb
              have hm' := hk'.mounts hm
              have hmount' : (((w.ilock i).irelse i).ilist.slot i).mount = some d := by
                rcases hk'.slot i with hs | ⟨hf, -, -⟩
                · exact hs.mount.trans hmount
                · exact absurd hf.1 (Nat.ne_of_gt hcount)
              obtain ⟨⟨m, hmd, hms, -⟩, hal', hroot⟩ := hm'.root i (by rw [hap.n]; exact hi) d hmount'
              have hdev : (w.ilist.slot i).dev = dev := congrArg Prod.snd htag
              rw [hdev] at hlt
              obtain ⟨r, w', hrun, hf⟩ := ih (w := (w.ilock i).irelse i) ht' hm'
                ⟨m, hmd, hms⟩ (by omega) hroot (by rw [hap.n]; omega)
              have hbad : ¬∃ i, r = some i ∧ (w'.ilist.slot i).alloc = false := by
                rw [← hf.good]
                intro hg
                cases hal'.symm.trans hg.2.1
              refine ⟨r, w', hrun, hf.table, hk'.trans hf.kept, fun d => (hf.sb d).trans (hap.sb d),
                hf.lastiblock.trans hap.lastiblock, iff_of_false (fun hg => ?_) hbad,
                fun j hj ha => absurd ⟨j, hj, ha⟩ hbad⟩
              have hvalid := ht.valid_of_tag hi htag h0
              cases (ht.alloc_of_tag hi htag hvalid.block.2.2).symm.trans hg.2.1 |>.symm.trans hal
      | none =>
          have hmiss := w.ilist.miss_spec hh
          obtain ⟨hsome, hnone⟩ := w.ilist.victim_cases
          dsimp only
          cases hv : w.ilist.victim with
          | none =>
              have hfull : ¬w.Avail := by
                rintro ⟨i, hi, hf⟩
                exact hnone hv i hi hf
              have ht' : Table (w.setError enfile) := ⟨ht.held, ht.ok, ht.coherent, ht.slot⟩
              have hk' : Kept w (w.setError enfile) :=
                ⟨rfl, rfl, rfl, rfl, .refl _, fun _ => Or.inl (.refl _)⟩
              refine ⟨none, _, rfl, ht', hk', fun _ => rfl, rfl, ⟨fun hg => ?_, ?_⟩, ?_⟩
              · rcases hg.2.2 with ha | ⟨i, hi, htag⟩
                · exact absurd ha hfull
                · exact absurd htag (hmiss i hi)
              · rintro ⟨i, hi, -⟩
                cases hi
              · rintro i hi -
                cases hi
          | some f =>
              obtain ⟨hf, hff⟩ := hsome f hv
              obtain ⟨m, hmd, hms⟩ := hlook
              exact fetched_claim ht hmd hms hmiss hf hff

end Micronix.Kern
