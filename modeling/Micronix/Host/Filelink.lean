import Micronix.Host.Namei
import Micronix.Host.Putdir

/-!
# Making a name

`filelink` stores the new entry in a free one, or behind the last.  The memory that `getdir` allocates
ends with the block in which the directory ends, and it grows only when the new entry is the last one of
a block: a directory that fills its blocks has no room.
-/

namespace Micronix

namespace Host

open Bytes Super Program
open Fslib (setFmod)
open Tree (chars direqu)

variable {s t : Lib} {f i inum m : ℕ} {L : List ℕ} {dirp : Buffer} {name : List UInt8} {ip : Inode}

/-! ## An entry in memory -/

/-- What `strncpy` leaves compares equal to the name. -/
lemma direqu_strncpy (n : ℕ) (name : List UInt8) :
    direqu ((List.range n).map fun j => (name.takeWhile (· ≠ 0)).getD j 0) name n = true := by
  induction n generalizing name with
  | zero => rfl
  | succ n ih =>
      rw [List.range_succ_eq_map, List.map_cons, List.map_map, direqu, List.headD_cons,
        List.tail_cons]
      cases name with
      | nil => rfl
      | cons c name =>
          by_cases hc : c = 0
          · subst hc
            rfl
          · have htake : (c :: name).takeWhile (· ≠ 0) = c :: name.takeWhile (· ≠ 0) :=
              List.takeWhile_cons_of_pos (by simpa using hc)
            rw [htake, List.getD_cons_zero, List.headD_cons, if_neg (by simp), if_neg hc]
            exact ih name

lemma chars_strncpy (name : List UInt8) : chars (Buffer.strncpy name) = chars name :=
  (Tree.direqu_chars _ _).mp (direqu_strncpy 14 name)

lemma length_dirent (inum : ℕ) (name : List UInt8) : (Buffer.dirent inum name).length = 16 := by
  simp [Buffer.dirent, Buffer.strncpy]

/-- The entry that has been stored. -/
lemma setEntry_entry (h : inum < 65536) :
    (dirp.setEntry i inum name).entry i = ⟨inum, Buffer.strncpy name⟩ := by
  have hbyte : ∀ k < 16, (dirp.setEntry i inum name).bytes (16 * i + k) =
      (Buffer.dirent inum name).getD k 0 := by
    intro k hk
    rw [Buffer.setEntry]
    dsimp only
    rw [copyBytes_inside (by omega) (by omega), ofList, show 0 + (16 * i + k - 16 * i) = k by omega]
  have h0 := hbyte 0 (by omega)
  have h1 := hbyte 1 (by omega)
  rw [Buffer.entry, direntAt, Dirent.mk.injEq]
  constructor
  · rw [Nat.add_zero] at h0
    rw [h0, h1]
    simp only [Buffer.dirent, List.cons_append, List.getD_cons_zero, List.getD_cons_succ,
      UInt8.toNat_ofNat']
    omega
  · refine List.map_congr_left fun k hk => ?_
    have hk := List.mem_range.mp hk
    have hskip : (Buffer.dirent inum name).getD (2 + k) 0 = (Buffer.strncpy name).getD k 0 := by
      rw [Buffer.dirent, Nat.add_comm]
      rfl
    rw [Nat.add_assoc, hbyte (2 + k) (by omega), hskip, Buffer.strncpy]
    simp [List.getD_eq_getElem?_getD, hk]

/-- The other entries. -/
lemma setEntry_other {k : ℕ} (h : k ≠ i) :
    (dirp.setEntry i inum name).entry k = dirp.entry k := by
  refine direntAt_congr fun j hj => ?_
  exact copyBytes_outside (by omega)

/-! ## What stays of the inode -/

/-- `bmap` and `putdir` change neither the size of a file nor make it a small one. -/
structure Grown (ip ip' : Inode) : Prop where
  fs : ip'.fs = ip.fs
  inum : ip'.inum = ip.inum
  size : Dsknod.filesize ip'.ondisk = Dsknod.filesize ip.ondisk
  large : ip.ilarg = true → ip'.ilarg = true

lemma Grown.refl (ip : Inode) : Grown ip ip := ⟨rfl, rfl, rfl, id⟩

lemma Grown.trans {ip₁ ip₂ ip₃ : Inode} (h : Grown ip₁ ip₂) (h' : Grown ip₂ ip₃) : Grown ip₁ ip₃ :=
  ⟨h'.fs.trans h.fs, h'.inum.trans h.inum, h'.size.trans h.size, h'.large ∘ h.large⟩

lemma filesize_setAddr {d : Bytes} (k v : ℕ) :
    Dsknod.filesize (Dsknod.setAddr d k v) = Dsknod.filesize d := by
  rw [Dsknod.filesize, Dsknod.filesize, Dsknod.setAddr, word_setWord_ne (by omega), setWord,
    if_neg (by omega), if_neg (by omega)]

lemma grown_setAddr (ip : Inode) (k v : ℕ) : Grown ip (ip.setAddr k v) :=
  ⟨rfl, rfl, filesize_setAddr k v, fun h => (ilarg_setAddr k v).trans h⟩

lemma grown_convert (ip : Inode) (b : ℕ) :
    Grown ip { ip with ondisk := convertInode ip.ondisk b } := by
  refine ⟨rfl, rfl, ?_, fun _ => ilarg_convert b⟩
  have hword : word (convertInode ip.ondisk b) 3 = word ip.ondisk 3 := by
    rw [convertInode, Dsknod.setMode, word_setWord_ne (by omega), Dsknod.setAddr,
      word_setWord_ne (by omega), show (8 : ℕ) = 2 * 4 from rfl, show (16 : ℕ) = 2 * 8 from rfl,
      show (0 : ℕ) = 2 * 0 from rfl, word_copyBytes, if_neg (by omega)]
  have hbyte : convertInode ip.ondisk b 5 = ip.ondisk 5 := by
    rw [convertInode, Dsknod.setMode, setWord, if_neg (by omega), if_neg (by omega),
      Dsknod.setAddr, setWord, if_neg (by omega), if_neg (by omega), copyBytes_outside (by omega)]
  rw [Dsknod.filesize, Dsknod.filesize]
  dsimp only
  rw [hbyte, hword]

/-- The inode that `bmap` leaves. -/
lemma grown_bmap (how : How) (ip : Inode) (off : ℕ) (alloc : Bool) :
    Yields (fun r : ℕ × Inode => Grown ip r.2) (bmap how ip off alloc) := by
  have hlarge : ∀ ip' l, Grown ip ip' →
      Yields (fun r : ℕ × Inode => Grown ip r.2) (bmapLarge how ip' l alloc) := by
    intro ip' l hg
    have hout : ∀ {α : Type} {Q : α → Prop}, Yields Q (outside : M α) := fun _ _ _ h => by cases h
    rw [bmapLarge]
    refine .ite (.ite (.ite ?_ (.pure hg)) ?_) (.ite hout (.ite (.ite ?_ (.pure hg)) ?_))
    · exact .after _ fun _ => .after _ fun _ => .after _ fun _ => .after _ fun _ => hout
    · exact .after _ fun _ => hout
    · refine .after _ fun b => .after _ fun _ => .after _ fun _ => .pure ?_
      exact hg.trans (grown_setAddr ip' _ b)
    · exact .after _ fun _ => .pure hg
  rw [bmap]
  refine .ite (hlarge ip _ (.refl ip)) (.ite (.ite ?_ (.pure (.refl ip))) (.ite ?_ (.pure (.refl ip))))
  · exact .after _ fun b => .pure (grown_setAddr ip _ b)
  · refine .bind (Q := Grown ip) ?_ fun ip' hg => hlarge ip' _ hg
    exact .after _ fun b => .after _ fun _ => .after _ fun _ => .pure (grown_convert ip b)

lemma grown_putblk (how : How) (dirp : Buffer) (ip : Inode) (i : ℕ) :
    Yields (Grown ip) (dirp.putblk how ip i) := by
  refine .bind (grown_bmap how ip _ true) fun r hr => ?_
  obtain ⟨b, ip'⟩ := r
  refine .ite (fun _ _ _ h => by cases h) ?_
  exact .after _ fun _ => .pure hr

/-- The inode that the loop of `putdir` leaves. -/
lemma grown_putblks (how : How) (dirp : Buffer) (ip : Inode) (l : List ℕ) :
    Yields (Grown ip) (l.foldlM (dirp.putblk how) ip) :=
  .foldlM (fun ip' i _ hg s a t hrun => hg.trans (grown_putblk how dirp ip' i s a t hrun)) (.refl ip)

/-- A directory of more blocks than single indirect blocks can map is never written. -/
lemma putdir_large (dirp : Buffer) (dp : Inode) (hl : dp.ilarg = true)
    (h : 1792 < blocks (Dsknod.filesize dp.ondisk)) : Stops (dirp.putdir .cached dp) := by
  obtain ⟨n, hn⟩ : ∃ n, blocks (Dsknod.filesize dp.ondisk) = 1792 + (n + 1) :=
    ⟨blocks (Dsknod.filesize dp.ondisk) - 1793, by omega⟩
  have hturn : ∀ ip', Grown dp ip' → Stops (dirp.putblk .cached ip' 1792) := by
    intro ip' hg
    rw [Buffer.putblk, bmap, if_pos (hg.large hl)]
    exact (bmapLarge_outside .cached ip' (by omega)).bind _
  rw [Buffer.putdir, hn, List.range_add, List.foldlM_append]
  intro s
  cases hrun : (List.range 1792).foldlM (dirp.putblk .cached) dp s with
  | ok ip' t =>
      have hg := grown_putblks .cached dirp dp _ s ip' t hrun
      rw [bind_ok hrun, List.range_succ_eq_map, List.map_cons, List.foldlM_cons]
      exact (hturn ip' hg).bind _ t
  | error e t => exact ⟨e, t, bind_error hrun⟩

/-- The size that `iput` stores. -/
lemma iput_size {how : How} (hrun : iput how ip s = .ok () t) :
    Dsknod.filesize (dsknod (t.fs ip.fs).blk ip.inum) = Dsknod.filesize ip.ondisk := by
  obtain ⟨buf, u, -, hrun⟩ := of_bind_ok hrun
  rw [install_apply] at hrun
  split_ifs at hrun
  cases hrun
  have hbyte : ∀ k < 32, dsknod (((u.put ip.fs (inodeBlock ip.inum)
      (copyBytes ip.ondisk 0 buf (32 * inodeIndex ip.inum) 32)).setKept .inodeblk
        ⟨some (inodeBlock ip.inum), copyBytes ip.ondisk 0 buf (32 * inodeIndex ip.inum) 32,
          some ip.fs⟩).fs ip.fs).blk ip.inum k = ip.ondisk k := by
    intro k hk
    rw [setKept_fs, put_fs, dsknod]
    dsimp only
    rw [Function.update_self, copyBytes_inside (Nat.zero_le k) (by omega),
      copyBytes_inside (by omega) (by omega)]
    congr 1
    omega
  rw [Dsknod.filesize, Dsknod.filesize, word, word, hbyte 5 (by omega), hbyte (2 * 3) (by omega),
    hbyte (2 * 3 + 1) (by omega)]

/-- The size of a directory in which an entry has been stored. -/
lemma insert_size {how : How} {dp : Inode}
    (hrun : insert how dp dirp i inum name s = .ok () t) :
    Dsknod.filesize (dsknod (t.fs dp.fs).blk dp.inum) = Dsknod.filesize dp.ondisk := by
  rw [insert] at hrun
  split_ifs at hrun
  · cases hrun
  · obtain ⟨ip', u, hput, hrun⟩ := of_bind_ok hrun
    have hg : Grown dp ip' := grown_putblks _ _ dp _ s ip' u hput
    obtain ⟨_, v, hiput, hrun⟩ := of_bind_ok hrun
    have hsize := iput_size hiput
    rw [hg.fs, hg.inum, hg.size] at hsize
    rw [superblock_bind] at hrun
    cases hrun
    rw [hg.fs, setSb_fs]
    exact hsize

/-! ## What is asked of it -/

/-- The file system is sound around the directory `i`: its blocks are in place, as far as single
indirect blocks map them, the indirect blocks of directories are blocks for files, not free and no
blocks of `i`, and the names are for inodes of the list. -/
structure Sound (s : Lib) (f : ℕ) (L : List ℕ) (i : ℕ) : Prop where
  isdir : Dsknod.ifdir (dsknod (s.fs f).blk i) = true
  laid : Laid s (inodeOf (s.fs f).blk f i) L
    (min (blocks (Dsknod.filesize (dsknod (s.fs f).blk i))) 1792)
  own : ∀ j, 1 ≤ j → j ≤ I_PER_BLK * isize (s.fs f).sb →
    Dsknod.ifdir (dsknod (s.fs f).blk j) = true → ∀ b, Meta (s.fs f).blk (dsknod (s.fs f).blk j) b →
      InRange (s.fs f).sb b ∧ b ∉ L ∧
        ∀ l < blocks (Dsknod.filesize (dsknod (s.fs f).blk i)),
          mapOf (s.fs f).blk (dsknod (s.fs f).blk i) l ≠ b
  names : ∀ j, 1 ≤ j → j ≤ I_PER_BLK * isize (s.fs f).sb →
    Dsknod.ifdir (dsknod (s.fs f).blk j) = true →
      ∀ k < Dsknod.filesize (dsknod (s.fs f).blk j) / 16,
        (entryOf (s.fs f).blk (dsknod (s.fs f).blk j) k).inum ≤ I_PER_BLK * isize (s.fs f).sb

/-- The name is no live one of the directory. -/
def NewName (blk : ℕ → Bytes) (d : Bytes) (name : List UInt8) : Prop :=
  ∀ k < Dsknod.filesize d / 16, (entryOf blk d k).inum ≠ 0 →
    chars (entryOf blk d k).name ≠ chars name

/-- A look for the name finds the number, and the live entries are where they were. -/
structure Linked (s t : Lib) (f i : ℕ) (name : List UInt8) (inum : ℕ) : Prop where
  found : ∃ u, (iget .cached f i >>= fun ip => lookup .cached ip name) t = .ok inum u
  old : ∀ k < Dsknod.filesize (dsknod (s.fs f).blk i) / 16,
    (entryOf (s.fs f).blk (dsknod (s.fs f).blk i) k).inum ≠ 0 →
      k < Dsknod.filesize (dsknod (t.fs f).blk i) / 16 ∧
        entryOf (t.fs f).blk (dsknod (t.fs f).blk i) k =
          entryOf (s.fs f).blk (dsknod (s.fs f).blk i) k

/-- There is a free entry, or the last block has room for one more. -/
def Room (blk : ℕ → Bytes) (d : Bytes) : Prop :=
  let size := Dsknod.filesize d
  (∃ k < size / 16, (entryOf blk d k).inum = 0) ∨ (0 < size % 512 ∧ size % 512 < 496) ∨
    (size % 512 = 496 ∧ size + 16 < 65536)

/-! ## The directory is read -/

/-- A look for a block of inodes does not concern the indirect blocks. -/
lemma look_other {how : How} {c c' : Static} {f b : ℕ} {buf : Bytes} (hc : c' ≠ c)
    (h : look how c f b s = .ok buf t) : t.kept c' = s.kept c' := by
  rw [look] at h
  split_ifs at h
  · cases h
    rfl
  · cases h
    exact Function.update_of_ne hc _ _

namespace Sound

/-- The states in which nothing has been written. -/
def Same (s : Lib) (f : ℕ) (L : List ℕ) (i : ℕ) (u : Lib) : Prop :=
  u.fs f = s.fs f ∧ Laid u (inodeOf (s.fs f).blk f i) L
    (min (blocks (Dsknod.filesize (dsknod (s.fs f).blk i))) 1792)

/-- The inodes of the list can be read. -/
lemma viewed (h : Sound s f L i) : Viewed (Same s f L i) f (s.fs f).blk
    fun j => 1 ≤ j ∧ j ≤ I_PER_BLK * isize (s.fs f).sb := by
  have hi := h.laid.inum
  refine ⟨⟨le_rfl, hi.1.trans hi.2⟩, fun j hj => ⟨?_, fun hdir b hb => ?_, fun b u hu => ?_⟩,
    fun j hj hdir k hk h0 => ⟨Nat.one_le_iff_ne_zero.mpr h0, h.names j hj.1 hj.2 hdir k hk⟩⟩
  · rintro u ⟨hfs, hu⟩
    have hlt : inodeBlock j < isize (u.fs f).sb + 2 := by
      rw [hfs]
      exact inodeBlock_lt hj.1 hj.2
    have hready : Ready u f L := hu.ready
    obtain ⟨t, hrun, ht, htfs⟩ := hready.look_inodeblk hlt
    have hb0 : inodeBlock j ≠ 0 := by
      have hge := inodeBlock_ge j
      omega
    refine ⟨t, ?_, htfs.trans hfs, hu.congr ht htfs fun b hb => ?_⟩
    · rw [Lib.block, if_neg hb0, hfs] at hrun
      exact bind_ok hrun
    · rw [look_other (by decide) hrun] at hb
      exact hu.kept b hb
  · rintro u ⟨hfs, hu⟩
    obtain ⟨hin, hL, hdata⟩ := h.own j hj.1 hj.2 hdir b hb
    have hge : isize (u.fs f).sb + 2 ≤ b := by
      rw [hfs]
      exact hin.1
    have hready : Ready u f L := hu.ready
    obtain ⟨t, hrun, ht, htfs⟩ := hready.look_iblk hge hL
    refine ⟨t, ?_, htfs.trans hfs, hu.congr ht htfs fun c hc l hl => ?_⟩
    · rw [Lib.block, if_neg hb.1, hfs] at hrun
      exact hrun
    · rw [look_no hrun] at hc
      obtain rfl := Option.some.inj hc
      dsimp only [inodeOf]
      rw [hfs]
      exact hdata l (lt_of_lt_of_le hl (min_le_left _ _))
  · refine ⟨u, ?_, hu⟩
    rw [readblk, Lib.block, hu.1]
    rfl

/-- `filelink` as far as it reads. -/
lemma run (h : Sound s f L i) {path : List UInt8} (inum : ℕ)
    (hdir : dirOf (s.fs f).blk path = .ok (some i, name)) :
    if Within (dsknod (s.fs f).blk i) then
      ∃ u, Same s f L i u ∧ filelink .cached f path inum s =
        enter .cached (inodeOf (s.fs f).blk f i)
          (bufferOf (s.fs f).blk (dsknod (s.fs f).blk i)) inum name u
    else ∃ e t, filelink .cached f path inum s = .error e t := by
  have hsame : Same s f L i s := ⟨rfl, h.laid⟩
  have hparent := h.viewed.dirname path s hsame
  rw [hdir] at hparent
  obtain ⟨u, hparent, hu⟩ := hparent
  have hget := (h.viewed.seen i h.laid.inum).getdir h.isdir u hu
  have hfmt : ¬Dsknod.ifdir (inodeOf (s.fs f).blk f i).ondisk = false := ne_false_of_eq_true h.isdir
  split_ifs with hw
  · rw [if_pos hw] at hget
    obtain ⟨v, hget, hv⟩ := hget
    refine ⟨v, hv, (bind_ok hparent).trans ?_⟩
    dsimp only [Option.map_some]
    rw [if_neg hfmt]
    exact bind_ok hget
  · rw [if_neg hw] at hget
    obtain ⟨v, hget⟩ := hget
    refine ⟨.outside, v, (bind_ok hparent).trans ?_⟩
    dsimp only [Option.map_some]
    rw [if_neg hfmt]
    exact bind_error hget

end Sound

/-! ## An inode with another size -/

section Size

variable {blk : ℕ → Bytes} {d d' : Bytes}

/-- The mode and the addresses are the same. -/
def SameMap (d d' : Bytes) : Prop :=
  Dsknod.mode d' = Dsknod.mode d ∧ ∀ k, Dsknod.addr d' k = Dsknod.addr d k

lemma SameMap.ilarg (h : SameMap d d') : Dsknod.ilarg d' = Dsknod.ilarg d := by
  rw [Dsknod.ilarg, Dsknod.ilarg, h.1]

lemma SameMap.ifdir (h : SameMap d d') : Dsknod.ifdir d' = Dsknod.ifdir d := by
  rw [Dsknod.ifdir, Dsknod.ifdir, h.1]

lemma SameMap.mapOf (h : SameMap d d') (l : ℕ) : Host.mapOf blk d' l = Host.mapOf blk d l := by
  simp only [Host.mapOf, h.ilarg, h.2]

lemma SameMap.meta (h : SameMap d d') (b : ℕ) : Meta blk d' b ↔ Meta blk d b := by
  simp only [Meta, h.ilarg, h.2]

lemma SameMap.laid (h : SameMap ip.ondisk d') (hl : Laid s ip L m) :
    Laid s { ip with ondisk := d' } L m where
  ready := hl.ready
  inum := hl.inum
  apart := by
    have ha := hl.apart
    simp only [Apart] at ha ⊢
    simpa only [h.ilarg, h.2] using ha
  own b hb := hl.own b ((h.meta b).mp hb)
  place l hlt := by
    have hp := hl.place l hlt
    simpa only [h.ilarg, h.2] using hp
  data l hlt h0 := by
    dsimp only at h0 ⊢
    rw [h.mapOf] at h0 ⊢
    rw [h.meta]
    exact hl.data l hlt h0
  once l hlt l' hlt' h0 heq := by
    dsimp only at h0 heq
    rw [h.mapOf] at h0
    rw [h.mapOf, h.mapOf] at heq
    exact hl.once l hlt l' hlt' h0 heq
  kept b hb l hlt := by
    dsimp only
    rw [h.mapOf]
    exact hl.kept b hb l hlt

lemma sameMap_setSize1 (d : Bytes) (v : ℕ) : SameMap d (Dsknod.setSize1 d v) :=
  ⟨word_setWord_ne (by omega), fun k => word_setWord_ne (by omega)⟩

lemma filesize_setSize1 {v : ℕ} (hv : v < 65536) :
    Dsknod.filesize (Dsknod.setSize1 d v) = (d 5).toNat * 65536 + v := by
  rw [Dsknod.filesize, Dsknod.setSize1, word_setWord_self hv, setWord, if_neg (by omega),
    if_neg (by omega)]

end Size

/-! ## The entry is stored -/

/-- The directory is on the image as it was in memory. -/
structure Stored (t : Lib) (ip : Inode) (d : Bytes) (L : List ℕ) (m : ℕ) (dirp : Buffer) : Prop where
  ready : Ready t ip.fs L
  inum : 1 ≤ ip.inum ∧ ip.inum ≤ I_PER_BLK * isize (t.fs ip.fs).sb
  inode : dsknod (t.fs ip.fs).blk ip.inum = d
  head : ∀ k, k < 8 ∨ 24 ≤ k → d k = ip.ondisk k
  own : ∀ b, Meta (t.fs ip.fs).blk d b → InRange (t.fs ip.fs).sb b ∧ b ∉ L
  place : ∀ l < m, Reached d l
  bytes : ∀ k < 512 * m, contents (t.fs ip.fs).blk d k = dirp.bytes k

/-- `iput` of the inode, when all its blocks are there. -/
lemma Turn.stored {s₀ : Lib} {ip₀ : Inode} {L₀ : List ℕ} {d : Bytes}
    (h : Turn s₀ ip₀ L₀ dirp m m s d L) (hz : ∀ k, 32 ≤ k → ip₀.ondisk k = 0) :
    ∃ t, (iput .cached { ip₀ with ondisk := d } >>= fun _ => superblock ip₀.fs >>= fun sb =>
      setSuper ip₀.fs (setFmod sb)) s = .ok () t ∧ Stored t ip₀ d L m dirp := by
  have hlt : inodeBlock ip₀.inum < isize (s.fs ip₀.fs).sb + 2 :=
    inodeBlock_lt h.laid.inum.1 h.laid.inum.2
  obtain ⟨t, hiput, ht, htfs⟩ := h.laid.ready.iput hlt
  dsimp only at hiput htfs ht
  set blk' := storeInode (s.fs ip₀.fs).blk { ip₀ with ondisk := d } with hblk'
  have hother : ∀ b, InRange (s.fs ip₀.fs).sb b → blk' b = (s.fs ip₀.fs).blk b := fun b hb =>
    Function.update_of_ne (ne_inodeBlock h.laid.inum.1 h.laid.inum.2 hb) _ _
  have hown : ∀ b, Meta (s.fs ip₀.fs).blk d b → blk' b = (s.fs ip₀.fs).blk b := fun b hb =>
    hother b (h.laid.own b hb).1
  have hmeta : ∀ b, Meta blk' d b ↔ Meta (s.fs ip₀.fs).blk d b := meta_congr fun hl h7 =>
    hown _ (Stage.meta_seven hl h7)
  have hfs : (t.setSb ip₀.fs (setFmod (t.fs ip₀.fs).sb)).fs ip₀.fs =
      { s.fs ip₀.fs with blk := blk', sb := setFmod (s.fs ip₀.fs).sb } := by
    rw [setSb_fs, htfs]
  have hrange : Fslib.SameRange (s.fs ip₀.fs).sb (setFmod (s.fs ip₀.fs).sb) :=
    Fslib.sameRange_setFmod fun _ _ => rfl
  have hzd : ∀ k, 32 ≤ k → d k = 0 := fun k hk => (h.head k (Or.inr (by omega))).trans (hz k hk)
  refine ⟨t.setSb ip₀.fs (setFmod (t.fs ip₀.fs).sb), bind_ok hiput, ⟨ht.setFmod, ?_, ?_, h.head, ?_,
    ?_, ?_⟩⟩
  · rw [hfs, hrange.1]
    exact h.laid.inum
  · rw [hfs]
    exact (dsknod_storeInode hzd :
      dsknod (storeInode (s.fs ip₀.fs).blk { ip₀ with ondisk := d }) ip₀.inum = d)
  · rw [hfs]
    intro b hb
    obtain ⟨hin, hL⟩ := h.laid.own b ((hmeta b).mp hb)
    exact ⟨hrange.inRange.mpr hin, hL⟩
  · intro l hl hlarg
    have hp := h.laid.place l hl
    rw [if_pos hlarg] at hp
    exact Or.inl hp.1
  · intro k hk
    have hl : k / 512 < m := by omega
    have h0 := h.filled (k / 512) hl
    rw [hfs, contents]
    dsimp only
    rw [mapOf_congr hown, blockOf, if_neg h0, hother _ (h.laid.data _ hl h0).1, h.bytes _ hl]
    dsimp only
    rw [Nat.div_add_mod]

/-- **`insert`** comes to its end exactly if there is a free block for each hole. -/
lemma Laid.insert (h : Laid s ip L m) (inum : ℕ) (name : List UInt8)
    (hm : blocks (Dsknod.filesize ip.ondisk) = m) (hsize : 512 * m ≤ dirp.size) (hi : 16 * i + 16 ≤ 512 * m)
    (hz : ∀ k, 32 ≤ k → ip.ondisk k = 0) :
    if holes (s.fs ip.fs).blk ip.ondisk m ≤ L.length then
      ∃ d t L', Host.insert .cached ip dirp i inum name s = .ok () t ∧
        Stored t ip d L' m (dirp.setEntry i inum name)
    else ∃ e t, Host.insert .cached ip dirp i inum name s = .error e t := by
  have hput := h.putdir hm
    (show 512 * m ≤ (dirp.setEntry i inum name).size from hsize)
  rw [Host.insert, if_neg (show ¬dirp.size < 16 * i + 16 by omega)]
  split_ifs with hholes
  · rw [if_pos hholes] at hput
    obtain ⟨d, t, L', hput, ht⟩ := hput
    obtain ⟨u, hrun, hu⟩ := ht.stored hz
    exact ⟨d, u, L', (bind_ok hput).trans hrun, hu⟩
  · rw [if_neg hholes] at hput
    obtain ⟨e, t, hput⟩ := hput
    exact ⟨e, t, bind_error hput⟩

/-! ## The name is found -/

section Found

variable {e d : Bytes} {n N : ℕ}

lemma Stored.seen (h : Stored t ⟨e, f, i⟩ d L m dirp) :
    Seen (fun u => u.fs f = t.fs f ∧ Ready u f L) f (t.fs f).blk i := by
  refine ⟨?_, fun _ b hb => ?_, fun b u hu => ?_⟩
  · rintro u ⟨hfs, hu⟩
    have hlt : inodeBlock i < isize (u.fs f).sb + 2 := by
      rw [hfs]
      exact inodeBlock_lt h.inum.1 h.inum.2
    obtain ⟨v, hrun, hv, hvfs⟩ := hu.look_inodeblk hlt
    have hb0 : inodeBlock i ≠ 0 := by
      have hge := inodeBlock_ge i
      omega
    rw [Lib.block, if_neg hb0, hfs] at hrun
    exact ⟨v, bind_ok hrun, hvfs.trans hfs, hv⟩
  · rintro u ⟨hfs, hu⟩
    have hinode : dsknod (t.fs f).blk i = d := h.inode
    rw [hinode] at hb
    obtain ⟨hin, hL⟩ := h.own b hb
    have hge : isize (u.fs f).sb + 2 ≤ b := by
      rw [hfs]
      exact hin.1
    obtain ⟨v, hrun, hv, hvfs⟩ := hu.look_iblk hge hL
    rw [Lib.block, if_neg hb.1, hfs] at hrun
    exact ⟨v, hrun, hvfs.trans hfs, hv⟩
  · refine ⟨u, ?_, hu⟩
    rw [readblk, Lib.block, hu.1]
    rfl

lemma Stored.size (h : Stored t ip d L m dirp) :
    Dsknod.filesize d = Dsknod.filesize ip.ondisk := by
  rw [Dsknod.filesize, Dsknod.filesize, word, word, h.head 5 (by omega), h.head (2 * 3) (by omega),
    h.head (2 * 3 + 1) (by omega)]

lemma Stored.ifdir (h : Stored t ip d L m dirp) : Dsknod.ifdir d = Dsknod.ifdir ip.ondisk := by
  have hmode : Dsknod.mode d = Dsknod.mode ip.ondisk :=
    word_congr (h.head (2 * 0) (by omega)) (h.head (2 * 0 + 1) (by omega))
  rw [Dsknod.ifdir, Dsknod.ifdir, hmode]

lemma Stored.entry (h : Stored t ip d L m dirp) (hm : blocks (Dsknod.filesize ip.ondisk) = m) {k : ℕ}
    (hk : k < Dsknod.filesize ip.ondisk / 16) :
    entryOf (t.fs ip.fs).blk d k = dirp.entry k := by
  have hle := le_blocks (Dsknod.filesize ip.ondisk)
  exact direntAt_congr fun j hj => h.bytes _ (by omega)

/-- The new entry is the first of its name. -/
lemma Stored.linked (h : Stored t ⟨e, f, i⟩ d L m (dirp.setEntry n inum name))
    (hdir : Dsknod.ifdir e = true) (hm : blocks (Dsknod.filesize e) = m)
    (hn : n < Dsknod.filesize e / 16)
    (hN : Dsknod.filesize (dsknod (s.fs f).blk i) / 16 ≤ Dsknod.filesize e / 16)
    (hold : ∀ k < Dsknod.filesize (dsknod (s.fs f).blk i) / 16,
      dirp.entry k = entryOf (s.fs f).blk (dsknod (s.fs f).blk i) k)
    (hfirst : ∀ k < n, k < Dsknod.filesize (dsknod (s.fs f).blk i) / 16 ∧
      (entryOf (s.fs f).blk (dsknod (s.fs f).blk i) k).inum ≠ 0)
    (hfree : n < Dsknod.filesize (dsknod (s.fs f).blk i) / 16 →
      (entryOf (s.fs f).blk (dsknod (s.fs f).blk i) n).inum = 0)
    (hnew : NewName (s.fs f).blk (dsknod (s.fs f).blk i) name) (h16 : inum < 65536) :
    Linked s t f i name inum := by
  have hinode : dsknod (t.fs f).blk i = d := h.inode
  have hsize : Dsknod.filesize d = Dsknod.filesize e := h.size
  have hentry : ∀ k < Dsknod.filesize e / 16,
      entryOf (t.fs f).blk d k = (dirp.setEntry n inum name).entry k := fun k hk => h.entry hm hk
  have hkeep : ∀ k < Dsknod.filesize (dsknod (s.fs f).blk i) / 16, k ≠ n →
      entryOf (t.fs f).blk d k = entryOf (s.fs f).blk (dsknod (s.fs f).blk i) k := by
    intro k hk hne
    rw [hentry k (by omega), setEntry_other hne, hold k hk]
  have hfind : (List.range (Dsknod.filesize d / 16)).find?
      (fun k => direqu (entryOf (t.fs f).blk d k).name name 14) = some n := by
    refine List.find?_range_eq_some.mpr ⟨?_, by rwa [hsize, List.mem_range], fun k hk => ?_⟩
    · rw [hentry n hn, setEntry_entry h16]
      exact direqu_strncpy 14 name
    · obtain ⟨hkN, hlive⟩ := hfirst k hk
      rw [hkeep k hkN (by omega), Bool.not_eq_true']
      exact Bool.eq_false_of_not_eq_true
        ((Tree.direqu_chars _ _).not.mpr (hnew k hkN hlive))
  have hname : nameIn (t.fs f).blk d name = inum := by
    rw [nameIn, hfind]
    dsimp only
    rw [hentry n hn, setEntry_entry h16]
  refine ⟨?_, fun k hk h0 => ?_⟩
  · have hI : (fun u : Lib => u.fs f = t.fs f ∧ Ready u f L) t := ⟨rfl, h.ready⟩
    have hwithin : Within d := fun l hl => h.place l (by rwa [hsize, hm] at hl)
    have hlook := h.seen.lookup name
    rw [hinode, lookupOf, if_neg (ne_false_of_eq_true (h.ifdir.trans hdir)), if_pos hwithin,
      hname] at hlook
    obtain ⟨u, hrun, -⟩ := Reads.bind (f := fun ip => lookup .cached ip name) h.seen.inode hlook t hI
    exact ⟨u, hrun⟩
  · have hne : k ≠ n := by
      rintro rfl
      exact h0 (hfree hk)
    rw [hinode, hsize]
    exact ⟨by omega, hkeep k hk hne⟩

end Found

/-! ## Room for the entry -/

/-- Memory that is too small for the directory. -/
lemma insert_short (dp : Inode) (i inum : ℕ) (name : List UInt8)
    (h : dirp.size < 512 * blocks (Dsknod.filesize dp.ondisk)) :
    Stops (insert .cached dp dirp i inum name) := by
  rw [insert]
  split_ifs
  · exact fun s => ⟨Stop.outside, s, rfl⟩
  · exact (putdir_stops .cached
      (show (dirp.setEntry i inum name).size < 512 * blocks _ from h)).bind _

section Enter

variable {u : Lib} {e : Bytes} {n : ℕ}

/-- The memory has all blocks of the directory, with the entry in one of them. -/
lemma Sound.stores (h : Sound s f L i) (hu : Sound.Same s f L i u)
    (he : SameMap (dsknod (s.fs f).blk i) e) (hz : ∀ k, 32 ≤ k → e k = 0)
    (hm : blocks (Dsknod.filesize e) = blocks (Dsknod.filesize (dsknod (s.fs f).blk i)))
    (hsize : 512 * blocks (Dsknod.filesize e) ≤ dirp.size) (hn : n < Dsknod.filesize e / 16)
    (hN : Dsknod.filesize (dsknod (s.fs f).blk i) / 16 ≤ Dsknod.filesize e / 16)
    (hold : ∀ k < Dsknod.filesize (dsknod (s.fs f).blk i) / 16,
      dirp.entry k = entryOf (s.fs f).blk (dsknod (s.fs f).blk i) k)
    (hfirst : ∀ k < n, k < Dsknod.filesize (dsknod (s.fs f).blk i) / 16 ∧
      (entryOf (s.fs f).blk (dsknod (s.fs f).blk i) k).inum ≠ 0)
    (hfree : n < Dsknod.filesize (dsknod (s.fs f).blk i) / 16 →
      (entryOf (s.fs f).blk (dsknod (s.fs f).blk i) n).inum = 0)
    (hnew : NewName (s.fs f).blk (dsknod (s.fs f).blk i) name) (h16 : inum < 65536) :
    (∃ t, insert .cached ⟨e, f, i⟩ dirp n inum name u = .ok () t ∧ Linked s t f i name inum) ↔
      blocks (Dsknod.filesize (dsknod (s.fs f).blk i)) ≤ 1792 ∧
        holes (s.fs f).blk (dsknod (s.fs f).blk i)
          (blocks (Dsknod.filesize (dsknod (s.fs f).blk i))) ≤ L.length := by
  have hle := le_blocks (Dsknod.filesize e)
  have hdir : Dsknod.ifdir e = true := he.ifdir.trans h.isdir
  by_cases hbig : blocks (Dsknod.filesize (dsknod (s.fs f).blk i)) ≤ 1792
  · have hlaid : Laid u ⟨e, f, i⟩ L (blocks (Dsknod.filesize e)) := by
      have hu2 := hu.2
      rw [min_eq_left hbig, ← hm] at hu2
      exact he.laid hu2
    have hholes : holes (u.fs f).blk e (blocks (Dsknod.filesize e)) =
        holes (s.fs f).blk (dsknod (s.fs f).blk i)
          (blocks (Dsknod.filesize (dsknod (s.fs f).blk i))) := by
      rw [hu.1, hm, holes, holes]
      simp only [he.mapOf]
    have hins := hlaid.insert inum name (i := n) rfl hsize
      (by omega) hz
    dsimp only at hins
    rw [hholes] at hins
    rw [and_iff_right hbig]
    split_ifs at hins with hroom
    · obtain ⟨d, t, L', hrun, ht⟩ := hins
      refine iff_of_true ⟨t, hrun, ?_⟩ hroom
      exact ht.linked hdir rfl hn hN hold hfirst hfree hnew h16
    · obtain ⟨k, t, hrun⟩ := hins
      refine iff_of_false ?_ hroom
      rintro ⟨t', hrun', -⟩
      rw [hrun] at hrun'
      cases hrun'
  · -- the double indirect block
    have hlarg : Dsknod.ilarg e = true := by
      have hplace := h.laid.place 8 (by omega)
      rw [he.ilarg]
      by_contra hno
      rw [if_neg (show ¬Dsknod.ilarg (inodeOf (s.fs f).blk f i).ondisk = true from hno)] at hplace
      omega
    refine iff_of_false ?_ fun hc => hbig hc.1
    rintro ⟨t, hrun, -⟩
    rw [insert, if_neg (show ¬dirp.size < 16 * n + 16 by omega)] at hrun
    obtain ⟨k, v, hstop⟩ := (putdir_large (dirp.setEntry n inum name) ⟨e, f, i⟩ hlarg
      (by dsimp only; omega)).bind _ u
    rw [hstop] at hrun
    cases hrun

lemma bufferOf_unused (blk : ℕ → Bytes) (d : Bytes) :
    (bufferOf blk d).unused (Dsknod.filesize d / 16) =
      (List.range (Dsknod.filesize d / 16)).find? fun k => (entryOf blk d k).inum = 0 := by
  refine List.find?_congr fun k hk => ?_
  rw [bufferOf_entry (List.mem_range.mp hk)]

/-- There is a free entry. -/
lemma Sound.enter_free (h : Sound s f L i) (hu : Sound.Same s f L i u)
    (hnew : NewName (s.fs f).blk (dsknod (s.fs f).blk i) name) (h16 : inum < 65536)
    (hfind : (List.range (Dsknod.filesize (dsknod (s.fs f).blk i) / 16)).find?
      (fun k => (entryOf (s.fs f).blk (dsknod (s.fs f).blk i) k).inum = 0) = some n) :
    (∃ t, enter .cached (inodeOf (s.fs f).blk f i)
      (bufferOf (s.fs f).blk (dsknod (s.fs f).blk i)) inum name u = .ok () t ∧
        Linked s t f i name inum) ↔
      blocks (Dsknod.filesize (dsknod (s.fs f).blk i)) ≤ 1792 ∧
        holes (s.fs f).blk (dsknod (s.fs f).blk i)
          (blocks (Dsknod.filesize (dsknod (s.fs f).blk i))) ≤ L.length := by
  have hunused : (bufferOf (s.fs f).blk (dsknod (s.fs f).blk i)).unused
      (Dsknod.filesize (inodeOf (s.fs f).blk f i).ondisk / 16) = some n :=
    (bufferOf_unused _ _).trans hfind
  obtain ⟨hn0, hn, hbefore⟩ := List.find?_range_eq_some.mp hfind
  have hn := List.mem_range.mp hn
  rw [decide_eq_true_eq] at hn0
  rw [enter]
  dsimp only
  rw [hunused]
  refine h.stores hu ⟨rfl, fun _ => rfl⟩ (fun k => dsknod_tail _ _) rfl le_rfl hn le_rfl
    (fun k hk => bufferOf_entry hk) (fun k hk => ⟨by omega, ?_⟩) (fun _ => hn0) hnew h16
  simpa using hbefore k hk

/-- The directory with one more entry. -/
lemma extend_ondisk (blk : ℕ → Bytes) (junk : Bytes) :
    (extend (inodeOf blk f i) dirp junk).1 =
      ⟨Dsknod.setSize1 (dsknod blk i) ((Dsknod.size1 (dsknod blk i) + 16) % 65536), f, i⟩ := rfl

/-- The memory changes with the last entry of a block. -/
lemma extend_buffer (blk : ℕ → Bytes) (junk : Bytes) :
    (extend (inodeOf blk f i) dirp junk).2 =
      if (Dsknod.size1 (dsknod blk i) + 16) % 65536 % 512 = 0 then
        dirp.realloc ((Dsknod.size1 (dsknod blk i) + 16) % 65536) junk
      else dirp := rfl

/-- Behind the last entry, in the same block or as the last one of it. -/
lemma Sound.enter_end (h : Sound s f L i) (hu : Sound.Same s f L i u)
    (hnew : NewName (s.fs f).blk (dsknod (s.fs f).blk i) name) (h16 : inum < 65536)
    (hlive : ∀ k < Dsknod.filesize (dsknod (s.fs f).blk i) / 16,
      (entryOf (s.fs f).blk (dsknod (s.fs f).blk i) k).inum ≠ 0)
    (hroom : 0 < Dsknod.filesize (dsknod (s.fs f).blk i) % 512 ∧
        Dsknod.filesize (dsknod (s.fs f).blk i) % 512 < 496 ∨
      Dsknod.filesize (dsknod (s.fs f).blk i) % 512 = 496 ∧
        Dsknod.filesize (dsknod (s.fs f).blk i) + 16 < 65536) (junk : Bytes) :
    (∃ t, insert .cached (extend (inodeOf (s.fs f).blk f i)
        (bufferOf (s.fs f).blk (dsknod (s.fs f).blk i)) junk).1
      (extend (inodeOf (s.fs f).blk f i)
        (bufferOf (s.fs f).blk (dsknod (s.fs f).blk i)) junk).2
      (Dsknod.filesize (dsknod (s.fs f).blk i) / 16) inum name u = .ok () t ∧
        Linked s t f i name inum) ↔
      blocks (Dsknod.filesize (dsknod (s.fs f).blk i)) ≤ 1792 ∧
        holes (s.fs f).blk (dsknod (s.fs f).blk i)
          (blocks (Dsknod.filesize (dsknod (s.fs f).blk i))) ≤ L.length := by
  set d := dsknod (s.fs f).blk i with hd
  have hsplit : Dsknod.filesize d = (d 5).toNat * 65536 + Dsknod.size1 d := rfl
  have hlt : Dsknod.size1 d < 65536 := word_lt d 3
  have hsize1 : (Dsknod.size1 d + 16) % 65536 = Dsknod.size1 d + 16 := by omega
  have hgrown : Dsknod.filesize (Dsknod.setSize1 d (Dsknod.size1 d + 16)) =
      Dsknod.filesize d + 16 := by
    rw [filesize_setSize1 (by omega)]
    omega
  have hblocks : blocks (Dsknod.filesize d + 16) = blocks (Dsknod.filesize d) := by
    rw [blocks, blocks]
    omega
  have hbuf : (bufferOf (s.fs f).blk d).size = 512 * blocks (Dsknod.filesize d) := rfl
  rw [extend_ondisk, ← hd, hsize1]
  refine h.stores hu (sameMap_setSize1 d _) (fun k hk => ?_) (by rw [hgrown, hblocks]) ?_
    (by rw [hgrown]; omega) (by rw [← hd, hgrown]; omega) (fun k hk => ?_)
    (fun k hk => ⟨hk, hlive k hk⟩)
    (fun hlt => absurd hlt (lt_irrefl _)) hnew h16
  · rw [Dsknod.setSize1, setWord, if_neg (by omega), if_neg (by omega)]
    exact dsknod_tail _ _ hk
  · rw [hgrown, hblocks, extend_buffer, ← hd]
    simp only [hsize1]
    split_ifs with hmod
    · -- the new end is that of the block
      rw [Buffer.realloc, blocks]
      dsimp only
      omega
    · exact le_rfl
  · rw [← bufferOf_entry hk, extend_buffer, ← hd]
    simp only [hsize1]
    split_ifs with hmod
    · have hle := le_blocks (Dsknod.filesize d)
      have hk : k < Dsknod.filesize d / 16 := hk
      exact direntAt_congr fun j hj => if_pos (by omega)
    · rfl

/-- Without room there is no memory for the entry, or the directory is cut off. -/
lemma Sound.no_room (h : Sound s f L i) {path : List UInt8}
    (hdir : dirOf (s.fs f).blk path = .ok (some i, name))
    (hroom : ¬Room (s.fs f).blk (dsknod (s.fs f).blk i)) :
    ¬∃ t, filelink .cached f path inum s = .ok () t ∧ Linked s t f i name inum := by
  rintro ⟨t, hrun, hlinked⟩
  have hreads := h.run inum hdir
  set d := dsknod (s.fs f).blk i with hd
  have hsplit : Dsknod.filesize d = (d 5).toNat * 65536 + Dsknod.size1 d := rfl
  have hlt : Dsknod.size1 d < 65536 := word_lt d 3
  have hlive : ∀ k < Dsknod.filesize d / 16, (entryOf (s.fs f).blk d k).inum ≠ 0 :=
    fun k hk h0 => hroom (Or.inl ⟨k, hk, h0⟩)
  have hnone : (bufferOf (s.fs f).blk d).unused (Dsknod.filesize d / 16) = none := by
    rw [bufferOf_unused, List.find?_range_eq_none]
    exact fun k hk => by simpa using hlive k hk
  obtain ⟨-, hroom⟩ := not_or.mp hroom
  split_ifs at hreads
  · obtain ⟨u, -, hfile⟩ := hreads
    have henter : enter .cached (inodeOf (s.fs f).blk f i) (bufferOf (s.fs f).blk d) inum name u =
        insert .cached (extend (inodeOf (s.fs f).blk f i) (bufferOf (s.fs f).blk d) u.stack).1
          (extend (inodeOf (s.fs f).blk f i) (bufferOf (s.fs f).blk d) u.stack).2
          (Dsknod.filesize d / 16) inum name u := by
      rw [enter]
      dsimp only [inodeOf]
      rw [← hd, hnone]
      rfl
    rw [hfile, henter, extend_ondisk, ← hd] at hrun
    by_cases hwrap : 65536 ≤ Dsknod.size1 d + 16
    · -- the size begins anew
      have hsize := insert_size hrun
      dsimp only at hsize
      rw [filesize_setSize1 (by omega)] at hsize
      have hlt : Dsknod.filesize d / 16 - 1 < Dsknod.filesize d / 16 := by omega
      have hlast := (hlinked.old (Dsknod.filesize d / 16 - 1) hlt (hlive _ hlt)).1
      rw [hsize] at hlast
      omega
    · have hsize1 : (Dsknod.size1 d + 16) % 65536 = Dsknod.size1 d + 16 := by omega
      rw [hsize1] at hrun
      have hgrown : Dsknod.filesize (Dsknod.setSize1 d (Dsknod.size1 d + 16)) =
          Dsknod.filesize d + 16 := by
        rw [filesize_setSize1 (by omega)]
        omega
      have hshort : (extend (inodeOf (s.fs f).blk f i) (bufferOf (s.fs f).blk d) u.stack).2.size <
          512 * blocks (Dsknod.filesize d + 16) := by
        rw [extend_buffer, ← hd]
        simp only [hsize1]
        split_ifs with hmod
        · rw [Buffer.realloc, blocks]
          dsimp only
          omega
        · rw [show (bufferOf (s.fs f).blk d).size = 512 * blocks (Dsknod.filesize d) from rfl,
            blocks, blocks]
          omega
      obtain ⟨k, v, hstop⟩ := insert_short ⟨Dsknod.setSize1 d (Dsknod.size1 d + 16), f, i⟩
        (Dsknod.filesize d / 16) inum name (hgrown.symm ▸ hshort) u
      rw [hstop] at hrun
      cases hrun
  · obtain ⟨k, v, hstop⟩ := hreads
    rw [hstop] at hrun
    cases hrun

end Enter

/-- **Making a name.**  In a sound file system it comes about exactly when there is a free entry or the
last block has room for one, the directory is below the double indirect block, and there is a free block
for each of its holes. -/
theorem link_iff (h : Sound s f L i) {path : List UInt8}
    (hdir : dirOf (s.fs f).blk path = .ok (some i, name))
    (hnew : NewName (s.fs f).blk (dsknod (s.fs f).blk i) name) (h16 : inum < 65536) :
    (∃ t, filelink .cached f path inum s = .ok () t ∧ Linked s t f i name inum) ↔
      Room (s.fs f).blk (dsknod (s.fs f).blk i) ∧
        blocks (Dsknod.filesize (dsknod (s.fs f).blk i)) ≤ 1792 ∧
        holes (s.fs f).blk (dsknod (s.fs f).blk i)
          (blocks (Dsknod.filesize (dsknod (s.fs f).blk i))) ≤ L.length := by
  by_cases hroom : Room (s.fs f).blk (dsknod (s.fs f).blk i)
  · rw [and_iff_right hroom]
    have hreads := h.run inum hdir
    split_ifs at hreads with hw
    · obtain ⟨u, hu, hfile⟩ := hreads
      rw [hfile]
      cases hfind : (List.range (Dsknod.filesize (dsknod (s.fs f).blk i) / 16)).find? fun k =>
          (entryOf (s.fs f).blk (dsknod (s.fs f).blk i) k).inum = 0 with
      | some n => exact h.enter_free hu hnew h16 hfind
      | none =>
          have hlive : ∀ k < Dsknod.filesize (dsknod (s.fs f).blk i) / 16,
              (entryOf (s.fs f).blk (dsknod (s.fs f).blk i) k).inum ≠ 0 := fun k hk => by
            simpa using List.find?_range_eq_none.mp hfind k hk
          have hunused : (bufferOf (s.fs f).blk (dsknod (s.fs f).blk i)).unused
              (Dsknod.filesize (inodeOf (s.fs f).blk f i).ondisk / 16) = none :=
            (bufferOf_unused _ _).trans hfind
          rw [enter]
          dsimp only
          rw [hunused]
          refine h.enter_end hu hnew h16 hlive (hroom.resolve_left ?_) u.stack
          rintro ⟨k, hk, h0⟩
          exact hlive k hk h0
    · -- the arrays of `bmap` end before the directory
      obtain ⟨e, v, hstop⟩ := hreads
      refine iff_of_false ?_ fun hc => hw fun l hl hlarg => Or.inl ?_
      · rintro ⟨t, hrun, -⟩
        rw [hstop] at hrun
        cases hrun
      · omega
  · exact iff_of_false (h.no_room hdir hroom) fun hc => hroom hc.1

/-! ## Roots of a single block -/

/-- A root that is the only directory, small and of a single block at most. -/
lemma sound_root (hready : Ready s f []) (hiblk : (s.kept .iblk).no = none)
    (hisize : 1 ≤ isize (s.fs f).sb) (hdir : Dsknod.ifdir (dsknod (s.fs f).blk 1) = true)
    (honly : ∀ j, 1 ≤ j → j ≤ I_PER_BLK * isize (s.fs f).sb →
      Dsknod.ifdir (dsknod (s.fs f).blk j) = true → j = 1)
    (hlarg : Dsknod.ilarg (dsknod (s.fs f).blk 1) = false)
    (hsize : Dsknod.filesize (dsknod (s.fs f).blk 1) ≤ 512)
    (hin : InRange (s.fs f).sb (Dsknod.addr (dsknod (s.fs f).blk 1) 0))
    (hnames : ∀ k < Dsknod.filesize (dsknod (s.fs f).blk 1) / 16,
      (entryOf (s.fs f).blk (dsknod (s.fs f).blk 1) k).inum ≤ I_PER_BLK * isize (s.fs f).sb) :
    Sound s f [] 1 := by
  have hblocks : blocks (Dsknod.filesize (dsknod (s.fs f).blk 1)) ≤ 1 := by
    rw [blocks]
    omega
  have hmeta : ∀ b, ¬Meta (s.fs f).blk (dsknod (s.fs f).blk 1) b := fun b hb =>
    absurd (hlarg.symm.trans hb.2.1) Bool.false_ne_true
  have hmap : mapOf (s.fs f).blk (dsknod (s.fs f).blk 1) 0 =
      Dsknod.addr (dsknod (s.fs f).blk 1) 0 := by
    rw [mapOf, hlarg, if_neg Bool.false_ne_true, if_pos (by omega)]
  have hlist : 1 ≤ I_PER_BLK * isize (s.fs f).sb := by
    rw [I_PER_BLK]
    omega
  refine ⟨hdir, ⟨hready, ⟨le_rfl, hlist⟩, ?_, fun b hb => absurd hb (hmeta b), ?_, ?_, ?_, ?_⟩,
    ?_, ?_⟩
  · exact fun h => absurd (hlarg.symm.trans h) Bool.false_ne_true
  · intro l hl
    rw [if_neg (show ¬Dsknod.ilarg (inodeOf (s.fs f).blk f 1).ondisk = true from
      fun h => absurd (hlarg.symm.trans h) Bool.false_ne_true)]
    omega
  · intro l hl hl0
    obtain rfl : l = 0 := by omega
    exact ⟨hmap.symm ▸ hin, List.not_mem_nil, hmeta _⟩
  · intro l hl l' hl' _ _
    omega
  · intro b hb
    rw [hiblk] at hb
    cases hb
  · intro j hj hj' hd b hb
    rw [honly j hj hj' hd] at hb
    exact absurd hb (hmeta b)
  · intro j hj hj' hd
    rw [honly j hj hj' hd]
    exact hnames

/-- A library that has done nothing yet, and no free block. -/
lemma ready_new (hw : (s.fs f).writable = true) (hn : nfree (s.fs f).sb = 0)
    (h : ∀ c, (s.kept c).no = none) : Ready s f [] :=
  { writable := hw
    free := ⟨Or.inl hn, List.nodup_nil, fun _ hb => absurd hb List.not_mem_nil⟩
    inodeblk := fun _ hb => nomatch (h .inodeblk).symm.trans hb
    iblk := fun _ hb => nomatch (h .iblk).symm.trans hb }

namespace Sample

lemma sound : Sound lib 0 [] 1 :=
  sound_root (ready_new rfl rfl fun _ => rfl) rfl (by decide) (by decide) (by decide) (by decide)
    (by decide) (by decide) (by decide)

/-- The root with 32 names for inode 2, which fill its block. -/
def fullRoot (k : ℕ) : UInt8 :=
  if k % 16 = 0 then 2 else if k % 16 = 2 then UInt8.ofNat (97 + k / 16) else 0

def fullBlk (b : ℕ) : Bytes :=
  if b = 2 then Dsknod.setSize1 inodes 512 else if b = 10 then fullRoot else zero

def fullLib : Lib := { lib with fs := fun _ => { lib.fs 0 with blk := fullBlk } }

lemma full_sound : Sound fullLib 0 [] 1 :=
  sound_root (ready_new rfl rfl fun _ => rfl) rfl (by decide) (by decide) (by decide) (by decide)
    (by decide) (by decide) (by decide)

end Sample

/-- The second name in the root. -/
theorem link_iff_second : ∃ t, filelink .cached 0 [47, 98] 3 Sample.lib = .ok () t ∧
    Linked Sample.lib t 0 1 [98] 3 :=
  (link_iff Sample.sound (show dirOf Sample.blk [47, 98] = .ok (some 1, [98]) from rfl)
    (by unfold NewName; decide) (by decide)).mpr
    ⟨Or.inr (Or.inl (by decide)), by decide, by decide⟩

/-- A root that fills its block takes no more names. -/
theorem link_full : ¬∀ (s : Lib) (f : ℕ) (L : List ℕ) (i : ℕ) (path name : List UInt8) (inum : ℕ),
    Sound s f L i → dirOf (s.fs f).blk path = .ok (some i, name) →
      NewName (s.fs f).blk (dsknod (s.fs f).blk i) name → inum < 65536 →
        holes (s.fs f).blk (dsknod (s.fs f).blk i)
          (blocks (Dsknod.filesize (dsknod (s.fs f).blk i))) ≤ L.length →
            ∃ t, filelink .cached f path inum s = .ok () t ∧ Linked s t f i name inum := by
  intro h
  have hnew : NewName Sample.fullBlk (dsknod Sample.fullBlk 1) [33] := by unfold NewName; decide
  have hroom : ¬Room Sample.fullBlk (dsknod Sample.fullBlk 1) := by unfold Room; decide
  exact Sample.full_sound.no_room rfl hroom
    (h Sample.fullLib 0 [] 1 [33] [33] 3 Sample.full_sound rfl hnew (by decide) (by decide))

end Host

end Micronix
