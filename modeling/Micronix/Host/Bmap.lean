import Micronix.Host.Alloc

/-!
# `bmap` with allocation

Exactly when `bmap` of the library, asked to allocate, gives the block that is mapped or one from the
free list and changes no other part of the map.  It is short of that in three ways: the double indirect
block of a file is never reached, a block that is put into the inode as a single indirect one keeps what
was in it, and an exhausted list is not taken as a failure.
-/

namespace Micronix

namespace Host

open Bytes Super Program

variable {im₀ : Image} {d₀ : Bytes} {L₀ L : List ℕ} {s t : Lib} {ip : Inode} {b l r : ℕ}

/-! ## What is asked of it -/

/-- The file system of `ip` is sound: the free list is `L`, and the indirect blocks of its inodes are
blocks for files, not free, and each in one place. -/
structure Intact (s : Lib) (ip : Inode) (L : List ℕ) : Prop where
  ready : Ready s ip.fs L
  inum : 1 ≤ ip.inum ∧ ip.inum ≤ I_PER_BLK * isize (s.fs ip.fs).sb
  apart : Apart (s.fs ip.fs).blk ip.ondisk
  own : ∀ b, Meta (s.fs ip.fs).blk ip.ondisk b → InRange (s.fs ip.fs).sb b ∧ b ∉ L
  others : ∀ j, j ≠ ip.inum → Live (s.fs ip.fs).blk (s.fs ip.fs).sb j → ∀ b,
    Meta (s.fs ip.fs).blk (dsknod (s.fs ip.fs).blk j) b →
      InRange (s.fs ip.fs).sb b ∧ b ∉ L ∧ ¬Meta (s.fs ip.fs).blk ip.ondisk b

/-- Block `r` is given for logical block `l` of the inode `inum`: the one that is mapped, or one that
was free, is not free now and is not an indirect block of the file.  It is the only change of a map. -/
structure Allocates (im₀ : Image) (d₀ : Bytes) (L₀ : List ℕ) (inum l r : ℕ) (im : Image) (d : Bytes) :
    Prop where
  mapped : mapOf im₀.blk d₀ l ≠ 0 → r = mapOf im₀.blk d₀ l
  taken : mapOf im₀.blk d₀ l = 0 → r ∈ L₀ ∧ ¬Meta im.blk d r ∧ ∃ L, im.Free L ∧ r ∉ L
  here : mapOf im.blk d l = r
  elsewhere : ∀ l', l' ≠ l → mapOf im.blk d l' = mapOf im₀.blk d₀ l'
  others : ∀ j, j ≠ inum → Live im₀.blk im₀.sb j →
    dsknod im.blk j = dsknod im₀.blk j ∧
      ∀ l', mapOf im.blk (dsknod im.blk j) l' = mapOf im₀.blk (dsknod im₀.blk j) l'

/-- The next free block holds zeros once it is taken. -/
def Blank (im : Image) : Prop := ∀ k < 256, word (im.pop.2.blk im.pop.1) k = 0

/-- Logical block `l` of a large file: it is below the double indirect block, and it is mapped or the
free list has what is missing on the way to it. -/
def FitsLarge (im : Image) (d : Bytes) (L : List ℕ) (l : ℕ) : Prop :=
  l < 1792 ∧ (mapOf im.blk d l ≠ 0 ∨
    if Dsknod.addr d (l / 256) = 0 then 2 ≤ L.length ∧ Blank im else 1 ≤ L.length)

/-- Of any file.  A small one may have to become a large one. -/
def Fits (im : Image) (d : Bytes) (L : List ℕ) (l : ℕ) : Prop :=
  if Dsknod.ilarg d then FitsLarge im d L l
  else if l < 8 then Dsknod.addr d l ≠ 0 ∨ 1 ≤ L.length
  else l < 1792 ∧ if l < 256 then 2 ≤ L.length else 3 ≤ L.length ∧ Blank im.pop.2

/-! ## Where it stops -/

lemma install_zero (c : Static) (f : ℕ) (buf : Bytes) : Stops (install c f 0 buf) := by
  intro s
  rw [install_apply, if_pos (Or.inl rfl)]
  exact ⟨_, _, rfl⟩

lemma outside_stops {α : Type} : Stops (outside : M α) := fun s => ⟨.outside, s, rfl⟩

/-- From the double indirect block on. -/
lemma bmapLarge_outside (how : How) (ip : Inode) (h : 7 ≤ l / 256) :
    Stops (bmapLarge how ip l true) := by
  rw [bmapLarge, if_pos rfl]
  rcases eq_or_lt_of_le h with h7 | h7
  · rw [if_pos h7.symm]
    split_ifs
    · exact .after _ fun _ => .after _ fun _ => .after _ fun _ => .after _ fun _ => outside_stops
    · exact .after _ fun _ => outside_stops
  · rw [if_neg (by omega), if_pos h7]
    exact outside_stops

/-- What `iput` does to the statics for indirect blocks. -/
lemma iput_iblk (ip : Inode) :
    Keeps (fun s t : Lib => (t.kept .iblk).no = (s.kept .iblk).no) (iput .cached ip) := by
  have htrans : ∀ s t u : Lib, (t.kept .iblk).no = (s.kept .iblk).no →
      (u.kept .iblk).no = (t.kept .iblk).no → (u.kept .iblk).no = (s.kept .iblk).no :=
    fun _ _ _ h h' => h'.trans h
  refine .bind htrans ?_ fun buf => ?_
  · intro s
    rw [look]
    split_ifs
    · rfl
    · rfl
  · intro s
    have hput := sameStatics_put s ip.fs (inodeBlock ip.inum)
      (copyBytes ip.ondisk 0 buf (32 * inodeIndex ip.inum) 32) .iblk
    rw [install_apply]
    split_ifs
    · rfl
    · exact hput.1

/-! ## What has been done is what was asked -/

lemma Image.Free.unique {im : Image} {L L' : List ℕ} (h : im.Free L) (h' : im.Free L') : L = L' :=
  h.list.unique h'.list

/-- Taken blocks are indirect blocks of the file by now. -/
def Placed (L₀ L : List ℕ) (s : Lib) (ip : Inode) : Prop :=
  ∀ c ∈ L₀, c ∉ L → Meta (s.fs ip.fs).blk ip.ondisk c

/-- The indirect blocks of the other inodes are theirs. -/
def Others (im : Image) (d : Bytes) (L : List ℕ) (inum : ℕ) : Prop :=
  ∀ j, j ≠ inum → Live im.blk im.sb j → ∀ b, Meta im.blk (dsknod im.blk j) b →
    InRange im.sb b ∧ b ∉ L ∧ ¬Meta im.blk d b

lemma Stage.allocates (h : Stage im₀ d₀ L₀ s ip L) (ho : Others im₀ d₀ L₀ ip.inum) {d : Bytes}
    (hmapped : mapOf im₀.blk d₀ l ≠ 0 → r = mapOf im₀.blk d₀ l)
    (htaken : mapOf im₀.blk d₀ l = 0 → r ∈ L₀ ∧ ¬Meta (s.fs ip.fs).blk d r ∧ r ∉ L)
    (hmap : ∀ l', mapOf (s.fs ip.fs).blk d l' = if l' = l then r else mapOf im₀.blk d₀ l') :
    Allocates im₀ d₀ L₀ ip.inum l r (s.fs ip.fs) d where
  mapped := hmapped
  taken h0 := ⟨(htaken h0).1, (htaken h0).2.1, L, h.ready.free, (htaken h0).2.2⟩
  here := (hmap l).trans (if_pos rfl)
  elsewhere l' hne := (hmap l').trans (if_neg hne)
  others j hne hj := by
    rw [h.inode j hj.1 hne hj.2.1]
    refine ⟨rfl, mapOf_congr fun b hb => ?_⟩
    obtain ⟨hin, hL, hm⟩ := ho j hne hj b hb
    exact h.blk b hin hL hm

/-- Nothing had to be done. -/
lemma Stage.allocates_mapped (h : Stage im₀ d₀ L₀ s ip L) (ho : Others im₀ d₀ L₀ ip.inum)
    (hmap : ∀ l', mapOf (s.fs ip.fs).blk ip.ondisk l' = mapOf im₀.blk d₀ l')
    (hr : mapOf im₀.blk d₀ l = r) (h0 : r ≠ 0) :
    Allocates im₀ d₀ L₀ ip.inum l r (s.fs ip.fs) ip.ondisk := by
  refine h.allocates ho (fun _ => hr.symm) (fun hz => absurd (hr.symm.trans hz) h0) fun l' => ?_
  split_ifs with hl'
  · rw [hmap, hl', hr]
  · exact hmap l'

/-- A stale word is not a block from the free list. -/
lemma Stage.not_stale (h : Stage im₀ d₀ L₀ s ip L) (hu : Placed L₀ L s ip)
    (h0 : mapOf im₀.blk d₀ l = 0) :
    ¬Allocates im₀ d₀ L₀ ip.inum l r (s.fs ip.fs) ip.ondisk := by
  intro ha
  obtain ⟨hr, hm, L', hfree, hL'⟩ := ha.taken h0
  rw [hfree.unique h.ready.free] at hL'
  exact hm (hu r hr hL')

/-! ## A large file -/

/-- The map below the double indirect block. -/
lemma mapOf_large {blk : ℕ → Bytes} {d : Bytes} (hl : Dsknod.ilarg d = true) (h7 : l / 256 < 7) :
    mapOf blk d l = sub blk (Dsknod.addr d (l / 256)) (l % 256) := by
  rw [mapOf, if_pos hl, if_pos h7]

/-- No block can be had for a new indirect block. -/
lemma Stage.newIndirect_full (h : Stage im₀ d₀ L₀ s ip []) (h7 : l / 256 < 7)
    (h0 : ip.addr (l / 256) = 0) : ∃ e t, bmapLarge .cached ip l true s = .error e t := by
  obtain ⟨u, hballoc, hufs, hsame⟩ := balloc_apply h.ready.writable
  rw [h.ready.free.pop_nil.1] at hballoc
  rw [bmapLarge, if_neg (by omega), if_neg (by omega), if_pos h0, if_pos rfl, bind_ok hballoc]
  have hno : (u.kept .iblk).no ≠ some 0 := by
    rw [(hsame .iblk).1]
    intro hc
    have hge := (h.ready.iblk 0 hc).1
    omega
  have hkeep := iput_iblk (ip.setAddr (l / 256) 0) u
  cases hput : Host.iput .cached (ip.setAddr (l / 256) 0) u with
  | error e t => exact ⟨e, t, bind_error hput⟩
  | ok a v =>
      rw [hput] at hkeep
      have hlook : look .cached .iblk ip.fs 0 v =
          .ok zero (v.setKept .iblk ⟨some 0, zero, some ip.fs⟩) := by
        rw [look, if_neg fun hc => hno (hkeep.symm.trans hc.2)]
        rfl
      have hstop : Stops (do
          let new ← Host.balloc ip.fs
          Host.install .iblk ip.fs 0 (setWord zero (l % 256) new)
          pure new) := .after _ fun _ => (install_zero _ _ _).bind _
      obtain ⟨e, t, ht⟩ := hstop (v.setKept .iblk ⟨some 0, zero, some ip.fs⟩)
      have hind : indirect .cached ip.fs 0 (l % 256) true v = .error e t := by
        rw [indirect, bind_ok hlook, if_pos ⟨Bytes.word_zero _, rfl⟩]
        exact ht
      exact ⟨e, t, (bind_ok hput).trans (bind_error hind)⟩

/-- Logical block `l` is below an indirect block that is there. -/
lemma Stage.large_present (h : Stage im₀ d₀ L₀ s ip L) (ho : Others im₀ d₀ L₀ ip.inum) (h0 : 0 ∉ L₀)
    (hl : ip.ilarg = true) (hmap : ∀ l', mapOf (s.fs ip.fs).blk ip.ondisk l' = mapOf im₀.blk d₀ l')
    (h7 : l / 256 < 7) (ha : ip.addr (l / 256) ≠ 0) :
    (∃ r ip' t, bmapLarge .cached ip l true s = .ok (r, ip') t ∧
      Allocates im₀ d₀ L₀ ip.inum l r (t.fs ip.fs) ip'.ondisk) ↔
      mapOf (s.fs ip.fs).blk ip.ondisk l ≠ 0 ∨ 1 ≤ L.length := by
  have hk : l % 256 < 256 := Nat.mod_lt _ (by omega)
  have hword : mapOf (s.fs ip.fs).blk ip.ondisk l =
      word ((s.fs ip.fs).blk (ip.addr (l / 256))) (l % 256) :=
    (mapOf_large hl h7).trans (sub_of_lt ha hk)
  have hrun : ∀ {r t}, indirect .cached ip.fs (ip.addr (l / 256)) (l % 256) true s = .ok r t →
      bmapLarge .cached ip l true s = .ok (r, ip) t := by
    intro r t hind
    rw [bmapLarge, if_neg (by omega), if_neg (by omega), if_neg ha]
    exact bind_ok hind
  rw [hword]
  by_cases hw : word ((s.fs ip.fs).blk (ip.addr (l / 256))) (l % 256) = 0
  · have hz : mapOf im₀.blk d₀ l = 0 := by rw [← hmap, hword, hw]
    cases L with
    | nil =>
        obtain ⟨t, hind⟩ := h.fill_full hl h7 ha hw
        refine iff_of_false ?_ (by simp [hw])
        rintro ⟨r, ip', t', hr, hall⟩
        rw [hrun hind] at hr
        cases hr
        exact h0 (hall.taken hz).1
    | cons b L =>
        obtain ⟨t, hind, ht, hm, hmap'⟩ := h.fill_take hl h7 ha hk hw
        have hb := List.nodup_cons.mp h.ready.free.kept.1
        refine iff_of_true ⟨b, ip, t, hrun hind, ?_⟩ (Or.inr (by simp))
        refine ht.allocates ho (fun hne => absurd hz hne)
          (fun _ => ⟨h.list b List.mem_cons_self, hm, hb.1⟩) fun l' => ?_
        rw [hmap', hmap]
        exact if_congr (by omega) rfl rfl
  · obtain ⟨t, hind, ht, hfs⟩ := h.fill_hit hl h7 ha hw
    refine iff_of_true ⟨_, ip, t, hrun hind, ?_⟩ (Or.inl hw)
    refine ht.allocates_mapped ho (fun l' => ?_) ?_ hw
    · rw [hfs, hmap]
    · rw [← hmap, hword]

/-- Logical block `l` is below an indirect block that is not there. -/
lemma Stage.large_missing (h : Stage im₀ d₀ L₀ s ip L) (hu : Placed L₀ L s ip)
    (ho : Others im₀ d₀ L₀ ip.inum) (h0 : 0 ∉ L₀) (hl : ip.ilarg = true)
    (hmap : ∀ l', mapOf (s.fs ip.fs).blk ip.ondisk l' = mapOf im₀.blk d₀ l') (h7 : l / 256 < 7)
    (ha : ip.addr (l / 256) = 0) :
    (∃ r ip' t, bmapLarge .cached ip l true s = .ok (r, ip') t ∧
      Allocates im₀ d₀ L₀ ip.inum l r (t.fs ip.fs) ip'.ondisk) ↔
      2 ≤ L.length ∧ Blank (s.fs ip.fs) := by
  have hk : l % 256 < 256 := Nat.mod_lt _ (by omega)
  have hz : mapOf im₀.blk d₀ l = 0 := by
    rw [← hmap, mapOf_large hl h7, show Dsknod.addr ip.ondisk (l / 256) = 0 from ha,
      Micronix.sub_zero]
  cases L with
  | nil =>
      obtain ⟨e, t, herr⟩ := h.newIndirect_full h7 ha
      refine iff_of_false ?_ (by simp)
      rintro ⟨r, ip', t', hr, -⟩
      rw [herr] at hr
      cases hr
  | cons b L =>
      obtain ⟨u, t, hballoc, hput, ht, haddr, hpop, hblk, hmeta, hmap'⟩ := h.newIndirect hl h7 ha
      obtain ⟨hb0, hl', -⟩ := hmeta b (Or.inl rfl)
      have ha' : (ip.setAddr (l / 256) b).addr (l / 256) ≠ 0 := haddr.trans_ne hb0
      have hword : (t.fs ip.fs).blk ((ip.setAddr (l / 256) b).addr (l / 256)) =
          (s.fs ip.fs).pop.2.blk b := by rw [haddr, hblk]
      have hrun : ∀ {r v}, indirect .cached ip.fs ((ip.setAddr (l / 256) b).addr (l / 256))
          (l % 256) true t = .ok r v →
          bmapLarge .cached ip l true s = .ok (r, ip.setAddr (l / 256) b) v := by
        intro r v hind
        rw [haddr] at hind
        rw [bmapLarge, if_neg (by omega), if_neg (by omega), if_pos ha, if_pos rfl, bind_ok hballoc]
        exact (bind_ok hput).trans (bind_ok hind)
      rw [Blank, hpop]
      by_cases hw : word ((s.fs ip.fs).pop.2.blk b) (l % 256) = 0
      · cases L with
        | nil =>
            obtain ⟨v, hind⟩ := ht.fill_full hl' h7 ha' (by rw [setAddr_fs, hword]; exact hw)
            refine iff_of_false ?_ (by simp)
            rintro ⟨r, ip', t', hr, hall⟩
            rw [hrun hind] at hr
            cases hr
            exact h0 (hall.taken hz).1
        | cons c L =>
            obtain ⟨v, hind, hv, hm, hmap''⟩ :=
              ht.fill_take hl' h7 ha' hk (by rw [setAddr_fs, hword]; exact hw)
            have hc := List.nodup_cons.mp ht.ready.free.kept.1
            have hafter : ∀ l', mapOf (v.fs ip.fs).blk (ip.setAddr (l / 256) b).ondisk l' =
                if l' = l then c else if l' / 256 = l / 256 then
                  word ((s.fs ip.fs).pop.2.blk b) (l' % 256) else mapOf im₀.blk d₀ l' := by
              intro l'
              rw [← setAddr_fs ip (l / 256) b, hmap'', setAddr_fs, hmap', hmap]
              exact if_congr (by omega) rfl rfl
            have hhole : ∀ l', l' / 256 = l / 256 → mapOf im₀.blk d₀ l' = 0 := by
              intro l' hl''
              rw [← hmap, mapOf_large hl (hl''.trans_lt h7), hl'',
                show Dsknod.addr ip.ondisk (l / 256) = 0 from ha, Micronix.sub_zero]
            constructor
            · rintro ⟨r, ip', t', hr, hall⟩
              rw [hrun hind] at hr
              cases hr
              refine ⟨by simp, fun n hn => ?_⟩
              rcases eq_or_ne n (l % 256) with rfl | hne
              · exact hw
              · have hl'' := hall.elsewhere (256 * (l / 256) + n) (by omega)
                rw [hafter, if_neg (by omega), if_pos (by omega), hhole _ (by omega)] at hl''
                rwa [show (256 * (l / 256) + n) % 256 = n by omega] at hl''
            · rintro ⟨-, hblank⟩
              refine ⟨c, _, v, hrun hind, hv.allocates ho (fun hne => absurd hz hne)
                (fun _ => ⟨ht.list c List.mem_cons_self, hm, hc.1⟩) fun l' => ?_⟩
              rw [setAddr_fs, hafter]
              split_ifs with hll hdiv
              · rfl
              · rw [hhole l' hdiv]
                exact hblank _ (Nat.mod_lt _ (by omega))
              · rfl
      · obtain ⟨v, hind, hv, hfs⟩ := ht.fill_hit hl' h7 ha' (by rw [setAddr_fs, hword]; exact hw)
        have hused : Placed L₀ L v (ip.setAddr (l / 256) b) := by
          intro c hc hL
          rw [hfs]
          refine hmeta c ?_
          rcases eq_or_ne c b with hcb | hcb
          · exact Or.inl hcb
          · exact Or.inr (hu c hc (List.not_mem_cons_of_ne_of_not_mem hcb hL))
        refine iff_of_false ?_ fun hc => hw (hc.2 _ hk)
        rintro ⟨r, ip', t', hr, hall⟩
        rw [hrun hind] at hr
        cases hr
        exact hv.not_stale hused hz hall

/-- A large file. -/
lemma Stage.large_iff (h : Stage im₀ d₀ L₀ s ip L) (hu : Placed L₀ L s ip)
    (ho : Others im₀ d₀ L₀ ip.inum) (h0 : 0 ∉ L₀) (hl : ip.ilarg = true)
    (hmap : ∀ l', mapOf (s.fs ip.fs).blk ip.ondisk l' = mapOf im₀.blk d₀ l') (l : ℕ) :
    (∃ r ip' t, bmapLarge .cached ip l true s = .ok (r, ip') t ∧
      Allocates im₀ d₀ L₀ ip.inum l r (t.fs ip.fs) ip'.ondisk) ↔
      FitsLarge (s.fs ip.fs) ip.ondisk L l := by
  rw [FitsLarge]
  rcases lt_or_ge l 1792 with hlt | hge
  · rw [and_iff_right hlt]
    have h7 : l / 256 < 7 := by omega
    rcases eq_or_ne (Dsknod.addr ip.ondisk (l / 256)) 0 with ha | ha
    · have hz : mapOf (s.fs ip.fs).blk ip.ondisk l = 0 := by
        rw [mapOf_large hl h7, ha, Micronix.sub_zero]
      rw [h.large_missing hu ho h0 hl hmap h7 ha, if_pos ha]
      exact (or_iff_right fun hne => hne hz).symm
    · rw [h.large_present ho h0 hl hmap h7 ha, if_neg ha]
  · obtain ⟨e, t, herr⟩ := bmapLarge_outside .cached ip (show 7 ≤ l / 256 by omega) s
    refine iff_of_false ?_ fun hc => absurd hc.1 (by omega)
    rintro ⟨r, ip', t', hr, -⟩
    rw [herr] at hr
    cases hr

/-! ## A small file -/

/-- What `balloc` leaves in the block that it returns. -/
lemma Image.Free.pop_blk {im : Image} (h : im.Free (b :: L)) :
    im.pop.2.blk b = if nfree im.sb = 1 then zero else im.blk b := by
  obtain ⟨hpos, hle, htop, hb0, -⟩ := h.list
  have hi : (nfree im.sb + 65535) % 65536 = nfree im.sb - 1 := by omega
  split_ifs with hn
  · rw [hn] at htop
    simp [Image.pop, hn, show free im.sb 0 = b from htop, hb0]
  · simp [Image.pop, hi, htop, hb0, show ¬nfree im.sb - 1 ≥ 100 by omega,
      show nfree im.sb - 1 ≠ 0 by omega]

lemma blank_congr {im im' : Image} (h : im.Free (b :: L)) (h' : im'.Free (b :: L))
    (hsb : im'.sb = im.sb) (hblk : im'.blk b = im.blk b) : Blank im' ↔ Blank im := by
  rw [Blank, Blank, h.pop_cons.1, h'.pop_cons.1, h.pop_blk, h'.pop_blk, hsb, hblk]

/-- One of the eight addresses of a small file. -/
lemma Stage.small_iff (h : Stage im₀ d₀ L₀ s ip L) (ho : Others im₀ d₀ L₀ ip.inum) (h0 : 0 ∉ L₀)
    (hs : ip.ilarg = false) (hmap : ∀ l', mapOf (s.fs ip.fs).blk ip.ondisk l' = mapOf im₀.blk d₀ l')
    {off : ℕ} (h8 : off / 512 < 8) :
    (∃ r ip' t, bmap .cached ip off true s = .ok (r, ip') t ∧
      Allocates im₀ d₀ L₀ ip.inum (off / 512) r (t.fs ip.fs) ip'.ondisk) ↔
      ip.addr (off / 512) ≠ 0 ∨ 1 ≤ L.length := by
  have hsmall : ∀ {blk d}, Dsknod.ilarg d = false → mapOf blk d = fun l =>
      if l < 8 then Dsknod.addr d l else 0 := by
    intro blk d hd
    funext l
    rw [mapOf, if_neg (by rw [hd]; exact Bool.false_ne_true)]
  have haddr : mapOf im₀.blk d₀ (off / 512) = ip.addr (off / 512) := by
    rw [← hmap, hsmall hs]
    exact if_pos h8
  rw [bmap, if_neg (by rw [hs]; exact Bool.false_ne_true), if_pos (by omega)]
  by_cases ha : ip.addr (off / 512) = 0
  · rw [if_pos ⟨ha, rfl⟩]
    cases L with
    | nil =>
        obtain ⟨u, hballoc, -⟩ := balloc_apply h.ready.writable
        rw [h.ready.free.pop_nil.1] at hballoc
        refine iff_of_false ?_ (by simp [ha])
        rintro ⟨r, ip', t', hr, hall⟩
        rw [bind_ok hballoc] at hr
        cases hr
        exact h0 (hall.taken (haddr.trans ha)).1
    | cons b L =>
        obtain ⟨u, hballoc, hu, hand, -, -, -, -, hmap'⟩ := h.balloc
        have hb16 : b < 65536 := hand.inRange.2.trans (Bytes.word_lt _ 1)
        have hs' : Dsknod.ilarg (ip.setAddr (off / 512) b).ondisk = false :=
          (ilarg_setAddr _ _).trans hs
        refine iff_of_true ⟨b, ip.setAddr (off / 512) b, u, bind_ok hballoc, ?_⟩ (Or.inr (by simp))
        refine hu.allocates ho (fun hne => absurd (haddr.trans ha) hne) (fun _ => ?_) fun l' => ?_
        · refine ⟨hand.taken, fun hm => ?_, hand.notMem⟩
          have hl := hm.2.1
          rw [hs'] at hl
          cases hl
        · rw [← hmap, hsmall hs', hsmall hs]
          dsimp only
          rw [show Dsknod.addr (ip.setAddr (off / 512) b).ondisk l' =
            if l' = off / 512 then b else ip.addr l' from addr_setAddr hb16]
          split_ifs with hl8 hl' hl'
          · rfl
          · rfl
          · omega
          · rfl
  · rw [if_neg fun hc => ha hc.1]
    exact iff_of_true ⟨_, ip, s, rfl, h.allocates_mapped ho hmap haddr ha⟩ (Or.inl ha)

/-- A small file that becomes a large one. -/
lemma Stage.convert_iff (h : Stage im₀ d₀ L₀ s ip L) (hu : Placed L₀ L s ip)
    (ho : Others im₀ d₀ L₀ ip.inum) (h0 : 0 ∉ L₀) (hs : ip.ilarg = false)
    (hmap : ∀ l', mapOf (s.fs ip.fs).blk ip.ondisk l' = mapOf im₀.blk d₀ l') {off : ℕ}
    (h8 : 8 ≤ off / 512) :
    (∃ r ip' t, bmap .cached ip off true s = .ok (r, ip') t ∧
      Allocates im₀ d₀ L₀ ip.inum (off / 512) r (t.fs ip.fs) ip'.ondisk) ↔
      off / 512 < 1792 ∧ if off / 512 < 256 then 2 ≤ L.length
        else 3 ≤ L.length ∧ Blank (s.fs ip.fs).pop.2 := by
  have hz : mapOf (s.fs ip.fs).blk ip.ondisk (off / 512) = 0 := by
    rw [mapOf, if_neg (by rw [show Dsknod.ilarg ip.ondisk = false from hs]; exact Bool.false_ne_true),
      if_neg (by omega)]
  rw [bmap, if_neg (by rw [hs]; exact Bool.false_ne_true), if_neg (by omega), if_pos rfl]
  cases L with
  | nil =>
      obtain ⟨u, hballoc, -⟩ := balloc_apply h.ready.writable
      rw [h.ready.free.pop_nil.1] at hballoc
      have hstop : Stops (do
          Host.install .iblk ip.fs 0 (convertBlock ip.ondisk)
          Host.iput .cached { ip with ondisk := convertInode ip.ondisk 0 }
          pure { ip with ondisk := convertInode ip.ondisk 0 } : M Inode) :=
        (install_zero _ _ _).bind _
      obtain ⟨e, t, ht⟩ := hstop u
      have hconv : Host.convert .cached ip s = .error e t := (bind_ok hballoc).trans ht
      refine iff_of_false ?_ (by split_ifs <;> simp)
      rintro ⟨r, ip', t', hr, -⟩
      rw [bind_error hconv] at hr
      cases hr
  | cons b L =>
      obtain ⟨d, t, hconv, ht, hl, haddr, hsb, hblk, hmap'⟩ := h.convert hs
      have hb0 := (h.inRange List.mem_cons_self).ne_zero
      have hused : Placed L₀ L t { ip with ondisk := d } := by
        intro c hc hL
        rcases eq_or_ne c b with rfl | hcb
        · exact ⟨hb0, hl, Or.inl ⟨0, by omega, (haddr 0 (by omega)).trans (if_pos rfl)⟩⟩
        · have hl' := (hu c hc (List.not_mem_cons_of_ne_of_not_mem hcb hL)).2.1
          rw [show Dsknod.ilarg ip.ondisk = false from hs] at hl'
          cases hl'
      have hz' : mapOf (t.fs ip.fs).blk d (off / 512) = 0 := (hmap' _).trans hz
      rw [bind_ok hconv]
      refine (ht.large_iff hused ho h0 hl (fun l' => (hmap' l').trans (hmap l')) _).trans ?_
      rw [FitsLarge, or_iff_right fun hne => hne hz']
      refine and_congr_right fun hlt => ?_
      rw [haddr _ (by omega)]
      rcases lt_or_ge (off / 512) 256 with h256 | h256
      · rw [if_pos (show off / 512 / 256 = 0 by omega), if_neg hb0, if_pos h256, List.length_cons]
        omega
      · have hcons : 3 ≤ L.length + 1 ↔ 2 ≤ L.length := by omega
        rw [if_neg (show off / 512 / 256 ≠ 0 by omega), if_pos rfl, if_neg (by omega),
          List.length_cons, hcons]
        refine and_congr_right fun hlen => ?_
        cases L with
        | nil => simp at hlen
        | cons c L =>
            exact blank_congr h.ready.free.pop_cons.2.1 ht.ready.free hsb
              (hblk c List.mem_cons_self)

/-- **Allocation in `bmap`**: it gives the mapped block or a block from the free list, and changes no
other part of any map, exactly if the block is below the double indirect one, the free list has as many
blocks as are missing, and the one that becomes a single indirect block holds zeros. -/
theorem bmap_allocates (h : Intact s ip L) (off : ℕ) :
    (∃ r ip' t, bmap .cached ip off true s = .ok (r, ip') t ∧
      Allocates (s.fs ip.fs) ip.ondisk L ip.inum (off / 512) r (t.fs ip.fs) ip'.ondisk) ↔
      Fits (s.fs ip.fs) ip.ondisk L (off / 512) := by
  have hstage : Stage (s.fs ip.fs) ip.ondisk L s ip L :=
    ⟨h.ready, h.inum, ⟨rfl, rfl⟩, h.apart, h.own, fun _ => Or.inr, fun _ => id, fun _ _ _ _ => rfl,
      fun _ _ _ _ => rfl⟩
  have hused : Placed L L s ip := fun c hc hL => absurd hc hL
  have h0 : 0 ∉ L := fun hmem => h.ready.free.ne_zero hmem rfl
  rw [Fits]
  cases hl : Dsknod.ilarg ip.ondisk with
  | true =>
      rw [if_pos rfl, ← hstage.large_iff hused h.others h0 hl (fun _ => rfl), bmap,
        if_pos (show ip.ilarg = true from hl)]
  | false =>
      rw [if_neg Bool.false_ne_true]
      rcases lt_or_ge (off / 512) 8 with h8 | h8
      · rw [if_pos h8]
        exact hstage.small_iff h.others h0 hl (fun _ => rfl) h8
      · rw [if_neg (by omega)]
        exact hstage.convert_iff hused h.others h0 hl (fun _ => rfl) h8

/-! ## A small image -/

/-- Blocks 3 to 6 are for files, 3 and 4 are free, and 3 has in it what it had in its last use. -/
def stale : Lib where
  fs _ :=
    { blk := fun b => if b = 3 then setWord zero 1 5 else zero
      writable := true
      sb := setFree (setFree (setNfree (setWord (setWord zero 0 1) 1 7) 3) 1 4) 2 3 }
  kept _ := ⟨none, zero, none⟩
  stack := zero
  foul := false

/-- Inode 1, without blocks. -/
def empty (mode : ℕ) : Inode := ⟨Dsknod.setMode zero mode, 0, 1⟩

lemma empty_addr (mode j : ℕ) : Dsknod.addr (empty mode).ondisk j = 0 := by
  rw [Dsknod.addr, empty, Dsknod.setMode, word_setWord_ne (by omega), word_zero]

lemma empty_meta (blk : ℕ → Bytes) (mode b : ℕ) : ¬Meta blk (empty mode).ondisk b := by
  rintro ⟨hb, -, ⟨i, -, rfl⟩ | ⟨k, -, rfl⟩⟩
  · exact hb (empty_addr mode i)
  · rw [empty_addr, Micronix.sub_zero] at hb
    exact hb rfl

lemma stale_free : (stale.fs 0).Free [3, 4] where
  list := by
    refine ⟨by decide, by decide, by decide, by decide, ?_⟩
    rw [if_neg (by decide)]
    refine ⟨by decide, by decide, by decide, by decide, ?_⟩
    rw [if_neg (by decide)]
    exact Or.inr ⟨by decide, by decide⟩
  kept := ⟨by decide, by decide⟩

lemma stale_isize : isize (stale.fs 0).sb = 1 := by decide

lemma stale_intact (mode : ℕ) : Intact stale (empty mode) [3, 4] where
  ready :=
    { writable := rfl
      free := stale_free
      inodeblk := fun _ hc => nomatch hc
      iblk := fun _ hc => nomatch hc }
  inum := ⟨Nat.le_refl 1, by
    rw [show (empty mode).fs = 0 from rfl, stale_isize]
    exact Nat.le_add_left 1 15⟩
  apart _ i _ h0 := absurd (empty_addr mode i) h0
  own b hb := absurd hb (empty_meta _ mode b)
  others j _ hj := by
    obtain ⟨h1, hle, halloc, -⟩ := hj
    have hlt := inodeBlock_lt h1 hle
    rw [show (empty mode).fs = 0 from rfl, stale_isize] at hlt
    have hblock : (stale.fs 0).blk (inodeBlock j) = zero := if_neg (by omega)
    have hzero : dsknod (stale.fs 0).blk j = zero := by
      funext k
      rw [dsknod, hblock, copyBytes]
      exact ite_self _
    rw [show (empty mode).fs = 0 from rfl, hzero] at halloc
    exact absurd halloc (by decide)

/-- The first block of a small file. -/
theorem bmap_allocates_first :
    ∃ r ip' t, bmap .cached (empty 0x8000) 0 true stale = .ok (r, ip') t ∧
      Allocates (stale.fs 0) (empty 0x8000).ondisk [3, 4] 1 0 r (t.fs 0) ip'.ondisk := by
  refine (bmap_allocates (stale_intact 0x8000) 0).mpr ?_
  rw [Fits, if_neg (by decide), if_pos (by decide)]
  exact Or.inr (by decide)

/-- **A stale indirect block.**  Block 3 becomes an indirect block as it is, and logical block 1, of
which nothing was asked, is block 5 now. -/
theorem bmap_maps_stale :
    Intact stale (empty 0x9000) [3, 4] ∧
    ¬∃ r ip' t, bmap .cached (empty 0x9000) 0 true stale = .ok (r, ip') t ∧
      Allocates (stale.fs 0) (empty 0x9000).ondisk [3, 4] 1 0 r (t.fs 0) ip'.ondisk := by
  refine ⟨stale_intact 0x9000, ?_⟩
  rintro ⟨r, ip', t, hrun, hall⟩
  have hone : (match bmap .cached (empty 0x9000) 0 true stale with
      | .ok (_, ip') t => mapOf (t.fs 0).blk ip'.ondisk 1
      | .error _ _ => 0) = 5 := by
    decide
  rw [hrun] at hone
  have hbefore : mapOf (stale.fs 0).blk (empty 0x9000).ondisk 1 = 0 := by decide
  exact absurd ((hall.elsewhere 1 (by decide)).symm.trans hone) (by rw [hbefore]; decide)

end Host

end Micronix
