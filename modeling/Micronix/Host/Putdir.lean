import Micronix.Host.Bmap
import Micronix.Host.Reading
import Mathlib.Data.Nat.Count

/-!
# Writing a directory back

`putdir` writes a whole directory block by block, through `bmap` with allocation.  Where the directory
has a hole a block is taken from the free list, so that it comes to its end exactly if there is a block
for each hole; then every block of the directory is there and holds its part of the memory.
-/

namespace Micronix

namespace Host

open Bytes Super Program
open Fslib (setFmod)

variable {s t : Lib} {ip : Inode} {L : List ℕ} {m l b : ℕ}

/-- The first `m` blocks of `ip` have places in the inode and its indirect blocks; those that are
mapped are blocks for files, not free, each in one place, and none is in the static for indirect
blocks. -/
structure Laid (s : Lib) (ip : Inode) (L : List ℕ) (m : ℕ) : Prop where
  ready : Ready s ip.fs L
  inum : 1 ≤ ip.inum ∧ ip.inum ≤ I_PER_BLK * isize (s.fs ip.fs).sb
  apart : Apart (s.fs ip.fs).blk ip.ondisk
  own : ∀ b, Meta (s.fs ip.fs).blk ip.ondisk b → InRange (s.fs ip.fs).sb b ∧ b ∉ L
  place : ∀ l < m,
    if Dsknod.ilarg ip.ondisk = true then l < 1792 ∧ Dsknod.addr ip.ondisk (l / 256) ≠ 0 else l < 8
  data : ∀ l < m, mapOf (s.fs ip.fs).blk ip.ondisk l ≠ 0 →
    InRange (s.fs ip.fs).sb (mapOf (s.fs ip.fs).blk ip.ondisk l) ∧
      mapOf (s.fs ip.fs).blk ip.ondisk l ∉ L ∧
      ¬Meta (s.fs ip.fs).blk ip.ondisk (mapOf (s.fs ip.fs).blk ip.ondisk l)
  once : ∀ l < m, ∀ l' < m, mapOf (s.fs ip.fs).blk ip.ondisk l ≠ 0 →
    mapOf (s.fs ip.fs).blk ip.ondisk l = mapOf (s.fs ip.fs).blk ip.ondisk l' → l = l'
  kept : ∀ b, (s.kept .iblk).no = some b → ∀ l < m, mapOf (s.fs ip.fs).blk ip.ondisk l ≠ b

/-! ## The static for indirect blocks -/

lemma look_no {how : How} {c : Static} {f b : ℕ} {buf : Bytes}
    (h : look how c f b s = .ok buf t) : (t.kept c).no = some b := by
  rw [look] at h
  split_ifs at h with hhit
  · cases h
    exact hhit.2
  · cases h
    rw [Lib.setKept]
    dsimp only
    rw [Function.update_self]

lemma install_no {c : Static} {f b : ℕ} {buf : Bytes} (h : install c f b buf s = .ok () t) :
    (t.kept c).no = some b := by
  rw [install_apply] at h
  split_ifs at h
  cases h
  rw [Lib.setKept]
  dsimp only
  rw [Function.update_self]

/-- It holds the indirect block through which `bmap` has gone. -/
lemma indirect_no {how : How} {f b k r : ℕ} {alloc : Bool}
    (h : indirect how f b k alloc s = .ok r t) : (t.kept .iblk).no = some b := by
  obtain ⟨buf, u, hlook, h⟩ := of_bind_ok h
  split_ifs at h
  · obtain ⟨new, v, -, h⟩ := of_bind_ok h
    obtain ⟨_, w, hinst, h⟩ := of_bind_ok h
    cases h
    exact install_no hinst
  · cases h
    exact look_no hlook

/-! ## One block -/

namespace Laid

/-- The image stays. -/
lemma congr (h : Laid s ip L m) (hr : Ready t ip.fs L) (hfs : t.fs ip.fs = s.fs ip.fs)
    (hk : ∀ b, (t.kept .iblk).no = some b →
      ∀ l < m, mapOf (s.fs ip.fs).blk ip.ondisk l ≠ b) : Laid t ip L m := by
  refine ⟨hr, ?_, ?_, ?_, h.place, ?_, ?_, ?_⟩ <;> rw [hfs]
  · exact h.inum
  · exact h.apart
  · exact h.own
  · exact h.data
  · exact h.once
  · exact hk

/-- No block of the directory is one of its indirect blocks. -/
lemma ne_meta (h : Laid s ip L m) (hb : Meta (s.fs ip.fs).blk ip.ondisk b) (hl : l < m) :
    mapOf (s.fs ip.fs).blk ip.ondisk l ≠ b := by
  rintro rfl
  exact (h.data l hl hb.1).2.2 hb

/-- Nothing has been done yet. -/
lemma stage (h : Laid s ip L m) : Stage (s.fs ip.fs) ip.ondisk L s ip L where
  ready := h.ready
  inum := h.inum
  range := ⟨rfl, rfl⟩
  apart := h.apart
  own := h.own
  origin _ hb := Or.inr hb
  list _ := id
  blk _ _ _ _ := rfl
  inode _ _ _ _ := rfl

/-- A block has been taken for logical block `l`. -/
lemma taken (h : Laid s ip (b :: L) m) {d : Bytes}
    (ht : Stage (s.fs ip.fs) ip.ondisk (b :: L) t { ip with ondisk := d } L)
    (hplace : ∀ l < m,
      if Dsknod.ilarg d = true then l < 1792 ∧ Dsknod.addr d (l / 256) ≠ 0 else l < 8)
    (hmap : ∀ l', mapOf (t.fs ip.fs).blk d l' =
      if l' = l then b else mapOf (s.fs ip.fs).blk ip.ondisk l')
    (hb : ¬Meta (t.fs ip.fs).blk d b)
    (hk : ∀ c, (t.kept .iblk).no = some c →
      (s.kept .iblk).no = some c ∨ Meta (t.fs ip.fs).blk d c) :
    Laid t { ip with ondisk := d } L m := by
  have hfree := h.ready.free.kept
  have hbL := (List.nodup_cons.mp hfree.1).1
  have hbin : InRange (s.fs ip.fs).sb b := hfree.2 b List.mem_cons_self
  have hrange := ht.range
  have hold : ∀ l' < m, mapOf (s.fs ip.fs).blk ip.ondisk l' ≠ 0 →
      mapOf (s.fs ip.fs).blk ip.ondisk l' ≠ b := fun l' hl' h0 e =>
    (h.data l' hl' h0).2.1 (e ▸ List.mem_cons_self)
  have hdata : ∀ l' < m, mapOf (t.fs ip.fs).blk d l' ≠ 0 →
      InRange (s.fs ip.fs).sb (mapOf (t.fs ip.fs).blk d l') ∧ mapOf (t.fs ip.fs).blk d l' ∉ L ∧
        ¬Meta (t.fs ip.fs).blk d (mapOf (t.fs ip.fs).blk d l') := by
    intro l' hl' h0
    rw [hmap] at h0 ⊢
    split_ifs at h0 ⊢ with hll
    · exact ⟨hbin, hbL, hb⟩
    · obtain ⟨hin, hL, hm⟩ := h.data l' hl' h0
      refine ⟨hin, fun hc => hL (List.mem_cons_of_mem b hc), fun hc => ?_⟩
      exact (ht.origin _ hc).elim hL hm
  refine ⟨ht.ready, ?_, ht.apart, ?_, hplace, ?_, ?_, ?_⟩
  · exact ⟨h.inum.1, h.inum.2.trans_eq (by rw [hrange.1])⟩
  · intro c hc
    obtain ⟨hin, hL⟩ := ht.own c hc
    exact ⟨hrange.inRange.mpr hin, hL⟩
  · intro l' hl' h0
    obtain ⟨hin, hL, hm⟩ := hdata l' hl' h0
    exact ⟨hrange.inRange.mpr hin, hL, hm⟩
  · intro l₁ h₁ l₂ h₂ h0 heq
    dsimp only at h0 heq
    rw [hmap, hmap] at heq
    rw [hmap] at h0
    split_ifs at h0 heq with hl₁ hl₂ hl₂
    · exact hl₁.trans hl₂.symm
    · exact absurd heq.symm (hold l₂ h₂ (heq ▸ h0))
    · exact absurd heq (hold l₁ h₁ h0)
    · exact h.once l₁ h₁ l₂ h₂ h0 heq
  · intro c hc l' hl' heq
    dsimp only at heq
    rcases hk c hc with hkept | hmeta
    · rw [hmap] at heq
      split_ifs at heq
      · exact (h.ready.iblk c hkept).2.1 (heq ▸ List.mem_cons_self)
      · exact h.kept c hkept l' hl' heq
    · have h0 : mapOf (t.fs ip.fs).blk d l' ≠ 0 := by
        rw [heq]
        exact hmeta.1
      exact (hdata l' hl' h0).2.2 (heq ▸ hmeta)

/-- The block is mapped. -/
lemma bmap_hit (h : Laid s ip L m) (hl : l < m)
    (h0 : mapOf (s.fs ip.fs).blk ip.ondisk l ≠ 0) :
    ∃ t, bmap .cached ip (512 * l) true s = .ok (mapOf (s.fs ip.fs).blk ip.ondisk l, ip) t ∧
      Laid t ip L m ∧ t.fs ip.fs = s.fs ip.fs := by
  have hplace := h.place l hl
  rw [bmap, show 512 * l / 512 = l by omega]
  by_cases hlarg : Dsknod.ilarg ip.ondisk = true
  · rw [if_pos hlarg] at hplace
    have h7 : l / 256 < 7 := by omega
    have hword : mapOf (s.fs ip.fs).blk ip.ondisk l = _ := mapOf_large hlarg h7
    rw [sub_of_lt hplace.2 (Nat.mod_lt _ (by omega))] at hword
    obtain ⟨t, hind, ht, hfs⟩ := h.stage.fill_hit hlarg h7 hplace.2 (hword ▸ h0)
    refine ⟨t, ?_, h.congr ht.ready hfs fun b hb l' hl' => h.ne_meta ?_ hl', hfs⟩
    · rw [if_pos (show ip.ilarg = true from hlarg), bmapLarge, if_neg (by omega),
        if_neg (by omega), if_neg (show ip.addr (l / 256) ≠ 0 from hplace.2), hword]
      exact bind_ok hind
    · rw [indirect_no hind] at hb
      obtain rfl := Option.some.inj hb
      exact ⟨hplace.2, hlarg, Or.inl ⟨_, by omega, rfl⟩⟩
  · rw [if_neg hlarg] at hplace
    have haddr : mapOf (s.fs ip.fs).blk ip.ondisk l = Dsknod.addr ip.ondisk l := by
      rw [mapOf, if_neg hlarg, if_pos hplace]
    refine ⟨s, ?_, h, rfl⟩
    rw [if_neg (show ¬ip.ilarg = true from hlarg), if_pos (by omega),
      if_neg fun hc => h0 (haddr.trans hc.1), haddr]
    rfl

/-- It is a hole, and a block is taken for it. -/
lemma bmap_take (h : Laid s ip (b :: L) m) (hl : l < m)
    (h0 : mapOf (s.fs ip.fs).blk ip.ondisk l = 0) :
    ∃ d t, bmap .cached ip (512 * l) true s = .ok (b, { ip with ondisk := d }) t ∧
      Laid t { ip with ondisk := d } L m ∧ (∀ k, k < 8 ∨ 24 ≤ k → d k = ip.ondisk k) ∧
      (∀ l', mapOf (t.fs ip.fs).blk d l' =
        if l' = l then b else mapOf (s.fs ip.fs).blk ip.ondisk l') ∧
      ∀ c, InRange (s.fs ip.fs).sb c → c ∉ b :: L → ¬Meta (s.fs ip.fs).blk ip.ondisk c →
        (t.fs ip.fs).blk c = (s.fs ip.fs).blk c := by
  have hplace := h.place l hl
  rw [bmap, show 512 * l / 512 = l by omega]
  by_cases hlarg : Dsknod.ilarg ip.ondisk = true
  · rw [if_pos hlarg] at hplace
    have h7 : l / 256 < 7 := by omega
    have hword : mapOf (s.fs ip.fs).blk ip.ondisk l = _ := mapOf_large hlarg h7
    rw [sub_of_lt hplace.2 (Nat.mod_lt _ (by omega)), h0] at hword
    obtain ⟨t, hind, ht, hb, hmap⟩ := h.stage.fill_take hlarg h7 hplace.2
      (Nat.mod_lt l (by omega)) hword.symm
    have hmap' : ∀ l', mapOf (t.fs ip.fs).blk ip.ondisk l' =
        if l' = l then b else mapOf (s.fs ip.fs).blk ip.ondisk l' := fun l' => by
      rw [hmap, show 256 * (l / 256) + l % 256 = l by omega]
    refine ⟨ip.ondisk, t, ?_, h.taken ht h.place hmap' hb fun c hc => Or.inr ?_, fun _ _ => rfl,
      hmap', ht.blk⟩
    · rw [if_pos (show ip.ilarg = true from hlarg), bmapLarge, if_neg (by omega),
        if_neg (by omega), if_neg (show ip.addr (l / 256) ≠ 0 from hplace.2)]
      exact bind_ok hind
    · rw [indirect_no hind] at hc
      obtain rfl := Option.some.inj hc
      exact ⟨hplace.2, hlarg, Or.inl ⟨_, by omega, rfl⟩⟩
  · rw [if_neg hlarg] at hplace
    have hsmall : ∀ {blk d}, ¬Dsknod.ilarg d = true → ∀ l', mapOf blk d l' =
        if l' < 8 then Dsknod.addr d l' else 0 := fun hd l' => by rw [mapOf, if_neg hd]
    have haddr : ip.addr l = 0 := by
      rw [hsmall hlarg, if_pos hplace] at h0
      exact h0
    obtain ⟨t, hrun, ht, hand, -, -, hother, -, -⟩ := h.stage.balloc
    obtain ⟨t', hrun', -, hsame⟩ := balloc_apply h.ready.writable
    obtain rfl : t' = t := (EStateM.Result.ok.inj (hrun'.symm.trans hrun)).2
    have hb16 := hand.inRange.lt
    have hlarg' : ¬Dsknod.ilarg (Dsknod.setAddr ip.ondisk l b) = true := by
      rwa [ilarg_setAddr]
    have hnone : ∀ {blk d c}, ¬Dsknod.ilarg d = true → ¬Meta blk d c := fun hd hc => hd hc.2.1
    have hmap : ∀ l', mapOf (t'.fs ip.fs).blk (Dsknod.setAddr ip.ondisk l b) l' =
        if l' = l then b else mapOf (s.fs ip.fs).blk ip.ondisk l' := fun l' => by
      rw [hsmall hlarg', hsmall hlarg, addr_setAddr hb16]
      by_cases hll : l' = l
      · rw [if_pos hll, if_pos hll, if_pos (by omega)]
      · rw [if_neg hll, if_neg hll]
    have hstage : Stage (s.fs ip.fs) ip.ondisk (b :: L) t'
        { ip with ondisk := Dsknod.setAddr ip.ondisk l b } L := by
      refine ht.next ht.ready ⟨rfl, rfl⟩ (fun _ => id) (fun hc => absurd hc hlarg')
        (fun c hc => absurd hc (hnone hlarg')) (fun _ _ _ _ => rfl) fun _ _ _ _ => rfl
    refine ⟨Dsknod.setAddr ip.ondisk l b, t', ?_, ?_, ?_, hmap, ?_⟩
    · rw [if_neg (show ¬ip.ilarg = true from hlarg), if_pos (by omega), if_pos ⟨haddr, rfl⟩]
      exact bind_ok hrun
    · refine h.taken hstage (fun l' hl' => ?_) hmap (hnone hlarg') fun c hc => Or.inl ?_
      · rw [if_neg hlarg']
        have hold := h.place l' hl'
        rwa [if_neg hlarg] at hold
      · rwa [(hsame .iblk).1] at hc
    · intro k hk
      rw [Dsknod.setAddr, setWord, if_neg (by omega), if_neg (by omega)]
    · intro c _ hc _
      exact hother c fun e => hc (e ▸ List.mem_cons_self)

/-- It is a hole, and no block is free. -/
lemma bmap_full (h : Laid s ip [] m) (hl : l < m)
    (h0 : mapOf (s.fs ip.fs).blk ip.ondisk l = 0) :
    ∃ ip' t, bmap .cached ip (512 * l) true s = .ok (0, ip') t := by
  have hplace := h.place l hl
  rw [bmap, show 512 * l / 512 = l by omega]
  by_cases hlarg : Dsknod.ilarg ip.ondisk = true
  · rw [if_pos hlarg] at hplace
    have h7 : l / 256 < 7 := by omega
    have hword : mapOf (s.fs ip.fs).blk ip.ondisk l = _ := mapOf_large hlarg h7
    rw [sub_of_lt hplace.2 (Nat.mod_lt _ (by omega)), h0] at hword
    obtain ⟨t, hind⟩ := h.stage.fill_full hlarg h7 hplace.2 hword.symm
    refine ⟨ip, t, ?_⟩
    rw [if_pos (show ip.ilarg = true from hlarg), bmapLarge, if_neg (by omega),
      if_neg (by omega), if_neg (show ip.addr (l / 256) ≠ 0 from hplace.2)]
    exact bind_ok hind
  · rw [if_neg hlarg] at hplace
    rw [mapOf, if_neg hlarg, if_pos hplace] at h0
    obtain ⟨t, hrun, -⟩ := balloc_apply h.ready.writable
    rw [h.ready.free.pop_nil.1] at hrun
    refine ⟨ip.setAddr l 0, t, ?_⟩
    rw [if_neg (show ¬ip.ilarg = true from hlarg), if_pos (by omega),
      if_pos ⟨show ip.addr l = 0 from h0, rfl⟩]
    exact bind_ok hrun

/-- A block of the directory is written. -/
lemma write (h : Laid s ip L m) (hl : l < m) (h0 : mapOf (s.fs ip.fs).blk ip.ondisk l ≠ 0)
    (buf : Bytes) :
    ∃ t, writeblk ip.fs (mapOf (s.fs ip.fs).blk ip.ondisk l) buf s = .ok () t ∧ Laid t ip L m ∧
      (t.fs ip.fs).blk =
        Function.update (s.fs ip.fs).blk (mapOf (s.fs ip.fs).blk ip.ondisk l) buf ∧
      ∀ l', mapOf (t.fs ip.fs).blk ip.ondisk l' = mapOf (s.fs ip.fs).blk ip.ondisk l' := by
  set r := mapOf (s.fs ip.fs).blk ip.ondisk l with hr
  obtain ⟨hin, hL, hm⟩ : InRange (s.fs ip.fs).sb r ∧ r ∉ L ∧ ¬Meta (s.fs ip.fs).blk ip.ondisk r :=
    h.data l hl h0
  have hfs := put_fs s ip.fs r buf
  have hblk : ∀ c, Meta (s.fs ip.fs).blk ip.ondisk c →
      ((s.put ip.fs r buf).fs ip.fs).blk c = (s.fs ip.fs).blk c := by
    intro c hc
    rw [hfs]
    exact Function.update_of_ne (fun e : c = r => hm (e ▸ hc)) _ _
  have hseven : Dsknod.ilarg ip.ondisk = true → Dsknod.addr ip.ondisk 7 ≠ 0 →
      ((s.put ip.fs r buf).fs ip.fs).blk (Dsknod.addr ip.ondisk 7) =
        (s.fs ip.fs).blk (Dsknod.addr ip.ondisk 7) :=
    fun hlarg h7 => hblk _ (Stage.meta_seven hlarg h7)
  have hmeta := meta_congr hseven
  have hmap := mapOf_congr hblk
  have hsb : ((s.put ip.fs r buf).fs ip.fs).sb = (s.fs ip.fs).sb := by rw [hfs]
  have hsame := sameStatics_put s ip.fs r buf
  refine ⟨s.put ip.fs r buf, ?_, ⟨⟨?_, ?_, ?_, ?_⟩, ?_, apart_congr hseven h.apart, ?_, h.place, ?_,
    ?_, ?_⟩, by rw [hfs], hmap⟩
  · exact if_neg (by simp [h0, h.ready.writable])
  · rw [hfs]
    exact h.ready.writable
  · rw [hfs]
    exact h.ready.free.put hL buf
  · intro c hc
    obtain ⟨hlt, hbuf⟩ := h.ready.inodeblk c ((hsame .inodeblk).1 ▸ hc)
    have hge := hin.1
    rw [hsb]
    exact ⟨hlt, ((hsame .inodeblk).2.trans hbuf).trans (Lib.put_block s buf (by omega)).symm⟩
  · intro c hc
    have hold := (hsame .iblk).1 ▸ hc
    obtain ⟨hge, hout, hbuf⟩ := h.ready.iblk c hold
    rw [hsb]
    refine ⟨hge, hout, ((hsame .iblk).2.trans hbuf).trans (Lib.put_block s buf fun e => ?_).symm⟩
    exact h.kept c hold l hl e.2.symm
  · rw [hsb]
    exact h.inum
  · intro c hc
    rw [hsb]
    exact h.own c ((hmeta c).mp hc)
  · intro l' hl' hne
    rw [hmap] at hne ⊢
    rw [hsb, hmeta]
    exact h.data l' hl' hne
  · intro l₁ h₁ l₂ h₂
    rw [hmap, hmap]
    exact h.once l₁ h₁ l₂ h₂
  · intro c hc l' hl'
    rw [hmap]
    exact h.kept c ((hsame .iblk).1 ▸ hc) l' hl'

end Laid

/-! ## All blocks -/

/-- The holes among the first `i` blocks. -/
def holes (blk : ℕ → Bytes) (d : Bytes) (i : ℕ) : ℕ := Nat.count (fun l => mapOf blk d l = 0) i

/-- After `i` turns: the blocks of these turns are there and hold what was in memory. -/
structure Turn (s₀ : Lib) (ip₀ : Inode) (L₀ : List ℕ) (dirp : Buffer) (m i : ℕ) (s : Lib) (d : Bytes)
    (L : List ℕ) : Prop where
  laid : Laid s { ip₀ with ondisk := d } L m
  head : ∀ k, k < 8 ∨ 24 ≤ k → d k = ip₀.ondisk k
  count : L.length + holes (s₀.fs ip₀.fs).blk ip₀.ondisk i = L₀.length
  filled : ∀ l < i, mapOf (s.fs ip₀.fs).blk d l ≠ 0
  rest : ∀ l, i ≤ l → mapOf (s.fs ip₀.fs).blk d l = mapOf (s₀.fs ip₀.fs).blk ip₀.ondisk l
  bytes : ∀ l < i, (s.fs ip₀.fs).blk (mapOf (s.fs ip₀.fs).blk d l) =
    fun k => dirp.bytes (512 * l + k)

variable {s₀ : Lib} {ip₀ : Inode} {L₀ : List ℕ} {dirp : Buffer} {d : Bytes} {i : ℕ}

/-- The block of this turn is mapped by now, and is written. -/
lemma Turn.next (s₀ : Lib) (ip₀ : Inode) (L₀ : List ℕ) (dirp : Buffer)
    (h : Laid t { ip₀ with ondisk := d } L m) (hi : i < m)
    (hhead : ∀ k, k < 8 ∨ 24 ≤ k → d k = ip₀.ondisk k)
    (hcount : L.length + holes (s₀.fs ip₀.fs).blk ip₀.ondisk (i + 1) = L₀.length)
    (hfilled : ∀ l < i + 1, mapOf (t.fs ip₀.fs).blk d l ≠ 0)
    (hrest : ∀ l, i + 1 ≤ l →
      mapOf (t.fs ip₀.fs).blk d l = mapOf (s₀.fs ip₀.fs).blk ip₀.ondisk l)
    (hbytes : ∀ l < i, (t.fs ip₀.fs).blk (mapOf (t.fs ip₀.fs).blk d l) =
      fun k => dirp.bytes (512 * l + k)) :
    ∃ u, writeblk ip₀.fs (mapOf (t.fs ip₀.fs).blk d i) (fun k => dirp.bytes (512 * i + k)) t =
        .ok () u ∧ Turn s₀ ip₀ L₀ dirp m (i + 1) u d L := by
  have h0 := hfilled i (Nat.lt_succ_self i)
  obtain ⟨u, hrun, hu, hblk, hmap⟩ := h.write hi h0 fun k => dirp.bytes (512 * i + k)
  refine ⟨u, hrun, hu, hhead, hcount, fun l hl => ?_, fun l hl => ?_, fun l hl => ?_⟩
  · rw [hmap]
    exact hfilled l hl
  · rw [hmap]
    exact hrest l hl
  · rw [hmap, hblk]
    dsimp only
    rcases Nat.lt_succ_iff_lt_or_eq.mp hl with hlt | rfl
    · have hne : mapOf (t.fs ip₀.fs).blk d l ≠ mapOf (t.fs ip₀.fs).blk d i := fun e =>
        absurd (h.once l (by omega) i hi (hfilled l hl) e) (by omega)
      rw [Function.update_of_ne hne]
      exact hbytes l hlt
    · rw [Function.update_self]

/-- The turn for a block that is mapped. -/
lemma Turn.hit (h : Turn s₀ ip₀ L₀ dirp m i s d L) (hi : i < m) (hsize : 512 * m ≤ dirp.size)
    (h0 : mapOf (s₀.fs ip₀.fs).blk ip₀.ondisk i ≠ 0) :
    ∃ u, dirp.putblk .cached { ip₀ with ondisk := d } i s = .ok { ip₀ with ondisk := d } u ∧
      Turn s₀ ip₀ L₀ dirp m (i + 1) u d L := by
  have hmapped : mapOf (s.fs ip₀.fs).blk d i ≠ 0 := (h.rest i le_rfl).trans_ne h0
  obtain ⟨t, hbmap, ht, hfs⟩ := h.laid.bmap_hit hi hmapped
  have hcount : holes (s₀.fs ip₀.fs).blk ip₀.ondisk (i + 1) =
      holes (s₀.fs ip₀.fs).blk ip₀.ondisk i := by
    rw [holes, Nat.count_succ, if_neg h0]
    rfl
  dsimp only at hfs hbmap
  obtain ⟨u, hrun, hu⟩ := Turn.next s₀ ip₀ L₀ dirp ht hi h.head (hcount ▸ h.count)
    (fun l hl => by
      rw [hfs]
      rcases Nat.lt_succ_iff_lt_or_eq.mp hl with hlt | rfl
      · exact h.filled l hlt
      · exact hmapped)
    (fun l hl => by rw [hfs, h.rest l (by omega)]) (fun l hl => by rw [hfs, h.bytes l hl])
  rw [hfs] at hrun
  refine ⟨u, (bind_ok hbmap).trans ?_, hu⟩
  dsimp only
  rw [if_neg (by omega)]
  exact bind_ok hrun

/-- The turn for a hole. -/
lemma Turn.fill (h : Turn s₀ ip₀ L₀ dirp m i s d (b :: L)) (hi : i < m)
    (hsize : 512 * m ≤ dirp.size) (h0 : mapOf (s₀.fs ip₀.fs).blk ip₀.ondisk i = 0) :
    ∃ d' u, dirp.putblk .cached { ip₀ with ondisk := d } i s = .ok { ip₀ with ondisk := d' } u ∧
      Turn s₀ ip₀ L₀ dirp m (i + 1) u d' L := by
  have hhole : mapOf (s.fs ip₀.fs).blk d i = 0 := (h.rest i le_rfl).trans h0
  obtain ⟨d', t, hbmap, ht, hsame, hmap, hother⟩ := h.laid.bmap_take hi hhole
  have hb0 := h.laid.ready.free.ne_zero List.mem_cons_self
  have hcount : holes (s₀.fs ip₀.fs).blk ip₀.ondisk (i + 1) =
      holes (s₀.fs ip₀.fs).blk ip₀.ondisk i + 1 := by
    rw [holes, Nat.count_succ, if_pos h0]
    rfl
  have hlen := h.count
  rw [List.length_cons] at hlen
  dsimp only at hmap hsame hother
  obtain ⟨u, hrun, hu⟩ := Turn.next s₀ ip₀ L₀ dirp (i := i) ht hi
    (fun k hk => (hsame k hk).trans (h.head k hk)) (by omega)
    (fun l hl => by
      rw [hmap]
      split_ifs with hli
      · exact hb0
      · exact h.filled l (by omega))
    (fun l hl => by rw [hmap, if_neg (by omega), h.rest l (by omega)])
    (fun l hl => by
      rw [hmap, if_neg (by omega)]
      obtain ⟨hin, hL, hm⟩ := h.laid.data l (by omega) (h.filled l hl)
      rw [hother _ hin hL hm, h.bytes l hl])
  rw [hmap, if_pos rfl] at hrun
  refine ⟨d', u, (bind_ok hbmap).trans ?_, hu⟩
  dsimp only
  rw [if_neg (by omega)]
  exact bind_ok hrun

/-- **The loop of `putdir`**, by induction on its turns: it goes on as long as there are blocks for
the holes. -/
lemma Laid.putblks (h : Laid s ip L m) (hsize : 512 * m ≤ dirp.size) (hi : i ≤ m) :
    if holes (s.fs ip.fs).blk ip.ondisk i ≤ L.length then
      ∃ d t L', (List.range i).foldlM (dirp.putblk .cached) ip s = .ok { ip with ondisk := d } t ∧
        Turn s ip L dirp m i t d L'
    else ∃ e t, (List.range i).foldlM (dirp.putblk .cached) ip s = .error e t := by
  induction i with
  | zero =>
      rw [if_pos (by simp [holes])]
      exact ⟨ip.ondisk, s, L, rfl, h, fun _ _ => rfl, by simp [holes], fun l hl => by omega,
        fun _ _ => rfl, fun l hl => by omega⟩
  | succ i ih =>
      have ih := ih (by omega)
      have hone : ∀ ip', [i].foldlM (dirp.putblk .cached) ip' = dirp.putblk .cached ip' i :=
        fun ip' => bind_pure _
      have hle : holes (s.fs ip.fs).blk ip.ondisk i ≤ holes (s.fs ip.fs).blk ip.ondisk (i + 1) :=
        Nat.count_monotone _ (Nat.le_succ i)
      rw [List.range_succ, List.foldlM_append]
      by_cases hfirst : holes (s.fs ip.fs).blk ip.ondisk i ≤ L.length
      · rw [if_pos hfirst] at ih
        obtain ⟨d, t, L', hrun, ht⟩ := ih
        rw [bind_ok hrun, hone]
        have hlen := ht.count
        by_cases h0 : mapOf (s.fs ip.fs).blk ip.ondisk i = 0
        · have hcount : holes (s.fs ip.fs).blk ip.ondisk (i + 1) =
              holes (s.fs ip.fs).blk ip.ondisk i + 1 := by
            rw [holes, Nat.count_succ, if_pos h0]
            rfl
          cases L' with
          | nil =>
              rw [List.length_nil] at hlen
              obtain ⟨ip', u, hfull⟩ := ht.laid.bmap_full (by omega)
                ((ht.rest i le_rfl).trans h0)
              rw [if_neg (by omega)]
              refine ⟨.lose, u, (bind_ok hfull).trans ?_⟩
              dsimp only
              rw [if_neg (by omega)]
              exact bind_error (if_pos (Or.inl rfl))
          | cons b L' =>
              rw [List.length_cons] at hlen
              obtain ⟨d', u, hput, hu⟩ := ht.fill (by omega) hsize h0
              rw [if_pos (by omega)]
              exact ⟨d', u, L', hput, hu⟩
        · have hcount : holes (s.fs ip.fs).blk ip.ondisk (i + 1) =
              holes (s.fs ip.fs).blk ip.ondisk i := by
            rw [holes, Nat.count_succ, if_neg h0]
            rfl
          obtain ⟨u, hput, hu⟩ := ht.hit (by omega) hsize h0
          rw [if_pos (by omega)]
          exact ⟨d, u, L', hput, hu⟩
      · rw [if_neg hfirst] at ih
        obtain ⟨e, t, hrun⟩ := ih
        rw [if_neg (by omega)]
        exact ⟨e, t, bind_error hrun⟩

/-- **`putdir`** comes to its end exactly if there is a free block for each hole. -/
lemma Laid.putdir (h : Laid s ip L m) (hm : blocks (Dsknod.filesize ip.ondisk) = m)
    (hsize : 512 * m ≤ dirp.size) :
    if holes (s.fs ip.fs).blk ip.ondisk m ≤ L.length then
      ∃ d t L', dirp.putdir .cached ip s = .ok { ip with ondisk := d } t ∧
        Turn s ip L dirp m m t d L'
    else ∃ e t, dirp.putdir .cached ip s = .error e t := by
  rw [Buffer.putdir, hm]
  exact h.putblks hsize le_rfl

/-! ## The inode -/

/-- The inode that `iput` writes. -/
lemma dsknod_storeInode {blk : ℕ → Bytes} (hz : ∀ k, 32 ≤ k → ip.ondisk k = 0) :
    dsknod (storeInode blk ip) ip.inum = ip.ondisk := by
  funext k
  rw [dsknod, storeInode, Function.update_self]
  rcases lt_or_ge k 32 with hk | hk
  · rw [copyBytes_inside (Nat.zero_le k) (by omega), copyBytes_inside (by omega) (by omega)]
    congr 1
    omega
  · rw [copyBytes_outside (by omega), hz k hk]
    rfl

lemma dsknod_tail (blk : ℕ → Bytes) (j : ℕ) {k : ℕ} (hk : 32 ≤ k) : dsknod blk j k = 0 :=
  copyBytes_outside (by omega)

/-- `s_fmod` is no part of the free list. -/
lemma Ready.setFmod {f : ℕ} (h : Ready s f L) :
    Ready (s.setSb f (Fslib.setFmod (s.fs f).sb)) f L := by
  have hfs := setSb_fs s f (Fslib.setFmod (s.fs f).sb)
  have hrange : Fslib.SameRange (s.fs f).sb (Fslib.setFmod (s.fs f).sb) :=
    Fslib.sameRange_setFmod (fun _ _ => rfl)
  have hblock : ∀ b, (s.setSb f (Fslib.setFmod (s.fs f).sb)).block f b = s.block f b := fun b => by
    rw [Lib.block, Lib.block, hfs]
  refine ⟨?_, ⟨?_, ?_⟩, fun b hb => ?_, fun b hb => ?_⟩
  · rw [hfs]
    exact h.writable
  · rw [hfs]
    dsimp only
    have hle := h.free.list.le
    rw [Fslib.nfree_setFmod]
    refine h.free.list.congr (fun k hk => ?_) fun _ _ => rfl
    rw [Fslib.free_setFmod _ (by omega)]
  · rw [hfs]
    exact hrange.kept h.free.kept
  · obtain ⟨hlt, hbuf⟩ := h.inodeblk b hb
    rw [hfs, hblock]
    exact ⟨hlt.trans_eq (by rw [hrange.1]), hbuf⟩
  · obtain ⟨hge, hL, hbuf⟩ := h.iblk b hb
    rw [hfs, hblock]
    exact ⟨(hrange.1 ▸ hge : _), hL, hbuf⟩

end Host

end Micronix
