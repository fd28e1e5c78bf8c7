import Micronix.Host.Taken

/-!
# Freeing a file

`filefree` gives back the blocks of a file one after another, each with `bfree`.  What comes of the
free list is stated for such a sequence of blocks (`Gives`): they are on top of the list that was
there, unless that was an empty stack and the first block does not start like an empty chunk.  A
double indirect block is never given back, and its address stays in the inode.
-/

namespace Micronix

namespace Host

open Bytes Super Program
open Fslib (setFmod SameRange EmptyChunk)

/-! ## One block -/

namespace Image

/-- The image after `bfree`, with what is in its buffer. -/
def push (im : Image) (junk : Bytes) (b : ℕ) : Image :=
  if nfree im.sb ≥ 100 then
    { im with
      sb := setFmod (setNfree (setFree (setNfree im.sb 0) 0 b) 1)
      blk := Function.update im.blk b (spill im.sb junk) }
  else { im with sb := setFmod (setNfree (setFree im.sb (nfree im.sb) b) (nfree im.sb + 1)) }

variable {im : Image} {junk : Bytes} {b : ℕ} {L : List ℕ}

lemma push_range (im : Image) (junk : Bytes) (b : ℕ) : SameRange im.sb (im.push junk b).sb := by
  rw [push]
  split_ifs
  · exact Fslib.sameRange_setFmod (((sameOutside_setNfree _ 0).trans
      (sameOutside_setFree _ b (by omega))).trans (sameOutside_setNfree _ 1))
  · exact Fslib.sameRange_setFmod ((sameOutside_setFree _ b (by omega)).trans
      (sameOutside_setNfree _ _))

lemma push_writable (im : Image) (junk : Bytes) (b : ℕ) :
    (im.push junk b).writable = im.writable := by
  rw [push]
  split_ifs <;> rfl

lemma push_blk {c : ℕ} (hc : c ≠ b) : (im.push junk b).blk c = im.blk c := by
  rw [push]
  split_ifs
  · exact Function.update_of_ne hc _ _
  · rfl

/-- The stack afterwards. -/
lemma nfree_push (im : Image) (junk : Bytes) (b : ℕ) : nfree (im.push junk b).sb =
    if nfree im.sb ≥ 100 then 1 else nfree im.sb + 1 := by
  rw [push]
  split_ifs
  · rw [Fslib.nfree_setFmod, nfree_setNfree (by omega)]
  · rw [Fslib.nfree_setFmod, nfree_setNfree (by omega)]

lemma free_push (hb : b < 65536) {k : ℕ} (hk : k < 100) : free (im.push junk b).sb k =
    if k = (if nfree im.sb ≥ 100 then 0 else nfree im.sb) then b else free im.sb k := by
  rw [push]
  by_cases hn : nfree im.sb ≥ 100
  · rw [if_pos hn, if_pos hn, Fslib.free_setFmod _ hk, free_setNfree, free_setFree hb,
      free_setNfree]
  · rw [if_neg hn, if_neg hn, Fslib.free_setFmod _ hk, free_setNfree, free_setFree hb]

/-- What is under the new block on a stack with an entry. -/
lemma push_under (hn : nfree im.sb ≠ 0) (hle : nfree im.sb ≤ 100) (hb : b < 65536) (hbL : b ∉ L) :
    (if nfree (im.push junk b).sb = 1 then
        Represents (im.push junk b).blk (word ((im.push junk b).blk b) 0)
          (fun k => word ((im.push junk b).blk b) (1 + k)) L
      else Represents (im.push junk b).blk (nfree (im.push junk b).sb - 1)
        (free (im.push junk b).sb) L) ↔
      Represents im.blk (nfree im.sb) (free im.sb) L := by
  have hblk : ∀ c ∈ L, (im.push junk b).blk c = im.blk c :=
    fun c hc => push_blk (ne_of_mem_of_not_mem hc hbL)
  rw [nfree_push]
  by_cases hfull : nfree im.sb ≥ 100
  · -- the stack is in the block now
    have hspill : (im.push junk b).blk b = spill im.sb junk := by
      rw [push, if_pos hfull]
      exact Function.update_self ..
    have hword : ∀ k < 100, word (spill im.sb junk) (1 + k) = free im.sb k := by
      intro k hk
      rw [word_spill _ _ (by omega), free]
      congr 1
      omega
    rw [if_pos hfull, if_pos rfl, hspill, word_spill _ _ (by omega)]
    exact ⟨fun h => h.congr (fun k hk => (hword k (lt_of_lt_of_le hk h.le)).symm)
      fun c hc => (hblk c hc).symm,
      fun h => h.congr (fun k hk => hword k (lt_of_lt_of_le hk h.le)) hblk⟩
  · have hfree : ∀ k < nfree im.sb, free (im.push junk b).sb k = free im.sb k := by
      intro k hk
      rw [free_push hb (by omega), if_neg hfull, if_neg (by omega)]
    rw [if_neg hfull, if_neg (by omega), Nat.add_sub_cancel]
    exact ⟨fun h => h.congr (fun k hk => (hfree k hk).symm) fun c hc => (hblk c hc).symm,
      fun h => h.congr hfree hblk⟩

/-- The list after a push begins with the block. -/
lemma push_top (hb : InRange im.sb b) :
    free (im.push junk b).sb (nfree (im.push junk b).sb - 1) = b := by
  rw [nfree_push]
  split_ifs with hfull
  · rw [free_push hb.lt (by omega), if_pos hfull, if_pos rfl]
  · rw [free_push hb.lt (by omega), if_neg hfull, if_pos (Nat.add_sub_cancel ..)]

lemma push_free_cons (hb : InRange im.sb b) {L' : List ℕ}
    (h : (im.push junk b).Free L') : ∃ L, L' = b :: L ∧ b ∉ L := by
  cases L' with
  | nil =>
      rcases h.list with h0 | ⟨-, h0⟩
      · rw [nfree_push] at h0
        split_ifs at h0
      · rw [push_top hb] at h0
        exact absurd h0 hb.ne_zero
  | cons c L =>
      obtain ⟨-, -, htop, -, -⟩ := h.list
      rw [push_top hb] at htop
      exact ⟨L, by rw [htop], htop ▸ (List.nodup_cons.mp h.kept.1).1⟩

/-- **`bfree` is a push** on a stack with an entry. -/
lemma push_free_iff (hn : nfree im.sb ≠ 0) (hle : nfree im.sb ≤ 100) (hb : InRange im.sb b)
    (hbL : b ∉ L) : (im.push junk b).Free (b :: L) ↔ im.Free L := by
  have hrange := push_range im junk b
  constructor
  · rintro ⟨⟨-, -, -, -, hrest⟩, hkept⟩
    refine ⟨(push_under hn hle hb.lt hbL).mp hrest, (List.nodup_cons.mp hkept.1).2, fun c hc => ?_⟩
    exact hrange.inRange.mp (hkept.2 c (List.mem_cons_of_mem b hc))
  · rintro ⟨hlist, hkept⟩
    refine ⟨⟨?_, ?_, push_top hb, hb.ne_zero, (push_under hn hle hb.lt hbL).mpr hlist⟩,
      List.nodup_cons.mpr ⟨hbL, hkept.1⟩, fun c hc => ?_⟩
    · rw [nfree_push]
      split_ifs <;> omega
    · rw [nfree_push]
      split_ifs <;> omega
    · rw [hrange.inRange]
      rcases List.mem_cons.mp hc with rfl | hc
      · exact hb
      · exact hkept.2 c hc

/-- On an empty stack the block is read as a chunk. -/
lemma push_free_empty (hn : nfree im.sb = 0) (hb : InRange im.sb b) :
    (im.push junk b).Free [b] ↔ EmptyChunk (im.blk b) := by
  have hrange := push_range im junk b
  have hn' : nfree (im.push junk b).sb = 1 := by
    rw [nfree_push, hn]
    rfl
  have hblk : (im.push junk b).blk b = im.blk b := by
    rw [push, if_neg (by omega)]
  have hchunk : Represents (im.push junk b).blk (word (im.blk b) 0)
      (fun k => word (im.blk b) (1 + k)) [] ↔ EmptyChunk (im.blk b) :=
    ⟨fun h => h.congr (fun _ _ => rfl) fun _ hc => absurd hc List.not_mem_nil,
      fun h => h.congr (fun _ _ => rfl) fun _ hc => absurd hc List.not_mem_nil⟩
  have htop : free (im.push junk b).sb (nfree (im.push junk b).sb - 1) = b := push_top hb
  constructor
  · rintro ⟨⟨-, -, -, -, hrest⟩, -⟩
    rw [if_pos hn', hblk] at hrest
    exact hchunk.mp hrest
  · intro h
    refine ⟨⟨by omega, by omega, htop, hb.ne_zero, ?_⟩, List.nodup_singleton b, fun c hc => ?_⟩
    · rw [if_pos hn', hblk]
      exact hchunk.mpr h
    · rw [List.mem_singleton.mp hc, hrange.inRange]
      exact hb

lemma Free.push (h : im.Free L) (hb : InRange im.sb b) (hbL : b ∉ L)
    (hempty : nfree im.sb = 0 → EmptyChunk (im.blk b)) : (im.push junk b).Free (b :: L) := by
  by_cases hn : nfree im.sb = 0
  · have hL : L = [] := by
      have hlist := h.list
      rw [hn] at hlist
      exact hlist.eq_nil
    rw [hL]
    exact (push_free_empty hn hb).mpr (hempty hn)
  · exact (push_free_iff hn h.list.le hb hbL).mpr h

/-- What a block that is not free holds does not matter. -/
lemma Free.of_put {buf : Bytes} (hb : b ∉ L)
    (h : { im with blk := Function.update im.blk b buf }.Free L) : im.Free L where
  list := h.list.congr (fun _ _ => rfl) fun _ hc =>
    (Function.update_of_ne (ne_of_mem_of_not_mem hc hb) buf im.blk).symm
  kept := h.kept

end Image

/-! ## A sequence of blocks -/

/-- `bs` are given back one after another: a block of data as it is, an indirect block with what has
been written into it after its blocks. -/
inductive Gives (junk : Bytes) (im : Image) : List ℕ → Image → Prop
  | nil : Gives junk im [] im
  | data {bs : List ℕ} {im' : Image} {b : ℕ} : Gives junk im bs im' →
      Gives junk im (bs ++ [b]) (im'.push junk b)
  | indirect {bs : List ℕ} {im' : Image} {b : ℕ} {buf : Bytes} : Gives junk im bs im' →
      EmptyChunk buf → (bs = [] → EmptyChunk (im.blk b)) →
      Gives junk im (bs ++ [b])
        (Image.push { im' with blk := Function.update im'.blk b buf } junk b)

/-- The first of them, if the stack is empty, starts like an empty chunk. -/
def Bottom (im : Image) (bs : List ℕ) : Prop :=
  nfree im.sb = 0 → ∀ b ∈ bs.head?, EmptyChunk (im.blk b)

namespace Gives

variable {junk : Bytes} {im im₁ im' : Image} {bs cs L : List ℕ}

lemma eq_of_nil (h : Gives junk im [] im') : im' = im := by
  generalize he : ([] : List ℕ) = ds at h
  cases h with
  | nil => rfl
  | data h => exact absurd he (by simp)
  | indirect h => exact absurd he (by simp)

lemma trans (h : Gives junk im bs im₁) (h' : Gives junk im₁ cs im') :
    Gives junk im (bs ++ cs) im' := by
  induction h' with
  | nil => rwa [List.append_nil]
  | data _ ih =>
      rw [← List.append_assoc]
      exact ih.data
  | @indirect cs im₂ b buf _ hbuf hfirst ih =>
      rw [← List.append_assoc]
      refine ih.indirect hbuf fun hnil => ?_
      obtain ⟨rfl, rfl⟩ := List.append_eq_nil_iff.mp hnil
      rw [← eq_of_nil h]
      exact hfirst rfl

/-- What the blocks leave of the image. -/
lemma frame (h : Gives junk im bs im') : im'.writable = im.writable ∧ SameRange im.sb im'.sb ∧
    ∀ c, c ∉ bs → im'.blk c = im.blk c := by
  induction h with
  | nil => exact ⟨rfl, ⟨rfl, rfl⟩, fun _ _ => rfl⟩
  | @data bs im' b _ ih =>
      obtain ⟨hw, hr, hblk⟩ := ih
      have hr' := im'.push_range junk b
      refine ⟨(im'.push_writable junk b).trans hw, ⟨hr'.1.trans hr.1, hr'.2.trans hr.2⟩,
        fun c hc => ?_⟩
      obtain ⟨hbs, hb⟩ := not_or.mp (List.mem_append.not.mp hc)
      rw [Image.push_blk (by simpa using hb), hblk c hbs]
  | @indirect bs im' b buf _ _ _ ih =>
      obtain ⟨hw, hr, hblk⟩ := ih
      have hr' := Image.push_range { im' with blk := Function.update im'.blk b buf } junk b
      refine ⟨(Image.push_writable _ junk b).trans hw, ⟨hr'.1.trans hr.1, hr'.2.trans hr.2⟩,
        fun c hc => ?_⟩
      obtain ⟨hbs, hb⟩ := not_or.mp (List.mem_append.not.mp hc)
      have hne : c ≠ b := by simpa using hb
      rw [Image.push_blk hne]
      dsimp only
      rw [Function.update_of_ne hne, hblk c hbs]

/-- The stack is not empty any more. -/
lemma stack (h : Gives junk im bs im') (hle : nfree im.sb ≤ 100) :
    nfree im'.sb ≤ 100 ∧ (bs ≠ [] → nfree im'.sb ≠ 0) := by
  induction h with
  | nil => exact ⟨hle, fun h => absurd rfl h⟩
  | data _ ih | indirect _ _ _ ih =>
      obtain ⟨hle', -⟩ := ih
      rw [Image.nfree_push]
      split_ifs <;> exact ⟨by omega, fun _ => by omega⟩

/-- The prefixes of a sequence. -/
lemma bottom_of_append {b : ℕ} (h : Bottom im (bs ++ [b])) : Bottom im bs := by
  intro hn c hc
  refine h hn c ?_
  rw [List.head?_append]
  cases hbs : bs.head? with
  | none =>
      rw [hbs] at hc
      cases hc
  | some d => rwa [hbs] at hc

/-- **The blocks are on top of the list.** -/
theorem free (h : Gives junk im bs im') (hL : im.Free L) (hnd : (bs ++ L).Nodup)
    (hin : ∀ b ∈ bs, InRange im.sb b) (hbot : Bottom im bs) : im'.Free (bs.reverse ++ L) := by
  -- what is known of the block after `bs`
  have hnext {bs : List ℕ} {im' : Image} {b : ℕ} (h : Gives junk im bs im')
      (hnd : (bs ++ [b] ++ L).Nodup) (hin : ∀ c ∈ bs ++ [b], InRange im.sb c) :
      (bs ++ L).Nodup ∧ (∀ c ∈ bs, InRange im.sb c) ∧ InRange im'.sb b ∧ b ∉ bs.reverse ++ L := by
    rw [List.append_assoc, List.singleton_append] at hnd
    have hcons := List.nodup_cons.mp (List.nodup_middle.mp hnd)
    refine ⟨hcons.2, fun c hc => hin c (by simp [hc]), ?_, by simpa using hcons.1⟩
    exact h.frame.2.1.inRange.mpr (hin b (by simp))
  -- on an empty stack it is the first one
  have hfirst {bs : List ℕ} {im' : Image} (h : Gives junk im bs im') (h0 : nfree im'.sb = 0) :
      bs = [] ∧ im' = im := by
    have hbs : bs = [] := by
      by_contra hne
      exact (h.stack hL.list.le).2 hne h0
    subst hbs
    exact ⟨rfl, h.eq_of_nil⟩
  induction h with
  | nil => exact hL
  | @data bs im' b h ih =>
      obtain ⟨hnd', hin', hb, hbL⟩ := hnext h hnd hin
      rw [List.reverse_append, List.append_assoc]
      refine (ih hnd' hin' (bottom_of_append hbot)).push hb hbL fun h0 => ?_
      obtain ⟨rfl, rfl⟩ := hfirst h h0
      exact hbot h0 b rfl
  | @indirect bs im' b buf h hbuf _ ih =>
      obtain ⟨hnd', hin', hb, hbL⟩ := hnext h hnd hin
      rw [List.reverse_append, List.append_assoc]
      refine ((ih hnd' hin' (bottom_of_append hbot)).put hbL buf).push hb hbL fun _ => ?_
      dsimp only
      rwa [Function.update_self]

/-- **On an empty stack with another first block** the list has more than the blocks. -/
theorem long (h : Gives junk im bs im') (hn : nfree im.sb = 0) (hin : ∀ b ∈ bs, InRange im.sb b)
    {b₀ : ℕ} (hb₀ : bs.head? = some b₀) (hbad : ¬EmptyChunk (im.blk b₀)) :
    ∀ L', im'.Free L' → bs.length < L'.length := by
  have hle : nfree im.sb ≤ 100 := by omega
  have hhead {bs : List ℕ} {b : ℕ} (hb : (bs ++ [b]).head? = some b₀) (hne : bs ≠ []) :
      bs.head? = some b₀ := by
    rwa [List.head?_append_of_ne_nil _ hne] at hb
  induction h with
  | nil => cases hb₀
  | @data bs im' b h ih =>
      intro L' hL'
      have hb : InRange im'.sb b := h.frame.2.1.inRange.mpr (hin b (by simp))
      obtain ⟨L, rfl, hbL⟩ := Image.push_free_cons hb hL'
      rw [List.length_append, List.length_singleton, List.length_cons]
      by_cases hbs : bs = []
      · subst hbs
        rw [h.eq_of_nil] at hL' hb
        cases L with
        | nil =>
            have hchunk := (Image.push_free_empty hn hb).mp hL'
            rw [show b = b₀ from Option.some.inj hb₀] at hchunk
            exact absurd hchunk hbad
        | cons c L => simp
      · obtain ⟨hle', hpos⟩ := h.stack hle
        have hold := (Image.push_free_iff (hpos hbs) hle' hb hbL).mp hL'
        have := ih (fun c hc => hin c (by simp [hc])) (hhead hb₀ hbs) L hold
        omega
  | @indirect bs im' b buf h _ hfirst ih =>
      intro L' hL'
      have hb : InRange ({ im' with blk := Function.update im'.blk b buf } : Image).sb b :=
        h.frame.2.1.inRange.mpr (hin b (by simp))
      obtain ⟨L, rfl, hbL⟩ := Image.push_free_cons hb hL'
      rw [List.length_append, List.length_singleton, List.length_cons]
      by_cases hbs : bs = []
      · subst hbs
        rw [← show b = b₀ from Option.some.inj hb₀] at hbad
        exact absurd (hfirst rfl) hbad
      · obtain ⟨hle', hpos⟩ := h.stack hle
        have hold : Image.Free { im' with blk := Function.update im'.blk b buf } L := by
          refine (Image.push_free_iff ?_ ?_ ?_ hbL).mp hL'
          exacts [hpos hbs, hle', hb]
        have := ih (fun c hc => hin c (by simp [hc])) (hhead hb₀ hbs) L (hold.of_put hbL)
        omega

end Gives

/-! ## The program -/

/-- The program has given back `bs` on its way from `s` to `t`. -/
structure Gave (f : ℕ) (s t : Lib) (bs : List ℕ) : Prop where
  gives : Gives s.stack (s.fs f) bs (t.fs f)
  stack : t.stack = s.stack

section Programs

variable {s t u : Lib} {f b : ℕ} {bs cs : List ℕ} {ip : Inode}

lemma Gave.refl (f : ℕ) (s : Lib) : Gave f s s [] := ⟨.nil, rfl⟩

lemma Gave.trans (h : Gave f s t bs) (h' : Gave f t u cs) : Gave f s u (bs ++ cs) :=
  ⟨h.gives.trans (h.stack ▸ h'.gives), h'.stack.trans h.stack⟩

lemma Gave.writable (h : Gave f s t bs) (hw : (s.fs f).writable = true) :
    (t.fs f).writable = true := h.gives.frame.1.trans hw

lemma Gave.blk (h : Gave f s t bs) {c : ℕ} (hc : c ∉ bs) : (t.fs f).blk c = (s.fs f).blk c :=
  h.gives.frame.2.2 c hc

/-- One block. -/
lemma bfree_apply (hw : (s.fs f).writable = true) (hb : b ≠ 0) :
    ∃ t, bfree f b s = .ok () t ∧ t.fs f = (s.fs f).push s.stack b ∧ t.stack = s.stack := by
  rw [bfree, superblock_bind, Image.push]
  split_ifs with hfull
  · have hjunk {α : Type} (g : Bytes → M α) : (junk >>= g) s = g s.stack s := rfl
    rw [hjunk, setSuper_bind, writeblk_bind _ _ hb (by rw [setSb_fs]; exact hw)]
    refine ⟨_, rfl, ?_, rfl⟩
    rw [setSb_fs, put_fs, setSb_fs]
  · exact ⟨_, rfl, setSb_fs s f _, rfl⟩

lemma bfree_gave (hw : (s.fs f).writable = true) (hb : b ≠ 0) :
    ∃ t, bfree f b s = .ok () t ∧ Gave f s t [b] := by
  obtain ⟨t, hrun, hfs, hstack⟩ := bfree_apply hw hb
  refine ⟨t, hrun, ?_, hstack⟩
  rw [hfs]
  exact Gives.nil.data

/-- The blocks whose numbers are in an indirect block. -/
def entries (buf : Bytes) : List ℕ := ((List.range 256).map (word buf)).filter (· ≠ 0)

/-- An indirect block with its blocks before it. -/
def indirectBlocks (blk : ℕ → Bytes) (b : ℕ) : List ℕ :=
  if b = 0 then [] else entries (blk b) ++ [b]

/-- The blocks of a file. -/
def fileBlocks (blk : ℕ → Bytes) (d : Bytes) : List ℕ :=
  if Dsknod.iio d then []
  else if Dsknod.ilarg d then
    (List.range 7).flatMap (fun i => indirectBlocks blk (Dsknod.addr d i)) ++
      if Dsknod.addr d 7 = 0 then []
      else (entries (blk (Dsknod.addr d 7))).flatMap (indirectBlocks blk) ++ [Dsknod.addr d 7]
  else ((List.range 8).map (Dsknod.addr d)).filter (· ≠ 0)

/-- A word of an indirect block. -/
def freeEntry (f : ℕ) (buf : Bytes) (i : ℕ) : M Bytes :=
  if word buf i = 0 then pure buf
  else do
    bfree f (word buf i)
    pure (setWord buf i 0)

/-- The loop of `iblkfree`, over any of the words. -/
lemma loop_entries (l : List ℕ) (hl : l.Nodup) (buf : Bytes) (hw : (s.fs f).writable = true) :
    ∃ buf' t, l.foldlM (freeEntry f) buf s = .ok buf' t ∧
      Gave f s t ((l.map (word buf)).filter (· ≠ 0)) ∧
      ∀ i, word buf' i = if i ∈ l then 0 else word buf i := by
  induction l generalizing buf s with
  | nil => exact ⟨buf, s, rfl, .refl f s, fun i => by simp⟩
  | cons k l ih =>
      obtain ⟨hk, hl⟩ := List.nodup_cons.mp hl
      rw [List.foldlM_cons, freeEntry]
      by_cases h0 : word buf k = 0
      · obtain ⟨buf', t, hrun, hgave, hwords⟩ := ih hl buf hw
        refine ⟨buf', t, ?_, ?_, fun i => ?_⟩
        · rw [if_pos h0]
          exact hrun
        · simpa [h0] using hgave
        · rw [hwords]
          by_cases hi : i = k
          · subst hi
            simp [hk, h0]
          · simp [hi]
      · obtain ⟨v, hfree, hv⟩ := bfree_gave hw h0
        obtain ⟨buf', t, hrun, hgave, hwords⟩ := ih hl (setWord buf k 0) (hv.writable hw)
        have hmap : l.map (word (setWord buf k 0)) = l.map (word buf) :=
          List.map_congr_left fun i hi => word_setWord_ne (ne_of_mem_of_not_mem hi hk)
        rw [hmap] at hgave
        refine ⟨buf', t, ?_, ?_, fun i => ?_⟩
        · have hone : (bfree f (word buf k) >>= fun _ => (pure (setWord buf k 0) : M Bytes)) s =
              .ok (setWord buf k 0) v := bind_ok hfree
          rw [if_neg h0]
          exact (bind_ok hone).trans hrun
        · have := hv.trans hgave
          simpa [h0] using this
        · rw [hwords, word_setWord (by omega)]
          by_cases hi : i = k
          · subst hi
            simp
          · simp [hi]

/-- **An indirect block** is given back after its blocks. -/
lemma iblkfree_gave (hw : (s.fs f).writable = true) :
    ∃ t, iblkfree f b s = .ok () t ∧ Gave f s t (indirectBlocks (s.fs f).blk b) := by
  rw [iblkfree, indirectBlocks]
  by_cases hb : b = 0
  · rw [if_pos hb, if_pos hb]
    exact ⟨s, rfl, .refl f s⟩
  · rw [if_neg hb, if_neg hb, readblk_bind]
    obtain ⟨buf, t, hrun, hgave, hwords⟩ :=
      loop_entries (List.range 256) List.nodup_range (s.block f b) hw
    have hblock : s.block f b = (s.fs f).blk b := if_neg hb
    rw [hblock] at hrun hgave hwords
    have hempty {fb : Bytes} (h : ∀ i < 256, word fb i = 0) : EmptyChunk fb :=
      Or.inl (h 0 (by omega))
    have hwrite := writeblk_bind t f hb (hgave.writable hw) buf fun _ => bfree f b
    have hw' : ((t.put f b buf).fs f).writable = true := by
      rw [put_fs]
      exact hgave.writable hw
    obtain ⟨u, hfree, hfs, hstack⟩ := bfree_apply hw' hb
    refine ⟨u, (bind_ok (hblock ▸ hrun)).trans (hwrite.trans hfree), ?_, hstack.trans hgave.stack⟩
    rw [hfs, put_fs, show (t.put f b buf).stack = s.stack from hgave.stack]
    refine hgave.gives.indirect (hempty fun i hi => ?_) fun hnil => hempty fun i hi => ?_
    · rw [hwords, if_pos (List.mem_range.mpr hi)]
    · have := List.filter_eq_nil_iff.mp hnil (word ((s.fs f).blk b) i)
        (List.mem_map_of_mem (List.mem_range.mpr hi))
      simpa using this

lemma indirectBlocks_congr {blk blk' : ℕ → Bytes} (h : b ≠ 0 → blk' b = blk b) :
    indirectBlocks blk' b = indirectBlocks blk b := by
  rw [indirectBlocks, indirectBlocks]
  split_ifs with hb
  · rfl
  · rw [h hb]

lemma mem_indirectBlocks {blk : ℕ → Bytes} (hb : b ≠ 0) : b ∈ indirectBlocks blk b := by
  rw [indirectBlocks, if_neg hb]
  simp

/-- One of the seven addresses of a large file. -/
def freeAddr (ip : Inode) (i : ℕ) : M Inode := do
  iblkfree ip.fs (ip.addr i)
  pure (ip.setAddr i 0)

/-- One of the eight addresses of a small file. -/
def freeBlock (ip : Inode) (i : ℕ) : M Inode :=
  if ip.addr i = 0 then pure ip
  else do
    bfree ip.fs (ip.addr i)
    pure (ip.setAddr i 0)

lemma addr_clear (ip : Inode) (k i : ℕ) :
    (ip.setAddr k 0).addr i = if i = k then 0 else ip.addr i :=
  addr_setAddr (by omega)

/-- The single indirect blocks of a file, one after another. -/
lemma loop_indirect (ip : Inode) (l : List ℕ) (hl : l.Nodup) (hw : (s.fs ip.fs).writable = true)
    (hnd : (l.flatMap fun i => indirectBlocks (s.fs ip.fs).blk (ip.addr i)).Nodup) :
    ∃ ip' t, l.foldlM freeAddr ip s = .ok ip' t ∧
      Gave ip.fs s t (l.flatMap fun i => indirectBlocks (s.fs ip.fs).blk (ip.addr i)) ∧
      ∃ d, ip' = { ip with ondisk := d } ∧
        ∀ i, Dsknod.addr d i = if i ∈ l then 0 else ip.addr i := by
  induction l generalizing ip s with
  | nil => exact ⟨ip, s, rfl, .refl _ s, ip.ondisk, rfl, fun i => by simp [Inode.addr]⟩
  | cons k l ih =>
      obtain ⟨hk, hl⟩ := List.nodup_cons.mp hl
      rw [List.flatMap_cons] at hnd ⊢
      obtain ⟨-, hnd, hdisj⟩ := List.nodup_append.mp hnd
      obtain ⟨v, hfree, hv⟩ := iblkfree_gave (b := ip.addr k) hw
      have haddr : ∀ i ∈ l, (ip.setAddr k 0).addr i = ip.addr i := fun i hi => by
        rw [addr_clear, if_neg (ne_of_mem_of_not_mem hi hk)]
      -- the blocks of the others are not touched
      have hrest : (l.flatMap fun i =>
          indirectBlocks (v.fs (ip.setAddr k 0).fs).blk ((ip.setAddr k 0).addr i)) =
          l.flatMap fun i => indirectBlocks (s.fs ip.fs).blk (ip.addr i) := by
        refine List.flatMap_congr fun i hi => ?_
        rw [haddr i hi]
        refine indirectBlocks_congr fun h0 => hv.blk fun hmem => ?_
        exact hdisj _ hmem _ (List.mem_flatMap.mpr ⟨i, hi, mem_indirectBlocks h0⟩) rfl
      have hw' : (v.fs (ip.setAddr k 0).fs).writable = true := hv.writable hw
      obtain ⟨ip', t, hrun, hgave, d, rfl, hd⟩ := ih (ip.setAddr k 0) hl hw' (hrest ▸ hnd)
      rw [hrest] at hgave
      have hone : freeAddr ip k s = .ok (ip.setAddr k 0) v := bind_ok hfree
      refine ⟨_, t, ?_, hv.trans hgave, d, rfl, fun i => ?_⟩
      · rw [List.foldlM_cons]
        exact (bind_ok hone).trans hrun
      · rw [hd, addr_clear]
        by_cases hik : i = k <;> simp [hik]

/-- The blocks of a small file. -/
lemma loop_blocks (ip : Inode) (l : List ℕ) (hl : l.Nodup) (hw : (s.fs ip.fs).writable = true) :
    ∃ ip' t, l.foldlM freeBlock ip s = .ok ip' t ∧
      Gave ip.fs s t ((l.map ip.addr).filter (· ≠ 0)) ∧
      ∃ d, ip' = { ip with ondisk := d } ∧
        ∀ i, Dsknod.addr d i = if i ∈ l then 0 else ip.addr i := by
  induction l generalizing ip s with
  | nil => exact ⟨ip, s, rfl, .refl _ s, ip.ondisk, rfl, fun i => by simp [Inode.addr]⟩
  | cons k l ih =>
      obtain ⟨hk, hl⟩ := List.nodup_cons.mp hl
      rw [List.foldlM_cons, freeBlock]
      by_cases h0 : ip.addr k = 0
      · obtain ⟨ip', t, hrun, hgave, d, rfl, hd⟩ := ih _ hl hw
        refine ⟨_, t, ?_, ?_, d, rfl, fun i => ?_⟩
        · rw [if_pos h0]
          exact hrun
        · simpa [h0] using hgave
        · rw [hd]
          by_cases hik : i = k
          · subst hik
            simp [h0, hk]
          · simp [hik]
      · obtain ⟨v, hfree, hv⟩ := bfree_gave hw h0
        have hw' : (v.fs (ip.setAddr k 0).fs).writable = true := hv.writable hw
        obtain ⟨ip', t, hrun, hgave, d, rfl, hd⟩ := ih (ip.setAddr k 0) hl hw'
        have hmap : l.map (ip.setAddr k 0).addr = l.map ip.addr :=
          List.map_congr_left fun i hi => by
            rw [addr_clear, if_neg (ne_of_mem_of_not_mem hi hk)]
        rw [hmap] at hgave
        have hone : (bfree ip.fs (ip.addr k) >>= fun _ => (pure (ip.setAddr k 0) : M Inode)) s =
            .ok (ip.setAddr k 0) v := bind_ok hfree
        refine ⟨_, t, ?_, ?_, d, rfl, fun i => ?_⟩
        · rw [if_neg h0]
          exact (bind_ok hone).trans hrun
        · have := hv.trans hgave
          simpa [h0] using this
        · rw [hd, addr_clear]
          by_cases hik : i = k <;> simp [hik]

/-- An inode is written, whatever block of inodes it is put into. -/
lemma iput_apply (ip : Inode) (how : How) (hw : (s.fs ip.fs).writable = true) :
    ∃ buf t, iput how ip s = .ok () t ∧ t.fs ip.fs = { s.fs ip.fs with
      blk := Function.update (s.fs ip.fs).blk (inodeBlock ip.inum)
        (copyBytes ip.ondisk 0 buf (32 * inodeIndex ip.inum) 32) } := by
  have hlook : ∃ buf v, look how .inodeblk ip.fs (inodeBlock ip.inum) s = .ok buf v ∧
      v.fs = s.fs := by
    rw [look]
    split_ifs
    · exact ⟨_, _, rfl, rfl⟩
    · exact ⟨_, _, rfl, rfl⟩
  obtain ⟨buf, v, hlook, hv⟩ := hlook
  have hb0 : inodeBlock ip.inum ≠ 0 := by
    have := inodeBlock_ge ip.inum
    omega
  have hinst := install_apply .inodeblk ip.fs (inodeBlock ip.inum)
    (copyBytes ip.ondisk 0 buf (32 * inodeIndex ip.inum) 32) v
  rw [if_neg (by simp [hb0, hv, hw])] at hinst
  refine ⟨buf, _, (bind_ok hlook).trans hinst, ?_⟩
  rw [setKept_fs, put_fs, hv]

/-- Its addresses are on the image then. -/
lemma addr_written {blk : ℕ → Bytes} (d buf : Bytes) {inum k : ℕ} (hk : k < 8) :
    Dsknod.addr (dsknod (Function.update blk (inodeBlock inum)
      (copyBytes d 0 buf (32 * inodeIndex inum) 32)) inum) k = Dsknod.addr d k := by
  have hbyte : ∀ j < 32, dsknod (Function.update blk (inodeBlock inum)
      (copyBytes d 0 buf (32 * inodeIndex inum) 32)) inum j = d j := by
    intro j hj
    rw [dsknod, Function.update_self, copyBytes_inside (Nat.zero_le j) (by omega),
      copyBytes_inside (by omega) (by omega)]
    congr 1
    omega
  exact word_congr (hbyte _ (by omega)) (hbyte _ (by omega))

lemma addr_emptied (ip : Inode) (k : ℕ) : (emptied ip).addr k = ip.addr k := by
  rw [emptied, Inode.addr, Inode.addr, Dsknod.addr, Dsknod.addr, Dsknod.setSize, Dsknod.setMode]
  rw [word_setWord_ne (by omega)]
  have hbyte : ∀ j, j ≠ 5 → 2 ≤ j → Function.update
      (setWord ip.ondisk 0 (Dsknod.mode ip.ondisk % 4096 + Dsknod.mode ip.ondisk / 8192 * 8192)) 5
      (UInt8.ofNat (0 / 65536)) j = ip.ondisk j := by
    intro j h5 h2
    rw [Function.update_of_ne h5, setWord, if_neg (by omega), if_neg (by omega)]
  exact word_congr (hbyte _ (by omega) (by omega)) (hbyte _ (by omega) (by omega))

/-! ## The whole file -/

/-- `filefree` gives back what the file has, and no other block, and leaves no address of a block in
the inode.  The first address of a special file is its device. -/
def Freed (s : Lib) (L : List ℕ) (ip : Inode) : Prop :=
  ∃ ip' t, filefree .cached ip s = .ok ip' t ∧
    (∃ L', (t.fs ip.fs).Free L' ∧ L'.Perm (fileBlocks (s.fs ip.fs).blk ip.ondisk ++ L)) ∧
      (Dsknod.iio ip.ondisk = false → ∀ k < 8,
        ip'.addr k = 0 ∧ Dsknod.addr (dsknod (t.fs ip.fs).blk ip.inum) k = 0)

lemma fileBlocks_large (blk : ℕ → Bytes) (hiio : Dsknod.iio ip.ondisk = false)
    (hl : ip.ilarg = true) (h7 : ip.addr 7 = 0) : fileBlocks blk ip.ondisk =
      (List.range 7).flatMap fun i => indirectBlocks blk (ip.addr i) := by
  rw [Inode.ilarg] at hl
  rw [Inode.addr] at h7
  rw [fileBlocks, if_neg (by simp [hiio]), if_pos hl, if_pos h7, List.append_nil]
  rfl

lemma fileBlocks_small (blk : ℕ → Bytes) (hiio : Dsknod.iio ip.ondisk = false)
    (hl : ¬ip.ilarg = true) :
    fileBlocks blk ip.ondisk = ((List.range 8).map ip.addr).filter (· ≠ 0) := by
  rw [fileBlocks, if_neg (by simp [hiio])]
  exact if_neg hl

/-- The walk over a file without a double indirect block. -/
lemma walk_gave (hiio : Dsknod.iio ip.ondisk = false) (h7 : ip.ilarg = true → ip.addr 7 = 0)
    (hw : (s.fs ip.fs).writable = true) (hnd : (fileBlocks (s.fs ip.fs).blk ip.ondisk).Nodup) :
    ∃ ip' t, (if ip.ilarg then freeLarge ip else freeSmall ip) s = .ok ip' t ∧
      Gave ip.fs s t (fileBlocks (s.fs ip.fs).blk ip.ondisk) ∧
      ∃ d, ip' = { ip with ondisk := d } ∧ ∀ k < 8, Dsknod.addr d k = 0 := by
  by_cases hl : ip.ilarg = true
  · rw [fileBlocks_large _ hiio hl (h7 hl)] at hnd ⊢
    rw [if_pos hl]
    -- the statics are forgotten first
    let v := (s.setKept .iblk { s.kept .iblk with no := none }).setKept .iiblk
      { (s.setKept .iblk { s.kept .iblk with no := none }).kept .iiblk with no := none }
    obtain ⟨ip', t, hrun, hg, d, rfl, hd⟩ :=
      loop_indirect _ (s := v) (List.range 7) List.nodup_range hw hnd
    have haddr : ∀ k < 8, Dsknod.addr d k = 0 := by
      intro k hk
      rw [hd]
      split_ifs with hmem
      · rfl
      · have hk7 : k = 7 := by
          rw [List.mem_range] at hmem
          omega
        rw [hk7, h7 hl]
    refine ⟨_, t, ?_, ⟨hg.gives, hg.stack⟩, d, rfl, haddr⟩
    change ((List.range 7).foldlM freeAddr ip >>= _) v = _
    rw [bind_ok hrun]
    exact congrFun (if_pos (haddr 7 (by omega))) t
  · rw [fileBlocks_small _ hiio hl, if_neg hl]
    obtain ⟨ip', t, hrun, hg, d, rfl, hd⟩ := loop_blocks ip (List.range 8)
      List.nodup_range hw
    exact ⟨_, t, hrun, hg, d, rfl, fun k hk => by rw [hd, if_pos (List.mem_range.mpr hk)]⟩

/-- The address of the double indirect block stays. -/
lemma addr_seven_stays (hiio : Dsknod.iio ip.ondisk = false) (hl : ip.ilarg = true) (how : How) :
    Yields (fun ip' => ip'.addr 7 = ip.addr 7) (filefree how ip) := by
  have hwalk : Yields (fun ip' => ip'.addr 7 = ip.addr 7) (freeLarge ip) := by
    refine .after _ fun _ => .after _ fun _ => .bind (Q := fun ip' => ip'.addr 7 = ip.addr 7) ?_ ?_
    · refine .foldlM (fun ip' i hi h => .after _ fun _ => .pure ?_) rfl
      have hi7 := List.mem_range.mp hi
      rw [addr_clear, if_neg (by omega), h]
    · intro ip' h
      exact .ite (.pure h) (.after _ fun _ => .after _ fun _ => .after _ fun _ => .pure h)
  rw [filefree, if_neg (by simp [hiio]), if_pos hl]
  refine .bind hwalk fun ip' h => .after _ fun _ => .pure ?_
  rw [addr_emptied, h]

/-- `filefree` of a file without a double indirect block. -/
lemma filefree_gave (hiio : Dsknod.iio ip.ondisk = false) (h7 : ip.ilarg = true → ip.addr 7 = 0)
    (hw : (s.fs ip.fs).writable = true) (hnd : (fileBlocks (s.fs ip.fs).blk ip.ondisk).Nodup) :
    ∃ ip' t v buf, filefree .cached ip s = .ok ip' t ∧
      Gave ip.fs s v (fileBlocks (s.fs ip.fs).blk ip.ondisk) ∧ (∀ k < 8, ip'.addr k = 0) ∧
      t.fs ip.fs = { v.fs ip.fs with
        blk := Function.update (v.fs ip.fs).blk (inodeBlock ip.inum)
          (copyBytes ip'.ondisk 0 buf (32 * inodeIndex ip.inum) 32) } := by
  obtain ⟨ip', v, hwalk, hgave, d, rfl, hd⟩ := walk_gave hiio h7 hw hnd
  obtain ⟨buf, t, hput, hfs⟩ := iput_apply (emptied { ip with ondisk := d }) .cached
    (hgave.writable hw)
  refine ⟨emptied { ip with ondisk := d }, t, v, buf, ?_, hgave, fun k hk => ?_, hfs⟩
  · rw [filefree, if_neg (by simp [hiio])]
    exact (bind_ok hwalk).trans (bind_ok hput)
  · rw [addr_emptied]
    exact hd k hk

/-- A block of inodes is on no free list. -/
lemma inodeBlock_notMem {im : Image} {L : List ℕ} {inum : ℕ} (h : im.Free L) (h1 : 1 ≤ inum)
    (hle : inum ≤ I_PER_BLK * isize im.sb) : inodeBlock inum ∉ L :=
  fun hmem => ne_inodeBlock h1 hle (h.kept.2 _ hmem) rfl

/-- **Freeing a file.**  On an image that is open for writing, with a free list and with the blocks
of the file in range, each once and not free, `filefree` does what it should exactly if the file is a
special one, or it has no double indirect block, and on an empty stack the first block that is given
back starts like an empty chunk. -/
theorem filefree_freed {L : List ℕ} (hw : (s.fs ip.fs).writable = true)
    (hL : (s.fs ip.fs).Free L) (h1 : 1 ≤ ip.inum)
    (hle : ip.inum ≤ I_PER_BLK * isize (s.fs ip.fs).sb)
    (hnd : (fileBlocks (s.fs ip.fs).blk ip.ondisk ++ L).Nodup)
    (hin : ∀ b ∈ fileBlocks (s.fs ip.fs).blk ip.ondisk, InRange (s.fs ip.fs).sb b) :
    Freed s L ip ↔ Dsknod.iio ip.ondisk = true ∨ (ip.ilarg = true → ip.addr 7 = 0) ∧
      Bottom (s.fs ip.fs) (fileBlocks (s.fs ip.fs).blk ip.ondisk) := by
  cases hiio : Dsknod.iio ip.ondisk with
  | true =>
      refine iff_of_true ⟨ip, s, ?_, ⟨L, hL, ?_⟩, fun h => ?_⟩ (Or.inl rfl)
      · rw [filefree, if_pos hiio]
        rfl
      · rw [fileBlocks, if_pos hiio]
        exact .refl L
      · rw [hiio] at h
        cases h
  | false =>
      have hnd' := (List.nodup_append.mp hnd).1
      refine Iff.trans ⟨?_, ?_⟩ (or_iff_right Bool.false_ne_true).symm
      · rintro ⟨ip', t, hrun, ⟨L', hL', hperm⟩, haddr⟩
        have h7 : ip.ilarg = true → ip.addr 7 = 0 := fun hl => by
          rw [← addr_seven_stays hiio hl .cached s ip' t hrun]
          exact (haddr hiio 7 (by omega)).1
        refine ⟨h7, fun hn b hb => ?_⟩
        by_contra hbad
        obtain ⟨ip₁, t₁, v, buf, hrun₁, hgave, -, hfs⟩ := filefree_gave hiio h7 hw hnd'
        cases hrun.symm.trans hrun₁
        have hrange := hgave.gives.frame.2.1
        rw [hfs] at hL'
        have hout : inodeBlock ip.inum ∉ L' := inodeBlock_notMem hL' h1 (by
          dsimp only
          rw [hrange.1]
          exact hle)
        have hlong := hgave.gives.long hn hin hb hbad L' (hL'.of_put hout)
        have hnil : L = [] := by
          have hlist := hL.list
          rw [hn] at hlist
          exact hlist.eq_nil
        rw [hperm.length_eq, hnil, List.append_nil] at hlong
        exact absurd hlong (Nat.lt_irrefl _)
      · rintro ⟨h7, hbot⟩
        obtain ⟨ip', t, v, buf, hrun, hgave, haddr, hfs⟩ := filefree_gave hiio h7 hw hnd'
        have hfree := hgave.gives.free hL hnd hin hbot
        have hrange := hgave.gives.frame.2.1
        have hout := inodeBlock_notMem hfree h1 (by rw [hrange.1]; exact hle)
        refine ⟨ip', t, hrun, ⟨_, ?_, (List.reverse_perm _).append_right L⟩, fun _ k hk =>
          ⟨haddr k hk, ?_⟩⟩
        · rw [hfs]
          exact hfree.put hout _
        · rw [hfs]
          dsimp only
          rw [addr_written _ _ hk]
          exact haddr k hk

end Programs

/-! ## A small image -/

/-- Blocks 3 to 6 are for files, and none of them is free. -/
def fullImage : Lib where
  fs _ :=
    { blk := fun _ => zero
      writable := true
      sb := setNfree (setWord (setWord zero 0 1) 1 7) 1 }
  kept _ := ⟨none, zero, none⟩
  stack := zero
  foul := false

lemma fullImage_free : (fullImage.fs 0).Free [] where
  list := Or.inr ⟨by decide, by decide⟩
  kept := ⟨List.nodup_nil, fun _ h => absurd h List.not_mem_nil⟩

/-- Inode 1 with block 5 at address `k`. -/
def owner (mode k : ℕ) : Inode := ⟨Dsknod.setAddr (Dsknod.setMode zero mode) k 5, 0, 1⟩

/-- A small file of one block. -/
theorem filefree_freed_small : Freed fullImage [] (owner 0x8000 0) := by
  have hblocks : fileBlocks (fullImage.fs 0).blk (owner 0x8000 0).ondisk = [5] := by decide
  refine (filefree_freed rfl fullImage_free (by decide) (by decide) ?_ ?_).mpr
    (Or.inr ⟨by decide, fun h => absurd h (by decide)⟩)
  · exact hblocks ▸ List.nodup_singleton 5
  · exact hblocks ▸ fun b hb => by
      rw [List.mem_singleton.mp hb]
      decide

/-- **A double indirect block is lost**: it is not freed, and its address is in the inode still. -/
theorem filefree_keeps_double :
    (fullImage.fs 0).Free [] ∧ fileBlocks (fullImage.fs 0).blk (owner 0x9000 7).ondisk = [5] ∧
      InRange (fullImage.fs 0).sb 5 ∧ ¬Freed fullImage [] (owner 0x9000 7) := by
  refine ⟨fullImage_free, by decide +kernel, by decide, ?_⟩
  rintro ⟨ip', t, hrun, -, haddr⟩
  have h7 : ip'.addr 7 = (owner 0x9000 7).addr 7 :=
    addr_seven_stays (by decide) (by decide) .cached _ _ _ hrun
  rw [(haddr (by decide) 7 (by omega)).1] at h7
  exact absurd h7 (by decide)

end Host

end Micronix
