import Micronix.Fslib.Blocks

/-!
# One free list, two programs

`balloc` and `bfree` of the library against the stack that the free list stands for, mixed with the
kernel's.  They meet everywhere but at the end of the list.  The kernel leaves `s_nfree` 0 there, and
its `bfree` then puts a 0 under the new block; the library's `balloc` counts such an `s_nfree` down to
65535, and its `bfree` leaves the 0 out, so that the block itself is read as the next chunk.
-/

namespace Micronix

namespace Fslib

open Bytes Super

variable {s : Sys} {dev : ℕ} {L : List ℕ}

/-! ## `balloc` and `bfree` on a superblock -/

lemma word_setFmod (sb : Bytes) {k : ℕ} (h : k ≠ 205) : word (setFmod sb) k = word sb k := by
  refine word_congr ?_ ?_ <;> rw [setFmod, if_neg (by omega)]

@[simp] lemma nfree_setFmod (sb : Bytes) : nfree (setFmod sb) = nfree sb :=
  word_setFmod sb (by omega)

lemma free_setFmod (sb : Bytes) {k : ℕ} (h : k < 100) : free (setFmod sb) k = free sb k :=
  word_setFmod sb (by omega)

/-- The two superblocks have the same blocks for files. -/
def SameRange (sb sb' : Bytes) : Prop := isize sb' = isize sb ∧ fsize sb' = fsize sb

lemma SameRange.inRange {sb sb' : Bytes} (h : SameRange sb sb') {b : ℕ} :
    InRange sb' b ↔ InRange sb b := by
  rw [InRange, InRange, h.1, h.2]

lemma SameRange.kept {sb sb' : Bytes} (h : SameRange sb sb') (hk : Lifo.Kept (InRange sb) L) :
    Lifo.Kept (InRange sb') L :=
  ⟨hk.1, fun b hb => h.inRange.mpr (hk.2 b hb)⟩

lemma sameRange_of_sameOutside {sb sb' : Bytes} (h : SameOutside sb sb') :
    SameRange sb sb' :=
  ⟨h.isize, h.fsize⟩

lemma sameRange_setFmod {sb sb' : Bytes} (h : SameOutside sb sb') :
    SameRange sb (setFmod sb') := by
  obtain ⟨hi, hf⟩ := sameRange_of_sameOutside h
  exact ⟨(word_setFmod sb' (by omega)).trans hi, (word_setFmod sb' (by omega)).trans hf⟩

/-- An empty stack: `s_nfree` becomes 65535. -/
lemma balloc_none (h : nfree (s.sb dev) = 0) :
    balloc s dev = (0, s.put dev 1 (setNfree (s.sb dev) 65535)) := by
  simp [balloc, h]

/-- The 0 at the end of the list is popped. -/
lemma balloc_sentinel (hn : nfree (s.sb dev) ≠ 0) (hle : nfree (s.sb dev) ≤ 100)
    (h0 : free (s.sb dev) (nfree (s.sb dev) - 1) = 0) :
    balloc s dev = (0, s.put dev 1 (setNfree (s.sb dev) (nfree (s.sb dev) - 1))) := by
  have hi : (nfree (s.sb dev) + 65535) % 65536 = nfree (s.sb dev) - 1 := by omega
  simp [balloc, hi, h0, show ¬nfree (s.sb dev) - 1 ≥ 100 by omega]

/-- The last block of a chunk holds the next one. -/
lemma balloc_chain {b : ℕ} (hn : nfree (s.sb dev) = 1) (hb : free (s.sb dev) 0 = b)
    (h0 : b ≠ 0) :
    balloc s dev = (b, (s.put dev b zero).put dev 1
      (setFmod (refill (setNfree (s.sb dev) 0) (s.blk dev b)))) := by
  simp [balloc, hn, hb, h0]

lemma balloc_pop {b : ℕ} (hn : 1 < nfree (s.sb dev)) (hle : nfree (s.sb dev) ≤ 100)
    (hb : free (s.sb dev) (nfree (s.sb dev) - 1) = b) (h0 : b ≠ 0) :
    balloc s dev = (b, s.put dev 1 (setFmod (setNfree (s.sb dev) (nfree (s.sb dev) - 1)))) := by
  have hi : (nfree (s.sb dev) + 65535) % 65536 = nfree (s.sb dev) - 1 := by omega
  simp [balloc, hi, hb, h0, show ¬nfree (s.sb dev) - 1 ≥ 100 by omega,
    show nfree (s.sb dev) - 1 ≠ 0 by omega]

/-! ## One step -/

/-- **`balloc` of the library is a pop** of a list that has not ended. -/
lemma balloc_cons {b : ℕ} (h : FreeList s dev (b :: L)) (hk : KeptList s dev (b :: L)) :
    (balloc s dev).1 = b ∧ FreeList (balloc s dev).2 dev L := by
  obtain ⟨hpos, hle, htop, hb0, hrest⟩ := h
  have h1 : 1 ∉ b :: L := one_notMem_of_kept hk
  have hframe : ∀ c ∈ L, c ≠ 1 ∧ c ≠ b := fun c hc =>
    ⟨fun e => h1 (e ▸ List.mem_cons_of_mem b hc), fun e => (List.nodup_cons.mp hk.1).1 (e ▸ hc)⟩
  by_cases hn : nfree (s.sb dev) = 1
  · rw [if_pos hn] at hrest
    rw [hn] at htop
    rw [balloc_chain hn htop hb0]
    refine ⟨rfl, ?_⟩
    have hle' := hrest.le
    rw [FreeList, Sys.put_sb_self, nfree_setFmod, nfree_refill]
    refine hrest.congr ?_ ?_
    · intro k hk'
      rw [free_setFmod _ (by omega), free_refill _ _ (by omega)]
    · intro c hc
      rw [Sys.put_blk_other (hframe c hc).1, Sys.put_blk_other (hframe c hc).2]
  · rw [if_neg hn] at hrest
    rw [balloc_pop (by omega) hle htop hb0]
    refine ⟨rfl, ?_⟩
    rw [FreeList, Sys.put_sb_self, nfree_setFmod, nfree_setNfree (by omega)]
    refine hrest.congr ?_ fun c hc => Sys.put_blk_other (hframe c hc).1
    intro k hk'
    rw [free_setFmod _ (by omega), free_setNfree]

/-- **`balloc` of the library at the end of the list** keeps it if there is a 0 to pop with nothing
under it. -/
lemma balloc_nil (h : FreeList s dev []) :
    (balloc s dev).1 = 0 ∧ (FreeList (balloc s dev).2 dev [] ↔ nfree (s.sb dev) ≠ 0 ∧
      (free (s.sb dev) (nfree (s.sb dev) - 1) = 0 →
        nfree (s.sb dev) = 1 ∨ free (s.sb dev) (nfree (s.sb dev) - 2) = 0)) := by
  by_cases hn : nfree (s.sb dev) = 0
  · rw [balloc_none hn]
    refine ⟨rfl, iff_of_false ?_ fun hc => hc.1 hn⟩
    rw [FreeList, Sys.put_sb_self, nfree_setNfree (by omega)]
    rintro (hc | hc) <;> omega
  · obtain ⟨hle, h0⟩ := h.resolve_left hn
    rw [balloc_sentinel hn hle h0]
    refine ⟨rfl, ?_⟩
    rw [FreeList, Sys.put_sb_self, nfree_setNfree (by omega)]
    simp only [Represents, free_setNfree, h0, hn, ne_eq, not_false_eq_true, true_and,
      true_implies]
    have hsub : nfree (s.sb dev) - 1 - 1 = nfree (s.sb dev) - 2 := by omega
    rw [hsub]
    constructor
    · rintro (hc | hc)
      · exact Or.inl (by omega)
      · exact Or.inr hc.2
    · rintro (hc | hc)
      · exact Or.inl (by omega)
      · exact Or.inr ⟨by omega, hc⟩

/-- The block starts like a chunk of the list with nothing in it. -/
def EmptyChunk (fb : Bytes) : Prop :=
  Represents (fun _ => zero) (word fb 0) (fun k => word fb (1 + k)) []

/-- The stack after the library's `bfree` below a full one. -/
lemma bfree_push {junk : Bytes} {b : ℕ} (hn : nfree (s.sb dev) < 100) :
    bfree s junk b dev = s.put dev 1
      (setFmod (setNfree (setFree (s.sb dev) (nfree (s.sb dev)) b) (nfree (s.sb dev) + 1))) := by
  simp [bfree, show ¬nfree (s.sb dev) ≥ 100 by omega]

lemma bfree_spill {junk : Bytes} {b : ℕ} (hn : 100 ≤ nfree (s.sb dev)) :
    bfree s junk b dev = (s.put dev b (spill (s.sb dev) junk)).put dev 1
      (setFmod (setNfree (setFree (setNfree (s.sb dev) 0) 0 b) 1)) := by
  simp [bfree, hn]

/-- **`bfree` of the library is a push** on a stack with an entry; on an empty one it is a push if
the block starts like an empty chunk. -/
lemma bfree_iff {junk : Bytes} {b : ℕ} (h : FreeList s dev L) (hk : KeptList s dev L)
    (hr : InRange (s.sb dev) b) (hb : b ∉ L) :
    FreeList (bfree s junk b dev) dev (b :: L) ↔
      (nfree (s.sb dev) ≠ 0 ∨ EmptyChunk (s.blk dev b)) := by
  have hlt := hr.lt
  have h1 : 1 ∉ L := one_notMem_of_kept hk
  have hframe : ∀ c ∈ L, c ≠ 1 ∧ c ≠ b := fun c hc => ⟨fun e => h1 (e ▸ hc), fun e => hb (e ▸ hc)⟩
  rcases lt_or_ge (nfree (s.sb dev)) 100 with hn | hn
  · rw [bfree_push hn, FreeList, Sys.put_sb_self, nfree_setFmod, nfree_setNfree (by omega)]
    have hfree : ∀ k < 100, free (setFmod (setNfree (setFree (s.sb dev) (nfree (s.sb dev)) b)
        (nfree (s.sb dev) + 1))) k = if k = nfree (s.sb dev) then b else free (s.sb dev) k := by
      intro k hk'
      rw [free_setFmod _ hk', free_setNfree, free_setFree hlt]
    by_cases h0 : nfree (s.sb dev) = 0
    · -- the block becomes the bottom entry of the stack
      have hnil : L = [] := by
        rw [FreeList, h0] at h
        exact h.eq_nil
      subst hnil
      have hbot := hfree 0 (by omega)
      simp only [h0, Nat.zero_add, if_true] at hbot
      simp only [Represents, hbot, h0, Nat.zero_add, if_true, Nat.sub_self,
        Nat.one_pos, hr.ne_zero, ne_eq, not_false_eq_true, not_true_eq_false, false_or, true_and,
        Sys.put_blk_other hr.ne_one, EmptyChunk, show 1 ≤ 100 by omega]
    · refine iff_of_true ⟨by omega, by omega, ?_, hr.ne_zero, ?_⟩ (Or.inl h0)
      · rw [Nat.add_sub_cancel, hfree _ hn, if_pos rfl]
      · rw [if_neg (by omega), Nat.add_sub_cancel]
        refine h.congr ?_ fun c hc => Sys.put_blk_other (hframe c hc).1
        intro k hk'
        rw [hfree k (by omega), if_neg (by omega)]
  · have hn' : nfree (s.sb dev) = 100 := le_antisymm h.le hn
    refine iff_of_true ?_ (Or.inl (by omega))
    rw [bfree_spill hn, FreeList, Sys.put_sb_self, nfree_setFmod, nfree_setNfree (by omega)]
    refine ⟨by omega, by omega, ?_, hr.ne_zero, ?_⟩
    · rw [free_setFmod _ (by omega), free_setNfree, free_setFree hlt, if_pos rfl]
    · rw [if_pos rfl, Sys.put_blk_other hr.ne_one, Sys.put_blk_self, word_spill _ _ (by omega)]
      refine Represents.congr (n := nfree (s.sb dev)) h ?_ ?_
      · intro k hk'
        rw [word_spill _ _ (by omega), free]
        congr 1
        omega
      · intro c hc
        rw [Sys.put_blk_other (hframe c hc).1, Sys.put_blk_other (hframe c hc).2]

/-! ## Sequences of calls of both -/

/-- A call of the kernel's routines or of the library's, with what is in the library's buffer. -/
inductive Request
  | kernel (c : Lifo.Call ℕ)
  | host (c : Lifo.Call ℕ) (junk : Bytes)

/-- What is asked for, whoever asks. -/
def Request.call : Request → Lifo.Call ℕ
  | .kernel c => c
  | .host c _ => c

/-- What the caller of an allocation sees. -/
def report (r : ℕ × Sys) : Lifo.Event ℕ × Sys := (if r.1 = 0 then .full else .got r.1, r.2)

lemma report_snd (r : ℕ × Sys) : (report r).2 = r.2 := by
  rw [report]

lemma report_full {r : ℕ × Sys} (h : r.1 = 0) : (report r).1 = .full := if_pos h

lemma report_got {r : ℕ × Sys} {b : ℕ} (h : r.1 = b) (h0 : b ≠ 0) : (report r).1 = .got b := by
  rw [report, if_neg (h.trans_ne h0), h]

/-- Serve one request. -/
def serve (dev : ℕ) (s : Sys) : Request → Lifo.Event ℕ × Sys
  | .kernel c => serveBlock dev s c
  | .host .alloc _ => report (balloc s dev)
  | .host (.free b) junk => (.freed b, bfree s junk b dev)

/-- Serve a sequence of requests. -/
def serveAll (dev : ℕ) : Sys → List Request → List (Lifo.Event ℕ) × Sys
  | s, [] => ([], s)
  | s, r :: rs =>
      let p := serve dev s r
      let rest := serveAll dev p.2 rs
      (p.1 :: rest.1, rest.2)

/-- The step is the pop or push of the list `L`. -/
def Follows (dev : ℕ) (s : Sys) (L : List ℕ) (r : Request) : Prop :=
  (serve dev s r).1 = (Lifo.serve L r.call).1 ∧
    FreeList (serve dev s r).2 dev (Lifo.serve L r.call).2

/-- When it is.  The kernel's `balloc` refuses a file system that is mounted read-only; the library
calls for a stack that is not empty, or for a block that starts like an empty chunk. -/
def Fine (dev : ℕ) (s : Sys) : Request → Prop
  | .kernel .alloc => flock (s.sb dev) = false ∨ nfree (s.sb dev) = 0 ∨
      free (s.sb dev) (nfree (s.sb dev) - 1) = 0
  | .kernel (.free _) => True
  | .host .alloc _ => nfree (s.sb dev) ≠ 0 ∧
      (free (s.sb dev) (nfree (s.sb dev) - 1) = 0 →
        nfree (s.sb dev) = 1 ∨ free (s.sb dev) (nfree (s.sb dev) - 2) = 0)
  | .host (.free b) _ => nfree (s.sb dev) ≠ 0 ∨ EmptyChunk (s.blk dev b)

/-- Along a sequence of requests, `P` holds of every step. -/
def EachStep (P : Sys → List ℕ → Request → Prop) (dev : ℕ) : Sys → List ℕ → List Request → Prop
  | _, _, [] => True
  | s, L, r :: rs => P s L r ∧ EachStep P dev (serve dev s r).2 (Lifo.serve L r.call).2 rs

/-- A block that is given back is a file block and not free. -/
def Allowed (sb : Bytes) (L : List ℕ) : Lifo.Call ℕ → Prop
  | .alloc => True
  | .free b => InRange sb b ∧ b ∉ L

/-- The top of the stack of a list that has not ended. -/
lemma top_cons {b : ℕ} (h : FreeList s dev (b :: L)) :
    nfree (s.sb dev) ≠ 0 ∧ free (s.sb dev) (nfree (s.sb dev) - 1) ≠ 0 := by
  obtain ⟨hpos, -, htop, hb0, -⟩ := h
  exact ⟨by omega, htop ▸ hb0⟩

lemma top_nil (h : FreeList s dev []) :
    nfree (s.sb dev) = 0 ∨ free (s.sb dev) (nfree (s.sb dev) - 1) = 0 :=
  h.imp_right And.right

/-- **One step** of either program. -/
lemma follows_iff {r : Request} (h : FreeList s dev L) (hk : KeptList s dev L)
    (ha : Allowed (s.sb dev) L r.call) : Follows dev s L r ↔ Fine dev s r := by
  cases r with
  | kernel c =>
      cases c with
      | alloc =>
          cases hro : flock (s.sb dev) with
          | false =>
              obtain ⟨hev, hback⟩ : _ ∧ Backs (serveBlock dev s .alloc).2 dev (s.sb dev) _ :=
                Backs.alloc ⟨h, hk, .refl _, hro⟩
              simp only [Follows, Fine, serve, Request.call]
              exact iff_of_true ⟨hev, hback.list⟩ (Or.inl hro)
          | true =>
              simp only [Follows, Fine, serve, serveBlock, Request.call, balloc_ronly hro, hro,
                if_true]
              cases L with
              | nil => exact iff_of_true ⟨rfl, h⟩ (Or.inr (top_nil h))
              | cons b L =>
                  obtain ⟨hn, htop⟩ := top_cons h
                  exact iff_of_false (fun hc => by cases hc.1) (by simp [hn, htop])
      | free b =>
          simp only [Follows, Fine, serve, serveBlock, Request.call, Lifo.serve, true_and, iff_true]
          exact h.bfree ha.1 ha.2 (one_notMem_of_kept hk)
  | host c junk =>
      cases c with
      | alloc =>
          simp only [Follows, Fine, serve, Request.call, report_snd]
          cases L with
          | nil =>
              obtain ⟨h0, hiff⟩ := balloc_nil h
              simp only [Lifo.serve, report_full h0, true_and]
              exact hiff
          | cons b L =>
              obtain ⟨hb, hlist⟩ := balloc_cons h hk
              obtain ⟨hn, htop⟩ := top_cons h
              have hb0 : b ≠ 0 := (hk.2 b List.mem_cons_self).ne_zero
              exact iff_of_true ⟨report_got hb hb0, hlist⟩ ⟨hn, fun e => absurd e htop⟩
      | free b =>
          simp only [Follows, Fine, serve, Request.call, Lifo.serve, true_and]
          exact bfree_iff h hk ha.1 ha.2

/-- The library's `balloc` leaves the bounds of the file blocks alone. -/
lemma balloc_sameRange (h : FreeList s dev L) : SameRange (s.sb dev) ((balloc s dev).2.sb dev) := by
  have hle : nfree (s.sb dev) ≤ 100 := Represents.le h
  have hout := sameOutside_setNfree (s.sb dev)
  by_cases hn : nfree (s.sb dev) = 0
  · rw [balloc_none hn, Sys.put_sb_self]
    exact sameRange_of_sameOutside (hout _)
  · by_cases h0 : free (s.sb dev) (nfree (s.sb dev) - 1) = 0
    · rw [balloc_sentinel hn hle h0, Sys.put_sb_self]
      exact sameRange_of_sameOutside (hout _)
    · by_cases h1 : nfree (s.sb dev) = 1
      · rw [h1] at h0
        rw [balloc_chain h1 rfl h0, Sys.put_sb_self]
        exact sameRange_setFmod ((hout 0).trans (sameOutside_refill _ _))
      · rw [balloc_pop (by omega) hle rfl h0, Sys.put_sb_self]
        exact sameRange_setFmod (hout _)

lemma bfree_sameRange (s : Sys) (junk : Bytes) (b dev : ℕ) :
    SameRange (s.sb dev) ((bfree s junk b dev).sb dev) := by
  rcases lt_or_ge (nfree (s.sb dev)) 100 with hn | hn
  · rw [bfree_push hn, Sys.put_sb_self]
    exact sameRange_setFmod ((sameOutside_setFree _ b hn).trans (sameOutside_setNfree _ _))
  · rw [bfree_spill hn, Sys.put_sb_self]
    exact sameRange_setFmod (((sameOutside_setNfree _ 0).trans
      (sameOutside_setFree _ b (by omega))).trans (sameOutside_setNfree _ 1))

/-- No step moves the bounds of the file blocks. -/
lemma serve_sameRange {r : Request} (h : FreeList s dev L) (hk : KeptList s dev L)
    (ha : Allowed (s.sb dev) L r.call) : SameRange (s.sb dev) ((serve dev s r).2.sb dev) := by
  cases r with
  | kernel c =>
      cases c with
      | alloc =>
          cases hro : flock (s.sb dev) with
          | false =>
              obtain ⟨-, hback⟩ : _ ∧ Backs (serveBlock dev s .alloc).2 dev (s.sb dev) _ :=
                Backs.alloc ⟨h, hk, .refl _, hro⟩
              exact sameRange_of_sameOutside hback.same
          | true =>
              simp only [serve, serveBlock, balloc_ronly hro]
              exact ⟨rfl, rfl⟩
      | free b =>
          simp only [serve, serveBlock]
          exact sameRange_of_sameOutside (bfree_sb (InRange.ne_one ha.1))
  | host c junk =>
      cases c with
      | alloc =>
          simp only [serve, report_snd]
          exact balloc_sameRange h
      | free b =>
          simp only [serve]
          exact bfree_sameRange s junk b dev

/-- What the discipline says of the first call. -/
lemma allowed_head {sb : Bytes} {c : Lifo.Call ℕ} {cs : List (Lifo.Call ℕ)}
    (hd : Lifo.Disciplined (InRange sb) L (c :: cs)) :
    Allowed sb L c ∧ Lifo.Disciplined (InRange sb) (Lifo.serve L c).2 cs := by
  cases c with
  | alloc => exact ⟨trivial, hd⟩
  | free b => exact ⟨⟨hd.1, hd.2.1⟩, hd.2.2⟩

lemma kept_serve {sb : Bytes} {c : Lifo.Call ℕ} (hk : Lifo.Kept (InRange sb) L)
    (ha : Allowed sb L c) : Lifo.Kept (InRange sb) (Lifo.serve L c).2 := by
  cases c with
  | alloc => exact hk.alloc
  | free b => exact hk.free ha.1 ha.2

lemma allowed_congr {sb sb' : Bytes} {c : Lifo.Call ℕ} (h : SameRange sb sb')
    (ha : Allowed sb L c) : Allowed sb' L c := by
  cases c with
  | alloc => trivial
  | free b => exact ⟨h.inRange.mpr ha.1, ha.2⟩

section Run

variable {sb : Bytes} {rs : List Request}

/-- **Runs.**  As long as the steps follow the list it stays well kept, so that the next one follows
it if and only if it is fine. -/
lemma eachStep_iff (h : FreeList s dev L) (hk : Lifo.Kept (InRange sb) L)
    (hs : SameRange sb (s.sb dev)) (hd : Lifo.Disciplined (InRange sb) L (rs.map Request.call)) :
    EachStep (Follows dev) dev s L rs ↔ EachStep (fun s _ r => Fine dev s r) dev s L rs := by
  induction rs generalizing s L with
  | nil => rfl
  | cons r rs ih =>
      obtain ⟨ha, hd⟩ := allowed_head hd
      have ha' := allowed_congr hs ha
      have hstep := follows_iff h (hs.kept hk) ha'
      simp only [EachStep]
      rw [hstep]
      refine and_congr_right fun hfine => ?_
      have hf := hstep.mpr hfine
      have hsr := serve_sameRange h (hs.kept hk) ha'
      exact ih hf.2 (kept_serve hk ha) ⟨hsr.1.trans hs.1, hsr.2.trans hs.2⟩ hd

/-- A run whose steps all follow the list shows what the list shows. -/
lemma serveAll_eq (h : EachStep (Follows dev) dev s L rs) :
    (serveAll dev s rs).1 = (Lifo.serveAll L (rs.map Request.call)).1 := by
  induction rs generalizing s L with
  | nil => rfl
  | cons r rs ih =>
      obtain ⟨hf, hrest⟩ := h
      simp only [serveAll, List.map_cons, Lifo.serveAll, hf.1, ih hrest]

end Run

/-- **One free list.**  In any sequence of calls of the two programs that gives back no free block,
the steps are the pops and pushes of the list if and only if each is `Fine`; and then no block is
handed out twice without having been given back. -/
theorem mixed_free_list (h : FreeList s dev L) (hk : KeptList s dev L) (rs : List Request)
    (hd : Lifo.Disciplined (InRange (s.sb dev)) L (rs.map Request.call)) :
    (EachStep (Follows dev) dev s L rs ↔ EachStep (fun s _ r => Fine dev s r) dev s L rs) ∧
      (EachStep (fun s _ r => Fine dev s r) dev s L rs → ∀ b pre mid post,
        (serveAll dev s rs).1 = pre ++ .got b :: (mid ++ .got b :: post) → .freed b ∈ mid) := by
  have hiff := eachStep_iff h hk ⟨rfl, rfl⟩ hd
  refine ⟨hiff, ?_⟩
  intro hfine b pre mid post hev
  rw [serveAll_eq (hiff.mpr hfine)] at hev
  exact Lifo.handed_out_once hk hd hev

/-- On the small device the two programs take and give back its block in turn. -/
theorem mixed_free_list_small :
    EachStep (Follows 0) 0 (smallDisk .IFREG) [2]
      [.host .alloc zero, .host (.free 2) zero, .kernel .alloc] := by
  have hd : Lifo.Disciplined (InRange ((smallDisk .IFREG).sb 0)) [2]
      ([.host .alloc zero, .host (.free 2) zero, .kernel .alloc].map Request.call) :=
    ⟨(smallDisk_inRange _ 2).mpr rfl, by simp [Lifo.serve], trivial⟩
  refine (mixed_free_list (smallDisk_freeList .IFREG) (smallDisk_kept .IFREG) _ hd).1.mpr ?_
  refine ⟨⟨?_, ?_⟩, Or.inl ?_, Or.inl ?_, trivial⟩ <;> decide +kernel

/-- A full device: block 2 belongs to a file, whose data are the words 1 and 2. -/
def fullDisk : Sys where
  blk _ n :=
    if n = 1 then setNfree (setWord zero 1 3) 1
    else if n = 2 then setWord (setWord zero 0 1) 1 2 else zero
  ino _ := ⟨0, .IFREG, false, fun k => if k = 0 then 2 else 0, 4, 0, 0, false, false, false⟩
  error := none
  seconds := 0
  stack := 0

/-- **A block handed out twice.**  The kernel finds the list empty and leaves `s_nfree` 0; then the
library gives back block 2, and the next two calls both hand it out. -/
theorem host_bfree_hands_out_twice :
    FreeList fullDisk 0 [] ∧ KeptList fullDisk 0 [] ∧
      Lifo.Disciplined (InRange (fullDisk.sb 0)) [] [.alloc, .free 2, .alloc, .alloc] ∧
      (serveAll 0 fullDisk
        [.kernel .alloc, .host (.free 2) zero, .kernel .alloc, .kernel .alloc]).1 =
        [.full, .freed 2, .got 2, .got 2] ∧
      ¬EachStep (Follows 0) 0 fullDisk []
        [.kernel .alloc, .host (.free 2) zero, .kernel .alloc, .kernel .alloc] := by
  have hev : (serveAll 0 fullDisk
      [.kernel .alloc, .host (.free 2) zero, .kernel .alloc, .kernel .alloc]).1 =
        [.full, .freed 2, .got 2, .got 2] := by decide +kernel
  refine ⟨Or.inr ⟨by decide +kernel, by decide +kernel⟩, ⟨List.nodup_nil, by simp⟩, ?_, hev, ?_⟩
  · exact ⟨⟨by decide +kernel, by decide +kernel⟩, by simp [Lifo.serve], trivial⟩
  · intro hall
    exact absurd (hev.symm.trans (serveAll_eq hall)) (by decide)

end Fslib

end Micronix
