import Mathlib.Data.List.Chain
import Micronix.Mem.Swapmap

/-!
# Neighbours in the swap map

`sfree` goes back to the entry before the new one, and its joining loop stops at once when that
entry does not reach the new one.  The new entry is then never joined with the entry after it.

As long as this case does not come up, the entries have gaps between them.  Each gap is the place of
an extent in use, so there is room for as many extents as there are processes.
-/

namespace Micronix

open Extent

namespace Swapmap

/-- `NPROC` -/
def nproc : ℕ := 20

/-- The entries before the terminator. -/
def entries (m : Swapmap) : List Extent :=
  ((List.range' 0 mapsize).map m).takeWhile fun e => e.size ≠ 0

/-- No two neighbouring entries are adjacent. -/
def Coalesced (m : Swapmap) : Prop := m.entries.IsChain fun e f => e.top ≠ f.addr

instance (m : Swapmap) : Decidable m.Coalesced := inferInstanceAs (Decidable (List.IsChain _ _))

/-- The entry before the extent, if there is one, reaches it, or the entry after it begins later. -/
def Joins (m : Swapmap) (e : Extent) : Prop :=
  (∃ f ∈ m.entries, f.addr < e.addr) →
    (∃ f ∈ m.entries, f.top = e.addr) ∨ ∀ f ∈ m.entries, f.addr ≠ e.top

instance (m : Swapmap) (e : Extent) : Decidable (m.Joins e) :=
  inferInstanceAs (Decidable (_ → _))

variable {m : Swapmap} {z i size : ℕ} {e : Extent} {L A B : List Extent}

lemma Lists.takeWhile (L : List Extent) : ∀ {i n : ℕ}, Lists z m i L → L.length < n →
    ((List.range' i n).map m).takeWhile (fun e => e.size ≠ 0) = L := by
  induction L with
  | nil =>
      rintro i (_ | n) h hn
      · simp at hn
      · simp [List.range'_succ, h.1]
  | cons e L ih =>
      rintro i (_ | n) ⟨h0, hpos, hrest⟩ hn
      · simp at hn
      · have hne : e.size ≠ 0 := Nat.ne_of_gt hpos
        have htail := ih hrest (Nat.lt_of_succ_lt_succ hn)
        simp only [List.range'_succ, List.map_cons, h0, List.takeWhile_cons, decide_eq_true hne, if_true]
        rw [htail]

lemma Lists.entries (h : Lists z m 0 L) (hlen : L.length < mapsize) : m.entries = L :=
  Lists.takeWhile L h hlen

/-- `salloc` leaves gaps between the entries. -/
lemma Cut.gap {o : Option ℕ} {L' : List Extent} (h : Cut size L o L') (hs : L.Pairwise Gap) :
    L'.Pairwise Gap := by
  rcases h with ⟨-, rfl⟩ | ⟨A, e, B, rfl, -, hle, ⟨-, rfl⟩ | ⟨-, rfl⟩⟩
  · exact hs
  · exact hs.sublist ((List.sublist_cons_self e B).append_left A)
  · rw [List.pairwise_append, List.pairwise_cons] at hs ⊢
    obtain ⟨hA, ⟨he, hB⟩, hAB⟩ := hs
    refine ⟨hA, ⟨fun f hf => ?_, hB⟩, fun d hd f hf => ?_⟩
    · have := he f hf
      unfold Gap top at this ⊢
      dsimp only
      omega
    · rcases List.mem_cons.mp hf with rfl | hf
      · have := hAB d hd e List.mem_cons_self
        unfold Gap at this ⊢
        dsimp only
        omega
      · exact hAB d hd f (List.mem_cons_of_mem e hf)

/-- Neighbours with gaps between them, in a list that is sorted. -/
lemma isChain_iff_gap (hs : L.Pairwise Below) (hpos : ∀ e ∈ L, 0 < e.size) :
    (L.IsChain fun e f => e.top ≠ f.addr) ↔ L.Pairwise Gap := by
  induction L with
  | nil => simp
  | cons e L ih =>
      obtain ⟨he, hL⟩ := List.pairwise_cons.mp hs
      have ih := ih hL fun f hf => hpos f (List.mem_cons_of_mem e hf)
      cases L with
      | nil => simp
      | cons f L =>
          rw [List.isChain_cons_cons, ih, List.pairwise_cons (a := e)]
          constructor
          · rintro ⟨hne, hgap⟩
            have hfirst : Gap e f := Nat.lt_of_le_of_ne (he f List.mem_cons_self) hne
            refine ⟨fun g hg => ?_, hgap⟩
            rcases List.mem_cons.mp hg with rfl | hg
            · exact hfirst
            · have := (List.pairwise_cons.mp hgap).1 g hg
              unfold Gap top at hfirst this ⊢
              omega
          · rintro ⟨hgap, hrest⟩
            exact ⟨Nat.ne_of_lt (hgap f List.mem_cons_self), hrest⟩

/-! ## `sfree` -/

lemma absorb_addr {f : Extent} (L : List Extent) : ∀ {e : Extent}, f ∈ e.absorb L →
    f.addr = e.addr ∨ f ∈ L := by
  induction L with
  | nil =>
      intro e hf
      left
      rw [List.mem_singleton.mp hf]
  | cons g L ih =>
      intro e hf
      rw [absorb] at hf
      split_ifs at hf
      · rcases ih hf with h | h
        · exact Or.inl h
        · exact Or.inr (List.mem_cons_of_mem g h)
      · rcases List.mem_cons.mp hf with rfl | h
        · exact Or.inl rfl
        · exact Or.inr h

/-- The extent that takes in others keeps its gap to what lies before it. -/
lemma gap_append_absorb {d : Extent} (hA : A.Pairwise Gap) (hd : (d.absorb B).Pairwise Gap)
    (hAd : ∀ a ∈ A, Gap a d) (hAB : ∀ a ∈ A, ∀ b ∈ B, Gap a b) :
    (A ++ d.absorb B).Pairwise Gap := by
  refine List.pairwise_append.mpr ⟨hA, hd, fun a ha f hf => ?_⟩
  rcases absorb_addr B hf with h | h
  · have := hAd a ha
    unfold Gap at this ⊢
    omega
  · exact hAB a ha f h

/-- **The four cases of `sfree`.**  The entry before the new one reaches it or does not, and the
entry after it begins at its end or does not; the gaps are kept but for one of them. -/
lemma freed_gap_iff (hgap : (A ++ B).Pairwise Gap) (hs : (A ++ e :: B).Pairwise Below)
    (hpos : ∀ f ∈ A ++ e :: B, 0 < f.size) :
    (freed e A B).Pairwise Gap ↔
      ((∃ f ∈ A ++ B, f.addr < e.addr) →
        (∃ f ∈ A ++ B, f.top = e.addr) ∨ ∀ f ∈ A ++ B, f.addr ≠ e.top) := by
  obtain ⟨hA, hB, hAB⟩ := List.pairwise_append.mp hgap
  obtain ⟨-, hsB, hsA⟩ := List.pairwise_append.mp hs
  have heB : ∀ f ∈ B, Below e f := (List.pairwise_cons.mp hsB).1
  have hApos : ∀ f ∈ A, 0 < f.size := fun f hf => hpos f (by simp [hf])
  have hepos : 0 < e.size := hpos e (by simp)
  have hBpos : ∀ f ∈ B, 0 < f.size := fun f hf => hpos f (by simp [hf])
  rcases List.eq_nil_or_concat A with rfl | ⟨A, d, rfl⟩
  · -- the new entry is the first
    refine iff_of_true (absorb_gap hB heB) fun ⟨f, hf, hlt⟩ => ?_
    have := heB f hf
    unfold Below top at this
    omega
  simp only [List.concat_eq_append, List.mem_append, List.mem_singleton] at *
  have hde : Below d e := hsA d (Or.inr rfl) e List.mem_cons_self
  have hdB : ∀ f ∈ B, Gap d f := hAB d (Or.inr rfl)
  obtain ⟨hA, -, hAd⟩ := List.pairwise_append.mp hA
  have hAd : ∀ a ∈ A, Gap a d := fun a ha => hAd a ha d (List.mem_singleton_self d)
  have hfreed : freed e (A ++ [d]) B = A ++ d.absorb (e :: B) := by simp [freed]
  rw [hfreed]
  by_cases htouch : d.top = e.addr
  · -- the entry before it takes in the new one
    have habs : d.absorb (e :: B) = absorb ⟨d.size + e.size, d.addr⟩ B := if_pos htouch
    rw [habs]
    refine iff_of_true (gap_append_absorb hA (absorb_gap hB fun f hf => ?_) (fun a ha => hAd a ha)
      fun a ha => hAB a (Or.inl ha)) fun _ => Or.inl ⟨d, Or.inl (Or.inr rfl), htouch⟩
    have := heB f hf
    unfold top at htouch
    unfold Below top at this ⊢
    dsimp only
    omega
  · -- the joining loop stops at once
    have habs : d.absorb (e :: B) = d :: e :: B := if_neg htouch
    rw [habs]
    have hlt : d.addr < e.addr := by
      have := hApos d (Or.inr rfl)
      unfold Below top at hde
      omega
    have hno : ¬∃ f, ((f ∈ A ∨ f = d) ∨ f ∈ B) ∧ f.top = e.addr := by
      rintro ⟨f, (hf | rfl) | hf, ht⟩
      · have := hAd f hf
        unfold Gap at this
        omega
      · exact htouch ht
      · have := heB f hf
        unfold Below top at this
        unfold top at ht
        omega
    constructor
    · intro h _
      right
      rintro f ((hf | rfl) | hf) heq
      · have := hAd f hf
        unfold Gap top at this
        unfold top at heq
        omega
      · unfold top at heq
        omega
      · have hrest := (List.pairwise_cons.mp (List.pairwise_append.mp h).2.1).2
        have := (List.pairwise_cons.mp hrest).1 f hf
        unfold Gap at this
        omega
    · intro h
      have hne := (h ⟨d, Or.inl (Or.inr rfl), hlt⟩).resolve_left hno
      have hgde : Gap d e := Nat.lt_of_le_of_ne hde htouch
      have hgeB : ∀ f ∈ B, Gap e f := fun f hf =>
        Nat.lt_of_le_of_ne (heB f hf) fun ht => hne f (Or.inr hf) ht.symm
      refine List.pairwise_append.mpr ⟨hA, List.pairwise_cons.mpr ⟨fun f hf => ?_,
        List.pairwise_cons.mpr ⟨hgeB, hB⟩⟩, fun a ha f hf => ?_⟩
      · rcases List.mem_cons.mp hf with rfl | hf
        · exact hgde
        · exact hdB f hf
      · rcases List.mem_cons.mp hf with rfl | hf
        · exact hAd a ha
        · rcases List.mem_cons.mp hf with rfl | hf
          · have := hAd a ha
            unfold Gap at this hgde ⊢
            unfold top at hgde
            omega
          · exact hAB a (Or.inl ha) f hf

end Swapmap

/-! ## Runs -/

namespace Swap

open Swapmap

/-- There are never more extents in use than processes. -/
def Few (s : Swap) (l : Label) : Prop := ∀ s' ∈ s.step l, s'.live.length ≤ nproc

instance (s : Swap) (l : Label) : Decidable (s.Few l) :=
  inferInstanceAs (Decidable (∀ s' ∈ s.step l, _))

/-- And what is freed does not lie between an entry that ends before it and one that begins where it
ends. -/
def Fits (s : Swap) : Label → Prop
  | .salloc size => s.Few (.salloc size)
  | .sfree e => s.Few (.sfree e) ∧ s.map.Joins e

instance (s : Swap) (l : Label) : Decidable (s.Fits l) := by
  cases l
  · exact inferInstanceAs (Decidable (s.Few _))
  · exact inferInstanceAs (Decidable (_ ∧ _))

/-- A sound map whose entries have gaps between them.  What `salloc` gives away has no gap before it,
so there are no more entries than processes, although there is place for one more. -/
structure Spaced (lo hi : ℕ) (s : Swap) (L : List Extent) : Prop where
  sound : Swapmap.Sound lo hi s.map s.live L
  gap : L.Pairwise Gap
  few : s.live.length ≤ nproc
  length : L.length ≤ nproc

variable {s s' : Swap} {l : Label} {e : Extent} {L : List Extent} {lo hi swapsize swapaddr : ℕ}

lemma Spaced.room (h : Spaced lo hi s L) : L.length + 2 ≤ mapsize := by
  have hlen := h.length
  rw [nproc] at hlen
  rw [mapsize]
  omega

lemma Spaced.entries (h : Spaced lo hi s L) : s.map.entries = L := by
  obtain ⟨z, hl, -⟩ := h.sound.lists
  exact hl.entries h.sound.length

lemma coalesced_iff (h : Swapmap.Sound lo hi s.map s.live L) : s.map.Coalesced ↔ L.Pairwise Gap := by
  obtain ⟨z, hl, -⟩ := h.lists
  rw [Coalesced, hl.entries h.length]
  exact isChain_iff_gap h.sorted hl.pos

/-- `sfree` of an extent in use: it has room, and the entries have gaps between them if and only if
it joins what it can. -/
lemma Spaced.sfree (h : Spaced lo hi s L) (he : e ∈ s.live) :
    ∃ s' L', s.step (.sfree e) = some s' ∧ Swapmap.Sound lo hi s'.map s'.live L' ∧
      s'.live = s.live.erase e ∧ (L'.Pairwise Gap ↔ s.map.Joins e) := by
  obtain ⟨A, B, m', rfl, hsort, hm, hs⟩ := h.sound.sfree he h.room
  refine ⟨⟨m', s.live.erase e⟩, _, by rw [step, if_pos he, hm, Option.map_some], hs, rfl, ?_⟩
  obtain ⟨z, hl, -⟩ := h.sound.lists
  rw [freed_gap_iff h.gap hsort fun f hf => ?_, Joins, h.entries]
  have hf' : f = e ∨ f ∈ A ++ B := by simpa [or_left_comm] using hf
  rcases hf' with rfl | hf
  · exact h.sound.live f he
  · exact hl.pos f hf

/-- One step: the new extent of `salloc` lies at the beginning of an entry, and after `sfree` there
is at most one more entry than extents in use. -/
lemma Spaced.step (h : Spaced lo hi s L) (hok : s.Fits l) (hs : s.step l = some s') :
    ∃ L', Spaced lo hi s' L' := by
  cases l with
  | salloc size =>
      have hfew := hok s' hs
      rw [Swap.step] at hs
      split_ifs at hs with hpos
      obtain ⟨o, m', L', hm, hcut, h'⟩ := h.sound.salloc hpos
      rw [hm, Option.map_some] at hs
      obtain rfl := Option.some.inj hs
      exact ⟨L', h', hcut.gap h.gap, hfew, Nat.le_trans hcut.length h.length⟩
  | sfree e =>
      have he : e ∈ s.live := by
        by_contra hn
        rw [Swap.step, if_neg hn] at hs
        cases hs
      obtain ⟨t, L', ht, hsound, hlive, hgap⟩ := h.sfree he
      rw [ht] at hs
      obtain rfl := Option.some.inj hs
      have hgap := hgap.mpr hok.2
      have hfew := hok.1 t ht
      refine ⟨L', hsound, hgap, hfew, ?_⟩
      obtain ⟨z, hl, -⟩ := hsound.lists
      have hle := hsound.tiles.length_le hgap hl.pos
      have hone := List.length_erase_of_mem he
      have hpos := List.length_pos_of_mem he
      have hold := h.few
      rw [hlive] at hle
      omega

lemma spaced_swapinit (h : swapaddr + swapsize ≤ 65535) :
    ∃ L, Spaced swapaddr (swapaddr + swapsize) ⟨swapinit swapsize swapaddr, []⟩ L := by
  obtain ⟨L, hL⟩ := sound_swapinit h
  have hlen : L.length ≤ 1 := by
    obtain ⟨z, hl, -⟩ := hL.lists
    cases L with
    | nil => exact Nat.zero_le 1
    | cons e L =>
        cases L with
        | nil => exact Nat.le_refl 1
        | cons f L =>
            obtain ⟨-, -, h1, hpos, -⟩ := hl
            rw [← h1] at hpos
            simp [swapinit] at hpos
  refine ⟨L, hL, ?_, Nat.zero_le _, Nat.le_trans hlen (by decide)⟩
  match L, hlen with
  | [], _ => exact .nil
  | [e], _ => exact List.pairwise_singleton ..

/-- **The neighbours in the swap map.**  In every run in which each `sfree` finds that the entry
before the extent reaches it, if there is one, or that none begins at its end, no two neighbouring
entries are ever adjacent, the map with its terminator fits in the array, and inserting an extent
in use does too.  Each other `sfree` leaves neighbours that are adjacent. -/
theorem swapmap_coalesced (hspace : swapaddr + swapsize ≤ 65535)
    (h : Transition.Reach step (Start swapsize swapaddr) Fits s) :
    s.map.Coalesced ∧ s.map.entries.length + 1 ≤ mapsize ∧
      ∀ e ∈ s.live, ∃ s', s.step (.sfree e) = some s' ∧ (s'.map.Coalesced ↔ s.map.Joins e) := by
  obtain ⟨L, hs⟩ : ∃ L, Spaced swapaddr (swapaddr + swapsize) s L := by
    refine h.invariant (I := fun s => ∃ L, Spaced _ _ s L) ?_ ?_
    · rintro s rfl
      exact spaced_swapinit hspace
    · rintro s l s' ⟨L, hL⟩ hok he
      exact hL.step hok he
  refine ⟨(coalesced_iff hs.sound).mpr hs.gap, ?_, fun e he => ?_⟩
  · rw [hs.entries]
    exact hs.sound.length
  · obtain ⟨s', L', hstep, hsound, -, hgap⟩ := hs.sfree he
    exact ⟨s', hstep, (coalesced_iff hsound).trans hgap⟩

/-- Three extents, freed from the first on. -/
theorem swapmap_coalesced_upward : ∃ s : Swap, s.live = [⟨4, 112⟩] ∧ s.map.Coalesced ∧
    s.map.entries.length + 1 ≤ mapsize ∧
    ∀ e ∈ s.live, ∃ s', s.step (.sfree e) = some s' ∧ (s'.map.Coalesced ↔ s.map.Joins e) := by
  have hrun : (Transition.run step Fits ⟨swapinit 50 100, []⟩
      [.salloc 8, .salloc 4, .salloc 4, .sfree ⟨8, 100⟩, .sfree ⟨4, 108⟩]).map (fun s => s.live)
      = some [⟨4, 112⟩] := by
    decide +kernel
  obtain ⟨s, hs, hlive⟩ := Option.map_eq_some_iff.mp hrun
  obtain ⟨hc, hlen, hfree⟩ := swapmap_coalesced (by decide : 100 + 50 ≤ 65535) (.of_run rfl hs)
  exact ⟨s, hlive, hc, hlen, hfree⟩

/-- The last of three extents is freed after the first: it is not joined with the rest of swap space.
When twenty extents were freed so, another one has no room in the array. -/
theorem sfree_leaves_neighbours :
    (∃ s, Transition.Reach step (Start 50 100) Few s ∧ s.live = [⟨1, 101⟩] ∧ ¬s.map.Coalesced) ∧
    ∃ s e, Transition.Reach step (Start 50 100) Few s ∧ e ∈ s.live ∧ s.step (.sfree e) = none := by
  constructor
  · have hrun : (Transition.run step Few ⟨swapinit 50 100, []⟩
        [.salloc 1, .salloc 1, .salloc 1, .sfree ⟨1, 100⟩, .sfree ⟨1, 102⟩]).map
        (fun s => (s.live, decide s.map.Coalesced)) = some ([⟨1, 101⟩], false) := by
      decide +kernel
    obtain ⟨s, hs, hend⟩ := Option.map_eq_some_iff.mp hrun
    obtain ⟨hlive, hc⟩ := Prod.mk.inj hend
    exact ⟨s, .of_run rfl hs, hlive, of_decide_eq_false hc⟩
  · have hrun : (Transition.run step Few ⟨swapinit 50 100, []⟩
        (List.replicate 20 (.salloc 1) ++ .sfree ⟨1, 100⟩ ::
          ((List.range 18).map fun i => .sfree ⟨1, 119 - i⟩) ++
          [.salloc 2, .salloc 2, .salloc 2, .sfree ⟨2, 124⟩])).map
        (fun s => (decide (⟨2, 122⟩ ∈ s.live), (s.step (.sfree ⟨2, 122⟩)).isNone))
        = some (true, true) := by
      decide +kernel
    obtain ⟨s, hs, hend⟩ := Option.map_eq_some_iff.mp hrun
    obtain ⟨hlive, hnone⟩ := Prod.mk.inj hend
    exact ⟨s, ⟨2, 122⟩, .of_run rfl hs, of_decide_eq_true hlive, Option.isNone_iff_eq_none.mp hnone⟩

end Swap

end Micronix
