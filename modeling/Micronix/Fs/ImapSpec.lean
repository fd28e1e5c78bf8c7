import Micronix.Fs.Moves
import Mathlib.Order.BooleanAlgebra.Set

/-!
# What `imap` does

Each routine of `imap.c` either finds or fills the places on the way to a data block, or stops
because `balloc` had nothing to give.  `Found` states the two outcomes together with the exact
number of free blocks that the first one takes; `imap_spec` is the only fact about `imap` that the
rest of the development uses.
-/

namespace Micronix

open Bytes Super

/-- The outcome of looking for a block number with `n` blocks to be allocated on the way: the
number `v` at place `x`, `n` blocks having left the free list `L`, or 0 and an error because the
device is read-only or has fewer than `n` free blocks. -/
def Found (s s' : Sys) (dev : ℕ) (L : List ℕ) (F : Set ℕ) (x : ℕ × Slot) (n v : ℕ) : Prop :=
  (v = place s' dev x ∧ v ≠ 0 ∧ s'.error = none ∧ n ≤ L.length ∧
      (n = 0 ∨ flock (s.sb dev) = false) ∧ Owned s' dev (L.drop n) F) ∨
  (v = 0 ∧ s'.error ≠ none ∧ (L.length < n ∨ n ≠ 0 ∧ flock (s.sb dev) = true) ∧
      ∃ L', Owned s' dev L' F)

/-- 1 if the place is empty. -/
def hole (s : Sys) (dev : ℕ) (x : ℕ × Slot) : ℕ := if place s dev x = 0 then 1 else 0

section Plug

variable {s : Sys} {dev : ℕ} {L : List ℕ} {F : Set ℕ} {p : Ptr} {x : ℕ × Slot}

/-- `plug` at an empty place takes the head of the free list and installs it there. -/
lemma plug_ok {b : ℕ} (hp : Points s dev p x) (h : Owned s dev (b :: L) F)
    (hrw : flock (s.sb dev) = false) (h0 : place s dev x = 0) :
    (plug s p dev).1 = true ∧ (plug s p dev).2.error = none ∧
      Owned (plug s p dev).2 dev L F ∧
      place (plug s p dev).2 dev = Function.update (place s dev) x b ∧
      Grows s (plug s p dev).2 dev x.1 ∧ (plug s p dev).2.load p = b := by
  obtain ⟨hb, he, hz, ho, hpl, hg⟩ := h.balloc hrw x.1
  have hb0 : b ≠ 0 := (h.part.list_range b List.mem_cons_self).ne_zero
  have hp' : Points (balloc s dev).2 dev p x := hp.congr (balloc_ino s dev) hpl
  have h0' : place (balloc s dev).2 dev x = 0 := by rw [hpl, h0]
  obtain ⟨ho', hpl', hg'⟩ := hp'.fill ho (Set.mem_insert b F) hz h0'
  have hplug : plug s p dev = (true, (balloc s dev).2.store p b) := by
    simp [plug, hb, hb0, hp'.load, h0']
  have hF : insert b F \ {b} = F :=
    Set.insert_sdiff_self_of_notMem (h.part.list_hand b List.mem_cons_self)
  rw [hF] at ho'
  rw [hplug]
  refine ⟨rfl, ?_, ho', by rw [hpl', hpl], hg.trans hg', ?_⟩
  · cases p <;> exact he
  · cases p with
    | addr ip n => simp [Sys.load, Sys.store, Inode.setAddr]
    | word d bn k =>
        have hlt : b < 65536 := (h.part.list_range b List.mem_cons_self).lt
        simp [Sys.load, Sys.store, word_setWord_self hlt]

/-- Without a block to give `plug` fails and the place stays empty. -/
lemma plug_fail (hp : Points s dev p x) (h : Owned s dev L F)
    (hno : L = [] ∨ flock (s.sb dev) = true) (h0 : place s dev x = 0) :
    (plug s p dev).1 = false ∧ (plug s p dev).2.error ≠ none ∧
      Owned (plug s p dev).2 dev L F ∧ Grows s (plug s p dev).2 dev x.1 ∧
      (plug s p dev).2.load p = 0 := by
  obtain ⟨hb, he, ho, hpl, hg⟩ := h.balloc_fail hno x.1
  have hp' : Points (balloc s dev).2 dev p x := hp.congr (balloc_ino s dev) hpl
  have hplug : plug s p dev = (false, (balloc s dev).2) := by simp [plug, hb]
  rw [hplug]
  exact ⟨rfl, he, ho, hg, by rw [hp'.load, hpl, h0]⟩

end Plug

/-! ## Reading or filling one place -/

lemma setImod_grows (s : Sys) (dev ip : ℕ) : Grows s (setImod s ip) dev ip := by
  have hino : ∀ k, (setImod s ip).ino k = { s.ino k with imod := ((setImod s ip).ino k).imod } := by
    intro k
    by_cases hk : k = ip
    · subst hk
      simp [setImod]
    · simp [setImod, Sys.setIno_ino_ne hk]
  have hpl : place (setImod s ip) dev = place s dev :=
    place_congr (fun k => by rw [hino k]; exact ⟨rfl, rfl, rfl, rfl⟩) fun _ _ _ => rfl
  refine ⟨fun k hk => Sys.setIno_ino_ne hk, ⟨_, _, _, Sys.setIno_ino_self ..⟩, ?_, .refl _, rfl⟩
  exact byteAt_of_place (fun k => by rw [hino k]) hpl fun _ _ _ => rfl

/-- Ownership depends on the blocks of the device and on the maps of the inodes only. -/
lemma Owned.ino {s s' : Sys} {dev : ℕ} {L : List ℕ} {F : Set ℕ} (h : Owned s dev L F)
    (hblk : s'.blk dev = s.blk dev) (hino : ∀ k, SameMap (s.ino k) (s'.ino k)) :
    Owned s' dev L F := by
  have hsb : s'.sb dev = s.sb dev := congrFun hblk 1
  have hpl : place s' dev = place s dev := place_congr hino fun _ _ _ => by rw [hblk]
  refine ⟨?_, ?_⟩
  · rw [FreeList, hsb, hblk]
    exact h.list
  · rw [hpl, hsb]
    exact h.part

lemma Owned.setImod {s : Sys} {dev ip : ℕ} {L : List ℕ} {F : Set ℕ} (h : Owned s dev L F) :
    Owned (setImod s ip) dev L F := by
  refine h.ino rfl fun k => ?_
  by_cases hk : k = ip
  · subst hk
    simp [Micronix.setImod, SameMap]
  · simp [Micronix.setImod, Sys.setIno_ino_ne hk, SameMap]

lemma Owned.setError {s : Sys} {dev : ℕ} {L : List ℕ} {F : Set ℕ} (h : Owned s dev L F)
    (e : Option Errno) : Owned (s.setError e) dev L F :=
  h.ino rfl fun _ => .refl _

lemma setError_grows (s : Sys) (dev ip : ℕ) (e : Option Errno) :
    Grows s (s.setError e) dev ip :=
  ⟨fun _ _ => rfl, ⟨_, _, _, rfl⟩, fun _ _ => rfl, .refl _, rfl⟩

/-- The step that `imapi` and `imapb` share, up to the `IMOD` bit and `u.error`: the number at
`*p`, after `plug` if it was 0. -/
structure Filled (s s' : Sys) (dev : ℕ) (L : List ℕ) (F : Set ℕ) (x : ℕ × Slot) (v : ℕ) :
    Prop where
  grows : Grows s s' dev x.1
  found : Found s s' dev L F x (hole s dev x) v
  rest : v ≠ 0 → ∀ y, y ≠ x → place s' dev y = place s dev y

/-- The places do not depend on the `IMOD` bit. -/
lemma place_setImod (s : Sys) (dev ip : ℕ) : place (setImod s ip) dev = place s dev := by
  refine place_congr (fun k => ?_) fun _ _ _ => rfl
  by_cases hk : k = ip
  · subst hk
    simp [setImod, SameMap]
  · simp [setImod, Sys.setIno_ino_ne hk, SameMap]

/-- **`imapi`** finds or fills an entry of `i_addr[]`. -/
theorem imapi_spec {s : Sys} {dev ip n : ℕ} {L : List ℕ} {F : Set ℕ} (h : Owned s dev L F)
    (hd : (s.ino ip).dev = dev) (hio : (s.ino ip).fmt.iio = false) (hn : n < 8)
    (he : s.error = none) :
    Filled s (imapi s ip n).2 dev L F (ip, .addr n) (imapi s ip n).1.1 := by
  have hp : Points s dev (.addr ip n) (ip, .addr n) := .addr hd hio hn
  have hload := hp.load
  by_cases h0 : place s dev (ip, .addr n) = 0
  · have hl0 : s.load (.addr ip n) = 0 := by rw [hload, h0]
    have hhole : hole s dev (ip, .addr n) = 1 := if_pos h0
    by_cases hno : L = [] ∨ flock (s.sb dev) = true
    · obtain ⟨h1, he', ho, hg, hld⟩ := plug_fail hp h hno h0
      have himap : (imapi s ip n).1.1 = 0 ∧ (imapi s ip n).2 = (plug s (.addr ip n) dev).2 := by
        simp [imapi, hl0, hd, h1, hld]
      rw [himap.1, himap.2]
      refine ⟨hg, Or.inr ⟨rfl, he', ?_, L, ho⟩, fun hv => absurd rfl hv⟩
      rw [hhole]
      rcases hno with rfl | hro
      · exact Or.inl (by simp)
      · exact Or.inr ⟨by omega, hro⟩
    · obtain ⟨hL, hrw⟩ := not_or.mp hno
      obtain ⟨b, L, rfl⟩ := List.exists_cons_of_ne_nil hL
      have hrw' : flock (s.sb dev) = false := by simpa using hrw
      obtain ⟨h1, he', ho, hpl, hg, hld⟩ := plug_ok hp h hrw' h0
      have hb0 : b ≠ 0 := (h.part.list_range b List.mem_cons_self).ne_zero
      have himap : (imapi s ip n).1.1 = b ∧
          (imapi s ip n).2 = setImod (plug s (.addr ip n) dev).2 ip := by
        have hset : ∀ t : Sys, (setImod t ip).load (.addr ip n) = t.load (.addr ip n) := by
          intro t
          simp [Sys.load, setImod]
        simp [imapi, hl0, hd, h1, hset, hld]
      rw [himap.1, himap.2]
      refine ⟨hg.trans (setImod_grows _ dev ip), Or.inl ⟨?_, hb0, he', ?_, Or.inr hrw', ?_⟩, ?_⟩
      · rw [place_setImod, hpl, Function.update_self]
      · rw [hhole]
        simp
      · rw [hhole]
        exact ho.setImod
      · intro _ y hy
        rw [place_setImod, hpl, Function.update_of_ne hy]
  · have hl0 : s.load (.addr ip n) ≠ 0 := by rw [hload]; exact h0
    have himap : (imapi s ip n).1.1 = s.load (.addr ip n) ∧ (imapi s ip n).2 = s := by
      simp [imapi, hl0]
    have hhole : hole s dev (ip, .addr n) = 0 := if_neg h0
    rw [himap.1, himap.2]
    refine ⟨.refl .., Or.inl ⟨hload, hl0, he, ?_, ?_, ?_⟩, fun _ _ _ => rfl⟩
    · rw [hhole]
      omega
    · exact Or.inl hhole
    · rw [hhole]
      exact h

/-- **`imapb`** finds or fills a word of an indirect block. -/
theorem imapb_spec {s : Sys} {dev ind n : ℕ} {L : List ℕ} {F : Set ℕ} {x : ℕ × Slot}
    (h : Owned s dev L F) (hp : Points s dev (.word dev ind n) x) (hind : ind ≠ 0) :
    Filled s (imapb s ind n dev).2 dev L F x (imapb s ind n dev).1.1 := by
  set t := s.setError none with ht
  have hpt : Points t dev (.word dev ind n) x := hp.congr rfl rfl
  have hot : Owned t dev L F := h.setError none
  have hload := hpt.load
  have hplt : place t dev = place s dev := rfl
  have hgt : Grows s t dev x.1 := setError_grows s dev x.1 none
  by_cases h0 : place s dev x = 0
  · have hl0 : t.load (.word dev ind n) = 0 := by rw [hload, hplt, h0]
    have hhole : hole s dev x = 1 := if_pos h0
    by_cases hno : L = [] ∨ flock (s.sb dev) = true
    · obtain ⟨h1, he', ho, hg, hld⟩ := plug_fail hpt hot hno h0
      have himap : (imapb s ind n dev).1.1 = 0 ∧
          (imapb s ind n dev).2 = (plug t (.word dev ind n) dev).2 := by
        simp [imapb, hind, ← ht, hl0, hld]
      rw [himap.1, himap.2]
      refine ⟨hgt.trans hg, Or.inr ⟨rfl, he', ?_, L, ho⟩, fun hv => absurd rfl hv⟩
      rw [hhole]
      rcases hno with rfl | hro
      · exact Or.inl (by simp)
      · exact Or.inr ⟨by omega, hro⟩
    · obtain ⟨hL, hrw⟩ := not_or.mp hno
      obtain ⟨b, L, rfl⟩ := List.exists_cons_of_ne_nil hL
      have hrw' : flock (s.sb dev) = false := by simpa using hrw
      obtain ⟨h1, he', ho, hpl, hg, hld⟩ := plug_ok hpt hot hrw' h0
      have hb0 : b ≠ 0 := (h.part.list_range b List.mem_cons_self).ne_zero
      have himap : (imapb s ind n dev).1.1 = b ∧
          (imapb s ind n dev).2 = (plug t (.word dev ind n) dev).2 := by
        simp [imapb, hind, ← ht, hl0, hld]
      rw [himap.1, himap.2]
      refine ⟨hgt.trans hg, Or.inl ⟨?_, hb0, he', ?_, Or.inr hrw', ?_⟩, ?_⟩
      · rw [hpl, Function.update_self]
      · rw [hhole]
        simp
      · rw [hhole]
        exact ho
      · intro _ y hy
        rw [hpl, Function.update_of_ne hy, hplt]
  · have hl0 : t.load (.word dev ind n) ≠ 0 := by rw [hload, hplt]; exact h0
    have himap : (imapb s ind n dev).1.1 = t.load (.word dev ind n) ∧
        (imapb s ind n dev).2 = t := by
      simp [imapb, hind, ← ht, hl0]
    have hhole : hole s dev x = 0 := if_neg h0
    rw [himap.1, himap.2]
    refine ⟨hgt, Or.inl ⟨hload, hl0, rfl, ?_, ?_, ?_⟩, fun _ _ _ => rfl⟩
    · rw [hhole]
      omega
    · exact Or.inl hhole
    · rw [hhole]
      exact hot

/-- With no indirect block `imapb` gives up at once. -/
lemma imapb_zero (s : Sys) (n dev : ℕ) : imapb s 0 n dev = ((0, 0), s) := by simp [imapb]

/-! ## The walk in large addressing -/

lemma plug_larg (s : Sys) (p : Ptr) (dev k : ℕ) :
    ((plug s p dev).2.ino k).larg = (s.ino k).larg := by
  unfold plug
  dsimp only
  split_ifs
  · rw [balloc_ino]
  · cases p with
    | addr ip n =>
        by_cases hk : k = ip
        · subst hk
          simp [Sys.store, Inode.setAddr, balloc_ino]
        · simp [Sys.store, Sys.setIno_ino_ne hk, balloc_ino]
    | word d bn i => simp [Sys.store, balloc_ino]
  · rw [bfree_ino, balloc_ino]

lemma setImod_larg (s : Sys) (ip k : ℕ) : ((setImod s ip).ino k).larg = (s.ino k).larg := by
  by_cases hk : k = ip
  · subst hk
    simp [setImod]
  · simp [setImod, Sys.setIno_ino_ne hk]

/-- `imapi` does not convert. -/
lemma imapi_larg (s : Sys) (ip n k : ℕ) : ((imapi s ip n).2.ino k).larg = (s.ino k).larg := by
  unfold imapi
  dsimp only
  split_ifs
  · rw [setImod_larg, plug_larg]
  · rw [plug_larg]
  · rfl

/-- `imapb` does not convert. -/
lemma imapb_larg (s : Sys) (ind n dev k : ℕ) :
    ((imapb s ind n dev).2.ino k).larg = (s.ino k).larg := by
  by_cases hind : ind = 0
  · simp [imapb, hind]
  · by_cases h0 : (s.setError none).load (.word dev ind n) = 0
    · simp [imapb, hind, h0, plug_larg]
    · simp [imapb, hind, h0]

section Walk

variable {s s' s'' : Sys} {dev : ℕ} {L : List ℕ} {F : Set ℕ} {x y : ℕ × Slot} {n m v w : ℕ}

lemma Found.place (h : Found s s' dev L F x n v) (hv : v ≠ 0) : v = place s' dev x := by
  rcases h with h | h
  · exact h.1
  · exact absurd h.1 hv

lemma Found.owned (h : Found s s' dev L F x n v) : ∃ L', Owned s' dev L' F := by
  rcases h with h | h
  · exact ⟨_, h.2.2.2.2.2⟩
  · exact h.2.2.2

/-- Finding one place after another needs the blocks of both. -/
lemma Found.trans {ip : ℕ} (h : Found s s' dev L F x n v) (hg : Grows s s' dev ip) (hv : v ≠ 0)
    (h' : Owned s' dev (L.drop n) F → s'.error = none → Found s' s'' dev (L.drop n) F y m w) :
    Found s s'' dev L F y (n + m) w := by
  obtain ⟨-, -, he, hn, hro, ho⟩ | ⟨h0, -⟩ := h
  · have hlock := hg.sb.flock
    obtain ⟨hw, hw0, he', hm, hro', ho'⟩ | ⟨hw0, he', hno, ho'⟩ := h' ho he
    · rw [List.length_drop] at hm
      rw [List.drop_drop] at ho'
      refine Or.inl ⟨hw, hw0, he', by omega, ?_, ho'⟩
      rcases hro with rfl | hro
      · rcases hro' with rfl | hro'
        · exact Or.inl rfl
        · exact Or.inr (hlock ▸ hro')
      · exact Or.inr hro
    · refine Or.inr ⟨hw0, he', ?_, ho'⟩
      rw [List.length_drop] at hno
      rcases hno with hno | ⟨hm0, hro'⟩
      · exact Or.inl (by omega)
      · exact Or.inr ⟨by omega, hlock ▸ hro'⟩
  · exact absurd h0 hv

/-- Not finding the first place is not finding the second. -/
lemma Found.none (h : Found s s' dev L F x n 0) (m : ℕ) : Found s s' dev L F y (n + m) 0 := by
  obtain ⟨-, h0, -⟩ | ⟨-, he, hno, ho⟩ := h
  · exact absurd rfl h0
  · refine Or.inr ⟨rfl, he, ?_, ho⟩
    rcases hno with hno | ⟨hn0, hro⟩
    · exact Or.inl (by omega)
    · exact Or.inr ⟨by omega, hro⟩

end Walk

/-- The blocks the walk in large addressing has to allocate: the empty places on the way. -/
def needLarge (s : Sys) (dev ip log : ℕ) : ℕ :=
  if log / 256 < 7 then
    hole s dev (ip, .addr (log / 256)) + hole s dev (ip, .ind (log / 256) (log % 256))
  else
    hole s dev (ip, .addr 7) + hole s dev (ip, .ind 7 (log / 256 - 7))
      + hole s dev (ip, .dbl (log / 256 - 7) (log % 256))

/-- **The walk in large addressing** finds or fills every place on the way. -/
theorem imapLarge_spec {s : Sys} {dev ip log : ℕ} {L : List ℕ} {F : Set ℕ} (h : Owned s dev L F)
    (hd : (s.ino ip).dev = dev) (hio : (s.ino ip).fmt.iio = false)
    (hl : (s.ino ip).larg = true) (hlog : log < 32768) (he : s.error = none) :
    Grows s (imapLarge s ip log dev).2 dev ip ∧
      ((imapLarge s ip log dev).2.ino ip).larg = true ∧
      Found s (imapLarge s ip log dev).2 dev L F (ip, dataSlot true log) (needLarge s dev ip log)
        (imapLarge s ip log dev).1.1 := by
  have h1 := imapi_spec (n := min (log / 256) 7) h hd hio (by omega) he
  have hl1 : ((imapi s ip (min (log / 256) 7)).2.ino ip).larg = true := by rw [imapi_larg, hl]
  have hg1 := h1.grows
  have hhole : ∀ y, (imapi s ip (min (log / 256) 7)).1.1 ≠ 0 →
      y ≠ (ip, Slot.addr (min (log / 256) 7)) →
      hole (imapi s ip (min (log / 256) 7)).2 dev y = hole s dev y := by
    intro y hv hy
    rw [hole, hole, h1.rest hv y hy]
  unfold imapLarge needLarge dataSlot
  simp only [if_true]
  set r := imapi s ip (min (log / 256) 7) with hr
  have hd1 : (r.2.ino ip).dev = dev := by rw [hg1.dev, hd]
  by_cases h7 : log / 256 < 7
  · have hmin : min (log / 256) 7 = log / 256 := by omega
    rw [hmin] at h1 hhole
    rw [if_neg (by omega), if_pos h7, if_pos h7]
    by_cases hv : r.1.1 = 0
    · have hf := h1.found
      rw [hv] at hf ⊢
      rw [imapb_zero]
      exact ⟨hg1, hl1, hf.none _⟩
    · have hpl : r.1.1 = place r.2 dev (ip, .addr (log / 256)) := h1.found.place hv
      have hp : Points r.2 dev (.word dev r.1.1 (log % 256)) (ip, .ind (log / 256) (log % 256)) := by
        rw [hpl]
        exact .ind hd1 hl1 (by omega) (hpl ▸ hv)
      obtain ⟨L1, ho1⟩ := h1.found.owned
      refine ⟨hg1.trans (imapb_spec ho1 hp hv).grows, by rw [imapb_larg, hl1], ?_⟩
      refine h1.found.trans hg1 hv fun ho _ => ?_
      have h2 := (imapb_spec ho hp hv).found
      rwa [hhole _ hv (by simp)] at h2
  · have hmin : min (log / 256) 7 = 7 := by omega
    rw [hmin] at h1 hhole
    rw [if_pos (by omega), if_neg h7, if_neg h7]
    by_cases hv : r.1.1 = 0
    · have hf := h1.found
      rw [hv] at hf ⊢
      rw [imapb_zero, imapb_zero]
      exact ⟨hg1, hl1, (hf.none (y := (ip, .addr 7)) _).none _⟩
    · have hpl : r.1.1 = place r.2 dev (ip, .addr 7) := h1.found.place hv
      have hp : Points r.2 dev (.word dev r.1.1 (log / 256 - 7))
          (ip, .ind 7 (log / 256 - 7)) := by
        rw [hpl]
        exact .ind hd1 hl1 (by omega) (hpl ▸ hv)
      obtain ⟨L1, ho1⟩ := h1.found.owned
      have h2 := imapb_spec ho1 hp hv
      have hf2 : Found s (imapb r.2 r.1.1 (log / 256 - 7) dev).2 dev L F
          (ip, .ind 7 (log / 256 - 7))
          (hole s dev (ip, .addr 7) + hole s dev (ip, .ind 7 (log / 256 - 7)))
          (imapb r.2 r.1.1 (log / 256 - 7) dev).1.1 := by
        refine h1.found.trans hg1 hv fun ho _ => ?_
        have h2 := (imapb_spec ho hp hv).found
        rwa [hhole _ hv (by simp)] at h2
      have hl2 : ((imapb r.2 r.1.1 (log / 256 - 7) dev).2.ino ip).larg = true := by
        rw [imapb_larg, hl1]
      have hrest := h2.rest
      have hg2 := hg1.trans h2.grows
      set q := imapb r.2 r.1.1 (log / 256 - 7) dev with hq
      by_cases hw : q.1.1 = 0
      · rw [hw] at hf2 ⊢
        rw [imapb_zero]
        exact ⟨hg2, hl2, hf2.none _⟩
      · have hpl2 : q.1.1 = place q.2 dev (ip, .ind 7 (log / 256 - 7)) := hf2.place hw
        have hd2 : (q.2.ino ip).dev = dev := by rw [hg2.dev, hd]
        have hp2 : Points q.2 dev (.word dev q.1.1 (log % 256))
            (ip, .dbl (log / 256 - 7) (log % 256)) := by
          rw [hpl2]
          exact .dbl hd2 (by omega) (hpl2 ▸ hw)
        obtain ⟨L2, ho2⟩ := hf2.owned
        refine ⟨hg2.trans (imapb_spec ho2 hp2 hw).grows, by rw [imapb_larg, hl2], ?_⟩
        refine hf2.trans hg2 hw fun ho _ => ?_
        have h3 := (imapb_spec ho hp2 hw).found
        have hh : hole q.2 dev (ip, .dbl (log / 256 - 7) (log % 256))
            = hole s dev (ip, .dbl (log / 256 - 7) (log % 256)) := by
          rw [← hhole _ hv (by simp), hole, hole, hrest hw _ (by simp)]
        rwa [hh] at h3

/-! ## The conversion and `imap` itself -/

/-- The blocks `imap` has to allocate for logical block `log`.  A small inode asked for a block
beyond its eight direct ones is converted first, and then every further step of the way is new. -/
def need (s : Sys) (dev ip log : ℕ) : ℕ :=
  if (s.ino ip).larg then needLarge s dev ip log
  else if log < 8 then hole s dev (ip, .addr log)
  else if log < 256 then 2
  else if log < 1792 then 3
  else 4

/-- After the conversion the way to a block beyond the first eight is empty. -/
lemma needLarge_convert {s : Sys} {dev ip b log : ℕ} {L : List ℕ} {F : Set ℕ}
    (h : Owned s dev L F) (hb : b ∈ F) (hd : (s.ino ip).dev = dev)
    (hio : (s.ino ip).fmt.iio = false) (hl : (s.ino ip).larg = false) (hlog : 8 ≤ log) :
    1 + needLarge (convert s dev ip b) dev ip log = need s dev ip log := by
  have hpl := place_convert h hb hd hio hl
  have hb0 : b ≠ 0 := (h.part.hand_range b hb).ne_zero
  have hbig : ∀ m, 8 ≤ m → place s dev (ip, .addr m) = 0 := by
    intro m hm
    rw [place_of_dev hd, mapVal, addrVal, if_neg (by omega)]
  rw [need, hl, if_neg (by simp), if_neg (by omega), needLarge]
  simp only [hole, hpl, if_true]
  by_cases h0 : log / 256 = 0
  · rw [if_pos (show log < 256 by omega), if_pos (by omega), h0]
    simp [hb0, hbig (log % 256) (by omega)]
  · by_cases h7 : log / 256 < 7
    · rw [if_neg (show ¬log < 256 by omega), if_pos (show log < 1792 by omega), if_pos h7]
      simp [h0]
    · rw [if_neg (show ¬log < 256 by omega), if_neg (show ¬log < 1792 by omega), if_neg h7]
      simp

/-- The two outcomes of the conversion. -/
lemma toLarge_spec {s : Sys} {dev ip : ℕ} {L : List ℕ} {F : Set ℕ} (h : Owned s dev L F)
    (hd : (s.ino ip).dev = dev) (hio : (s.ino ip).fmt.iio = false)
    (hl : (s.ino ip).larg = false) :
    (∃ b L', L = b :: L' ∧ flock (s.sb dev) = false ∧ (toLarge s ip dev).1 = true ∧
        (toLarge s ip dev).2.error = none ∧ Owned (toLarge s ip dev).2 dev L' F ∧
        ((toLarge s ip dev).2.ino ip).larg = true ∧ Grows s (toLarge s ip dev).2 dev ip ∧
        ∀ log, 8 ≤ log → 1 + needLarge (toLarge s ip dev).2 dev ip log = need s dev ip log) ∨
      ((L = [] ∨ flock (s.sb dev) = true) ∧ (toLarge s ip dev).1 = false ∧
        (toLarge s ip dev).2.error ≠ none ∧ Owned (toLarge s ip dev).2 dev L F ∧
        Grows s (toLarge s ip dev).2 dev ip) := by
  by_cases hno : L = [] ∨ flock (s.sb dev) = true
  · right
    obtain ⟨hb, he, ho, -, hg⟩ := h.balloc_fail hno ip
    have ht : toLarge s ip dev = (false, (balloc s dev).2) := by simp [toLarge, hb]
    rw [ht]
    exact ⟨hno, rfl, he, ho, hg⟩
  · left
    obtain ⟨hL, hrw⟩ := not_or.mp hno
    obtain ⟨b, L', rfl⟩ := List.exists_cons_of_ne_nil hL
    have hrw' : flock (s.sb dev) = false := by simpa using hrw
    obtain ⟨hb, he, -, ho, hpl, hg⟩ := h.balloc hrw' ip
    have hb0 : b ≠ 0 := (h.part.list_range b List.mem_cons_self).ne_zero
    have hbF : b ∉ F := h.part.list_hand b List.mem_cons_self
    have hino := balloc_ino s dev
    have hd1 : ((balloc s dev).2.ino ip).dev = dev := by rw [hino, hd]
    have hio1 : ((balloc s dev).2.ino ip).fmt.iio = false := by rw [hino, hio]
    have hl1 : ((balloc s dev).2.ino ip).larg = false := by rw [hino, hl]
    have hmem : b ∈ insert b F := Set.mem_insert b F
    obtain ⟨hoc, hgc⟩ := ho.convert hmem hd1 hio1 hl1
    rw [Set.insert_sdiff_self_of_notMem hbF] at hoc
    have ht : toLarge s ip dev = (true, convert (balloc s dev).2 dev ip b) := by
      simp [toLarge, hb, hb0, convert]
    rw [ht]
    refine ⟨b, L', rfl, hrw', rfl, he, hoc, by simp [convert], hg.trans hgc, ?_⟩
    intro log hlog
    rw [needLarge_convert ho hmem hd1 hio1 hl1 hlog]
    simp only [need, needLarge, hole, hpl, hino]

/-- **`imap`.**  On an inode that is no special file, `imap` finds the data block of `log`, filling
`need` empty places on the way, or fails with `u.error` set because that many free blocks are not
to be had; either way no byte of any file changes and every block keeps exactly one owner. -/
theorem imap_spec {s : Sys} {dev ip log : ℕ} {L : List ℕ} {F : Set ℕ} (h : Owned s dev L F)
    (hd : (s.ino ip).dev = dev) (hio : (s.ino ip).fmt.iio = false) (hlog : log < 32768)
    (he : s.error = none) :
    Grows s (imap s ip log).2 dev ip ∧
      Found s (imap s ip log).2 dev L F
        (ip, dataSlot ((imap s ip log).2.ino ip).larg log) (need s dev ip log)
        (imap s ip log).1.1 := by
  by_cases hl : (s.ino ip).larg = true
  · have him : imap s ip log = imapLarge s ip log dev := by
      simp [imap, hio, hl, hd, Nat.not_le.mpr hlog]
    obtain ⟨hg, hl', hf⟩ := imapLarge_spec h hd hio hl hlog he
    rw [him, need, if_pos hl, hl']
    exact ⟨hg, hf⟩
  · have hl0 : (s.ino ip).larg = false := by simpa using hl
    by_cases h8 : log < 8
    · have him : imap s ip log = imapi s ip log := by
        simp [imap, hio, hl0, h8, Nat.not_le.mpr hlog]
      have h1 := imapi_spec h hd hio h8 he
      have hneed : need s dev ip log = hole s dev (ip, .addr log) := by
        rw [need, if_neg hl, if_pos h8]
      rw [him, imapi_larg, hl0, hneed]
      exact ⟨h1.grows, h1.found⟩
    · rcases toLarge_spec h hd hio hl0 with
        ⟨b, L', rfl, hrw, ht, he1, ho1, hl1, hg1, hneed⟩ | ⟨hno, ht, he1, ho1, hg1⟩
      · have him : imap s ip log = imapLarge (toLarge s ip dev).2 ip log dev := by
          simp [imap, hio, hl0, h8, hd, Nat.not_le.mpr hlog, ht]
        have hd1 : ((toLarge s ip dev).2.ino ip).dev = dev := by rw [hg1.dev, hd]
        have hio1 : ((toLarge s ip dev).2.ino ip).fmt.iio = false := by rw [hg1.fmt, hio]
        obtain ⟨hg, hl', hf⟩ := imapLarge_spec ho1 hd1 hio1 hl1 hlog he1
        rw [him, ← hneed log (by omega), hl']
        refine ⟨hg1.trans hg, ?_⟩
        -- the block of the conversion counts as the first one found
        obtain ⟨hv, hv0, he', hn, hro, ho⟩ | ⟨hv, he', hno, ho⟩ := hf
        · rw [Nat.add_comm]
          exact Or.inl ⟨hv, hv0, he', by simpa using hn, Or.inr hrw, by simpa using ho⟩
        · refine Or.inr ⟨hv, he', ?_, ho⟩
          rcases hno with hno | ⟨-, hro⟩
          · exact Or.inl (by simp only [List.length_cons]; omega)
          · rw [hg1.sb.flock, hrw] at hro
            exact absurd hro (by simp)
      · have him : imap s ip log = ((0, 0), (toLarge s ip dev).2) := by
          simp [imap, hio, hl0, h8, hd, Nat.not_le.mpr hlog, ht]
        have hpos : 0 < need s dev ip log := by
          rw [need, if_neg hl, if_neg h8]
          split_ifs <;> omega
        rw [him]
        refine ⟨hg1, Or.inr ⟨rfl, he1, ?_, L, ho1⟩⟩
        rcases hno with rfl | hro
        · exact Or.inl hpos
        · exact Or.inr ⟨by omega, hro⟩

end Micronix
