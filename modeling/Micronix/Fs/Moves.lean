import Micronix.Fs.Place

/-!
# The moves of a block between free list, hand and map

Each move of the kernel is one of four: `balloc` takes a block into a routine's hand, `bfree` puts
it back, `plug` installs it at an empty place, and the conversion to large addressing rearranges
the eight direct places.  For each move this file says what becomes of the ownership (`Owned`) and
that no byte of any file changes (`Grows`).
-/

namespace Micronix

open Bytes Super

/-- What filling holes of inode `ip` may change: its addresses, its `ILARG` and `IMOD` bits, and
nothing that can be read. -/
structure Grows (s s' : Sys) (dev ip : ℕ) : Prop where
  other : ∀ k, k ≠ ip → s'.ino k = s.ino k
  self : ∃ a l m, s'.ino ip = { s.ino ip with addr := a, larg := l, imod := m }
  bytes : ∀ k o, byteAt s' dev k o = byteAt s dev k o
  sb : SameOutside (s.sb dev) (s'.sb dev)
  seconds : s'.seconds = s.seconds

lemma Grows.refl (s : Sys) (dev ip : ℕ) : Grows s s dev ip :=
  ⟨fun _ _ => rfl, ⟨_, _, _, rfl⟩, fun _ _ => rfl, .refl _, rfl⟩

lemma Grows.trans {a b c : Sys} {dev ip : ℕ} (h : Grows a b dev ip) (h' : Grows b c dev ip) :
    Grows a c dev ip := by
  refine ⟨fun k hk => (h'.other k hk).trans (h.other k hk), ?_,
    fun k o => (h'.bytes k o).trans (h.bytes k o), h.sb.trans h'.sb, h'.seconds.trans h.seconds⟩
  obtain ⟨a1, l1, m1, e1⟩ := h.self
  obtain ⟨a2, l2, m2, e2⟩ := h'.self
  exact ⟨a2, l2, m2, by rw [e2, e1]⟩

lemma Grows.dev {s s' : Sys} {dev ip : ℕ} (h : Grows s s' dev ip) :
    (s'.ino ip).dev = (s.ino ip).dev := by
  obtain ⟨_, _, _, e⟩ := h.self
  rw [e]

lemma Grows.fmt {s s' : Sys} {dev ip : ℕ} (h : Grows s s' dev ip) :
    (s'.ino ip).fmt = (s.ino ip).fmt := by
  obtain ⟨_, _, _, e⟩ := h.self
  rw [e]

lemma Grows.size {s s' : Sys} {dev ip : ℕ} (h : Grows s s' dev ip) :
    (s'.ino ip).size = (s.ino ip).size := by
  obtain ⟨_, _, _, e⟩ := h.self
  rw [e]

/-! ## Data places -/

lemma dataSlot_not_isInd (i : Inode) (log : ℕ) : ¬(dataSlot i.larg log).isInd i := by
  unfold dataSlot
  by_cases hl : i.larg = true
  · rw [if_pos hl]
    split_ifs with h7
    · simp only [Slot.isInd]
      omega
    · simp [Slot.isInd]
  · simp [Slot.isInd, hl]

/-- A data block is no indirect block. -/
lemma Owned.lookup_ne {s : Sys} {dev : ℕ} {L : List ℕ} {F : Set ℕ} (h : Owned s dev L F)
    {ip log : ℕ} {x : ℕ × Slot} (hx : x.2.isInd (s.ino x.1)) (h0 : lookup s dev ip log ≠ 0) :
    lookup s dev ip log ≠ place s dev x := by
  intro e
  have := h.place_inj h0 e
  subst this
  exact dataSlot_not_isInd _ _ hx

/-- No byte changes when the data places and the data blocks stay, holes being filled with
zeros only. -/
lemma byteAt_congr {s s' : Sys} {dev k : ℕ}
    (hstay : ∀ log, lookup s dev k log ≠ 0 → lookup s' dev k log = lookup s dev k log ∧
      s'.blk dev (lookup s dev k log) = s.blk dev (lookup s dev k log))
    (hhole : ∀ log, lookup s dev k log = 0 → lookup s' dev k log = 0 ∨
      s'.blk dev (lookup s' dev k log) = zero) (o : ℕ) :
    byteAt s' dev k o = byteAt s dev k o := by
  unfold byteAt
  by_cases h0 : lookup s dev k (o / 512) = 0
  · rw [if_pos h0]
    rcases hhole _ h0 with h | h
    · exact if_pos h
    · dsimp only
      split_ifs
      · rfl
      · rw [h]
        rfl
  · obtain ⟨hl, hb⟩ := hstay _ h0
    simp only [hl, h0, if_false, hb]

/-- The same, when the places themselves do not move. -/
lemma byteAt_of_place {s s' : Sys} {dev : ℕ} (hino : ∀ k, (s'.ino k).larg = (s.ino k).larg)
    (hpl : place s' dev = place s dev)
    (hblk : ∀ k log, lookup s dev k log ≠ 0 →
      s'.blk dev (lookup s dev k log) = s.blk dev (lookup s dev k log)) (k o : ℕ) :
    byteAt s' dev k o = byteAt s dev k o := by
  have hl : ∀ log, lookup s' dev k log = lookup s dev k log := by
    intro log
    rw [lookup, lookup, hpl, hino]
  exact byteAt_congr (fun log h0 => ⟨hl log, hblk k log h0⟩) (fun log h0 => Or.inl (hl log ▸ h0)) o

/-! ## `balloc` and `bfree` -/

section List

variable {s : Sys} {dev b : ℕ} {L : List ℕ} {F : Set ℕ}

lemma Owned.kept (h : Owned s dev L F) : KeptList s dev L := ⟨h.part.nodup, h.part.list_range⟩

/-- Storing blocks that no place holds, the inodes staying, changes neither places nor bytes. -/
lemma place_of_unmapped {s' : Sys} (hino : s'.ino = s.ino)
    (hblk : ∀ x, place s dev x ≠ 0 → s'.blk dev (place s dev x) = s.blk dev (place s dev x)) :
    place s' dev = place s dev :=
  place_congr (fun ip => by rw [hino]; exact .refl _) (fun x _ h0 => hblk x h0)

lemma grows_of_unmapped {s' : Sys} (ip : ℕ) (hino : s'.ino = s.ino)
    (hblk : ∀ x, place s dev x ≠ 0 → s'.blk dev (place s dev x) = s.blk dev (place s dev x))
    (hsb : SameOutside (s.sb dev) (s'.sb dev)) (hsec : s'.seconds = s.seconds) :
    Grows s s' dev ip := by
  refine ⟨fun k _ => by rw [hino], ⟨_, _, _, by rw [hino]⟩, ?_, hsb, hsec⟩
  exact byteAt_of_place (fun k => by rw [hino]) (place_of_unmapped hino hblk)
    (fun k log h0 => hblk _ h0)

lemma balloc_seconds (s : Sys) (dev : ℕ) : (balloc s dev).2.seconds = s.seconds := by
  unfold balloc ballocFull
  dsimp only
  split_ifs <;> rfl

/-- `balloc` takes the head of the free list into the caller's hand. -/
theorem Owned.balloc (h : Owned s dev (b :: L) F) (hrw : flock (s.sb dev) = false) (ip : ℕ) :
    (balloc s dev).1 = b ∧ (balloc s dev).2.error = none ∧
      (balloc s dev).2.blk dev b = zero ∧ Owned (balloc s dev).2 dev L (insert b F) ∧
      place (balloc s dev).2 dev = place s dev ∧ Grows s (balloc s dev).2 dev ip := by
  have hr : InRange (s.sb dev) b := h.part.list_range b List.mem_cons_self
  have h1 : 1 ∉ L := fun e => one_notMem_of_kept h.kept (List.mem_cons_of_mem b e)
  obtain ⟨hb, hl, hz, he⟩ := h.list.balloc_cons hrw hr (List.nodup_cons.mp h.part.nodup).1 h1
  have hsb : SameOutside (s.sb dev) ((Micronix.balloc s dev).2.sb dev) :=
    balloc_sb (by rw [hb]; exact hr.ne_one)
  have hblk : ∀ x, place s dev x ≠ 0 →
      (Micronix.balloc s dev).2.blk dev (place s dev x) = s.blk dev (place s dev x) := by
    intro x hx
    refine balloc_blk_other (fun e => h.place_ne_one x e.2) (fun e => ?_)
    exact h.part.place_list x hx (by rw [e.2, hb]; exact List.mem_cons_self)
  have hpl := place_of_unmapped (balloc_ino s dev) hblk
  refine ⟨hb, he, hz, ⟨hl, ?_⟩, hpl,
    grows_of_unmapped ip (balloc_ino s dev) hblk hsb (balloc_seconds s dev)⟩
  have hR : InRange ((Micronix.balloc s dev).2.sb dev) = InRange (s.sb dev) :=
    funext fun c => propext hsb.inRange
  rw [hpl, hR]
  exact h.part.take

/-- When there is no block to give, or the device is read-only, `balloc` fails and moves nothing. -/
theorem Owned.balloc_fail (h : Owned s dev L F) (hno : L = [] ∨ flock (s.sb dev) = true) (ip : ℕ) :
    (Micronix.balloc s dev).1 = 0 ∧ (Micronix.balloc s dev).2.error ≠ none ∧
      Owned (Micronix.balloc s dev).2 dev L F ∧
      place (Micronix.balloc s dev).2 dev = place s dev ∧
      Grows s (Micronix.balloc s dev).2 dev ip := by
  have hfail : (Micronix.balloc s dev).1 = 0 ∧ (Micronix.balloc s dev).2.error ≠ none ∧
      FreeList (Micronix.balloc s dev).2 dev L := by
    by_cases hro : flock (s.sb dev) = true
    · rw [balloc_ronly hro]
      exact ⟨rfl, by simp, h.list⟩
    · have hL : L = [] := hno.resolve_right hro
      subst hL
      obtain ⟨h0, hl, he⟩ := h.list.balloc_nil (by simpa using hro)
      exact ⟨h0, by simp [he], hl⟩
  obtain ⟨h0, he, hl⟩ := hfail
  have hsb : SameOutside (s.sb dev) ((Micronix.balloc s dev).2.sb dev) := balloc_sb (by omega)
  have hblk : ∀ x, place s dev x ≠ 0 →
      (Micronix.balloc s dev).2.blk dev (place s dev x) = s.blk dev (place s dev x) := by
    intro x hx
    exact balloc_blk_other (fun e => h.place_ne_one x e.2) (fun e => hx (e.2.trans h0))
  have hpl := place_of_unmapped (balloc_ino s dev) hblk
  refine ⟨h0, he, ⟨hl, ?_⟩, hpl,
    grows_of_unmapped ip (balloc_ino s dev) hblk hsb (balloc_seconds s dev)⟩
  have hR : InRange ((Micronix.balloc s dev).2.sb dev) = InRange (s.sb dev) :=
    funext fun c => propext hsb.inRange
  rw [hpl, hR]
  exact h.part

lemma bfree_seconds (s : Sys) (bn dev : ℕ) : (bfree s bn dev).seconds = s.seconds := by
  unfold bfree
  dsimp only
  split_ifs <;> rfl

/-- `bfree` puts a block in hand back on the free list. -/
theorem Owned.bfree (h : Owned s dev L F) (hb : b ∈ F) (ip : ℕ) :
    Owned (bfree s b dev) dev (b :: L) (F \ {b}) ∧ place (bfree s b dev) dev = place s dev ∧
      Grows s (bfree s b dev) dev ip := by
  have hr : InRange (s.sb dev) b := h.part.hand_range b hb
  have hsb : SameOutside (s.sb dev) ((Micronix.bfree s b dev).sb dev) := bfree_sb hr.ne_one
  have hblk : ∀ x, place s dev x ≠ 0 →
      (Micronix.bfree s b dev).blk dev (place s dev x) = s.blk dev (place s dev x) :=
    fun x _ => bfree_blk_other (fun e => h.place_ne_one x e.2) (fun e => h.place_ne hb x e.2)
  have hpl := place_of_unmapped (bfree_ino s dev b) hblk
  refine ⟨⟨h.list.bfree hr (fun hL => h.part.list_hand b hL hb) (one_notMem_of_kept h.kept), ?_⟩,
    hpl, grows_of_unmapped ip (bfree_ino s dev b) hblk hsb (bfree_seconds s b dev)⟩
  have hR : InRange ((Micronix.bfree s b dev).sb dev) = InRange (s.sb dev) :=
    funext fun c => propext hsb.inRange
  rw [hpl, hR]
  exact h.part.give hb

/-- Storing a block that is neither the superblock nor on the list leaves the list alone. -/
lemma FreeList.put {P : ℕ} {d : Bytes} (h : FreeList s dev L) (h1 : P ≠ 1) (hP : P ∉ L) :
    FreeList (s.put dev P d) dev L := by
  rw [FreeList, Sys.put_sb_other h1]
  refine Represents.congr h (fun _ _ => rfl) ?_
  intro c hc
  exact Sys.put_blk_other fun e => hP (e ▸ hc)

end List

/-! ## Installing a block -/

/-- The pointer `p` points at place `x`. -/
inductive Points (s : Sys) (dev : ℕ) : Ptr → ℕ × Slot → Prop
  | addr {ip n : ℕ} : (s.ino ip).dev = dev → (s.ino ip).fmt.iio = false → n < 8 →
      Points s dev (.addr ip n) (ip, .addr n)
  | ind {ip n k : ℕ} : (s.ino ip).dev = dev → (s.ino ip).larg = true → k < 256 →
      place s dev (ip, .addr n) ≠ 0 →
      Points s dev (.word dev (place s dev (ip, .addr n)) k) (ip, .ind n k)
  | dbl {ip k j : ℕ} : (s.ino ip).dev = dev → j < 256 → place s dev (ip, .ind 7 k) ≠ 0 →
      Points s dev (.word dev (place s dev (ip, .ind 7 k)) j) (ip, .dbl k j)

lemma larg_of_ind_ne {s : Sys} {dev ip n k : ℕ} (h : place s dev (ip, .ind n k) ≠ 0) :
    (s.ino ip).larg = true := by
  by_contra hl
  apply h
  unfold place
  split_ifs
  · simp [mapVal, hl]
  · rfl

lemma Points.congr {s s' : Sys} {dev : ℕ} {p : Ptr} {x : ℕ × Slot} (h : Points s dev p x)
    (hino : s'.ino = s.ino) (hpl : place s' dev = place s dev) : Points s' dev p x := by
  cases h with
  | addr hd hio hn => exact .addr (by rw [hino]; exact hd) (by rw [hino]; exact hio) hn
  | ind hd hl hk h0 =>
      rw [← hpl] at h0 ⊢
      exact .ind (by rw [hino]; exact hd) (by rw [hino]; exact hl) hk h0
  | dbl hd hj h0 =>
      rw [← hpl] at h0 ⊢
      exact .dbl (by rw [hino]; exact hd) hj h0

/-- Reading through the pointer reads the place. -/
lemma Points.load {s : Sys} {dev : ℕ} {p : Ptr} {x : ℕ × Slot} (h : Points s dev p x) :
    s.load p = place s dev x := by
  cases h with
  | addr hd hio hn => simp [Sys.load, place_of_dev hd, mapVal, addrVal, hio, hn]
  | @ind ip n k hd hl hk h0 =>
      rw [place_of_dev hd] at h0 ⊢
      simp only [mapVal] at h0
      simp [Sys.load, place_of_dev hd, mapVal, hl, sub, h0, hk]
  | @dbl ip k j hd hj h0 =>
      have hl := larg_of_ind_ne h0
      have hB : place s dev (ip, .ind 7 k) = sub (s.blk dev) (addrVal (s.ino ip) 7) k := by
        simp [place_of_dev hd, mapVal, hl]
      rw [place_of_dev hd (.dbl k j), mapVal, if_pos hl, ← hB, sub, if_pos ⟨h0, hj⟩]
      rfl

lemma Points.store_larg {s : Sys} {dev b : ℕ} {p : Ptr} {x : ℕ × Slot} (h : Points s dev p x)
    (k : ℕ) : ((s.store p b).ino k).larg = (s.ino k).larg := by
  cases h with
  | @addr ip n _ _ _ =>
      by_cases hk : k = ip
      · subst hk
        simp [Sys.store, Inode.setAddr]
      · simp [Sys.store, Sys.setIno_ino_ne hk]
  | ind => rfl
  | dbl => rfl

/-- **Installing a block.**  Storing a zeroed block in hand through a pointer at an empty place
installs it there; no other place and no byte changes. -/
theorem Points.fill {s : Sys} {dev b : ℕ} {L : List ℕ} {F : Set ℕ} {p : Ptr} {x : ℕ × Slot}
    (hp : Points s dev p x) (h : Owned s dev L F) (hb : b ∈ F) (hz : s.blk dev b = zero)
    (h0 : place s dev x = 0) :
    Owned (s.store p b) dev L (F \ {b}) ∧
      place (s.store p b) dev = Function.update (place s dev) x b ∧
      Grows s (s.store p b) dev x.1 := by
  have hinst := h.part.install hb h0
  -- the contents of the blocks: at most one indirect block is written
  have hblk : ∃ P, (∀ c, c ≠ P → (s.store p b).blk dev c = s.blk dev c) ∧ P ∉ L ∧ P ≠ 1 ∧ P ≠ b ∧
      ∀ k log, lookup s dev k log ≠ 0 → lookup s dev k log ≠ P := by
    cases hp with
    | addr hd hio hn => exact ⟨0, fun _ _ => rfl, fun hL => h.part.zero_notMem
        (h.part.list_range 0 hL), by omega, (h.part.hand_range b hb).ne_zero.symm, fun _ _ e => e⟩
    | @ind ip n k hd hl hk hP =>
        exact ⟨_, fun c hc => Sys.put_blk_other hc, h.part.place_list _ hP, h.place_ne_one _,
          h.place_ne hb _, fun k' log e => h.lookup_ne (x := (ip, .addr n)) hl e⟩
    | @dbl ip k j hd hj hP =>
        exact ⟨_, fun c hc => Sys.put_blk_other hc, h.part.place_list _ hP, h.place_ne_one _,
          h.place_ne hb _, fun k' log e => h.lookup_ne (x := (ip, .ind 7 k)) rfl e⟩
  obtain ⟨P, hoth, hPL, hP1, hPb, hdata⟩ := hblk
  have hpl : place (s.store p b) dev = Function.update (place s dev) x b := by
    cases hp with
    | addr hd hio hn =>
        refine place_store_addr hd hio hn ?_ hz
        rw [place_of_dev hd, mapVal, addrVal, if_pos ⟨hn, hio⟩] at h0
        exact h0
    | ind hd hl hk hP => exact place_store_ind h hb hz hd hl hk hP h0
    | dbl hd hj hP => exact place_store_dbl h hb hd hj hP
  have hsb : (s.store p b).sb dev = s.sb dev := hoth 1 hP1.symm
  refine ⟨⟨?_, ?_⟩, hpl, ?_, ?_, ?_, ?_, ?_⟩
  · rw [FreeList, hsb]
    exact Represents.congr h.list (fun _ _ => rfl) fun c hc => hoth c fun e => hPL (e ▸ hc)
  · rw [hpl, hsb]
    exact hinst
  · intro k hk
    cases hp with
    | addr hd hio hn => exact Sys.setIno_ino_ne hk
    | ind => rfl
    | dbl => rfl
  · cases hp with
    | @addr ip n hd hio hn => exact ⟨_, _, _, Sys.setIno_ino_self ..⟩
    | ind => exact ⟨_, _, _, rfl⟩
    | dbl => exact ⟨_, _, _, rfl⟩
  · intro k o
    have hl : ∀ log, lookup (s.store p b) dev k log
        = Function.update (place s dev) x b (k, dataSlot (s.ino k).larg log) := by
      intro log
      rw [lookup, hpl, hp.store_larg]
    refine byteAt_congr ?_ ?_ o
    · intro log hne
      have hx : (k, dataSlot (s.ino k).larg log) ≠ x := fun e => hne (by rw [lookup, e, h0])
      refine ⟨by rw [hl, Function.update_of_ne hx]; rfl, hoth _ (hdata k log hne)⟩
    · intro log hhole
      by_cases hx : (k, dataSlot (s.ino k).larg log) = x
      · right
        rw [hl, hx, Function.update_self, hoth b hPb.symm, hz]
      · left
        rw [hl, Function.update_of_ne hx]
        exact hhole
  · rw [hsb]
    exact .refl _
  · cases hp <;> rfl

/-! ## The conversion to large addressing -/

lemma word_addrBlock {a : ℕ → ℕ} {k : ℕ} (hk : k < 8) (ha : a k < 65536) :
    word (addrBlock a) k = a k := by
  have h0 : addrBlock a (2 * k) = UInt8.ofNat (a k) := by
    rw [addrBlock, if_pos (by omega), if_pos (by omega)]
    congr 2
    omega
  have h1 : addrBlock a (2 * k + 1) = UInt8.ofNat (a k / 256) := by
    rw [addrBlock, if_pos (by omega), if_neg (by omega)]
    congr 3
    omega
  rw [word, h0, h1]
  simp only [UInt8.toNat_ofNat']
  omega

lemma word_addrBlock_rest (a : ℕ → ℕ) {k : ℕ} (hk : 8 ≤ k) : word (addrBlock a) k = 0 := by
  have h0 : addrBlock a (2 * k) = 0 := by rw [addrBlock, if_neg (by omega)]
  have h1 : addrBlock a (2 * k + 1) = 0 := by rw [addrBlock, if_neg (by omega)]
  rw [word, h0, h1]
  rfl

/-- The converted inode: `b` is its only address, and the old ones are in block `b`. -/
def convert (s : Sys) (dev ip b : ℕ) : Sys :=
  (s.put dev b (addrBlock (s.ino ip).addr)).setIno ip
    { s.ino ip with addr := fun n => if n = 0 then b else 0, larg := true, imod := true }

/-- The places after the conversion: `b` at `i_addr[0]`, the old addresses in its first eight
words. -/
lemma place_convert {s : Sys} {dev ip b : ℕ} {L : List ℕ} {F : Set ℕ} (h : Owned s dev L F)
    (hb : b ∈ F) (hd : (s.ino ip).dev = dev) (hio : (s.ino ip).fmt.iio = false)
    (hl : (s.ino ip).larg = false) (x : ℕ × Slot) :
    place (convert s dev ip b) dev x =
      if x.1 = ip then
        match x.2 with
        | .addr n => if n = 0 then b else 0
        | .ind n k => if n = 0 then place s dev (ip, .addr k) else 0
        | .dbl _ _ => 0
      else place s dev x := by
  obtain ⟨ip', q⟩ := x
  have hb0 : b ≠ 0 := (h.part.hand_range b hb).ne_zero
  have haddr : ∀ k, k < 8 → (s.ino ip).addr k < 65536 := by
    intro k hk
    have hpl : place s dev (ip, .addr k) = (s.ino ip).addr k := by
      rw [place_of_dev hd, mapVal, addrVal, if_pos ⟨hk, hio⟩]
    by_cases h0 : (s.ino ip).addr k = 0
    · omega
    · have := (h.part.place_range (ip, .addr k) (by rw [hpl]; exact h0)).lt
      omega
  by_cases hip : ip' = ip
  · subst hip
    have hd' : ((convert s dev ip' b).ino ip').dev = dev := by simp [convert, hd]
    have hlarg : ((convert s dev ip' b).ino ip').larg = true := by simp [convert]
    have hav : ∀ n, addrVal ((convert s dev ip' b).ino ip') n = if n = 0 then b else 0 := by
      intro n
      simp only [convert, Sys.setIno_ino_self, addrVal]
      by_cases hn : n = 0
      · simp [hn, hio]
      · simp [hn]
    have hblk : (convert s dev ip' b).blk dev b = addrBlock (s.ino ip').addr := by simp [convert]
    have hsub : ∀ k, sub ((convert s dev ip' b).blk dev) b k = place s dev (ip', .addr k) := by
      intro k
      rw [place_of_dev hd, mapVal, addrVal, sub, hblk]
      by_cases hk : k < 8
      · rw [if_pos ⟨hb0, by omega⟩, if_pos ⟨hk, hio⟩, word_addrBlock hk (haddr k hk)]
      · have hno : ¬(k < 8 ∧ (s.ino ip').fmt.iio = false) := fun e => hk e.1
        rw [word_addrBlock_rest _ (by omega), if_neg hno]
        split_ifs <;> rfl
    rw [place_of_dev hd']
    simp only [if_true]
    cases q with
    | addr n => rw [mapVal, hav]
    | ind n k =>
        simp only [mapVal, hlarg, if_true, hav]
        split_ifs with hn
        · exact hsub k
        · exact sub_zero _ _
    | dbl k j =>
        simp only [mapVal, hlarg, if_true, hav]
        rw [if_neg (by omega), sub_zero, sub_zero]
  · -- the other inodes: neither they nor the blocks they hold are touched
    rw [if_neg hip]
    have hput : place (s.put dev b (addrBlock (s.ino ip).addr)) dev = place s dev :=
      place_of_unmapped rfl fun x _ => Sys.put_blk_other (h.place_ne hb x)
    rw [← hput]
    simp only [place, convert, Sys.setIno_ino_ne hip, Sys.setIno_blk]

/-- The old addresses at their new places, `b` not yet in. -/
def moved (s : Sys) (dev ip : ℕ) (x : ℕ × Slot) : ℕ :=
  if x.1 = ip then
    match x.2 with
    | .ind 0 k => place s dev (ip, .addr k)
    | _ => 0
  else place s dev x

/-- **The conversion.**  A zeroed block in hand becomes the first indirect block of a small inode
and takes over its eight addresses; no byte of any file changes. -/
theorem Owned.convert {s : Sys} {dev ip b : ℕ} {L : List ℕ} {F : Set ℕ} (h : Owned s dev L F)
    (hb : b ∈ F) (hd : (s.ino ip).dev = dev) (hio : (s.ino ip).fmt.iio = false)
    (hl : (s.ino ip).larg = false) :
    Owned (convert s dev ip b) dev L (F \ {b}) ∧ Grows s (convert s dev ip b) dev ip := by
  have hpl := place_convert h hb hd hio hl
  have hb1 : b ≠ 1 := (h.part.hand_range b hb).ne_one
  have hsb : (Micronix.convert s dev ip b).sb dev = s.sb dev := Sys.put_blk_other hb1.symm
  have hsmall : ∀ q, place s dev (ip, q) ≠ 0 → ∃ k, q = .addr k := by
    intro q hq
    rw [place_of_dev hd] at hq
    cases q with
    | addr k => exact ⟨k, rfl⟩
    | ind n k => simp [mapVal, hl] at hq
    | dbl k j => simp [mapVal, hl] at hq
  have hmoved : Divided (InRange (s.sb dev)) L F (moved s dev ip) := by
    refine h.part.rearrange
      (fun x => if x.1 = ip then (match x.2 with | .ind 0 k => (ip, .addr k) | q => (ip, q)) else x)
      ?_ ?_ ?_
    · rintro ⟨i, q⟩ hx
      unfold moved at hx ⊢
      split_ifs at hx ⊢ with hi
      · dsimp only at hx ⊢
        split at hx
        · rfl
        · exact absurd rfl hx
      · simp
    · rintro ⟨i, q⟩ ⟨i', q'⟩ hx hy hxy
      unfold moved at hx hy
      dsimp only at hx hy hxy
      split_ifs at hx hy hxy with hi hi'
      · split at hx
        · split at hy
          · simp_all
          · exact absurd rfl hy
        · exact absurd rfl hx
      · exact absurd (congrArg Prod.fst hxy).symm (by split <;> exact hi')
      · exact absurd (congrArg Prod.fst hxy) (by split <;> exact hi)
      · exact hxy
    · rintro ⟨i, q⟩ hx
      by_cases hi : i = ip
      · subst hi
        obtain ⟨k, rfl⟩ := hsmall q hx
        exact ⟨(i, .ind 0 k), by simp [moved]⟩
      · exact ⟨(i, q), by simp [moved, hi]⟩
  have hupd : place (Micronix.convert s dev ip b) dev
      = Function.update (moved s dev ip) (ip, Slot.addr 0) b := by
    funext x
    obtain ⟨i, q⟩ := x
    rw [hpl]
    by_cases hi : i = ip
    · subst hi
      simp only [if_true]
      cases q with
      | addr n =>
          by_cases hn : n = 0
          · subst hn
            simp
          · rw [Function.update_of_ne (by simpa using hn)]
            simp [moved, hn]
      | ind n k =>
          rw [Function.update_of_ne (by simp)]
          by_cases hn : n = 0
          · subst hn
            simp [moved]
          · simp [moved, hn]
      | dbl k j =>
          rw [Function.update_of_ne (by simp)]
          simp [moved]
    · rw [if_neg hi, Function.update_of_ne (by simp [hi])]
      simp [moved, hi]
  have hlook : ∀ k log, lookup (Micronix.convert s dev ip b) dev k log = lookup s dev k log := by
    intro k log
    by_cases hk : k = ip
    · subst hk
      have hl' : ((Micronix.convert s dev k b).ino k).larg = true := by simp [Micronix.convert]
      rw [lookup, lookup, hl', hpl, hl]
      simp only [if_true, dataSlot, Bool.false_eq_true, if_false]
      have hbig : ∀ m, 8 ≤ m → place s dev (k, .addr m) = 0 := by
        intro m hm
        rw [place_of_dev hd, mapVal, addrVal, if_neg (by omega)]
      by_cases h7 : log / 256 < 7
      · rw [if_pos h7]
        dsimp only
        by_cases h0 : log / 256 = 0
        · rw [if_pos h0, Nat.mod_eq_of_lt (by omega)]
        · rw [if_neg h0, hbig log (by omega)]
      · rw [if_neg h7]
        dsimp only
        rw [hbig log (by omega)]
    · have hino : ((Micronix.convert s dev ip b).ino k).larg = (s.ino k).larg := by
        simp [Micronix.convert, Sys.setIno_ino_ne hk]
      rw [lookup, lookup, hino, hpl, if_neg hk]
  refine ⟨⟨?_, ?_⟩, ?_, ⟨_, _, _, Sys.setIno_ino_self ..⟩, ?_, ?_, rfl⟩
  · exact h.list.put hb1 fun hL => h.part.list_hand b hL hb
  · rw [hsb, hupd]
    exact hmoved.install hb (by simp [moved])
  · exact fun k hk => Sys.setIno_ino_ne hk
  · intro k o
    refine byteAt_congr (fun log h0 => ⟨hlook k log, ?_⟩)
      (fun log h0 => Or.inl (by rw [hlook, h0])) o
    exact Sys.put_blk_other (h.place_ne hb _)
  · rw [hsb]
    exact .refl _

end Micronix
