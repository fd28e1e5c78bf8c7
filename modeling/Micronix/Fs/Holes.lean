import Micronix.Fs.FioSpec

/-!
# Holes and free blocks

Whether `imap` finds a block depends on little: which places of the inode's map are empty, whether
the inode is large, how many blocks are free, and whether the device can be written.  `Holes` is that
much of a file system, and `Holes.map` is what becomes of it when a logical block is mapped.
`imap_holes` says that `imap` does the same, so what a number of calls of `imap` will do can be told
from the state before them.
-/

namespace Micronix

open Bytes Super

/-- The empty places of an inode, and what there is to fill them. -/
structure Holes where
  larg : Bool
  empty : Slot → Bool
  free : ℕ
  flock : Bool

/-- The places on the way to the data block of a logical block. -/
def way (larg : Bool) (log : ℕ) : List Slot :=
  if larg then
    if log / 256 < 7 then [.addr (log / 256), .ind (log / 256) (log % 256)]
    else [.addr 7, .ind 7 (log / 256 - 7), .dbl (log / 256 - 7) (log % 256)]
  else [.addr log]

namespace Holes

/-- How many of the places are empty. -/
def count (σ : Holes) (l : List Slot) : ℕ := l.countP σ.empty

/-- Fill the places on the way. -/
def fill (σ : Holes) (log : ℕ) : Option Holes :=
  let n := σ.count (way σ.larg log)
  if n ≤ σ.free ∧ (n = 0 ∨ σ.flock = false) then
    some { σ with empty := fun q => σ.empty q && decide (q ∉ way σ.larg log), free := σ.free - n }
  else none

/-- The conversion to large addressing takes a block. -/
def convert (σ : Holes) : Holes where
  larg := true
  empty
    | .addr n => n ≠ 0
    | .ind n k => n ≠ 0 || σ.empty (.addr k)
    | .dbl _ _ => true
  free := σ.free - 1
  flock := σ.flock

/-- Map a logical block: `none` where `imap` sets `u.error`. -/
def map (σ : Holes) (log : ℕ) : Option Holes :=
  if 32768 ≤ log then none
  else if σ.larg = true ∨ log < 8 then σ.fill log
  else if σ.free = 0 ∨ σ.flock = true then none
  else σ.convert.fill log

end Holes

/-- `σ` tells the holes of the file in slot `ip`, when `L` is the free list. -/
structure Looks (s : Sys) (dev ip : ℕ) (L : List ℕ) (σ : Holes) : Prop where
  larg : (s.ino ip).larg = σ.larg
  empty : ∀ q, σ.empty q = true ↔ place s dev (ip, q) = 0
  free : σ.free = L.length
  flock : σ.flock = flock (s.sb dev)

/-- What the state looks like. -/
def holesOf (s : Sys) (dev ip : ℕ) (L : List ℕ) : Holes where
  larg := (s.ino ip).larg
  empty q := place s dev (ip, q) = 0
  free := L.length
  flock := Super.flock (s.sb dev)

variable {s s' : Sys} {dev ip log : ℕ} {L : List ℕ} {F : Set ℕ} {σ : Holes}

lemma looks_holesOf (s : Sys) (dev ip : ℕ) (L : List ℕ) : Looks s dev ip L (holesOf s dev ip L) :=
  ⟨rfl, fun _ => by simp [holesOf], rfl, rfl⟩

lemma Looks.hole (h : Looks s dev ip L σ) (q : Slot) :
    hole s dev (ip, q) = if σ.empty q = true then 1 else 0 := by
  rw [Micronix.hole]
  simp only [h.empty q]

/-- The blocks that are needed are the empty places on the way. -/
lemma Looks.needLarge (h : Looks s dev ip L σ) (log : ℕ) :
    needLarge s dev ip log = σ.count (way true log) := by
  rw [Micronix.needLarge, Holes.count, way, if_pos rfl]
  split_ifs
  · simp only [h.hole, List.countP_cons, List.countP_nil]
    omega
  · simp only [h.hole, List.countP_cons, List.countP_nil]
    omega

/-! ## The walk in large addressing -/

/-- When the walk finds the block, every place on its way is filled, and no other place. -/
lemma imapLarge_places (h : Owned s dev L F) (hd : (s.ino ip).dev = dev)
    (hio : (s.ino ip).fmt.iio = false) (hl : (s.ino ip).larg = true) (hlog : log < 32768)
    (he : s.error = none) (hv : (imapLarge s ip log dev).1.1 ≠ 0) (q : Slot) :
    place (imapLarge s ip log dev).2 dev (ip, q) = 0 ↔
      place s dev (ip, q) = 0 ∧ q ∉ way true log := by
  have h1 := imapi_spec (n := min (log / 256) 7) h hd hio (by omega) he
  have hl1 : ((imapi s ip (min (log / 256) 7)).2.ino ip).larg = true := by rw [imapi_larg, hl]
  have hg1 := h1.grows
  unfold imapLarge at hv ⊢
  dsimp only at hv ⊢
  set r := imapi s ip (min (log / 256) 7) with hr
  have hd1 : (r.2.ino ip).dev = dev := by rw [hg1.dev, hd]
  rw [way, if_pos rfl]
  by_cases h7 : log / 256 < 7
  · have hmin : min (log / 256) 7 = log / 256 := by omega
    rw [hmin] at h1
    rw [if_neg (Nat.not_le_of_lt h7)] at hv ⊢
    rw [if_pos h7]
    have hv1 : r.1.1 ≠ 0 := by
      intro h0
      rw [h0, imapb_zero] at hv
      exact hv rfl
    have hpl : r.1.1 = place r.2 dev (ip, .addr (log / 256)) := h1.found.place hv1
    have hp : Points r.2 dev (.word dev r.1.1 (log % 256)) (ip, .ind (log / 256) (log % 256)) := by
      rw [hpl]
      exact .ind hd1 hl1 (by omega) (hpl ▸ hv1)
    obtain ⟨L1, ho1⟩ := h1.found.owned
    have h2 := imapb_spec ho1 hp hv1
    have hend : (imapb r.2 r.1.1 (log % 256) dev).1.1
        = place (imapb r.2 r.1.1 (log % 256) dev).2 dev (ip, .ind (log / 256) (log % 256)) :=
      h2.found.place hv
    by_cases hq2 : q = .ind (log / 256) (log % 256)
    · subst hq2
      rw [← hend]
      simp [hv]
    · rw [h2.rest hv (ip, q) (by simpa using hq2)]
      by_cases hq1 : q = .addr (log / 256)
      · subst hq1
        rw [← hpl]
        simp [hv1]
      · rw [h1.rest hv1 (ip, q) (by simpa using hq1)]
        simp [hq1, hq2]
  · have hmin : min (log / 256) 7 = 7 := by omega
    rw [hmin] at h1
    rw [if_pos (Nat.le_of_not_lt h7)] at hv ⊢
    rw [if_neg h7]
    have hv1 : r.1.1 ≠ 0 := by
      intro h0
      rw [h0, imapb_zero, imapb_zero] at hv
      exact hv rfl
    have hpl : r.1.1 = place r.2 dev (ip, .addr 7) := h1.found.place hv1
    have hp : Points r.2 dev (.word dev r.1.1 (log / 256 - 7)) (ip, .ind 7 (log / 256 - 7)) := by
      rw [hpl]
      exact .ind hd1 hl1 (by omega) (hpl ▸ hv1)
    obtain ⟨L1, ho1⟩ := h1.found.owned
    have h2 := imapb_spec ho1 hp hv1
    set t := imapb r.2 r.1.1 (log / 256 - 7) dev with ht
    have hv2 : t.1.1 ≠ 0 := by
      intro h0
      rw [h0, imapb_zero] at hv
      exact hv rfl
    have hpl2 : t.1.1 = place t.2 dev (ip, .ind 7 (log / 256 - 7)) := h2.found.place hv2
    have hd2 : (t.2.ino ip).dev = dev := by rw [h2.grows.dev, hd1]
    have hp2 : Points t.2 dev (.word dev t.1.1 (log % 256))
        (ip, .dbl (log / 256 - 7) (log % 256)) := by
      rw [hpl2]
      exact .dbl hd2 (by omega) (hpl2 ▸ hv2)
    obtain ⟨L2, ho2⟩ := h2.found.owned
    have h3 := imapb_spec ho2 hp2 hv2
    have hend : (imapb t.2 t.1.1 (log % 256) dev).1.1
        = place (imapb t.2 t.1.1 (log % 256) dev).2 dev (ip, .dbl (log / 256 - 7) (log % 256)) :=
      h3.found.place hv
    by_cases hq3 : q = .dbl (log / 256 - 7) (log % 256)
    · subst hq3
      rw [← hend]
      simp [hv]
    · rw [h3.rest hv (ip, q) (by simpa using hq3)]
      by_cases hq2 : q = .ind 7 (log / 256 - 7)
      · subst hq2
        rw [← hpl2]
        simp [hv2]
      · rw [h2.rest hv2 (ip, q) (by simpa using hq2)]
        by_cases hq1 : q = .addr 7
        · subst hq1
          rw [← hpl]
          simp [hv1]
        · rw [h1.rest hv1 (ip, q) (by simpa using hq1)]
          simp [hq1, hq2, hq3]

/-- The walk fills the places on its way, if there are blocks for them. -/
lemma imapLarge_fill (h : Owned s dev L F) (hd : (s.ino ip).dev = dev)
    (hio : (s.ino ip).fmt.iio = false) (hl : (s.ino ip).larg = true) (hlog : log < 32768)
    (he : s.error = none) (hσ : Looks s dev ip L σ) :
    match σ.fill log with
    | none => (imapLarge s ip log dev).2.error ≠ none
    | some σ' => (imapLarge s ip log dev).2.error = none ∧
        ∃ L', Owned (imapLarge s ip log dev).2 dev L' F ∧
          Looks (imapLarge s ip log dev).2 dev ip L' σ' := by
  obtain ⟨hg, hl', hf⟩ := imapLarge_spec h hd hio hl hlog he
  have hσl : σ.larg = true := hσ.larg ▸ hl
  rw [hσ.needLarge log, ← hσl] at hf
  unfold Holes.fill
  dsimp only
  obtain ⟨hv, hv0, he', hn, hro, ho⟩ | ⟨-, he', hno, -⟩ := hf
  · rw [hσ.free, hσ.flock, if_pos ⟨hn, hro⟩]
    refine ⟨he', _, ho, by rw [hl', hσl], fun q => ?_, by rw [List.length_drop], ?_⟩
    · rw [imapLarge_places h hd hio hl hlog he hv0 q]
      simp only [Bool.and_eq_true, hσ.empty q, decide_eq_true_eq, hσl]
    · exact hg.sb.flock.symm
  · rw [hσ.free, hσ.flock, if_neg]
    · exact he'
    · rintro ⟨hn, hro⟩
      rcases hno with hno | ⟨hn0, hno⟩
      · omega
      · rcases hro with hro | hro
        · exact hn0 hro
        · rw [hno] at hro
          exact absurd hro (by simp)

/-! ## The conversion, and `imap` -/

/-- The conversion takes a block and moves the eight places. -/
lemma toLarge_convert (h : Owned s dev L F) (hd : (s.ino ip).dev = dev)
    (hio : (s.ino ip).fmt.iio = false) (hl : (s.ino ip).larg = false) (hσ : Looks s dev ip L σ)
    (hyes : ¬(σ.free = 0 ∨ σ.flock = true)) :
    ∃ L', Owned (toLarge s ip dev).2 dev L' F ∧ Looks (toLarge s ip dev).2 dev ip L' σ.convert := by
  rw [hσ.free, hσ.flock, List.length_eq_zero_iff] at hyes
  obtain ⟨hL, hrw⟩ := not_or.mp hyes
  obtain ⟨b, L', rfl⟩ := List.exists_cons_of_ne_nil hL
  have hrw' : flock (s.sb dev) = false := by simpa using hrw
  obtain ⟨hb, he, -, ho, hpl, hg⟩ := h.balloc hrw' ip
  have hb0 : b ≠ 0 := (h.part.list_range b List.mem_cons_self).ne_zero
  have hbF : b ∉ F := h.part.list_hand b List.mem_cons_self
  have hino := balloc_ino s dev
  have hd1 : ((balloc s dev).2.ino ip).dev = dev := by rw [hino, hd]
  have hio1 : ((balloc s dev).2.ino ip).fmt.iio = false := by rw [hino, hio]
  have hl1 : ((balloc s dev).2.ino ip).larg = false := by rw [hino, hl]
  have hmem : b ∈ insert b F := Set.mem_insert b F
  obtain ⟨hoc, hgc⟩ := ho.convert hmem hd1 hio1 hl1
  rw [Set.insert_sdiff_self_of_notMem hbF] at hoc
  have ht : toLarge s ip dev = (true, Micronix.convert (balloc s dev).2 dev ip b) := by
    simp [toLarge, hb, hb0, Micronix.convert]
  rw [ht]
  refine ⟨L', hoc, by simp [Micronix.convert, Holes.convert], fun q => ?_, ?_, ?_⟩
  · rw [place_convert ho hmem hd1 hio1 hl1, if_pos rfl]
    cases q with
    | addr n =>
        by_cases hn : n = 0
        · simp [Holes.convert, hn, hb0]
        · simp [Holes.convert, hn]
    | ind n k =>
        by_cases hn : n = 0
        · simp [Holes.convert, hn, hpl, hσ.empty]
        · simp [Holes.convert, hn]
    | dbl k j => simp [Holes.convert]
  · show σ.free - 1 = _
    rw [hσ.free]
    rfl
  · show σ.flock = _
    rw [hσ.flock, hgc.sb.flock, hg.sb.flock]

variable (log) in
/-- **`imap` and the holes.**  `imap` succeeds if and only if `Holes.map` does, and then the file
looks as it says. -/
theorem imap_holes (h : Owned s dev L F) (hd : (s.ino ip).dev = dev)
    (hio : (s.ino ip).fmt.iio = false) (he : s.error = none) (hσ : Looks s dev ip L σ) :
    match σ.map log with
    | none => (imap s ip log).2.error ≠ none
    | some σ' => (imap s ip log).2.error = none ∧
        ∃ L', Owned (imap s ip log).2 dev L' F ∧ Looks (imap s ip log).2 dev ip L' σ' := by
  by_cases hlog : 32768 ≤ log
  · rw [Holes.map, if_pos hlog]
    simp [imap, hio, hlog]
  have hlt := Nat.lt_of_not_le hlog
  rw [Holes.map, if_neg hlog]
  by_cases hl : (s.ino ip).larg = true
  · have him : imap s ip log = imapLarge s ip log dev := by simp [imap, hio, hl, hd, hlog]
    rw [if_pos (Or.inl (hσ.larg ▸ hl)), him]
    exact imapLarge_fill h hd hio hl hlt he hσ
  · have hl0 : (s.ino ip).larg = false := by simpa using hl
    have hσl : σ.larg = false := hσ.larg ▸ hl0
    by_cases h8 : log < 8
    · have him : imap s ip log = imapi s ip log := by simp [imap, hio, hl0, h8, hlog]
      rw [if_pos (Or.inr h8), him]
      have h1 := imapi_spec h hd hio h8 he
      have hway : way σ.larg log = [.addr log] := by
        rw [hσl]
        rfl
      have hone : σ.count [.addr log] = hole s dev (ip, .addr log) := by
        rw [hσ.hole, Holes.count, List.countP_cons, List.countP_nil, Nat.zero_add]
      unfold Holes.fill
      dsimp only
      rw [hway, hone]
      obtain ⟨hv, hv0, he', hn, hro, ho⟩ | ⟨-, he', hno, -⟩ := h1.found
      · rw [hσ.free, hσ.flock, if_pos ⟨hn, hro⟩]
        refine ⟨he', _, ho, by rw [imapi_larg, hσ.larg], fun q => ?_, by rw [List.length_drop], ?_⟩
        · simp only [Bool.and_eq_true, hσ.empty q, decide_eq_true_eq, List.mem_singleton]
          by_cases hq : q = .addr log
          · subst hq
            rw [← hv]
            simp [hv0]
          · rw [h1.rest hv0 (ip, q) (by simpa using hq)]
            simp [hq]
        · exact h1.grows.sb.flock.symm
      · rw [hσ.free, hσ.flock, if_neg]
        · exact he'
        · rintro ⟨hn, hro⟩
          rcases hno with hno | ⟨hn0, hno⟩
          · omega
          · rcases hro with hro | hro
            · exact hn0 hro
            · rw [hno] at hro
              exact absurd hro (by simp)
    · rw [if_neg (by simp [hσl, h8])]
      by_cases hno : σ.free = 0 ∨ σ.flock = true
      · rw [if_pos hno]
        have hno' : L = [] ∨ flock (s.sb dev) = true := by
          rwa [hσ.free, hσ.flock, List.length_eq_zero_iff] at hno
        obtain ⟨b, L', rfl, hrw, -⟩ | ⟨-, ht, he1, -⟩ := toLarge_spec h hd hio hl0
        · rcases hno' with hnil | hro
          · cases hnil
          · rw [hrw] at hro
            cases hro
        · have him : imap s ip log = ((0, 0), (toLarge s ip dev).2) := by
            simp [imap, hio, hl0, h8, hd, hlog, ht]
          rw [him]
          exact he1
      · rw [if_neg hno]
        obtain ⟨L', ho', hlook⟩ := toLarge_convert h hd hio hl0 hσ hno
        obtain ⟨-, -, -, -, ht, he1, -, hl1, hg1, -⟩ | ⟨hno', -⟩ := toLarge_spec h hd hio hl0
        · have him : imap s ip log = imapLarge (toLarge s ip dev).2 ip log dev := by
            simp [imap, hio, hl0, h8, hd, hlog, ht]
          rw [him]
          exact imapLarge_fill ho' (by rw [hg1.dev, hd]) (by rw [hg1.fmt, hio]) hl1 hlt he1 hlook
        · rw [hσ.free, hσ.flock, List.length_eq_zero_iff] at hno
          exact absurd hno' hno

/-! ## What the loops move -/

/-- How many of `count` bytes from `into` of block `log` on a loop of `fio.c` moves, before a block
is not to be had. -/
def Holes.moves : ℕ → Holes → ℕ → ℕ → ℕ → ℕ
  | 0, _, _, _, _ => 0
  | fuel + 1, σ, log, into, count =>
      if count = 0 then 0
      else match σ.map log with
        | none => 0
        | some σ' =>
            let nbytes := min count (512 - into)
            nbytes + moves fuel σ' (log + 1) 0 (count - nbytes)

lemma Holes.map_lt {σ σ' : Holes} (h : σ.map log = some σ') : log < 32768 := by
  by_contra hlog
  rw [Holes.map, if_pos (Nat.le_of_not_lt hlog)] at h
  cases h

/-- Storing into a data block leaves the holes. -/
lemma Looks.store_data (hσ : Looks s dev ip L σ) (h : Owned s dev L F)
    (hb : lookup s dev ip log ≠ 0) (d : Bytes) :
    Looks (s.put dev (lookup s dev ip log) d) dev ip L σ := by
  have hsb : (s.put dev (lookup s dev ip log) d).sb dev = s.sb dev :=
    Sys.put_sb_other (h.place_ne_one _)
  refine ⟨hσ.larg, fun q => ?_, hσ.free, by rw [hsb, hσ.flock]⟩
  rw [h.place_data hb, hσ.empty]

/-- A loop moves what the holes say: the loop of `iwrite`. -/
theorem iwriteLoop_moves : ∀ (fuel log into : ℕ) {s : Sys} {io : Io} {L : List ℕ} {σ : Holes},
    into < 512 → io.offset < 4294967296 → Owned s dev L F → (s.ino ip).dev = dev →
      (s.ino ip).fmt.iio = false → s.error = none → Looks s dev ip L σ →
        (iwriteLoop ip dev fuel log into s io).2 = io.advance (σ.moves fuel log into io.count)
  | 0, _, _, _, _, _, _, _, hof, _, _, _, _, _ => (Io.advance_zero hof).symm
  | fuel + 1, log, into, s, io, L, σ, hinto, hof, ho, hd, hio, he, hσ => by
      by_cases h0 : io.count = 0
      · simp only [iwriteLoop, Holes.moves, h0, if_true]
        exact (Io.advance_zero hof).symm
      · have hmap := imap_holes log ho hd hio he hσ
        obtain ⟨hg, hturn⟩ := imap_turn log ho hd hio he
        rw [iwriteLoop, if_neg h0]
        dsimp only
        rw [Holes.moves, if_neg h0]
        cases hm : σ.map log with
        | none =>
            rw [hm] at hmap
            rw [if_pos hmap]
            exact (Io.advance_zero hof).symm
        | some σ' =>
            rw [hm] at hmap
            obtain ⟨he1, L1, ho1, hσ1⟩ := hmap
            obtain ⟨hno, -⟩ | ⟨-, -, hv, hv0, -⟩ := hturn
            · exact absurd he1 hno
            set t := (imap s ip log).2 with ht
            set n := min io.count (512 - into) with hn
            have hb : lookup t dev ip log ≠ 0 := hv ▸ hv0
            obtain ⟨ho2, hst⟩ := ho1.store_data hb (show into + n ≤ 512 by omega) io.mem io.base
            have hσ2 := hσ1.store_data ho1 hb
              (copyBytes io.mem io.base (t.blk dev (lookup t dev ip log)) into n)
            set t' := t.put dev (lookup t dev ip log)
              (copyBytes io.mem io.base (t.blk dev (lookup t dev ip log)) into n) with ht'
            have hst0 := hg.then_stored hst
            have hmod : (log + 1) % 65536 = log + 1 :=
              Nat.mod_eq_of_lt (by have := Holes.map_lt hm; omega)
            simp only [he1, ne_eq, not_true_eq_false, if_false, writeTurn_eq t n he1,
              iomoveWrite, hmod, hv]
            have hof' : (io.advance n).offset < 4294967296 := Nat.mod_lt _ (by omega)
            have hrest := iwriteLoop_moves fuel (log + 1) 0 (s := t') (by omega) hof' ho2 (by rw [hst0.dev, hd]) (by rw [hst0.fmt, hio]) he1 hσ2
            exact hrest.trans (Io.advance_advance ..)

end Micronix
