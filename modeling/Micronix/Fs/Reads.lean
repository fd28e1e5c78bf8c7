import Micronix.Fs.Holes
import Micronix.Fs.Ownership

/-!
# How much `iread` reads

`iread` cuts its request to what the file has left, and a hole that is read gets a block.  Both
`request` and `gap` are signed, so that a count from 32768 on is taken for a negative number and never
cut, and an offset more than 2^31 past the end for one before it.  Such a read goes on past the end
of the file, and the loop maps the blocks there one after another.
-/

namespace Micronix

open Bytes Super

/-! ## The blocks that are mapped -/

/-- The logical blocks that the loop of `iread` calls `imap` for. -/
def ireadLoopMaps (ip dev : ℕ) : ℕ → ℕ → ℕ → Sys → Io → List ℕ
  | 0, _, _, _, _ => []
  | fuel + 1, log, into, s, io =>
      if io.count = 0 then []
      else
        let r := imap s ip log
        if r.2.error ≠ none then [log]
        else
          let nbytes := min io.count (512 - into)
          let s := r.2.setError none                -- bread
          let io := iomoveRead io (s.blk dev r.1.1) into nbytes
          log :: ireadLoopMaps ip dev fuel ((log + 1) % 65536) 0 s io

/-- The request that is left when `iread` has looked at the end of the file. -/
def cutRequest (i : Inode) (io : Io) : ℕ :=
  if i.fmt ≠ .IFBLK ∧ io.count < 32768 ∧ readGap i.size io.offset < io.count
  then readGap i.size io.offset else io.count

/-- The logical blocks that `iread` calls `imap` for. -/
def ireadMaps (s : Sys) (ip : ℕ) (io : Io) : List ℕ :=
  let i := s.ino ip
  if io.count = 0 ∨ i.fmt = .IFCHR then []
  else if i.fmt ≠ .IFBLK ∧
      (readGap i.size io.offset = 0 ∨ readGap i.size io.offset ≥ 2147483648) then []
  else ireadLoopMaps ip (ioDev i) (cutRequest i io) (io.offset / 512 % 65536) (io.offset % 512) s
    { io with count := cutRequest i io }

/-! ## What the holes tell -/

namespace Holes

variable {σ : Holes} {fuel log into count : ℕ}

/-- The logical blocks that a loop tries to map. -/
def visits : ℕ → Holes → ℕ → ℕ → ℕ → List ℕ
  | 0, _, _, _, _ => []
  | fuel + 1, σ, log, into, count =>
      if count = 0 then []
      else log :: match σ.map log with
        | none => []
        | some σ' => visits fuel σ' (log + 1) 0 (count - min count (512 - into))

lemma visits_zero (σ : Holes) (fuel log into : ℕ) : σ.visits fuel log into 0 = [] := by
  cases fuel <;> rfl

lemma moves_le : ∀ (fuel : ℕ) (σ : Holes) (log into count : ℕ),
    σ.moves fuel log into count ≤ count
  | 0, _, _, _, _ => Nat.zero_le _
  | fuel + 1, σ, log, into, count => by
      rw [moves]
      split_ifs with h0
      · exact Nat.zero_le _
      · cases hm : σ.map log with
        | none => exact Nat.zero_le _
        | some σ' =>
            have ih := moves_le fuel σ' (log + 1) 0 (count - min count (512 - into))
            dsimp only
            omega

/-- A block that is tried begins before the end of the bytes that are moved, or it is the one at
which the loop stops. -/
lemma visits_below : ∀ (fuel : ℕ) (σ : Holes) (log into count : ℕ), into < 512 → ∀ l,
    l ∈ σ.visits fuel log into count →
      0 < σ.moves fuel log into count ∧
          512 * l < 512 * log + into + σ.moves fuel log into count ∨
        σ.moves fuel log into count < count ∧ l = log + (into + σ.moves fuel log into count) / 512
  | 0, _, _, _, _, _, _, hl => absurd hl List.not_mem_nil
  | fuel + 1, σ, log, into, count, hinto, l, hl => by
      by_cases h0 : count = 0
      · rw [visits, if_pos h0] at hl
        exact absurd hl List.not_mem_nil
      · rw [visits, if_neg h0] at hl
        rw [moves, if_neg h0]
        cases hm : σ.map log with
        | none =>
            rw [hm] at hl
            obtain rfl := List.mem_singleton.mp hl
            exact Or.inr ⟨Nat.pos_of_ne_zero h0, by dsimp only; omega⟩
        | some σ' =>
            rw [hm] at hl
            dsimp only
            rcases List.mem_cons.mp hl with rfl | hl
            · exact Or.inl ⟨by omega, by omega⟩
            · dsimp only at hl
              -- there is a next block only where this one was used to its end
              have hmore : 512 - into < count := by
                by_contra hle
                rw [Nat.min_eq_left (Nat.le_of_not_lt hle), Nat.sub_self, visits_zero] at hl
                exact absurd hl List.not_mem_nil
              have ih := visits_below fuel σ' (log + 1) 0 _ (by decide) l hl
              generalize σ'.moves fuel (log + 1) 0 (count - min count (512 - into)) = n at ih
              rcases ih with ⟨-, ih⟩ | ⟨hn, rfl⟩
              · exact Or.inl ⟨by omega, by omega⟩
              · exact Or.inr ⟨by omega, by omega⟩

/-- The block at which the loop stops is one that it tried. -/
lemma visits_stop : ∀ (fuel : ℕ) (σ : Holes) (log into count : ℕ), count ≤ fuel → into < 512 →
    σ.moves fuel log into count < count →
      log + (into + σ.moves fuel log into count) / 512 ∈ σ.visits fuel log into count
  | 0, _, _, _, _, hc, _, hlt => absurd hlt (by omega)
  | fuel + 1, σ, log, into, count, hc, hinto, hlt => by
      by_cases h0 : count = 0
      · omega
      · rw [moves, if_neg h0] at hlt ⊢
        rw [visits, if_neg h0]
        cases hm : σ.map log with
        | none =>
            refine List.mem_singleton.mpr ?_
            dsimp only
            omega
        | some σ' =>
            rw [hm] at hlt
            dsimp only at hlt ⊢
            have ih := visits_stop fuel σ' (log + 1) 0 (count - min count (512 - into)) (by omega)
              (by decide) (by omega)
            generalize σ'.moves fuel (log + 1) 0 (count - min count (512 - into)) = n at *
            refine List.mem_cons_of_mem _ ?_
            have e : log + (into + (min count (512 - into) + n)) / 512
                = log + 1 + (0 + n) / 512 := by omega
            rw [e]
            exact ih

/-- The loop stops between two blocks. -/
lemma moves_boundary : ∀ (fuel : ℕ) (σ : Holes) (log into count : ℕ), count ≤ fuel → into < 512 →
    σ.moves fuel log into count < count →
      σ.moves fuel log into count = 0 ∨ (into + σ.moves fuel log into count) % 512 = 0
  | 0, _, _, _, _, hc, _, hlt => absurd hlt (by omega)
  | fuel + 1, σ, log, into, count, hc, hinto, hlt => by
      by_cases h0 : count = 0
      · omega
      · rw [moves, if_neg h0] at hlt ⊢
        cases hm : σ.map log with
        | none => exact Or.inl rfl
        | some σ' =>
            rw [hm] at hlt
            dsimp only at hlt ⊢
            have ih := moves_boundary fuel σ' (log + 1) 0 (count - min count (512 - into)) (by omega)
              (by decide) (by omega)
            omega

end Holes

variable {s : Sys} {dev ip : ℕ} {L : List ℕ} {F : Set ℕ} {σ : Holes} {io : Io}

/-- **The loop of `iread`** moves what the holes say, and tries the blocks that they say. -/
theorem ireadLoop_moves : ∀ (fuel log into : ℕ) {s : Sys} {io : Io} {L : List ℕ} {σ : Holes},
    into < 512 → io.offset < 4294967296 → Owned s dev L F → (s.ino ip).dev = dev →
      (s.ino ip).fmt.iio = false → s.error = none → Looks s dev ip L σ →
        (ireadLoop ip dev fuel log into s io).2.count
            = io.count - σ.moves fuel log into io.count ∧
          ireadLoopMaps ip dev fuel log into s io = σ.visits fuel log into io.count
  | 0, _, _, _, _, _, _, _, _, _, _, _, _, _ => ⟨rfl, rfl⟩
  | fuel + 1, log, into, s, io, L, σ, hinto, hof, ho, hd, hio, he, hσ => by
      by_cases h0 : io.count = 0
      · rw [ireadLoop, ireadLoopMaps, if_pos h0, if_pos h0, h0]
        exact ⟨by simp, (Holes.visits_zero ..).symm⟩
      · have hmap := imap_holes log ho hd hio he hσ
        obtain ⟨hg, -⟩ := imap_turn log ho hd hio he
        rw [ireadLoop, ireadLoopMaps, if_neg h0, if_neg h0]
        dsimp only
        rw [Holes.moves, Holes.visits, if_neg h0, if_neg h0]
        cases hm : σ.map log with
        | none =>
            rw [hm] at hmap
            rw [if_pos hmap, if_pos hmap]
            exact ⟨rfl, rfl⟩
        | some σ' =>
            rw [hm] at hmap
            obtain ⟨he1, L1, ho1, hσ1⟩ := hmap
            set t := (imap s ip log).2 with ht
            set n := min io.count (512 - into) with hn
            have hte : t.setError none = t := by
              rw [← he1]
              rfl
            have hmod : (log + 1) % 65536 = log + 1 :=
              Nat.mod_eq_of_lt (by have := Holes.map_lt hm; omega)
            simp only [he1, ne_eq, not_true_eq_false, if_false, hte, hmod]
            have hof' : (iomoveRead io (t.blk dev (imap s ip log).1.1) into n).offset < 4294967296 :=
              Nat.mod_lt _ (by decide)
            obtain ⟨hc, hv⟩ := ireadLoop_moves fuel (log + 1) 0 (s := t) (by decide) hof' ho1 (by rw [hg.dev, hd]) (by rw [hg.fmt, hio]) he1 hσ1
            have hcnt : (iomoveRead io (t.blk dev (imap s ip log).1.1) into n).count
                = io.count - n := rfl
            rw [hcnt] at hc hv
            exact ⟨by rw [hc, Nat.sub_sub], congrArg (log :: ·) hv⟩

/-! ## The call -/

/-- `iread` moves the bytes that the file has for the request, stores nowhere else, and maps no block
that lies at or past the end. -/
structure ReadsExactly (drv : CharDriver) (s : Sys) (ip : ℕ) (io : Io) : Prop where
  bytes : (iread drv s ip io).1 = min io.count ((s.ino ip).size - io.offset)
  memory : ∀ x, x < io.base ∨ io.base + (iread drv s ip io).1 ≤ x →
    (iread drv s ip io).2.2.mem x = io.mem x
  blocks : ∀ l ∈ ireadMaps s ip io, 512 * l < (s.ino ip).size

/-- How many of `n` bytes from the offset on there are blocks for. -/
def had (s : Sys) (dev ip : ℕ) (L : List ℕ) (offset n : ℕ) : ℕ :=
  (holesOf s dev ip L).moves n (offset / 512 % 65536) (offset % 512) n

/-- Where nothing is to be read. -/
lemma iread_none (drv : CharDriver) (hreg : (s.ino ip).fmt = .IFREG)
    (hno : io.count = 0 ∨ readGap (s.ino ip).size io.offset = 0 ∨
      readGap (s.ino ip).size io.offset ≥ 2147483648) :
    iread drv s ip io = (0, s, io) ∧ ireadMaps s ip io = [] := by
  by_cases h0 : io.count = 0
  · simp [iread, ireadMaps, h0]
  · have hend := hno.resolve_left h0
    simp [iread, ireadMaps, h0, hreg, hend]

/-- Where something is, the loop is run for what is left of the request. -/
lemma iread_some (drv : CharDriver) (ho : Owned s dev L F) (hd : (s.ino ip).dev = dev)
    (hreg : (s.ino ip).fmt = .IFREG) (he : s.error = none) (hof : io.offset < 4294967296)
    (h0 : io.count ≠ 0) (hgap : readGap (s.ino ip).size io.offset ≠ 0)
    (hlt : readGap (s.ino ip).size io.offset < 2147483648) :
    (iread drv s ip io).1 = had s dev ip L io.offset (cutRequest (s.ino ip) io) ∧
      (∀ x, x < io.base ∨ io.base + (iread drv s ip io).1 ≤ x →
        (iread drv s ip io).2.2.mem x = io.mem x) ∧
      ireadMaps s ip io = (holesOf s dev ip L).visits (cutRequest (s.ino ip) io)
        (io.offset / 512 % 65536) (io.offset % 512) (cutRequest (s.ino ip) io) := by
  have hio : (s.ino ip).fmt.iio = false := by rw [hreg]; rfl
  have hdev : ioDev (s.ino ip) = dev := by rw [ioDev, hio, if_neg (by simp), hd]
  have hno : ¬(readGap (s.ino ip).size io.offset = 0 ∨
      readGap (s.ino ip).size io.offset ≥ 2147483648) := by omega
  set r := cutRequest (s.ino ip) io with hr
  have hinto : io.offset % 512 < 512 := Nat.mod_lt _ (by decide)
  have hof' : ({ io with count := r } : Io).offset < 4294967296 := hof
  obtain ⟨hcount, hmaps⟩ := ireadLoop_moves r
    (io.offset / 512 % 65536) (io.offset % 512) hinto hof' ho hd hio he (looks_holesOf s dev ip L)
  obtain ⟨n, hfill, hn, -⟩ := ireadLoop_spec r (io.offset / 512 % 65536) (io.offset % 512) s
    { io with count := r } le_rfl hinto (Nat.mod_lt _ (by decide)) hof ho hd hio he
  have hle := Holes.moves_le r (holesOf s dev ip L) (io.offset / 512 % 65536) (io.offset % 512) r
  set t := ireadLoop ip dev r (io.offset / 512 % 65536) (io.offset % 512) s
    { io with count := r } with ht
  have hchr : (s.ino ip).fmt ≠ .IFCHR := by rw [hreg]; decide
  have hi : iread drv s ip io = (r - t.2.count, touchRead t.1 ip, t.2) := by
    rw [iread, if_neg h0]
    dsimp only
    rw [if_neg hchr, if_neg fun e => hno e.2, hdev]
    rfl
  have hcnt : t.2.count = r - n := by rw [hfill]; rfl
  have hret : r - t.2.count = had s dev ip L io.offset r := by
    rw [hcount, had]
    exact Nat.sub_sub_self hle
  have hn' : r - t.2.count = n := by
    have hn2 : n ≤ r := hn
    omega
  rw [hi]
  refine ⟨hret, fun x hx => ?_, ?_⟩
  · rw [hfill]
    refine if_neg fun e => ?_
    dsimp only at hx e
    omega
  · rw [ireadMaps]
    rw [if_neg (not_or.mpr ⟨h0, hchr⟩), if_neg fun e => hno e.2, hdev]
    exact hmaps

/-- **When `iread` reads exactly.**  There is nothing to read, and the offset is not so far past the end
that the difference turns positive; or the request is cut, or need not be, and there are blocks for
all of it.  The last case is an accident of offsets from 2^25 on, whose block number has lost its
upper bits: the loop stops at the right byte since it gets no further block. -/
inductive ReadFits (s : Sys) (dev ip : ℕ) (L : List ℕ) (io : Io) : Prop
  | nothing : io.count = 0 → ReadFits s dev ip L io
  | past : (s.ino ip).size ≤ io.offset → io.offset ≤ (s.ino ip).size + 2147483648 →
      ReadFits s dev ip L io
  | cut : io.offset < (s.ino ip).size → (s.ino ip).size < io.offset + 2147483648 →
      io.count < 32768 ∨ io.count ≤ (s.ino ip).size - io.offset →
      had s dev ip L io.offset (min io.count ((s.ino ip).size - io.offset))
        = min io.count ((s.ino ip).size - io.offset) → ReadFits s dev ip L io
  | stopped : 33554432 ≤ io.offset → io.offset < (s.ino ip).size →
      (s.ino ip).size < io.offset + 2147483648 → 32768 ≤ io.count →
      (s.ino ip).size - io.offset < io.count →
      had s dev ip L io.offset io.count = (s.ino ip).size - io.offset → ReadFits s dev ip L io
  | refused : (s.ino ip).size + 2147483648 < io.offset →
      (holesOf s dev ip L).map (io.offset / 512 % 65536) = none →
      512 * (io.offset / 512 % 65536) < (s.ino ip).size → ReadFits s dev ip L io

/-- A loop that is to move something moves nothing if and only if its first block is not to be had. -/
lemma had_eq_zero {offset n : ℕ} (hn : n ≠ 0) : had s dev ip L offset n = 0 ↔
    (holesOf s dev ip L).map (offset / 512 % 65536) = none := by
  obtain ⟨m, rfl⟩ := Nat.exists_eq_succ_of_ne_zero hn
  rw [had, Holes.moves, if_neg hn]
  have hinto : offset % 512 < 512 := Nat.mod_lt _ (by decide)
  cases (holesOf s dev ip L).map (offset / 512 % 65536) with
  | none => simp
  | some σ' =>
      simp only [reduceCtorEq, iff_false]
      omega

/-- The blocks that are tried begin before the end if and only if the loop moves all, or stops at a
block that does. -/
lemma visits_lt_iff {offset n size : ℕ} (hn : had s dev ip L offset n ≤ size - offset) :
    (∀ l ∈ (holesOf s dev ip L).visits n (offset / 512 % 65536) (offset % 512) n, 512 * l < size) ↔
      (had s dev ip L offset n < n →
        512 * (offset / 512 % 65536 + (offset % 512 + had s dev ip L offset n) / 512) < size) := by
  have hinto : offset % 512 < 512 := Nat.mod_lt _ (by decide)
  constructor
  · intro h hlt
    exact h _ (Holes.visits_stop n _ _ _ _ le_rfl hinto hlt)
  · intro h l hl
    rcases Holes.visits_below n _ _ _ _ hinto l hl with ⟨hpos, hb⟩ | ⟨hlt, rfl⟩
    · change 0 < had s dev ip L offset n at hpos
      change 512 * l < 512 * (offset / 512 % 65536) + offset % 512 + had s dev ip L offset n at hb
      omega
    · exact h hlt

section Cases

variable {drv : CharDriver}

/-- Where nothing is to be read. -/
lemma readsExactly_none (hreg : (s.ino ip).fmt = .IFREG) (hof : io.offset < 4294967296)
    (hsz : (s.ino ip).size < 4294967296) (hno : io.count = 0 ∨ readGap (s.ino ip).size io.offset = 0 ∨
      readGap (s.ino ip).size io.offset ≥ 2147483648) :
    ReadsExactly drv s ip io ↔ ReadFits s dev ip L io := by
  obtain ⟨hi, hm⟩ := iread_none drv hreg hno
  unfold readGap at hno
  constructor
  · intro h
    have hb := h.bytes
    rw [hi] at hb
    by_cases h0 : io.count = 0
    · exact .nothing h0
    · exact .past (by dsimp only at hb; omega) (by dsimp only at hb; omega)
  · intro h
    have hwant : min io.count ((s.ino ip).size - io.offset) = 0 := by
      cases h <;> omega
    refine ⟨by rw [hi, hwant], fun x _ => by rw [hi], fun l hl => ?_⟩
    rw [hm] at hl
    exact absurd hl List.not_mem_nil

/-- What is to be shown where the loop is run. -/
lemma readsExactly_some (ho : Owned s dev L F) (hd : (s.ino ip).dev = dev)
    (hreg : (s.ino ip).fmt = .IFREG) (he : s.error = none) (hof : io.offset < 4294967296)
    (h0 : io.count ≠ 0) (hgap : readGap (s.ino ip).size io.offset ≠ 0)
    (hlt : readGap (s.ino ip).size io.offset < 2147483648) {r n : ℕ}
    (hr : cutRequest (s.ino ip) io = r) (hn : had s dev ip L io.offset r = n) :
    ReadsExactly drv s ip io ↔ n = min io.count ((s.ino ip).size - io.offset) ∧
      (n < r → 512 * (io.offset / 512 % 65536 + (io.offset % 512 + n) / 512) < (s.ino ip).size) := by
  obtain ⟨hret, hmem, hmaps⟩ := iread_some drv ho hd hreg he hof h0 hgap hlt
  rw [hr, hn] at hret
  rw [hr] at hmaps
  constructor
  · intro h
    have hb := h.bytes
    rw [hret] at hb
    refine ⟨hb, ?_⟩
    have hl := h.blocks
    rw [hmaps, visits_lt_iff (by omega), hn] at hl
    exact hl
  · rintro ⟨hb, hl⟩
    refine ⟨hret.trans hb, hmem, ?_⟩
    rw [hmaps, visits_lt_iff (by omega), hn]
    exact hl

/-- An offset before the end. -/
lemma readsExactly_before (ho : Owned s dev L F) (hd : (s.ino ip).dev = dev)
    (hreg : (s.ino ip).fmt = .IFREG) (he : s.error = none) (hof : io.offset < 4294967296)
    (h0 : io.count ≠ 0) (hlo : io.offset < (s.ino ip).size)
    (hhi : (s.ino ip).size < io.offset + 2147483648) (hsz : (s.ino ip).size < 4294967296) :
    ReadsExactly drv s ip io ↔ ReadFits s dev ip L io := by
  have hgap : readGap (s.ino ip).size io.offset = (s.ino ip).size - io.offset := by
    unfold readGap
    omega
  have hblk : (s.ino ip).fmt ≠ .IFBLK := by rw [hreg]; decide
  by_cases hcut : io.count < 32768 ∨ io.count ≤ (s.ino ip).size - io.offset
  · have hr : cutRequest (s.ino ip) io = min io.count ((s.ino ip).size - io.offset) := by
      rw [cutRequest, hgap]
      simp only [hblk, ne_eq, not_false_eq_true, true_and]
      split_ifs <;> omega
    rw [readsExactly_some ho hd hreg he hof h0 (by omega) (by omega) hr rfl]
    constructor
    · exact fun h => .cut hlo hhi hcut h.1
    · intro h
      have hn : had s dev ip L io.offset (min io.count ((s.ino ip).size - io.offset))
          = min io.count ((s.ino ip).size - io.offset) := by
        cases h with
        | cut _ _ _ hn => exact hn
        | _ => omega
      exact ⟨hn, fun hlt => absurd hn (Nat.ne_of_lt hlt)⟩
  · -- the count is taken for a negative number
    obtain ⟨hneg, hmore⟩ := not_or.mp hcut
    have hr : cutRequest (s.ino ip) io = io.count := by
      rw [cutRequest, if_neg fun e => hneg e.2.1]
    rw [readsExactly_some ho hd hreg he hof h0 (by omega) (by omega) hr rfl]
    have hbound := Holes.moves_boundary io.count (holesOf s dev ip L) (io.offset / 512 % 65536)
      (io.offset % 512) io.count le_rfl (Nat.mod_lt _ (by decide))
    change had s dev ip L io.offset io.count < io.count →
      had s dev ip L io.offset io.count = 0 ∨
        (io.offset % 512 + had s dev ip L io.offset io.count) % 512 = 0 at hbound
    constructor
    · rintro ⟨hn, hl⟩
      refine .stopped ?_ hlo hhi (by omega) (by omega) (by omega)
      rw [hn] at hl hbound
      omega
    · intro h
      cases h with
      | stopped hbig _ _ _ _ hn =>
          rw [hn] at hbound ⊢
          refine ⟨by omega, fun hlt => ?_⟩
          omega
      | _ => omega

/-- An offset so far past the end that the difference is positive. -/
lemma readsExactly_after (ho : Owned s dev L F) (hd : (s.ino ip).dev = dev)
    (hreg : (s.ino ip).fmt = .IFREG) (he : s.error = none) (hof : io.offset < 4294967296)
    (h0 : io.count ≠ 0) (hfar : (s.ino ip).size + 2147483648 < io.offset) :
    ReadsExactly drv s ip io ↔ ReadFits s dev ip L io := by
  have hgap : readGap (s.ino ip).size io.offset = (s.ino ip).size + 4294967296 - io.offset := by
    unfold readGap
    omega
  have hr0 : cutRequest (s.ino ip) io ≠ 0 := by
    rw [cutRequest, hgap]
    split_ifs <;> omega
  rw [readsExactly_some ho hd hreg he hof h0 (by omega) (by omega) rfl rfl]
  have hz : had s dev ip L io.offset (cutRequest (s.ino ip) io) = 0 ↔ _ := had_eq_zero hr0
  constructor
  · rintro ⟨hn, hl⟩
    have hn0 : had s dev ip L io.offset (cutRequest (s.ino ip) io) = 0 := by omega
    rw [hn0] at hl
    exact .refused hfar (hz.mp hn0) (by have := hl (by omega); omega)
  · intro h
    cases h with
    | refused _ hno hl =>
        rw [hz.mpr hno]
        exact ⟨by omega, fun _ => by omega⟩
    | _ => omega

end Cases

/-- **What `iread` reads.**  On a regular file of a sound file system, for every offset and every
16-bit count, `iread` moves exactly the bytes that the file has for the request, and maps no block
at or past the end, if and only if `ReadFits`. -/
theorem iread_exact (drv : CharDriver) {s : Sys} {dev ip : ℕ} {L : List ℕ} (x : Xfer)
    (ho : Owned s dev L ∅) (hd : (s.ino ip).dev = dev) (hreg : (s.ino ip).fmt = .IFREG)
    (he : s.error = none) (hsz : (s.ino ip).size < 4294967296) :
    ReadsExactly drv s ip x.io ↔ ReadFits s dev ip L x.io := by
  have hof : x.io.offset < 4294967296 := x.offset.toNat_lt
  by_cases hno : x.io.count = 0 ∨ readGap (s.ino ip).size x.io.offset = 0 ∨
      readGap (s.ino ip).size x.io.offset ≥ 2147483648
  · exact readsExactly_none hreg hof hsz hno
  · obtain ⟨h0, hgap⟩ := not_or.mp hno
    unfold readGap at hgap
    by_cases hlo : x.io.offset < (s.ino ip).size
    · exact readsExactly_before ho hd hreg he hof h0 hlo (by omega) hsz
    · exact readsExactly_after ho hd hreg he hof h0 (by omega)

/-! ## Ten bytes -/

/-- The small device after ten bytes were written. -/
def tenBytes : Sys := (iwrite nullDriver (smallDisk .IFREG) 0 ⟨10, 0, 0, zero⟩).2.1

lemma tenBytes_owned : ∃ L, Owned tenBytes 0 L ∅ := by
  obtain ⟨n, -, -, -, ho, -⟩ := iwrite_spec nullDriver ⟨10, 0, 0, zero⟩ (smallDisk_owned .IFREG)
    (show ((smallDisk .IFREG).ino 0).dev = 0 from rfl) rfl rfl (by decide)
  exact ho

/-- A request for 20 bytes gets the ten. -/
theorem iread_exact_ten :
    ReadsExactly nullDriver tenBytes 0 (⟨20, 0, 0, zero⟩ : Xfer).io := by
  obtain ⟨L, ho⟩ := tenBytes_owned
  refine (iread_exact nullDriver ⟨20, 0, 0, zero⟩ ho rfl rfl rfl (by decide)).mpr
    (.cut (by decide) (by decide) (.inl (by decide)) ?_)
  have hwant : min (⟨20, 0, 0, zero⟩ : Xfer).io.count
      ((tenBytes.ino 0).size - (⟨20, 0, 0, zero⟩ : Xfer).io.offset) = 10 := by decide
  have hlarg : (tenBytes.ino 0).larg = false := by decide
  have hpl : place tenBytes 0 (0, .addr 0) ≠ 0 := by decide
  rw [hwant]
  simp [had, Xfer.io, Holes.moves, Holes.map, Holes.fill, Holes.count, way, holesOf, hlarg, hpl]

/-- A request for 32768 bytes of the ten gets the whole block. -/
theorem iread_past_end : ¬∀ (drv : CharDriver) (s : Sys) (dev ip : ℕ) (L : List ℕ) (x : Xfer),
    Owned s dev L ∅ → (s.ino ip).dev = dev → (s.ino ip).fmt = .IFREG → s.error = none →
      (s.ino ip).size < 4294967296 → ReadsExactly drv s ip x.io := by
  intro hall
  obtain ⟨L, ho⟩ := tenBytes_owned
  have h := hall nullDriver tenBytes 0 0 L ⟨32768, 0, 0, zero⟩ ho rfl rfl rfl (by decide)
  exact absurd h.bytes (by decide)

end Micronix
