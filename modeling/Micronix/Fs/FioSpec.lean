import Micronix.Fs.Fio
import Micronix.Fs.ImapSpec

/-!
# What `iread` and `iwrite` do

One turn of either loop is an `imap` and, on success, a transfer between memory and the one block
found.  `iwriteLoop_spec` and `ireadLoop_spec` add the turns up: `n` bytes at the logical position
of the file have been transferred, no other byte of any file has changed, every block still has
one owner, and the loop ended either because the count was used up or with `u.error` set.  The
position is that of the block counter `log`, not of `u.offset`: the two differ once the offset
outgrows 16 bits of blocks.
-/

namespace Micronix

open Bytes Super

/-! ## Storing into a data block -/

lemma dataSlot_inj {larg : Bool} {j k : ℕ} (h : dataSlot larg j = dataSlot larg k) : j = k := by
  unfold dataSlot at h
  split_ifs at h <;> simp only [Slot.ind.injEq, Slot.dbl.injEq, Slot.addr.injEq] at h <;> omega

/-- What storing `n` bytes at position `o` of file `ip` changes: its map as in `Grows`, and just
these bytes, which come from `src` at `base`. -/
structure Stored (s s' : Sys) (dev ip o n : ℕ) (src : Bytes) (base : ℕ) : Prop where
  other : ∀ k, k ≠ ip → s'.ino k = s.ino k
  self : ∃ a l m, s'.ino ip = { s.ino ip with addr := a, larg := l, imod := m }
  bytes : ∀ k x, byteAt s' dev k x =
    if k = ip ∧ o ≤ x ∧ x < o + n then src (base + (x - o)) else byteAt s dev k x
  sb : SameOutside (s.sb dev) (s'.sb dev)
  seconds : s'.seconds = s.seconds

section Stored

variable {a b c : Sys} {dev ip o n m base : ℕ} {src : Bytes}

lemma Grows.stored (h : Grows a b dev ip) (o base : ℕ) (src : Bytes) :
    Stored a b dev ip o 0 src base := by
  refine ⟨h.other, h.self, fun k x => ?_, h.sb, h.seconds⟩
  rw [if_neg (by omega), h.bytes]

lemma Grows.then_stored (h : Grows a b dev ip) (h' : Stored b c dev ip o n src base) :
    Stored a c dev ip o n src base := by
  obtain ⟨a1, l1, m1, e1⟩ := h.self
  obtain ⟨a2, l2, m2, e2⟩ := h'.self
  refine ⟨fun k hk => (h'.other k hk).trans (h.other k hk), ⟨a2, l2, m2, by rw [e2, e1]⟩,
    fun k x => ?_, h.sb.trans h'.sb, h'.seconds.trans h.seconds⟩
  rw [h'.bytes, h.bytes]

/-- Storing on from where the first store ended. -/
lemma Stored.append (h : Stored a b dev ip o n src base)
    (h' : Stored b c dev ip (o + n) m src (base + n)) :
    Stored a c dev ip o (n + m) src base := by
  obtain ⟨a1, l1, m1, e1⟩ := h.self
  obtain ⟨a2, l2, m2, e2⟩ := h'.self
  refine ⟨fun k hk => (h'.other k hk).trans (h.other k hk), ⟨a2, l2, m2, by rw [e2, e1]⟩,
    fun k x => ?_, h.sb.trans h'.sb, h'.seconds.trans h.seconds⟩
  rw [h'.bytes, h.bytes]
  by_cases hk : k = ip
  · by_cases h2 : o + n ≤ x ∧ x < o + n + m
    · rw [if_pos ⟨hk, h2⟩, if_pos ⟨hk, by omega, by omega⟩]
      congr 1
      omega
    · rw [if_neg (fun e => h2 e.2)]
      by_cases h1 : o ≤ x ∧ x < o + n
      · rw [if_pos ⟨hk, h1⟩, if_pos ⟨hk, by omega, by omega⟩]
      · rw [if_neg (fun e => h1 e.2), if_neg (fun e => by omega)]
  · rw [if_neg (fun e => hk e.1), if_neg (fun e => hk e.1), if_neg (fun e => hk e.1)]

end Stored

lemma Stored.dev {a b : Sys} {dev ip o n base : ℕ} {src : Bytes}
    (h : Stored a b dev ip o n src base) : (b.ino ip).dev = (a.ino ip).dev := by
  obtain ⟨_, _, _, e⟩ := h.self
  rw [e]

lemma Stored.fmt {a b : Sys} {dev ip o n base : ℕ} {src : Bytes}
    (h : Stored a b dev ip o n src base) : (b.ino ip).fmt = (a.ino ip).fmt := by
  obtain ⟨_, _, _, e⟩ := h.self
  rw [e]

lemma Stored.size {a b : Sys} {dev ip o n base : ℕ} {src : Bytes}
    (h : Stored a b dev ip o n src base) : (b.ino ip).size = (a.ino ip).size := by
  obtain ⟨_, _, _, e⟩ := h.self
  rw [e]

/-- Storing into a data block changes no map. -/
lemma Owned.place_data {s : Sys} {dev ip log : ℕ} {L : List ℕ} {F : Set ℕ} (h : Owned s dev L F)
    (hb : lookup s dev ip log ≠ 0) (d : Bytes) :
    place (s.put dev (lookup s dev ip log) d) dev = place s dev := by
  refine place_congr (fun _ => .refl _) fun x hx _ => Sys.put_blk_other ?_
  exact fun e => h.lookup_ne hx hb e.symm

/-- Storing into the data block of logical block `log` changes the bytes of that block of that
file, and no map. -/
lemma Owned.store_data {s : Sys} {dev ip log into n : ℕ} {L : List ℕ} {F : Set ℕ}
    (h : Owned s dev L F) (hb : lookup s dev ip log ≠ 0) (hinto : into + n ≤ 512) (src : Bytes)
    (base : ℕ) :
    Owned (s.put dev (lookup s dev ip log)
        (copyBytes src base (s.blk dev (lookup s dev ip log)) into n)) dev L F ∧
      Stored s (s.put dev (lookup s dev ip log)
        (copyBytes src base (s.blk dev (lookup s dev ip log)) into n)) dev ip
        (512 * log + into) n src base := by
  set b := lookup s dev ip log with hbdef
  set d := copyBytes src base (s.blk dev b) into n with hd
  have hb1 : b ≠ 1 := h.place_ne_one _
  have hsb : (s.put dev b d).sb dev = s.sb dev := Sys.put_sb_other hb1
  have hpl : place (s.put dev b d) dev = place s dev := h.place_data hb d
  have hlook : ∀ k j, lookup (s.put dev b d) dev k j = lookup s dev k j := by
    intro k j
    rw [lookup, lookup, hpl]
    rfl
  have hsame : ∀ {k j}, lookup s dev k j = b → k = ip ∧ j = log := by
    intro k j e
    have hkj : lookup s dev k j ≠ 0 := by rw [e]; exact hb
    have he := h.place_inj hkj (e.trans hbdef)
    have hk : k = ip := congrArg Prod.fst he
    subst hk
    exact ⟨rfl, dataSlot_inj (congrArg Prod.snd he)⟩
  refine ⟨⟨?_, ?_⟩, fun _ _ => rfl, ⟨_, _, _, rfl⟩, ?_, ?_, rfl⟩
  · exact h.list.put hb1 (h.part.place_list _ hb)
  · rw [hpl, hsb]
    exact h.part
  · intro k x
    unfold byteAt
    simp only [hlook]
    by_cases hk : k = ip ∧ x / 512 = log
    · obtain ⟨rfl, rfl⟩ := hk
      rw [← hbdef, if_neg hb, if_neg hb, Sys.put_blk_self, hd]
      by_cases hx : into ≤ x % 512 ∧ x % 512 < into + n
      · rw [copyBytes_inside hx.1 hx.2, if_pos ⟨rfl, by omega, by omega⟩]
        congr 1
        omega
      · rw [copyBytes_outside (by omega), if_neg (by omega)]
    · have hno : ¬(k = ip ∧ 512 * log + into ≤ x ∧ x < 512 * log + into + n) :=
        fun e => hk ⟨e.1, by omega⟩
      rw [if_neg hno, Sys.put_blk_other fun e => hk (hsame e)]
  · rw [hsb]
    exact .refl _

/-! ## One turn -/

/-- The blocks for logical block `log` are to be had. -/
def Avail (s : Sys) (dev ip log : ℕ) (L : List ℕ) : Prop :=
  log < 32768 ∧ need s dev ip log ≤ L.length ∧ (need s dev ip log = 0 ∨ flock (s.sb dev) = false)

/-- `imap` as the loops use it: it fails with `u.error` set exactly when the blocks are not to be
had, and otherwise gives the data block. -/
lemma imap_turn {s : Sys} {dev ip : ℕ} {L : List ℕ} {F : Set ℕ} (log : ℕ) (h : Owned s dev L F)
    (hd : (s.ino ip).dev = dev) (hio : (s.ino ip).fmt.iio = false) (he : s.error = none) :
    Grows s (imap s ip log).2 dev ip ∧
      ((imap s ip log).2.error ≠ none ∧ ¬Avail s dev ip log L ∧
          (∃ L', Owned (imap s ip log).2 dev L' F) ∨
        (imap s ip log).2.error = none ∧ Avail s dev ip log L ∧
          (imap s ip log).1.1 = lookup (imap s ip log).2 dev ip log ∧
          (imap s ip log).1.1 ≠ 0 ∧ ∃ L', Owned (imap s ip log).2 dev L' F) := by
  by_cases hlog : log < 32768
  · obtain ⟨hg, hf⟩ := imap_spec h hd hio hlog he
    refine ⟨hg, ?_⟩
    obtain ⟨hv, hv0, he', hn, hro, ho⟩ | ⟨hv, he', hno, ho⟩ := hf
    · exact Or.inr ⟨he', ⟨hlog, hn, hro⟩, hv, hv0, _, ho⟩
    · refine Or.inl ⟨he', fun ⟨_, hn, hro⟩ => ?_, ho⟩
      rcases hno with hno | ⟨hn0, hno⟩
      · omega
      · rcases hro with hro | hro
        · exact hn0 hro
        · rw [hno] at hro
          exact absurd hro (by simp)
  · have him : imap s ip log = ((0, 0), s.setError (some .EFBIG)) := by
      simp [imap, hio, Nat.not_lt.mp hlog]
    rw [him]
    refine ⟨setError_grows s dev ip _, Or.inl ⟨by simp, fun e => hlog e.1, L, h.setError _⟩⟩

/-! ## The loop of `iwrite` -/

/-- The state after a turn of `iwrite` that found block `b`. -/
lemma writeTurn_eq (s : Sys) (n : ℕ) (he : s.error = none) :
    (if n = 512 then s else s.setError none) = s := by
  split_ifs
  · rfl
  · rw [← he]
    rfl

@[simp] lemma Io.advance_zero {io : Io} (h : io.offset < 4294967296) : io.advance 0 = io := by
  simp [Io.advance, Nat.mod_eq_of_lt h]

lemma Io.advance_advance (io : Io) (n m : ℕ) : (io.advance n).advance m = io.advance (n + m) := by
  simp only [Io.advance, Io.mk.injEq, and_true]
  refine ⟨by omega, by omega, by omega⟩

/-- **The loop of `iwrite`.** -/
theorem iwriteLoop_spec {dev ip : ℕ} {F : Set ℕ} :
    ∀ (fuel log into : ℕ) (s : Sys) (io : Io) {L : List ℕ}, io.count ≤ fuel → into < 512 →
      log < 65536 → io.offset < 4294967296 → Owned s dev L F → (s.ino ip).dev = dev →
      (s.ino ip).fmt.iio = false → s.error = none →
        ∃ n, (iwriteLoop ip dev fuel log into s io).2 = io.advance n ∧ n ≤ io.count ∧
          Stored s (iwriteLoop ip dev fuel log into s io).1 dev ip (512 * log + into) n
            io.mem io.base ∧
          (∃ L', Owned (iwriteLoop ip dev fuel log into s io).1 dev L' F) ∧
          (n = io.count ∧ (iwriteLoop ip dev fuel log into s io).1.error = none ∨
            n < io.count ∧ (iwriteLoop ip dev fuel log into s io).1.error ≠ none) ∧
          (io.count ≠ 0 → (n = 0 ↔ ¬Avail s dev ip log L))
  | 0, log, into, s, io, L, hc, _, _, hof, ho, _, _, he => by
      refine ⟨0, (Io.advance_zero hof).symm, Nat.zero_le _, (Grows.refl ..).stored _ _ _, ⟨L, ho⟩,
        Or.inl ⟨by omega, he⟩, fun h => absurd (Nat.le_zero.mp hc) h⟩
  | fuel + 1, log, into, s, io, L, hc, hinto, hlog, hof, ho, hd, hio, he => by
      by_cases h0 : io.count = 0
      · have hl : iwriteLoop ip dev (fuel + 1) log into s io = (s, io) := by
          simp [iwriteLoop, h0]
        rw [hl]
        exact ⟨0, (Io.advance_zero hof).symm, Nat.zero_le _, (Grows.refl ..).stored _ _ _,
          ⟨L, ho⟩, Or.inl ⟨h0.symm, he⟩, fun h => absurd h0 h⟩
      · obtain ⟨hg, ⟨he1, hav, ho1⟩ | ⟨he1, hav, hv, hv0, L1, ho1⟩⟩ :=
          imap_turn log ho hd hio he
        · have hl : iwriteLoop ip dev (fuel + 1) log into s io = ((imap s ip log).2, io) := by
            simp [iwriteLoop, h0, he1]
          rw [hl]
          exact ⟨0, (Io.advance_zero hof).symm, Nat.zero_le _, hg.stored _ _ _, ho1,
            Or.inr ⟨Nat.pos_of_ne_zero h0, he1⟩, fun _ => ⟨fun _ => hav, fun _ => rfl⟩⟩
        · set t := (imap s ip log).2 with ht
          set n := min io.count (512 - into) with hn
          have hb : lookup t dev ip log ≠ 0 := hv ▸ hv0
          have hfit : into + n ≤ 512 := by omega
          obtain ⟨ho2, hst⟩ := ho1.store_data hb hfit io.mem io.base
          set t' := t.put dev (lookup t dev ip log)
            (copyBytes io.mem io.base (t.blk dev (lookup t dev ip log)) into n) with ht'
          have hl : iwriteLoop ip dev (fuel + 1) log into s io
              = iwriteLoop ip dev fuel (log + 1) 0 t' (io.advance n) := by
            have hmod : (log + 1) % 65536 = log + 1 := Nat.mod_eq_of_lt (by have := hav.1; omega)
            rw [iwriteLoop, if_neg h0]
            simp only [← ht, he1, ne_eq, not_true_eq_false, if_false, ← hn,
              writeTurn_eq t n he1, iomoveWrite, hmod, hv]
            rfl
          have hst0 := hg.then_stored hst
          have hd2 : (t'.ino ip).dev = dev := by rw [hst0.dev, hd]
          have hio2 : (t'.ino ip).fmt.iio = false := by rw [hst0.fmt, hio]
          have he2 : t'.error = none := he1
          have hof2 : (io.advance n).offset < 4294967296 := Nat.mod_lt _ (by omega)
          have hc2 : (io.advance n).count = io.count - n := rfl
          have hlog2 : log + 1 < 65536 := by
            have := hav.1
            omega
          obtain ⟨m, hadv, hm, hst2, ho3, hend, -⟩ := iwriteLoop_spec fuel (log + 1) 0 t'
            (io.advance n) (by omega) (by omega) hlog2 hof2 ho2 hd2 hio2 he2
          rw [hl, hadv, Io.advance_advance]
          refine ⟨n + m, rfl, by omega, ?_, ho3, ?_, fun _ => ⟨fun e => ?_, fun e => absurd hav e⟩⟩
          · by_cases hm0 : m = 0
            · -- the loop stopped after this block
              subst hm0
              refine hst0.append (m := 0) ⟨hst2.other, hst2.self, fun k x => ?_, hst2.sb,
                hst2.seconds⟩
              rw [hst2.bytes, if_neg (by omega), if_neg (by omega)]
            · have hpos : 512 * (log + 1) + 0 = 512 * log + into + n := by omega
              rw [hpos] at hst2
              exact hst0.append hst2
          · rcases hend with ⟨e, hee⟩ | ⟨e, hee⟩
            · exact Or.inl ⟨by omega, hee⟩
            · exact Or.inr ⟨by omega, hee⟩
          · omega

/-! ## The loop of `iread` -/

/-- The transfer parameters and memory after `n` bytes were read from position `pos`. -/
def filled (s : Sys) (dev ip pos : ℕ) (io : Io) (n : ℕ) : Io :=
  { io.advance n with mem := fun x =>
      if io.base ≤ x ∧ x < io.base + n then byteAt s dev ip (pos + (x - io.base)) else io.mem x }

lemma filled_zero {s : Sys} {dev ip pos : ℕ} {io : Io} (h : io.offset < 4294967296) :
    filled s dev ip pos io 0 = io := by
  have hmem : (fun x => if io.base ≤ x ∧ x < io.base + 0
      then byteAt s dev ip (pos + (x - io.base)) else io.mem x) = io.mem := by
    funext x
    rw [if_neg (by omega)]
  rw [filled, hmem, Io.advance_zero h]

/-- Reading on from where the first read ended. -/
lemma filled_filled {s t : Sys} {dev ip pos : ℕ} {io : Io} {n m : ℕ}
    (hst : ∀ o, byteAt t dev ip o = byteAt s dev ip o) :
    filled t dev ip (pos + n) (filled s dev ip pos io n) m = filled s dev ip pos io (n + m) := by
  have hadv : ∀ mem : Bytes, ({ io.advance n with mem := mem } : Io).advance m
      = { io.advance (n + m) with mem := mem } := by
    intro mem
    rw [← Io.advance_advance]
    rfl
  unfold filled
  simp only [hadv, Io.mk.injEq, true_and]
  funext x
  have hbase : (io.advance n).base = io.base + n := rfl
  simp only [hbase, hst]
  by_cases h2 : io.base + n ≤ x ∧ x < io.base + n + m
  · rw [if_pos h2, if_pos ⟨by omega, by omega⟩]
    congr 1
    omega
  · rw [if_neg h2]
    by_cases h1 : io.base ≤ x ∧ x < io.base + n
    · rw [if_pos h1, if_pos ⟨h1.1, by omega⟩]
    · rw [if_neg h1, if_neg (by omega)]

/-- Moving out of the data block is reading the file. -/
lemma iomoveRead_lookup {s : Sys} {dev ip log into n : ℕ} (io : Io)
    (hb : lookup s dev ip log ≠ 0) (hn : into + n ≤ 512) :
    iomoveRead io (s.blk dev (lookup s dev ip log)) into n
      = filled s dev ip (512 * log + into) io n := by
  unfold iomoveRead filled
  simp only [Io.mk.injEq, true_and]
  funext x
  unfold copyBytes
  by_cases hx : io.base ≤ x ∧ x < io.base + n
  · have hdiv : (512 * log + into + (x - io.base)) / 512 = log := by omega
    have hmod : (512 * log + into + (x - io.base)) % 512 = into + (x - io.base) := by omega
    rw [if_pos hx, if_pos hx, byteAt]
    simp only [hdiv, hmod]
    rw [if_neg hb]
  · rw [if_neg hx, if_neg hx]

/-- **The loop of `iread`.** -/
theorem ireadLoop_spec {dev ip : ℕ} {F : Set ℕ} :
    ∀ (fuel log into : ℕ) (s : Sys) (io : Io) {L : List ℕ}, io.count ≤ fuel → into < 512 →
      log < 65536 → io.offset < 4294967296 → Owned s dev L F → (s.ino ip).dev = dev →
      (s.ino ip).fmt.iio = false → s.error = none →
        ∃ n, (ireadLoop ip dev fuel log into s io).2
            = filled s dev ip (512 * log + into) io n ∧ n ≤ io.count ∧
          Grows s (ireadLoop ip dev fuel log into s io).1 dev ip ∧
          (∃ L', Owned (ireadLoop ip dev fuel log into s io).1 dev L' F) ∧
          (n = io.count ∧ (ireadLoop ip dev fuel log into s io).1.error = none ∨
            n < io.count ∧ (ireadLoop ip dev fuel log into s io).1.error ≠ none)
  | 0, log, into, s, io, L, hc, _, _, hof, ho, _, _, he =>
      ⟨0, (filled_zero hof).symm, Nat.zero_le _, Grows.refl .., ⟨L, ho⟩, Or.inl ⟨by omega, he⟩⟩
  | fuel + 1, log, into, s, io, L, hc, hinto, hlog, hof, ho, hd, hio, he => by
      by_cases h0 : io.count = 0
      · have hl : ireadLoop ip dev (fuel + 1) log into s io = (s, io) := by
          simp [ireadLoop, h0]
        rw [hl]
        exact ⟨0, (filled_zero hof).symm, Nat.zero_le _, Grows.refl .., ⟨L, ho⟩,
          Or.inl ⟨h0.symm, he⟩⟩
      · obtain ⟨hg, ⟨he1, hav, ho1⟩ | ⟨he1, hav, hv, hv0, L1, ho1⟩⟩ :=
          imap_turn log ho hd hio he
        · have hl : ireadLoop ip dev (fuel + 1) log into s io = ((imap s ip log).2, io) := by
            simp [ireadLoop, h0, he1]
          rw [hl]
          exact ⟨0, (filled_zero hof).symm, Nat.zero_le _, hg, ho1,
            Or.inr ⟨Nat.pos_of_ne_zero h0, he1⟩⟩
        · set t := (imap s ip log).2 with ht
          set n := min io.count (512 - into) with hn
          have hb : lookup t dev ip log ≠ 0 := hv ▸ hv0
          have hbytes : ∀ o, byteAt t dev ip o = byteAt s dev ip o := hg.bytes ip
          have hfill : filled t dev ip (512 * log + into) io n
              = filled s dev ip (512 * log + into) io n := by
            simp only [filled, hbytes]
          have hl : ireadLoop ip dev (fuel + 1) log into s io
              = ireadLoop ip dev fuel (log + 1) 0 t (filled s dev ip (512 * log + into) io n) := by
            have hmod : (log + 1) % 65536 = log + 1 := Nat.mod_eq_of_lt (by have := hav.1; omega)
            have hte : t.setError none = t := by
              rw [← he1]
              rfl
            rw [ireadLoop, if_neg h0]
            simp only [← ht, he1, ne_eq, not_true_eq_false, if_false, hmod]
            rw [hte, ← hn, hv, iomoveRead_lookup io hb (by omega), hfill]
          set io1 := filled s dev ip (512 * log + into) io n with hio1
          have hd2 : (t.ino ip).dev = dev := by rw [hg.dev, hd]
          have hio2 : (t.ino ip).fmt.iio = false := by rw [hg.fmt, hio]
          have hof2 : io1.offset < 4294967296 := Nat.mod_lt _ (by omega)
          have hc2 : io1.count = io.count - n := rfl
          have hlog2 : log + 1 < 65536 := by
            have := hav.1
            omega
          obtain ⟨m, hadv, hm, hg2, ho3, hend⟩ := ireadLoop_spec fuel (log + 1) 0 t io1
            (by omega) (by omega) hlog2 hof2 ho1 hd2 hio2 he1
          rw [hl, hadv]
          refine ⟨n + m, ?_, by omega, hg.trans hg2, ho3, ?_⟩
          · by_cases hm0 : m = 0
            · rw [hm0, filled_zero hof2]
              rfl
            · have hpos : 512 * (log + 1) + 0 = 512 * log + into + n := by omega
              rw [hpos, hio1, filled_filled hbytes]
          · rcases hend with ⟨e, hee⟩ | ⟨e, hee⟩
            · exact Or.inl ⟨by omega, hee⟩
            · exact Or.inr ⟨by omega, hee⟩

/-! ## The calls -/

/-- What the code at `done:` may change: nothing that the map or the contents depend on. -/
structure Touched (s s' : Sys) (ip : ℕ) : Prop where
  blk : s'.blk = s.blk
  error : s'.error = s.error
  seconds : s'.seconds = s.seconds
  other : ∀ k, k ≠ ip → s'.ino k = s.ino k
  map : SameMap (s.ino ip) (s'.ino ip)

lemma touchRead_touched (s : Sys) (ip : ℕ) : Touched s (touchRead s ip) ip := by
  unfold touchRead
  dsimp only
  split_ifs
  · exact ⟨rfl, rfl, rfl, fun _ _ => rfl, .refl _⟩
  · refine ⟨rfl, rfl, rfl, fun k hk => Sys.setIno_ino_ne hk, ?_⟩
    rw [Sys.setIno_ino_self]
    exact ⟨rfl, rfl, rfl, rfl⟩

lemma touchRead_size (s : Sys) (ip : ℕ) : ((touchRead s ip).ino ip).size = (s.ino ip).size := by
  unfold touchRead
  dsimp only
  split_ifs
  · rfl
  · rw [Sys.setIno_ino_self]

lemma touchWrite_touched (s : Sys) (ip o : ℕ) : Touched s (touchWrite s ip o) ip := by
  refine ⟨rfl, rfl, rfl, fun k hk => Sys.setIno_ino_ne hk, ?_⟩
  unfold touchWrite
  rw [Sys.setIno_ino_self]
  split_ifs <;> exact ⟨rfl, rfl, rfl, rfl⟩

lemma touchWrite_size (s : Sys) (ip o : ℕ) :
    ((touchWrite s ip o).ino ip).size = max (s.ino ip).size o := by
  unfold touchWrite
  rw [Sys.setIno_ino_self]
  by_cases ho : (s.ino ip).size < o
  · rw [max_eq_right ho.le]
    simp only [ho, if_true]
    split_ifs <;> rfl
  · rw [max_eq_left (Nat.not_lt.mp ho)]
    simp only [ho, if_false]
    split_ifs <;> rfl

section Touched

variable {s s' : Sys} {dev ip : ℕ}

lemma Touched.sameMap (h : Touched s s' ip) (k : ℕ) : SameMap (s.ino k) (s'.ino k) := by
  by_cases hk : k = ip
  · subst hk
    exact h.map
  · rw [h.other k hk]
    exact .refl _

lemma Touched.owned {L : List ℕ} {F : Set ℕ} (h : Touched s s' ip) (ho : Owned s dev L F) :
    Owned s' dev L F :=
  ho.ino (by rw [h.blk]) h.sameMap

lemma Touched.bytes (h : Touched s s' ip) (k o : ℕ) : byteAt s' dev k o = byteAt s dev k o := by
  have hpl : place s' dev = place s dev := place_congr h.sameMap fun _ _ _ => by rw [h.blk]
  exact byteAt_of_place (fun k => (h.sameMap k).2.2.1) hpl (fun _ _ _ => by rw [h.blk]) k o

end Touched

/-- The position in the file that the loops start from. -/
def startPos (offset : ℕ) : ℕ := 512 * (offset / 512 % 65536) + offset % 512

lemma startPos_eq {o : ℕ} (h : o < 33554432) : startPos o = o := by
  unfold startPos
  omega

/-- **`iwrite`** on a file with a block map. -/
theorem iwrite_spec (drv : CharDriver) {s : Sys} {dev ip : ℕ} (io : Io) {L : List ℕ} {F : Set ℕ}
    (ho : Owned s dev L F) (hd : (s.ino ip).dev = dev) (hio : (s.ino ip).fmt.iio = false)
    (he : s.error = none) (hof : io.offset < 4294967296) :
    ∃ n, n ≤ io.count ∧ (iwrite drv s ip io).1 = n ∧ (iwrite drv s ip io).2.2 = io.advance n ∧
      (∃ L', Owned (iwrite drv s ip io).2.1 dev L' F) ∧
      (∀ k, k ≠ ip → (iwrite drv s ip io).2.1.ino k = s.ino k) ∧
      ((iwrite drv s ip io).2.1.ino ip).dev = dev ∧
      ((iwrite drv s ip io).2.1.ino ip).fmt = (s.ino ip).fmt ∧
      ((iwrite drv s ip io).2.1.ino ip).size = (if io.count = 0 then (s.ino ip).size
        else max (s.ino ip).size (io.advance n).offset) ∧
      (∀ k x, byteAt (iwrite drv s ip io).2.1 dev k x =
        if k = ip ∧ startPos io.offset ≤ x ∧ x < startPos io.offset + n
        then io.mem (io.base + (x - startPos io.offset)) else byteAt s dev k x) ∧
      (n = io.count ∧ (iwrite drv s ip io).2.1.error = none ∨
        n < io.count ∧ (iwrite drv s ip io).2.1.error ≠ none) ∧
      (io.count ≠ 0 → (n = 0 ↔ ¬Avail s dev ip (io.offset / 512 % 65536) L)) := by
  by_cases h0 : io.count = 0
  · have hi : iwrite drv s ip io = (0, s, io) := by simp [iwrite, h0]
    rw [hi]
    refine ⟨0, Nat.zero_le _, rfl, (Io.advance_zero hof).symm, ⟨L, ho⟩, fun _ _ => rfl, hd, rfl,
      (if_pos h0).symm, fun k x => (if_neg (by omega)).symm, Or.inl ⟨h0.symm, he⟩,
      fun h => absurd h0 h⟩
  · have hchr : (s.ino ip).fmt ≠ .IFCHR := by
      intro e
      rw [e] at hio
      exact absurd hio (by decide)
    have hdev : ioDev (s.ino ip) = dev := by rw [ioDev, hio, if_neg (by simp), hd]
    obtain ⟨n, hadv, hn, hst, ⟨L', ho'⟩, hend, hfirst⟩ := iwriteLoop_spec
      io.count (io.offset / 512 % 65536) (io.offset % 512) s io (le_refl io.count)
      (Nat.mod_lt io.offset (by omega)) (Nat.mod_lt (io.offset / 512) (by omega)) hof ho hd hio he
    set r := iwriteLoop ip dev io.count (io.offset / 512 % 65536) (io.offset % 512) s io with hr
    have hi : iwrite drv s ip io = (n, touchWrite r.1 ip (io.advance n).offset, io.advance n) := by
      have hcnt : io.count - (io.advance n).count = n := by
        have hc : (io.advance n).count = io.count - n := rfl
        omega
      simp [iwrite, h0, hchr, hdev, ← hr, hadv, hcnt]
    rw [hi]
    have ht := touchWrite_touched r.1 ip (io.advance n).offset
    refine ⟨n, hn, rfl, rfl, ⟨L', ht.owned ho'⟩, ?_, ?_, ?_, ?_, ?_, ?_, hfirst⟩
    · intro k hk
      rw [ht.other k hk, hst.other k hk]
    · rw [ht.map.1, hst.dev, hd]
    · rw [ht.map.2.1, hst.fmt]
    · rw [if_neg h0, touchWrite_size, hst.size]
    · intro k x
      rw [ht.bytes, hst.bytes]
      rfl
    · rw [ht.error]
      exact hend

/-- What a read request asks for once it is cut to what the file has left. -/
def readRequest (size : ℕ) (io : Io) : ℕ := if size - io.offset < io.count then size - io.offset
  else io.count

/-- The three ways through `iread`: nothing to do, the character driver, the loop. -/
lemma iread_state (drv : CharDriver) (s : Sys) (ip : ℕ) (io : Io) :
    (iread drv s ip io).2.1 = s ∨
      ((s.ino ip).fmt = .IFCHR ∧ ∃ e, (iread drv s ip io).2.1 = touchRead (s.setError e) ip) ∨
      ∃ q, (iread drv s ip io).2.1 = touchRead (ireadLoop ip (ioDev (s.ino ip)) q
        (io.offset / 512 % 65536) (io.offset % 512) s { io with count := q }).1 ip := by
  by_cases h0 : io.count = 0
  · left
    simp only [iread, h0, if_true]
  · by_cases hchr : (s.ino ip).fmt = .IFCHR
    · right
      left
      simp only [iread, h0, hchr, if_true, if_false]
      exact ⟨trivial, _, rfl⟩
    · by_cases hgap : (s.ino ip).fmt ≠ .IFBLK ∧ (readGap (s.ino ip).size io.offset = 0 ∨
          readGap (s.ino ip).size io.offset ≥ 2147483648)
      · left
        simp only [iread, h0, hchr, if_false]
        rw [if_pos hgap]
      · right
        right
        simp only [iread, h0, hchr, if_false]
        rw [if_neg hgap]
        exact ⟨_, rfl⟩

/-- **`iread`** on a file with a block map: every block keeps its owner and no byte changes. -/
theorem iread_owned (drv : CharDriver) {s : Sys} {dev ip : ℕ} (io : Io) {L : List ℕ} {F : Set ℕ}
    (ho : Owned s dev L F) (hd : (s.ino ip).dev = dev) (hio : (s.ino ip).fmt.iio = false)
    (he : s.error = none) (hof : io.offset < 4294967296) :
    (∃ L', Owned (iread drv s ip io).2.1 dev L' F) ∧
      (∀ k, k ≠ ip → (iread drv s ip io).2.1.ino k = s.ino k) ∧
      ((iread drv s ip io).2.1.ino ip).dev = dev ∧
      ((iread drv s ip io).2.1.ino ip).fmt = (s.ino ip).fmt ∧
      ((iread drv s ip io).2.1.ino ip).size = (s.ino ip).size ∧
      (∀ k x, byteAt (iread drv s ip io).2.1 dev k x = byteAt s dev k x) := by
  have hchr : (s.ino ip).fmt ≠ .IFCHR := by
    intro e
    rw [e] at hio
    exact absurd hio (by decide)
  have hdev : ioDev (s.ino ip) = dev := by rw [ioDev, hio, if_neg (by simp), hd]
  have hloop : ∀ q, ∃ r, r = ireadLoop ip dev q (io.offset / 512 % 65536) (io.offset % 512) s
      { io with count := q } ∧ Grows s r.1 dev ip ∧ ∃ L', Owned r.1 dev L' F := by
    intro q
    obtain ⟨n, -, -, hg, ho', -⟩ := ireadLoop_spec q (io.offset / 512 % 65536) (io.offset % 512) s
      { io with count := q } (le_refl q) (Nat.mod_lt io.offset (by omega))
      (Nat.mod_lt (io.offset / 512) (by omega)) hof ho hd hio he
    exact ⟨_, rfl, hg, ho'⟩
  rcases iread_state drv s ip io with e | ⟨e, -⟩ | ⟨q, e⟩
  · rw [e]
    exact ⟨⟨L, ho⟩, fun _ _ => rfl, hd, rfl, rfl, fun _ _ => rfl⟩
  · exact absurd e hchr
  · obtain ⟨r, hr, hg, L', ho'⟩ := hloop q
    rw [e, hdev, ← hr]
    have ht := touchRead_touched r.1 ip
    exact ⟨⟨L', ht.owned ho'⟩, fun k hk => (ht.other k hk).trans (hg.other k hk),
      ht.map.1.trans (hg.dev.trans hd), ht.map.2.1.trans hg.fmt,
      (touchRead_size r.1 ip).trans hg.size, fun k x => (ht.bytes k x).trans (hg.bytes k x)⟩

/-- **`iread` returns what the file holds**: with sizes and offsets below 2^24 a read that sets no
error moves exactly the bytes from the offset up to the count or the end of the file. -/
theorem iread_bytes {drv : CharDriver} {s : Sys} {dev ip : ℕ} {io : Io} {L : List ℕ} {F : Set ℕ}
    (ho : Owned s dev L F) (hd : (s.ino ip).dev = dev) (hio : (s.ino ip).fmt.iio = false)
    (he : s.error = none) (hof : io.offset < 16777216) (hsz : (s.ino ip).size < 16777216)
    (hc : io.count < 32768) (hok : (iread drv s ip io).2.1.error = none) :
    (iread drv s ip io).1 = readRequest (s.ino ip).size io ∧
      ∀ x, (iread drv s ip io).2.2.mem x =
        if io.base ≤ x ∧ x < io.base + readRequest (s.ino ip).size io
        then byteAt s dev ip (io.offset + (x - io.base)) else io.mem x := by
  have hchr : (s.ino ip).fmt ≠ .IFCHR := by
    intro e
    rw [e] at hio
    exact absurd hio (by decide)
  have hblk : (s.ino ip).fmt ≠ .IFBLK := by
    intro e
    rw [e] at hio
    exact absurd hio (by decide)
  have hdev : ioDev (s.ino ip) = dev := by rw [ioDev, hio, if_neg (by simp), hd]
  by_cases hnil : readRequest (s.ino ip).size io = 0
  · -- nothing to read: a count of 0, or an offset at or past the end
    have hi : iread drv s ip io = (0, s, io) := by
      unfold readRequest at hnil
      by_cases h0 : io.count = 0
      · simp [iread, h0]
      · have hgap : readGap (s.ino ip).size io.offset = 0 ∨
            readGap (s.ino ip).size io.offset ≥ 2147483648 := by
          unfold readGap
          split_ifs at hnil <;> omega
        simp [iread, h0, hchr, hblk, hgap]
    rw [hi, hnil]
    exact ⟨rfl, fun x => (if_neg (by omega)).symm⟩
  · have hpos : io.count ≠ 0 ∧ io.offset < (s.ino ip).size := by
      unfold readRequest at hnil
      split_ifs at hnil <;> omega
    have hgap : readGap (s.ino ip).size io.offset = (s.ino ip).size - io.offset := by
      unfold readGap
      omega
    have hgap' : ¬(readGap (s.ino ip).size io.offset = 0 ∨
        readGap (s.ino ip).size io.offset ≥ 2147483648) := by
      rw [hgap]
      omega
    have hreq : (if (s.ino ip).fmt ≠ .IFBLK ∧ io.count < 32768 ∧
        readGap (s.ino ip).size io.offset < io.count then readGap (s.ino ip).size io.offset
        else io.count) = readRequest (s.ino ip).size io := by
      rw [hgap, readRequest]
      simp [hblk, hc]
    set q := readRequest (s.ino ip).size io with hq
    obtain ⟨n, hfill, hn, hg, -, hend⟩ := ireadLoop_spec q (io.offset / 512 % 65536)
      (io.offset % 512) s { io with count := q } (le_refl q)
      (Nat.mod_lt io.offset (by omega)) (Nat.mod_lt (io.offset / 512) (by omega))
      (show io.offset < 4294967296 by omega) ho hd hio he
    set r := ireadLoop ip dev q (io.offset / 512 % 65536) (io.offset % 512) s
      { io with count := q } with hr
    have hi : iread drv s ip io = (q - r.2.count, touchRead r.1 ip, r.2) := by
      unfold iread
      simp only [hpos.1, hchr, hdev, if_false]
      rw [if_neg (fun e => hgap' e.2), hreq]
    rw [hi] at hok ⊢
    rw [(touchRead_touched r.1 ip).error] at hok
    have hall : n = q := by
      rcases hend with e | e
      · exact e.1
      · exact absurd hok e.2
    rw [hfill, hall]
    have hp : 512 * (io.offset / 512 % 65536) + io.offset % 512 = io.offset :=
      startPos_eq (by omega)
    refine ⟨?_, fun x => ?_⟩
    · simp [filled, Io.advance]
    · simp only [filled, hp]

end Micronix
