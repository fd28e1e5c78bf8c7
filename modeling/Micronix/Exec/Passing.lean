import Micronix.Exec.Bounds

/-!
# What the new program finds on its stack

`putargs` walks over the packed arguments and stores a pointer wherever one starts (`Walk`).  It leaves
the inner loop with the pointer to the last argument, but not the outer one: for each further buffer
it stores one more word behind the pointers (`Passed`).  The first of these words is overwritten with
the end mark.  The second one is written over the beginning of the arguments, which has been copied
out by then (`argument_passing`).
-/

namespace Micronix

namespace Exec

open Packed

/-! ## Words in memory -/

section Words

variable {mem : Bytes} {v addr k : ℕ}

lemma getword_putword (hv : v < 65536) : getword (putword mem v addr) addr = v := by
  rw [getword, putword, Function.update_self, Function.update_of_ne (Nat.succ_ne_self addr).symm,
    Function.update_self, UInt8.toNat_ofNat', UInt8.toNat_ofNat']
  omega

lemma putword_apply (h : k < addr ∨ addr + 2 ≤ k) : putword mem v addr k = mem k := by
  rw [putword, Function.update_of_ne (by omega), Function.update_of_ne (by omega)]

lemma getword_putword_of_apart (h : k + 2 ≤ addr ∨ addr + 2 ≤ k) :
    getword (putword mem v addr) k = getword mem k := by
  rw [getword, getword, putword_apply (by omega), putword_apply (by omega)]

lemma getword_copyBytes {src : Bytes} {count : ℕ} (h : k + 2 ≤ addr) :
    getword (Bytes.copyBytes src 0 mem addr count) k = getword mem k := by
  rw [getword, getword, Bytes.copyBytes_outside (by omega), Bytes.copyBytes_outside (by omega)]

end Words

/-- Where the arguments and the table of pointers lie. -/
structure Laid (ss : List (Text UInt8)) (a0 av : ℕ) : Prop where
  top : a0 + (pack ss).length = usrtop
  table : av + 2 * ss.length + 2 = a0
  low : 2 ≤ av

variable {ss : List (Text UInt8)} {a0 av i m e : ℕ} {z : Put} {data : ℕ → Bytes}

/-- Where the last argument starts. -/
def last (ss : List (Text UInt8)) : ℕ :=
  start ss (ss.length - 1)

/-- The loop has come to the byte `i`; `m` bytes have been copied out. -/
structure Walk (ss : List (Text UInt8)) (a0 av m i : ℕ) (z : Put) : Prop where
  a : z.a = a0 + i
  ac : z.ac < ss.length
  le : i ≤ start ss z.ac
  lt : ∀ j < z.ac, start ss j < i
  c : z.c = 0 ↔ i = start ss z.ac
  ptr : ∀ j < z.ac, getword z.mem (av + 2 * j) = a0 + start ss j
  text : ∀ k < m, (pack ss)[k]? = some (z.mem (a0 + k))

/-- The loop has come to the last argument, and `e` buffers further. -/
structure Passed (ss : List (Text UInt8)) (a0 av m e : ℕ) (z : Put) : Prop where
  a : z.a = a0 + last ss
  ac : z.ac = ss.length + e
  c : z.c = 0
  ptr : ∀ j < ss.length, getword z.mem (av + 2 * j) = a0 + start ss j
  text : ∀ k < m, e < 2 ∨ 2 ≤ k → (pack ss)[k]? = some (z.mem (a0 + k))
  second : e = 2 → getword z.mem a0 = a0 + last ss

lemma Walk.le_last (h : Walk ss a0 av m i z) : i ≤ last ss :=
  Nat.le_trans h.le (start_mono (Nat.le_sub_one_of_lt h.ac))

lemma last_lt (h : ss ≠ []) : last ss < (pack ss).length := by
  have hpos : 0 < ss.length := List.length_pos_iff.mpr h
  have hlt : start ss (ss.length - 1) < start ss (ss.length - 1 + 1) := start_lt (by omega)
  rwa [Nat.sub_add_cancel hpos, start_length] at hlt

/-! ## One buffer -/

/-- The pointer to the argument that starts here. -/
lemma Walk.point (hl : Laid ss a0 av) (h : Walk ss a0 av m i z) (hc : z.c = 0) :
    (∀ j < z.ac + 1, getword (putword z.mem z.a (av + 2 * z.ac)) (av + 2 * j) = a0 + start ss j) ∧
      ∀ k < m, (pack ss)[k]? = some (putword z.mem z.a (av + 2 * z.ac) (a0 + k)) := by
  have hi := h.c.mp hc
  have hac := h.ac
  have htop := hl.top
  have htable := hl.table
  have hstart : start ss z.ac ≤ (pack ss).length := start_le
  constructor
  · intro j hj
    rcases Nat.lt_or_ge j z.ac with hlt | hge
    · rw [getword_putword_of_apart (by omega)]
      exact h.ptr j hlt
    · obtain rfl : j = z.ac := by omega
      rw [h.a, hi, getword_putword]
      rw [usrtop] at htop
      omega
  · intro k hk
    rw [putword_apply (by omega)]
    exact h.text k hk

/-- The next byte. -/
lemma Walk.next {mem : Bytes} {ac : ℕ} {c : UInt8} (h : Walk ss a0 av m i z)
    (hac : ac < ss.length) (hpos : 0 < ac) (hle : start ss (ac - 1) ≤ i) (hlt : i < start ss ac)
    (hc : (pack ss)[i]? = some c)
    (hptr : ∀ j < ac, getword mem (av + 2 * j) = a0 + start ss j)
    (htext : ∀ k < m, (pack ss)[k]? = some (mem (a0 + k))) :
    Walk ss a0 av m (i + 1) ⟨c, ac, z.a + 1, z.d, z.nbytes, mem⟩ := by
  obtain ⟨j, rfl⟩ := Nat.exists_eq_add_of_lt hpos
  rw [Nat.zero_add, Nat.add_sub_cancel] at hle
  rw [Nat.zero_add] at hlt hac hptr ⊢
  refine ⟨?_, hac, hlt, fun k hk => ?_, ?_, hptr, htext⟩
  · dsimp only
    rw [h.a]
    rfl
  · have hk' : start ss k ≤ start ss j := start_mono (Nat.lt_succ_iff.mp hk)
    omega
  · have hiff := pack_eq_zero_iff (by omega) hle hlt
    rw [hc, Option.some.injEq] at hiff
    exact hiff

/-- The inner loop up to the end of a buffer, at `b * 512`. -/
lemma scan_spec (hl : Laid ss a0 av)
    (hdata : ∀ i c, (pack ss)[i]? = some c → data (i / 512 + 1) (i % 512) = c) {b left : ℕ}
    (hleft : left ≤ 512) (hi : i + left = (b + 1) * 512) (h : Walk ss a0 av m i z) :
    ((b + 1) * 512 ≤ last ss →
      Walk ss a0 av m ((b + 1) * 512) (z.scan ss.length av (data (b + 1)) left)) ∧
    (last ss < (b + 1) * 512 →
      Passed ss a0 av m 0 (z.scan ss.length av (data (b + 1)) left)) ∧
    (z.scan ss.length av (data (b + 1)) left).d = z.d ∧
    (z.scan ss.length av (data (b + 1)) left).nbytes = z.nbytes := by
  induction left generalizing i z with
  | zero =>
      obtain rfl : i = (b + 1) * 512 := by omega
      have hle := h.le_last
      exact ⟨fun _ => h, fun hlt => absurd hle (by omega), rfl, rfl⟩
  | succ left ih =>
      have hne : ss ≠ [] := List.ne_nil_of_length_pos (Nat.zero_lt_of_lt h.ac)
      have hile := h.le_last
      have hlen := last_lt hne
      obtain ⟨c, hc⟩ : ∃ c, (pack ss)[i]? = some c :=
        ⟨_, List.getElem?_eq_getElem (by omega)⟩
      have hbyte : data (b + 1) (511 - left) = c := by
        have hblk : i / 512 + 1 = b + 1 := by omega
        have hoff : i % 512 = 511 - left := by omega
        rw [← hdata i c hc, hblk, hoff]
      rw [Put.scan]
      by_cases hz : z.c = 0
      · obtain ⟨hptr, htext⟩ := h.point hl hz
        have hi' := h.c.mp hz
        have hac := h.ac
        rw [if_pos hz]
        dsimp only
        by_cases hend : ss.length ≤ z.ac + 1
        · -- the last argument starts here
          have hac' : z.ac + 1 = ss.length := by omega
          have hlast : i = last ss := by
            rw [hi', last, ← hac']
            rfl
          rw [if_pos hend]
          refine ⟨fun hle => absurd hle (by omega), fun _ => ?_, rfl, rfl⟩
          refine ⟨?_, hac', hz, hac' ▸ hptr, fun k hk _ => htext k hk, fun h0 => by cases h0⟩
          dsimp only
          rw [h.a, hlast]
        · have hlt : i < start ss (z.ac + 1) := by
            rw [hi']
            exact start_lt h.ac
          have hac' : z.ac + 1 < ss.length := by omega
          have hnext := h.next hac' (Nat.succ_pos _) (Nat.le_of_eq hi'.symm) hlt hc hptr htext
          rw [if_neg hend, hbyte]
          exact ih (by omega) (by omega) hnext
      · have hlt : i < start ss z.ac := Nat.lt_of_le_of_ne h.le fun he => hz (h.c.mpr he)
        have hpos : 0 < z.ac := by
          rcases Nat.eq_zero_or_pos z.ac with h0 | hpos
          · rw [h0, start_zero] at hlt
            omega
          · exact hpos
        have hle : start ss (z.ac - 1) ≤ i := Nat.le_of_lt (h.lt _ (by omega))
        rw [if_neg hz, hbyte]
        exact ih (by omega) (by omega) (h.next h.ac hpos hle hlt hc h.ptr h.text)

/-- The inner loop once the last argument has been passed: one more word. -/
lemma Passed.scan (hl : Laid ss a0 av) (h : Passed ss a0 av m e z) (he : e < 2)
    (hne : ss ≠ []) {buf : Bytes} : Passed ss a0 av m (e + 1) (z.scan ss.length av buf 512) ∧
      (z.scan ss.length av buf 512).d = z.d ∧
      (z.scan ss.length av buf 512).nbytes = z.nbytes := by
  have htop := hl.top
  have htable := hl.table
  have hlast := last_lt hne
  have hac := h.ac
  rw [Put.scan, if_pos h.c]
  dsimp only
  rw [if_pos (by omega)]
  refine ⟨⟨h.a, ?_, h.c, fun j hj => ?_, fun k hk hke => ?_, fun he' => ?_⟩, rfl, rfl⟩
  · dsimp only
    omega
  · rw [getword_putword_of_apart (by omega)]
    exact h.ptr j hj
  · dsimp only
    rw [putword_apply (by omega)]
    exact h.text k hk (by omega)
  · have haddr : av + 2 * z.ac = a0 := by omega
    rw [haddr, h.a, getword_putword]
    rw [usrtop] at htop
    omega

/-- How many bytes have been copied out after `b` buffers. -/
def copied (ss : List (Text UInt8)) (b : ℕ) : ℕ :=
  min (b * 512) (pack ss).length

/-- The loop between two buffers. -/
structure Between (ss : List (Text UInt8)) (a0 av b : ℕ) (z : Put) : Prop where
  d : z.d = a0 + copied ss b
  nbytes : z.nbytes = (pack ss).length - copied ss b
  walk : b * 512 ≤ last ss → Walk ss a0 av (copied ss b) (b * 512) z
  passed : last ss < b * 512 → Passed ss a0 av (copied ss b) (b - (last ss / 512 + 1)) z

/-- What `copyout` adds to the text. -/
lemma text_copyout (hdata : ∀ i c, (pack ss)[i]? = some c → data (i / 512 + 1) (i % 512) = c)
    {b k : ℕ} {mem : Bytes} (hk : k < copied ss (b + 1))
    (hold : k < copied ss b → (pack ss)[k]? = some (mem (a0 + k))) :
    (pack ss)[k]? = some (Bytes.copyBytes (data (b + 1)) 0 mem (a0 + copied ss b)
      (min 512 ((pack ss).length - copied ss b)) (a0 + k)) := by
  rcases Nat.lt_or_ge k (copied ss b) with hlt | hge
  · rw [Bytes.copyBytes_outside (by omega)]
    exact hold hlt
  · rw [copied] at hk hge
    have hlen : k < (pack ss).length := by omega
    have hb : copied ss b = b * 512 := by
      rw [copied]
      omega
    have hget : (pack ss)[k]? = some (pack ss)[k] := List.getElem?_eq_getElem hlen
    have hbyte := hdata k _ hget
    have hblk : k / 512 + 1 = b + 1 := by omega
    have hoff : k % 512 = 0 + (a0 + k - (a0 + b * 512)) := by omega
    rw [hblk, hoff] at hbyte
    rw [hb, Bytes.copyBytes_inside (by omega) (by omega), hbyte, hget]

/-- One buffer. -/
lemma Between.block (hl : Laid ss a0 av)
    (hdata : ∀ i c, (pack ss)[i]? = some c → data (i / 512 + 1) (i % 512) = c) (hne : ss ≠ [])
    {b : ℕ} (hb : b ≤ 2) (h : Between ss a0 av b z) (hlt : b * 512 < (pack ss).length) :
    Between ss a0 av (b + 1) ((z.scan ss.length av (data (b + 1)) 512).copyout (data (b + 1))) := by
  have htable := hl.table
  have hcop : copied ss b = b * 512 := by
    rw [copied]
    omega
  have hnext : copied ss (b + 1) = copied ss b + min 512 ((pack ss).length - copied ss b) := by
    rw [copied, copied]
    omega
  have hword {mem : Bytes} {k : ℕ} (hk : k + 2 ≤ a0 + copied ss b) :
      getword (Bytes.copyBytes (data (b + 1)) 0 mem (a0 + copied ss b)
        (min 512 ((pack ss).length - copied ss b))) k = getword mem k :=
    getword_copyBytes hk
  -- what holds of the memory carries over to the copied one
  have hwalk {z' : Put} (hd : z'.d = z.d) (hn : z'.nbytes = z.nbytes)
      (hw : Walk ss a0 av (copied ss b) ((b + 1) * 512) z') :
      Walk ss a0 av (copied ss (b + 1)) ((b + 1) * 512) (z'.copyout (data (b + 1))) := by
    refine ⟨hw.a, hw.ac, hw.le, hw.lt, hw.c, fun j hj => ?_, fun k hk => ?_⟩
    · have hac := hw.ac
      dsimp only [Put.copyout] at hj ⊢
      rw [hd, hn, h.d, h.nbytes, hword (by omega)]
      exact hw.ptr j hj
    · dsimp only [Put.copyout]
      rw [hd, hn, h.d, h.nbytes]
      exact text_copyout hdata hk (hw.text k)
  have hpassed {z' : Put} {e : ℕ} (hd : z'.d = z.d) (hn : z'.nbytes = z.nbytes) (he : e = 2 → 0 < b)
      (hp : Passed ss a0 av (copied ss b) e z') :
      Passed ss a0 av (copied ss (b + 1)) e (z'.copyout (data (b + 1))) := by
    refine ⟨hp.a, hp.ac, hp.c, fun j hj => ?_, fun k hk hke => ?_, fun he' => ?_⟩
    · dsimp only [Put.copyout]
      rw [hd, hn, h.d, h.nbytes, hword (by omega)]
      exact hp.ptr j hj
    · dsimp only [Put.copyout]
      rw [hd, hn, h.d, h.nbytes]
      exact text_copyout hdata hk fun hk' => hp.text k hk' hke
    · have hb0 := he he'
      dsimp only [Put.copyout]
      rw [hd, hn, h.d, h.nbytes, hword (by omega)]
      exact hp.second he'
  have hscan : (z.scan ss.length av (data (b + 1)) 512).d = z.d ∧
      (z.scan ss.length av (data (b + 1)) 512).nbytes = z.nbytes ∧
      ((b + 1) * 512 ≤ last ss → Walk ss a0 av (copied ss b) ((b + 1) * 512)
        (z.scan ss.length av (data (b + 1)) 512)) ∧
      (last ss < (b + 1) * 512 → Passed ss a0 av (copied ss b) (b + 1 - (last ss / 512 + 1))
        (z.scan ss.length av (data (b + 1)) 512)) := by
    rcases Nat.lt_or_ge (last ss) (b * 512) with hpast | hfront
    · have hp := h.passed hpast
      obtain ⟨hp', hd, hn⟩ := hp.scan hl (by omega) hne
      have he : b + 1 - (last ss / 512 + 1) = b - (last ss / 512 + 1) + 1 := by omega
      rw [he]
      exact ⟨hd, hn, fun hle => absurd hle (by omega), fun _ => hp'⟩
    · obtain ⟨hw, hp, hd, hn⟩ := scan_spec hl hdata (Nat.le_refl 512)
        (Nat.succ_mul b 512).symm (h.walk hfront)
      refine ⟨hd, hn, hw, fun hlt' => ?_⟩
      have he : b + 1 - (last ss / 512 + 1) = 0 := by omega
      rw [he]
      exact hp hlt'
  obtain ⟨hd, hn, hw, hp⟩ := hscan
  refine ⟨?_, ?_, fun hle => hwalk hd hn (hw hle), fun hlt' => hpassed hd hn (by omega) (hp hlt')⟩
  · dsimp only [Put.copyout]
    rw [hd, hn, h.d, h.nbytes, hnext, Nat.add_assoc]
  · dsimp only [Put.copyout]
    rw [hn, h.nbytes, hnext, Nat.sub_sub]

/-! ## All buffers -/

/-- The loop over the buffers that are left. -/
lemma Between.blocks (hl : Laid ss a0 av)
    (hdata : ∀ i c, (pack ss)[i]? = some c → data (i / 512 + 1) (i % 512) = c) (hne : ss ≠ [])
    (hroom : (pack ss).length ≤ room) {k b : ℕ} (hk : b + k = ((pack ss).length + 511) / 512)
    (h : Between ss a0 av b z) :
    ∃ z', z.blocks ss.length av data (List.range' (b + 1) k) = .ok z' ∧
      Between ss a0 av (((pack ss).length + 511) / 512) z' := by
  rw [room] at hroom
  induction k generalizing b z with
  | zero => exact ⟨z, rfl, hk ▸ h⟩
  | succ k ih =>
      have hblock := h.block hl hdata hne (by omega) (by omega)
      obtain ⟨z', he, hz'⟩ := ih (by omega) hblock
      refine ⟨z', ?_, hz'⟩
      rw [List.range'_succ, Put.blocks, index_ok (by rw [NBLKS]; omega)]
      exact he

lemma between_zero (hne : ss ≠ []) {mem : Bytes} :
    Between ss a0 av 0 ⟨0, 0, a0, a0, (pack ss).length, mem⟩ := by
  refine ⟨?_, ?_, fun _ => ⟨rfl, List.length_pos_iff.mpr hne, Nat.zero_le _, ?_, ?_, ?_, ?_⟩,
    fun h => absurd h (by omega)⟩
  · simp [copied]
  · simp [copied]
  · exact fun j hj => absurd hj (Nat.not_lt_zero j)
  · exact iff_of_true rfl rfl
  · exact fun j hj => absurd hj (Nat.not_lt_zero j)
  · exact fun k hk => absurd hk (by simp [copied])

/-- The buffers behind that of the last argument. -/
def further (ss : List (Text UInt8)) : ℕ :=
  ((pack ss).length + 511) / 512 - (last ss / 512 + 1)

lemma blocks_passed (hl : Laid ss a0 av)
    (hdata : ∀ i c, (pack ss)[i]? = some c → data (i / 512 + 1) (i % 512) = c) (hne : ss ≠ [])
    (hroom : (pack ss).length ≤ room) {mem : Bytes} :
    ∃ z', (⟨0, 0, a0, a0, (pack ss).length, mem⟩ : Put).blocks ss.length av data
        (List.range' 1 (((pack ss).length + 511) / 512)) = .ok z' ∧
      Passed ss a0 av (pack ss).length (further ss) z' := by
  have hlast := last_lt hne
  obtain ⟨z', he, hz'⟩ := (between_zero hne).blocks hl hdata hne hroom (Nat.zero_add _)
  have hcop : copied ss (((pack ss).length + 511) / 512) = (pack ss).length := by
    rw [copied]
    omega
  have hp := hz'.passed (by omega)
  rw [hcop] at hp
  exact ⟨z', he, hp⟩

/-! ## The arguments of the new program -/

/-- A string in memory. -/
def StringAt (mem : Bytes) (p : ℕ) (s : Text UInt8) : Prop :=
  (∀ i (h : i < s.1.length), mem (p + i) = s.1[i]) ∧ mem (p + s.1.length) = 0

/-- The stack has the number of arguments, a pointer to each of them, and the end mark. -/
structure Stack.Has (r : Stack) (args : List (Text UInt8)) : Prop where
  argc : getword r.mem r.sp = args.length
  argv : ∀ j (h : j < args.length),
    StringAt r.mem (getword r.mem (r.sp + 2 + 2 * j)) args[j]
  mark : getword r.mem (r.sp + 2 + 2 * args.length) = 0xffff

/-- The strings are there if the packed ones are. -/
lemma strings_iff {mem : Bytes} {p : ℕ → ℕ} (hp : ∀ j < ss.length, p j = a0 + start ss j) :
    (∀ j (h : j < ss.length), StringAt mem (p j) ss[j]) ↔
      ∀ k < (pack ss).length, (pack ss)[k]? = some (mem (a0 + k)) := by
  constructor
  · intro h k hk
    obtain ⟨j, hj, hlo, hhi⟩ := exists_start hk
    obtain ⟨i, rfl⟩ := Nat.exists_eq_add_of_le hlo
    obtain ⟨hbyte, hend⟩ := h j hj
    rw [hp j hj] at hbyte hend
    rw [start_succ hj] at hhi
    rw [← Nat.add_assoc]
    rcases Nat.lt_or_ge i ss[j].1.length with hi | hi
    · rw [pack_get hj hi, hbyte i hi]
    · obtain rfl : i = ss[j].1.length := by omega
      rw [pack_end hj, hend]
  · intro h j hj
    have hle : start ss (j + 1) ≤ (pack ss).length := start_le
    rw [start_succ hj] at hle
    refine ⟨fun i hi => ?_, ?_⟩
    · have hbyte := h (start ss j + i) (by omega)
      rw [pack_get hj hi, Option.some.injEq, ← Nat.add_assoc] at hbyte
      rw [hp j hj, ← hbyte]
    · have hbyte := h (start ss j + ss[j].1.length) (by omega)
      rw [pack_end hj, Option.some.injEq, ← Nat.add_assoc] at hbyte
      rw [hp j hj, ← hbyte]

/-- The end mark and the number of arguments come last. -/
lemma has_iff (hl : Laid ss a0 av) {mem : Bytes}
    (hptr : ∀ j < ss.length, getword mem (av + 2 * j) = a0 + start ss j) {l : List UInt8} :
    Stack.Has ⟨putword (putword mem 0xffff (av + 2 * ss.length)) ss.length (av - 2), av - 2, l⟩ ss ↔
      ∀ k < (pack ss).length, (pack ss)[k]? = some (mem (a0 + k)) := by
  have htop := hl.top
  have htable := hl.table
  have hlow := hl.low
  have hsp : av - 2 + 2 = av := by omega
  rw [usrtop] at htop
  set mem' := putword (putword mem 0xffff (av + 2 * ss.length)) ss.length (av - 2) with hmem
  have hptr' : ∀ j < ss.length, getword mem' (av - 2 + 2 + 2 * j) = a0 + start ss j := by
    intro j hj
    rw [hsp, hmem, getword_putword_of_apart (by omega), getword_putword_of_apart (by omega)]
    exact hptr j hj
  have htext : ∀ k, mem' (a0 + k) = mem (a0 + k) := by
    intro k
    rw [hmem, putword_apply (by omega), putword_apply (by omega)]
  have hargc : getword mem' (av - 2) = ss.length := getword_putword (by omega)
  have hmark : getword mem' (av - 2 + 2 + 2 * ss.length) = 0xffff := by
    rw [hsp, hmem, getword_putword_of_apart (by omega), getword_putword (by decide)]
  have hstrings : (∀ j (h : j < ss.length),
      StringAt mem' (getword mem' (av - 2 + 2 + 2 * j)) ss[j]) ↔ _ := strings_iff hptr'
  simp only [htext] at hstrings
  exact ⟨fun h => hstrings.mp h.argv, fun h => ⟨hargc, hstrings.mpr h, hmark⟩⟩

/-- The arguments are passed on: unless they are too many, `putargs` leaves them on the stack. -/
def Passes (args : List (Text UInt8)) : Prop :=
  ∀ (g : Args) (mem : Bytes), ∃ g' ok, g.getargs args = .ok (g', ok) ∧
    (ok = true → ∃ r, g'.putargs mem = .ok r ∧ r.Has args)

/-- The first two bytes of the arguments, as a word. -/
def firstWord (ss : List (Text UInt8)) : ℕ :=
  ((pack ss).getD 0 0).toNat + 256 * ((pack ss).getD 1 0).toNat

/-- The word behind the table is the second one of those that are stored after the last pointer. -/
lemma Passed.text_iff (hroom : (pack ss).length ≤ room)
    (h : Passed ss a0 av (pack ss).length (further ss) z) :
    (∀ k < (pack ss).length, (pack ss)[k]? = some (z.mem (a0 + k))) ↔
      (pack ss).length ≤ 1024 ∨ 512 ≤ last ss ∨ firstWord ss = a0 + last ss := by
  rw [room] at hroom
  have htwo : further ss < 2 ∨ further ss = 2 := by
    rw [further]
    omega
  rcases htwo with hlt | htwo
  · refine iff_of_true (fun k hk => h.text k hk (Or.inl hlt)) ?_
    rw [further] at hlt
    omega
  · have hsize : 1024 < (pack ss).length ∧ last ss < 512 := by
      rw [further] at htwo
      omega
    have hover := h.second htwo
    have h0 : (pack ss)[0]? = some ((pack ss).getD 0 0) := by
      rw [List.getD_eq_getElem?_getD, List.getElem?_eq_getElem (by omega)]
      rfl
    have h1 : (pack ss)[1]? = some ((pack ss).getD 1 0) := by
      rw [List.getD_eq_getElem?_getD, List.getElem?_eq_getElem (by omega)]
      rfl
    constructor
    · intro hall
      have hk0 := hall 0 (by omega)
      have hk1 := hall 1 (by omega)
      rw [h0, Option.some.injEq, Nat.add_zero] at hk0
      rw [h1, Option.some.injEq] at hk1
      refine Or.inr (Or.inr ?_)
      rw [firstWord, hk0, hk1]
      exact hover
    · rintro (hle | hle | hword) k hk
      · omega
      · omega
      · rcases Nat.lt_or_ge k 2 with hk2 | hk2
        · rw [← hover, firstWord, getword] at hword
          have hb0 := ((pack ss).getD 0 0).toNat_lt
          have hb1 := (z.mem a0).toNat_lt
          have he0 : (pack ss).getD 0 0 = z.mem a0 := UInt8.toNat_inj.mp (by omega)
          have he1 : (pack ss).getD 1 0 = z.mem (a0 + 1) := UInt8.toNat_inj.mp (by omega)
          obtain rfl | rfl : k = 0 ∨ k = 1 := by omega
          · rw [h0, he0, Nat.add_zero]
          · rw [h1, he1]
        · exact h.text k hk (Or.inr hk2)

lemma laid (hroom : (pack ss).length ≤ room) :
    Laid ss (usrtop - (pack ss).length) (usrtop - (pack ss).length - 2 * ss.length - 2) := by
  have hcount : ss.length ≤ (pack ss).length := by
    induction ss with
    | nil => exact Nat.le_refl 0
    | cons s ss ih =>
        simp only [pack_cons, List.length_append, List.length_cons] at hroom ⊢
        have := ih (by omega)
        omega
  rw [room] at hroom
  have htop : usrtop = 65535 := rfl
  exact ⟨by omega, by omega, by omega⟩

/-- The pointers are right, and the text is unless two bytes of it have been overwritten. -/
lemma blocks_text (hl : Laid ss a0 av)
    (hdata : ∀ i c, (pack ss)[i]? = some c → data (i / 512 + 1) (i % 512) = c)
    (hroom : (pack ss).length ≤ room) (mem : Bytes) :
    ∃ z', (⟨0, 0, a0, a0, (pack ss).length, mem⟩ : Put).blocks ss.length av data
        (List.range' 1 (((pack ss).length + 511) / 512)) = .ok z' ∧
      (∀ j < ss.length, getword z'.mem (av + 2 * j) = a0 + start ss j) ∧
      ((∀ k < (pack ss).length, (pack ss)[k]? = some (z'.mem (a0 + k))) ↔
        (pack ss).length ≤ 1024 ∨ 512 ≤ last ss ∨ firstWord ss = a0 + last ss) := by
  cases ss with
  | nil =>
      refine ⟨_, rfl, fun j hj => absurd hj (Nat.not_lt_zero j), ?_⟩
      exact iff_of_true (fun k hk => absurd hk (Nat.not_lt_zero k)) (Or.inl (Nat.zero_le _))
  | cons s ss =>
      obtain ⟨z', he, hz'⟩ := blocks_passed hl hdata (List.cons_ne_nil s ss) hroom
      exact ⟨z', he, hz'.ptr, hz'.text_iff hroom⟩

/-- Arguments that fit in three buffers are collected, and `putargs` leaves them on the stack if
nothing has been written over them. -/
lemma putargs_has {args : List (Text UInt8)} (hroom : (pack args).length ≤ room) (g : Args)
    (mem : Bytes) : ∃ g' r, g.getargs args = .ok (g', true) ∧ g'.putargs mem = .ok r ∧
      (r.Has args ↔ (pack args).length ≤ 1024 ∨ 512 ≤ last args ∨
        firstWord args = usrtop - (pack args).length + last args) := by
  obtain ⟨g', hget, hg, hnargs⟩ := getargs_ok (g := g) hroom
  have hl := laid hroom
  set av := usrtop - (pack args).length - 2 * args.length - 2 with hav
  obtain ⟨z', he, hptr, htext⟩ := blocks_text hl hg.data hroom mem
  refine ⟨g', ⟨putword (putword z'.mem 0xffff (av + 2 * args.length)) args.length (av - 2), av - 2,
    Bytes.slice (g'.data 1) 0 8⟩, hget, ?_, (has_iff hl hptr).trans htext⟩
  rw [Args.putargs, hnargs, hg.nbytes, hg.nblks, ← hav, he, index_ok (by decide)]

/-- **Argument passing.**  The new program finds its arguments if and only if they have at most 1536
bytes, and either at most two buffers are full, or the last argument starts behind the first
buffer, or the two bytes that are overwritten happen to be right. -/
theorem argument_passing (args : List (Text UInt8)) :
    Passes args ↔ (pack args).length ≤ 3 * 512 ∧ ((pack args).length ≤ 1024 ∨
      512 ≤ last args ∨ firstWord args = usrtop - (pack args).length + last args) := by
  rcases Nat.lt_or_ge room (pack args).length with hlong | hroom
  · refine iff_of_false (fun h => ?_) fun h => absurd hlong (Nat.not_lt.mpr h.1)
    obtain ⟨g', ok, he, -⟩ := h ⟨0, 0, 0, fun _ => Bytes.zero, 0⟩ Bytes.zero
    rw [getargs_outside hlong] at he
    cases he
  · constructor
    · intro h
      obtain ⟨g1, r1, hget, hput, hiff⟩ :=
        putargs_has hroom ⟨0, 0, 0, fun _ => Bytes.zero, 0⟩ Bytes.zero
      obtain ⟨g', ok, he, hok⟩ := h ⟨0, 0, 0, fun _ => Bytes.zero, 0⟩ Bytes.zero
      rw [hget] at he
      cases he
      obtain ⟨r, hr, hhas⟩ := hok rfl
      rw [hput] at hr
      cases hr
      exact ⟨hroom, hiff.mp hhas⟩
    · rintro ⟨-, hcond⟩ g mem
      obtain ⟨g', r, hget, hput, hiff⟩ := putargs_has hroom g mem
      exact ⟨g', true, hget, fun _ => ⟨r, hput, hiff.mpr hcond⟩⟩

/-- One argument of 1100 characters. -/
def line : Text UInt8 :=
  ⟨List.replicate 1100 1, fun h => absurd (List.eq_of_mem_replicate h) (by decide)⟩

/-- The first two characters of the argument are overwritten with its address. -/
theorem long_argument_overwritten : ¬∀ args, Passes args := by
  intro h
  have hlen : (pack [line]).length = 1101 := by
    rw [pack_cons, pack_nil, List.length_append, List.length_singleton]
    exact congrArg (· + 1) List.length_replicate
  have hroom : (pack [line]).length ≤ room := by
    rw [hlen]
    decide
  obtain ⟨g1, r1, hget, hput, hiff⟩ :=
    putargs_has hroom ⟨0, 0, 0, fun _ => Bytes.zero, 0⟩ Bytes.zero
  obtain ⟨g', ok, he, hok⟩ := h [line] ⟨0, 0, 0, fun _ => Bytes.zero, 0⟩ Bytes.zero
  rw [hget] at he
  cases he
  obtain ⟨r, hr, hhas⟩ := hok rfl
  rw [hput] at hr
  cases hr
  have hlast : last [line] = 0 := rfl
  have hword : firstWord [line] = 257 := rfl
  rw [hiff, hlen, hlast, hword] at hhas
  exact absurd hhas (by decide)

end Exec

end Micronix
