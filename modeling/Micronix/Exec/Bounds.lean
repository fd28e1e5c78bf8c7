import Micronix.Exec.Args
import Mathlib.Tactic.Common

/-!
# The buffers of exec and their array

`getargs` packs the arguments into its buffers one byte after the other (`Holds`).  The array has
`NBLKS` elements, the loop takes up to `NBLKS` buffers and counts them from 1 on, so that the array is
large enough for three buffers (`argument_bounds`).
-/

namespace Micronix

namespace Exec

open Packed

/-- The bytes that have been collected. -/
structure Holds (g : Args) (bs : List UInt8) : Prop where
  nbytes : g.nbytes = bs.length
  nblks : g.nblks = (bs.length + 511) / 512
  d : bs.length % 512 ≠ 0 → g.d = bs.length % 512
  data : ∀ (i : ℕ) (c : UInt8), bs[i]? = some c → g.data (i / 512 + 1) (i % 512) = c

variable {g g' : Args} {bs cs : List UInt8} {c : UInt8}

lemma index_ok {n : ℕ} (h : n < NBLKS) : index n = .ok n :=
  if_pos h

lemma index_four : index 4 = .error (.outside 4) :=
  if_neg (by decide)

/-- The bytes that three buffers hold. -/
def room : ℕ := 1536

/-- The next byte goes behind the others. -/
lemma Holds.store (h : Holds g bs) {n d : ℕ} (hn : n = bs.length / 512 + 1)
    (hd : d = bs.length % 512) : Holds ({ g with nblks := n, d := d }.store c) (bs ++ [c]) := by
  have hlen : (bs ++ [c]).length = bs.length + 1 := List.length_append
  subst hn hd
  refine ⟨?_, ?_, fun hne => ?_, fun i c' hi => ?_⟩
  · rw [hlen, Args.store, h.nbytes]
  · rw [hlen, Args.store]
    dsimp only
    omega
  · rw [hlen] at hne ⊢
    rw [Args.store]
    dsimp only
    omega
  · dsimp only [Args.store]
    rcases Nat.lt_or_ge i bs.length with hlt | hge
    · rw [List.getElem?_append_left hlt] at hi
      have hold := h.data i c' hi
      by_cases hblk : i / 512 + 1 = bs.length / 512 + 1
      · rw [hblk] at hold ⊢
        rw [Function.update_self, Function.update_of_ne (by omega)]
        exact hold
      · rw [Function.update_of_ne hblk]
        exact hold
    · have hlast : i = bs.length := by
        have hlt := (List.getElem?_eq_some_iff.mp hi).1
        omega
      subst hlast
      rw [List.getElem?_concat_length, Option.some.injEq] at hi
      rw [Function.update_self, Function.update_self]
      exact hi

/-- One byte. -/
lemma getbyte_ok (h : Holds g bs) (hlt : bs.length < room) :
    ∃ g', g.getbyte c = .ok (g', true) ∧ Holds g' (bs ++ [c]) ∧ g'.nargs = g.nargs := by
  have hn := h.nblks
  have hnb := h.nbytes
  rw [room] at hlt
  rw [Args.getbyte]
  split_ifs with hmod hblks
  · rw [index_ok (by rw [NBLKS]; omega)]
    exact ⟨_, rfl, h.store (by omega) (by omega), rfl⟩
  · rw [NBLKS] at hblks
    omega
  · have hd := h.d (by omega)
    refine ⟨_, rfl, ?_, rfl⟩
    have hself : { g with nblks := g.nblks, d := g.d } = g := rfl
    rw [← hself]
    exact h.store (by omega) hd

/-- Where the three buffers end. -/
lemma getbyte_outside (h : Holds g bs) (he : bs.length = room) :
    g.getbyte c = .error (.outside 4) := by
  have hn : g.nblks = 3 := by
    rw [h.nblks, he]
    rfl
  have hmod : bs.length % 512 = 0 := by
    rw [he]
    rfl
  rw [Args.getbyte, h.nbytes, if_pos hmod, hn, if_pos (by decide), index_four]

lemma getstring_ok (h : Holds g bs) (hle : (bs ++ cs).length ≤ room) :
    ∃ g', g.getstring cs = .ok (g', true) ∧ Holds g' (bs ++ cs) ∧ g'.nargs = g.nargs := by
  induction cs generalizing g bs with
  | nil => exact ⟨g, rfl, by rwa [List.append_nil], rfl⟩
  | cons c cs ih =>
      have hsplit : bs ++ c :: cs = (bs ++ [c]) ++ cs := by simp
      rw [hsplit] at hle ⊢
      have hlt : bs.length < room := by
        simp only [List.length_append, List.length_singleton] at hle
        omega
      obtain ⟨g1, he, hg1, hnargs⟩ := getbyte_ok (c := c) h hlt
      obtain ⟨g2, he', hg2, hnargs'⟩ := ih hg1 hle
      refine ⟨g2, ?_, hg2, hnargs'.trans hnargs⟩
      rw [Args.getstring, he]
      exact he'

lemma getstring_outside (h : Holds g bs) (hbs : bs.length ≤ room)
    (hlt : room < (bs ++ cs).length) : g.getstring cs = .error (.outside 4) := by
  induction cs generalizing g bs with
  | nil =>
      rw [List.append_nil] at hlt
      omega
  | cons c cs ih =>
      rw [Args.getstring]
      rcases Nat.lt_or_ge bs.length room with hroom | hfull
      · obtain ⟨g1, he, hg1, -⟩ := getbyte_ok (c := c) h hroom
        have hsplit : bs ++ c :: cs = (bs ++ [c]) ++ cs := by simp
        rw [hsplit] at hlt
        rw [he]
        exact ih hg1 (by rw [List.length_append, List.length_singleton]; omega) hlt
      · rw [getbyte_outside h (by omega)]

lemma Holds.setNargs (h : Holds g bs) {n : ℕ} : Holds { g with nargs := n } bs :=
  ⟨h.nbytes, h.nblks, h.d, h.data⟩

lemma getargsLoop_ok {args : List (Text UInt8)} (h : Holds g bs)
    (hle : (bs ++ pack args).length ≤ room) :
    ∃ g', g.getargsLoop args = .ok (g', true) ∧ Holds g' (bs ++ pack args) ∧
      g'.nargs = g.nargs + args.length := by
  induction args generalizing g bs with
  | nil => exact ⟨g, rfl, by rwa [pack_nil, List.append_nil], rfl⟩
  | cons s args ih =>
      have hsplit : bs ++ pack (s :: args) = (bs ++ (s.1 ++ [0])) ++ pack args := by
        rw [pack_cons]
        simp
      rw [hsplit] at hle ⊢
      have hle' : (bs ++ (s.1 ++ [0])).length ≤ room :=
        Nat.le_trans (Nat.le_add_right _ _) (List.length_append ▸ hle)
      obtain ⟨g1, he, hg1, hnargs⟩ := getstring_ok (h.setNargs (n := g.nargs + 1)) hle'
      obtain ⟨g2, he', hg2, hnargs'⟩ := ih hg1 hle
      refine ⟨g2, ?_, hg2, ?_⟩
      · rw [Args.getargsLoop, he]
        exact he'
      · rw [hnargs', hnargs, List.length_cons]
        dsimp only
        omega

lemma getargsLoop_outside {args : List (Text UInt8)} (h : Holds g bs) (hbs : bs.length ≤ room)
    (hlt : room < (bs ++ pack args).length) : g.getargsLoop args = .error (.outside 4) := by
  induction args generalizing g bs with
  | nil =>
      rw [pack_nil, List.append_nil] at hlt
      omega
  | cons s args ih =>
      have hsplit : bs ++ pack (s :: args) = (bs ++ (s.1 ++ [0])) ++ pack args := by
        rw [pack_cons]
        simp
      rw [hsplit] at hlt
      rw [Args.getargsLoop]
      rcases Nat.lt_or_ge room (bs ++ (s.1 ++ [0])).length with hfull | hroom
      · rw [getstring_outside h.setNargs hbs hfull]
      · obtain ⟨g1, he, hg1, -⟩ := getstring_ok (h.setNargs (n := g.nargs + 1)) hroom
        rw [he]
        exact ih hg1 hroom hlt

lemma holds_nil : Holds { g with nargs := 0, nbytes := 0, nblks := 0 } [] :=
  ⟨rfl, rfl, fun h => absurd rfl h, fun i c hi => by simp at hi⟩

/-- **`getargs`.**  Up to 1536 bytes are collected. -/
lemma getargs_ok {args : List (Text UInt8)} (h : (pack args).length ≤ room) :
    ∃ g', g.getargs args = .ok (g', true) ∧ Holds g' (pack args) ∧ g'.nargs = args.length := by
  obtain ⟨g', he, hg', hnargs⟩ := getargsLoop_ok holds_nil h
  exact ⟨g', he, hg', hnargs.trans (Nat.zero_add _)⟩

lemma getargs_outside {args : List (Text UInt8)} (h : room < (pack args).length) :
    g.getargs args = .error (.outside 4) :=
  getargsLoop_outside holds_nil (Nat.zero_le _) h

/-- The indices of `arelse` and of the loop of `putargs` are those of the buffers. -/
lemma arelse_ok (h : g.nblks < NBLKS) : ∃ ns, g.arelse = .ok ns := by
  suffices hall : ∀ l : List ℕ, (∀ n ∈ l, n < g.nblks) →
      ∃ ns, l.mapM (fun n => index (n + 1)) = .ok ns from
    hall _ fun n hn => List.mem_range.mp hn
  intro l hl
  induction l with
  | nil => exact ⟨[], rfl⟩
  | cons n l ih =>
      obtain ⟨ns, hns⟩ := ih fun m hm => hl m (List.mem_cons_of_mem _ hm)
      have hn := hl n List.mem_cons_self
      refine ⟨(n + 1) :: ns, ?_⟩
      rw [List.mapM_cons, index_ok (by omega), hns]
      rfl

lemma blocks_ok {nargs av : ℕ} {data : ℕ → Bytes} {ns : List ℕ} (h : ∀ n ∈ ns, n < NBLKS)
    (z : Put) : ∃ z', z.blocks nargs av data ns = .ok z' := by
  induction ns generalizing z with
  | nil => exact ⟨z, rfl⟩
  | cons n ns ih =>
      rw [Put.blocks, index_ok (h n List.mem_cons_self)]
      exact ih (fun m hm => h m (List.mem_cons_of_mem _ hm)) _

lemma putargs_ok {mem : Bytes} (h : g.nblks < NBLKS) : ∃ r, g.putargs mem = .ok r := by
  have hin : ∀ n ∈ List.range' 1 g.nblks, n < NBLKS := by
    intro n hn
    rw [List.mem_range'_1] at hn
    omega
  let z : Put := ⟨0, 0, usrtop - g.nbytes, usrtop - g.nbytes, g.nbytes, mem⟩
  have hz : ∃ z', z.blocks g.nargs (usrtop - g.nbytes - 2 * g.nargs - 2) g.data _ = .ok z' :=
    blocks_ok hin z
  obtain ⟨z', hz⟩ := hz
  rw [Args.putargs, hz, index_ok (by decide)]
  exact ⟨_, rfl⟩

/-- Every index is one of the array's, and the arguments fit in the buffers. -/
def InBounds (args : List (Text UInt8)) : Prop :=
  ∀ (g : Args) (mem : Bytes), ∃ g' ok, g.getargs args = .ok (g', ok) ∧
    (∃ ns, g'.arelse = .ok ns) ∧ (ok = true →
      (∃ r, g'.putargs mem = .ok r) ∧ g'.nbytes ≤ 512 * g'.nblks)

/-- **Bounds of the argument buffers.**  The indices are inside of the array if and only if three
buffers are enough for the arguments. -/
theorem argument_bounds (args : List (Text UInt8)) :
    InBounds args ↔ (pack args).length ≤ 3 * 512 := by
  constructor
  · intro h
    by_contra hlt
    obtain ⟨g', ok, he, -⟩ := h ⟨0, 0, 0, fun _ => Bytes.zero, 0⟩ Bytes.zero
    rw [getargs_outside (by rw [room]; omega)] at he
    cases he
  · intro h g mem
    obtain ⟨g', he, hg', -⟩ := getargs_ok (g := g) (show (pack args).length ≤ room from h)
    have hblks := hg'.nblks
    have hbytes := hg'.nbytes
    have hlt : g'.nblks < NBLKS := by
      rw [NBLKS]
      omega
    exact ⟨g', true, he, arelse_ok hlt, fun _ => ⟨putargs_ok hlt, by omega⟩⟩

/-- One argument of 1536 characters. -/
def long : Text UInt8 :=
  ⟨List.replicate 1536 1, fun h => absurd (List.eq_of_mem_replicate h) (by decide)⟩

/-- The fourth buffer. -/
theorem fourth_buffer_outside : ¬∀ args, InBounds args := by
  intro h
  obtain ⟨g', ok, he, -⟩ := h [long] ⟨0, 0, 0, fun _ => Bytes.zero, 0⟩ Bytes.zero
  have hlen : (pack [long]).length = 1537 := by
    rw [pack_cons, pack_nil, List.length_append, List.length_singleton]
    exact congrArg (· + 1) List.length_replicate
  rw [getargs_outside (by rw [hlen]; decide)] at he
  cases he

end Exec

end Micronix
