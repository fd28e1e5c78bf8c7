import Mathlib.Algebra.BigOperators.Fin
import Mathlib.Algebra.Order.BigOperators.Group.Finset
import Micronix.Lib.Transition
import Micronix.Tty.Fifo

/-!
# Queues that share the cblocks

Any number of queues, and one free list.  An operation on one of them leaves the others as they are.
-/

namespace Micronix

namespace Tty

variable {ι : Type*} [DecidableEq ι]

/-- What happens. -/
inductive Label (ι : Type*)
  | putc (q : ι) (c : UInt8)
  | getc (q : ι)
  | fillque (q : ι) (u : User)
  | sendque (q : ι) (u : User)
  | drain (q : ι)

/-- A queue with other cblocks than those that an operation works on. -/
lemma Holds.frame {v w : View} {bs fs fs' own own' : List ℕ} {cs : List UInt8}
    (h : Holds v fs bs cs) (hq : w.toQue = v.toQue) (hf : Frame v w own own')
    (hbs : bs.Disjoint own) (hown : Owned w bs fs') :
    Holds w fs' bs cs := by
  have hnot {b : ℕ} (hb : b ∈ bs) : b ∉ own := fun hm => hbs hb hm
  cases h with
  | nil h hcount hfirst hlast =>
      exact .nil hown (by rw [hq, hcount]) (by rw [hq, hfirst]) (by rw [hq, hlast])
  | some h hj hpos =>
      obtain ⟨b, rest, hb, hlink, hfirst⟩ := h.head
      refine .some ⟨hown,
        ⟨b, rest, hb, hlink.congr fun a ha => hf.next a (hnot ha), by rw [hq, hfirst]⟩,
        by rw [hq]; exact h.last, by rw [hq]; exact h.ends, h.i_le, h.j_le, ?_⟩ hj
        (by rw [hq]; exact hpos)
      rw [hq, stock_congr fun a ha =>
        hf.slots a (h.block a (List.mem_append_left fs ha)).2 (hnot ha)]
      exact h.chars

/-- The step function. -/
def step (s : State ι) : Label ι → Option (State ι)
  | .putc q c => some (s.putc q c).2
  | .getc q => some (s.getc q).2
  | .fillque q u => some (s.fillque q u).2
  | .sendque q u => some (s.sendque q u).2
  | .drain q => some (s.drain q)

/-- After `cinit`: the queues are empty and the cblocks are free. -/
def Start (total : ℕ) (s : State ι) : Prop :=
  (∀ q, s.que q = ⟨0, 0, 0⟩) ∧
    ∃ fs, Linked s.next s.cfree fs ∧ fs.Nodup ∧ (∀ b ∈ fs, b % 16 = 0) ∧ fs.length = total

namespace State

/-- An operation that leaves everything as it is. -/
lemma put_view (s : State ι) (q : ι) : s.put q (s.view q) = s := by
  cases s
  simp [State.put, view]

variable [Fintype ι] {s : State ι} {total : ℕ} {fs : List ℕ} {bs : ι → List ℕ} {cs : ι → List UInt8}

/-- The queues have the cblocks `bs` and the characters `cs`; the cblocks `fs` are free. -/
structure Inv (s : State ι) (total : ℕ) (fs : List ℕ) (bs : ι → List ℕ) (cs : ι → List UInt8) :
    Prop where
  free : Linked s.next s.cfree fs
  nodup : fs.Nodup
  holds : ∀ q, Holds (s.view q) fs (bs q) (cs q)
  disjoint : ∀ q r, q ≠ r → (bs q).Disjoint (bs r)
  limit : ∀ q, (cs q).length ≤ TTYHOG
  total : fs.length + ∑ q, (bs q).length = total

omit [Fintype ι] in
@[simp] lemma put_view_self {q : ι} {v : View} : (s.put q v).view q = v := by
  rw [view, State.put]
  dsimp only
  rw [Function.update_self]

omit [DecidableEq ι] in
/-- The cblocks of another queue are none of those that the operation has in hand. -/
lemma Inv.apart (h : Inv s total fs bs cs) {q r : ι} (hr : r ≠ q) {b : ℕ} (hb : b ∈ bs r) :
    b ∉ bs q ++ fs := by
  intro hm
  rcases List.mem_append.mp hm with hm | hm
  · exact h.disjoint r q hr hb hm
  · exact (List.nodup_append.mp (h.holds r).owned.nodup).2.2 b hb b hm rfl

/-- The other queues after an operation on queue `q`. -/
lemma Inv.holds_other (h : Inv s total fs bs cs) {q r : ι} (hr : r ≠ q) {v : View}
    {fs' bs' : List ℕ} {cs' : List UInt8} (hv : Holds v fs' bs' cs')
    (hf : Frame (s.view q) v (bs q ++ fs) (bs' ++ fs')) :
    Holds ((s.put q v).view r) fs' (bs r) (cs r) := by
  have hc : ((s.put q v).view r).toClist = v.toClist := rfl
  have hqr : ((s.put q v).view r).toQue = s.que r := by
    rw [view, State.put]
    dsimp only
    rw [Function.update_of_ne hr]
  have hr' := (h.holds r).owned
  have hv' := hv.owned
  refine (h.holds r).frame hqr ⟨hf.perm, ?_, ?_⟩ (fun _ hb => h.apart hr hb)
    ⟨?_, ?_, fun b hb => ?_⟩
  · rw [hc]
    exact hf.next
  · rw [hc]
    exact hf.slots
  · rw [hc]
    exact hv'.free
  · refine List.nodup_append.mpr ⟨(List.nodup_append.mp hr'.nodup).1,
      (List.nodup_append.mp hv'.nodup).2.1, fun b hb c hc e => ?_⟩
    exact h.apart hr hb (hf.perm.mem_iff.mp (List.mem_append_right _ (e ▸ hc)))
  · rcases List.mem_append.mp hb with hb | hb
    · exact hr'.block b (List.mem_append_left _ hb)
    · exact hv'.block b (List.mem_append_right _ hb)

/-- The number of cblocks in queues, when it changes in queue `q`. -/
lemma sum_length_update (bs : ι → List ℕ) (q : ι) (bs' : List ℕ) :
    ∑ r, (Function.update bs q bs' r).length + (bs q).length = ∑ r, (bs r).length + bs'.length := by
  have hsum := Finset.add_sum_erase Finset.univ (fun r => (bs r).length) (Finset.mem_univ q)
  have hsum' := Finset.add_sum_erase Finset.univ (fun r => (Function.update bs q bs' r).length)
    (Finset.mem_univ q)
  have he : ∑ r ∈ Finset.univ.erase q, (Function.update bs q bs' r).length =
      ∑ r ∈ Finset.univ.erase q, (bs r).length :=
    Finset.sum_congr rfl fun r hr => by rw [Function.update_of_ne (Finset.ne_of_mem_erase hr)]
  rw [Function.update_self, he] at hsum'
  omega

/-- **The step lemma**: an operation on queue `q`. -/
lemma Inv.put (h : Inv s total fs bs cs) {q : ι} {v : View} {fs' bs' : List ℕ} {cs' : List UInt8}
    (hv : Holds v fs' bs' cs') (hf : Frame (s.view q) v (bs q ++ fs) (bs' ++ fs'))
    (hle : cs'.length ≤ TTYHOG) :
    Inv (s.put q v) total fs' (Function.update bs q bs') (Function.update cs q cs') := by
  have hapart {r : ι} (hr : r ≠ q) {b : ℕ} (hb : b ∈ bs r) : b ∉ bs' := fun hm =>
    h.apart hr hb (hf.perm.mem_iff.mp (List.mem_append_left _ hm))
  refine ⟨hv.owned.free, (List.nodup_append.mp hv.owned.nodup).2.1, fun r => ?_, fun r t hrt => ?_,
    fun r => ?_, ?_⟩
  · by_cases hr : r = q
    · subst hr
      rw [put_view_self, Function.update_self, Function.update_self]
      exact hv
    · rw [Function.update_of_ne hr, Function.update_of_ne hr]
      exact h.holds_other hr hv hf
  · by_cases hr : r = q
    · subst hr
      rw [Function.update_self, Function.update_of_ne hrt.symm]
      exact fun b hb hm => hapart hrt.symm hm hb
    · rw [Function.update_of_ne hr]
      by_cases ht : t = q
      · subst ht
        rw [Function.update_self]
        exact fun b hb hm => hapart hr hb hm
      · rw [Function.update_of_ne ht]
        exact h.disjoint r t hrt
  · by_cases hr : r = q
    · subst hr
      rw [Function.update_self]
      exact hle
    · rw [Function.update_of_ne hr]
      exact h.limit r
  · have hperm := hf.perm.length_eq
    rw [List.length_append, List.length_append] at hperm
    have := h.total
    have := sum_length_update bs q bs'
    omega

/-- What an operation is to do to the characters of the queues, and what it is to give to its
caller. -/
def Served (s s' : State ι) : Label ι → Prop
  | .putc q c =>
      if (s.putc q c).1 then s'.chars = Function.update s.chars q (s.chars q ++ [c])
      else s' = s ∧ ((s.chars q).length = TTYHOG ∨ s.cfree = 0)
  | .getc q =>
      match s.chars q with
      | [] => (s.getc q).1 = none ∧ s' = s
      | c :: cs => (s.getc q).1 = some c ∧ s'.chars = Function.update s.chars q cs
  | .fillque q u =>
      ∃ k ≤ min u.count.toNat (TTYHOG - (s.chars q).length),
        (k = min u.count.toNat (TTYHOG - (s.chars q).length) ∨ s'.cfree = 0) ∧
        (s.fillque q u).1 =
          { u with count := u.count - UInt16.ofNat k, base := u.base + UInt16.ofNat k } ∧
        s'.chars = Function.update s.chars q (s.chars q ++ fetch u.core u.base k)
  | .sendque q u =>
      (s.sendque q u).1 =
          { base := u.base + UInt16.ofNat (min u.count.toNat (s.chars q).length)
            count := u.count - UInt16.ofNat (min u.count.toNat (s.chars q).length)
            core := store u.core u.base ((s.chars q).take u.count.toNat) } ∧
        s'.chars = Function.update s.chars q ((s.chars q).drop u.count.toNat)
  | .drain q => s'.chars = Function.update s.chars q []

omit [DecidableEq ι] in
lemma Inv.chars (h : Inv s total fs bs cs) : s.chars = cs := funext fun q => (h.holds q).chars

/-- An operation serves its caller. -/
lemma Inv.step {s' : State ι} {l : Label ι} (h : Inv s total fs bs cs)
    (he : Tty.step s l = some s') :
    (∃ fs' bs' cs', Inv s' total fs' bs' cs') ∧ Served s s' l := by
  cases l with
  | putc q c =>
      obtain rfl := Option.some.inj he
      rw [Served, h.chars, State.putc]
      rcases (h.holds q).putc c with ⟨hr, hfail⟩ | ⟨v', bs', fs', hr, hlt, hv, -, hf⟩ <;> rw [hr]
      · dsimp only
        rw [put_view]
        refine ⟨⟨fs, bs, cs, h⟩, ?_⟩
        rw [if_neg (by simp)]
        refine ⟨rfl, hfail.imp (fun hle => le_antisymm (h.limit q) hle) fun ⟨hfs, _⟩ => ?_⟩
        subst hfs
        exact h.free
      · have hi := h.put hv hf (by rw [List.length_append]; exact hlt)
        dsimp only
        rw [if_pos rfl]
        exact ⟨⟨_, _, _, hi⟩, hi.chars⟩
  | getc q =>
      obtain rfl := Option.some.inj he
      rw [Served, h.chars, State.getc]
      have hget := h.holds q
      have hlim := h.limit q
      generalize cs q = ds at hget hlim
      cases ds with
      | nil =>
          rw [hget.getc_nil]
          dsimp only
          rw [put_view]
          exact ⟨⟨fs, bs, cs, h⟩, rfl, rfl⟩
      | cons c ds =>
          obtain ⟨v', bs', fs', hr, hv, -, hf⟩ := hget.getc_cons
          rw [hr]
          have hi := h.put hv hf (by rw [List.length_cons] at hlim; omega)
          exact ⟨⟨_, _, _, hi⟩, rfl, hi.chars⟩
  | fillque q u =>
      obtain rfl := Option.some.inj he
      rw [Served, h.chars, State.fillque]
      obtain ⟨k, hk, v', bs', fs', hr, hv, hf, hend⟩ := (h.holds q).fillque u
      rw [hr]
      have hi := h.put hv hf (by rw [List.length_append, length_fetch]; have := h.limit q; omega)
      refine ⟨⟨_, _, _, hi⟩, k, hk, hend.imp_right fun hfs => ?_, rfl, hi.chars⟩
      subst hfs
      exact hi.free
  | sendque q u =>
      obtain rfl := Option.some.inj he
      rw [Served, h.chars, State.sendque]
      obtain ⟨v', bs', fs', hr, hv, hf⟩ := (h.holds q).sendque (h.limit q) u
      rw [hr]
      have hi := h.put hv hf (by rw [List.length_drop]; have := h.limit q; omega)
      exact ⟨⟨_, _, _, hi⟩, rfl, hi.chars⟩
  | drain q =>
      obtain rfl := Option.some.inj he
      rw [Served, h.chars, State.drain]
      obtain ⟨hv, hf⟩ := (h.holds q).drain
      have hi := h.put hv (by simpa using hf) (Nat.zero_le _)
      exact ⟨⟨_, _, _, hi⟩, hi.chars⟩

end State

open State

section Main

variable [Fintype ι] {s : State ι} {total : ℕ}

omit [DecidableEq ι] in
lemma Start.inv (h : Start total s) : ∃ fs, Inv s total fs (fun _ => []) fun _ => [] := by
  obtain ⟨hq, fs, hfree, hnd, h16, hlen⟩ := h
  refine ⟨fs, hfree, hnd,
    fun q => .nil ⟨hfree, hnd, fun b hb => ⟨hfree.ne_zero b hb, h16 b hb⟩⟩ ?_ ?_ ?_, ?_,
    fun _ => Nat.zero_le _, ?_⟩
  · rw [view, hq]
  · rw [view, hq]
  · rw [view, hq]
  · exact fun _ _ _ => List.disjoint_nil_left _
  · simpa using hlen

lemma reachable_inv (h : Transition.Reachable step (Start total) s) :
    ∃ fs bs cs, Inv s total fs bs cs :=
  h.invariant (I := fun s => ∃ fs bs cs, Inv s total fs bs cs)
    (fun _ hs => have ⟨fs, hi⟩ := Start.inv hs; ⟨fs, _, _, hi⟩)
    fun _ _ _ ⟨_, _, _, hi⟩ _ he => (hi.step he).1

end Main

/-- Two queues, and the cblocks at 16 and 32. -/
def start : State (Fin 2) where
  next a := if a = 32 then 16 else 0
  byte _ := 0
  cfree := 32
  que _ := ⟨0, 0, 0⟩

lemma start_start : Start 2 start :=
  ⟨fun _ => rfl, [32, 16], ⟨rfl, by decide, rfl, by decide, rfl⟩, by decide, by decide, rfl⟩

end Tty

end Micronix
