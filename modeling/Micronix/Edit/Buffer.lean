import Mathlib.Data.List.InsertIdx
import Mathlib.Data.UInt
import Micronix.Lib.Circular

/-!
# The lines of the screen editor, `cmd/s/buffer.c`

The lines are in a circular list with links both ways, with `line0` between the last and the first, and
`ref_line` is the line that was looked for most recently: the search for a line begins there.  `Holds`
says which nodes the list has, and it follows that each function does to the list of lines what its name
says.
-/

namespace Micronix

namespace Edit

/-- A line, without the null character at its end. -/
abbrev Text := List UInt8

abbrev Word := UInt16

/-- `malloc`: what it returns depends on the nodes in use and on how often it has been called, and it is
no node in use. -/
structure Malloc where
  get : List ℕ → ℕ → Option ℕ
  fresh : ∀ live n a, get live n = some a → a ≠ 0 ∧ a ∉ live

/-- The variables of `buffer.c`.  A `struct b_line` is at a number, `line0` at 0; `live` are the nodes
that are in use, and `failed` tells whether `malloc` has returned NULL. -/
structure Buffer where
  next : ℕ → ℕ
  prev : ℕ → ℕ
  b_text : ℕ → Text
  b_id : ℕ → Word
  ref_line : ℕ
  ref_nbr : ℤ
  last_id : Word
  live : List ℕ
  calls : ℕ
  failed : Bool

namespace Buffer

/-- `buf_init`, when the editor is started; `zero` is what stands at address 0. -/
def buf_init (zero : Text) : Buffer where
  next := fun _ => 0
  prev := fun _ => 0
  b_text := fun _ => zero
  b_id := fun _ => 0
  ref_line := 0
  ref_nbr := 0
  last_id := 0
  live := []
  calls := 0
  failed := false

/-- `reference` -/
def reference (s : Buffer) (n : ℤ) : Buffer :=
  let ref_line := s.next^[(n - s.ref_nbr).toNat] s.ref_line
  { s with ref_line := s.prev^[(s.ref_nbr - n).toNat] ref_line, ref_nbr := n }

/-- `malloc`, for something that is no node -/
def malloc (m : Malloc) (s : Buffer) : Buffer × Bool :=
  let got := (m.get s.live s.calls).isSome
  ({ s with calls := s.calls + 1, failed := s.failed || !got }, got)

/-- `malloc`, for a node -/
def alloc (m : Malloc) (s : Buffer) : Buffer × Option ℕ :=
  let p := m.get s.live s.calls
  ({ (s.malloc m).1 with live := p.toList ++ s.live }, p)

/-- What `buf_delete` does to each line. -/
def unlink (s : Buffer) : Buffer :=
  let b := s.next s.ref_line
  { s with
    prev := Function.update s.prev b (s.prev s.ref_line)
    next := Function.update s.next (s.prev s.ref_line) b
    live := s.live.erase s.ref_line
    ref_line := b }

/-- `buf_delete` -/
def buf_delete (s : Buffer) (start stop : ℤ) : Buffer :=
  unlink^[(stop - start + 1).toNat] (s.reference start)

/-- `buf_gets` -/
def buf_gets (s : Buffer) (k : ℤ) : Buffer × Text :=
  let s := s.reference k
  (s, s.b_text s.ref_line)

/-- `buf_id` -/
def buf_id (s : Buffer) (k : ℤ) : Buffer × Word :=
  let s := s.reference k
  (s, s.b_id s.ref_line)

/-- What `buf_insert` does when it has the node `p`. -/
def link (s : Buffer) (p : ℕ) (t : Text) : Buffer :=
  let id := s.last_id + 1
  { s with
    b_text := Function.update s.b_text p t
    b_id := Function.update s.b_id p id
    last_id := id
    next := Function.update (Function.update s.next p (s.next s.ref_line)) s.ref_line p
    prev := Function.update (Function.update s.prev p s.ref_line) (s.next s.ref_line) p }

/-- `buf_insert` -/
def buf_insert (m : Malloc) (s : Buffer) (k : ℤ) (t : Text) : Buffer × Bool :=
  let p := s.alloc m
  let q := p.1.malloc m
  match p.2 with
  | some a => if q.2 then ((q.1.reference (k - 1)).link a t, true) else (q.1, false)
  | none => (q.1, false)

/-- What `buf_replace` does when it has the room. -/
def change (s : Buffer) (t : Text) : Buffer :=
  let id := s.last_id + 1
  { s with
    b_text := Function.update s.b_text s.ref_line t
    b_id := Function.update s.b_id s.ref_line id
    last_id := id }

/-- `buf_replace` -/
def buf_replace (m : Malloc) (s : Buffer) (k : ℤ) (t : Text) : Buffer × Bool :=
  let p := s.malloc m
  if p.2 then ((p.1.reference k).change t, true) else (p.1, false)

/-! ## What the list holds -/

/-- The nodes of the lines are `c`. -/
structure Holds (s : Buffer) (w : List ℕ) : Prop where
  ring : Circular s.next s.prev (0 :: w)
  ref : s.ref_line = Circular.nth (0 :: w) s.ref_nbr
  live : ∀ a ∈ w, a ∈ s.live

/-- What a node has. -/
def line (s : Buffer) (a : ℕ) : Text × Word := (s.b_text a, s.b_id a)

/-- The buffer has these lines, with their numbers. -/
def Has (s : Buffer) (ls : List (Text × Word)) : Prop := ∃ w, s.Holds w ∧ ls = w.map s.line

section

variable {s : Buffer} {w : List ℕ} {ls : List (Text × Word)} {m : Malloc} {a k : ℕ} {n : ℤ} {t : Text}

lemma holds_init (zero : Text) : (buf_init zero).Holds [] where
  ring := .single rfl rfl
  ref := rfl
  live := List.forall_mem_nil _

/-- `reference` finds the line, whichever was the last. -/
lemma Holds.reference (h : s.Holds w) (n : ℤ) : (s.reference n).Holds w := by
  refine ⟨h.ring, ?_, h.live⟩
  have hup : ∀ (k : ℕ) (i : ℤ),
      s.next^[k] (Circular.nth (0 :: w) i) = Circular.nth (0 :: w) (i + k) := by
    intro k
    induction k with
    | zero => exact fun i => by rw [Int.natCast_zero, Int.add_zero]; rfl
    | succ k ih =>
        intro i
        rw [Function.iterate_succ_apply, (h.ring.nth_links i).1, ih]
        congr 1
        omega
  have hdown : ∀ (k : ℕ) (i : ℤ),
      s.prev^[k] (Circular.nth (0 :: w) i) = Circular.nth (0 :: w) (i - k) := by
    intro k
    induction k with
    | zero => exact fun i => by rw [Int.natCast_zero, Int.sub_zero]; rfl
    | succ k ih =>
        intro i
        have hlink := (h.ring.nth_links (i - 1)).2
        rw [Int.sub_add_cancel] at hlink
        rw [Function.iterate_succ_apply, hlink, ih]
        congr 1
        omega
  show s.prev^[(s.ref_nbr - n).toNat] (s.next^[(n - s.ref_nbr).toNat] s.ref_line) = _
  rw [h.ref, hup, hdown]
  congr 1
  show _ = n
  omega

/-- The line `k + 1` is referred to. -/
lemma Holds.reference_succ (h : s.Holds w) (hk : w[k]? = some a) :
    (s.reference (k + 1)).ref_line = a := by
  refine (h.reference (k + 1)).ref.trans ?_
  exact Circular.nth_of_get (i := k + 1) (by rwa [List.getElem?_cons_succ])

lemma Holds.malloc (h : s.Holds w) (m : Malloc) : (s.malloc m).1.Holds w := ⟨h.ring, h.ref, h.live⟩

lemma Holds.alloc (h : s.Holds w) (m : Malloc) : (s.alloc m).1.Holds w :=
  ⟨h.ring, h.ref, fun a ha => List.mem_append_right _ (h.live a ha)⟩

/-- A new node is no line. -/
lemma Holds.fresh (h : s.Holds w) {p : ℕ} (hp : m.get s.live s.calls = some p) : p ∉ 0 :: w := by
  obtain ⟨hne, hlive⟩ := m.fresh _ _ _ hp
  exact fun hin => (List.mem_cons.mp hin).elim hne fun hc => hlive (h.live p hc)

/-! ## The functions -/

lemma has_malloc (h : s.Has ls) : (s.malloc m).1.Has ls := by
  obtain ⟨w, hc, rfl⟩ := h
  exact ⟨w, hc.malloc m, rfl⟩

lemma has_gets (h : s.Has ls) (n : ℤ) : (s.buf_gets n).1.Has ls := by
  obtain ⟨w, hc, rfl⟩ := h
  exact ⟨w, hc.reference n, rfl⟩

lemma gets_eq (h : s.Has ls) {l : Text × Word} (hk : ls[k]? = some l) :
    (s.buf_gets (k + 1)).2 = l.1 ∧ (s.buf_id (k + 1)).2 = l.2 := by
  obtain ⟨w, hc, rfl⟩ := h
  rw [List.getElem?_map, Option.map_eq_some_iff] at hk
  obtain ⟨a, ha, rfl⟩ := hk
  exact ⟨congrArg s.b_text (hc.reference_succ ha), congrArg s.b_id (hc.reference_succ ha)⟩

/-- The nodes up to the one that is referred to, and those behind it. -/
lemma Holds.split (h : s.Holds w) {k : ℕ} (hk : k ≤ w.length) (hn : s.ref_nbr = k) :
    0 :: w.take k = (0 :: w).take k ++ [s.ref_line] ∧
      0 :: w = (0 :: w).take k ++ s.ref_line :: w.drop k := by
  have hget : (0 :: w)[k]? = some s.ref_line := by
    have hlt : k < (0 :: w).length := by
      rw [List.length_cons]
      omega
    have ha := List.getElem?_eq_getElem hlt
    rw [h.ref, hn, Circular.nth_of_get ha, ha]
  have htake : 0 :: w.take k = (0 :: w).take k ++ [s.ref_line] := by
    rw [← List.take_succ_cons, List.take_add_one, hget]
    rfl
  refine ⟨htake, ?_⟩
  calc 0 :: w = 0 :: w.take k ++ w.drop k := by rw [List.cons_append, List.take_append_drop]
    _ = (0 :: w).take k ++ s.ref_line :: w.drop k := by rw [htake, List.append_assoc]; rfl

/-- A new node comes behind the one that is referred to. -/
lemma Holds.link (h : s.Holds w) {p : ℕ} (hp : p ∉ 0 :: w) (hlive : p ∈ s.live) {k : ℕ}
    (hk : k ≤ w.length) (hn : s.ref_nbr = k) (t : Text) :
    (s.link p t).Holds (w.take k ++ p :: w.drop k) := by
  obtain ⟨htake, hall⟩ := h.split hk hn
  have hnew : 0 :: (w.take k ++ p :: w.drop k) =
      (0 :: w).take k ++ s.ref_line :: p :: w.drop k := by
    rw [← List.cons_append, htake, List.append_assoc]
    rfl
  have hring := h.ring
  rw [hall] at hring hp
  refine ⟨?_, ?_, ?_⟩
  · rw [hnew]
    exact hring.insert hp
  · have hget : (0 :: (w.take k ++ p :: w.drop k))[k]? = some s.ref_line := by
      have hlen : ((0 :: w).take k).length = k := by
        rw [List.length_take, List.length_cons]
        omega
      rw [hnew, List.getElem?_append_right (Nat.le_of_eq hlen), hlen, Nat.sub_self]
      rfl
    show s.ref_line = Circular.nth _ s.ref_nbr
    rw [hn, Circular.nth_of_get hget]
  · intro a ha
    rcases List.mem_append.mp ha with htk | hdr
    · exact h.live a (List.mem_of_mem_take htk)
    · rcases List.mem_cons.mp hdr with rfl | hdr
      · exact hlive
      · exact h.live a (List.mem_of_mem_drop hdr)

/-- `buf_insert` -/
lemma has_insert (h : s.Has ls) (hk : k ≤ ls.length) {s' : Buffer} {ok : Bool}
    (hs : s.buf_insert m (k + 1) t = (s', ok)) :
    s'.Has (if ok then ls.take k ++ (t, s.last_id + 1) :: ls.drop k else ls) ∧
      s'.last_id = if ok then s.last_id + 1 else s.last_id := by
  obtain ⟨w, hc, rfl⟩ := h
  rw [List.length_map] at hk
  have hfull := (hc.alloc m).malloc m
  rw [buf_insert] at hs
  set q := (s.alloc m).1.malloc m with hq
  rcases hp : (s.alloc m).2 with - | p
  · rw [hp] at hs
    obtain ⟨rfl, rfl⟩ := Prod.mk.inj hs
    exact ⟨⟨w, hfull, rfl⟩, rfl⟩
  · rw [hp] at hs
    dsimp only at hs
    by_cases hok : q.2 = true
    · rw [if_pos hok] at hs
      obtain ⟨rfl, rfl⟩ := Prod.mk.inj hs
      have hnew : p ∉ 0 :: w := hc.fresh hp
      have hlive : p ∈ q.1.live := by
        show p ∈ (s.alloc m).2.toList ++ s.live
        rw [hp]
        exact List.mem_append_left _ (List.mem_singleton_self p)
      have hnbr : (q.1.reference ((k : ℤ) + 1 - 1)).ref_nbr = k := Int.add_sub_cancel _ _
      have hlink := (hfull.reference ((k : ℤ) + 1 - 1)).link hnew hlive hk hnbr t
      refine ⟨⟨_, hlink, ?_⟩, rfl⟩
      have hsame : ∀ a ∈ w, ((q.1.reference ((k : ℤ) + 1 - 1)).link p t).line a = s.line a := by
        intro a ha
        have hne : a ≠ p := fun e => hnew (List.mem_cons_of_mem 0 (e ▸ ha))
        exact Prod.ext (Function.update_of_ne hne ..) (Function.update_of_ne hne ..)
      have hself : ((q.1.reference ((k : ℤ) + 1 - 1)).link p t).line p = (t, s.last_id + 1) :=
        Prod.ext (Function.update_self ..) (Function.update_self ..)
      rw [if_pos rfl, List.map_append, List.map_cons, hself, ← List.map_take, ← List.map_drop]
      congr 1
      · exact (List.map_congr_left fun a ha => hsame a (List.mem_of_mem_take ha)).symm
      · congr 1
        exact (List.map_congr_left fun a ha => hsame a (List.mem_of_mem_drop ha)).symm
    · rw [if_neg hok] at hs
      obtain ⟨rfl, rfl⟩ := Prod.mk.inj hs
      exact ⟨⟨w, hfull, rfl⟩, rfl⟩

/-- `buf_replace` -/
lemma has_replace (h : s.Has ls) (hk : k < ls.length) {s' : Buffer} {ok : Bool}
    (hs : s.buf_replace m (k + 1) t = (s', ok)) :
    s'.Has (if ok then ls.take k ++ (t, s.last_id + 1) :: ls.drop (k + 1) else ls) ∧
      s'.last_id = if ok then s.last_id + 1 else s.last_id := by
  obtain ⟨w, hc, rfl⟩ := h
  rw [List.length_map] at hk
  rw [buf_replace] at hs
  have hfull := (hc.malloc m).reference ((k : ℤ) + 1)
  by_cases hok : (s.malloc m).2 = true
  · rw [if_pos hok] at hs
    obtain ⟨rfl, rfl⟩ := Prod.mk.inj hs
    set u := (s.malloc m).1.reference ((k : ℤ) + 1) with hu
    have href : u.ref_line = w[k] := (hc.malloc m).reference_succ (List.getElem?_eq_getElem hk)
    refine ⟨⟨w, ⟨hfull.ring, hfull.ref, hfull.live⟩, ?_⟩, rfl⟩
    have hsplit : w = w.take k ++ w[k] :: w.drop (k + 1) := by
      rw [← List.drop_eq_getElem_cons hk, List.take_append_drop]
    have hnodup := (List.nodup_cons.mp hc.ring.nodup).2
    have hapart : w[k] ∉ w.take k ∧ w[k] ∉ w.drop (k + 1) := by
      rw [hsplit] at hnodup
      obtain ⟨-, hr, hdis⟩ := List.nodup_append.mp hnodup
      exact ⟨fun hin => hdis _ hin _ List.mem_cons_self rfl, (List.nodup_cons.mp hr).1⟩
    have hsame : ∀ a, a ≠ w[k] → (u.change t).line a = s.line a := by
      intro a hne
      rw [← href] at hne
      exact Prod.ext (Function.update_of_ne hne ..) (Function.update_of_ne hne ..)
    have hself : (u.change t).line w[k] = (t, s.last_id + 1) := by
      rw [← href]
      exact Prod.ext (Function.update_self ..) (Function.update_self ..)
    rw [if_pos rfl, ← List.map_take, ← List.map_drop]
    conv_rhs => rw [hsplit]
    rw [List.map_append, List.map_cons, hself]
    congr 1
    · exact (List.map_congr_left fun a ha => hsame a (ne_of_mem_of_not_mem ha hapart.1)).symm
    · congr 1
      exact (List.map_congr_left fun a ha => hsame a (ne_of_mem_of_not_mem ha hapart.2)).symm
  · rw [if_neg hok] at hs
    obtain ⟨rfl, rfl⟩ := Prod.mk.inj hs
    exact ⟨⟨w, hc.malloc m, rfl⟩, rfl⟩

/-- The line that is referred to is linked out, and the next one is referred to. -/
lemma Holds.unlink {r : ℕ} {xs ys : List ℕ} (h : s.Holds (xs ++ r :: ys))
    (hn : s.ref_nbr = xs.length + 1) : s.unlink.Holds (xs ++ ys) ∧ s.ref_line = r := by
  have hget : (0 :: (xs ++ r :: ys))[xs.length + 1]? = some r := by
    rw [List.getElem?_cons_succ, List.getElem?_append_right (Nat.le_refl _), Nat.sub_self]
    rfl
  have href : s.ref_line = r := by
    rw [h.ref, hn]
    exact Circular.nth_of_get hget
  have hnext : s.next r = Circular.nth (0 :: (xs ++ r :: ys)) (xs.length + 1 + 1) := by
    rw [← (h.ring.nth_links (xs.length + 1)).1]
    exact congrArg s.next (Circular.nth_of_get hget).symm
  have hnodup := h.ring.nodup
  refine ⟨⟨?_, ?_, ?_⟩, href⟩
  · obtain ⟨l, z, hlz⟩ : ∃ l z, 0 :: xs = l ++ [z] :=
      ⟨_, _, (List.dropLast_append_getLast (List.cons_ne_nil 0 xs)).symm⟩
    have hring := h.ring
    rw [← List.cons_append, hlz, List.append_assoc] at hring
    rw [← List.cons_append, hlz, List.append_assoc]
    show Circular (Function.update s.next (s.prev s.ref_line) (s.next s.ref_line))
      (Function.update s.prev (s.next s.ref_line) (s.prev s.ref_line)) _
    rw [href]
    exact hring.delete
  · show s.next s.ref_line = Circular.nth (0 :: (xs ++ ys)) s.ref_nbr
    rw [href, hnext, hn]
    cases ys with
    | nil =>
        have h1 := Circular.nth_length 0 (xs ++ [r])
        have h2 := Circular.nth_length 0 (xs ++ [])
        simp only [List.length_append, List.length_singleton, List.length_nil, Nat.add_zero] at h1 h2
        push_cast at h1 h2
        rw [h1, h2]
    | cons y ys =>
        have h1 : (0 :: (xs ++ r :: y :: ys))[xs.length + 1 + 1]? = some y := by
          rw [List.getElem?_cons_succ, List.getElem?_append_right (Nat.le_succ _),
            Nat.succ_sub (Nat.le_refl _), Nat.sub_self]
          rfl
        have h2 : (0 :: (xs ++ y :: ys))[xs.length + 1]? = some y := by
          rw [List.getElem?_cons_succ, List.getElem?_append_right (Nat.le_refl _), Nat.sub_self]
          rfl
        exact (Circular.nth_of_get h1).trans (Circular.nth_of_get h2).symm
  · intro a ha
    have hne : a ≠ r := by
      rintro rfl
      have hperm : (xs ++ a :: ys).Perm (a :: (xs ++ ys)) := List.perm_middle
      exact (List.nodup_cons.mp (hperm.nodup (List.nodup_cons.mp hnodup).2)).1 ha
    show a ∈ s.live.erase s.ref_line
    rw [href, List.mem_erase_of_ne hne]
    refine h.live a ?_
    rw [List.mem_append] at ha ⊢
    exact ha.imp_right (List.mem_cons_of_mem r)

lemma Holds.unlinks {xs ys : List ℕ} (zs : List ℕ) (h : s.Holds (xs ++ zs ++ ys))
    (hn : s.ref_nbr = xs.length + 1) :
    (Buffer.unlink^[zs.length] s).Holds (xs ++ ys) ∧
      (Buffer.unlink^[zs.length] s).line = s.line ∧
      (Buffer.unlink^[zs.length] s).last_id = s.last_id := by
  induction zs generalizing s with
  | nil =>
      rw [List.append_nil] at h
      exact ⟨h, rfl, rfl⟩
  | cons z zs ih =>
      rw [List.append_assoc, List.cons_append] at h
      have hone := (h.unlink hn).1
      rw [← List.append_assoc] at hone
      exact ih hone hn

/-- `buf_delete` -/
lemma has_delete (h : s.Has ls) {i j : ℕ} (hij : i ≤ j) (hj : j ≤ ls.length) :
    (s.buf_delete (i + 1) j).Has (ls.take i ++ ls.drop j) ∧
      (s.buf_delete (i + 1) j).last_id = s.last_id := by
  obtain ⟨w, hc, rfl⟩ := h
  rw [List.length_map] at hj
  set zs := (w.drop i).take (j - i) with hzs
  have hlen : zs.length = j - i := by
    rw [hzs, List.length_take, List.length_drop]
    omega
  have hsplit : w = w.take i ++ zs ++ w.drop j := by
    have hdrop : w.drop j = (w.drop i).drop (j - i) := by
      rw [List.drop_drop]
      congr 1
      omega
    rw [List.append_assoc, hzs, hdrop, List.take_append_drop, List.take_append_drop]
  have hcount : ((j : ℤ) - (i + 1) + 1).toNat = zs.length := by omega
  have hfull := hc.reference (i + 1)
  have hn : (s.reference (i + 1)).ref_nbr = (w.take i).length + 1 := by
    rw [List.length_take, Nat.min_eq_left (by omega)]
    rfl
  rw [hsplit] at hfull
  obtain ⟨hholds, hline, hid⟩ := hfull.unlinks zs hn
  rw [buf_delete, hcount]
  refine ⟨⟨_, hholds, ?_⟩, hid⟩
  rw [hline, List.map_append, ← List.map_take, ← List.map_drop]
  rfl

end

end Buffer

end Edit

end Micronix
