import Micronix.Tty.Queue

/-!
# Chains of cblocks

The cblocks of a queue are a linked list.  In a chain of `n` cblocks there are `14 * n` slots, and
the characters are those from slot `i` on, `i ≤ 14`, to slot `j`, `j ≤ 14`, of the last cblock.
-/

namespace Micronix

namespace Tty

variable {v v' v'' : View} {bs fs : List ℕ} {own own' own'' : List ℕ} {i j b t : ℕ}
  {cs ws : List UInt8}

/-- The characters of a cblock. -/
def slots (byte : ℕ → UInt8) (b : ℕ) : List UInt8 := (List.range 14).map fun d => byte (b + 2 + d)

/-- The slots of a chain. -/
def stock (byte : ℕ → UInt8) (bs : List ℕ) : List UInt8 := bs.flatMap (slots byte)

@[simp] lemma length_slots {byte : ℕ → UInt8} : (slots byte b).length = 14 := by simp [slots]

lemma length_stock {byte : ℕ → UInt8} : (stock byte bs).length = 14 * bs.length := by
  induction bs with
  | nil => rfl
  | cons b bs ih =>
      rw [stock, List.flatMap_cons, List.length_append, length_slots, List.length_cons]
      change 14 + (stock byte bs).length = _
      omega

lemma getElem?_slots {byte : ℕ → UInt8} {d : ℕ} (hd : d < 14) :
    (slots byte b)[d]? = some (byte (b + 2 + d)) := by
  simp [slots, hd]

/-- The cblocks of a queue, `bs`, and the free ones, `fs`. -/
structure Owned (v : View) (bs fs : List ℕ) : Prop where
  free : Linked v.next v.cfree fs
  nodup : (bs ++ fs).Nodup
  block : ∀ b ∈ bs ++ fs, b ≠ 0 ∧ b % 16 = 0

/-- A queue with cblocks, whose characters are `cs`. -/
structure Open (v : View) (bs fs : List ℕ) (i j : ℕ) (cs : List UInt8) : Prop
    extends Owned v bs fs where
  head : ∃ b rest, bs = b :: rest ∧ Linked v.next b bs ∧ v.first = b + 2 + i
  last : ∃ init l, bs = init ++ [l] ∧ v.last = l + 2 + j
  ends : i + v.count + 14 = 14 * bs.length + j
  i_le : i ≤ 14
  j_le : j ≤ 14
  chars : cs = ((stock v.byte bs).drop i).take v.count

/-- What the protocol in `queue.c` asks for: the queue has no cblocks, or there are characters in
the first and in the last one. -/
inductive Holds (v : View) (fs : List ℕ) : List ℕ → List UInt8 → Prop
  | nil : Owned v [] fs → v.count = 0 → v.first = 0 → v.last = 0 → Holds v fs [] []
  | some {bs : List ℕ} {i j : ℕ} {cs : List UInt8} :
      Open v bs fs i j cs → 0 < j → 0 < v.count → Holds v fs bs cs

/-- Cblocks other than those of `own` stay as they are, and those of `own` become those of
`own'`. -/
structure Frame (v v' : View) (own own' : List ℕ) : Prop where
  perm : own'.Perm own
  next : ∀ b, b ∉ own → v'.next b = v.next b
  slots : ∀ b, b % 16 = 0 → b ∉ own → slots v'.byte b = slots v.byte b

lemma Frame.refl : Frame v v own own := ⟨.refl _, fun _ _ => rfl, fun _ _ _ => rfl⟩

lemma Frame.trans (h : Frame v v' own own') (h' : Frame v' v'' own' own'') :
    Frame v v'' own own'' where
  perm := h'.perm.trans h.perm
  next b hb := (h'.next b (mt h.perm.mem_iff.mp hb)).trans (h.next b hb)
  slots b h16 hb := (h'.slots b h16 (mt h.perm.mem_iff.mp hb)).trans (h.slots b h16 hb)

lemma Open.length (h : Open v bs fs i j cs) : cs.length = v.count := by
  have := h.ends
  have := h.j_le
  rw [h.chars, List.length_take, List.length_drop, length_stock]
  omega

lemma Holds.length (h : Holds v fs bs cs) : cs.length = v.count := by
  cases h with
  | nil _ h0 => exact h0.symm
  | some h => exact h.length

lemma Holds.owned (h : Holds v fs bs cs) : Owned v bs fs := by
  cases h with
  | nil h => exact h
  | some h => exact h.toOwned

/-- Slots that do not change. -/
lemma stock_congr {byte byte' : ℕ → UInt8} (h : ∀ b ∈ bs, slots byte' b = slots byte b) :
    stock byte' bs = stock byte bs := List.flatMap_congr h

/-! ## Characters in and out -/

/-- A cblock with `ws` written over its slots from `j` on. -/
lemma slots_write {byte byte' : ℕ → UInt8} {ws : List UInt8} (hj : j + ws.length ≤ 14)
    (hin : ∀ d, d < ws.length → some (byte' (b + 2 + j + d)) = ws[d]?)
    (hout : ∀ a, a < b + 2 + j ∨ b + 2 + j + ws.length ≤ a → byte' a = byte a) :
    slots byte' b = (slots byte b).take j ++ ws ++ (slots byte b).drop (j + ws.length) := by
  refine List.ext_getElem? fun d => ?_
  by_cases hd : d < 14
  · rw [getElem?_slots hd, List.append_assoc, List.getElem?_append, List.length_take, length_slots,
      List.getElem?_append, List.getElem?_take, List.getElem?_drop]
    split_ifs with h1 h2 h3
    · rw [getElem?_slots hd, hout _ (by omega)]
    · omega
    · rw [← hin _ h3]
      congr 2
      omega
    · rw [getElem?_slots (by omega), hout _ (by omega)]
      congr 2
      omega
  · rw [List.getElem?_eq_none (by rw [length_slots]; omega), List.getElem?_eq_none]
    simp only [List.length_append, List.length_take, List.length_drop, length_slots]
    omega

lemma stock_concat {byte : ℕ → UInt8} : stock byte (bs ++ [b]) = stock byte bs ++ slots byte b := by
  rw [stock, List.flatMap_append]
  simp [stock]

lemma Open.le_stock (h : Open v bs fs i j cs) : i + v.count ≤ (stock v.byte bs).length := by
  have := h.ends
  have := h.j_le
  rw [length_stock]
  omega

/-- Bytes written at `last`, all of them in the last cblock. -/
lemma Open.write (h : Open v bs fs i j cs) (v' : View) (ws : List UInt8) (hj : j + ws.length ≤ 14)
    (hn : v'.next = v.next) (hc : v'.cfree = v.cfree) (hf : v'.first = v.first)
    (hl : v'.last = v.last + ws.length) (hcount : v'.count = v.count + ws.length)
    (hin : ∀ d, d < ws.length → some (v'.byte (v.last + d)) = ws[d]?)
    (hout : ∀ a, a < v.last ∨ v.last + ws.length ≤ a → v'.byte a = v.byte a) :
    Open v' bs fs i (j + ws.length) (cs ++ ws) ∧ Frame v v' (bs ++ fs) (bs ++ fs) := by
  obtain ⟨init, l, hbs, hlast⟩ := h.last
  have hl16 : l % 16 = 0 := (h.block l (by simp [hbs])).2
  have hother (b : ℕ) (h16 : b % 16 = 0) (hb : b ≠ l) : slots v'.byte b = slots v.byte b := by
    refine List.map_congr_left fun d hd => hout _ ?_
    rw [List.mem_range] at hd
    omega
  have hinit : l ∉ init := by
    have := h.nodup
    rw [hbs, List.append_assoc] at this
    exact fun hm => (List.nodup_append.mp this).2.2 l hm l (by simp) rfl
  have hstock : stock v'.byte bs =
      (stock v.byte bs).take (i + v.count) ++ ws ++ (slots v.byte l).drop (j + ws.length) := by
    have hcut : i + v.count = (stock v.byte init).length + j := by
      rw [length_stock]
      have := h.ends
      rw [hbs, List.length_append, List.length_singleton] at this
      omega
    have he : stock v'.byte init = stock v.byte init := stock_congr fun b hb =>
      hother b (h.block b (by simp [hbs, hb])).2 fun e => hinit (e ▸ hb)
    rw [hbs, stock_concat, stock_concat, he, slots_write hj (hlast ▸ hin) (hlast ▸ hout), hcut,
      List.take_length_add_append]
    simp only [List.append_assoc]
  refine ⟨⟨⟨hc ▸ hn ▸ h.free, h.nodup, h.block⟩, ?_, ⟨init, l, hbs, by omega⟩, ?_, h.i_le, hj, ?_⟩,
    ⟨.refl _, fun b _ => by rw [hn], fun b h16 hb => hother b h16 fun e => hb (by simp [e, hbs])⟩⟩
  · rw [hn, hf]
    exact h.head
  · have := h.ends
    omega
  · have hle := h.le_stock
    rw [hstock, hcount, h.chars, List.append_assoc, List.drop_append_of_le_length, List.drop_take,
      ← List.append_assoc]
    · have hlen : (List.take (i + v.count - i) (List.drop i (stock v.byte bs)) ++ ws).length =
          v.count + ws.length := by
        rw [List.length_append, List.length_take, List.length_drop]
        omega
      rw [← hlen, List.take_left', show i + v.count - i = v.count by omega]
      rfl
    · rw [List.length_take]
      omega

/-- Characters taken at `first`, all of them from the first cblock. -/
lemma Open.read (h : Open v bs fs i j cs) (hi : i + t ≤ 14) (ht : t ≤ v.count)
    (hv : v' = { v with first := v.first + t, count := v.count - t }) :
    Open v' bs fs (i + t) j (cs.drop t) ∧ ∀ d < t, cs[d]? = some (v.byte (v.first + d)) := by
  subst hv
  obtain ⟨b, rest, hbs, hlink, hfirst⟩ := h.head
  refine ⟨⟨⟨h.free, h.nodup, h.block⟩, ⟨b, rest, hbs, hlink, ?_⟩, h.last, ?_, hi, h.j_le, ?_⟩,
    fun d hd => ?_⟩
  · dsimp only
    omega
  · have := h.ends
    dsimp only
    omega
  · dsimp only
    rw [h.chars, List.drop_take, List.drop_drop]
  · rw [h.chars, List.getElem?_take, if_pos (by omega), List.getElem?_drop, hbs, stock,
      List.flatMap_cons, List.getElem?_append_left (by rw [length_slots]; omega),
        getElem?_slots (by omega),
      hfirst]
    congr 2
    omega

/-! ## Cblocks in and out -/

/-- To take the next character the queue goes on to the next cblock if need be. -/
lemma Open.turn (h : Open v bs fs i j cs) (hpos : 0 < v.count) :
    ∃ v' bs' fs' i', v.turn = (true, v') ∧ i' < 14 ∧ Open v' bs' fs' i' j cs ∧
      v'.count = v.count ∧ fs.length ≤ fs'.length ∧ Frame v v' (bs ++ fs) (bs' ++ fs') := by
  obtain ⟨b, rest, hbs, hlink, hfirst⟩ := h.head
  have hb := h.block b (by simp [hbs])
  rw [View.turn]
  by_cases hi : i < 14
  · rw [if_pos (by omega)]
    exact ⟨v, bs, fs, i, rfl, hi, h, rfl, Nat.le_refl _, .refl⟩
  rw [if_neg (by have := h.i_le; omega)]
  have hi14 : i = 14 := by
    have := h.i_le
    omega
  subst hi14
  cases rest with
  | nil =>
      have h1 := h.ends
      have h2 := h.j_le
      rw [hbs, List.length_singleton] at h1
      omega
  | cons c rest =>
      subst hbs
      obtain ⟨hcb, hc0, hrest⟩ := hlink.2.2
      have hnd := h.nodup
      rw [List.cons_append, List.nodup_cons] at hnd
      have hold : v.first - 16 = b := by omega
      rw [View.qfree, if_neg (by omega), hold]
      dsimp only
      rw [if_pos (by rw [hcb]; exact hc0), hcb]
      refine ⟨_, c :: rest, b :: fs, 0, rfl, by omega,
        ⟨⟨⟨rfl, hb.1, ?_⟩, ?_, ?_⟩, ?_, ?_, ?_, by omega, h.j_le, ?_⟩, rfl, Nat.le_succ _,
        ⟨?_, fun a ha => ?_, fun _ _ _ => rfl⟩⟩
      · dsimp only
        rw [Function.update_self]
        exact h.free.update fun hm => hnd.1 (List.mem_append_right _ hm)
      · exact List.nodup_middle.mpr (List.nodup_cons.mpr hnd)
      · intro a ha
        refine h.block a ?_
        simp only [List.mem_append, List.mem_cons] at ha ⊢
        tauto
      · refine ⟨c, rest, rfl, ⟨rfl, hc0, ?_⟩, rfl⟩
        have hcb : c ≠ b := fun e => hnd.1 (by simp [e])
        dsimp only
        rw [Function.update_of_ne hcb]
        exact hrest.update fun hm => hnd.1 (List.mem_append_left _ (List.mem_cons_of_mem c hm))
      · obtain ⟨init, l, hl, hlast⟩ := h.last
        cases init with
        | nil => simp at hl
        | cons d init =>
            rw [List.cons_append, List.cons.injEq] at hl
            exact ⟨init, l, hl.2, hlast⟩
      · have := h.ends
        simp only [List.length_cons] at this ⊢
        omega
      · rw [h.chars, stock, List.flatMap_cons, List.drop_append_of_le_length (by rw [length_slots]),
          List.drop_of_length_le (by rw [length_slots])]
        rfl
      · exact List.perm_middle
      · exact Function.update_of_ne (fun e => ha (by simp [e])) _ _

/-- The slots of a further cblock come after the characters. -/
lemma Open.chars_append (h : Open v bs fs i j cs) (f : ℕ) :
    cs = ((stock v.byte (bs ++ [f])).drop i).take v.count := by
  have hle := h.le_stock
  rw [stock_concat, List.drop_append_of_le_length (by omega), List.take_append_of_le_length]
  · exact h.chars
  · rw [List.length_drop]
    omega

lemma link_count (v : View) (f : ℕ) : (v.link f).count = v.count := by
  rw [View.link]
  dsimp only
  split_ifs <;> rfl

/-- A queue without cblocks gets its first one. -/
lemma Owned.link {f : ℕ} (h : Owned v [] (f :: fs)) (hcount : v.count = 0) (hlast : v.last = 0) :
    Open ({ v with cfree := v.next f }.link f) [f] fs 0 0 [] ∧
      Frame v ({ v with cfree := v.next f }.link f) (f :: fs) (f :: fs) := by
  obtain ⟨hf, hf0, hfree⟩ := h.free
  rw [View.link]
  dsimp only
  rw [if_neg (by omega)]
  refine ⟨⟨⟨hfree.update (List.nodup_cons.mp h.nodup).1, h.nodup, h.block⟩,
    ⟨f, [], rfl, ⟨rfl, hf0, Function.update_self ..⟩, rfl⟩, ⟨[], f, rfl, rfl⟩, ?_, by omega,
    by omega, ?_⟩,
    .refl _, fun b hb => ?_, fun _ _ _ => rfl⟩
  · dsimp only
    rw [hcount]
    rfl
  · dsimp only
    rw [hcount, List.take_zero]
  · exact Function.update_of_ne (fun e => hb (by simp [e])) _ _

/-- A queue whose last cblock is full gets another one. -/
lemma Open.link {f : ℕ} (h : Open v bs (f :: fs) i 14 cs) :
    Open ({ v with cfree := v.next f }.link f) (bs ++ [f]) fs i 0 cs ∧
      Frame v ({ v with cfree := v.next f }.link f) (bs ++ f :: fs) (bs ++ [f] ++ fs) := by
  obtain ⟨init, l, hbs, hlast⟩ := h.last
  obtain ⟨b, rest, hbs', hlink, hfirst⟩ := h.head
  obtain ⟨hf, hf0, hfree⟩ := h.free
  have hperm : (bs ++ [f] ++ fs).Perm (bs ++ f :: fs) := by
    rw [List.append_assoc]
    rfl
  have hnot : f ∉ bs ++ fs := (List.nodup_middle.mp h.nodup |> List.nodup_cons.mp).1
  rw [List.mem_append, not_or] at hnot
  have hlf : l ≠ f := fun e => hnot.1 (by simp [hbs, ← e])
  have hlfs : l ∉ fs := fun hm =>
    (List.nodup_append.mp h.nodup).2.2 l (by simp [hbs]) l (List.mem_cons_of_mem f hm) rfl
  rw [View.link]
  dsimp only
  rw [if_pos (by omega), show v.last - 16 = l by omega]
  have hcomm : Function.update (Function.update v.next l f) f 0 =
      Function.update (Function.update v.next f 0) l f := Function.update_comm hlf ..
  refine ⟨⟨⟨?_, ?_, ?_⟩, ⟨b, rest ++ [f], ?_, ?_, hfirst⟩, ⟨bs, f, rfl, rfl⟩, ?_, h.i_le, by omega,
    h.chars_append f⟩, hperm, fun a ha => ?_, fun _ _ _ => rfl⟩
  · exact (hfree.update hlfs).update hnot.2
  · exact hperm.nodup_iff.mpr h.nodup
  · exact fun a ha => h.block a (hperm.mem_iff.mp ha)
  · rw [hbs', List.cons_append]
  · dsimp only
    rw [hcomm, hbs]
    refine Linked.append ?_ ?_ ⟨rfl, hf0, Function.update_self ..⟩ (by simpa using hlf)
    · exact (hbs ▸ hlink).update (hbs ▸ hnot.1)
    · exact hbs ▸ (List.nodup_append.mp h.nodup).1
  · have := h.ends
    rw [List.length_append, List.length_singleton]
    dsimp only
    omega
  · rw [List.mem_append, List.mem_cons] at ha
    dsimp only
    rw [Function.update_of_ne (by tauto), Function.update_of_ne]
    rintro rfl
    exact ha (Or.inl (by simp [hbs]))

/-- The characters that a queue can take before it is short of a cblock. -/
def spare (v : View) (fs : List ℕ) : ℕ := 14 * fs.length + (16 - v.last % 16) % 16

/-- To take another character the queue gets a cblock if need be; without one it stays as it is. -/
lemma Holds.room (h : Holds v fs bs cs) :
    (v.room = (false, v) ∧ fs = [] ∧ spare v fs = 0) ∨
      ∃ v' bs' fs' i j, v.room = (true, v') ∧ j < 14 ∧ Open v' bs' fs' i j cs ∧
        v'.count = v.count ∧ 14 * fs'.length + (14 - j) = spare v fs ∧
        Frame v v' (bs ++ fs) (bs' ++ fs') := by
  rw [View.room, spare]
  cases h with
  | nil h hcount hfirst hlast =>
      rw [if_neg (by omega), View.qalloc, if_neg (by omega), hlast]
      cases fs with
      | nil =>
          rw [if_pos (Linked.nil.mp h.free)]
          exact Or.inl ⟨rfl, rfl, rfl⟩
      | cons f fs =>
          obtain ⟨hopen, hframe⟩ := h.link hcount hlast
          obtain ⟨hf, hf0, -⟩ := h.free
          rw [if_neg (by omega), hf]
          exact Or.inr ⟨_, [f], fs, 0, 0, rfl, by omega, hopen, link_count _ f,
            by rw [List.length_cons]; omega, hframe⟩
  | @some _ i j _ h hj hpos =>
      obtain ⟨init, l, hbs, hlast⟩ := h.last
      have hl := h.block l (by simp [hbs])
      by_cases hj14 : j < 14
      · rw [if_pos (by omega)]
        exact Or.inr ⟨v, bs, fs, i, j, rfl, hj14, h, rfl, by omega, .refl⟩
      have hjle := h.j_le
      obtain rfl : j = 14 := by omega
      rw [if_neg (by omega), View.qalloc, if_neg (by omega)]
      cases fs with
      | nil =>
          rw [if_pos (Linked.nil.mp h.free)]
          exact Or.inl ⟨rfl, rfl, by rw [List.length_nil]; omega⟩
      | cons f fs =>
          obtain ⟨hopen, hframe⟩ := h.link
          obtain ⟨hf, hf0, -⟩ := h.free
          rw [if_neg (by omega), hf]
          exact Or.inr ⟨_, bs ++ [f], fs, i, 0, rfl, by omega, hopen, link_count _ f,
            by rw [List.length_cons]; omega, hframe⟩

/-- A queue that has run empty gives its cblock back. -/
lemma Open.qrelse (h : Open v bs fs i j cs) (hj : 0 < j) (h0 : v.count = 0) :
    Holds v.qrelse (bs ++ fs) [] [] ∧ Frame v v.qrelse (bs ++ fs) (bs ++ fs) := by
  obtain ⟨b, rest, hbs, hlink, hfirst⟩ := h.head
  have hb := h.block b (by simp [hbs])
  obtain rfl : rest = [] := by
    have h1 := h.ends
    have h2 := h.i_le
    rw [hbs, List.length_cons] at h1
    exact List.length_eq_zero_iff.mp (by omega)
  subst hbs
  have hlast := hlink.2.2
  have hnd := List.nodup_cons.mp h.nodup
  have hcal : calign v.first + 16 - 16 = b := by
    have := h.i_le
    rw [calign]
    omega
  rw [View.qrelse, if_pos (by omega)]
  dsimp only
  rw [View.qfree, if_neg (show calign v.first + 16 ≠ 0 by omega)]
  dsimp only
  rw [hcal, hlast, if_neg (by simp)]
  refine ⟨.nil ⟨⟨rfl, hb.1, ?_⟩, h.nodup, h.block⟩ rfl rfl rfl, .refl _, fun a ha => ?_,
    fun _ _ _ => rfl⟩
  · change Linked (Function.update v.next b v.cfree) (Function.update v.next b v.cfree b) fs
    rw [Function.update_self]
    exact h.free.update hnd.1
  · exact Function.update_of_ne (fun e => ha (by simp [e])) _ _

/-- `drain` frees the whole chain. -/
lemma Holds.drain (h : Holds v fs bs cs) :
    Holds v.drain (bs ++ fs) [] [] ∧ Frame v v.drain (bs ++ fs) (bs ++ fs) := by
  rw [View.drain]
  cases h with
  | nil h hcount hfirst hlast =>
      rw [if_neg (by omega)]
      exact ⟨.nil ⟨h.free, h.nodup, h.block⟩ rfl rfl rfl, .refl _, fun _ _ => rfl, fun _ _ _ => rfl⟩
  | @some _ i j _ h hj hpos =>
      obtain ⟨b, rest, hbs, hlink, hfirst⟩ := h.head
      obtain ⟨init, l, hbs', hlast⟩ := h.last
      have hb := h.block b (by simp [hbs])
      have hl := h.block l (by simp [hbs'])
      have hx : calign v.first = b := by
        have := h.i_le
        rw [calign]
        omega
      have hy : calign v.last = l := by
        have := h.j_le
        rw [calign]
        omega
      rw [if_pos (by omega), hx, hy]
      have hnd := List.nodup_append.mp h.nodup
      refine ⟨.nil ⟨?_, h.nodup, h.block⟩ rfl rfl rfl, .refl _, fun a ha => ?_, fun _ _ _ => rfl⟩
      · change Linked (Function.update v.next l v.cfree) b (bs ++ fs)
        rw [hbs']
        refine Linked.append (hbs' ▸ hlink) (hbs' ▸ hnd.1) h.free fun hm => ?_
        exact hnd.2.2 l (by simp [hbs']) l hm rfl
      · exact Function.update_of_ne (fun e => ha (by simp [e, hbs'])) _ _

end Tty

end Micronix
