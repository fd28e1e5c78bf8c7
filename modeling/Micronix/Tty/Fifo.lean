import Micronix.Tty.Chain

/-!
# Queues as lists of characters

Each operation of `queue.c` does to the characters of its queue what it is to do to a list, and
gives and takes cblocks without a loss.
-/

namespace Micronix

namespace Tty

variable {v v' : View} {bs fs : List ℕ} {i j n cleft : ℕ} {c : UInt8} {cs ws ws' : List UInt8}

/-! ## One character -/

lemma Open.last_mod (h : Open v bs fs i j cs) (hj : j < 14) : v.last % 16 = 2 + j := by
  obtain ⟨init, l, hbs, hlast⟩ := h.last
  have := (h.block l (by simp [hbs])).2
  omega

lemma Open.first_mod (h : Open v bs fs i j cs) (hi : i < 14) : v.first % 16 = 2 + i := by
  obtain ⟨b, rest, hbs, -, hfirst⟩ := h.head
  have := (h.block b (by simp [hbs])).2
  omega

/-- `putc` appends the character. -/
lemma Holds.putc (h : Holds v fs bs cs) (c : UInt8) :
    (v.putc c = (false, v) ∧ (TTYHOG ≤ cs.length ∨ fs = [] ∧ spare v fs = 0)) ∨
      ∃ v' bs' fs', v.putc c = (true, v') ∧ cs.length < TTYHOG ∧ Holds v' fs' bs' (cs ++ [c]) ∧
        spare v' fs' + 1 = spare v fs ∧ Frame v v' (bs ++ fs) (bs' ++ fs') := by
  rw [View.putc, ← h.length]
  by_cases hlt : cs.length < TTYHOG
  swap
  · rw [if_neg hlt]
    exact Or.inl ⟨rfl, Or.inl (Nat.le_of_not_lt hlt)⟩
  rw [if_pos hlt]
  rcases h.room with ⟨he, hfs⟩ | ⟨v', bs', fs', i, j, he, hj, ho, -, hsp, hframe⟩ <;> rw [he]
  · exact Or.inl ⟨rfl, Or.inr hfs⟩
  · have hmod := ho.last_mod hj
    have hw := ho.write
      { v' with
        count := v'.count + 1, byte := Function.update v'.byte v'.last c, last := v'.last + 1 }
      [c] hj rfl rfl rfl rfl rfl (fun d hd => ?_) fun a ha => Function.update_of_ne ?_ _ _
    · refine Or.inr ⟨_, bs', fs', rfl, hlt, .some hw.1 (by simp) (Nat.succ_pos _), ?_,
        hframe.trans hw.2⟩
      rw [← hsp, spare]
      dsimp only
      omega
    · obtain rfl : d = 0 := Nat.lt_one_iff.mp hd
      simp
    · rw [List.length_singleton] at ha
      omega

/-- `getc` of an empty queue. -/
lemma Holds.getc_nil (h : Holds v fs bs []) : v.getc = (none, v) := by
  rw [View.getc]
  cases h with
  | nil h hcount hfirst hlast =>
      rw [if_neg (not_not.mpr hcount)]
      dsimp only
      rw [if_pos hcount, View.qrelse, if_neg (not_not.mpr hfirst)]
  | some h hj hpos =>
      have := h.length
      rw [List.length_nil] at this
      omega

/-- `getc` takes the first character. -/
lemma Holds.getc_cons (h : Holds v fs bs (c :: cs)) :
    ∃ v' bs' fs', v.getc = (Option.some c, v') ∧ Holds v' fs' bs' cs ∧ fs.length ≤ fs'.length ∧
      Frame v v' (bs ++ fs) (bs' ++ fs') := by
  rw [View.getc]
  generalize hcs : c :: cs = ds at h
  cases h with
  | nil => cases hcs
  | @some _ i j _ h hj hpos =>
      subst hcs
      rw [if_pos (by omega)]
      obtain ⟨v', bs', fs', i', he, hi, ho, hc, hlen, hframe⟩ := h.turn hpos
      rw [he]
      obtain ⟨hread, hchar⟩ := ho.read (t := 1) (by omega) (by omega) rfl
      have hcc : v'.byte v'.first = c := (Option.some.inj (hchar 0 (by omega))).symm
      dsimp only
      rw [if_pos rfl, hcc]
      dsimp only
      by_cases h0 : v'.count - 1 = 0
      · rw [if_pos h0]
        obtain ⟨hh, hf⟩ := hread.qrelse hj h0
        have hnil : cs = [] := List.length_eq_zero_iff.mp (hread.length.trans h0)
        exact ⟨_, [], bs' ++ fs', rfl, hnil ▸ hh, by rw [List.length_append]; omega,
          hframe.trans ⟨hf.perm, hf.next, hf.slots⟩⟩
      · rw [if_neg h0]
        exact ⟨_, bs', fs', rfl, .some hread hj (Nat.pos_of_ne_zero h0), hlen,
          hframe.trans ⟨.refl _, fun _ _ => rfl, fun _ _ _ => rfl⟩⟩

/-! ## Many characters -/

/-- `n` bytes of user memory. -/
def fetch (core : UInt16 → UInt8) (src : UInt16) (n : ℕ) : List UInt8 :=
  (List.range n).map fun d => core (src + UInt16.ofNat d)

/-- User memory after a copy. -/
def store (core : UInt16 → UInt8) (dst : UInt16) (ws : List UInt8) : UInt16 → UInt8 :=
  fun a => ws[(a - dst).toNat]?.getD (core a)

@[simp] lemma length_fetch {core : UInt16 → UInt8} {src : UInt16} :
    (fetch core src n).length = n := by
  simp [fetch]

lemma fetch_add {core : UInt16 → UInt8} {src : UInt16} (m : ℕ) :
    fetch core src (m + n) = fetch core src m ++ fetch core (src + UInt16.ofNat m) n := by
  rw [fetch, List.range_add, List.map_append, List.map_map]
  refine congrArg _ (List.map_congr_left fun d _ => ?_)
  rw [Function.comp_apply, UInt16.ofNat_add, UInt16.add_assoc]

@[simp] lemma store_nil {core : UInt16 → UInt8} {dst : UInt16} : store core dst [] = core := rfl

lemma store_append (core : UInt16 → UInt8) (dst : UInt16) (ws ws' : List UInt8)
    (h : (ws ++ ws').length < 2 ^ 16) :
    store (store core dst ws) (dst + UInt16.ofNat ws.length) ws' = store core dst (ws ++ ws') := by
  rw [List.length_append] at h
  funext a
  have hsub : (a - (dst + UInt16.ofNat ws.length)).toNat =
      ((a - dst).toNat + (2 ^ 16 - ws.length)) % 2 ^ 16 := by
    rw [← sub_sub, UInt16.toNat_sub, UInt16.toNat_ofNat']
    omega
  have hlt := (a - dst).toNat_lt
  rw [store, store, store, hsub]
  by_cases hd : (a - dst).toNat < ws.length
  · rw [List.getElem?_append_left hd, List.getElem?_eq_none (l := ws') (by omega)]
    rfl
  · rw [List.getElem?_append_right (by omega), List.getElem?_eq_none (l := ws) (by omega)]
    congr 2
    omega

/-- `fillque`'s loop appends as many bytes as there is room for. -/
lemma Holds.fill (core : UInt16 → UInt8) : ∀ (n : ℕ) (src : UInt16) (cleft : ℕ) {v : View}
    {bs fs : List ℕ} {cs : List UInt8}, Holds v fs bs cs → cleft ≤ n →
      ∃ k ≤ cleft, ∃ v' bs' fs', View.fill core n v src cleft = (src + UInt16.ofNat k, v') ∧
        Holds v' fs' bs' (cs ++ fetch core src k) ∧ Frame v v' (bs ++ fs) (bs' ++ fs') ∧
        (k = cleft ∨ fs' = [])
  | 0, src, cleft, v, bs, fs, cs, h, hn =>
      ⟨0, Nat.zero_le _, v, bs, fs, by rw [View.fill]; simp, by simpa [fetch] using h, .refl,
        Or.inl (by omega)⟩
  | n + 1, src, cleft, v, bs, fs, cs, h, hn => by
      rw [View.fill]
      by_cases h0 : cleft ≠ 0
      swap
      · rw [if_neg h0]
        exact ⟨0, Nat.zero_le _, v, bs, fs, by simp, by simpa [fetch] using h, .refl,
          Or.inl (by omega)⟩
      rw [if_pos h0]
      rcases h.room with ⟨he, hfs, -⟩ | ⟨v', bs', fs', i, j, he, hj, ho, -, -, hframe⟩ <;> rw [he]
      · exact ⟨0, Nat.zero_le _, v, bs, fs, by simp, by simpa [fetch] using h, .refl, Or.inr hfs⟩
      dsimp only
      rw [if_pos rfl]
      obtain ⟨t, ht⟩ : ∃ t, t = if cleft < 16 - v'.last % 16 then cleft else 16 - v'.last % 16 :=
        ⟨_, rfl⟩
      rw [← ht]
      have hmod := ho.last_mod hj
      have htj : j + t ≤ 14 ∧ 0 < t ∧ t ≤ cleft := by
        split_ifs at ht <;> omega
      have hw := ho.write
        { v'.copyin core src v'.last t with last := v'.last + t, count := v'.count + t }
        (fetch core src t) (by rw [length_fetch]; omega) rfl rfl rfl
        (by rw [length_fetch]) (by rw [length_fetch]) (fun d hd => ?_) fun a ha => ?_
      · rw [length_fetch] at hw
        obtain ⟨k, hk, v'', bs'', fs'', he', hh, hf, hend⟩ :=
          Holds.fill core n (src + UInt16.ofNat t) (cleft - t)
            (.some hw.1 (by omega) (Nat.add_pos_right _ htj.2.1)) (by omega)
        refine ⟨t + k, by omega, v'', bs'', fs'', ?_, ?_, (hframe.trans hw.2).trans hf,
          hend.imp_left fun e => by omega⟩
        · rw [UInt16.ofNat_add, ← UInt16.add_assoc]
          exact he'
        · rw [fetch_add, ← List.append_assoc]
          exact hh
      · rw [length_fetch] at hd
        rw [View.copyin]
        dsimp only
        rw [if_pos (by omega), fetch, List.getElem?_map, List.getElem?_range hd,
          Nat.add_sub_cancel_left]
        rfl
      · rw [length_fetch] at ha
        exact if_neg (by omega)

/-- `sendque`'s loop takes the first `cleft` characters. -/
lemma Open.send : ∀ (n : ℕ) (core : UInt16 → UInt8) (dst : UInt16) (cleft : ℕ) {v : View}
    {bs fs : List ℕ} {i j : ℕ} {cs : List UInt8}, Open v bs fs i j cs → cleft ≤ n →
      cleft ≤ v.count → v.count < 2 ^ 16 →
      ∃ v' bs' fs' i', View.send n v core dst cleft =
          ((dst + UInt16.ofNat cleft, store core dst (cs.take cleft)), v') ∧
        Open v' bs' fs' i' j (cs.drop cleft) ∧ v'.count = v.count - cleft ∧
        Frame v v' (bs ++ fs) (bs' ++ fs')
  | 0, core, dst, cleft, v, bs, fs, i, j, cs, h, hn, hc, hlt => by
      obtain rfl : cleft = 0 := by omega
      exact ⟨v, bs, fs, i, by rw [View.send]; simp, h, rfl, .refl⟩
  | n + 1, core, dst, cleft, v, bs, fs, i, j, cs, h, hn, hc, hlt => by
      rw [View.send]
      by_cases h0 : cleft ≠ 0
      swap
      · obtain rfl : cleft = 0 := not_not.mp h0
        exact ⟨v, bs, fs, i, by simp, h, rfl, .refl⟩
      rw [if_pos h0]
      obtain ⟨v', bs', fs', i', he, hi, ho, hcount, -, hframe⟩ := h.turn (by omega)
      rw [he]
      dsimp only
      rw [if_pos rfl]
      obtain ⟨t, ht⟩ : ∃ t, t = if cleft < 16 - v'.first % 16 then cleft else 16 - v'.first % 16 :=
        ⟨_, rfl⟩
      rw [← ht]
      have hmod := ho.first_mod hi
      have hti : i' + t ≤ 14 ∧ 0 < t ∧ t ≤ cleft := by
        split_ifs at ht <;> omega
      obtain ⟨hread, hchars⟩ := ho.read hti.1 (by omega) rfl
      have hlen := ho.length
      have htake : (cs.take t).length = t := by
        rw [List.length_take]
        omega
      have hcopy : v'.copyout core v'.first dst t = store core dst (cs.take t) := by
        funext a
        rw [View.copyout, store, List.getElem?_take]
        split_ifs with hd
        · rw [hchars _ hd]
          rfl
        · rfl
      obtain ⟨v'', bs'', fs'', i'', he', ho', hc', hf⟩ :=
        Open.send n (v'.copyout core v'.first dst t) (dst + UInt16.ofNat t)
          (cleft - t) hread (by omega) (by dsimp only; omega) (by dsimp only; omega)
      refine ⟨v'', bs'', fs'', i'', ?_, ?_, ?_, hframe.trans ⟨hf.perm, hf.next, hf.slots⟩⟩
      · rw [he', hcopy]
        have hst := store_append core dst (cs.take t) ((cs.drop t).take (cleft - t)) ?_
        · rw [htake] at hst
          rw [hst, ← List.take_add, UInt16.add_assoc, ← UInt16.ofNat_add,
            Nat.add_sub_cancel' hti.2.2]
        · rw [List.length_append, htake, List.length_take]
          omega
      · rw [List.drop_drop, Nat.add_sub_cancel' hti.2.2] at ho'
        exact ho'
      · rw [hc']
        dsimp only
        omega

/-- `fillque` appends as many characters as `u` has, up to the limit, unless it uses up the
cblocks. -/
lemma Holds.fillque (h : Holds v fs bs cs) (u : User) :
    ∃ k ≤ min u.count.toNat (TTYHOG - cs.length), ∃ v' bs' fs',
      v.fillque u =
        ({ u with count := u.count - UInt16.ofNat k, base := u.base + UInt16.ofNat k }, v') ∧
        Holds v' fs' bs' (cs ++ fetch u.core u.base k) ∧ Frame v v' (bs ++ fs) (bs' ++ fs') ∧
        (k = min u.count.toNat (TTYHOG - cs.length) ∨ fs' = []) := by
  rw [View.fillque, ← h.length]
  have hmin : (if u.count.toNat > TTYHOG - cs.length then TTYHOG - cs.length else u.count.toNat) =
      min u.count.toNat (TTYHOG - cs.length) := by
    split_ifs <;> omega
  dsimp only
  rw [hmin]
  obtain ⟨k, hk, v', bs', fs', he, hh, hf, hend⟩ := h.fill u.core _ u.base _ (Nat.le_refl _)
  refine ⟨k, hk, v', bs', fs', ?_, hh, hf, hend⟩
  rw [he, add_sub_cancel_left]

/-- `sendque` takes as many characters as `u` asks for, if the queue has them. -/
lemma Holds.sendque (h : Holds v fs bs cs) (hle : cs.length ≤ TTYHOG) (u : User) :
    ∃ v' bs' fs', v.sendque u =
        ({ base := u.base + UInt16.ofNat (min u.count.toNat cs.length)
           count := u.count - UInt16.ofNat (min u.count.toNat cs.length)
           core := store u.core u.base (cs.take u.count.toNat) }, v') ∧
      Holds v' fs' bs' (cs.drop u.count.toNat) ∧ Frame v v' (bs ++ fs) (bs' ++ fs') := by
  rw [View.sendque, ← h.length]
  have hmin : (if u.count.toNat > cs.length then cs.length else u.count.toNat) =
      min u.count.toNat cs.length := by
    split_ifs <;> omega
  dsimp only
  rw [hmin]
  have htake : cs.take (min u.count.toNat cs.length) = cs.take u.count.toNat := by
    rw [List.take_eq_take_iff]
    omega
  have hdrop : cs.drop (min u.count.toNat cs.length) = cs.drop u.count.toNat := by
    rw [List.drop_eq_drop_iff]
    omega
  cases h with
  | nil h hcount hfirst hlast =>
      refine ⟨v, [], fs, ?_, ?_, .refl⟩
      · rw [List.length_nil, Nat.min_zero, View.send]
        dsimp only
        rw [if_pos hcount, View.qrelse, if_neg (not_not.mpr hfirst)]
        simp
      · rw [List.drop_nil]
        exact .nil h hcount hfirst hlast
  | @some _ i j _ h hj hpos =>
      have hlen := h.length
      rw [TTYHOG] at hle
      obtain ⟨v', bs', fs', i', he, ho, hc, hf⟩ :=
        h.send _ u.core u.base (min u.count.toNat cs.length)
        (Nat.le_refl _) (by omega) (by omega)
      rw [he, htake]
      rw [hdrop] at ho
      dsimp only
      rw [add_sub_cancel_left]
      by_cases h0 : v'.count = 0
      · rw [if_pos h0]
        obtain ⟨hh, hf'⟩ := ho.qrelse hj h0
        have hnil : cs.drop u.count.toNat = [] := List.length_eq_zero_iff.mp (ho.length.trans h0)
        exact ⟨_, [], bs' ++ fs', rfl, hnil ▸ hh, hf.trans hf'⟩
      · rw [if_neg h0]
        exact ⟨_, bs', fs', rfl, .some ho hj (Nat.pos_of_ne_zero h0), hf⟩

/-! ## The characters -/

/-- One character of the first cblock. -/
lemma stock_cons (byte : ℕ → UInt8) (b : ℕ) (bs : List ℕ) (hi : i < 14) :
    byte (b + 2 + i) :: ((stock byte (b :: bs)).drop (i + 1)).take n =
      ((stock byte (b :: bs)).drop i).take (n + 1) := by
  have hlen : (stock byte (b :: bs)).length = 14 * (bs.length + 1) := length_stock
  rw [List.drop_eq_getElem_cons (i := i) (by omega), List.take_succ_cons]
  congr 1
  refine Option.some.inj ?_
  rw [← List.getElem?_eq_getElem, stock, List.flatMap_cons,
    List.getElem?_append_left (by rw [length_slots]; omega), getElem?_slots hi]

lemma chars_eq : ∀ {n : ℕ} {b i : ℕ} {bs : List ℕ}, Linked v.next b bs → (∀ b ∈ bs, b % 16 = 0) →
    i ≤ 14 → i + n ≤ 14 * bs.length → v.chars n (b + 2 + i) = ((stock v.byte bs).drop i).take n
  | 0, _, _, _, _, _, _, _ => by rw [View.chars, List.take_zero]
  | n + 1, b, i, [], _, _, _, hn => by
      rw [List.length_nil] at hn
      omega
  | n + 1, b, i, c :: bs, hl, hb, hi, hn => by
      obtain rfl : b = c := hl.1
      have hb16 := hb b List.mem_cons_self
      rw [View.chars]
      by_cases hi14 : i < 14
      · rw [if_neg (by omega), Nat.add_assoc (b + 2), chars_eq hl hb (by omega) (by omega),
          stock_cons _ _ _ hi14]
      -- the next character is the first one of the next cblock
      obtain rfl : i = 14 := by omega
      cases bs with
      | nil =>
          rw [List.length_singleton] at hn
          omega
      | cons d bs =>
          have hl' := hl.2.2
          have hd : v.next b = d := hl'.1
          rw [hd] at hl'
          have hskip : (stock v.byte (b :: d :: bs)).drop 14 = stock v.byte (d :: bs) := by
            rw [stock, List.flatMap_cons, List.drop_append_of_le_length (by rw [length_slots]),
              List.drop_of_length_le (by rw [length_slots])]
            rfl
          have hcons := stock_cons v.byte d bs (n := n) (i := 0) (by omega)
          rw [List.drop_zero] at hcons
          rw [if_pos (by omega), show b + 2 + 14 - 16 = b by omega, hd, hskip, ← hcons,
            chars_eq (i := 1) hl' (fun a ha => hb a (List.mem_cons_of_mem b ha)) (by omega)
              (by rw [List.length_cons] at hn; omega)]

lemma Holds.chars (h : Holds v fs bs cs) : v.chars v.count v.first = cs := by
  cases h with
  | nil h hcount => rw [hcount, View.chars]
  | @some _ i j _ h =>
      obtain ⟨b, rest, hbs, hlink, hfirst⟩ := h.head
      have h1 := h.ends
      have h2 := h.j_le
      rw [hfirst,
        chars_eq hlink (fun a ha => (h.block a (List.mem_append_left fs ha)).2) h.i_le (by omega),
        h.chars]

lemma Holds.head (h : Holds v fs bs cs) : Linked v.next v.toQue.head bs := by
  cases h with
  | nil h hcount hfirst => exact if_pos hfirst
  | @some _ i j _ h =>
      obtain ⟨b, rest, hbs, hlink, hfirst⟩ := h.head
      have hb := h.block b (by simp [hbs])
      have hi := h.i_le
      have he : v.toQue.head = b := by
        rw [Que.head, if_neg (by omega), calign]
        omega
      rw [he]
      exact hlink

end Tty

end Micronix
