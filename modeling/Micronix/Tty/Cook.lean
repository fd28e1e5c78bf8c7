import Micronix.Tty.Share

/-!
# Line editing

`cookin`, which moves a line from the raw queue to the cooked one.  It sleeps until there is a line,
and again when the raw queue has none after all.
-/

namespace Micronix

namespace Tty

def EOT : UInt8 := 0o004
def NL : UInt8 := 0o012
def BSLASH : UInt8 := 0o134

/-- `RAW | CBREAK` -/
def RAWMODE : UInt16 := 0o20040

/-- The fields of `struct tty` for input. -/
structure Line where
  mode : UInt16
  erase : UInt8
  kill : UInt8
  nbreak : UInt8
  deriving DecidableEq

/-- The `int` that `getc` returns. -/
def ret : Option UInt8 → ℤ
  | none => -1
  | some c => if c < 0x80 then c.toNat else c.toNat - 256

/-- An `int` in a `char`. -/
def low (c : ℤ) : UInt8 := UInt8.ofNat (c % 256).toNat

variable {ι : Type*} [DecidableEq ι]

/-- The loop of `cookin` for whole lines; `p` is what `buf` holds.  It ends at the end of the line,
or there is nothing more in the raw queue: then it is out of sync.  A round takes a character at
least, so that one more round than there are characters is enough. -/
def cookLine (raw : ι) (t : Line) : ℕ → State ι → List UInt8 → Option (List UInt8 × State ι)
  | 0, _, _ => none
  | n + 1, s, p =>
      let p := if p.length ≥ TTYHOG - 2 then [] else p
      let (c, s) := s.getc raw
      let c := ret c
      if c < 0 then none
      else if c = EOT.toNat then some (p, s)
      else if c = NL.toNat then some (p ++ [low c], s)
      else if c = t.kill.toNat then cookLine raw t n s []
      else if c = t.erase.toNat then cookLine raw t n s p.dropLast
      else if c = BSLASH.toNat then
        let (c, s) := s.getc raw
        let c := ret c
        let p :=
          if c = t.erase.toNat ∨ c = t.kill.toNat then p ++ [low c] else p ++ [BSLASH, low c]
        if c = NL.toNat ∨ c = EOT.toNat then some (p, s) else cookLine raw t n s p
      else cookLine raw t n s (p ++ [low c])

/-- `if (tty->nbreak) tty->nbreak--` -/
def Line.unbreak (t : Line) : Line := if t.nbreak ≠ 0 then { t with nbreak := t.nbreak - 1 } else t

/-- The loop of `cookin` in `RAW` and `CBREAK` mode. -/
def cookRaw (raw cok : ι) : ℕ → Line → State ι → ℤ → Option (Line × State ι)
  | 0, _, _, _ => none
  | n + 1, t, s, c =>
      let t := if c = NL.toNat ∨ c = EOT.toNat then t.unbreak else t
      let (_, s) := s.putc cok (low c)
      let (c, s) := s.getc raw
      let c := ret c
      if c ≠ -1 then cookRaw raw cok n t s c else some (t, s)

/-- `cookin(tty)`, up to where it sleeps, which is `none`. -/
def cookin (raw cok : ι) (t : Line) (s : State ι) : Option (Line × State ι) :=
  let n := (s.que raw).count + 1
  if t.mode &&& RAWMODE ≠ 0 then
    if (s.que raw).count = 0 then none
    else
      let (c, s) := s.getc raw
      cookRaw raw cok n t s (ret c)
  else if t.nbreak = 0 then none
  else
    (cookLine raw t n s []).map fun (p, s) =>
      (t.unbreak, p.foldl (fun s c => (s.putc cok c).2) s)

/-! ## What it is to do -/

/-- A line ends with a newline or with `EOT`. -/
def ends (c : UInt8) : Bool := c == NL || c == EOT

/-- The first line, with its end, and what comes after it. -/
def firstLine : List UInt8 → List UInt8 × List UInt8
  | [] => ([], [])
  | c :: ds => if ends c then ([c], ds) else (c :: (firstLine ds).1, (firstLine ds).2)

/-- What one character does to the characters kept so far; the flag says that a backslash has come
before it. -/
def editChar (erase kill : UInt8) : List UInt8 × Bool → UInt8 → List UInt8 × Bool
  | (p, true), c => (if c = erase ∨ c = kill then p ++ [c] else p ++ [BSLASH, c], false)
  | (p, false), c =>
      if c = EOT then (p, false)
      else if c = NL then (p ++ [NL], false)
      else if c = kill then ([], false)
      else if c = erase then (p.dropLast, false)
      else if c = BSLASH then (p, true)
      else (p ++ [c], false)

/-- The edit of a line. -/
def edit (erase kill : UInt8) (l : List UInt8) : List UInt8 :=
  (l.foldl (editChar erase kill) ([], false)).1

example : edit 8 21 [97, 98, 8, 92, 8, 99, 10] = [97, 8, 99, 10] := by decide

/-! ## The loop -/

lemma ret_some {c : UInt8} (h : c < 0x80) : ret (some c) = c.toNat := if_pos h

lemma low_toNat (c : UInt8) : low c.toNat = c := by
  have := c.toNat_lt
  rw [low, show ((c.toNat : ℤ) % 256).toNat = c.toNat by omega, UInt8.ofNat_toNat]

lemma toNat_eq {c d : UInt8} : (c.toNat : ℤ) = d.toNat ↔ c = d := by
  rw [Nat.cast_inj, UInt8.toNat_inj]

variable [Fintype ι] {s s' : State ι} {total : ℕ} {fs : List ℕ} {bs : ι → List ℕ}
  {cs : ι → List UInt8} {raw cok : ι} {t : Line} {c : UInt8} {ds : List UInt8}

namespace State

/-- `getc` of a queue with characters leaves at least as many cblocks free, and the other queues as
they are. -/
lemma Inv.getc (h : Inv s total fs bs cs) (hc : cs raw = c :: ds) :
    ∃ s' fs' bs', s.getc raw = (some c, s') ∧ Inv s' total fs' bs' (Function.update cs raw ds) ∧
      fs.length ≤ fs'.length ∧ ∀ q, q ≠ raw → s'.que q = s.que q := by
  have hq := h.holds raw
  have hlim := h.limit raw
  rw [hc] at hq hlim
  obtain ⟨v', bs', fs', hr, hv, hlen, hf⟩ := hq.getc_cons
  rw [State.getc, hr]
  refine ⟨_, _, _, rfl, h.put hv hf ?_, hlen, fun q hne => Function.update_of_ne hne ..⟩
  rw [List.length_cons] at hlim
  omega

/-- `putc` for each of a list of characters that the queue has room for. -/
lemma Inv.putcs (cok : ι) : ∀ (ws : List UInt8) {s : State ι} {fs : List ℕ} {bs : ι → List ℕ}
    {cs : ι → List UInt8}, Inv s total fs bs cs → (cs cok).length + ws.length ≤ TTYHOG →
      ws.length ≤ spare (s.view cok) fs →
      ∃ fs' bs', Inv (ws.foldl (fun s c => (s.putc cok c).2) s) total fs' bs'
        (Function.update cs cok (cs cok ++ ws))
  | [], s, fs, bs, cs, h, _, _ => by
      rw [List.append_nil, Function.update_eq_self]
      exact ⟨fs, bs, h⟩
  | c :: ws, s, fs, bs, cs, h, hle, hsp => by
      rw [List.length_cons] at hle hsp
      rcases (h.holds cok).putc c with ⟨-, hfail⟩ | ⟨v', bs', fs', hr, -, hv, hsp', hf⟩
      · omega
      have hi := h.put hv hf (by rw [List.length_append, List.length_singleton]; omega)
      have hput : (s.putc cok c).2 = s.put cok v' := by rw [State.putc, hr]
      obtain ⟨fs'', bs'', hi'⟩ := Inv.putcs cok ws hi (by
        rw [Function.update_self, List.length_append, List.length_singleton]
        omega) (by rw [put_view_self]; omega)
      rw [Function.update_self, Function.update_idem, List.append_assoc] at hi'
      rw [List.foldl_cons, hput]
      exact ⟨fs'', bs'', hi'⟩

end State

open State

lemma toNat_lt_zero {c : UInt8} : ¬(c.toNat : ℤ) < 0 := by omega

lemma ends_iff {c : UInt8} : ends c = true ↔ c = NL ∨ c = EOT := by
  rw [ends, Bool.or_eq_true, beq_iff_eq, beq_iff_eq]

lemma firstLine_of_ends (h : ends c = true) : firstLine (c :: ds) = ([c], ds) := if_pos h

lemma firstLine_cons (h : ¬ends c = true) :
    firstLine (c :: ds) = (c :: (firstLine ds).1, (firstLine ds).2) := if_neg h

/-- A line that does not end here ends later. -/
lemma ends_later (hend : ∃ d ∈ c :: ds, ends d = true) (h : ¬ends c = true) :
    ∃ d ∈ ds, ends d = true := by
  obtain ⟨d, hd, hde⟩ := hend
  rcases List.mem_cons.mp hd with rfl | hd
  · exact absurd hde h
  · exact ⟨d, hd, hde⟩

/-- The line at the head of the raw queue, which holds `ds`, has been taken, and edited from `x`
on. -/
def Cooked (raw : ι) (t : Line) (total : ℕ) (s : State ι) (fs : List ℕ) (cs : ι → List UInt8)
    (x : List UInt8 × Bool) (ds : List UInt8) (r : Option (List UInt8 × State ι)) : Prop :=
  ∃ s' fs' bs', r = some (((firstLine ds).1.foldl (editChar t.erase t.kill) x).1, s') ∧
    Inv s' total fs' bs' (Function.update cs raw (firstLine ds).2) ∧
    fs.length ≤ fs'.length ∧ ∀ q, q ≠ raw → s'.que q = s.que q

section Cooked

variable {s1 : State ι} {fs1 : List ℕ} {bs1 : ι → List ℕ} {x : List UInt8 × Bool}
  {r : Option (List UInt8 × State ι)}

/-- The character that ends the line has been taken. -/
lemma cooked_last {p : List UInt8} (hend : ends c = true) (hp : (editChar t.erase t.kill x c).1 = p)
    (h : Inv s1 total fs1 bs1 (Function.update cs raw ds)) (hlen : fs.length ≤ fs1.length)
    (hq : ∀ q, q ≠ raw → s1.que q = s.que q) :
    Cooked raw t total s fs cs x (c :: ds) (some (p, s1)) := by
  rw [Cooked, firstLine_of_ends hend, ← hp]
  exact ⟨s1, fs1, bs1, rfl, h, hlen, hq⟩

/-- A character before it has been taken. -/
lemma Cooked.cons (h : Cooked raw t total s1 fs1 (Function.update cs raw ds)
      (editChar t.erase t.kill x c) ds r) (hend : ¬ends c = true)
    (hlen : fs.length ≤ fs1.length) (hq : ∀ q, q ≠ raw → s1.que q = s.que q) :
    Cooked raw t total s fs cs x (c :: ds) r := by
  obtain ⟨s', fs', bs', he, hi, hl, hq'⟩ := h
  rw [Function.update_idem] at hi
  rw [Cooked, firstLine_cons hend]
  exact ⟨s', fs', bs', he, hi, hlen.trans hl, fun q hqr => (hq' q hqr).trans (hq q hqr)⟩

end Cooked

/-- **The loop.**  With a whole line in the raw queue it takes the line and edits it. -/
lemma cookLine_spec : ∀ {n : ℕ} {s : State ι} {fs : List ℕ} {bs : ι → List ℕ} {cs : ι → List UInt8}
    {p ds : List UInt8}, Inv s total fs bs cs → cs raw = ds → (∃ c ∈ ds, ends c = true) →
      (∀ c ∈ ds, c < 0x80) → ds.length < n → p.length + ds.length < TTYHOG - 2 →
      Cooked raw t total s fs cs (p, false) ds (cookLine raw t n s p)
  | 0, _, _, _, _, _, _, _, _, _, _, hn, _ => absurd hn (Nat.not_lt_zero _)
  | _ + 1, _, _, _, _, _, [], _, _, ⟨_, hc, _⟩, _, _, _ => nomatch hc
  | n + 1, s, fs, bs, cs, p, c :: ds, h, hds, hend, h7, hn, hp => by
      rw [List.length_cons] at hn hp
      obtain ⟨s1, fs1, bs1, hget, h1, hlen, hq⟩ := h.getc hds
      have hself : Function.update cs raw ds raw = ds := Function.update_self ..
      obtain ⟨hc7, h7'⟩ := List.forall_mem_cons.mp h7
      rw [cookLine, if_neg (by omega), hget]
      dsimp only
      rw [ret_some hc7, if_neg toNat_lt_zero]
      simp only [toNat_eq, low_toNat]
      by_cases hE : c = EOT
      · rw [if_pos hE]
        exact cooked_last (ends_iff.mpr (Or.inr hE)) (by rw [editChar, if_pos hE]) h1 hlen hq
      rw [if_neg hE]
      by_cases hN : c = NL
      · rw [if_pos hN]
        have hedit : (editChar t.erase t.kill (p, false) c).1 = p ++ [c] := by
          rw [editChar, if_neg hE, if_pos hN, hN]
        exact cooked_last (ends_iff.mpr (Or.inl hN)) hedit h1 hlen hq
      rw [if_neg hN]
      -- the line goes on after `c`
      have hne : ¬ends c = true := fun he => (ends_iff.mp he).elim hN hE
      have hend' := ends_later hend hne
      have hrest (p' : List UInt8) (hedit : editChar t.erase t.kill (p, false) c = (p', false))
          (hp' : p'.length ≤ p.length + 1) :
          Cooked raw t total s fs cs (p, false) (c :: ds) (cookLine raw t n s1 p') := by
        refine Cooked.cons ?_ hne hlen hq
        rw [hedit]
        exact cookLine_spec h1 hself hend' h7' (by omega) (by omega)
      rw [editChar, if_neg hE, if_neg hN] at hrest
      by_cases hK : c = t.kill
      · rw [if_pos hK] at hrest ⊢
        exact hrest [] rfl (Nat.zero_le _)
      rw [if_neg hK] at hrest ⊢
      by_cases hR : c = t.erase
      · rw [if_pos hR] at hrest ⊢
        exact hrest _ rfl (by rw [List.length_dropLast]; omega)
      rw [if_neg hR] at hrest ⊢
      by_cases hB : c = BSLASH
      swap
      · rw [if_neg hB] at hrest ⊢
        exact hrest _ rfl (by rw [List.length_append]; exact Nat.le_refl _)
      rw [if_pos hB]
      have hflag : editChar t.erase t.kill (p, false) c = (p, true) := by
        rw [editChar, if_neg hE, if_neg hN, if_neg hK, if_neg hR, if_pos hB]
      refine Cooked.cons ?_ hne hlen hq
      rw [hflag]
      -- the character after the backslash
      cases ds with
      | nil =>
          obtain ⟨d, hd, -⟩ := hend'
          cases hd
      | cons d ds =>
      rw [List.length_cons] at hn hp
      obtain ⟨hd7, h7''⟩ := List.forall_mem_cons.mp h7'
      obtain ⟨s2, fs2, bs2, hget2, h2, hlen2, hq2⟩ := h1.getc hself
      rw [hget2]
      dsimp only
      rw [ret_some hd7]
      simp only [toNat_eq, low_toNat]
      obtain ⟨p', hp'⟩ : ∃ p', p' =
          if d = t.erase ∨ d = t.kill then p ++ [d] else p ++ [BSLASH, d] := ⟨_, rfl⟩
      have hplen : p'.length ≤ p.length + 2 := by
        rw [hp']
        split_ifs <;> rw [List.length_append] <;> simp
      have hedit : editChar t.erase t.kill (p, true) d = (p', false) := by rw [hp', editChar]
      rw [← hp']
      by_cases hd : d = NL ∨ d = EOT
      · rw [if_pos hd]
        exact cooked_last (ends_iff.mpr hd) (by rw [hedit]) h2 hlen2 hq2
      · rw [if_neg hd]
        have hde : ¬ends d = true := fun he => hd (ends_iff.mp he)
        refine Cooked.cons ?_ hde hlen2 hq2
        rw [hedit]
        exact cookLine_spec h2 (Function.update_self ..) (ends_later hend' hde) h7'' (by omega)
          (by omega)

/-- The characters kept, and a backslash that is to be kept. -/
def size (x : List UInt8 × Bool) : ℕ := x.1.length + x.2.toNat

lemma size_editChar {e k : UInt8} {x : List UInt8 × Bool} :
    size (editChar e k x c) ≤ size x + 1 := by
  obtain ⟨p, b⟩ := x
  cases b with
  | true =>
      rw [editChar]
      split_ifs <;> simp [size]
  | false =>
      rw [editChar]
      split_ifs <;> simp [size]
      omega

/-- An edit is no longer than its line. -/
lemma size_foldl_editChar {e k : UInt8} : ∀ {l : List UInt8} {x : List UInt8 × Bool},
    size (l.foldl (editChar e k) x) ≤ size x + l.length
  | [], x => Nat.le_refl _
  | c :: l, x => by
      rw [List.foldl_cons, List.length_cons]
      have h1 := size_foldl_editChar (e := e) (k := k) (l := l) (x := editChar e k x c)
      have h2 := size_editChar (e := e) (k := k) (x := x) (c := c)
      omega

lemma length_edit {e k : UInt8} {l : List UInt8} : (edit e k l).length ≤ l.length := by
  have := size_foldl_editChar (e := e) (k := k) (l := l) (x := ([], false))
  rw [size, size] at this
  simp only [List.length_nil, Bool.toNat_false] at this
  rw [edit]
  omega

lemma length_firstLine : ∀ ds : List UInt8,
    (firstLine ds).1.length + (firstLine ds).2.length = ds.length
  | [] => rfl
  | c :: ds => by
      have := length_firstLine ds
      rw [firstLine]
      split_ifs
      · rw [List.length_cons]
        exact Nat.add_comm ..
      · dsimp only
        rw [List.length_cons, List.length_cons]
        omega

/-- The ends of lines after the first line. -/
lemma countP_firstLine : ∀ {ds : List UInt8}, (∃ c ∈ ds, ends c = true) →
    (firstLine ds).2.countP ends + 1 = ds.countP ends
  | [], ⟨_, hc, _⟩ => by cases hc
  | c :: ds, ⟨d, hd, hde⟩ => by
      rw [firstLine, List.countP_cons]
      split_ifs with hc
      · rfl
      · rcases List.mem_cons.mp hd with rfl | hd
        · exact absurd hde hc
        · exact countP_firstLine ⟨d, hd, hde⟩

/-- A queue without characters has no cblocks. -/
lemma Holds.last_eq {v : View} {bs : List ℕ} (h : Holds v fs bs []) : v.last = 0 := by
  cases h with
  | nil _ _ _ hlast => exact hlast
  | some h _ hpos =>
      have := h.length
      rw [List.length_nil] at this
      omega

/-- **Line editing.**  With a line in the raw queue, and cblocks enough, `cookin` does not sleep; it
puts the edit of the first line into the cooked queue, and leaves what comes after it. -/
theorem cookin_line (hr : Transition.Reachable step (Start total) s) (hne : raw ≠ cok)
    (hmode : t.mode &&& RAWMODE = 0) (hlen : (s.chars raw).length < 198)
    (h7 : ∀ c ∈ s.chars raw, c < 0x80) (hend : ∃ c ∈ s.chars raw, ends c = true)
    (hnb : t.nbreak.toNat = (s.chars raw).countP ends) (hcok : s.chars cok = [])
    (hfree : ∃ fs, Linked s.next s.cfree fs ∧
      (edit t.erase t.kill (firstLine (s.chars raw)).1).length ≤ 14 * fs.length) :
    ∃ s', cookin raw cok t s = some ({ t with nbreak := t.nbreak - 1 }, s') ∧
      s'.chars cok = edit t.erase t.kill (firstLine (s.chars raw)).1 ∧
      s'.chars raw = (firstLine (s.chars raw)).2 ∧
      (t.nbreak - 1).toNat = (s'.chars raw).countP ends := by
  obtain ⟨fs, bs, cs, hi⟩ := reachable_inv hr
  have hcs := hi.chars
  rw [hcs] at hlen h7 hend hnb hcok hfree ⊢
  obtain ⟨fs₀, hlink, hfits⟩ := hfree
  obtain rfl : fs = fs₀ := hi.free.unique hlink
  have hcount : (s.que raw).count = (cs raw).length := (hi.holds raw).length.symm
  have hpos : t.nbreak ≠ 0 := by
    intro h0
    rw [h0, UInt8.toNat_zero, eq_comm, List.countP_eq_zero] at hnb
    obtain ⟨c, hc, hce⟩ := hend
    exact hnb c hc hce
  obtain ⟨s1, fs1, bs1, he, h1, hfs, hq⟩ := cookLine_spec (t := t) (n := (s.que raw).count + 1)
    (p := []) hi rfl hend h7 (by omega) (by rw [List.length_nil, TTYHOG]; omega)
  rw [← edit] at he
  have hcok1 : Function.update cs raw (firstLine (cs raw)).2 cok = [] := by
    rw [Function.update_of_ne hne.symm, hcok]
  have hlast : (s1.view cok).last = 0 := by
    have := h1.holds cok
    rw [hcok1] at this
    exact this.last_eq
  have hle := length_firstLine (cs raw)
  have hedit := length_edit (e := t.erase) (k := t.kill) (l := (firstLine (cs raw)).1)
  obtain ⟨fs2, bs2, h2⟩ := h1.putcs cok (edit t.erase t.kill (firstLine (cs raw)).1)
    (by rw [hcok1, List.length_nil, TTYHOG]; omega) (by rw [spare, hlast]; omega)
  rw [hcok1, List.nil_append] at h2
  have hraw : Function.update (Function.update cs raw (firstLine (cs raw)).2) cok
      (edit t.erase t.kill (firstLine (cs raw)).1) raw = (firstLine (cs raw)).2 := by
    rw [Function.update_of_ne hne, Function.update_self]
  refine ⟨(edit t.erase t.kill (firstLine (cs raw)).1).foldl (fun s c => (s.putc cok c).2) s1,
    ?_, ?_, ?_, ?_⟩
  · rw [cookin, if_neg (not_not.mpr hmode), if_neg hpos, he, Line.unbreak, if_pos hpos]
    rfl
  · rw [h2.chars, Function.update_self]
  · rw [h2.chars, hraw]
  · rw [h2.chars, hraw]
    have := countP_firstLine hend
    rw [UInt8.toNat_sub_of_le, UInt8.toNat_one]
    · omega
    · rw [UInt8.le_iff_toNat_le, UInt8.toNat_one]
      omega

/-- The line `a`, erase, `b`, newline, with the start of a second one behind it. -/
theorem cookin_line_two : ∃ s s' : State (Fin 2), Transition.Reachable step (Start 2) s ∧
    s.chars 0 = [97, 8, 98, 10, 99] ∧ cookin 0 1 ⟨0, 8, 21, 1⟩ s = some (⟨0, 8, 21, 0⟩, s') ∧
    s'.chars 1 = [98, 10] ∧ s'.chars 0 = [99] := by
  obtain ⟨s, hs, h0, h1, hc, hn⟩ : ∃ s : State (Fin 2), Transition.run step (fun _ _ => True) start
      [.putc 0 97, .putc 0 8, .putc 0 98, .putc 0 10, .putc 0 99] = some s ∧
      s.chars 0 = [97, 8, 98, 10, 99] ∧ s.chars 1 = [] ∧ s.cfree = 16 ∧ s.next 16 = 0 := by
    refine ⟨_, rfl, ?_⟩
    decide +kernel
  have hr : Transition.Reachable step (Start 2) s := .of_run start_start hs
  obtain ⟨s', he, hcok, hraw, -⟩ := cookin_line (t := ⟨0, 8, 21, 1⟩) hr
    (by decide : (0 : Fin 2) ≠ 1) (by decide) (by rw [h0]; decide) (by simp [h0])
    ⟨10, by simp [h0], by decide⟩ (by rw [h0]; decide) h1
    ⟨[16], ⟨hc, by decide, hn⟩, by rw [h0]; decide⟩
  rw [h0] at hcok hraw
  exact ⟨s, s', hr, h0, he, hcok, hraw⟩

end Tty

end Micronix
