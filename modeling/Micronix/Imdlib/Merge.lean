import Micronix.Imdlib.Sectors
import Mathlib.Data.List.FinRange
import Mathlib.Data.List.TakeWhile

/-!
# A merged image

`merge_imd` of `tools/imd.c` writes an image out of memory: the comment, and each track with its
maps and its sectors, one that is full of one byte in short.  `get_track` reads back what it wrote of
a track (`getTrack_mergeTrack`), and so `imd_load` gets the same image (`merge_roundtrip`).  That is,
if `merge_imd` gets that far: it leaves out the null pointers among the tracks, but the loader has
set none of them to null.
-/

namespace Micronix

namespace Imdlib

/-! ## The program -/

def IMD_ABSENT : UInt8 := 0
def IMD_DATA : UInt8 := 1
def IMD_FILL : UInt8 := 2
def IMD_EOC : UInt8 := 0x1a

/-- A sector, in short if all of its bytes are the first one. -/
def mergeSector (x : Fixed) : Option (Fin x.secsize → UInt8) → List UInt8
  | some buf =>
      let value := buf ⟨0, x.secsize_pos⟩
      if ∀ i, buf i = value then [IMD_FILL, value] else IMD_DATA :: List.ofFn buf
  | none => [IMD_ABSENT]

/-- A map, if there is one. -/
def mergeMap {n : ℕ} : Option (Fin n → UInt8) → List UInt8
  | some m => List.ofFn m
  | none => []

/-- A track. -/
def mergeTrack (t : Track) : List UInt8 :=
  [t.fixed.mode, t.fixed.cyl, t.fixed.head, t.fixed.nsec, t.fixed.size] ++
    (List.ofFn t.secmap ++ (mergeMap t.cylmap ++ (mergeMap t.headmap ++
      (List.finRange t.fixed.nsec.toNat).flatMap fun sec => mergeSector t.fixed (t.data sec))))

/-- What is written for `tracks[trk]`, where a null pointer is passed over. -/
def mergeSlot : Slot → Option (List UInt8)
  | .null => some []
  | .wild => none
  | .track t => some (mergeTrack t)

/-- The comment as a string, without its last character, and then `IMD_EOC`. -/
def mergeComment (comment : List UInt8) : Option (List UInt8) :=
  match comment.takeWhile (· ≠ 0) with
  | [] => none
  | s => some (s.dropLast ++ [IMD_EOC])

/-- `merge_imd(imd, filename)`: what it writes to a new file.  The name of that has to fit into
`merge[100]`. -/
def mergeImd (ip : Imd) (filename : List UInt8) : Option (List UInt8) := do
  if 100 < filename.length + 7 then none
  else
    let comment ← mergeComment ip.comment
    (List.range TRACKS).foldlM
      (fun out trk => (mergeSlot (ip.tracks trk)).map fun bytes => out ++ bytes) comment

/-! ## Reading back -/

section Track

lemma read_ofFn {n : ℕ} (f : Fin n → UInt8) (img : List UInt8) :
    read n (List.ofFn f ++ img) = some (f, img) := by
  have hle : n ≤ (List.ofFn f ++ img).length := by simp
  rw [read, dif_pos hle]
  refine congrArg some (Prod.ext (funext fun i => ?_) (by simp))
  simp [List.getElem_append_left]

lemma readIf_mergeMap {n : ℕ} {flag : Bool} (m : Option (Fin n → UInt8)) (hm : m.isSome = flag)
    (img : List UInt8) : readIf flag n (mergeMap m ++ img) = some (⟨m, hm⟩, img) := by
  subst hm
  cases m with
  | none => rfl
  | some f =>
      change (read n (List.ofFn f ++ img)).map _ = _
      rw [read_ofFn]
      rfl

lemma readSector_mergeSector (x : Fixed) (d : Option (Fin x.secsize → UInt8)) (img : List UInt8) :
    readSector x.secsize (mergeSector x d ++ img) = some (d, img) := by
  cases d with
  | none => rfl
  | some buf =>
      rw [mergeSector]
      split_ifs with hfill
      · have hbuf : (fun _ => buf ⟨0, x.secsize_pos⟩) = buf := funext fun i => (hfill i).symm
        change some (some (fun _ => buf ⟨0, x.secsize_pos⟩), img) = _
        rw [hbuf]
      · change (read x.secsize (List.ofFn buf ++ img)).map _ = _
        rw [read_ofFn]
        rfl

/-- The sectors of a track, by induction on their number. -/
lemma readSectors_merge (x : Fixed) (n : ℕ) (data : Fin n → Option (Fin x.secsize → UInt8))
    (img : List UInt8) :
    readSectors x.secsize n
      (((List.finRange n).flatMap fun sec => mergeSector x (data sec)) ++ img) =
      some (data, img) := by
  induction n with
  | zero => exact congrArg some (Prod.ext (funext fun i => i.elim0) rfl)
  | succ n ih =>
      have htail : (List.finRange (n + 1)).flatMap (fun sec => mergeSector x (data sec)) =
          mergeSector x (data 0) ++
            (List.finRange n).flatMap fun sec => mergeSector x (Fin.tail data sec) := by
        rw [List.finRange_succ, List.flatMap_cons, List.flatMap_map]
        rfl
      rw [htail, readSectors, List.append_assoc, readSector_mergeSector]
      change (readSectors x.secsize n _).bind _ = _
      rw [ih (Fin.tail data)]
      exact congrArg (fun d => some (d, img)) (Fin.cons_self_tail data)

/-- The size of a track's sectors is an `int`. -/
lemma getTrack_size {img rest : List UInt8} {t : Track} (h : getTrack img = .track t rest) :
    t.fixed.size.toNat < 24 := by
  rw [getTrack.eq_def] at h
  split at h
  case h_1 mode cyl head nsec size img =>
    split_ifs at h with hsize
    cases hread : readTrack ⟨mode, cyl, head, nsec, size⟩ img with
    | none => simp [hread] at h
    | some r =>
        simp only [hread, Got.track.injEq] at h
        rw [readTrack] at hread
        obtain ⟨r₁, -, hread⟩ := Option.bind_eq_some_iff.mp hread
        obtain ⟨r₂, -, hread⟩ := Option.bind_eq_some_iff.mp hread
        obtain ⟨r₃, -, hread⟩ := Option.bind_eq_some_iff.mp hread
        obtain ⟨r₄, -, hread⟩ := Option.bind_eq_some_iff.mp hread
        rw [← h.1, ← Option.some.inj hread]
        exact Nat.lt_of_not_le hsize
  case h_2 => cases h

/-- **A track is read back.** -/
theorem getTrack_mergeTrack (t : Track) (hsize : t.fixed.size.toNat < 24) (img : List UInt8) :
    getTrack (mergeTrack t ++ img) = .track t img := by
  have htrack : readTrack t.fixed (List.ofFn t.secmap ++ (mergeMap t.cylmap ++
      (mergeMap t.headmap ++ (((List.finRange t.fixed.nsec.toNat).flatMap fun sec =>
        mergeSector t.fixed (t.data sec)) ++ img)))) = some (t, img) := by
    rw [readTrack, read_ofFn]
    change (readIf _ _ _).bind _ = _
    rw [readIf_mergeMap t.cylmap t.cylmap_flag]
    change (readIf _ _ _).bind _ = _
    rw [readIf_mergeMap t.headmap t.headmap_flag]
    change (readSectors _ _ _).bind _ = _
    rw [readSectors_merge]
    rfl
  rw [mergeTrack]
  simp only [List.append_assoc, List.cons_append, List.nil_append]
  rw [getTrack, if_neg (by omega), htrack]

end Track

/-! ## The comment -/

/-- A comment has one `IMD_EOC`, at its end. -/
lemma readComment_some {img comment rest : List UInt8}
    (h : readComment img = some (comment, rest)) : ∃ s, comment = s ++ [IMD_EOC] ∧ IMD_EOC ∉ s := by
  induction img generalizing comment with
  | nil => cases h
  | cons c img ih =>
      rw [readComment] at h
      split_ifs at h with hc
      · cases Option.some.inj h
        exact ⟨[], by rw [hc]; rfl, List.not_mem_nil⟩
      · obtain ⟨r, hr, he⟩ := Option.map_eq_some_iff.mp h
        obtain ⟨rfl, rfl⟩ := Prod.mk.inj he
        obtain ⟨s, hs, hno⟩ := ih hr
        refine ⟨c :: s, by rw [hs]; rfl, fun hmem => ?_⟩
        rcases List.mem_cons.mp hmem with rfl | hmem
        · exact hc rfl
        · exact hno hmem

lemma readComment_append {s : List UInt8} (hs : IMD_EOC ∉ s) (rest : List UInt8) :
    readComment (s ++ [IMD_EOC] ++ rest) = some (s ++ [IMD_EOC], rest) := by
  induction s with
  | nil => rfl
  | cons c s ih =>
      have hc : c ≠ 0x1a := fun h => hs (h ▸ List.mem_cons_self)
      rw [List.cons_append, List.cons_append, readComment, if_neg hc,
        ih fun h => hs (List.mem_cons_of_mem c h)]
      rfl

lemma mergeComment_eq {comment s : List UInt8} (hc : comment = s ++ [IMD_EOC]) (h0 : 0 ∉ comment) :
    mergeComment comment = some comment := by
  have htake : comment.takeWhile (· ≠ 0) = comment := by
    rw [List.takeWhile_eq_self_iff]
    intro c hmem
    have hne : c ≠ 0 := fun h => h0 (h ▸ hmem)
    simpa using hne
  rw [mergeComment, htake]
  subst hc
  cases hs : s ++ [IMD_EOC] with
  | nil => exact absurd hs (by simp)
  | cons c l =>
      dsimp only
      rw [← hs, List.dropLast_concat]

/-! ## The tracks -/

/-- The header of a track, where there is one. -/
def Slot.fixed : Slot → Option Fixed
  | .track t => some t.fixed
  | _ => none

/-- Where a track is put. -/
def Fixed.place (x : Fixed) : ℕ := x.cyl.toNat * HEADS + x.side

/-- `m` is the greatest `g` of the tracks. -/
def Greatest (g : Fixed → ℕ) (T : ℕ → Slot) (m : ℤ) : Prop :=
  (∀ trk < TRACKS, ∀ x, (T trk).fixed = some x → (g x : ℤ) ≤ m) ∧
    (m = 0 ∨ ∃ trk < TRACKS, ∃ x, (T trk).fixed = some x ∧ (g x : ℤ) = m)

section Greatest

variable {g : Fixed → ℕ} {T T' : ℕ → Slot} {m m' : ℤ}

lemma Greatest.unique (h : Greatest g T m) (h' : Greatest g T' m')
    (hsame : ∀ trk < TRACKS, (T trk).fixed = (T' trk).fixed) : m = m' := by
  have hle : m' ≤ m := by
    rcases h'.2 with h0 | ⟨trk, htrk, x, hx, hm⟩
    · rcases h.2 with h0' | ⟨trk, htrk, x, hx, hm⟩ <;> omega
    · rw [← hm]
      exact h.1 trk htrk x ((hsame trk htrk).trans hx)
  have hge : m ≤ m' := by
    rcases h.2 with h0 | ⟨trk, htrk, x, hx, hm⟩
    · rcases h'.2 with h0' | ⟨trk, htrk, x, hx, hm⟩ <;> omega
    · rw [← hm]
      exact h'.1 trk htrk x ((hsame trk htrk).symm.trans hx)
  omega

/-- A track that takes no other one's place. -/
lemma Greatest.update (h : Greatest g T m) {t : Track} {trk : ℕ} (htrk : trk < TRACKS)
    (hover : ∀ x, (T trk).fixed = some x → x = t.fixed) :
    Greatest g (Function.update T trk (.track t)) (max m (g t.fixed)) := by
  constructor
  · intro trk' htrk' x hx
    rcases eq_or_ne trk' trk with rfl | hne
    · rw [Function.update_self] at hx
      cases Option.some.inj hx
      exact le_max_right _ _
    · rw [Function.update_of_ne hne] at hx
      exact (h.1 trk' htrk' x hx).trans (le_max_left _ _)
  · rcases le_total m (g t.fixed) with hle | hle
    · exact Or.inr ⟨trk, htrk, t.fixed, by rw [Function.update_self]; rfl, (max_eq_right hle).symm⟩
    · rw [max_eq_left hle]
      refine h.2.imp id ?_
      rintro ⟨trk', htrk', x, hx, hm⟩
      refine ⟨trk', htrk', x, ?_, hm⟩
      rcases eq_or_ne trk' trk with rfl | hne
      · rw [Function.update_self, hover x hx]
        rfl
      · rw [Function.update_of_ne hne, hx]

end Greatest

/-! ## An image that has been loaded -/

/-- The tracks of an image, with the loader's fuel. -/
def tracksOf : ℕ → List UInt8 → List Track
  | 0, _ => []
  | n + 1, img =>
      match getTrack img with
      | .track t img => t :: tracksOf n img
      | _ => []

/-- Its tracks have distinct pairs of a cylinder and a head that are in range. -/
def Distinct (img : List UInt8) : Prop :=
  ∀ comment rest, readComment img = some (comment, rest) →
    (∀ t ∈ tracksOf rest.length rest, t.fixed.cyl.toNat < CYLINDERS ∧ t.fixed.side < HEADS) ∧
      (tracksOf rest.length rest).Pairwise fun t u =>
        (t.fixed.cyl, t.fixed.side) ≠ (u.fixed.cyl, u.fixed.side)

/-- Both counts are right. -/
def Counted (ip : Imd) : Prop :=
  Greatest (fun x => x.cyl.toNat) ip.tracks ip.cyls ∧
    Greatest (fun x => x.head.toNat) ip.tracks ip.heads

section Loaded

variable {ip ip' : Imd} {img : List UInt8} {n : ℕ} {t : Track}

lemma addTrack_eq (h : addTrack ip t = some ip') : t.fixed.place < TRACKS ∧
    ip' = { ip with
      tracks := Function.update ip.tracks t.fixed.place (.track t)
      cyls := max ip.cyls t.fixed.cyl.toNat
      heads := max ip.heads t.fixed.head.toNat } := by
  rw [addTrack] at h
  split_ifs at h with hin
  exact ⟨hin, (Option.some.inj h).symm⟩

lemma Counted.addTrack (h : Counted ip)
    (hover : ∀ x, (ip.tracks t.fixed.place).fixed = some x → x = t.fixed)
    (hadd : addTrack ip t = some ip') : Counted ip' := by
  obtain ⟨hin, rfl⟩ := addTrack_eq hadd
  exact ⟨h.1.update hin hover, h.2.update hin hover⟩

/-- A run of the loader, by induction on the tracks. -/
lemma loadTracks_induct {P : List Track → Imd → Prop}
    (hstep : ∀ t ts ip ip', P (t :: ts) ip → addTrack ip t = some ip' → t.fixed.size.toNat < 24 →
      P ts ip')
    (h : P (tracksOf n img) ip) (hload : loadTracks n img ip = some ip') : P [] ip' := by
  induction n generalizing img ip with
  | zero =>
      cases Option.some.inj hload
      exact h
  | succ n ih =>
      rw [loadTracks] at hload
      rw [tracksOf] at h
      cases hgot : getTrack img with
      | outside => simp [hgot] at hload
      | stop =>
          simp only [hgot, Option.some.injEq] at hload h
          exact hload ▸ h
      | track t rest =>
          simp only [hgot] at hload h
          cases hadd : Imdlib.addTrack ip t with
          | none => simp [hadd] at hload
          | some ip₁ =>
              simp only [hadd] at hload
              exact ih (hstep t _ ip ip₁ h hadd (getTrack_size hgot)) hload

lemma place_inj {x y : Fixed} (hx : x.side < HEADS) (hy : y.side < HEADS) (h : x.place = y.place) :
    (x.cyl, x.side) = (y.cyl, y.side) := by
  simp only [Fixed.place, HEADS] at *
  exact Prod.ext (UInt8.toNat_inj.mp (by dsimp only; omega)) (by dsimp only; omega)

lemma blank_fixed (drive : ℤ) (comment : List UInt8) (mem : Memory) (trk : ℕ) :
    ((Imd.blank drive comment mem).tracks trk).fixed = none := by
  rw [Imd.blank]
  dsimp only
  split_ifs <;> rfl

lemma blank_counted (drive : ℤ) (comment : List UInt8) (mem : Memory) :
    Counted (.blank drive comment mem) := by
  refine ⟨⟨fun trk _ x hx => ?_, Or.inl rfl⟩, fun trk _ x hx => ?_, Or.inl rfl⟩ <;>
  · rw [blank_fixed] at hx
    cases hx

/-- The counts of an image with distinct tracks: no track takes the place of another one. -/
lemma counted_of_load {drive : ℤ} {comment rest : List UInt8} {mem : Memory} (hd : Distinct img)
    (hcomment : readComment img = some (comment, rest))
    (hload : loadTracks rest.length rest (.blank drive comment mem) = some ip) : Counted ip := by
  obtain ⟨hrange, hpair⟩ := hd comment rest hcomment
  suffices h : Counted ip ∧ (∀ t ∈ ([] : List Track), t.fixed.side < HEADS) ∧
      (([] : List Track).Pairwise fun t u =>
        (t.fixed.cyl, t.fixed.side) ≠ (u.fixed.cyl, u.fixed.side)) ∧
      ∀ t ∈ ([] : List Track), (ip.tracks t.fixed.place).fixed = none from h.1
  refine loadTracks_induct (P := fun ts ip => Counted ip ∧ (∀ t ∈ ts, t.fixed.side < HEADS) ∧
    (ts.Pairwise fun t u => (t.fixed.cyl, t.fixed.side) ≠ (u.fixed.cyl, u.fixed.side)) ∧
    ∀ t ∈ ts, (ip.tracks t.fixed.place).fixed = none) ?_
    ⟨blank_counted .., fun t ht => (hrange t ht).2, hpair, fun t _ => blank_fixed ..⟩ hload
  rintro t ts ip ip' ⟨hcounted, hside, hpair, hfree⟩ hadd -
  obtain ⟨hfirst, hpair⟩ := List.pairwise_cons.mp hpair
  refine ⟨hcounted.addTrack (fun x hx => ?_) hadd, fun u hu => hside u (List.mem_cons_of_mem t hu),
    hpair, fun u hu => ?_⟩
  · rw [hfree t List.mem_cons_self] at hx
    cases hx
  · obtain ⟨-, rfl⟩ := addTrack_eq hadd
    have hne : u.fixed.place ≠ t.fixed.place := fun he => hfirst u hu
      (place_inj (hside t List.mem_cons_self) (hside u (List.mem_cons_of_mem t hu)) he.symm)
    dsimp only
    rw [Function.update_of_ne hne]
    exact hfree u (List.mem_cons_of_mem t hu)

lemma size_of_load {drive : ℤ} {comment rest : List UInt8} {mem : Memory}
    (hload : loadTracks n rest (.blank drive comment mem) = some ip) (trk : ℕ) (x : Fixed)
    (hx : (ip.tracks trk).fixed = some x) : x.size.toNat < 24 := by
  revert trk x
  refine loadTracks_induct (P := fun _ ip => ∀ trk x, (ip.tracks trk).fixed = some x →
    x.size.toNat < 24) ?_ (fun trk x hx => ?_) hload
  · intro t ts ip ip' h hadd hsize trk x hx
    obtain ⟨-, rfl⟩ := addTrack_eq hadd
    dsimp only at hx
    rcases eq_or_ne trk t.fixed.place with rfl | hne
    · rw [Function.update_self] at hx
      cases Option.some.inj hx
      exact hsize
    · rw [Function.update_of_ne hne] at hx
      exact h trk x hx
  · rw [blank_fixed] at hx
    cases hx

lemma comment_of_load {drive : ℤ} {comment rest : List UInt8} {mem : Memory}
    (hload : loadTracks n rest (.blank drive comment mem) = some ip) : ip.comment = comment := by
  refine loadTracks_induct (P := fun _ ip => ip.comment = comment) ?_ rfl hload
  rintro t ts ip ip' rfl hadd -
  rw [(addTrack_eq hadd).2]

lemma fixed_congr {x y : Slot} (h : ∀ t, x = .track t ↔ y = .track t) : x.fixed = y.fixed := by
  cases x with
  | track t => rw [(h t).mp rfl]
  | null | wild =>
      cases y with
      | track t => exact absurd ((h t).mpr rfl) (by simp)
      | null | wild => rfl

/-- A replay of a delta file keeps the headers. -/
lemma fixed_of_replay {mem : Memory} {d : Delta} (h : replay mem ip d = some ip') :
    ip'.comment = ip.comment ∧ ip'.cyls = ip.cyls ∧ ip'.heads = ip.heads ∧
      ∀ trk, (ip'.tracks trk).fixed = (ip.tracks trk).fixed := by
  cases d with
  | none =>
      cases Option.some.inj h
      exact ⟨rfl, rfl, rfl, fun _ => rfl⟩
  | readOnly f | readWrite f =>
      obtain ⟨tracks, hfold, rfl⟩ := Option.map_eq_some_iff.mp h
      refine ⟨rfl, rfl, rfl, ?_⟩
      refine Replay.keeps (I := fun _ (T : ℕ → Slot) =>
        ∀ trk, (T trk).fixed = (ip.tracks trk).fixed) (fun _ p hp T T' hT happly trk => ?_)
        (fun _ => rfl) hfold
      rcases apply_put hp happly with rfl | ⟨trk', t, k, x, -, ht, rfl⟩
      · exact hT trk
      · rcases eq_or_ne trk trk' with rfl | hne
        · rw [Function.update_self, ← hT, ht]
          rfl
        · rw [Function.update_of_ne hne, hT]

end Loaded

/-! ## The merged image -/

section Merged

variable {ip ip' : Imd} {S : ℕ → Slot} {l : List ℕ}

/-- The bytes of some tracks. -/
def bytesOf (S : ℕ → Slot) (l : List ℕ) : List UInt8 :=
  l.flatMap fun trk => (mergeSlot (S trk)).getD []

/-- A track is loaded where there is one. -/
def addSlot (ip : Imd) : Slot → Option Imd
  | .track t => addTrack ip t
  | _ => some ip

/-- The loader reads the tracks that were written. -/
lemma loadTracks_bytesOf (hsize : ∀ trk x, (S trk).fixed = some x → x.size.toNat < 24) (n : ℕ)
    (hn : (bytesOf S l).length ≤ n) (ip : Imd) :
    loadTracks n (bytesOf S l) ip = l.foldlM (fun ip trk => addSlot ip (S trk)) ip := by
  induction l generalizing n ip with
  | nil => cases n <;> rfl
  | cons trk l ih =>
      have hcons : bytesOf S (trk :: l) = (mergeSlot (S trk)).getD [] ++ bytesOf S l :=
        List.flatMap_cons
      rw [hcons] at hn ⊢
      rw [List.foldlM_cons]
      cases hS : S trk with
      | null | wild =>
          rw [hS] at hn
          exact ih n hn ip
      | track t =>
          rw [hS] at hn
          change (mergeTrack t ++ bytesOf S l).length ≤ n at hn
          obtain ⟨n, rfl⟩ : ∃ m, n = m + 1 := by
            refine ⟨n - 1, ?_⟩
            rw [mergeTrack] at hn
            simp only [List.length_append, List.length_cons] at hn
            omega
          have hrest : (bytesOf S l).length ≤ n := by
            rw [mergeTrack] at hn
            simp only [List.length_append, List.length_cons] at hn
            omega
          change loadTracks (n + 1) (mergeTrack t ++ bytesOf S l) ip = (addTrack ip t).bind _
          have ht : t.fixed.size.toNat < 24 := hsize trk t.fixed (by rw [hS]; rfl)
          rw [loadTracks, getTrack_mergeTrack t ht]
          dsimp only
          cases addTrack ip t with
          | none => rfl
          | some ip₁ => exact ih n hrest ip₁

/-- What is written, unless a pointer is one that nobody has set. -/
lemma foldlM_mergeSlot {out out' : List UInt8} :
    l.foldlM (fun out trk => (mergeSlot (S trk)).map fun bytes => out ++ bytes) out = some out' ↔
      (∀ trk ∈ l, S trk ≠ .wild) ∧ out' = out ++ bytesOf S l := by
  induction l generalizing out with
  | nil => simp [bytesOf, eq_comm]
  | cons trk l ih =>
      have hcons : bytesOf S (trk :: l) = (mergeSlot (S trk)).getD [] ++ bytesOf S l :=
        List.flatMap_cons
      rw [List.foldlM_cons, hcons, List.forall_mem_cons]
      cases hS : S trk with
      | wild => exact iff_of_false (by simp [mergeSlot]) fun h => h.1.1 rfl
      | null | track t =>
          change (List.foldlM _ (out ++ _) l = _) ↔ _
          rw [ih, List.append_assoc]
          simp [mergeSlot]

lemma mergeImd_iff {filename out : List UInt8} : mergeImd ip filename = some out ↔
    filename.length ≤ 93 ∧ ∃ comment, mergeComment ip.comment = some comment ∧
      (∀ trk < TRACKS, ip.tracks trk ≠ .wild) ∧
        out = comment ++ bytesOf ip.tracks (List.range TRACKS) := by
  rw [mergeImd]
  by_cases hlen : 100 < filename.length + 7
  · rw [if_pos hlen]
    exact iff_of_false (by simp) fun h => by omega
  · rw [if_neg hlen]
    have hle : filename.length ≤ 93 := by omega
    cases mergeComment ip.comment with
    | none => simp
    | some comment =>
        change List.foldlM _ comment _ = _ ↔ _
        rw [foldlM_mergeSlot]
        simp [hle, List.mem_range]

/-- Loading what was written gives the tracks that were written. -/
lemma load_bytesOf (hplace : ∀ trk t, trk < TRACKS → S trk = .track t → trk = t.fixed.place)
    (drive : ℤ) (comment : List UInt8) (mem : Memory) :
    ∃ ip, (List.range TRACKS).foldlM (fun ip trk => addSlot ip (S trk))
        (.blank drive comment mem) = some ip ∧ ip.comment = comment ∧ Counted ip ∧
      ∀ trk < TRACKS, ∀ t, ip.tracks trk = .track t ↔ S trk = .track t := by
  let Inv (done : List ℕ) (ip : Imd) : Prop := ip.comment = comment ∧ Counted ip ∧
    ∀ trk t, ip.tracks trk = .track t ↔ trk ∈ done ∧ S trk = .track t
  have hstep : ∀ done, ∀ trk ∈ List.range TRACKS, ∀ ip, Inv done ip →
      ∃ ip', addSlot ip (S trk) = some ip' ∧ Inv (done ++ [trk]) ip' := by
    rintro done trk htrk ip ⟨hcomment, hcounted, htracks⟩
    cases hS : S trk with
    | null | wild =>
        refine ⟨ip, rfl, hcomment, hcounted, fun trk' t => ?_⟩
        rw [htracks, List.mem_append, List.mem_singleton]
        refine ⟨fun h => ⟨Or.inl h.1, h.2⟩, fun h => ⟨h.1.resolve_right ?_, h.2⟩⟩
        rintro rfl
        rw [hS] at h
        cases h.2
    | track t =>
        have hlt := List.mem_range.mp htrk
        obtain rfl := hplace trk t hlt hS
        have hadd : addTrack ip t = some { ip with
            tracks := Function.update ip.tracks t.fixed.place (.track t)
            cyls := max ip.cyls t.fixed.cyl.toNat
            heads := max ip.heads t.fixed.head.toNat } := if_pos hlt
        refine ⟨_, hadd, hcomment, hcounted.addTrack (fun x hx => ?_) hadd, fun trk' u => ?_⟩
        · cases hu : ip.tracks t.fixed.place with
          | null | wild =>
              rw [hu] at hx
              cases hx
          | track u =>
              rw [hu] at hx
              cases hS.symm.trans ((htracks _ u).mp hu).2
              exact (Option.some.inj hx).symm
        · dsimp only
          rw [List.mem_append, List.mem_singleton]
          rcases eq_or_ne trk' t.fixed.place with rfl | hne
          · rw [Function.update_self, hS]
            simp
          · rw [Function.update_of_ne hne, htracks]
            simp [hne]
  have hnil : Inv [] (.blank drive comment mem) := by
    refine ⟨rfl, blank_counted .., fun trk t => iff_of_false (fun h => ?_) (by simp)⟩
    have := blank_fixed drive comment mem trk
    rw [h] at this
    cases this
  obtain ⟨ip, hrun⟩ := Replay.runs hstep hnil
  obtain ⟨hcomment, hcounted, htracks⟩ := Replay.keeps (I := Inv)
    (fun done trk htrk ip ip' hi hone => by
      obtain ⟨ip₁, hone', hi'⟩ := hstep done trk htrk ip hi
      cases hone.symm.trans hone'
      exact hi') hnil hrun
  refine ⟨ip, hrun, hcomment, hcounted, fun trk htrk t => ?_⟩
  rw [htracks]
  exact and_iff_right (List.mem_range.mpr htrk)

/-- The merged image is written, and loading it, without a delta file, gives the same comment,
counts and tracks with all that is in them. -/
def RoundTrip (ip : Imd) (filename : List UInt8) : Prop :=
  ∃ out, mergeImd ip filename = some out ∧ ∀ drive mem, ∃ ip',
    imdLoad out none drive false mem = .loaded ip' ∧ ip'.comment = ip.comment ∧
      ip'.cyls = ip.cyls ∧ ip'.heads = ip.heads ∧
        ∀ trk < TRACKS, ∀ t, ip'.tracks trk = .track t ↔ ip.tracks trk = .track t

/-- **Merging an image.**  Whatever `imd_load` accepts, with or without a delta file, comes back
from the merged image, exactly if the name of that is not too long and each pointer in `tracks[]` was
set by the loader or happens to be null. -/
theorem merge_roundtrip {img : List UInt8} {delta : Option File} {drive : ℤ} {create : Bool}
    {mem : Memory} (hload : imdLoad img delta drive create mem = .loaded ip) (hd : Distinct img)
    (h0 : 0 ∉ ip.comment) (filename : List UInt8) :
    RoundTrip ip filename ↔
      filename.length ≤ 93 ∧ ∀ trk < TRACKS, ip.tracks trk ≠ .wild := by
  constructor
  · rintro ⟨out, hout, -⟩
    obtain ⟨hlen, comment, -, hwild, -⟩ := mergeImd_iff.mp hout
    exact ⟨hlen, hwild⟩
  · rintro ⟨hlen, hwild⟩
    have hinplace := InPlace.load hload
    obtain ⟨comment, rest, ip₁, hcomment, htracks, hreplay⟩ := loaded_iff.mp hload
    obtain ⟨hc, hcyls, hheads, hfixed⟩ := fixed_of_replay hreplay
    have hc₁ : ip₁.comment = comment := comment_of_load htracks
    have hcc : ip.comment = comment := hc.trans hc₁
    obtain ⟨s, hs, hno⟩ := readComment_some hcomment
    refine ⟨_, mergeImd_iff.mpr ⟨hlen, _, mergeComment_eq (hcc.trans hs) h0, hwild, rfl⟩,
      fun drive' mem' => ?_⟩
    have hsize : ∀ trk x, (ip.tracks trk).fixed = some x → x.size.toNat < 24 := fun trk x hx =>
      size_of_load htracks trk x (by rw [← hx]; exact (hfixed trk).symm)
    obtain ⟨ip₂, hrun, hcomment₂, hcounted₂, htracks₂⟩ := load_bytesOf
      (fun trk t htrk ht => (hinplace trk t htrk ht).1) drive' (s ++ [IMD_EOC]) mem'
    rw [← loadTracks_bytesOf hsize _ le_rfl] at hrun
    have hread := readComment_append hno (bytesOf ip.tracks (List.range TRACKS))
    rw [hcc, hs]
    refine ⟨_, loaded_iff.mpr ⟨_, _, ip₂, hread, hrun, rfl⟩, hcomment₂, ?_, ?_, htracks₂⟩
    · rw [hcyls]
      exact congrArg (· + 1) (hcounted₂.1.unique (counted_of_load hd hcomment htracks).1
        fun trk htrk => (fixed_congr (htracks₂ trk htrk)).trans (hfixed trk))
    · rw [hheads]
      exact congrArg (· + 1) (hcounted₂.2.unique (counted_of_load hd hcomment htracks).2
        fun trk htrk => (fixed_congr (htracks₂ trk htrk)).trans (hfixed trk))

lemma floppy_distinct : Distinct floppy := by
  rintro comment rest h
  cases Option.some.inj h
  obtain ⟨t, hts, ht⟩ : ∃ t, tracksOf 11 (floppy.drop 1) = [t] ∧ t.fixed = ⟨0, 0, 0, 2, 0⟩ :=
    ⟨_, rfl, rfl⟩
  change (∀ t ∈ tracksOf 11 (floppy.drop 1), _) ∧ List.Pairwise _ (tracksOf 11 (floppy.drop 1))
  rw [hts, List.forall_mem_singleton, ht]
  exact ⟨by decide, List.pairwise_singleton ..⟩

/-- The image of one track, where `malloc` has left null pointers. -/
theorem merge_roundtrip_floppy : ∃ ip, imdLoad floppy none 0 false zeroed = .loaded ip ∧
    RoundTrip ip [0x61] := by
  have hload : imdLoad floppy none 0 false zeroed = .loaded (floppyImd .none) := rfl
  refine ⟨_, hload, (merge_roundtrip hload floppy_distinct (by decide) [0x61]).mpr
    ⟨by decide, fun trk _ h => ?_⟩⟩
  have h' : Function.update (fun _ => Slot.null) 0 (Slot.track _) trk = .wild := h
  rcases eq_or_ne trk 0 with rfl | hne
  · rw [Function.update_self] at h'
    cases h'
  · rw [Function.update_of_ne hne] at h'
    cases h'

/-- The same image where it has left something else: `merge_imd` takes that for tracks. -/
theorem merge_roundtrip_wild : Distinct floppy ∧ ∃ ip,
    imdLoad floppy none 0 false ⟨fun _ => false, fun _ => 0, fun _ _ _ => 0⟩ = .loaded ip ∧
      0 ∉ ip.comment ∧ ¬RoundTrip ip [0x61] := by
  refine ⟨floppy_distinct, _, rfl, by decide, ?_⟩
  rintro ⟨out, hout, -⟩
  obtain ⟨-, _, -, hwild, -⟩ := mergeImd_iff.mp hout
  exact hwild 1 (by decide) rfl

end Merged

end Imdlib

end Micronix
