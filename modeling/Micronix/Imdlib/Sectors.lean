import Micronix.Imdlib.Image
import Micronix.Lib.Replay
import Mathlib.Data.List.Induction
import Mathlib.Logic.Relation

/-!
# The sectors of a loaded image

`translate_sector` gives the index of a sector on its track, the last one with its number.  A number
that it does not find, and a number from 128 on, which a `char` does not hold, is taken for index 0.
So a write to a sector that the track does not have goes to the first sector of the track, unless
the image has no delta file and is not written at all (`sector_written`).
-/

namespace Micronix

namespace Imdlib

/-! ## The index of a sector -/

section Translate

variable {t : Track} {sec : ℤ}

/-- The last one that satisfies `p`, by induction from the end. -/
lemma foldl_last {α : Type} (p : α → Prop) [DecidablePred p] (l : List α) :
    (l.foldl (fun acc a => if p a then some a else acc) none = none ∧ ∀ a ∈ l, ¬p a) ∨
      ∃ as a bs, l = as ++ a :: bs ∧ p a ∧ (∀ b ∈ bs, ¬p b) ∧
        l.foldl (fun acc a => if p a then some a else acc) none = some a := by
  induction l using List.reverseRecOn with
  | nil => exact Or.inl ⟨rfl, fun a ha => absurd ha List.not_mem_nil⟩
  | append_singleton l x ih =>
      rw [List.foldl_append, List.foldl_cons, List.foldl_nil]
      by_cases hx : p x
      · exact Or.inr ⟨l, x, [], rfl, hx, fun b hb => absurd hb List.not_mem_nil, if_pos hx⟩
      · rw [if_neg hx]
        rcases ih with ⟨hnone, hall⟩ | ⟨as, a, bs, rfl, ha, hbs, hsome⟩
        · refine Or.inl ⟨hnone, fun a ha => ?_⟩
          rcases List.mem_append.mp ha with h | h
          · exact hall a h
          · rw [List.mem_singleton.mp h]
            exact hx
        · refine Or.inr ⟨as, a, bs ++ [x], by simp, ha, fun b hb => ?_, hsome⟩
          rcases List.mem_append.mp hb with h | h
          · exact hbs b h
          · rw [List.mem_singleton.mp h]
            exact hx

/-- A number that is not found. -/
lemma translate_miss (h : ∀ i, char (t.secmap i) ≠ sec) : translateSector t sec = 0 := by
  rw [translateSector]
  rcases foldl_last (fun i => char (t.secmap i) = sec) (List.finRange t.fixed.nsec.toNat) with
    ⟨hnone, -⟩ | ⟨_, i, _, -, hi, -⟩
  · rw [hnone]
    rfl
  · exact absurd hi (h i)

/-- A number that is found, at its last place. -/
lemma translate_hit (h : ∃ i, char (t.secmap i) = sec) :
    ∃ k : Fin t.fixed.nsec.toNat, translateSector t sec = k ∧ char (t.secmap k) = sec ∧
      ∀ i, char (t.secmap i) = sec → i ≤ k := by
  rw [translateSector]
  rcases foldl_last (fun i => char (t.secmap i) = sec) (List.finRange t.fixed.nsec.toNat) with
    ⟨-, hall⟩ | ⟨as, k, bs, hl, hk, hbs, hsome⟩
  · obtain ⟨i, hi⟩ := h
    exact absurd hi (hall i (List.mem_finRange i))
  · refine ⟨k, by rw [hsome]; rfl, hk, fun i hi => ?_⟩
    have hmem : i ∈ as ++ k :: bs := hl ▸ List.mem_finRange i
    have hsorted : (as ++ k :: bs).Pairwise (· < ·) := by
      rw [← hl]
      exact List.pairwise_lt_finRange _
    rcases List.mem_append.mp hmem with h | h
    · exact le_of_lt ((List.pairwise_append.mp hsorted).2.2 i h k List.mem_cons_self)
    · rcases List.mem_cons.mp h with rfl | h
      · exact le_rfl
      · exact absurd hi (hbs i h)

lemma char_eq_iff (c : UInt8) (h : 0 ≤ sec) : char c = sec ↔ (c.toNat : ℤ) = sec ∧ sec < 128 := by
  have hc : c.toNat < 256 := c.toNat_lt
  rw [char]
  split_ifs <;> omega

/-- The track has sector `sec`. -/
def Track.Has (t : Track) (sec : ℤ) : Prop := ∃ i, ((t.secmap i).toNat : ℤ) = sec

/-- A number below 128 is found at its last place. -/
lemma translate_low (h : t.Has sec) (hlt : sec < 128) :
    ∃ k : Fin t.fixed.nsec.toNat, translateSector t sec = k ∧ ((t.secmap k).toNat : ℤ) = sec ∧
      ∀ i, ((t.secmap i).toNat : ℤ) = sec → i ≤ k := by
  obtain ⟨i, hi⟩ := h
  have h0 : 0 ≤ sec := by omega
  have hchar : char (t.secmap i) = sec := (char_eq_iff _ h0).mpr ⟨hi, hlt⟩
  obtain ⟨k, hk, hchar, hlast⟩ := translate_hit ⟨i, hchar⟩
  exact ⟨k, hk, ((char_eq_iff _ h0).mp hchar).1, fun j hj =>
    hlast j ((char_eq_iff _ h0).mpr ⟨hj, hlt⟩)⟩

lemma translate_high (hge : 128 ≤ sec) : translateSector t sec = 0 :=
  translate_miss fun i hi => by
    have := ((char_eq_iff _ (by omega)).mp hi).2
    omega

/-- The index of a sector that the track has is one of its indices. -/
lemma translate_lt (h : t.Has sec) : translateSector t sec < t.fixed.nsec.toNat := by
  obtain ⟨i, hi⟩ := h
  rcases lt_or_ge sec 128 with hlt | hge
  · obtain ⟨k, hk, -⟩ := translate_low ⟨i, hi⟩ hlt
    rw [hk]
    exact k.isLt
  · rw [translate_high hge]
    exact Nat.lt_of_le_of_lt (Nat.zero_le _) i.isLt

/-- No other sector of the track is taken for the same index: a number below 128 has a place other
than the first, unless all numbers are below 128, and a number from 128 on is the only one of these
and all others have such a place. -/
def Track.Alone (t : Track) (sec : ℤ) : Prop :=
  if sec < 128 then
    (∃ i, i.val ≠ 0 ∧ ((t.secmap i).toNat : ℤ) = sec) ∨ ∀ i, (t.secmap i).toNat < 128
  else
    ∀ i, ((t.secmap i).toNat : ℤ) ≠ sec →
      (t.secmap i).toNat < 128 ∧ ∃ j, j.val ≠ 0 ∧ t.secmap j = t.secmap i

/-- A number below 128 that has a place other than the first is not taken for index 0. -/
lemma translate_ne_zero (h : t.Has sec) (hlt : sec < 128) :
    translateSector t sec ≠ 0 ↔ ∃ i, i.val ≠ 0 ∧ ((t.secmap i).toNat : ℤ) = sec := by
  obtain ⟨k, hk, hnum, hlast⟩ := translate_low h hlt
  rw [hk]
  constructor
  · exact fun h0 => ⟨k, h0, hnum⟩
  · rintro ⟨i, hi0, hi⟩
    have hle : i.val ≤ k.val := hlast i hi
    omega

lemma alone_iff (h : t.Has sec) :
    t.Alone sec ↔ ∀ o, t.Has o → o ≠ sec → translateSector t o ≠ translateSector t sec := by
  rw [Track.Alone]
  rcases lt_or_ge sec 128 with hlt | hge
  · rw [if_pos hlt, ← translate_ne_zero h hlt]
    obtain ⟨k, hk, hnum, -⟩ := translate_low h hlt
    constructor
    · rintro halone o ho hne heq
      rcases lt_or_ge o 128 with holt | hoge
      · obtain ⟨k', hk', hnum', -⟩ := translate_low ho holt
        have hkk : k' = k := Fin.ext (hk'.symm.trans (heq.trans hk))
        exact hne (hnum'.symm.trans (hkk ▸ hnum))
      · rcases halone with h0 | hall
        · exact h0 (heq.symm.trans (translate_high hoge))
        · obtain ⟨i, hi⟩ := ho
          have := hall i
          omega
    · intro hdiff
      by_cases hall : ∀ i, (t.secmap i).toNat < 128
      · exact Or.inr hall
      · push Not at hall
        obtain ⟨i, hi⟩ := hall
        have hne := hdiff (t.secmap i).toNat ⟨i, rfl⟩ (by omega)
        rw [translate_high (by omega)] at hne
        exact Or.inl hne.symm
  · rw [if_neg (by omega), translate_high hge]
    constructor
    · rintro halone o ⟨i, rfl⟩ hne
      obtain ⟨hlt, j, hj0, hj⟩ := halone i hne
      exact (translate_ne_zero ⟨i, rfl⟩ (by omega)).mpr ⟨j, hj0, by rw [hj]⟩
    · intro hdiff i hne
      have hzero := hdiff (t.secmap i).toNat ⟨i, rfl⟩ hne
      have hlt : (t.secmap i).toNat < 128 := by
        by_contra hge'
        exact hzero (translate_high (by omega))
      obtain ⟨j, hj0, hj⟩ := (translate_ne_zero ⟨i, rfl⟩ (by omega)).mp hzero
      exact ⟨hlt, j, hj0, UInt8.toNat_inj.mp (by omega)⟩

end Translate

/-! ## Images that the library has -/

lemma mem_places {cyl head sec : ℕ} :
    (cyl, head, sec) ∈ places ↔ cyl < CYLINDERS ∧ head < HEADS ∧ sec < SECTORS := by
  simp only [places, List.mem_flatMap, List.mem_map, List.mem_range, Prod.mk.injEq]
  constructor
  · rintro ⟨_, hc, _, hh, _, hs, rfl, rfl, rfl⟩
    exact ⟨hc, hh, hs⟩
  · exact fun ⟨hc, hh, hs⟩ => ⟨_, hc, _, hh, _, hs, rfl, rfl, rfl⟩

/-- A delta file that is new has no sectors. -/
lemma replay_blank (mem : Memory) (tracks : ℕ → Slot) {n : ℕ} (hn : DELTA_SIZE ≤ n) :
    places.foldlM (applyDelta mem ⟨n, fun _ => 0⟩) tracks = some tracks := by
  refine Replay.same ?_
  rintro ⟨cyl, head, sec⟩ hp
  obtain ⟨hc, hh, hs⟩ := mem_places.mp hp
  have hlt : dirtyOff (cyl * HEADS + head) sec < n := by
    simp only [CYLINDERS, HEADS, SECTORS, DELTA_SIZE, dirtyOff] at *
    omega
  have hclean : ¬(0 : UInt8) = DELTA_YES := by decide
  rw [applyDelta]
  dsimp only
  rw [deltaMap, if_pos hlt, if_neg hclean]

/-- The image before the first track. -/
def Imd.blank (drive : ℤ) (comment : List UInt8) (mem : Memory) : Imd :=
  ⟨drive, comment, 0, 0, fun k => if mem.null k then Slot.null else .wild, .none⟩

/-- The counts are one more than the last cylinder and the last head. -/
def Imd.counted (ip : Imd) : Imd := { ip with cyls := ip.cyls + 1, heads := ip.heads + 1 }

/-- The steps of a load that succeeds. -/
lemma loaded_iff {img : List UInt8} {delta : Option File} {drive : ℤ} {create : Bool} {mem : Memory}
    {ip : Imd} : imdLoad img delta drive create mem = .loaded ip ↔
      ∃ comment rest ip₁, readComment img = some (comment, rest) ∧
        loadTracks rest.length rest (.blank drive comment mem) = some ip₁ ∧
        replay mem ip₁.counted (openDelta create delta) = some ip := by
  unfold imdLoad
  split
  · rename_i hcomment
    simp [hcomment]
  · rename_i comment rest hcomment
    dsimp only
    split
    · rename_i htracks
      have htracks : loadTracks rest.length rest (.blank drive comment mem) = none := htracks
      simp [hcomment, htracks]
    · rename_i ip₁ htracks
      have htracks : loadTracks rest.length rest (.blank drive comment mem) = some ip₁ := htracks
      split
      · rename_i hreplay
        have hreplay : replay mem ip₁.counted (openDelta create delta) = none := hreplay
        simp [hcomment, htracks, hreplay]
      · rename_i ip' hreplay
        have hreplay : replay mem ip₁.counted (openDelta create delta) = some ip' := hreplay
        simp [hcomment, htracks, hreplay]

/-- A load with a delta file that is new. -/
lemma load_blank {img : List UInt8} {delta : Option File} {drive : ℤ} {create : Bool} {mem : Memory}
    {comment rest : List UInt8} {ip : Imd} {n : ℕ}
    (hcomment : readComment img = some (comment, rest))
    (htracks : loadTracks rest.length rest (.blank drive comment mem) = some ip)
    (hn : DELTA_SIZE ≤ n) (hd : openDelta create delta = .readWrite ⟨n, fun _ => 0⟩ ∨
      openDelta create delta = .readOnly ⟨n, fun _ => 0⟩) :
    imdLoad img delta drive create mem =
      .loaded { ip.counted with delta := openDelta create delta } := by
  refine loaded_iff.mpr ⟨comment, rest, ip, hcomment, htracks, ?_⟩
  rcases hd with hd | hd <;>
  · rw [hd, replay, replay_blank mem _ hn]
    rfl

/-- An image that has been loaded, and then read and written. -/
inductive Reached : Imd → Prop
  | load {img : List UInt8} {delta : Option File} {drive : ℤ} {create : Bool} {mem : Memory}
      {ip : Imd} : imdLoad img delta drive create mem = .loaded ip → Reached ip
  | write {ip ip' : Imd} {cyl head sec : ℤ} {buf : Bytes} {n : ℕ} :
      Reached ip → imdWrite ip cyl head sec buf = some (n, ip') → Reached ip'
  | read {ip ip' : Imd} {cyl head sec : ℤ} {bytes : List UInt8} :
      Reached ip → imdRead ip cyl head sec = some (bytes, ip') → Reached ip'

/-- A track stands at its place, and the image is as large as the track. -/
def InPlace (tracks : ℕ → Slot) (cyls heads : ℤ) : Prop :=
  ∀ trk t, trk < TRACKS → tracks trk = .track t →
    trk = t.fixed.cyl.toNat * HEADS + t.fixed.side ∧ (t.fixed.cyl.toNat : ℤ) < cyls ∧
      (t.fixed.side : ℤ) < heads

section InPlace

variable {tracks : ℕ → Slot} {cyls heads : ℤ} {ip ip' : Imd}

lemma Fixed.side_le (x : Fixed) : x.side ≤ x.head.toNat := Nat.mod_le _ _

/-- A sector gets other data. -/
lemma InPlace.put (h : InPlace tracks cyls heads) {trk : ℕ} {t : Track}
    (ht : tracks trk = .track t) (htrk : trk < TRACKS) (k : Fin t.fixed.nsec.toNat)
    (d : Fin t.fixed.secsize → UInt8) :
    InPlace (Function.update tracks trk (.track (t.put k d))) cyls heads := by
  intro trk' t' hlt ht'
  rcases eq_or_ne trk' trk with rfl | hne
  · rw [Function.update_self] at ht'
    cases ht'
    exact h trk' t htrk ht
  · rw [Function.update_of_ne hne] at ht'
    exact h trk' t' hlt ht'

/-- A track is loaded; the counts are one less than those of the image. -/
lemma InPlace.addTrack (h : InPlace ip.tracks (ip.cyls + 1) (ip.heads + 1)) {t : Track}
    (hadd : addTrack ip t = some ip') : InPlace ip'.tracks (ip'.cyls + 1) (ip'.heads + 1) := by
  rw [Imdlib.addTrack] at hadd
  split_ifs at hadd with hin
  cases Option.some.inj hadd
  have hside := t.fixed.side_le
  intro trk' t' hlt ht'
  dsimp only at ht' ⊢
  rcases eq_or_ne trk' (t.fixed.cyl.toNat * HEADS + t.fixed.side) with rfl | hne
  · rw [Function.update_self] at ht'
    cases ht'
    exact ⟨rfl, by omega, by omega⟩
  · rw [Function.update_of_ne hne] at ht'
    obtain ⟨hplace, hcyl, hhead⟩ := h trk' t' hlt ht'
    exact ⟨hplace, by omega, by omega⟩

lemma InPlace.loadTracks {n : ℕ} {img : List UInt8}
    (h : InPlace ip.tracks (ip.cyls + 1) (ip.heads + 1)) (hload : loadTracks n img ip = some ip') :
    InPlace ip'.tracks (ip'.cyls + 1) (ip'.heads + 1) := by
  induction n generalizing img ip with
  | zero =>
      cases Option.some.inj hload
      exact h
  | succ n ih =>
      rw [Imdlib.loadTracks] at hload
      cases hgot : getTrack img with
      | outside => simp [hgot] at hload
      | stop =>
          simp only [hgot, Option.some.injEq] at hload
          exact hload ▸ h
      | track t rest =>
          simp only [hgot] at hload
          cases hadd : Imdlib.addTrack ip t with
          | none => simp [hadd] at hload
          | some ip₁ =>
              simp only [hadd] at hload
              exact ih (h.addTrack hadd) hload

/-- **One sector of a delta file** changes nothing, or the data of one sector. -/
lemma apply_put {mem : Memory} {f : File} {p : ℕ × ℕ × ℕ} {tracks' : ℕ → Slot} (hp : p ∈ places)
    (happly : applyDelta mem f tracks p = some tracks') : tracks' = tracks ∨
      ∃ trk t k d, trk < TRACKS ∧ tracks trk = .track t ∧
        tracks' = Function.update tracks trk (.track (Track.put t k d)) := by
  obtain ⟨cyl, head, sec⟩ := p
  have hlt : cyl * HEADS + head < TRACKS := by
    obtain ⟨hc, hh, -⟩ := mem_places.mp hp
    rw [CYLINDERS] at hc
    rw [HEADS] at hh
    rw [HEADS, TRACKS, CYLINDERS, HEADS]
    omega
  rw [applyDelta] at happly
  dsimp only at happly
  split_ifs at happly with hdirty
  · cases ht : tracks (cyl * HEADS + head) with
    | null => simp [ht] at happly
    | wild => simp [ht] at happly
    | track t =>
        simp only [ht] at happly
        split_ifs at happly
        cases Option.some.inj happly
        exact Or.inr ⟨_, t, _, _, hlt, ht, rfl⟩
  · exact Or.inl (Option.some.inj happly).symm

lemma InPlace.applyDelta {mem : Memory} {f : File} {p : ℕ × ℕ × ℕ} {tracks' : ℕ → Slot}
    (h : InPlace tracks cyls heads) (hp : p ∈ places)
    (happly : applyDelta mem f tracks p = some tracks') : InPlace tracks' cyls heads := by
  rcases apply_put hp happly with rfl | ⟨trk, t, k, d, hlt, ht, rfl⟩
  · exact h
  · exact h.put ht hlt k d

lemma InPlace.replay {mem : Memory} {d : Delta} (h : InPlace ip.tracks ip.cyls ip.heads)
    (hreplay : replay mem ip d = some ip') : InPlace ip'.tracks ip'.cyls ip'.heads := by
  cases d with
  | none =>
      cases Option.some.inj hreplay
      exact h
  | readOnly f | readWrite f =>
      obtain ⟨tracks, hfold, rfl⟩ := Option.map_eq_some_iff.mp hreplay
      exact Replay.keeps (I := fun _ tracks => InPlace tracks ip.cyls ip.heads)
        (fun _ p hp _ _ hi happly => hi.applyDelta hp happly) h hfold

lemma InPlace.load {img : List UInt8} {delta : Option File} {drive : ℤ} {create : Bool}
    {mem : Memory} (hload : imdLoad img delta drive create mem = .loaded ip) :
    InPlace ip.tracks ip.cyls ip.heads := by
  obtain ⟨comment, rest, ip₁, -, htracks, hreplay⟩ := loaded_iff.mp hload
  have hblank : InPlace (Imd.blank drive comment mem).tracks (0 + 1) (0 + 1) := by
    intro trk t _ ht
    rw [Imd.blank] at ht
    dsimp only at ht
    split_ifs at ht
  exact (InPlace.loadTracks hblank htracks).replay hreplay

/-- A slot that holds a track. -/
lemma slot_track {trk : ℤ} {t : Track} (h : ip.slot trk = .track t) :
    0 ≤ trk ∧ trk.toNat < TRACKS ∧ ip.tracks trk.toNat = .track t := by
  rw [Imd.slot] at h
  split_ifs at h with hin
  exact ⟨hin.1, by omega, h⟩

lemma InPlace.setTrack (h : InPlace ip.tracks ip.cyls ip.heads) {trk : ℤ} {t : Track}
    (ht : ip.slot trk = .track t) (k : Fin t.fixed.nsec.toNat) (d : Fin t.fixed.secsize → UInt8) :
    InPlace (ip.setTrack trk (t.put k d)).tracks ip.cyls ip.heads := by
  obtain ⟨-, hlt, htrack⟩ := slot_track ht
  exact h.put htrack hlt k d

end InPlace

/-! ## What is read -/

/-- What `imd_read` gives of a sector. -/
def Track.sector (t : Track) (k : Fin t.fixed.nsec.toNat) : List UInt8 :=
  List.ofFn ((t.data k).getD fun _ => 0)

/-- What it gives of a track. -/
def Slot.look (x : Slot) (sec : ℤ) : Option (List UInt8) :=
  match x with
  | .track t =>
      if h : translateSector t sec < t.fixed.nsec.toNat then some (t.sector ⟨_, h⟩) else none
  | _ => none

/-- What `imd_read` returns. -/
def seen (ip : Imd) (cyl head sec : ℤ) : Option (List UInt8) :=
  (imdRead ip cyl head sec).map Prod.fst

section Seen

variable {ip ip' : Imd} {cyl head sec trk : ℤ} {t : Track}

lemma seen_eq (ip : Imd) (cyl head sec : ℤ) :
    seen ip cyl head sec =
      if cyl ≥ ip.cyls ∨ head ≥ ip.heads then some []
      else (ip.slot (trknum cyl head)).look sec := by
  rw [seen, imdRead]
  split_ifs
  · rfl
  · cases hslot : ip.slot (trknum cyl head) with
    | null => rfl
    | wild => rfl
    | track t =>
        dsimp only
        rw [Slot.look]
        split_ifs with hin
        · rw [Track.sector]
          cases t.data ⟨translateSector t sec, hin⟩ <;> rfl
        · rfl

lemma sector_put (t : Track) (k j : Fin t.fixed.nsec.toNat) (d : Fin t.fixed.secsize → UInt8) :
    (t.put k d).sector j = if j = k then List.ofFn d else t.sector j := by
  change List.ofFn ((Function.update t.data k (some d) j).getD fun _ => 0) = _
  split_ifs with hj
  · rw [hj, Function.update_self]
    rfl
  · rw [Function.update_of_ne hj]
    rfl

/-- One slot is another one now. -/
lemma slot_setTrack (h0 : 0 ≤ trk) (hlt : trk.toNat < TRACKS) (t : Track) (trk' : ℤ) :
    (ip.setTrack trk t).slot trk' = if trk' = trk then .track t else ip.slot trk' := by
  rw [Imd.slot, Imd.slot, Imd.setTrack]
  dsimp only
  by_cases he : trk' = trk
  · rw [if_pos he, he, if_pos ⟨h0, by omega⟩, Function.update_self]
  · rw [if_neg he]
    split_ifs with hin
    · rw [Function.update_of_ne]
      have := hin.1
      omega
    · rfl

/-- What a look at a track gives once one of its sectors has other data. -/
lemma look_put (k : Fin t.fixed.nsec.toNat) (d : Fin t.fixed.secsize → UInt8) (sec : ℤ) :
    (Slot.track (t.put k d)).look sec =
      if translateSector t sec = k then some (List.ofFn d) else (Slot.track t).look sec := by
  have htrans : translateSector (t.put k d) sec = translateSector t sec := rfl
  rw [Slot.look, Slot.look, htrans]
  by_cases hin : translateSector t sec < t.fixed.nsec.toNat
  · have hin' : translateSector t sec < (t.put k d).fixed.nsec.toNat := hin
    have hsector : (t.put k d).sector ⟨translateSector t sec, hin'⟩ = _ :=
      sector_put t k ⟨translateSector t sec, hin⟩ d
    rw [dif_pos hin', dif_pos hin, hsector]
    have hk : (⟨translateSector t sec, hin⟩ : Fin t.fixed.nsec.toNat) = k ↔
        translateSector t sec = k := Fin.ext_iff
    by_cases he : translateSector t sec = k
    · rw [if_pos he, if_pos (hk.mpr he)]
    · rw [if_neg he, if_neg fun e => he (hk.mp e)]
  · have hin' : ¬translateSector t sec < (t.put k d).fixed.nsec.toNat := hin
    have hne : translateSector t sec ≠ k := fun e => hin (e ▸ k.isLt)
    rw [dif_neg hin', dif_neg hin, if_neg hne]

/-- **A write**: it is refused, or the track has other data in one sector. -/
lemma write_cases {buf : Bytes} {n : ℕ} (h : imdWrite ip cyl head sec buf = some (n, ip')) :
    ((cyl ≥ ip.cyls ∨ head ≥ ip.heads ∨ ip.delta.isNone = true) ∧ n = 0 ∧ ip' = ip) ∨
      ∃ (t : Track) (k : Fin t.fixed.nsec.toNat), ip.slot (trknum cyl head) = .track t ∧
        translateSector t sec = k ∧ n = t.fixed.secsize ∧ cyl < ip.cyls ∧ head < ip.heads ∧
        ip.delta.isNone = false ∧
        ip' = { ip.setTrack (trknum cyl head) (t.put k fun j => buf j) with
          delta := ip.delta.store (trknum cyl head).toNat k fun j : Fin t.secsize => buf j } := by
  rw [imdWrite] at h
  split_ifs at h with hrange hnone
  · cases Option.some.inj h
    exact Or.inl ⟨by tauto, rfl, rfl⟩
  · cases Option.some.inj h
    exact Or.inl ⟨by tauto, rfl, rfl⟩
  · cases hslot : ip.slot (trknum cyl head) with
    | null => simp [hslot] at h
    | wild => simp [hslot] at h
    | track t =>
        simp only [hslot] at h
        split_ifs at h with hin
        cases Option.some.inj h
        exact Or.inr ⟨t, ⟨_, hin⟩, rfl, rfl, rfl, by omega, by omega, by simpa using hnone, rfl⟩

/-- A write to a track that is there. -/
lemma write_track (hc : cyl < ip.cyls) (hh : head < ip.heads) (hd : ip.delta.isNone = false)
    (ht : ip.slot (trknum cyl head) = .track t) {k : Fin t.fixed.nsec.toNat}
    (hk : translateSector t sec = k) (buf : Bytes) :
    imdWrite ip cyl head sec buf = some (t.fixed.secsize,
      { ip.setTrack (trknum cyl head) (t.put k fun j => buf j) with
        delta := ip.delta.store (trknum cyl head).toNat k fun j : Fin t.secsize => buf j }) := by
  have hin : translateSector t sec < t.fixed.nsec.toNat := hk ▸ k.isLt
  have hk' : (⟨translateSector t sec, hin⟩ : Fin t.fixed.nsec.toNat) = k := Fin.ext hk
  rw [imdWrite, if_neg (by omega), if_neg (by simp [hd]), ht]
  dsimp only
  rw [dif_pos hin, hk', hk]
  rfl

/-- **A read** leaves the image alone, or has put zeros into an absent sector. -/
lemma read_cases {bytes : List UInt8} (h : imdRead ip cyl head sec = some (bytes, ip')) :
    ip' = ip ∨ ∃ (t : Track) (k : Fin t.fixed.nsec.toNat), ip.slot (trknum cyl head) = .track t ∧
      t.data k = none ∧ ip' = ip.setTrack (trknum cyl head) (t.put k fun _ => 0) := by
  rw [imdRead] at h
  split_ifs at h
  · cases Option.some.inj h
    exact Or.inl rfl
  · cases hslot : ip.slot (trknum cyl head) with
    | null => simp [hslot] at h
    | wild => simp [hslot] at h
    | track t =>
        simp only [hslot] at h
        split_ifs at h with hin
        cases hdata : t.data ⟨_, hin⟩ with
        | some d =>
            simp only [hdata, Option.some.injEq, Prod.mk.injEq] at h
            exact Or.inl h.2.symm
        | none =>
            simp only [hdata, Option.some.injEq, Prod.mk.injEq] at h
            exact Or.inr ⟨t, _, rfl, hdata, h.2.symm⟩

/-- **A read changes nothing that is read.** -/
lemma seen_read {bytes : List UInt8} (h : imdRead ip cyl head sec = some (bytes, ip'))
    (c hd o : ℤ) : seen ip' c hd o = seen ip c hd o := by
  rcases read_cases h with rfl | ⟨t, k, hslot, hdata, rfl⟩
  · rfl
  · obtain ⟨h0, hlt, -⟩ := slot_track hslot
    have hsame : (Slot.track (t.put k fun _ => 0)).look o = (Slot.track t).look o := by
      rw [look_put]
      split_ifs with hk
      · have hin : translateSector t o < t.fixed.nsec.toNat := hk ▸ k.isLt
        have hk' : (⟨translateSector t o, hin⟩ : Fin t.fixed.nsec.toNat) = k := Fin.ext hk
        rw [Slot.look, dif_pos hin, hk', Track.sector, hdata]
        rfl
      · rfl
    have hslots : ((ip.setTrack (trknum cyl head) (t.put k fun _ => 0)).slot (trknum c hd)).look o =
        (ip.slot (trknum c hd)).look o := by
      rw [slot_setTrack h0 hlt]
      split_ifs with he
      · rw [hsame, he, hslot]
      · rfl
    rw [seen_eq, seen_eq, hslots]
    rfl

/-- The image after some reads. -/
def Later : Imd → Imd → Prop :=
  Relation.ReflTransGen fun ip ip' =>
    ∃ cyl head sec bytes, imdRead ip cyl head sec = some (bytes, ip')

lemma Later.seen (h : Later ip ip') (cyl head sec : ℤ) :
    seen ip' cyl head sec = seen ip cyl head sec := by
  induction h with
  | refl => rfl
  | tail _ hread ih =>
      obtain ⟨c, hd, o, bytes, hread⟩ := hread
      rw [seen_read hread, ih]

/-- Every image that the library has is in place. -/
lemma Reached.inPlace (h : Reached ip) : InPlace ip.tracks ip.cyls ip.heads := by
  induction h with
  | load hload => exact .load hload
  | write _ hwrite ih =>
      rcases write_cases hwrite with ⟨-, -, rfl⟩ | ⟨t, k, hslot, -, -, -, -, -, rfl⟩
      · exact ih
      · exact ih.setTrack hslot k _
  | read _ hread ih =>
      rcases read_cases hread with rfl | ⟨t, k, hslot, -, rfl⟩
      · exact ih
      · exact ih.setTrack hslot k _

end Seen

/-! ## Writing a sector -/

/-- The disk has the sector: a track with this cylinder and head has it. -/
def HasSector (ip : Imd) (cyl head sec : ℤ) : Prop :=
  ∃ t, ip.slot (trknum cyl head) = .track t ∧ (t.fixed.cyl.toNat : ℤ) = cyl ∧
    (t.fixed.side : ℤ) = head ∧ t.Has sec

/-- A write to a sector that is there changes what is read of it and of no other one, and a write to
one that is not there is refused and changes none. -/
structure Writes (ip : Imd) (cyl head sec : ℤ) (buf : Bytes) : Prop where
  here : HasSector ip cyl head sec → ∃ n ip', imdWrite ip cyl head sec buf = some (n, ip') ∧ n ≠ 0 ∧
    ∀ ip'', Later ip' ip'' → seen ip'' cyl head sec = some (List.ofFn fun j : Fin n => buf j) ∧
      ∀ c h o, HasSector ip c h o → (c, h, o) ≠ (cyl, head, sec) → seen ip'' c h o = seen ip c h o
  missing : ¬HasSector ip cyl head sec → ∃ ip', imdWrite ip cyl head sec buf = some (0, ip') ∧
    ∀ ip'', Later ip' ip'' → ∀ c h o, HasSector ip c h o → seen ip'' c h o = seen ip c h o

/-- The sector is on the disk, which has a delta file, and no other one is taken for the same index;
or it is not there and the write does not come to a track. -/
def Writable (ip : Imd) (cyl head sec : ℤ) : Prop :=
  (HasSector ip cyl head sec → ip.delta.isNone = false ∧
    ∀ t, ip.slot (trknum cyl head) = .track t → t.Alone sec) ∧
  (¬HasSector ip cyl head sec → cyl ≥ ip.cyls ∨ head ≥ ip.heads ∨ ip.delta.isNone = true)

section Writes

variable {ip : Imd} {cyl head sec : ℤ} {t : Track}

/-- A write that is refused. -/
lemma write_refused (h : cyl ≥ ip.cyls ∨ head ≥ ip.heads ∨ ip.delta.isNone = true) (buf : Bytes) :
    imdWrite ip cyl head sec buf = some (0, ip) := by
  rw [imdWrite]
  split_ifs with hrange hnone
  · rfl
  · rfl
  · tauto

/-- What is read after a write to a track that is there. -/
lemma seen_write (ht : ip.slot (trknum cyl head) = .track t) (k : Fin t.fixed.nsec.toNat)
    (buf : Bytes) (d : Delta) (c h o : ℤ) :
    seen { ip.setTrack (trknum cyl head) (t.put k fun j => buf j) with delta := d } c h o =
      if (c < ip.cyls ∧ h < ip.heads) ∧ trknum c h = trknum cyl head ∧ translateSector t o = k then
        some (List.ofFn fun j : Fin t.fixed.secsize => buf j)
      else seen ip c h o := by
  obtain ⟨h0, hlt, -⟩ := slot_track ht
  have hslot :
      ({ ip.setTrack (trknum cyl head) (t.put k fun j => buf j) with delta := d } : Imd).slot
        (trknum c h) = (ip.setTrack (trknum cyl head) (t.put k fun j => buf j)).slot (trknum c h) :=
    rfl
  rw [seen_eq, seen_eq, hslot, slot_setTrack h0 hlt]
  change (if c ≥ ip.cyls ∨ h ≥ ip.heads then some [] else _) = _
  by_cases hrange : c ≥ ip.cyls ∨ h ≥ ip.heads
  · rw [if_pos hrange, if_pos hrange, if_neg (by omega)]
  · rw [if_neg hrange, if_neg hrange]
    by_cases he : trknum c h = trknum cyl head
    · rw [if_pos he, look_put, he, ht]
      by_cases hk : translateSector t o = k
      · rw [if_pos hk, if_pos ⟨by omega, rfl, hk⟩]
      · rw [if_neg hk, if_neg fun hall => hk hall.2.2]
    · rw [if_neg he, if_neg fun hall => he hall.2.1]

/-- The slot and the track follow from the cylinder and the head. -/
lemma hasSector_iff (ht : ip.slot (trknum cyl head) = .track t) :
    HasSector ip cyl head sec ↔ (t.fixed.cyl.toNat : ℤ) = cyl ∧ (t.fixed.side : ℤ) = head ∧
      t.Has sec := by
  constructor
  · rintro ⟨t', ht', hcyl, hhead, hhas⟩
    cases ht.symm.trans ht'
    exact ⟨hcyl, hhead, hhas⟩
  · exact fun h => ⟨t, ht, h⟩

lemma Fixed.secsize_pos (x : Fixed) : 0 < x.secsize := Nat.mul_pos (by decide) (Nat.two_pow_pos _)

/-- Some buffer differs from what has been read. -/
lemma exists_other (n : ℕ) (hn : n ≠ 0) (x : Option (List UInt8)) :
    ∃ buf : Bytes, some (List.ofFn fun j : Fin n => buf j) ≠ x := by
  by_contra hall
  push Not at hall
  have heq := (hall fun _ => 0).trans (hall fun _ => 1).symm
  have hfun := List.ofFn_injective (Option.some.inj heq)
  exact absurd (congrFun hfun ⟨0, by omega⟩) (by decide)

/-- **Writing a sector.**  On every image that the library has, a write does what it should to a
sector, whatever is written, exactly if the image has a delta file, the track has the sector and no
other one is taken for its index, or it does not have it and the write does not come to a track. -/
theorem sector_written (hip : Reached ip) (cyl head sec : ℤ) :
    (∀ buf, Writes ip cyl head sec buf) ↔ Writable ip cyl head sec := by
  by_cases hhas : HasSector ip cyl head sec
  · obtain ⟨t, ht, hcyl, hhead, hsec⟩ := id hhas
    obtain ⟨-, hlt, htrack⟩ := slot_track ht
    obtain ⟨-, hc, hh⟩ := hip.inPlace _ t hlt htrack
    rw [hcyl] at hc
    rw [hhead] at hh
    have hk := translate_lt hsec
    have hwritable : Writable ip cyl head sec ↔ ip.delta.isNone = false ∧ t.Alone sec := by
      refine ⟨fun h => ⟨(h.1 hhas).1, (h.1 hhas).2 t ht⟩, fun h => ⟨fun _ => ⟨h.1, ?_⟩,
        fun hno => absurd hhas hno⟩⟩
      intro t' ht'
      cases ht.symm.trans ht'
      exact h.2
    rw [hwritable, alone_iff hsec]
    cases hd : ip.delta.isNone with
    | true =>
        -- nothing is written without a delta file
        refine iff_of_false (fun hall => ?_) (by simp)
        obtain ⟨n, ip', hrun, hn, -⟩ := (hall fun _ => 0).here hhas
        rw [write_refused (Or.inr (Or.inr hd))] at hrun
        cases hrun
        exact hn rfl
    | false =>
        rw [eq_self, true_and]
        have hrun := write_track hc hh hd ht
          (show translateSector t sec = (⟨_, hk⟩ : Fin t.fixed.nsec.toNat) from rfl)
        have hn : t.fixed.secsize ≠ 0 := t.fixed.secsize_pos.ne'
        constructor
        · intro hall o ho hne heq
          obtain ⟨buf, hbuf⟩ := exists_other t.fixed.secsize hn (seen ip cyl head o)
          obtain ⟨n, ip', hwrite, -, hlater⟩ := (hall buf).here hhas
          rw [hrun buf] at hwrite
          cases hwrite
          have hother := (hlater _ .refl).2 cyl head o ⟨t, ht, hcyl, hhead, ho⟩ (by simp [hne])
          rw [seen_write ht, if_pos ⟨⟨hc, hh⟩, rfl, heq⟩] at hother
          exact hbuf hother
        · intro halone buf
          refine ⟨fun _ => ⟨_, _, hrun buf, hn, fun ip'' hlater => ⟨?_, ?_⟩⟩,
            fun hno => absurd hhas hno⟩
          · rw [hlater.seen, seen_write ht, if_pos ⟨⟨hc, hh⟩, rfl, rfl⟩]
          · intro c h o hother hne
            rw [hlater.seen, seen_write ht]
            refine if_neg fun hall => ?_
            have hslot : ip.slot (trknum c h) = .track t := hall.2.1 ▸ ht
            obtain ⟨hc', hh', ho⟩ := (hasSector_iff hslot).mp hother
            have hne' : o ≠ sec := by
              rintro rfl
              exact hne (by rw [← hc', ← hh', hcyl, hhead])
            exact halone o ho hne' hall.2.2
  · have hwritable : Writable ip cyl head sec ↔
        cyl ≥ ip.cyls ∨ head ≥ ip.heads ∨ ip.delta.isNone = true :=
      ⟨fun h => h.2 hhas, fun h => ⟨fun hyes => absurd hyes hhas, fun _ => h⟩⟩
    rw [hwritable]
    constructor
    · intro hall
      obtain ⟨ip', hrun, -⟩ := (hall fun _ => 0).missing hhas
      rcases write_cases hrun with ⟨h, -⟩ | ⟨t, -, -, -, hn, -⟩
      · exact h
      · have hpos := t.fixed.secsize_pos
        omega
    · intro h buf
      exact ⟨fun hyes => absurd hyes hhas, fun _ => ⟨ip, write_refused h buf,
        fun ip'' hlater c hd o _ => hlater.seen c hd o⟩⟩

lemma not_writes {buf : Bytes} {n : ℕ} {ip' : Imd} (hno : ¬HasSector ip cyl head sec)
    (hrun : imdWrite ip cyl head sec buf = some (n, ip')) (hn : n ≠ 0) :
    ¬Writes ip cyl head sec buf := by
  intro h
  obtain ⟨_, hrun', -⟩ := h.missing hno
  cases hrun.symm.trans hrun'
  exact hn rfl

/-- One track with sectors 1 and 2. -/
def floppy : List UInt8 := [0x1a, 0, 0, 0, 2, 0, 1, 2, 2, 0, 2, 0]

def zeroed : Memory := ⟨fun _ => true, fun _ => 0, fun _ _ _ => 0⟩

/-- What it is in memory. -/
def floppyImd (d : Delta) : Imd :=
  let blank := Imd.blank 0 [0x1a] zeroed
  { ((loadTracks 11 (floppy.drop 1) blank).getD blank).counted with delta := d }

lemma floppy_load (delta : Option File) (create : Bool)
    (hd : openDelta create delta = .readWrite ⟨MAXDELTA, fun _ => 0⟩ ∨
      openDelta create delta = .readOnly ⟨MAXDELTA, fun _ => 0⟩) :
    imdLoad floppy delta 0 create zeroed = .loaded (floppyImd (openDelta create delta)) :=
  load_blank rfl rfl (by decide) hd

/-- The second sector can be written. -/
theorem sector_written_second : ∃ ip, Reached ip ∧ ∀ buf, Writes ip 0 0 2 buf := by
  have hload := floppy_load none true (Or.inl rfl)
  refine ⟨_, .load hload, (sector_written (.load hload) 0 0 2).mpr ⟨fun _ => ⟨rfl, fun t ht => ?_⟩,
    fun hno => absurd ?_ hno⟩⟩
  · cases ht
    exact Or.inr (by decide +kernel)
  · exact ⟨_, rfl, rfl, rfl, ⟨1, by decide⟩, by decide +kernel⟩

/-- There is no sector 9, and a write to it is not refused. -/
theorem sector_written_ninth : ∃ ip, Reached ip ∧ ¬HasSector ip 0 0 9 ∧
    (∃ ip', imdWrite ip 0 0 9 (fun _ => 1) = some (128, ip') ∧
      seen ip 0 0 1 = some (List.replicate 128 0) ∧ seen ip' 0 0 1 = some (List.replicate 128 1)) ∧
    ¬Writes ip 0 0 9 fun _ => 1 := by
  have hload := floppy_load none true (Or.inl rfl)
  refine ⟨_, .load hload, ?hno, ⟨_, rfl, by decide +kernel, by decide +kernel⟩,
    not_writes ?hno rfl (by decide)⟩
  rintro ⟨t, ht, -, -, i, hi⟩
  cases ht
  revert i
  decide +kernel

end Writes

end Imdlib

end Micronix
