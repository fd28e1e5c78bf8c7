import Micronix.Imdlib.Sectors

/-!
# The delta file

A delta file has a byte for each sector that says whether it has been written, and behind these a
place of 1024 bytes for each.  Laid over the tracks of the image it gives the tracks that the library
has in memory (`Shows`), so that an image that is loaded again reads as it did before (`delta_log`).
Only, a delta file that is open for reading does not get what `imd_write` has put into memory.
-/

namespace Micronix

namespace Imdlib

/-! ## Places in the file -/

namespace File

variable {f g : File} {trk trk' s s' : ℕ}

/-- The sector has been written. -/
def Dirty (f : File) (trk s : ℕ) : Prop := f.byte (dirtyOff trk s) = DELTA_YES

instance (f : File) (trk s : ℕ) : Decidable (f.Dirty trk s) :=
  inferInstanceAs (Decidable (f.byte _ = _))

/-- The bytes in the place of a sector. -/
def place (f : File) (trk s n : ℕ) : Fin n → UInt8 := fun j => f.byte (deltaOff trk s + j)

/-- A sector is written. -/
def put (f : File) (trk s : ℕ) {n : ℕ} (buf : Fin n → UInt8) : File :=
  (f.write (dirtyOff trk s) fun _ : Fin 1 => DELTA_YES).write (deltaOff trk s) buf

/-- It is as large as the library makes it. -/
def Full (f : File) : Prop := MAXDELTA ≤ f.size

/-- Two files with the same sectors. -/
def Agree (f g : File) : Prop := ∀ i < MAXDELTA, f.byte i = g.byte i

lemma dirtyOff_lt (htrk : trk < TRACKS) (hs : s < SECTORS) : dirtyOff trk s < DELTA_SIZE := by
  simp only [dirtyOff, DELTA_SIZE, TRACKS, CYLINDERS, HEADS, SECTORS] at *
  omega

/-- The places of the sectors are in the file. -/
lemma deltaOff_le (htrk : trk < TRACKS) (hs : s < SECTORS) :
    deltaOff trk s + MAXSECSIZE ≤ MAXDELTA := by
  simp only [MAXDELTA, deltaOff, dirtyOff, DELTA_SIZE, MAXSECSIZE, TRACKS, CYLINDERS, HEADS,
    SECTORS] at *
  omega

lemma dirtyOff_inj (hs : s < SECTORS) (hs' : s' < SECTORS) :
    dirtyOff trk s = dirtyOff trk' s' ↔ trk = trk' ∧ s = s' := by
  simp only [dirtyOff, SECTORS] at *
  omega

/-- What is in the file once a sector has been written. -/
lemma byte_put {n : ℕ} (buf : Fin n → UInt8) (hf : f.Full) {i : ℕ} (hi : i < MAXDELTA) :
    (f.put trk s buf).byte i =
      if h : deltaOff trk s ≤ i ∧ i < deltaOff trk s + n then buf ⟨i - deltaOff trk s, by omega⟩
      else if i = dirtyOff trk s then DELTA_YES else f.byte i := by
  rw [Full] at hf
  have hsize : i < (f.write (dirtyOff trk s) fun _ : Fin 1 => DELTA_YES).size :=
    (Nat.lt_of_lt_of_le hi hf).trans_le (le_max_left _ _)
  rw [put, File.write]
  dsimp only
  split_ifs with hin he
  · rfl
  · rw [File.write]
    dsimp only
    rw [dif_pos (by omega)]
  · rw [File.write]
    dsimp only
    rw [dif_neg (by omega), if_pos (by omega)]

lemma full_put {n : ℕ} (buf : Fin n → UInt8) (hf : f.Full) : (f.put trk s buf).Full := by
  rw [Full] at *
  rw [put, File.write, File.write]
  dsimp only
  omega

/-- The marks once a sector has been written. -/
lemma dirty_put {n : ℕ} (buf : Fin n → UInt8) (hf : f.Full) (htrk' : trk' < TRACKS)
    (hs : s < SECTORS) (hs' : s' < SECTORS) :
    (f.put trk s buf).Dirty trk' s' ↔ (trk' = trk ∧ s' = s) ∨ f.Dirty trk' s' := by
  have hlt := dirtyOff_lt htrk' hs'
  have hlow : DELTA_SIZE ≤ deltaOff trk s := by
    rw [deltaOff]
    omega
  rw [Dirty, byte_put buf hf (by rw [MAXDELTA, deltaOff]; omega), dif_neg (by omega),
    ← dirtyOff_inj hs' hs]
  split_ifs with he
  · simp [he]
  · simp [he, Dirty]

/-- The place of a sector that has been written. -/
lemma place_put_self {n : ℕ} (buf : Fin n → UInt8) (hf : f.Full) (htrk : trk < TRACKS)
    (hs : s < SECTORS) (hn : n ≤ MAXSECSIZE) : (f.put trk s buf).place trk s n = buf := by
  funext j
  have hle := deltaOff_le htrk hs
  rw [place, byte_put buf hf (by omega), dif_pos (by omega)]
  congr 1
  exact Fin.ext (Nat.add_sub_cancel_left _ _)

/-- The places do not overlap, and none of them overlaps the marks. -/
lemma place_put_of_ne {n m : ℕ} (buf : Fin n → UInt8) (hf : f.Full) (htrk : trk < TRACKS)
    (hs : s < SECTORS) (htrk' : trk' < TRACKS) (hs' : s' < SECTORS) (hn : n ≤ MAXSECSIZE)
    (hm : m ≤ MAXSECSIZE) (hne : ¬(trk' = trk ∧ s' = s)) :
    (f.put trk s buf).place trk' s' m = f.place trk' s' m := by
  funext j
  have hle := deltaOff_le htrk' hs'
  have hlt := dirtyOff_lt htrk hs
  rw [← dirtyOff_inj hs' hs] at hne
  rw [place, place, byte_put buf hf (by omega), dif_neg, if_neg]
  · rw [deltaOff]
    omega
  · simp only [deltaOff, MAXSECSIZE] at *
    omega

lemma Agree.dirty (h : f.Agree g) (htrk : trk < TRACKS) (hs : s < SECTORS) :
    f.Dirty trk s ↔ g.Dirty trk s := by
  have hlt := dirtyOff_lt htrk hs
  rw [Dirty, Dirty, h _ (by rw [MAXDELTA, deltaOff]; omega)]

lemma Agree.place (h : f.Agree g) (htrk : trk < TRACKS) (hs : s < SECTORS) {n : ℕ}
    (hn : n ≤ MAXSECSIZE) : f.place trk s n = g.place trk s n := by
  have hle := deltaOff_le htrk hs
  exact funext fun j => h _ (by omega)

end File

/-! ## A delta file over tracks -/

/-- The same track with other data. -/
def Track.over (t : Track) (data : Fin t.fixed.nsec.toNat → Option (Fin t.fixed.secsize → UInt8)) :
    Track := { t with data }

/-- What a delta file makes of a sector. -/
def File.patch (f : File) (trk : ℕ) (b : Track) (k : Fin b.fixed.nsec.toNat) :
    Fin b.fixed.secsize → UInt8 :=
  if f.Dirty trk k then f.place trk k b.fixed.secsize else (b.data k).getD fun _ => 0

/-- Indices of sectors and the bytes of a sector have their places in a delta file. -/
def Sized (B : ℕ → Slot) : Prop := ∀ trk b, trk < TRACKS → B trk = .track b →
  b.fixed.nsec.toNat ≤ SECTORS ∧ b.fixed.secsize ≤ MAXSECSIZE

/-- The sectors that have been written are there. -/
def Valid (f : File) (B : ℕ → Slot) : Prop := ∀ trk < TRACKS, ∀ s < SECTORS, f.Dirty trk s →
  ∃ b, B trk = .track b ∧ s < b.fixed.nsec.toNat

/-- Tracks `T` are tracks `B` with the delta file over them. -/
def Shows (f : File) (B T : ℕ → Slot) : Prop := ∀ trk < TRACKS,
  (∀ b, B trk = .track b →
    ∃ d, T trk = .track (b.over d) ∧ ∀ k, ((d k).getD fun _ => 0) = f.patch trk b k) ∧
  ((∀ b, B trk ≠ .track b) → ∀ t, T trk ≠ .track t)

section Replay

variable {mem : Memory} {f g : File} {B B' T T' : ℕ → Slot} {l : List (ℕ × ℕ × ℕ)} {trk : ℕ}

/-- The place of the index `s` on track `trk`. -/
def At (p : ℕ × ℕ × ℕ) (trk s : ℕ) : Prop := p.1 * HEADS + p.2.1 = trk ∧ p.2.2 = s

lemma exists_at {s : ℕ} (htrk : trk < TRACKS) (hs : s < SECTORS) : ∃ p ∈ places, At p trk s := by
  refine ⟨(trk / 2, trk % 2, s), mem_places.mpr ⟨?_, ?_, hs⟩, ?_, rfl⟩ <;>
    simp only [TRACKS, CYLINDERS, HEADS] at * <;> omega

lemma at_lt {p : ℕ × ℕ × ℕ} (hp : p ∈ places) {s : ℕ} (h : At p trk s) :
    trk < TRACKS ∧ s < SECTORS := by
  obtain ⟨cyl, head, sec⟩ := p
  obtain ⟨hc, hh, hs⟩ := mem_places.mp hp
  obtain ⟨rfl, rfl⟩ := h
  simp only [TRACKS, CYLINDERS, HEADS] at *
  omega

/-- What has come of the data of a sector after `done`. -/
def Came (f : File) (done : List (ℕ × ℕ × ℕ)) (trk : ℕ) (b : Track) (k : Fin b.fixed.nsec.toNat)
    (x : Option (Fin b.fixed.secsize → UInt8)) : Prop :=
  x = b.data k ∧ (∀ p ∈ done, At p trk k → ¬f.Dirty trk k) ∨
    x = some (f.place trk k b.fixed.secsize) ∧ f.Dirty trk k

/-- What some of the sectors make of the tracks, and that they are there. -/
structure Laid (f : File) (B : ℕ → Slot) (done : List (ℕ × ℕ × ℕ)) (T : ℕ → Slot) : Prop where
  tracks : ∀ trk b, B trk = .track b →
    ∃ d, T trk = .track (b.over d) ∧ ∀ k, Came f done trk b k (d k)
  others : ∀ trk, (∀ b, B trk ≠ .track b) → T trk = B trk
  valid : ∀ p ∈ done, ∀ trk s, At p trk s → f.Dirty trk s →
    ∃ b, B trk = .track b ∧ s < b.fixed.nsec.toNat

lemma deltaMap_eq (mem : Memory) (hf : f.Full) {s : ℕ} (htrk : trk < TRACKS) (hs : s < SECTORS) :
    deltaMap mem f (dirtyOff trk s) = DELTA_YES ↔ f.Dirty trk s := by
  have hlt := File.dirtyOff_lt htrk hs
  rw [File.Full, MAXDELTA, deltaOff] at hf
  rw [deltaMap, if_pos (by omega), File.Dirty]

lemma read_place (hf : f.Full) {s n : ℕ} (htrk : trk < TRACKS) (hs : s < SECTORS)
    (hn : n ≤ MAXSECSIZE) (old : Fin n → UInt8) :
    f.read (deltaOff trk s) old = f.place trk s n := by
  funext j
  have hle := File.deltaOff_le htrk hs
  rw [File.Full] at hf
  rw [File.read, if_pos (by omega), File.place]

section One

variable {cyl head s : ℕ}

/-- A sector that has not been written. -/
lemma apply_clean (hf : f.Full) (hp : (cyl, head, s) ∈ places)
    (hclean : ¬f.Dirty (cyl * HEADS + head) s) : applyDelta mem f T (cyl, head, s) = some T := by
  obtain ⟨htrk, hs⟩ := at_lt hp ⟨rfl, rfl⟩
  rw [← deltaMap_eq mem hf htrk hs] at hclean
  rw [applyDelta]
  exact if_neg hclean

/-- A sector that has been written gets its place in the file. -/
lemma apply_dirty (hf : f.Full) (hp : (cyl, head, s) ∈ places)
    (hdirty : f.Dirty (cyl * HEADS + head) s) {t : Track} (ht : T (cyl * HEADS + head) = .track t)
    (hin : s < t.fixed.nsec.toNat) (hsize : t.fixed.secsize ≤ MAXSECSIZE) :
    applyDelta mem f T (cyl, head, s) = some (Function.update T (cyl * HEADS + head)
      (.track (t.put ⟨s, hin⟩ (f.place (cyl * HEADS + head) s t.fixed.secsize)))) := by
  obtain ⟨htrk, hs⟩ := at_lt hp ⟨rfl, rfl⟩
  rw [← deltaMap_eq mem hf htrk hs] at hdirty
  rw [applyDelta]
  dsimp only
  rw [if_pos hdirty, ht]
  dsimp only
  rw [dif_pos hin, read_place hf htrk hs hsize]

lemma apply_track (hf : f.Full) (hp : (cyl, head, s) ∈ places)
    (hdirty : f.Dirty (cyl * HEADS + head) s)
    (happly : applyDelta mem f T (cyl, head, s) = some T') :
    ∃ t, T (cyl * HEADS + head) = .track t ∧ s < t.fixed.nsec.toNat := by
  obtain ⟨htrk, hs⟩ := at_lt hp ⟨rfl, rfl⟩
  rw [← deltaMap_eq mem hf htrk hs] at hdirty
  rw [applyDelta] at happly
  dsimp only at happly
  rw [if_pos hdirty] at happly
  cases ht : T (cyl * HEADS + head) with
  | null => simp [ht] at happly
  | wild => simp [ht] at happly
  | track t =>
      simp only [ht] at happly
      split_ifs at happly with hin
      exact ⟨t, rfl, hin⟩

end One

/-- The tracks that are there once some sectors have been laid over them. -/
lemma Laid.track {done : List (ℕ × ℕ × ℕ)} (h : Laid f B done T) {t : Track}
    (ht : T trk = .track t) :
    ∃ b d, B trk = .track b ∧ t = b.over d ∧ ∀ k, Came f done trk b k (d k) := by
  cases hb : B trk with
  | track b =>
      obtain ⟨d, hd, hdata⟩ := h.tracks trk b hb
      cases ht.symm.trans hd
      exact ⟨b, d, rfl, rfl, hdata⟩
  | null =>
      rw [h.others trk (by simp [hb]), hb] at ht
      cases ht
  | wild =>
      rw [h.others trk (by simp [hb]), hb] at ht
      cases ht

section Step

variable {done : List (ℕ × ℕ × ℕ)} {p : ℕ × ℕ × ℕ}

/-- An item that is another sector's, or of a sector that has not been written. -/
lemma Came.snoc {b : Track} {k : Fin b.fixed.nsec.toNat} {x} (h : Came f done trk b k x)
    (hp : At p trk k → ¬f.Dirty trk k) : Came f (done ++ [p]) trk b k x := by
  refine h.imp (fun hsame => ⟨hsame.1, fun q hq hat => ?_⟩) id
  rcases List.mem_append.mp hq with hq | hq
  · exact hsame.2 q hq hat
  · cases List.mem_singleton.mp hq
    exact hp hat

lemma Laid.valid_snoc (h : Laid f B done T) (hp : ∀ trk s, At p trk s → f.Dirty trk s →
    ∃ b, B trk = .track b ∧ s < b.fixed.nsec.toNat) :
    ∀ q ∈ done ++ [p], ∀ trk s, At q trk s → f.Dirty trk s →
      ∃ b, B trk = .track b ∧ s < b.fixed.nsec.toNat := by
  intro q hq trk s hat hdirty
  rcases List.mem_append.mp hq with hq | hq
  · exact h.valid q hq trk s hat hdirty
  · cases List.mem_singleton.mp hq
    exact hp trk s hat hdirty

/-- One sector more. -/
lemma Laid.step (hf : f.Full) (hB : Sized B) (h : Laid f B done T) (hp : p ∈ places)
    (happly : applyDelta mem f T p = some T') : Laid f B (done ++ [p]) T' := by
  obtain ⟨cyl, head, s⟩ := p
  obtain ⟨htrk, hs⟩ := at_lt hp ⟨rfl, rfl⟩
  by_cases hdirty : f.Dirty (cyl * HEADS + head) s
  · obtain ⟨t, ht, hin⟩ := apply_track hf hp hdirty happly
    obtain ⟨b, d, hb, rfl, hdata⟩ := h.track ht
    have hin' : s < b.fixed.nsec.toNat := hin
    rw [apply_dirty hf hp hdirty ht hin (hB _ b htrk hb).2] at happly
    cases Option.some.inj happly
    refine ⟨fun trk' b' hb' => ?_, fun trk' hno => ?_, h.valid_snoc fun trk' s' hat _ => ?_⟩
    · rcases eq_or_ne trk' (cyl * HEADS + head) with rfl | hne
      · cases hb.symm.trans hb'
        refine ⟨Function.update d ⟨s, hin'⟩ (some (f.place _ s _)), Function.update_self ..,
          fun k => ?_⟩
        rcases eq_or_ne k ⟨s, hin'⟩ with rfl | hk
        · exact Or.inr ⟨Function.update_self .., hdirty⟩
        · rw [Function.update_of_ne hk]
          exact (hdata k).snoc fun hat => absurd (Fin.ext hat.2.symm) hk
      · obtain ⟨d', hd', hdata'⟩ := h.tracks trk' b' hb'
        exact ⟨d', by rw [Function.update_of_ne hne, hd'],
          fun k => (hdata' k).snoc fun hat => absurd hat.1.symm hne⟩
    · have hne : trk' ≠ cyl * HEADS + head := by
        rintro rfl
        exact hno b hb
      rw [Function.update_of_ne hne, h.others trk' hno]
    · obtain ⟨rfl, rfl⟩ := hat
      exact ⟨b, hb, hin'⟩
  · rw [apply_clean hf hp hdirty] at happly
    cases Option.some.inj happly
    refine ⟨fun trk' b' hb' => ?_, h.others, h.valid_snoc fun trk' s' hat hd => ?_⟩
    · obtain ⟨d', hd', hdata'⟩ := h.tracks trk' b' hb'
      refine ⟨d', hd', fun k => (hdata' k).snoc fun hat => ?_⟩
      rw [← hat.1, ← hat.2]
      exact hdirty
    · obtain ⟨rfl, rfl⟩ := hat
      exact absurd hd hdirty

end Step

/-- All sectors. -/
lemma Laid.shows (h : Laid f B places T) (hB : Sized B) : Valid f B ∧ Shows f B T := by
  refine ⟨fun trk htrk s hs hdirty => ?_, fun trk htrk => ⟨fun b hb => ?_, fun hno t ht => ?_⟩⟩
  · obtain ⟨p, hp, hat⟩ := exists_at htrk hs
    exact h.valid p hp trk s hat hdirty
  · obtain ⟨d, hd, hdata⟩ := h.tracks trk b hb
    refine ⟨d, hd, fun k => ?_⟩
    rw [File.patch]
    rcases hdata k with ⟨hk, hclean⟩ | ⟨hk, hdirty⟩
    · obtain ⟨p, hp, hat⟩ := exists_at htrk (k.isLt.trans_le (hB trk b htrk hb).1)
      rw [if_neg (hclean p hp hat), hk]
    · rw [if_pos hdirty, hk]
      rfl
  · rw [h.others trk hno] at ht
    exact hno t ht

lemma Laid.nil : Laid f B [] B :=
  ⟨fun _ b hb => ⟨b.data, hb, fun _ => Or.inl ⟨rfl, fun _ hp => absurd hp List.not_mem_nil⟩⟩,
    fun _ _ => rfl, fun _ hp => absurd hp List.not_mem_nil⟩

/-- **A replay** that succeeds lays the delta file over the tracks. -/
lemma shows_of_replay (hf : f.Full) (hB : Sized B)
    (hrun : places.foldlM (applyDelta mem f) B = some T) : Valid f B ∧ Shows f B T :=
  (Replay.keeps (I := Laid f B) (fun _ _ hp _ _ h happly => h.step hf hB hp happly) .nil
    hrun).shows hB

/-- It succeeds if the sectors that have been written are there. -/
lemma replay_of_valid (mem : Memory) (hf : f.Full) (hB : Sized B) (hv : Valid f B) :
    ∃ T, places.foldlM (applyDelta mem f) B = some T := by
  refine Replay.runs (I := Laid f B) (fun done p hp T h => ?_) .nil
  obtain ⟨cyl, head, s⟩ := p
  obtain ⟨htrk, hs⟩ := at_lt hp ⟨rfl, rfl⟩
  suffices hsome : ∃ T', applyDelta mem f T (cyl, head, s) = some T' by
    obtain ⟨T', happly⟩ := hsome
    exact ⟨T', happly, h.step hf hB hp happly⟩
  by_cases hdirty : f.Dirty (cyl * HEADS + head) s
  · obtain ⟨b, hb, hin⟩ := hv _ htrk s hs hdirty
    obtain ⟨d, hd, -⟩ := h.tracks _ b hb
    exact ⟨_, apply_dirty hf hp hdirty hd hin (hB _ b htrk hb).2⟩
  · exact ⟨T, apply_clean hf hp hdirty⟩

end Replay

/-! ## Loading again -/

/-- The same tracks; what is not a track may be another pointer. -/
def SameTracks (T T' : ℕ → Slot) : Prop := ∀ trk t, T trk = .track t ↔ T' trk = .track t

/-- Two images with the same comment, counts and tracks. -/
structure Imd.Same (ip ip' : Imd) : Prop where
  comment : ip.comment = ip'.comment
  cyls : ip.cyls = ip'.cyls
  heads : ip.heads = ip'.heads
  tracks : SameTracks ip.tracks ip'.tracks

section Reload

variable {ip ip' ip₁ : Imd} {f g : File} {B B' T T' : ℕ → Slot} {mem : Memory}

lemma SameTracks.sized (h : SameTracks B B') (hB : Sized B) : Sized B' :=
  fun trk b htrk hb => hB trk b htrk ((h trk b).mpr hb)

lemma blank_same (drive drive' : ℤ) (comment : List UInt8) (mem mem' : Memory) :
    (Imd.blank drive comment mem).Same (Imd.blank drive' comment mem') := by
  refine ⟨rfl, rfl, rfl, fun trk t => iff_of_false ?_ ?_⟩ <;>
  · rw [Imd.blank]
    dsimp only
    split_ifs <;> simp

lemma addTrack_same (h : ip.Same ip') {t : Track} (hadd : addTrack ip t = some ip₁) :
    ∃ ip₁', addTrack ip' t = some ip₁' ∧ ip₁.Same ip₁' := by
  rw [addTrack] at hadd ⊢
  split_ifs at hadd ⊢ with hin
  cases Option.some.inj hadd
  refine ⟨_, rfl, h.comment, by rw [h.cyls], by rw [h.heads], fun trk u => ?_⟩
  dsimp only
  by_cases he : trk = t.fixed.cyl.toNat * HEADS + t.fixed.side
  · rw [he, Function.update_self, Function.update_self]
  · rw [Function.update_of_ne he, Function.update_of_ne he, h.tracks trk u]

/-- What is loaded does not depend on the pointers that nobody has set. -/
lemma loadTracks_same {n : ℕ} {img : List UInt8} (h : ip.Same ip')
    (hload : loadTracks n img ip = some ip₁) :
    ∃ ip₁', loadTracks n img ip' = some ip₁' ∧ ip₁.Same ip₁' := by
  induction n generalizing img ip ip' with
  | zero =>
      cases Option.some.inj hload
      exact ⟨ip', rfl, h⟩
  | succ n ih =>
      rw [loadTracks] at hload ⊢
      cases hgot : getTrack img with
      | outside => simp [hgot] at hload
      | stop =>
          simp only [hgot, Option.some.injEq] at hload ⊢
          exact ⟨ip', rfl, hload ▸ h⟩
      | track t rest =>
          simp only [hgot] at hload ⊢
          cases hadd : addTrack ip t with
          | none => simp [hadd] at hload
          | some ip₂ =>
              obtain ⟨ip₂', hadd', hsame⟩ := addTrack_same h hadd
              simp only [hadd, hadd'] at hload ⊢
              exact ih hsame hload

/-- What a delta file reads as; without one there is nothing written. -/
def Delta.file : Delta → File
  | .none => ⟨MAXDELTA, fun _ => 0⟩
  | .readOnly f | .readWrite f => f

lemma replay_file (mem : Memory) (ip : Imd) (d : Delta) : replay mem ip d =
    (places.foldlM (applyDelta mem d.file) ip.tracks).map fun tracks =>
      { ip with tracks, delta := d } := by
  cases d with
  | none =>
      rw [Delta.file, replay_blank mem _ (by decide)]
      rfl
  | readOnly f | readWrite f => rfl

/-- What is left on the host. -/
def Delta.kept : Delta → Option File
  | .none => Option.none
  | .readOnly f | .readWrite f => some f

/-- A file that is opened again. -/
lemma openDelta_kept (d : Delta) (hf : d.file.Full) (create : Bool) :
    (openDelta create d.kept).file.Full ∧ (openDelta create d.kept).file.Agree d.file := by
  have htruncate (f : File) (hf : f.Full) : (f.truncate MAXDELTA).Full ∧
      (f.truncate MAXDELTA).Agree f :=
    ⟨le_refl MAXDELTA, fun i hi => if_pos (Nat.lt_of_lt_of_le hi hf)⟩
  cases d with
  | none =>
      cases create <;> exact ⟨le_refl MAXDELTA, fun _ _ => rfl⟩
  | readOnly f | readWrite f =>
      cases create with
      | false => exact ⟨hf, fun _ _ => rfl⟩
      | true => exact htruncate f hf

lemma Valid.congr (hag : g.Agree f) (h : SameTracks B B') (hv : Valid f B) : Valid g B' := by
  intro trk htrk s hs hdirty
  obtain ⟨b, hb, hin⟩ := hv trk htrk s hs ((hag.dirty htrk hs).mp hdirty)
  exact ⟨b, (h trk b).mp hb, hin⟩

lemma look_over (b : Track) (d : Fin b.fixed.nsec.toNat → Option (Fin b.fixed.secsize → UInt8))
    (sec : ℤ) : (Slot.track (b.over d)).look sec =
      if h : translateSector b sec < b.fixed.nsec.toNat then
        some (List.ofFn ((d ⟨translateSector b sec, h⟩).getD fun _ => 0))
      else none := rfl

/-- Tracks that the same delta file lies over read the same. -/
lemma Shows.look (hag : g.Agree f) (hsame : SameTracks B B') (hB : Sized B) (h : Shows f B T)
    (h' : Shows g B' T') {trk : ℕ} (htrk : trk < TRACKS) (sec : ℤ) :
    (T' trk).look sec = (T trk).look sec := by
  by_cases hno : ∀ b, B trk ≠ .track b
  · have hlook {x : Slot} (hx : ∀ t, x ≠ .track t) : x.look sec = none := by
      cases x with
      | null | wild => rfl
      | track t => exact absurd rfl (hx t)
    have hno' : ∀ b, B' trk ≠ .track b := fun b hb => hno b ((hsame trk b).mpr hb)
    rw [hlook ((h trk htrk).2 hno), hlook ((h' trk htrk).2 hno')]
  · push Not at hno
    obtain ⟨b, hb⟩ := hno
    obtain ⟨d, hd, hdata⟩ := (h trk htrk).1 b hb
    obtain ⟨d', hd', hdata'⟩ := (h' trk htrk).1 b ((hsame trk b).mp hb)
    obtain ⟨hnsec, hsize⟩ := hB trk b htrk hb
    have hpatch (k : Fin b.fixed.nsec.toNat) : g.patch trk b k = f.patch trk b k := by
      have hk := k.isLt.trans_le hnsec
      rw [File.patch, File.patch, hag.place htrk hk hsize]
      simp only [hag.dirty htrk hk]
    rw [hd, hd', look_over, look_over]
    by_cases hin : translateSector b sec < b.fixed.nsec.toNat
    · rw [dif_pos hin, dif_pos hin, hdata', hdata, hpatch]
    · rw [dif_neg hin, dif_neg hin]

end Reload

/-! ## Writing and loading again -/

/-- A delta file that is open for reading has what is written already. -/
def Lasting (ip : Imd) (cyl head sec : ℤ) (buf : Bytes) : Prop :=
  (∃ f, ip.delta = .readOnly f) →
    ∃ n, seen ip cyl head sec = some (List.ofFn fun j : Fin n => buf j)

/-- Calls of `imd_write` and `imd_read` that come back. -/
inductive Session (ip : Imd) : Imd → Prop
  | start : Session ip ip
  | write {ip₁ ip₂ : Imd} {cyl head sec : ℤ} {buf : Bytes} {n : ℕ} : Session ip ip₁ →
      Lasting ip₁ cyl head sec buf → imdWrite ip₁ cyl head sec buf = some (n, ip₂) → Session ip ip₂
  | read {ip₁ ip₂ : Imd} {cyl head sec : ℤ} {bytes : List UInt8} : Session ip ip₁ →
      imdRead ip₁ cyl head sec = some (bytes, ip₂) → Session ip ip₂

/-- The original image, loaded with the delta file, reads as the image does. -/
def Reloads (img : List UInt8) (ip : Imd) : Prop := ∀ drive create mem, ∃ ip',
  imdLoad img ip.delta.kept drive create mem = .loaded ip' ∧
    ∀ cyl head sec, seen ip' cyl head sec = seen ip cyl head sec

/-- The image is what the delta file makes of the tracks of `base`. -/
structure Held (base ip : Imd) : Prop where
  cyls : ip.cyls = base.cyls
  heads : ip.heads = base.heads
  full : ip.delta.file.Full
  valid : Valid ip.delta.file base.tracks
  shows : Shows ip.delta.file base.tracks ip.tracks

section Session

variable {img : List UInt8} {base ip ip' : Imd} {cyl head sec : ℤ} {f g : File} {B T : ℕ → Slot}
  {mem : Memory} {trk : ℕ}

/-- One sector has other data, in memory and in the file. -/
lemma Shows.update (h : Shows f B T) {b : Track} {d} (hb : B trk = .track b)
    (hT : T trk = .track (b.over d)) {k : Fin b.fixed.nsec.toNat} {x : Fin b.fixed.secsize → UInt8}
    (hself : g.patch trk b k = x)
    (hother : ∀ trk' < TRACKS, ∀ b', B trk' = .track b' → ∀ j, ¬(trk' = trk ∧ j.val = k.val) →
      g.patch trk' b' j = f.patch trk' b' j) :
    Shows g B (Function.update T trk (.track ((b.over d).put k x))) := by
  intro trk' htrk'
  rcases eq_or_ne trk' trk with rfl | hne
  · refine ⟨fun b' hb' => ?_, fun hno => absurd hb (hno b)⟩
    cases hb.symm.trans hb'
    refine ⟨Function.update d k (some x), Function.update_self .., fun j => ?_⟩
    rcases eq_or_ne j k with rfl | hj
    · rw [Function.update_self, hself]
      rfl
    · obtain ⟨d', hd', hdata⟩ := (h trk' htrk').1 b hb
      cases hT.symm.trans hd'
      rw [Function.update_of_ne hj, hdata,
        hother trk' htrk' b hb j fun hat => hj (Fin.ext hat.2)]
  · rw [Function.update_of_ne hne]
    refine ⟨fun b' hb' => ?_, (h trk' htrk').2⟩
    obtain ⟨d', hd', hdata⟩ := (h trk' htrk').1 b' hb'
    exact ⟨d', hd', fun j => by rw [hdata, hother trk' htrk' b' hb' j fun hat => hne hat.1]⟩

/-- A track of the image, from the tracks under the delta file. -/
lemma Shows.track (h : Shows f B T) (htrk : trk < TRACKS) {t : Track} (ht : T trk = .track t) :
    ∃ b d, B trk = .track b ∧ t = b.over d ∧ ∀ k, ((d k).getD fun _ => 0) = f.patch trk b k := by
  by_cases hno : ∀ b, B trk ≠ .track b
  · exact absurd ht ((h trk htrk).2 hno t)
  · push Not at hno
    obtain ⟨b, hb⟩ := hno
    obtain ⟨d, hd, hdata⟩ := (h trk htrk).1 b hb
    cases ht.symm.trans hd
    exact ⟨b, d, hb, rfl, hdata⟩

/-- What a delta file makes of the sectors once one of them has been written. -/
lemma patch_put (hf : f.Full) (hB : Sized B) (htrk : trk < TRACKS) {b : Track}
    (hb : B trk = .track b) (k : Fin b.fixed.nsec.toNat) (x : Fin b.fixed.secsize → UInt8) :
    (f.put trk k x).patch trk b k = x ∧
      ∀ trk' < TRACKS, ∀ b', B trk' = .track b' → ∀ j, ¬(trk' = trk ∧ j.val = k.val) →
        (f.put trk k x).patch trk' b' j = f.patch trk' b' j := by
  have hk := k.isLt.trans_le (hB trk b htrk hb).1
  constructor
  · rw [File.patch, if_pos ((File.dirty_put x hf htrk hk hk).mpr (Or.inl ⟨rfl, rfl⟩)),
      File.place_put_self x hf htrk hk (hB trk b htrk hb).2]
  · intro trk' htrk' b' hb' j hne
    have hj := j.isLt.trans_le (hB trk' b' htrk' hb').1
    have hdirty : (f.put trk k x).Dirty trk' j ↔ f.Dirty trk' j := by
      rw [File.dirty_put x hf htrk' hk hj]
      tauto
    rw [File.patch, File.patch, File.place_put_of_ne x hf htrk hk htrk' hj (hB trk b htrk hb).2
      (hB trk' b' htrk' hb').2 hne]
    simp only [hdirty]

/-- **A write** keeps the image and its delta file together. -/
lemma Held.write (h : Held base ip) (hB : Sized base.tracks) {buf : Bytes} {n : ℕ}
    (hlast : Lasting ip cyl head sec buf) (hrun : imdWrite ip cyl head sec buf = some (n, ip')) :
    Held base ip' := by
  rcases write_cases hrun with ⟨-, -, rfl⟩ | ⟨t, k, hslot, hk, rfl, hc, hh, hsome, rfl⟩
  · exact h
  · obtain ⟨h0, htrk, ht⟩ := slot_track hslot
    obtain ⟨b, d, hb, rfl, hdata⟩ := h.shows.track htrk ht
    cases hd : ip.delta with
    | none => simp [hd, Delta.isNone] at hsome
    | readWrite f =>
        have hfull := h.full
        have hshows := h.shows
        have hvalid := h.valid
        rw [hd] at hfull hshows hvalid
        obtain ⟨hself, hother⟩ := patch_put hfull hB htrk hb k fun j => buf j
        refine ⟨h.cyls, h.heads, File.full_put _ hfull, fun trk' htrk' s hs hdirty => ?_,
          hshows.update hb ht hself hother⟩
        have hk' := k.isLt.trans_le (hB _ b htrk hb).1
        rcases (File.dirty_put _ hfull htrk' hk' hs).mp hdirty with ⟨rfl, rfl⟩ | hold
        · exact ⟨b, hb, k.isLt⟩
        · exact hvalid trk' htrk' s hs hold
    | readOnly f =>
        have hfull := h.full
        have hshows := h.shows
        have hvalid := h.valid
        rw [hd] at hfull hshows hvalid hdata
        -- the file has these bytes already
        obtain ⟨m, hm⟩ := hlast ⟨f, hd⟩
        rw [seen_eq, if_neg (by omega), hslot, look_over] at hm
        have hin : translateSector b sec < b.fixed.nsec.toNat := hk.trans_lt k.isLt
        have hk' : (⟨translateSector b sec, hin⟩ : Fin b.fixed.nsec.toNat) = k := Fin.ext hk
        rw [dif_pos hin, hk', Option.some.injEq] at hm
        obtain rfl : m = b.fixed.secsize := by simpa using (congrArg List.length hm).symm
        have hself : f.patch (trknum cyl head).toNat b k = fun j : Fin b.fixed.secsize => buf j :=
          (hdata k).symm.trans (List.ofFn_injective hm)
        exact ⟨h.cyls, h.heads, hfull, hvalid, hshows.update hb ht hself fun _ _ _ _ _ _ => rfl⟩

/-- A read puts zeros where zeros are read. -/
lemma Held.read (h : Held base ip) {bytes : List UInt8}
    (hrun : imdRead ip cyl head sec = some (bytes, ip')) : Held base ip' := by
  rcases read_cases hrun with rfl | ⟨t, k, hslot, hnone, rfl⟩
  · exact h
  · obtain ⟨h0, htrk, ht⟩ := slot_track hslot
    obtain ⟨b, d, hb, rfl, hdata⟩ := h.shows.track htrk ht
    have hself : ip.delta.file.patch (trknum cyl head).toNat b k = fun _ => 0 := by
      rw [← hdata k, show d k = none from hnone]
      rfl
    exact ⟨h.cyls, h.heads, h.full, h.valid, h.shows.update hb ht hself fun _ _ _ _ _ _ => rfl⟩

lemma Held.session (h : Held base ip) (hB : Sized base.tracks) (hrun : Session ip ip') :
    Held base ip' := by
  induction hrun with
  | start => exact h
  | write _ hlast hwrite ih => exact ih.write hB hlast hwrite
  | read _ hread ih => exact ih.read hread

/-- **Loading again** succeeds, and gives what the image reads as. -/
lemma Held.reloads {drive : ℤ} {comment rest : List UInt8} {ip₁ : Imd}
    (h : Held ip₁.counted ip) (hB : Sized ip₁.tracks)
    (hcomment : readComment img = some (comment, rest))
    (htracks : loadTracks rest.length rest (.blank drive comment mem) = some ip₁) :
    Reloads img ip := by
  intro drive' create mem'
  obtain ⟨ip₁', htracks', hsame⟩ :=
    loadTracks_same (blank_same drive drive' comment mem mem') htracks
  obtain ⟨hfull, hag⟩ := openDelta_kept ip.delta h.full create
  have hB' : Sized ip₁'.counted.tracks := hsame.tracks.sized hB
  obtain ⟨T, hT⟩ := replay_of_valid mem' hfull hB' (h.valid.congr hag hsame.tracks)
  obtain ⟨-, hshows⟩ := shows_of_replay hfull hB' hT
  have hreplay := replay_file mem' ip₁'.counted (openDelta create ip.delta.kept)
  rw [hT, Option.map_some] at hreplay
  refine ⟨_, loaded_iff.mpr ⟨comment, rest, ip₁', hcomment, htracks', hreplay⟩, fun c hd o => ?_⟩
  have hcyls : ip.cyls = ip₁'.counted.cyls := by
    rw [h.cyls, Imd.counted, Imd.counted, hsame.cyls]
  have hheads : ip.heads = ip₁'.counted.heads := by
    rw [h.heads, Imd.counted, Imd.counted, hsame.heads]
  rw [seen_eq, seen_eq, hcyls, hheads]
  congr 1
  rw [Imd.slot, Imd.slot]
  split_ifs with hin
  · exact h.shows.look hag hsame.tracks hB hshows (by omega) o
  · rfl

/-- A replay keeps the shape of each track. -/
lemma sized_of_replay (h : places.foldlM (applyDelta mem f) B = some T) (hT : Sized T) :
    Sized B := by
  have hshape : ∀ trk b, B trk = .track b → ∃ d, T trk = .track (b.over d) := by
    refine Replay.keeps
      (I := fun _ T => ∀ trk b, B trk = .track b → ∃ d, T trk = .track (b.over d))
      (fun _ p hp T T' hshape happly trk b hb => ?_) (fun trk b hb => ⟨b.data, hb⟩) h
    obtain ⟨d, hd⟩ := hshape trk b hb
    rcases apply_put hp happly with rfl | ⟨trk', t, k, x, -, ht, rfl⟩
    · exact ⟨d, hd⟩
    · rcases eq_or_ne trk trk' with rfl | hne
      · cases hd.symm.trans ht
        exact ⟨Function.update d k (some x), Function.update_self ..⟩
      · exact ⟨d, by rw [Function.update_of_ne hne, hd]⟩
  intro trk b htrk hb
  obtain ⟨d, hd⟩ := hshape trk b hb
  exact hT trk (b.over d) htrk hd

/-- An image that has been loaded. -/
lemma Held.load {delta : Option File} {drive : ℤ} {create : Bool}
    (hload : imdLoad img delta drive create mem = .loaded ip) (hsized : Sized ip.tracks)
    (hfull : (openDelta create delta).file.Full) :
    ∃ comment rest ip₁, readComment img = some (comment, rest) ∧
      loadTracks rest.length rest (.blank drive comment mem) = some ip₁ ∧ Sized ip₁.tracks ∧
      Held ip₁.counted ip := by
  obtain ⟨comment, rest, ip₁, hcomment, htracks, hreplay⟩ := loaded_iff.mp hload
  rw [replay_file] at hreplay
  obtain ⟨T, hT, rfl⟩ := Option.map_eq_some_iff.mp hreplay
  have hB : Sized ip₁.counted.tracks := sized_of_replay hT hsized
  obtain ⟨hvalid, hshows⟩ := shows_of_replay hfull hB hT
  exact ⟨comment, rest, ip₁, hcomment, htracks, hB, rfl, rfl, hfull, hvalid, hshows⟩

lemma openDelta_full {delta : Option File} {create : Bool}
    (h : create = true ∨ ∀ f ∈ delta, f.Full) : (openDelta create delta).file.Full := by
  cases create with
  | true => cases delta <;> exact le_refl MAXDELTA
  | false =>
      cases delta with
      | none => exact le_refl MAXDELTA
      | some f => exact (h.resolve_left Bool.false_ne_true) f rfl

/-- What is read after a write that comes back. -/
lemma seen_written {buf : Bytes} {n : ℕ} (hd : ip.delta.isNone = false)
    (h : imdWrite ip cyl head sec buf = some (n, ip')) :
    ∃ m, seen ip' cyl head sec = some (List.ofFn fun j : Fin m => buf j) := by
  rcases write_cases h with ⟨hrange, -, rfl⟩ | ⟨t, k, hslot, hk, rfl, hc, hh, -, rfl⟩
  · refine ⟨0, ?_⟩
    rw [seen_eq, if_pos (by simpa [hd] using hrange), List.ofFn_zero]
  · exact ⟨_, by rw [seen_write hslot, if_pos ⟨⟨hc, hh⟩, rfl, hk⟩]⟩

/-- **The delta log.**  An image that is loaded, with a full-sized delta file if that is only to be
read, and then written and read, reads the same when it is loaded again with its delta file, as long
as nothing new is written into an image whose delta file is open for reading.  A write of that kind
is lost. -/
theorem delta_log {delta : Option File} {drive : ℤ} {create : Bool}
    (hload : imdLoad img delta drive create mem = .loaded ip) (hsized : Sized ip.tracks)
    (hfull : create = true ∨ ∀ f ∈ delta, f.Full) (hrun : Session ip ip') :
    Reloads img ip' ∧ ∀ cyl head sec buf n ip'', imdWrite ip' cyl head sec buf = some (n, ip'') →
      (Reloads img ip'' ↔ Lasting ip' cyl head sec buf) := by
  obtain ⟨comment, rest, ip₁, hcomment, htracks, hB, hheld⟩ :=
    Held.load hload hsized (openDelta_full hfull)
  have hreloads {ip₂ : Imd} (hrun : Session ip ip₂) : Reloads img ip₂ :=
    (hheld.session hB hrun).reloads hB hcomment htracks
  refine ⟨hreloads hrun, fun cyl head sec buf n ip'' hwrite => ⟨fun hagain => ?_, fun hlast =>
    hreloads (.write hrun hlast hwrite)⟩⟩
  rintro ⟨f, hf⟩
  have hdelta : ip''.delta = ip'.delta := by
    rcases write_cases hwrite with ⟨-, -, rfl⟩ | ⟨t, k, -, -, -, -, -, -, rfl⟩
    · rfl
    · change ip'.delta.store _ _ _ = ip'.delta
      rw [hf]
      rfl
  -- both images are loaded again as one
  obtain ⟨ip₂, hload₂, hseen₂⟩ := hreloads hrun drive create mem
  obtain ⟨ip₃, hload₃, hseen₃⟩ := hagain drive create mem
  rw [hdelta, hload₂] at hload₃
  cases hload₃
  obtain ⟨m, hm⟩ := seen_written (by rw [hf]; rfl) hwrite
  exact ⟨m, by rw [← hseen₂, hseen₃, hm]⟩

lemma floppy_sized (d : Delta) : Sized (floppyImd d).tracks := by
  intro trk b _ hb
  have hb' : Function.update (fun _ => Slot.null) 0 _ trk = .track b := hb
  rcases eq_or_ne trk 0 with rfl | hne
  · cases hb'
    decide
  · rw [Function.update_of_ne hne] at hb'
    cases hb'

/-- A sector of the image of one track is written. -/
theorem delta_log_floppy : ∃ ip ip', imdLoad floppy none 0 true zeroed = .loaded ip ∧
    imdWrite ip 0 0 2 (fun _ => 1) = some (128, ip') ∧ Reloads floppy ip' := by
  have hload := floppy_load none true (Or.inl rfl)
  have hlast : Lasting (floppyImd (openDelta true none)) 0 0 2 fun _ => 1 :=
    fun ⟨f, hf⟩ => nomatch hf
  exact ⟨_, _, hload, rfl,
    (delta_log hload (floppy_sized _) (Or.inl rfl) (.write .start hlast rfl)).1⟩

/-- The same with a delta file that is open for reading: it reads 0 when it is loaded again. -/
theorem delta_log_lost : ∃ ip ip',
    imdLoad floppy (some ⟨MAXDELTA, fun _ => 0⟩) 0 false zeroed = .loaded ip ∧ Sized ip.tracks ∧
    imdWrite ip 0 0 2 (fun _ => 1) = some (128, ip') ∧
    seen ip' 0 0 2 = some (List.replicate 128 1) ∧ ¬Reloads floppy ip' := by
  have hload := floppy_load (some ⟨MAXDELTA, fun _ => 0⟩) false (Or.inr rfl)
  refine ⟨_, _, hload, floppy_sized _, rfl, by decide +kernel, fun h => ?_⟩
  obtain ⟨ip'', hagain, hseen⟩ := h 0 false zeroed
  cases hload.symm.trans hagain
  exact absurd (hseen 0 0 2) (by decide +kernel)

end Session

end Imdlib

end Micronix
