import Micronix.Mem.Transfer

/-!
# Swapping is transparent

The image of a process is what its segments held when it was swapped out, or what those of its parent held
when it was forked.  Until its blocks are written, the image is in the segments; from then until it is read
it is in the blocks; and afterwards in the segments that `mget` has found.  Each transfer is made with `lock`,
so that the static variables of `swapio` belong to one process at a time.
-/

namespace Micronix

namespace Swapping

open Memory Transition

variable {β : Type*} {bad : ℕ → Bool} {s s' : State β} {m : Memory.State} {x y t u c : ℕ} {i j k : ℕ}
  {lo hi blk size swapsize swapaddr : ℕ} {b : Buf}

namespace State

/-- The first block for entry `j` of process `t`. -/
def blkOf (s : State β) (t j : ℕ) : ℕ := (s.mem.proc t).swap + 8 * rank (s.mem.proc t).mem j

/-- Entry `j` of process `t` has been written to the swap device. -/
def Written (s : State β) (t j : ℕ) : Prop :=
  (s.mem.proc t).stat = .swapped ∨ (s.mem.proc t).stat = .entering ∨ s.lock = some t ∧ s.swab j = none

/-- The entry is in use. -/
def Full (s : State β) (t j : ℕ) : Prop := j < 17 ∧ ((s.mem.proc t).mem j).per = .full

/-- Where the image of process `t` is. -/
structure Fine (s : State β) (t : ℕ) : Prop where
  given : Away (s.mem.proc t).stat → s.given t ∈ s.live ∧ (s.mem.proc t).swap ≠ 0 ∧
    s.given t = ⟨(s.mem.proc t).nsegs * 8, (s.mem.proc t).swap⟩
  unused : Away (s.mem.proc t).stat → ∀ j < 17, ¬s.Full t j → s.image t j = none
  source : (s.mem.proc t).stat = .leaving ∨ (s.mem.proc t).stat = .forked → ∀ j, s.Full t j →
    s.image t j = some (s.core ((s.mem.proc t).mem j).seg)
  stored : Away (s.mem.proc t).stat → ∀ j, s.Full t j → s.Written t j →
    s.image t j = some (Window.get 8 s.disk (s.blkOf t j))
  loaded : (s.mem.proc t).stat = .entering → s.lock = some t → ∀ j, s.Full t j → s.swab j = none →
    s.image t j = some (s.core ((s.mem.proc t).mem j).seg)

/-- The requests are those of the process for which `lock` is held. -/
structure Requests (s : State β) : Prop where
  moves : ∀ t, s.lock = some t → Moves (s.mem.proc t).stat
  idle : s.lock = none → ∀ j, s.swab j = none
  bufs : ∀ t, s.lock = some t → ∀ j b, s.swab j = some b → s.i ≤ j ∧ s.Full t j ∧
    b = ⟨decide ((s.mem.proc t).stat = .entering), ((s.mem.proc t).mem j).seg, s.blkOf t j⟩

/-- What is true between any two steps. -/
structure Sound (bad : ℕ → Bool) (lo hi : ℕ) (s : State β) : Prop where
  mem : Memory.Inv bad s.mem
  forks : Forks s.mem
  map : ∃ L, s.swapmap.Sound lo hi s.live L
  apart : ∀ t u, t ≠ u → Away (s.mem.proc t).stat → Away (s.mem.proc u).stat →
    (s.given t).Apart (s.given u)
  requests : s.Requests
  fine : ∀ t, s.Fine t

/-! ## Frames -/

/-- The processes are the same but for where they sleep. -/
structure Same (p q : Proc) : Prop where
  stat : p.stat = q.stat
  nsegs : p.nsegs = q.nsegs
  mem : p.mem = q.mem
  swap : p.swap = q.swap

lemma Same.refl (p : Proc) : Same p p := ⟨rfl, rfl, rfl, rfl⟩

lemma Same.full (h : Same (s'.mem.proc t) (s.mem.proc t)) : s'.Full t j ↔ s.Full t j := by
  rw [Full, Full, h.mem]

lemma Same.blkOf (h : Same (s'.mem.proc t) (s.mem.proc t)) : s'.blkOf t j = s.blkOf t j := by
  rw [State.blkOf, State.blkOf, h.mem, h.swap]

/-- **Frame.**  A step is not about the process if it leaves its entry, its extent, its image, its segments
while it is on its way and its blocks as they are. -/
lemma Fine.congr (h : s.Fine t) (hp : Same (s'.mem.proc t) (s.mem.proc t))
    (hg : Away (s.mem.proc t).stat → s'.given t = s.given t ∧ s.given t ∈ s'.live)
    (himg : Away (s.mem.proc t).stat → s'.image t = s.image t)
    (hcore : Moves (s.mem.proc t).stat → ∀ j, s.Full t j →
      s'.core ((s.mem.proc t).mem j).seg = s.core ((s.mem.proc t).mem j).seg)
    (hdisk : Away (s.mem.proc t).stat → ∀ j, s.Full t j →
      Window.get 8 s'.disk (s.blkOf t j) = Window.get 8 s.disk (s.blkOf t j))
    (hl : s'.lock = some t → s.lock = some t ∧ ∀ j, s'.swab j = none → s.swab j = none) : s'.Fine t := by
  constructor
  · intro ha
    rw [hp.stat] at ha
    obtain ⟨hgt, hin⟩ := hg ha
    rw [hgt, hp.nsegs, hp.swap]
    exact ⟨hin, (h.given ha).2⟩
  · intro ha j hj hf
    rw [hp.stat] at ha
    rw [hp.full] at hf
    rw [himg ha]
    exact h.unused ha j hj hf
  · intro ht j hf
    rw [hp.stat] at ht
    rw [hp.full] at hf
    have hv : Moves (s.mem.proc t).stat := ht.elim Or.inl fun hf => Or.inr (Or.inl hf)
    rw [himg hv.away, hp.mem, hcore hv j hf]
    exact h.source ht j hf
  · intro ha j hf hw
    rw [hp.stat] at ha
    rw [hp.full] at hf
    rw [hp.blkOf, hdisk ha j hf, himg ha]
    refine h.stored ha j hf ?_
    rw [Written, hp.stat] at hw
    exact hw.imp_right fun hw => hw.imp_right fun ⟨hlt, hb⟩ => ⟨(hl hlt).1, (hl hlt).2 j hb⟩
  · intro ht hlt j hf hb
    rw [hp.stat] at ht
    rw [hp.full] at hf
    have hv : Moves (s.mem.proc t).stat := Or.inr (Or.inr ht)
    rw [himg hv.away, hp.mem, hcore hv j hf]
    exact h.loaded ht (hl hlt).1 j hf ((hl hlt).2 j hb)

/-- The image of the process is on the swap device. -/
lemma Fine.on_disk (h : s.Fine t) (ha : Away (s.mem.proc t).stat)
    (hw : ∀ j, s.Full t j → s.Written t j)
    (hst : (s'.mem.proc t).stat = .swapped ∨ (s'.mem.proc t).stat = .entering)
    (hn : (s'.mem.proc t).nsegs = (s.mem.proc t).nsegs)
    (hper : ∀ j, ((s'.mem.proc t).mem j).per = ((s.mem.proc t).mem j).per)
    (hswap : (s'.mem.proc t).swap = (s.mem.proc t).swap) (hg : s'.given t = s.given t)
    (hin : s.given t ∈ s'.live) (hd : s'.disk = s.disk) (himg : s'.image t = s.image t)
    (hl : s'.lock ≠ some t) : s'.Fine t := by
  have hfull (j : ℕ) : s'.Full t j ↔ s.Full t j := by rw [Full, Full, hper]
  refine ⟨fun _ => ?_, fun _ j hj hf => ?_, fun hs => ?_, fun _ j hf _ => ?_, fun _ hl' => absurd hl' hl⟩
  · rw [hg, hn, hswap]
    exact ⟨hin, (h.given ha).2⟩
  · rw [himg]
    exact h.unused ha j hj fun hfs => hf ((hfull j).mpr hfs)
  · rcases hst with hst | hst <;> rw [hst] at hs <;> rcases hs with hs | hs <;> cases hs
  · have hf : s.Full t j := (hfull j).mp hf
    rw [hd, himg, blkOf, hswap, rank_congr hper]
    exact h.stored ha j hf (hw j hf)

/-- Nothing is said of a process that is not away. -/
lemma Fine.of_not_away (h : ¬Away (s.mem.proc t).stat) : s.Fine t where
  given := fun ha => absurd ha h
  unused := fun ha => absurd ha h
  source := fun ht => absurd (ht.elim Or.inl fun hf => Or.inr (Or.inl hf)) h
  stored := fun ha => absurd ha h
  loaded := fun ht => absurd (Or.inr (Or.inr (Or.inr ht))) h

/-- The requests belong to a process that stays as it is. -/
lemma Requests.congr (h : s.Requests) (hlock : s'.lock = s.lock) (hi : s'.i = s.i)
    (hswab : s'.swab = s.swab)
    (hp : ∀ t, s.lock = some t → Same (s'.mem.proc t) (s.mem.proc t)) : s'.Requests := by
  refine ⟨fun t hl => ?_, fun hl => ?_, fun t hl j b hb => ?_⟩
  · rw [hlock] at hl
    rw [(hp t hl).stat]
    exact h.moves t hl
  · rw [hlock] at hl
    rw [hswab]
    exact h.idle hl
  · rw [hlock] at hl
    rw [hswab] at hb
    rw [hi, (hp t hl).full, (hp t hl).blkOf, (hp t hl).mem, (hp t hl).stat]
    exact h.bufs t hl j b hb

/-! ## Blocks -/

namespace Sound

/-- The blocks for an entry are in the extent of the process. -/
lemma blocks (h : s.Sound bad lo hi) (ha : Away (s.mem.proc t).stat) (hf : s.Full t j) :
    (s.given t).addr ≤ s.blkOf t j ∧ s.blkOf t j + 8 ≤ (s.given t).top := by
  obtain ⟨-, -, hg⟩ := (h.fine t).given ha
  have h1 := rank_lt hf.1 hf.2
  have h2 := rank_le_nsegs h.mem ha.alive
  rw [hg, blkOf, Extent.top]
  dsimp only
  omega

/-- No two entries have a block in common. -/
lemma blocks_apart (h : s.Sound bad lo hi) (ht : Away (s.mem.proc t).stat) (hu : Away (s.mem.proc u).stat)
    (hj : s.Full t j) (hk : s.Full u k) (hne : t ≠ u ∨ j ≠ k) :
    s.blkOf t j + 8 ≤ s.blkOf u k ∨ s.blkOf u k + 8 ≤ s.blkOf t j := by
  by_cases htu : t = u
  · subst htu
    have hjk : j ≠ k := hne.resolve_left fun hn => hn rfl
    rw [blkOf, blkOf]
    rcases Nat.lt_or_gt_of_ne hjk with hlt | hlt
    · have := rank_lt hlt hj.2
      omega
    · have := rank_lt hlt hk.2
      omega
  · obtain ⟨L, hL⟩ := h.map
    have h1 := h.blocks ht hj
    have h2 := h.blocks hu hk
    have hb := (h.apart t u htu ht hu).below (hL.live _ ((h.fine t).given ht).1)
      (hL.live _ ((h.fine u).given hu).1)
    rcases hb with hb | hb
    · unfold Extent.Below at hb
      omega
    · unfold Extent.Below at hb
      omega

/-- The process for which `lock` is held is not one that is in memory or on the swap device. -/
lemma lock_ne (h : s.Sound bad lo hi) (ht : ¬Moves (s.mem.proc t).stat) : s.lock ≠ some t :=
  fun hl => ht (h.requests.moves t hl)

/-! ## Steps that are not about the swap device -/

/-- A step that changes a process in memory, and not the segments of those on their way. -/
lemma still (h : s.Sound bad lo hi) {core : ℕ → Page β} {image : ℕ → ℕ → Option (Page β)}
    (hm : Memory.Inv bad m) (hfk : Forks m) (hsame : ∀ t, t ≠ x → m.proc t = s.mem.proc t)
    (hx : ¬Away (s.mem.proc x).stat) (hx' : ¬Away (m.proc x).stat)
    (himg : ∀ t, Away (s.mem.proc t).stat → image t = s.image t)
    (hcore : ∀ t, Moves (s.mem.proc t).stat → ∀ j < 17,
      core ((s.mem.proc t).mem j).seg = s.core ((s.mem.proc t).mem j).seg) :
    { s with mem := m, core := core, image := image }.Sound bad lo hi := by
  have hne (t : ℕ) (ha : Away (m.proc t).stat) : t ≠ x := fun htx => hx' (htx ▸ ha)
  refine ⟨hm, hfk, h.map, fun t u htu ht hu => ?_, ?_, fun t => ?_⟩
  · have hpt := hsame t (hne t ht)
    have hpu := hsame u (hne u hu)
    refine h.apart t u htu ?_ ?_
    · rw [← hpt]
      exact ht
    · rw [← hpu]
      exact hu
  · refine h.requests.congr rfl rfl rfl fun t hl => ?_
    have htx : t ≠ x := fun htx => hx (htx ▸ (h.requests.moves t hl).away)
    show Same (m.proc t) _
    rw [hsame t htx]
    exact Same.refl _
  · by_cases htx : t = x
    · subst htx
      exact .of_not_away hx'
    · refine (h.fine t).congr ?_ (fun ha => ⟨rfl, ((h.fine t).given ha).1⟩) (himg t)
        (fun hv j hf => hcore t hv j hf.1) (fun _ _ _ => rfl) fun hl => ⟨hl, fun _ => id⟩
      show Same (m.proc t) _
      rw [hsame t htx]
      exact Same.refl _

/-- A process writes to its memory. -/
lemma run (h : s.Sound bad lo hi) {page : Page β} (hr : (s.mem.proc x).Runs) (hlt : i < 17) :
    { s with core := Function.update s.core ((s.mem.proc x).mem i).seg page }.Sound bad lo hi := by
  have hx : ¬Away (s.mem.proc x).stat := by
    rw [hr.1]
    exact not_away_core
  refine h.still (x := x) h.mem h.forks (fun _ _ => rfl) hx hx (fun _ _ => rfl) fun t hv j hj => ?_
  refine Function.update_of_ne (mover_ne h.mem h.forks hv ?_ ?_ ?_ hj hlt) ..
  · rw [hr.1]
    trivial
  · rintro rfl
    exact hx hv.away
  · rw [hr.2]
    exact fun hs => by cases hs

/-! ## Swap space -/

/-- `salloc` for a process that has none. -/
lemma salloc (h : s.Sound bad lo hi) (ht : ¬Away (s.mem.proc t).stat) (hsize : 0 < size)
    (he : s.salloc t size = some (blk, s')) :
    s'.Sound bad lo hi ∧
      (∃ map live given, s' = { s with swapmap := map, live := live, given := given }) ∧
      (blk ≠ 0 → s'.given t = ⟨size, blk⟩ ∧ s'.given t ∈ s'.live ∧
        ∀ u, Away (s.mem.proc u).stat → (s'.given t).Apart (s'.given u)) := by
  obtain ⟨L, hL⟩ := h.map
  obtain ⟨o, map, L', ho, -, hL'⟩ := hL.salloc hsize
  rw [State.salloc, ho, Option.map_some] at he
  cases o with
  | none =>
      simp only [Option.some.injEq, Prod.mk.injEq] at he
      obtain ⟨rfl, rfl⟩ := he
      refine ⟨⟨h.mem, h.forks, ⟨L', hL'⟩, h.apart, ?_, fun u => ?_⟩, ⟨_, _, _, rfl⟩, fun hb => absurd rfl hb⟩
      · exact h.requests.congr rfl rfl rfl fun _ _ => Same.refl _
      · exact (h.fine u).congr (Same.refl _) (fun ha => ⟨rfl, ((h.fine u).given ha).1⟩) (fun _ => rfl)
          (fun _ _ _ => rfl) (fun _ _ _ => rfl) fun hl => ⟨hl, fun _ => id⟩
  | some a =>
      simp only [Option.some.injEq, Prod.mk.injEq] at he
      obtain ⟨rfl, rfl⟩ := he
      have hnew : ∀ e ∈ s.live, Extent.Apart ⟨size, a⟩ e :=
        (List.pairwise_cons.mp (List.pairwise_append.mp hL'.tiles.pairwise).2.1).1
      have hother (u : ℕ) (hu : Away (s.mem.proc u).stat) :
          Function.update s.given t ⟨size, a⟩ u = s.given u := by
        refine Function.update_of_ne ?_ ..
        rintro rfl
        exact ht hu
      refine ⟨⟨h.mem, h.forks, ⟨L', hL'⟩, fun u v huv hu hv => ?_, ?_, fun u => ?_⟩, ⟨_, _, _, rfl⟩,
        fun _ => ⟨Function.update_self .., ?_, fun u hu => ?_⟩⟩
      · dsimp only
        rw [hother u hu, hother v hv]
        exact h.apart u v huv hu hv
      · exact h.requests.congr rfl rfl rfl fun _ _ => Same.refl _
      · refine (h.fine u).congr (Same.refl _) (fun ha => ⟨hother u ha, ?_⟩) (fun _ => rfl)
          (fun _ _ _ => rfl) (fun _ _ _ => rfl) fun hl => ⟨hl, fun _ => id⟩
        exact List.mem_cons_of_mem _ ((h.fine u).given ha).1
      · dsimp only
        rw [Function.update_self]
        exact List.mem_cons_self
      · dsimp only
        rw [Function.update_self, hother u hu]
        exact hnew _ ((h.fine u).given hu).1

/-- Process `t` gets an extent and goes on its way, with what the segments of process `y` hold. -/
lemma depart (h : s.Sound bad lo hi) (hm : Memory.Inv bad m) (hfk : Forks m)
    (ht : ¬Away (s.mem.proc t).stat) (hsame : ∀ u, u ≠ t → Same (m.proc u) (s.mem.proc u))
    (hst : (m.proc t).stat = .leaving ∨ (m.proc t).stat = .forked)
    (hmem : (m.proc t).mem = (s.mem.proc y).mem) (hswap : (m.proc t).swap ≠ 0)
    (hg : s.given t = ⟨(m.proc t).nsegs * 8, (m.proc t).swap⟩) (hin : s.given t ∈ s.live)
    (hap : ∀ u, Away (s.mem.proc u).stat → (s.given t).Apart (s.given u)) :
    { s.keep t y with mem := m }.Sound bad lo hi := by
  have hlock : s.lock ≠ some t := h.lock_ne fun hv => ht hv.away
  have hback {u : ℕ} (hut : u ≠ t) (hu : Away (m.proc u).stat) : Away (s.mem.proc u).stat := by
    rw [← (hsame u hut).stat]
    exact hu
  refine ⟨hm, hfk, h.map, fun u v huv hu hv => ?_, ?_, fun u => ?_⟩
  · by_cases hut : u = t
    · subst hut
      exact hap v (hback huv.symm hv)
    · by_cases hvt : v = t
      · subst hvt
        exact fun b hb => hap u (hback hut hu) b hb.symm
      · exact h.apart u v huv (hback hut hu) (hback hvt hv)
  · refine h.requests.congr rfl rfl rfl fun u hl => hsame u ?_
    rintro rfl
    exact hlock hl
  · by_cases hut : u = t
    · subst hut
      have himg (j : ℕ) : { s.keep u y with mem := m }.image u j =
          if ((m.proc u).mem j).per = .full then some (s.core ((m.proc u).mem j).seg) else none := by
        show Function.update s.image u (s.pages y) u j = _
        rw [Function.update_self, pages, hmem]
      refine ⟨fun _ => ⟨hin, hswap, hg⟩, fun _ j hj hf => ?_, fun _ j hf => ?_, fun _ j hf hw => ?_,
        fun _ hl => ?_⟩
      · rw [himg, if_neg fun hp => hf ⟨hj, hp⟩]
      · rw [himg, if_pos hf.2]
        rfl
      · have hstat : (m.proc u).stat ≠ .swapped ∧ (m.proc u).stat ≠ .entering := by
          rcases hst with h | h <;> rw [h] <;> decide
        rcases hw with hw | hw | hw
        · exact absurd hw hstat.1
        · exact absurd hw hstat.2
        · exact absurd hw.1 hlock
      · exact absurd hl hlock
    · refine (h.fine u).congr (hsame u hut) (fun ha => ⟨rfl, ((h.fine u).given ha).1⟩)
        (fun _ => ?_) (fun _ _ _ => rfl) (fun _ _ _ => rfl) fun hl => ⟨hl, fun _ => id⟩
      exact Function.update_of_ne hut ..

/-- When the second loop of `swapio` is at its end, the driver has no request. -/
lemma served (h : s.Sound bad lo hi) (hf : s.finished t) (j : ℕ) : s.swab j = none := by
  cases hb : s.swab j with
  | none => rfl
  | some b =>
      obtain ⟨hle, hfull, -⟩ := h.requests.bufs t hf.1 j b hb
      have hlt := hfull.1
      have hi17 := hf.2
      omega

/-- `lock` is released, and process `t`, whose image has been written, is on the swap device. -/
lemma settle (h : s.Sound bad lo hi) (hm : Memory.Inv bad m) (hfk : Forks m) (hf : s.finished t)
    (hsame : ∀ u, u ≠ t → Same (m.proc u) (s.mem.proc u)) (hst : (m.proc t).stat = .swapped)
    (hn : (m.proc t).nsegs = (s.mem.proc t).nsegs)
    (hper : ∀ j, ((m.proc t).mem j).per = ((s.mem.proc t).mem j).per)
    (hswap : (m.proc t).swap = (s.mem.proc t).swap) :
    { s with mem := m, lock := none }.Sound bad lo hi := by
  have haway : Away (s.mem.proc t).stat := (h.requests.moves t hf.1).away
  have hback {u : ℕ} (hu : Away (m.proc u).stat) : Away (s.mem.proc u).stat := by
    by_cases hut : u = t
    · exact hut ▸ haway
    · rw [← (hsame u hut).stat]
      exact hu
  refine ⟨hm, hfk, h.map, fun u v huv hu hv => h.apart u v huv (hback hu) (hback hv), ?_, fun u => ?_⟩
  · exact ⟨fun u hu => (by cases hu), fun _ => h.served hf, fun u hu => (by cases hu)⟩
  · by_cases hut : u = t
    · subst hut
      refine (h.fine u).on_disk haway (fun j _ => ?_) (Or.inl hst) hn hper hswap rfl
        ((h.fine u).given haway).1 rfl rfl fun hl => by cases hl
      exact Or.inr (Or.inr ⟨hf.1, h.served hf j⟩)
    · exact (h.fine u).congr (hsame u hut) (fun ha => ⟨rfl, ((h.fine u).given ha).1⟩) (fun _ => rfl)
        (fun _ _ _ => rfl) (fun _ _ _ => rfl) fun hl => by cases hl

/-- A process that is on the swap device has got segments. -/
lemma enter (h : s.Sound bad lo hi) (hm : Memory.Inv bad m) (hfk : Forks m)
    (ht : (s.mem.proc t).stat = .swapped) (hsame : ∀ u, u ≠ t → Same (m.proc u) (s.mem.proc u))
    (hst : (m.proc t).stat = .entering) (hn : (m.proc t).nsegs = (s.mem.proc t).nsegs)
    (hper : ∀ j, ((m.proc t).mem j).per = ((s.mem.proc t).mem j).per)
    (hswap : (m.proc t).swap = (s.mem.proc t).swap) : { s with mem := m }.Sound bad lo hi := by
  have haway : Away (s.mem.proc t).stat := Or.inr (Or.inr (Or.inl ht))
  have hlock : s.lock ≠ some t := by
    refine h.lock_ne ?_
    rw [ht]
    decide
  have hback {u : ℕ} (hu : Away (m.proc u).stat) : Away (s.mem.proc u).stat := by
    by_cases hut : u = t
    · exact hut ▸ haway
    · rw [← (hsame u hut).stat]
      exact hu
  refine ⟨hm, hfk, h.map, fun u v huv hu hv => h.apart u v huv (hback hu) (hback hv), ?_, fun u => ?_⟩
  · refine h.requests.congr rfl rfl rfl fun u hl => hsame u ?_
    rintro rfl
    exact hlock hl
  · by_cases hut : u = t
    · subst hut
      exact (h.fine u).on_disk haway (fun _ _ => Or.inl ht) (Or.inr hst) hn hper hswap rfl
        ((h.fine u).given haway).1 rfl rfl hlock
    · exact (h.fine u).congr (hsame u hut) (fun ha => ⟨rfl, ((h.fine u).given ha).1⟩) (fun _ => rfl)
        (fun _ _ _ => rfl) (fun _ _ _ => rfl) fun hl => ⟨hl, fun _ => id⟩

/-- `sfree` of the extent of process `t`, which is loaded. -/
lemma load (h : s.Sound bad lo hi) {map : Swapmap} (hm : Memory.Inv bad m) (hfk : Forks m)
    (hf : s.finished t) (hsame : ∀ u, u ≠ t → Same (m.proc u) (s.mem.proc u))
    (hst : ¬Away (m.proc t).stat)
    (hfree : s.swapmap.sfree ((s.mem.proc t).nsegs * 8) (s.mem.proc t).swap = some map) :
    { s with mem := m, lock := none, swapmap := map, live := s.live.erase (s.given t) }.Sound
      bad lo hi := by
  have haway : Away (s.mem.proc t).stat := (h.requests.moves t hf.1).away
  obtain ⟨hin, -, hg⟩ := (h.fine t).given haway
  obtain ⟨L, hL⟩ := h.map
  have hback {u : ℕ} (hu : Away (m.proc u).stat) : u ≠ t ∧ Away (s.mem.proc u).stat := by
    have hut : u ≠ t := by
      rintro rfl
      exact hst hu
    refine ⟨hut, ?_⟩
    rw [← (hsame u hut).stat]
    exact hu
  have hfree : s.swapmap.sfree (s.given t).size (s.given t).addr = some map := by
    rw [hg]
    exact hfree
  -- a map without room is not written to
  have hroom : L.length + 2 ≤ Swapmap.mapsize := by
    by_contra hroom
    rw [hL.sfree_full hroom] at hfree
    cases hfree
  obtain ⟨A, B, map', -, -, hmap, hL'⟩ := hL.sfree hin hroom
  rw [hmap] at hfree
  obtain rfl := Option.some.inj hfree
  refine ⟨hm, hfk, ⟨_, hL'⟩, fun u v huv hu hv => h.apart u v huv (hback hu).2 (hback hv).2, ?_, fun u => ?_⟩
  · exact ⟨fun u hu => (by cases hu), fun _ => h.served hf, fun u hu => (by cases hu)⟩
  · by_cases hut : u = t
    · subst hut
      exact .of_not_away hst
    · refine (h.fine u).congr (hsame u hut) (fun ha => ⟨rfl, ?_⟩) (fun _ => rfl)
        (fun _ _ _ => rfl) (fun _ _ _ => rfl) fun hl => by cases hl
      refine (List.mem_erase_of_ne fun he => ?_).mpr ((h.fine u).given ha).1
      have hpos := hL.live _ hin
      refine h.apart u t hut ha haway (s.given t).addr ⟨?_, ?_⟩
      · rw [he]
        exact ⟨Nat.le_refl _, by unfold Extent.top; omega⟩
      · exact ⟨Nat.le_refl _, by unfold Extent.top; omega⟩

/-! ## `swapio` -/

/-- `swapio` has got `lock`. -/
lemma block (h : s.Sound bad lo hi) (hv : Moves (s.mem.proc t).stat) :
    (s.block t).Sound bad lo hi := by
  obtain ⟨L, hL⟩ := h.map
  obtain ⟨hin, -, hg⟩ := (h.fine t).given hv.away
  have hbound : (s.mem.proc t).swap + 8 * rank (s.mem.proc t).mem 17 < 65536 := by
    have h1 := rank_le_nsegs h.mem hv.away.alive
    have h2 := (hL.tiles.bounds (List.mem_append_right L hin) (hL.live _ hin)).2
    have h3 := hL.hi
    rw [hg, Extent.top] at h2
    dsimp only at h2
    omega
  let read := decide ((s.mem.proc t).stat = .entering)
  have hreq : ∀ j, (Swapping.requests read (s.mem.proc t).mem (s.mem.proc t).swap 17).2 j = _ :=
    (requests_spec hbound).2
  -- each entry has its request
  have hsome (j : ℕ) (hf : s.Full t j) (hn : (s.block t).swab j = none) : False := by
    have hb := (hreq j).trans (if_pos ⟨hf.1, hf.2⟩)
    exact absurd (hb.symm.trans hn) (by simp)
  refine ⟨h.mem, h.forks, h.map, h.apart, ⟨fun u hu => ?_, fun hn => (by cases hn), fun u hu j b hb => ?_⟩,
    fun u => ?_⟩
  · obtain rfl := Option.some.inj hu
    exact hv
  · obtain rfl := Option.some.inj hu
    have hb := (hreq j).symm.trans hb
    split_ifs at hb with hf
    exact ⟨Nat.zero_le j, hf, (Option.some.inj hb).symm⟩
  · by_cases hut : u = t
    · subst hut
      refine ⟨(h.fine u).given, (h.fine u).unused, (h.fine u).source, fun ha j hf hw => ?_,
        fun _ _ j hf hn => ?_⟩
      · refine (h.fine u).stored ha j hf (hw.imp_right fun hw => hw.imp_right fun hw => ?_)
        exact (hsome j hf hw.2).elim
      · exact (hsome j hf hn).elim
    · refine (h.fine u).congr (Same.refl _) (fun ha => ⟨rfl, ((h.fine u).given ha).1⟩) (fun _ => rfl)
        (fun _ _ _ => rfl) (fun _ _ _ => rfl) fun hl => absurd (Option.some.inj hl).symm hut

/-- The second loop of `swapio` goes on. -/
lemma bwait (h : s.Sound bad lo hi) (hl : s.lock = some t)
    (hb : ((s.mem.proc t).mem s.i).per = .full → s.swab s.i = none) :
    { s with i := s.i + 1 }.Sound bad lo hi := by
  refine ⟨h.mem, h.forks, h.map, h.apart, ⟨h.requests.moves, h.requests.idle, fun u hu j b hj => ?_⟩,
    fun u => ?_⟩
  · obtain ⟨hle, hf, he⟩ := h.requests.bufs u hu j b hj
    refine ⟨?_, hf, he⟩
    obtain rfl : t = u := Option.some.inj (hl.symm.trans hu)
    have hne : s.i ≠ j := by
      rintro rfl
      rw [hb hf.2] at hj
      cases hj
    show s.i + 1 ≤ j
    omega
  · exact (h.fine u).congr (Same.refl _) (fun ha => ⟨rfl, ((h.fine u).given ha).1⟩) (fun _ => rfl)
      (fun _ _ _ => rfl) (fun _ _ _ => rfl) fun hl => ⟨hl, fun _ => id⟩

/-- A process whose image is read is not the one in `fork`. -/
lemma entering_sleep (h : s.Sound bad lo hi) (ht : (s.mem.proc t).stat = .entering) :
    (s.mem.proc t).sleep ≠ .fork u := by
  intro hs
  have := (h.forks.parent t u hs).1
  rw [ht] at this
  cases this

/-- **A transfer.**  What is written is the image, in blocks of the process; what is read comes from there,
and goes to a segment of the process. -/
lemma transfer (h : s.Sound bad lo hi) (hb : s.swab j = some b) : (s.transfer j b).Sound bad lo hi := by
  obtain ⟨t, hl⟩ : ∃ t, s.lock = some t := by
    cases hl : s.lock with
    | some t => exact ⟨t, rfl⟩
    | none =>
        rw [h.requests.idle hl j] at hb
        cases hb
  have hv := h.requests.moves t hl
  have haway := hv.away
  obtain ⟨-, hf, he⟩ := h.requests.bufs t hl j b hb
  have hreqs (s' : State β) (hlock : s'.lock = s.lock) (hi' : s'.i = s.i)
      (hswab : s'.swab = Function.update s.swab j none) (hmem : s'.mem = s.mem) : s'.Requests := by
    refine ⟨fun u hu => ?_, fun hn => ?_, fun u hu k d hk => ?_⟩
    · rw [hmem]
      exact h.requests.moves u (hlock ▸ hu)
    · rw [hlock, hl] at hn
      cases hn
    · rw [hswab] at hk
      have hkj : k ≠ j := by
        rintro rfl
        rw [Function.update_self] at hk
        cases hk
      rw [Function.update_of_ne hkj] at hk
      rw [hi', Full, blkOf, hmem]
      exact h.requests.bufs u (hlock ▸ hu) k d hk
  -- a request that is done now is this one, or was done before
  have hdone {k : ℕ} (hk : Function.update s.swab j none k = none) : k = j ∨ s.swab k = none := by
    by_cases hkj : k = j
    · exact Or.inl hkj
    · rw [Function.update_of_ne hkj] at hk
      exact Or.inr hk
  by_cases hst : (s.mem.proc t).stat = .entering
  · have hread : b.read = true := by
      rw [he]
      simp [hst]
    have hseg : b.seg = ((s.mem.proc t).mem j).seg := by rw [he]
    have hblk : b.blk = s.blkOf t j := by rw [he]
    rw [State.transfer, if_pos hread]
    refine ⟨h.mem, h.forks, h.map, h.apart, hreqs _ rfl rfl rfl rfl, fun u => ?_⟩
    by_cases hut : u = t
    · subst hut
      refine ⟨(h.fine u).given, (h.fine u).unused, fun hs => ?_, fun _ k hk _ => ?_, fun _ _ k hk hn => ?_⟩
      · have hs : (s.mem.proc u).stat = .leaving ∨ (s.mem.proc u).stat = .forked := hs
        rw [hst] at hs
        rcases hs with hs | hs <;> cases hs
      · exact (h.fine u).stored haway k hk (Or.inr (Or.inl hst))
      · show s.image u k =
          some (Function.update s.core b.seg (Window.get 8 s.disk b.blk) ((s.mem.proc u).mem k).seg)
        rcases hdone hn with rfl | hearlier
        · rw [hseg, Function.update_self, hblk]
          exact (h.fine u).stored haway k hk (Or.inr (Or.inl hst))
        · rw [Function.update_of_ne]
          · exact (h.fine u).loaded hst hl k hk hearlier
          · rw [hseg]
            intro hkj
            obtain rfl := full_inj h.mem hst ((h.fine u).given haway).2.1 hk.1 hf.1 hk.2 hkj
            rw [hearlier] at hb
            cases hb
    · refine (h.fine u).congr (Same.refl _) (fun ha => ⟨rfl, ((h.fine u).given ha).1⟩) (fun _ => rfl)
        (fun hu k hk => ?_) (fun _ _ _ => rfl)
        fun hlu => absurd (Option.some.inj (hl.symm.trans hlu)).symm hut
      refine Function.update_of_ne ?_ ..
      rw [hseg]
      exact mover_ne h.mem h.forks hu (by rw [hst]; trivial) (Ne.symm hut) (h.entering_sleep hst) hk.1 hf.1
  · have hread : ¬b.read = true := by
      rw [he]
      simp [hst]
    have hblk : b.blk = s.blkOf t j := by rw [he]
    have hseg : b.seg = ((s.mem.proc t).mem j).seg := by rw [he]
    have hsrc : (s.mem.proc t).stat = .leaving ∨ (s.mem.proc t).stat = .forked := by
      rcases hv with hv | hv | hv
      · exact Or.inl hv
      · exact Or.inr hv
      · exact absurd hv hst
    rw [State.transfer, if_neg hread]
    refine ⟨h.mem, h.forks, h.map, h.apart, hreqs _ rfl rfl rfl rfl, fun u => ?_⟩
    have hapart {k : ℕ} (hu : Away (s.mem.proc u).stat) (hk : s.Full u k) (hne : t ≠ u ∨ j ≠ k) :
        Window.get 8 (Window.put s.disk b.blk (s.core b.seg)) (s.blkOf u k) =
          Window.get 8 s.disk (s.blkOf u k) := by
      rw [hblk]
      exact Window.get_put_of_apart (h.blocks_apart haway hu hf hk hne).symm
    by_cases hut : u = t
    · subst hut
      refine ⟨(h.fine u).given, (h.fine u).unused, (h.fine u).source, fun _ k hk hw => ?_,
        fun hs => absurd hs hst⟩
      show s.image u k = some (Window.get 8 (Window.put s.disk b.blk (s.core b.seg)) (s.blkOf u k))
      by_cases hkj : k = j
      · subst hkj
        rw [hblk, Window.get_put, hseg]
        exact (h.fine u).source hsrc k hk
      · rw [hapart haway hk (Or.inr (Ne.symm hkj))]
        refine (h.fine u).stored haway k hk (hw.imp_right fun hw => hw.imp_right fun ⟨_, hn⟩ => ⟨hl, ?_⟩)
        exact (hdone hn).resolve_left hkj
    · exact (h.fine u).congr (Same.refl _) (fun ha => ⟨rfl, ((h.fine u).given ha).1⟩) (fun _ => rfl)
        (fun _ _ _ => rfl) (fun ha k hk => hapart ha hk (Or.inl (Ne.symm hut)))
        fun hlu => absurd (Option.some.inj (hl.symm.trans hlu)).symm hut

/-! ## The calls -/

/-- A process that is alive has a segment. -/
lemma nsegs_pos (h : s.Sound bad lo hi) (ha : (s.mem.proc t).stat.Alive) :
    0 < (s.mem.proc t).nsegs * 8 := by
  have h1 := rank_lt (show 16 < 17 by decide) (h.mem.shape t ha).user
  have h2 := rank_le_nsegs h.mem ha
  omega

/-- `fork` through memory: the child has what `bankcopy` has copied. -/
lemma fork_core {r : Pool × Proc} (h : s.Sound bad lo hi)
    (hget : s.mem.pool.mget { s.mem.proc x with stat := .core } = some r)
    (he : Memory.step s.mem (.fork x c 0) = some m) :
    m = s.mem.put c r ∧ (m.proc c).stat = .core ∧
      { s.keep c x with mem := m, core := bankcopy (s.mem.proc x).mem r.2.mem s.core 17 }.Sound bad lo hi ∧
      ∀ j < 17, { s.keep c x with
        mem := m, core := bankcopy (s.mem.proc x).mem r.2.mem s.core 17 }.pages c j = s.pages x j := by
  have hm := h.mem.step he
  have hfk := h.forks.step he
  simp only [Memory.step, Option.ite_none_right_eq_some, Option.some.injEq] at he
  obtain ⟨⟨hr, hfree⟩, he⟩ := he
  rw [Memory.procopy, hget] at he
  subst he
  obtain ⟨map, hmap, hper⟩ := mget_keeps hget
  have hxc : x ≠ c := by
    rintro rfl
    rw [hr.1] at hfree
    cases hfree
  have hne (t : ℕ) (ht : t ≠ c) : (s.mem.put c r).proc t = s.mem.proc t := Function.update_of_ne ht ..
  have hat : (s.mem.put c r).proc c = r.2 := Function.update_self ..
  have hcore : ((s.mem.put c r).proc c).stat = .core := by rw [hat, hmap]
  have hsleep (t : ℕ) : ((s.mem.put c r).proc c).sleep ≠ .fork t := by
    rw [hat, hmap]
    intro hs
    have hs : (s.mem.proc x).sleep = .fork t := hs
    rw [hr.2] at hs
    cases hs
  have hholds : ((s.mem.put c r).proc c).stat.Holds := by
    rw [hcore]
    trivial
  have hc : ¬Away (s.mem.proc c).stat := by
    rw [hfree]
    rintro (h | h | h | h) <;> cases h
  have hx : ((s.mem.put c r).proc x).stat.Holds := by
    rw [hne x hxc, hr.1]
    trivial
  refine ⟨rfl, hcore, h.still hm hfk hne hc (by rw [hcore]; exact not_away_core) (fun t ha => ?_)
    fun t hv j hj => ?_, fun j hj => ?_⟩
  · refine Function.update_of_ne ?_ ..
    rintro rfl
    exact hc ha
  · -- the child's segments are nobody else's
    have htc : t ≠ c := by
      rintro rfl
      exact hc hv.away
    refine bankcopy_frame fun i hlt => ?_
    have hseg := mover_ne hm hfk (t := t) (by rw [hne t htc]; exact hv) hholds htc.symm (hsleep t) hj hlt
    rw [hne t htc, hat] at hseg
    exact hseg.symm
  · have hmem : ((s.mem.put c r).proc c).mem = r.2.mem := by rw [hat]
    have hperj (k : ℕ) : (r.2.mem k).per = ((s.mem.proc x).mem k).per := by
      rw [hmap]
      exact hper k
    show (if (((s.mem.put c r).proc c).mem j).per = .full then
      some (bankcopy (s.mem.proc x).mem r.2.mem s.core 17 (((s.mem.put c r).proc c).mem j).seg) else none) = _
    rw [hmem, hperj, pages]
    split_ifs with hf
    · refine congrArg some (bankcopy_spec (fun a ha b hb => ?_) (fun a ha b hb hfa hfb hab => ?_) hj hf)
      · have := seg_ne hm hxc.symm hholds hx ha hb
        rwa [hmem, hne x hxc] at this
      · have h0 : c ≠ 0 := h.mem.ne_zero (by rw [hfree]; decide)
        refine (hm.layout c h0 (Or.inl hcore)).own ha hb ?_ (by rw [hmem]; exact hab)
        rintro (hg | ⟨hg, -⟩)
        · rw [hmem, hperj, hfa] at hg
          cases hg
        · rw [hat, hmap] at hg
          have hg : (s.mem.proc x).sleep = .grow a := hg
          rw [hr.2] at hg
          cases hg
    · rfl

/-- `fork` through swap space: the child has an extent, or there is none and its entry is zero. -/
lemma fork_swap (h : s.Sound bad lo hi)
    (hget : s.mem.pool.mget { s.mem.proc x with stat := .core } = none)
    (ha : s.salloc c ((s.mem.proc x).nsegs * 8) = some (blk, s'))
    (he : Memory.step s.mem (.fork x c blk) = some m) :
    { s'.keep c x with mem := m }.Sound bad lo hi ∧ (m.proc c).stat ≠ .core := by
  have hm := h.mem.step he
  have hfk := h.forks.step he
  simp only [Memory.step, Option.ite_none_right_eq_some, Option.some.injEq] at he
  obtain ⟨⟨hr, hfree⟩, he⟩ := he
  have hc : ¬Away (s.mem.proc c).stat := by
    rw [hfree]
    rintro (h | h | h | h) <;> cases h
  have hxc : x ≠ c := by
    rintro rfl
    rw [hr.1] at hfree
    cases hfree
  obtain ⟨hs', ⟨map, live, given, rfl⟩, hext⟩ :=
    h.salloc hc (h.nsegs_pos (by rw [hr.1]; trivial)) ha
  rw [Memory.procopy, hget] at he
  dsimp only at he
  by_cases hb : blk = 0
  · rw [if_pos hb] at he
    subst he
    have hat : (s.mem.put c (s.mem.pool, .zero)).proc c = .zero := Function.update_self ..
    refine ⟨hs'.still hm hfk (fun t ht => Function.update_of_ne ht ..) hc ?_ (fun t ht => ?_)
      fun _ _ _ _ => rfl, ?_⟩
    · rw [hat]
      rintro (h | h | h | h) <;> cases h
    · refine Function.update_of_ne ?_ ..
      rintro rfl
      exact hc ht
    · rw [hat]
      decide
  · rw [if_neg hb] at he
    set y : Proc := { s.mem.proc x with stat := .forked, swap := blk } with hy
    have hx' : m.proc x = { s.mem.proc x with sleep := .fork c } := by
      rw [← he]
      exact Function.update_self ..
    have hc' : m.proc c = y := by
      rw [← he]
      exact (Function.update_of_ne hxc.symm ..).trans (Function.update_self ..)
    obtain ⟨hg, hin, hap⟩ := hext hb
    refine ⟨hs'.depart hm hfk hc (fun u hu => ?_) (Or.inr (by rw [hc'])) (by rw [hc']) ?_ ?_ hin hap, ?_⟩
    · by_cases hux : u = x
      · subst hux
        rw [hx']
        exact ⟨rfl, rfl, rfl, rfl⟩
      · rw [← he, show ((s.mem.put c _).put x _).proc u = s.mem.proc u from
          (Function.update_of_ne hux ..).trans (Function.update_of_ne hu ..)]
        exact Same.refl _
    · rw [hc']
      exact hb
    · rw [hc']
      exact hg
    · rw [hc']
      exact fun hcore => by cases hcore

/-- `swapout` up to `swapio`: the process has an extent, or there is none and it stays. -/
lemma swapout (h : s.Sound bad lo hi) (ha : s.salloc x ((s.mem.proc x).nsegs * 8) = some (blk, s'))
    (he : Memory.step s.mem (.swapout x blk) = some m) : { s'.keep x x with mem := m }.Sound bad lo hi := by
  have hm := h.mem.step he
  have hfk := h.forks.step he
  simp only [Memory.step, Option.ite_none_right_eq_some, Option.some.injEq] at he
  obtain ⟨⟨-, hcore, -⟩, he⟩ := he
  have hx : ¬Away (s.mem.proc x).stat := by
    rw [hcore]
    exact not_away_core
  obtain ⟨hs', ⟨map, live, given, rfl⟩, hext⟩ :=
    h.salloc hx (h.nsegs_pos (by rw [hcore]; trivial)) ha
  have hne (u : ℕ) (hu : u ≠ x) : m.proc u = s.mem.proc u := by
    rw [← he]
    exact Function.update_of_ne hu ..
  have hat : m.proc x = Memory.swapout (s.mem.proc x) blk := by
    rw [← he]
    exact Function.update_self ..
  by_cases hb : blk = 0
  · refine hs'.still hm hfk hne hx ?_ (fun t ht => ?_) fun _ _ _ _ => rfl
    · rw [hat, Memory.swapout, if_pos hb]
      exact hx
    · refine Function.update_of_ne ?_ ..
      rintro rfl
      exact hx ht
  · obtain ⟨hg, hin, hap⟩ := hext hb
    rw [Memory.swapout, if_neg hb] at hat
    refine hs'.depart hm hfk hx (fun u hu => ?_) (Or.inl (by rw [hat])) (by rw [hat]) ?_ ?_ hin hap
    · rw [hne u hu]
      exact Same.refl _
    · rw [hat]
      exact hb
    · rw [hat]
      exact hg

/-- **The step.** -/
theorem step {l : Label β} (h : s.Sound bad lo hi) (he : step s l = some s') : s'.Sound bad lo hi := by
  have hother {x : ℕ} {r : Pool × Proc} (u : ℕ) (hu : u ≠ x) :
      Same ((s.mem.put x r).proc u) (s.mem.proc u) := by
    rw [show (s.mem.put x r).proc u = s.mem.proc u from Function.update_of_ne hu ..]
    exact Same.refl _
  have hat {x : ℕ} {r : Pool × Proc} : (s.mem.put x r).proc x = r.2 := Function.update_self ..
  cases l with
  | mem l =>
      rw [Swapping.step, Option.ite_none_right_eq_some] at he
      obtain ⟨hl, he⟩ := he
      obtain ⟨m, hstep, rfl⟩ := Option.map_eq_some_iff.mp he
      obtain ⟨x, hsame, hx, hx', -⟩ := local_frame hl hstep fun a c hs => (h.forks.parent a c hs).1
      exact h.still (h.mem.step hstep) (h.forks.step hstep) hsame hx.1 hx'.1 (fun _ _ => rfl)
        fun _ _ _ _ => rfl
  | run x i page =>
      rw [Swapping.step, Option.ite_none_right_eq_some] at he
      obtain ⟨⟨hr, hlt, -⟩, he⟩ := he
      obtain rfl := Option.some.inj he
      exact h.run hr hlt
  | fork x c =>
      have he : s.fork x c = some s' := he
      rw [fork] at he
      split at he
      · rename_i r hget
        obtain ⟨m, hstep, rfl⟩ := Option.map_eq_some_iff.mp he
        exact (h.fork_core hget hstep).2.2.1
      · rename_i hget
        obtain ⟨⟨blk, s1⟩, ha, he⟩ := Option.bind_eq_some_iff.mp he
        obtain ⟨m, hstep, rfl⟩ := Option.map_eq_some_iff.mp he
        exact (h.fork_swap hget ha hstep).1
  | forked x c =>
      rw [Swapping.step, Option.ite_none_right_eq_some] at he
      obtain ⟨⟨hf, hs⟩, he⟩ := he
      obtain ⟨m, hstep, rfl⟩ := Option.map_eq_some_iff.mp he
      have hm := h.mem.step hstep
      have hfk := h.forks.step hstep
      simp only [Memory.step, hs, Option.ite_none_right_eq_some, Option.some.injEq] at hstep
      obtain ⟨hst, rfl⟩ := hstep
      have hcore := (h.forks.parent x c hs).1
      have hxc : c ≠ x := by
        rintro rfl
        rw [hcore] at hst
        cases hst
      have hc' : (((s.mem.put c (s.mem.pool, { s.mem.proc c with stat := .swapped })).put x
          (s.mem.pool, { s.mem.proc x with sleep := .no })).proc c) =
          { s.mem.proc c with stat := .swapped } :=
        (Function.update_of_ne hxc ..).trans (Function.update_self ..)
      refine h.settle hm hfk hf (fun u hu => ?_) ?_ ?_ ?_ ?_
      · by_cases hux : u = x
        · subst hux
          rw [show (((s.mem.put c _).put u _).proc u) = _ from Function.update_self ..]
          exact ⟨rfl, rfl, rfl, rfl⟩
        · rw [show ((s.mem.put c _).put x _).proc u = s.mem.proc u from
            (Function.update_of_ne hux ..).trans (Function.update_of_ne hu ..)]
          exact Same.refl _
      · rw [hc']
      · rw [hc']
      · intro j
        rw [hc']
      · rw [hc']
  | swapout x =>
      have he : s.swapout x = some s' := he
      rw [State.swapout] at he
      obtain ⟨⟨blk, s1⟩, ha, he⟩ := Option.bind_eq_some_iff.mp he
      obtain ⟨m, hstep, rfl⟩ := Option.map_eq_some_iff.mp he
      exact h.swapout ha hstep
  | swappedOut x =>
      rw [Swapping.step, Option.ite_none_right_eq_some] at he
      obtain ⟨hf, he⟩ := he
      obtain ⟨m, hstep, rfl⟩ := Option.map_eq_some_iff.mp he
      have hm := h.mem.step hstep
      have hfk := h.forks.step hstep
      simp only [Memory.step, Option.ite_none_right_eq_some, Option.some.injEq] at hstep
      obtain ⟨-, rfl⟩ := hstep
      refine h.settle hm hfk hf hother ?_ ?_ ?_ ?_
      · rw [hat]
        rfl
      · rw [hat]
        rfl
      · intro j
        rw [hat]
        show (if j < 17 then (⟨0, ((s.mem.proc x).mem j).per⟩ : Seg) else (s.mem.proc x).mem j).per = _
        split_ifs <;> rfl
      · rw [hat]
        rfl
  | swapin x =>
      obtain ⟨m, hstep, rfl⟩ := Option.map_eq_some_iff.mp he
      have hm := h.mem.step hstep
      have hfk := h.forks.step hstep
      simp only [Memory.step, Option.ite_none_right_eq_some, Option.some.injEq] at hstep
      obtain ⟨hst, hstep⟩ := hstep
      split at hstep
      · rename_i r hget
        subst hstep
        obtain ⟨map, hmap, hper⟩ := mget_keeps hget
        refine h.enter hm hfk hst hother ?_ ?_ (fun j => ?_) ?_
        · rw [hat, hmap]
        · rw [hat, hmap]
        · rw [hat, hmap]
          exact hper j
        · rw [hat, hmap]
      · subst hstep
        exact h
  | swappedIn x =>
      rw [Swapping.step, Option.ite_none_right_eq_some] at he
      obtain ⟨hf, he⟩ := he
      obtain ⟨map, hfree, he⟩ := Option.bind_eq_some_iff.mp he
      obtain ⟨m, hstep, rfl⟩ := Option.map_eq_some_iff.mp he
      have hm := h.mem.step hstep
      have hfk := h.forks.step hstep
      simp only [Memory.step, Option.ite_none_right_eq_some, Option.some.injEq] at hstep
      obtain ⟨-, rfl⟩ := hstep
      refine h.load hm hfk hf hother ?_ hfree
      rw [hat]
      exact not_away_core
  | block x =>
      rw [Swapping.step, Option.ite_none_right_eq_some] at he
      obtain ⟨⟨-, hv⟩, he⟩ := he
      obtain rfl := Option.some.inj he
      exact h.block hv
  | transfer j =>
      obtain ⟨b, hb, rfl⟩ := Option.map_eq_some_iff.mp he
      exact h.transfer hb
  | bwait =>
      rw [Swapping.step] at he
      split at he
      · cases he
      · rename_i t hl
        rw [Option.ite_none_right_eq_some] at he
        obtain ⟨⟨-, hb⟩, he⟩ := he
        obtain rfl := Option.some.inj he
        exact h.bwait hl hb

/-- When `swapio` has read the last segment of a process, the process has its image. -/
lemma read_back (h : s.Sound bad lo hi) (hf : s.finished t) (hst : (s.mem.proc t).stat = .entering)
    (hj : j < 17) : s.pages t j = s.image t j := by
  rw [pages]
  split_ifs with hp
  · exact ((h.fine t).loaded hst hf.1 j ⟨hj, hp⟩ (h.served hf j)).symm
  · exact ((h.fine t).unused (h.requests.moves t hf.1).away j hj fun hfull => hp hfull.2).symm

/-- **A process is loaded** by `fork`, or by `swapin`: it has its image. -/
theorem loads {l : Label β} (h : s.Sound bad lo hi) (he : Swapping.step s l = some s')
    (hs : (s.mem.proc t).stat ≠ .core) (hs' : (s'.mem.proc t).stat = .core) (hj : j < 17) :
    s'.pages t j = s'.image t j := by
  have hne {x : ℕ} {r : Pool × Proc} (u : ℕ) (hu : u ≠ x) : (s.mem.put x r).proc u = s.mem.proc u :=
    Function.update_of_ne hu ..
  have hat {x : ℕ} {r : Pool × Proc} : (s.mem.put x r).proc x = r.2 := Function.update_self ..
  -- only a process that is changed can be loaded
  have hchanged {x : ℕ} {r : Pool × Proc} (hr : ((s.mem.put x r).proc t).stat = .core) : t = x := by
    by_contra htx
    rw [hne t htx] at hr
    exact hs hr
  cases l with
  | mem l =>
      rw [Swapping.step, Option.ite_none_right_eq_some] at he
      obtain ⟨hl, he⟩ := he
      obtain ⟨m, hstep, rfl⟩ := Option.map_eq_some_iff.mp he
      obtain ⟨x, hsame, -, -, hcore⟩ := local_frame hl hstep fun a c hs => (h.forks.parent a c hs).1
      by_cases htx : t = x
      · subst htx
        exact absurd (hcore hs') hs
      · have hs' : (m.proc t).stat = .core := hs'
        rw [hsame t htx] at hs'
        exact absurd hs' hs
  | run x i page =>
      rw [Swapping.step, Option.ite_none_right_eq_some] at he
      obtain ⟨-, he⟩ := he
      obtain rfl := Option.some.inj he
      exact absurd hs' hs
  | fork x c =>
      have he : s.fork x c = some s' := he
      rw [fork] at he
      split at he
      · rename_i r hget
        obtain ⟨m, hstep, rfl⟩ := Option.map_eq_some_iff.mp he
        obtain ⟨hm, -, -, hpages⟩ := h.fork_core hget hstep
        subst hm
        obtain rfl := hchanged hs'
        rw [hpages j hj]
        show _ = Function.update s.image t (s.pages x) t j
        rw [Function.update_self]
      · rename_i hget
        obtain ⟨⟨blk, s1⟩, ha, he⟩ := Option.bind_eq_some_iff.mp he
        obtain ⟨m, hstep, rfl⟩ := Option.map_eq_some_iff.mp he
        have hnot := (h.fork_swap hget ha hstep).2
        have htc : t ≠ c := by
          rintro rfl
          exact hnot hs'
        simp only [Memory.step, Option.ite_none_right_eq_some, Option.some.injEq] at hstep
        obtain ⟨⟨hr, -⟩, rfl⟩ := hstep
        have htx : t ≠ x := by
          rintro rfl
          exact hs hr.1
        have hs' : ((Memory.procopy s.mem x c blk).proc t).stat = .core := hs'
        rw [Memory.procopy, hget] at hs'
        dsimp only at hs'
        split_ifs at hs'
        · exact absurd (hchanged hs') htc
        · rw [show ((s.mem.put c _).put x _).proc t = s.mem.proc t from
            (Function.update_of_ne htx ..).trans (Function.update_of_ne htc ..)] at hs'
          exact absurd hs' hs
  | forked x c =>
      rw [Swapping.step, Option.ite_none_right_eq_some] at he
      obtain ⟨⟨-, hsl⟩, he⟩ := he
      obtain ⟨m, hstep, rfl⟩ := Option.map_eq_some_iff.mp he
      simp only [Memory.step, hsl, Option.ite_none_right_eq_some, Option.some.injEq] at hstep
      obtain ⟨-, rfl⟩ := hstep
      have htx : t ≠ x := by
        rintro rfl
        exact hs (h.forks.parent t c hsl).1
      have hs' : (((s.mem.put c _).put x _).proc t).stat = .core := hs'
      rw [show ((s.mem.put c _).put x _).proc t = (s.mem.put c _).proc t from
        Function.update_of_ne htx ..] at hs'
      obtain rfl := hchanged hs'
      rw [hat] at hs'
      cases hs'
  | swapout x =>
      have he : s.swapout x = some s' := he
      rw [State.swapout] at he
      obtain ⟨⟨blk, s1⟩, -, he⟩ := Option.bind_eq_some_iff.mp he
      obtain ⟨m, hstep, rfl⟩ := Option.map_eq_some_iff.mp he
      simp only [Memory.step, Option.ite_none_right_eq_some, Option.some.injEq] at hstep
      obtain ⟨⟨-, hcore, -⟩, rfl⟩ := hstep
      obtain rfl := hchanged hs'
      exact absurd hcore hs
  | swappedOut x =>
      rw [Swapping.step, Option.ite_none_right_eq_some] at he
      obtain ⟨-, he⟩ := he
      obtain ⟨m, hstep, rfl⟩ := Option.map_eq_some_iff.mp he
      simp only [Memory.step, Option.ite_none_right_eq_some, Option.some.injEq] at hstep
      obtain ⟨-, rfl⟩ := hstep
      obtain rfl := hchanged hs'
      have hs' : ((s.mem.put t _).proc t).stat = .core := hs'
      rw [hat] at hs'
      cases hs'
  | swapin x =>
      obtain ⟨m, hstep, rfl⟩ := Option.map_eq_some_iff.mp he
      simp only [Memory.step, Option.ite_none_right_eq_some, Option.some.injEq] at hstep
      obtain ⟨-, hstep⟩ := hstep
      split at hstep
      · rename_i r hget
        subst hstep
        obtain ⟨map, hmap, -⟩ := mget_keeps hget
        obtain rfl := hchanged hs'
        have hs' : ((s.mem.put t r).proc t).stat = .core := hs'
        rw [hat, hmap] at hs'
        cases hs'
      · subst hstep
        exact absurd hs' hs
  | swappedIn x =>
      rw [Swapping.step, Option.ite_none_right_eq_some] at he
      obtain ⟨hf, he⟩ := he
      obtain ⟨map, -, he⟩ := Option.bind_eq_some_iff.mp he
      obtain ⟨m, hstep, rfl⟩ := Option.map_eq_some_iff.mp he
      simp only [Memory.step, Option.ite_none_right_eq_some, Option.some.injEq] at hstep
      obtain ⟨hst, rfl⟩ := hstep
      obtain rfl := hchanged hs'
      have hmem : ((s.mem.put t (s.mem.pool, { s.mem.proc t with stat := .core })).proc t).mem =
          (s.mem.proc t).mem := by rw [hat]
      have hback := h.read_back hf hst hj
      rw [pages] at hback
      show (if (((s.mem.put t _).proc t).mem j).per = .full then
        some (s.core (((s.mem.put t _).proc t).mem j).seg) else none) = s.image t j
      rw [hmem]
      exact hback
  | block x =>
      rw [Swapping.step, Option.ite_none_right_eq_some] at he
      obtain ⟨-, he⟩ := he
      obtain rfl := Option.some.inj he
      exact absurd hs' hs
  | transfer k =>
      obtain ⟨b, -, rfl⟩ := Option.map_eq_some_iff.mp he
      refine absurd ?_ hs
      rw [State.transfer] at hs'
      split_ifs at hs' <;> exact hs'
  | bwait =>
      rw [Swapping.step] at he
      split at he
      · cases he
      · rw [Option.ite_none_right_eq_some] at he
        obtain ⟨-, he⟩ := he
        obtain rfl := Option.some.inj he
        exact absurd hs' hs

end Sound

/-- The image of a process is that of itself when it is swapped out, or of its parent when it is forked, and
no other step changes it. -/
lemma image_step {l : Label β} (he : step s l = some s') (t : ℕ) :
    s'.image t = s.image t ∨ l = .swapout t ∧ s'.image t = s.pages t ∨
      ∃ x, l = .fork x t ∧ s'.image t = s.pages x := by
  have hkeep (s₀ : State β) (u x : ℕ) (hs : s₀.mem = s.mem) (hc : s₀.core = s.core)
      (hi : s₀.image = s.image) :
      (s₀.keep u x).image t = s.image t ∨ u = t ∧ (s₀.keep u x).image t = s.pages x := by
    have hpages : s₀.pages x = s.pages x := by
      funext i
      rw [pages, pages, hs, hc]
    by_cases htu : t = u
    · subst htu
      refine Or.inr ⟨rfl, ?_⟩
      rw [keep]
      dsimp only
      rw [Function.update_self, hpages]
    · refine Or.inl ?_
      rw [keep]
      dsimp only
      rw [Function.update_of_ne htu, hi]
  have hsalloc {u size blk : ℕ} {s₁ : State β} (ha : s.salloc u size = some (blk, s₁)) :
      s₁.mem = s.mem ∧ s₁.core = s.core ∧ s₁.image = s.image := by
    obtain ⟨⟨o, map⟩, -, ha⟩ := Option.map_eq_some_iff.mp ha
    cases o <;>
    · obtain ⟨-, rfl⟩ := Prod.mk.inj ha
      exact ⟨rfl, rfl, rfl⟩
  cases l with
  | fork x c =>
      have he : s.fork x c = some s' := he
      rw [fork] at he
      split at he
      · obtain ⟨m, -, rfl⟩ := Option.map_eq_some_iff.mp he
        rcases hkeep s c x rfl rfl rfl with hk | ⟨rfl, hk⟩
        · exact Or.inl hk
        · exact Or.inr (Or.inr ⟨x, rfl, hk⟩)
      · obtain ⟨⟨blk, s₁⟩, ha, he⟩ := Option.bind_eq_some_iff.mp he
        obtain ⟨m, -, rfl⟩ := Option.map_eq_some_iff.mp he
        obtain ⟨h1, h2, h3⟩ := hsalloc ha
        rcases hkeep s₁ c x h1 h2 h3 with hk | ⟨rfl, hk⟩
        · exact Or.inl hk
        · exact Or.inr (Or.inr ⟨x, rfl, hk⟩)
  | swapout x =>
      have he : s.swapout x = some s' := he
      rw [State.swapout] at he
      obtain ⟨⟨blk, s₁⟩, ha, he⟩ := Option.bind_eq_some_iff.mp he
      obtain ⟨m, -, rfl⟩ := Option.map_eq_some_iff.mp he
      obtain ⟨h1, h2, h3⟩ := hsalloc ha
      rcases hkeep s₁ x x h1 h2 h3 with hk | ⟨rfl, hk⟩
      · exact Or.inl hk
      · exact Or.inr (Or.inl ⟨rfl, hk⟩)
  | transfer k =>
      obtain ⟨b, -, rfl⟩ := Option.map_eq_some_iff.mp he
      refine Or.inl ?_
      rw [transfer]
      split_ifs <;> rfl
  | swappedIn x =>
      rw [step, Option.ite_none_right_eq_some] at he
      obtain ⟨map, -, he⟩ := Option.bind_eq_some_iff.mp he.2
      obtain ⟨m, -, rfl⟩ := Option.map_eq_some_iff.mp he
      exact Or.inl rfl
  | swapin x =>
      obtain ⟨m, -, rfl⟩ := Option.map_eq_some_iff.mp he
      exact Or.inl rfl
  | bwait =>
      rw [step] at he
      split at he
      · cases he
      · rw [Option.ite_none_right_eq_some] at he
        obtain rfl := Option.some.inj he.2
        exact Or.inl rfl
  | run x i page =>
      rw [step, Option.ite_none_right_eq_some] at he
      obtain rfl := Option.some.inj he.2
      exact Or.inl rfl
  | block x =>
      rw [step, Option.ite_none_right_eq_some] at he
      obtain rfl := Option.some.inj he.2
      exact Or.inl rfl
  | _ =>
      rw [step, Option.ite_none_right_eq_some] at he
      obtain ⟨m, -, rfl⟩ := Option.map_eq_some_iff.mp he.2
      exact Or.inl rfl

end State

/-! ## Runs -/

/-- After `pinit`, `meminit` and `swapinit`. -/
lemma Start.sound (h : Start bad swapsize swapaddr s) (hspace : swapaddr + swapsize ≤ 65535) :
    s.Sound bad swapaddr (swapaddr + swapsize) := by
  have hproc (t : ℕ) : s.mem.proc t = if t = 0 then pinit else .zero := by rw [show s.mem = _ from h.mem]
  have hnot (t : ℕ) : ¬Away (s.mem.proc t).stat := by
    rw [hproc]
    split_ifs <;> rintro (h | h | h | h) <;> cases h
  have hsleep (t : ℕ) : (s.mem.proc t).sleep = .no := by
    rw [hproc]
    split_ifs <;> rfl
  refine ⟨h.mem.inv, ⟨fun x c hs => ?_, fun x y c hs => ?_, fun c hs => ?_⟩, ?_,
    fun t _ _ ht => absurd ht (hnot t), ⟨fun t hl => ?_, fun _ => h.swab, fun t hl => ?_⟩,
    fun t => .of_not_away (hnot t)⟩
  · rw [hsleep] at hs
    cases hs
  · rw [hsleep] at hs
    cases hs
  · exact absurd (Or.inr (Or.inl hs)) (hnot c)
  · rw [h.map, h.live]
    exact Swapmap.sound_swapinit hspace
  · rw [h.lock] at hl
    cases hl
  · rw [h.lock] at hl
    cases hl

/-- A machine with 100 blocks of swap space, all of whose memory is zero. -/
def zeroed : State Bool where
  mem := smallStart
  swapmap := Swapmap.swapinit 100 500
  core := fun _ _ => false
  disk := fun _ => false
  lock := none
  i := 0
  swab := fun _ => none
  live := []
  given := fun _ => ⟨0, 0⟩
  image := fun _ _ => none

/-- The first process writes to its stack and is swapped out; another one is made, and the first is read
back. -/
def trip : List (Label Bool) :=
  [.fork 0 1, .mem (.exec 1), .run 1 15 fun _ => true, .swapout 1, .block 1, .transfer 16, .transfer 15] ++
    List.replicate 17 .bwait ++
    [.swappedOut 1, .fork 0 2, .mem (.exec 2), .swapin 1, .block 1, .transfer 15] ++
    List.replicate 16 .bwait ++ [.transfer 16, .bwait]

end Swapping

end Micronix
