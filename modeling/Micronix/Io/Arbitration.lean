import Micronix.Io.Bus

/-!
# Arbitration of the bus

While the heir's place is enough for those who are turned away, `busget` and `busgive` are an arbiter with
a line, in which nobody is forgotten.  That the master of this arbiter is the only one who uses the bus
needs the drivers: a contender calls `busgive` only as the master.
-/

namespace Micronix

namespace Bus

open Transition

variable {s s' t : Bus} {b : Buf} {c d f : Contender} {F G : Frame} {frames : List Frame}
  {done finished : Bool} {again : Option Contender} {p : ℕ} {o : Outcome}

/-! ## The arbiter -/

/-- The master and the heir as an arbiter. -/
def arbiter (s : Bus) : Arbiter Contender := ⟨s.bus, s.next.toList⟩

lemma busget_granted (h : s.bus = none ∨ s.bus = some f) :
    s.busget f = ({ s with bus := some f, turned := Function.update s.turned f false }, true) := by
  rw [busget, if_neg]
  rintro ⟨h1, h2⟩
  exact h.elim h1 h2

lemma busget_refused (h : ¬(s.bus = none ∨ s.bus = some f)) :
    s.busget f =
      ({ s with
          next := if s.next = none then some f else s.next
          turned := Function.update s.turned f true }, false) := by
  rw [busget, if_pos (not_or.mp h)]

/-- **`busget` asks the arbiter**, where there is room for the heir. -/
theorem busget_refines (h : s.Room f) :
    (s.busget f).1.arbiter = (s.arbiter.ask f).1 ∧ (s.busget f).2 = (s.arbiter.ask f).2 := by
  rw [Arbiter.ask]
  by_cases hm : s.arbiter.master = none ∨ s.arbiter.master = some f
  · rw [busget_granted hm, if_pos hm]
    exact ⟨rfl, rfl⟩
  · rw [busget_refused hm, if_neg hm]
    have hn : s.next = none ∨ s.next = some f := by
      rcases h with h | h | h
      · exact absurd (Or.inl h) hm
      · exact absurd (Or.inr h) hm
      · exact h
    rcases hn with hn | hn <;> simp [arbiter, hn]

/-- **`busgive` passes the resource on.** -/
theorem busgive_refines : (s.busgive again).1.arbiter = s.arbiter.pass again := by
  rw [busgive, Arbiter.pass]
  cases hn : s.next with
  | none => simp [arbiter, hn]
  | some heir => simp [arbiter, hn]

/-! ## The users of the bus -/

/-- The hard disk is at work. -/
def MwState.Runs (m : MwState) : Prop := m ≠ .virgin ∧ m ≠ .stopped

instance (m : MwState) : Decidable m.Runs := inferInstanceAs (Decidable (_ ∧ _))

/-- In this frame `djint` has the bus. -/
def Frame.Holds : Frame → Prop
  | work | give | request | last => True
  | call | regain | handed => False

/-- In this frame `inservice` is set. -/
def Frame.Serves : Frame → Prop
  | work | give | regain | handed | request => True
  | call | last => False

/-- In this frame of `djint` there is no request in the controller. -/
def Frame.Rests : Frame → Prop
  | give | regain | handed | request | last => True
  | call | work => False

/-- The contender uses the bus: its driver is at work, or one of its processes is. -/
def Uses (s : Bus) : Contender → Prop
  | .mwstart => s.mwstate.Runs
  | .djint => s.curbuf ≠ none ∨ ∃ F ∈ s.frames, F.Holds
  | .busready => s.users ≠ []

/-- A contender is master when the variable says so, and as long as it uses the bus. -/
def Master (s : Bus) (c : Contender) : Prop := s.bus = some c ∨ s.Uses c

/-- At most one `djint` is past `busget`, and the flags say where it is. -/
structure Placed (frames : List Frame) (inservice : Bool) (curbuf : Option Buf) (qtail : List Buf) :
    Prop where
  serves : ∀ F ∈ frames, F.Serves → inservice = true
  rests : ∀ F ∈ frames, F.Rests → curbuf = none
  last : .last ∈ frames → qtail = []
  single : frames.Pairwise fun F G => F = .call ∨ G = .call

/-- The users of the bus are its master, and who is turned away is in line.  Processes are asleep only
until `busready` is called. -/
structure Sound (s : Bus) : Prop where
  fair : s.arbiter.Fair
  turned : ∀ c, s.turned c = true → c ∈ s.arbiter.line
  uses : ∀ c, s.Uses c → s.bus = some c
  placed : Placed s.frames s.inservice s.curbuf s.qtail
  virgin : s.mwstate = .virgin → s.busy = true
  asleep : s.asleep ≠ [] →
    s.turned .busready = true ∨ s.bus = some .busready ∧ .call ∈ s.frames

/-! ## Frames -/

/-- Only calls of `busgive` are on the stack. -/
def Calls (frames : List Frame) : Prop := ∀ F ∈ frames, F = .call

namespace Placed

variable {inservice : Bool} {curbuf : Option Buf} {qtail : List Buf}

lemma of_calls (h : Calls frames) : Placed frames inservice curbuf qtail where
  serves := fun F hF hs => by
    rw [h F hF] at hs
    exact hs.elim
  rests := fun F hF hs => by
    rw [h F hF] at hs
    exact hs.elim
  last := fun hl => by cases h _ hl
  single := List.pairwise_of_forall_mem_list fun F hF _ _ => Or.inl (h F hF)

lemma cons (h : Calls frames) (hs : F.Serves → inservice = true) (hr : F.Rests → curbuf = none)
    (hl : F = .last → qtail = []) : Placed (F :: frames) inservice curbuf qtail := by
  have hcalls : Placed frames inservice curbuf qtail := of_calls h
  constructor
  · exact List.forall_mem_cons.mpr ⟨hs, hcalls.serves⟩
  · exact List.forall_mem_cons.mpr ⟨hr, hcalls.rests⟩
  · intro hG
    rcases List.mem_cons.mp hG with hG | hG
    · exact hl hG.symm
    · exact hcalls.last hG
  · exact List.pairwise_cons.mpr ⟨fun G hG => Or.inr (h G hG), hcalls.single⟩

lemma call (h : Placed frames inservice curbuf qtail) :
    Placed (.call :: frames) inservice curbuf qtail where
  serves := List.forall_mem_cons.mpr ⟨False.elim, h.serves⟩
  rests := List.forall_mem_cons.mpr ⟨False.elim, h.rests⟩
  last := fun hl => h.last ((List.mem_cons.mp hl).resolve_left (by decide))
  single := List.pairwise_cons.mpr ⟨fun _ _ => Or.inl rfl, h.single⟩

/-- Under a frame of `djint` there are only calls of `busgive`. -/
lemma under (h : Placed (F :: frames) inservice curbuf qtail) (hF : F ≠ .call) : Calls frames :=
  fun G hG => ((List.pairwise_cons.mp h.single).1 G hG).resolve_left hF

/-- The topmost frame is taken off. -/
lemma pop (h : Placed (F :: frames) inservice curbuf qtail) : Placed frames inservice curbuf qtail where
  serves := fun G hG => h.serves G (List.mem_cons_of_mem F hG)
  rests := fun G hG => h.rests G (List.mem_cons_of_mem F hG)
  last := fun hl => h.last (List.mem_cons_of_mem F hl)
  single := (List.pairwise_cons.mp h.single).2

end Placed

/-- `djint` goes past `busget` only when no other has. -/
lemma Due.calls (hd : s.Due done) (h : Placed s.frames s.inservice s.curbuf s.qtail) :
    Calls s.frames := by
  obtain ⟨-, hin, -, hq⟩ := hd
  intro F hF
  cases F with
  | call => rfl
  | last => exact absurd (h.last hF) (hq (h.rests _ hF trivial))
  | _ => exact absurd (h.serves _ hF trivial) (by rw [hin]; exact Bool.false_ne_true)

lemma uses_djint_of_calls (h : Calls s.frames) : s.Uses .djint ↔ s.curbuf ≠ none := by
  refine ⟨fun hu => hu.resolve_right ?_, Or.inl⟩
  rintro ⟨F, hF, hh⟩
  rw [h F hF] at hh
  exact hh

/-! ## `busget` and `busgive` -/

namespace Sound

/-- In line is who is the heir. -/
lemma next (h : s.Sound) {c : Contender} (hc : s.turned c = true) : s.next = some c :=
  Option.mem_toList.mp (h.turned c hc)

/-- A user is the master, so that nobody else uses the bus. -/
lemma alone (h : s.Sound) (hc : s.bus = some c) (hd : s.Uses d) : d = c :=
  Option.some.inj ((h.uses d hd).symm.trans hc)

lemma busget (h : s.Sound) (hr : s.Room f) : (s.busget f).1.Sound := by
  have href := busget_refines hr
  have hfair : (s.busget f).1.arbiter.Fair := by
    rw [href.1]
    exact h.fair.ask f
  by_cases hm : s.bus = none ∨ s.bus = some f
  · rw [busget_granted hm] at hfair ⊢
    refine ⟨hfair, fun c hc => ?_, fun c hc => ?_, h.placed, h.virgin, fun ha => ?_⟩
    · obtain ⟨hne, hc⟩ : c ≠ f ∧ s.turned c = true := by
        by_cases hcf : c = f
        · subst hcf
          simp at hc
        · exact ⟨hcf, by simpa [hcf] using hc⟩
      exact h.turned c hc
    · have hb : s.bus = some c := h.uses c hc
      rcases hm with hm | hm
      · rw [hm] at hb
        cases hb
      · rw [hm] at hb
        exact hb
    · -- A sleeper is in line, and the master is not.
      rcases h.asleep ha with ht | ⟨hb, hcall⟩
      · refine Or.inl ?_
        have hin := h.turned _ ht
        have hne : Contender.busready ≠ f := by
          rintro rfl
          rcases hm with hm | hm
          · exact h.fair.free (List.ne_nil_of_mem hin) hm
          · exact h.fair.apart _ hm hin
        simpa [hne] using ht
      · refine Or.inr ⟨?_, hcall⟩
        rcases hm with hm | hm
        · rw [hm] at hb
          cases hb
        · exact hm.symm.trans hb
  · have hline : ∀ c, c ∈ s.arbiter.line → c ∈ (s.busget f).1.arbiter.line := by
      intro c hc
      rw [href.1]
      exact Arbiter.mem_line_ask hc
    have hself : f ∈ (s.busget f).1.arbiter.line := by
      rw [href.1]
      refine Arbiter.mem_line_of_ask ?_
      rw [← href.2, busget_refused hm]
    rw [busget_refused hm] at hfair hline hself ⊢
    refine ⟨hfair, fun c hc => ?_, h.uses, h.placed, h.virgin, fun ha => ?_⟩
    · by_cases hcf : c = f
      · exact hcf ▸ hself
      · exact hline c (h.turned c (by simpa [hcf] using hc))
    · refine (h.asleep ha).imp_left fun ht => ?_
      by_cases hcf : Contender.busready = f
      · simp [hcf]
      · simpa [hcf] using ht

/-- The master passes the bus on once nobody uses it. -/
lemma busgive (h : s.Sound) (hu : ∀ c, ¬s.Uses c) (hag : ∀ f, again = some f → s.bus = some f)
    (ha : s.asleep ≠ [] → s.turned .busready = true) : (s.busgive again).1.Sound := by
  have href : (s.busgive again).1.arbiter = s.arbiter.pass again := busgive_refines
  have hfair : (s.busgive again).1.arbiter.Fair := by
    rw [href]
    refine Arbiter.fair_pass ?_ fun f hf => h.fair.apart f (hag f hf)
    cases hn : s.next <;> simp [arbiter, hn]
  have hturned : ∀ c, s.turned c = true →
      c ∈ (s.busgive again).1.arbiter.line ∨ (s.busgive again).1.bus = some c := by
    intro c hc
    have hline : c ∈ (s.arbiter.pass again).line ∨ (s.arbiter.pass again).master = some c :=
      Arbiter.mem_line_pass (h.turned c hc)
    rw [← href] at hline
    exact hline
  cases hn : s.next with
  | none =>
      simp only [Bus.busgive, hn] at hfair hturned ⊢
      refine ⟨hfair, fun c hc => ?_, fun c hc => absurd hc (hu c), h.placed, h.virgin, fun hs => ?_⟩
      · exact (hturned c hc).resolve_right (by simp)
      · exact Or.inl (ha hs)
  | some heir =>
      simp only [Bus.busgive, hn] at hfair hturned ⊢
      refine ⟨hfair, fun c hc => ?_, fun c hc => ?_, h.placed.call, h.virgin, fun hs => ?_⟩
      · obtain ⟨hne, hc⟩ : c ≠ heir ∧ s.turned c = true := by
          by_cases hch : c = heir
          · subst hch
            simp at hc
          · exact ⟨hch, by simpa [hch] using hc⟩
        refine (hturned c hc).resolve_right fun he => hne ?_
        exact (Option.some.inj he).symm
      · refine absurd ?_ (hu c)
        cases c with
        | djint =>
            refine hc.imp_right ?_
            rintro ⟨F, hF, hh⟩
            rcases List.mem_cons.mp hF with rfl | hF
            · exact hh.elim
            · exact ⟨F, hF, hh⟩
        | _ => exact hc
      · have he := h.next (ha hs)
        rw [hn] at he
        exact Or.inr ⟨he, List.mem_cons_self⟩

/-! ## The hard disk -/

/-- The hard disk goes to work only as the master. -/
lemma setMwstate {m : MwState} {busy : Bool} (h : s.Sound) (hb : m.Runs → s.bus = some .mwstart)
    (hm : m ≠ .virgin) : { s with mwstate := m, busy := busy }.Sound where
  fair := h.fair
  turned := h.turned
  uses := fun c hc => by
    cases c with
    | mwstart => exact hb hc
    | _ => exact h.uses _ hc
  placed := h.placed
  virgin := fun hv => absurd hv hm
  asleep := h.asleep

lemma mwstart (h : s.Sound) (hr : s.Room .mwstart) : s.mwstart.Sound := by
  have hs := h.busget hr
  rw [Bus.mwstart]
  by_cases hm : s.bus = none ∨ s.bus = some .mwstart
  · rw [busget_granted hm] at hs ⊢
    exact hs.setMwstate (fun _ => rfl) (by decide)
  · rw [busget_refused hm] at hs ⊢
    exact hs

lemma mwstrat (h : s.Sound) (hr : s.mwstate = .virgin ∨ s.mwstate = .stopped → s.Room .mwstart) :
    (s.mwstrat b).Sound := by
  rw [Bus.mwstrat]
  split_ifs with hm
  · refine Sound.mwstart ?_ (hr hm)
    exact ⟨h.fair, h.turned, h.uses, h.placed, h.virgin, h.asleep⟩
  · exact ⟨h.fair, h.turned, h.uses, h.placed, h.virgin, h.asleep⟩

/-- While a driver is the master, the sleepers are in line. -/
lemma asleep_turned (h : s.Sound) (hb : s.bus = some c) (hc : c ≠ .busready) (ha : s.asleep ≠ []) :
    s.turned .busready = true := by
  refine (h.asleep ha).resolve_right fun hr => hc ?_
  exact Option.some.inj (hb.symm.trans hr.1)

lemma mwstop (h : s.Sound) (hb : s.bus = some .mwstart) : s.mwstop.Sound := by
  have hs : { s with mwstate := .stopped }.Sound :=
    h.setMwstate (fun hr => absurd rfl hr.2) (by decide)
  refine hs.busgive (fun c hc => ?_) (fun f hf => by cases hf) (h.asleep_turned hb (by decide))
  have := hs.alone hb hc
  subst this
  exact absurd rfl hc.2

lemma advque {ready : ℕ → Bool} (h : s.Sound) (hb : s.bus = some .mwstart) : (s.advque ready).Sound := by
  have hs : { s with mwbuf := s.mwbuf.tail.dropWhile fun b => !ready b.dev }.Sound :=
    ⟨h.fair, h.turned, h.uses, h.placed, h.virgin, h.asleep⟩
  rw [Bus.advque]
  split_ifs
  · exact hs.mwstop hb
  · exact hs.setMwstate (fun _ => hb) (by decide)

/-- The interrupt is served only while the hard disk is at work. -/
lemma mwint (h : s.Sound) : (s.mwint o).Sound := by
  rw [Bus.mwint]
  split_ifs with hm
  · exact h
  · have hb : s.bus = some .mwstart := by
      refine h.uses _ ⟨fun hv => hm ?_, fun hs => hm (Or.inl hs)⟩
      exact Or.inr (Or.inr (h.virgin hv))
    have hs : { s with mwstate := .intrpt }.Sound := h.setMwstate (fun _ => hb) (by decide)
    cases o with
    | again => exact hs.setMwstate (fun _ => hb) (by decide)
    | done ready => exact hs.advque hb

lemma mwcheck (h : s.Sound) (he : s.mwcheck o = some s') : s'.Sound := by
  have hb (hr : s.mwstate.Runs) : s.bus = some .mwstart := h.uses _ hr
  rw [Bus.mwcheck] at he
  split at he
  case h_1 hm =>
      obtain rfl := Option.some.inj he
      exact h.setMwstate (fun _ => hb (by rw [hm]; decide)) (by decide)
  case h_2 hm =>
      obtain rfl := Option.some.inj he
      exact mwint (h.setMwstate (fun _ => hb (by rw [hm]; decide)) (by decide))
  case h_3 => cases he
  case h_4 =>
      obtain rfl := Option.some.inj he
      exact h

/-! ## The floppy disks -/

lemma djint (h : s.Sound) (hr : s.Due done → s.Room .djint) : (s.djint done).Sound := by
  rw [Bus.djint]
  split_ifs with hd
  · have hs := h.busget (hr hd)
    by_cases hm : s.bus = none ∨ s.bus = some .djint
    · rw [busget_granted hm] at hs ⊢
      have hcalls := hd.calls h.placed
      refine ⟨hs.fair, hs.turned, fun c hc => ?_, ?_, hs.virgin, fun ha => ?_⟩
      · cases c with
        | djint => rfl
        | _ => exact hs.uses _ hc
      · change Placed ((if s.curbuf = none then .request else .work) :: s.frames) true s.curbuf s.qtail
        split_ifs with hn
        · exact Placed.cons hcalls (fun _ => rfl) (fun _ => hn) fun hl => by cases hl
        · exact Placed.cons hcalls (fun _ => rfl) False.elim fun hl => by cases hl
      · exact (hs.asleep ha).imp_right fun hc => ⟨hc.1, List.mem_cons_of_mem _ hc.2⟩
    · rw [busget_refused hm] at hs ⊢
      exact hs
  · exact h

lemma djstrat (h : s.Sound) (hi : s.Idle)
    (hr : { s with qtail := s.qtail ++ [b] }.Due done → s.Room .djint) : (s.djstrat b done).Sound := by
  refine djint ⟨h.fair, h.turned, h.uses, ?_, h.virgin, h.asleep⟩ hr
  refine Placed.of_calls fun F hF => ?_
  rw [hi] at hF
  cases hF

/-! ## The processes -/

lemma busplease (h : s.Sound) (hr : s.Room .busready) : (s.busplease p).Sound := by
  have hs := h.busget hr
  rw [Bus.busplease]
  by_cases hm : s.bus = none ∨ s.bus = some .busready
  · rw [busget_granted hm] at hs ⊢
    refine ⟨hs.fair, hs.turned, fun c hc => ?_, hs.placed, hs.virgin, hs.asleep⟩
    cases c with
    | busready => rfl
    | _ => exact hs.uses _ hc
  · rw [busget_refused hm] at hs ⊢
    exact ⟨hs.fair, hs.turned, hs.uses, hs.placed, hs.virgin, fun _ => Or.inl (by simp)⟩

lemma busthanks (h : s.Sound) (hi : s.Idle) (hu : s.users = [p]) : (s.busthanks p).Sound := by
  have hb : s.bus = some .busready := h.uses .busready (show s.users ≠ [] by simp [hu])
  have hnone : s.users.erase p = [] := by simp [hu]
  have hs : { s with users := s.users.erase p }.Sound := by
    refine ⟨h.fair, h.turned, fun c hc => ?_, h.placed, h.virgin, h.asleep⟩
    cases c with
    | busready => exact hb
    | _ => exact h.uses _ hc
  refine hs.busgive (fun c hc => ?_) (fun f hf => by cases hf) fun ha => ?_
  · have := hs.alone hb hc
    subst this
    exact hc hnone
  · refine (h.asleep ha).resolve_right fun hc => ?_
    have hcall := hc.2
    rw [hi] at hcall
    cases hcall

/-- Who wakes up is a process of the master. -/
lemma busready (h : s.Sound) (hb : s.bus = some .busready) : s.busready.Sound where
  fair := h.fair
  turned := h.turned
  uses := fun c hc => by
    cases c with
    | busready => exact hb
    | _ => exact h.uses _ hc
  placed := h.placed
  virgin := h.virgin
  asleep := fun ha => absurd rfl ha

/-! ## Steps -/

/-- The topmost frame is taken off, which is the call of the new master only when nobody waits for that. -/
lemma pop (h : s.Sound) (hf : s.frames = F :: frames)
    (hF : F = .call → s.bus = some .busready → s.asleep = []) : { s with frames := frames }.Sound where
  fair := h.fair
  turned := h.turned
  uses := fun c hc => by
    refine h.uses c ?_
    cases c with
    | djint =>
        refine hc.imp_right ?_
        rintro ⟨G, hG, hh⟩
        exact ⟨G, hf ▸ List.mem_cons_of_mem F hG, hh⟩
    | _ => exact hc
  placed := (hf ▸ h.placed).pop
  virgin := h.virgin
  asleep := fun ha => (h.asleep ha).imp_right fun ⟨hb, hc⟩ => by
    rw [hf] at hc
    rcases List.mem_cons.mp hc with hc | hc
    · exact absurd (hF hc.symm hb) ha
    · exact ⟨hb, hc⟩

/-- `djint` goes on to another frame, or to its end. -/
lemma move (h : s.Sound) {inservice : Bool} {curbuf : Option Buf} {qtail : List Buf}
    (hb : curbuf ≠ none ∨ (∃ F ∈ frames, F.Holds) → s.bus = some .djint)
    (hp : Placed frames inservice curbuf qtail)
    (hc : ∀ F, F = Frame.call → F ∈ s.frames → F ∈ frames) :
    { s with inservice := inservice, curbuf := curbuf, qtail := qtail, frames := frames }.Sound where
  fair := h.fair
  turned := h.turned
  uses := fun c hu => by
    cases c with
    | djint => exact hb hu
    | _ => exact h.uses _ hu
  placed := hp
  virgin := h.virgin
  asleep := fun ha => (h.asleep ha).imp_right fun ⟨hr, hin⟩ => ⟨hr, hc _ rfl hin⟩

lemma exec (h : s.Sound) (hf : s.frames = F :: frames) (hr : F = .regain → s.Room .djint)
    (he : { s with frames := frames }.exec done finished F = some s') : s'.Sound := by
  have hp : Placed (F :: frames) s.inservice s.curbuf s.qtail := hf ▸ h.placed
  -- What a frame of `djint` can rely on.
  have hkeep (G : Frame) (hF : F ≠ .call) (hG : G = .call) (hin : G ∈ s.frames) : G ∈ frames := by
    rw [hf] at hin
    exact (List.mem_cons.mp hin).resolve_left fun hGF => hF (hGF.symm.trans hG)
  have hheld (hF : F.Holds) : s.bus = some .djint :=
    h.uses .djint (Or.inr ⟨F, hf ▸ List.mem_cons_self, hF⟩)
  have hcur (hF : F.Rests) : s.curbuf = none := hp.rests F List.mem_cons_self hF
  have hserve (hF : F.Serves) : s.inservice = true := hp.serves F List.mem_cons_self hF
  cases F with
  | call =>
      rw [Bus.exec] at he
      split at he
      case h_1 hb =>
          obtain rfl := Option.some.inj he
          refine (h.pop hf fun _ hr => ?_).mwstart (Or.inr (Or.inl hb))
          rw [hb] at hr
          cases hr
      case h_2 hb =>
          obtain rfl := Option.some.inj he
          refine (h.pop hf fun _ hr => ?_).djint fun _ => Or.inr (Or.inl hb)
          rw [hb] at hr
          cases hr
      case h_3 hb =>
          obtain rfl := Option.some.inj he
          exact (h.busready hb).pop hf fun _ _ => rfl
      case h_4 => cases he
  | work =>
      have hcalls := hp.under (by decide)
      cases finished with
      | true =>
          obtain rfl := Option.some.inj he
          refine h.move (fun _ => hheld trivial) ?_ fun G hG hin =>
            List.mem_cons_of_mem _ (hkeep G (by decide) hG hin)
          change Placed ((if s.qtail = [] then .request else .give) :: frames) s.inservice none s.qtail
          split_ifs
          · exact .cons hcalls (fun _ => hserve trivial) (fun _ => rfl) fun hl => by cases hl
          · exact .cons hcalls (fun _ => hserve trivial) (fun _ => rfl) fun hl => by cases hl
      | false =>
          obtain rfl := Option.some.inj he
          exact h.move (fun _ => hheld trivial) (.of_calls hcalls) fun G hG hin =>
            hkeep G (by decide) hG hin
  | give =>
      have hcalls := hp.under (by decide)
      have hgive (G : Frame) (hG : ¬G.Holds) (hs : Placed (G :: frames) s.inservice s.curbuf s.qtail) :
          ({ s with frames := G :: frames }.busgive (some .djint)).1.Sound := by
        have ht : { s with frames := G :: frames }.Sound :=
          h.move (fun _ => hheld trivial) hs fun F hF hin =>
            List.mem_cons_of_mem _ (hkeep F (by decide) hF hin)
        refine ht.busgive (fun c hc => ?_) (fun f hfe => ?_) (ht.asleep_turned (hheld trivial) (by decide))
        · obtain rfl := ht.alone (hheld trivial) hc
          rcases hc with hc | ⟨F, hF, hh⟩
          · exact hc (hcur trivial)
          · rcases List.mem_cons.mp hF with rfl | hF
            · exact hG hh
            · rw [hcalls F hF] at hh
              exact hh
        · obtain rfl := Option.some.inj hfe
          exact hheld trivial
      rw [Bus.exec] at he
      split_ifs at he
      · obtain rfl := Option.some.inj he
        refine hgive .regain False.elim ?_
        exact .cons hcalls (fun _ => hserve trivial) (fun _ => hcur trivial) fun hl => by cases hl
      · obtain rfl := Option.some.inj he
        refine hgive .handed False.elim ?_
        exact .cons hcalls (fun _ => hserve trivial) (fun _ => hcur trivial) fun hl => by cases hl
  | regain =>
      have hcalls := hp.under (by decide)
      have ht : { s with frames := frames }.Sound := h.pop hf fun hF => by cases hF
      have hs := ht.busget (f := .djint) (hr rfl)
      rw [Bus.exec] at he
      by_cases hm : { s with frames := frames }.bus = none ∨ { s with frames := frames }.bus = some .djint
      · rw [busget_granted hm] at hs he
        obtain rfl := Option.some.inj he
        refine hs.move (fun _ => rfl) ?_ fun G _ hin => List.mem_cons_of_mem _ hin
        exact .cons hcalls (fun _ => hserve trivial) (fun _ => hcur trivial) fun hl => by cases hl
      · rw [busget_refused hm] at hs he
        obtain rfl := Option.some.inj he
        exact hs.move (fun hu => hs.uses .djint hu) (.of_calls hcalls) fun G _ hin => hin
  | handed =>
      have hcalls := hp.under (by decide)
      obtain rfl := Option.some.inj he
      refine (h.pop hf fun hF => by cases hF).move (fun hu => ?_) (.of_calls hcalls) fun G _ hin => hin
      exact h.uses .djint (hu.imp_right fun hG => hG.imp fun G hG => ⟨hf ▸ List.mem_cons_of_mem _ hG.1, hG.2⟩)
  | request =>
      have hcalls := hp.under (by decide)
      have hmem (G : Frame) (hG : G = .call) (hin : G ∈ s.frames) (H : Frame) : G ∈ H :: frames :=
        List.mem_cons_of_mem _ (hkeep G (by decide) hG hin)
      cases hq : s.qtail with
      | nil =>
          simp only [Bus.exec, hq] at he
          obtain rfl := Option.some.inj he
          refine h.move (fun _ => hheld trivial) ?_ fun G hG hin => hmem G hG hin _
          exact .cons hcalls False.elim (fun _ => hcur trivial) fun _ => rfl
      | cons b q =>
          simp only [Bus.exec, hq] at he
          obtain rfl := Option.some.inj he
          refine h.move (fun _ => hheld trivial) ?_ fun G hG hin => hmem G hG hin _
          exact .cons hcalls (fun _ => hserve trivial) False.elim fun hl => by cases hl
  | last =>
      have hcalls := hp.under (by decide)
      obtain rfl := Option.some.inj he
      have ht := h.pop hf fun hF => by cases hF
      refine ht.busgive (fun c hc => ?_) (fun f hfe => by cases hfe)
        (ht.asleep_turned (hheld trivial) (by decide))
      obtain rfl := ht.alone (hheld trivial) hc
      exact (uses_djint_of_calls hcalls).mp hc (hcur trivial)

/-- **A step** that turns nobody away who is not the heir, and takes the bus from no other process. -/
lemma step {l : Label} (h : s.Sound) (hm : s.Meets l) (he : s.step l = some s') : s'.Sound := by
  cases l with
  | mwstrat b =>
      rw [Bus.step, Option.ite_none_right_eq_some] at he
      obtain rfl := Option.some.inj he.2
      refine h.mwstrat fun hv => hm.1 _ ?_
      rw [asks, if_pos hv]
      rfl
  | mwdone =>
      rw [Bus.step, Option.ite_none_right_eq_some] at he
      obtain rfl := Option.some.inj he.2
      refine ⟨h.fair, h.turned, h.uses, h.placed, fun hv => ?_, h.asleep⟩
      have hv : s.mwstate = .virgin := hv
      rw [hv] at he
      exact absurd he.1 (by decide)
  | mwint o =>
      obtain rfl := Option.some.inj he
      exact h.mwint
  | mwcheck o => exact h.mwcheck he
  | djstrat b done =>
      rw [Bus.step, Option.ite_none_right_eq_some] at he
      obtain rfl := Option.some.inj he.2
      refine h.djstrat he.1 fun hd => hm.1 _ ?_
      rw [asks, if_pos hd]
      rfl
  | djint done =>
      obtain rfl := Option.some.inj he
      refine h.djint fun hd => hm.1 _ ?_
      rw [asks, if_pos hd]
      rfl
  | busplease p =>
      rw [Bus.step, Option.ite_none_right_eq_some] at he
      obtain rfl := Option.some.inj he.2
      exact h.busplease (hm.1 _ rfl)
  | busthanks p =>
      rw [Bus.step, Option.ite_none_right_eq_some] at he
      obtain rfl := Option.some.inj he.2
      exact h.busthanks he.1.1 hm.2
  | djmopen =>
      rw [Bus.step, Option.ite_none_right_eq_some] at he
      obtain rfl := Option.some.inj he.2
      rw [djmopen]
      split_ifs
      · exact h
      · exact ⟨h.fair, h.turned, h.uses, h.placed, h.virgin, h.asleep⟩
  | go done finished =>
      rw [Bus.step] at he
      split at he
      case h_1 => cases he
      case h_2 F frames hf =>
          refine h.exec hf (fun hF => hm.1 _ ?_) he
          rw [asks, if_pos (by rw [hf, hF]; rfl)]
          rfl
  | _ =>
      rw [Bus.step, Option.ite_none_right_eq_some] at he
      obtain rfl := Option.some.inj he.2
      exact ⟨h.fair, h.turned, h.uses, h.placed, h.virgin, h.asleep⟩

lemma boot : boot.Sound where
  fair := ⟨fun h => absurd rfl h, fun c hc => by cases hc⟩
  turned := fun c hc => by cases hc
  uses := fun c hc => by
    cases c with
    | mwstart => exact absurd rfl hc.1
    | djint =>
        rcases hc with hc | ⟨F, hF, _⟩
        · exact absurd rfl hc
        · cases hF
    | busready => exact absurd rfl hc
  placed := .of_calls fun F hF => by cases hF
  virgin := fun _ => rfl
  asleep := fun ha => absurd rfl ha

end Sound

/-! ## Runs -/

/-- **At most one contender is master, and nobody who was turned away is forgotten**, in every run whose
steps turn nobody away who is not the heir, and in which `busthanks` is called only when no other process
is between `busplease` and `busthanks`.  In particular a process asleep in `busplease` will be woken up by
the heir's call. -/
theorem bus_arbitration (h : Reach step (· = boot) Meets s) :
    (∀ c d, s.Master c → s.Master d → c = d) ∧
      (∀ f, s.turned f = true → s.next = some f) ∧
      (s.asleep ≠ [] →
        s.next = some .busready ∨ s.bus = some .busready ∧ .call ∈ s.frames) := by
  have hs : s.Sound :=
    h.invariant (fun t ht => by rw [ht]; exact .boot) fun t l t' ht hm he => ht.step hm he
  have hbus : ∀ c, s.Master c → s.bus = some c := fun c hc => hc.elim id (hs.uses c)
  refine ⟨fun c d hc hd => ?_, fun f hf => hs.next hf, fun ha => ?_⟩
  · exact Option.some.inj ((hbus c hc).symm.trans (hbus d hd))
  · exact (hs.asleep ha).imp_left hs.next

/-- The hard disk gives the bus to the floppy driver. -/
theorem bus_arbitration_handover : ∃ s, run step Meets boot
    [.mwstrat ⟨0, 0⟩, .djstrat ⟨0, 0⟩ false, .mwdone, .mwint (.done fun _ => true), .go false false] =
      some s ∧ s.Master .djint ∧ ∀ c, s.Master c → c = .djint := by
  have hr : ((run step Meets boot
      [.mwstrat ⟨0, 0⟩, .djstrat ⟨0, 0⟩ false, .mwdone, .mwint (.done fun _ => true),
        .go false false]).map fun s => s.bus) = some (some .djint) := by decide +kernel
  obtain ⟨s, hs, hb⟩ := Option.map_eq_some_iff.mp hr
  have hone := (bus_arbitration (Reach.of_run rfl hs)).1
  exact ⟨s, hs, Or.inl hb, fun c hc => hone c .djint hc (Or.inl hb)⟩

/-- **The third contender is forgotten.**  The hard disk is at work, and an open of a floppy disk waits for
the bus as its heir.  No drive is open yet, so that the floppy controller can be opened; `busplease` is
turned away and sleeps, and `busready` is not the heir.

**Two masters.**  Two processes use the floppy controller.  The first to be ready gives the bus away, and
the hard disk takes it while the second goes on. -/
theorem third_contender_forgotten :
    (∃ s, run step (fun _ _ => True) boot
        [.mwstrat ⟨0, 0⟩, .djstrat ⟨0, 0⟩ false, .djmopen, .busplease 1] = some s ∧
      s.turned .busready = true ∧ s.asleep = [1] ∧ s.next ≠ some .busready ∧ s.bus ≠ some .busready) ∧
    ∃ s, run step (fun _ _ => True) boot
        [.djmopen, .busplease 1, .busplease 2, .busthanks 1, .mwstrat ⟨0, 0⟩] = some s ∧
      s.Master .mwstart ∧ s.Master .busready := by
  constructor
  · have hr : (run step (fun _ _ => True) boot
        [.mwstrat ⟨0, 0⟩, .djstrat ⟨0, 0⟩ false, .djmopen, .busplease 1]).map (fun s =>
          (s.turned .busready, s.asleep, s.bus, s.next)) =
        some (true, [1], some .mwstart, some .djint) := by decide +kernel
    obtain ⟨s, hs, hf⟩ := Option.map_eq_some_iff.mp hr
    simp only [Prod.mk.injEq] at hf
    obtain ⟨ht, ha, hb, hn⟩ := hf
    exact ⟨s, hs, ht, ha, by rw [hn]; decide, by rw [hb]; decide⟩
  · have hr : (run step (fun _ _ => True) boot
        [.djmopen, .busplease 1, .busplease 2, .busthanks 1, .mwstrat ⟨0, 0⟩]).map (fun s =>
          (s.users, s.bus)) = some ([2], some .mwstart) := by decide +kernel
    obtain ⟨s, hs, hf⟩ := Option.map_eq_some_iff.mp hr
    simp only [Prod.mk.injEq] at hf
    obtain ⟨hu, hb⟩ := hf
    exact ⟨s, hs, Or.inl hb, Or.inr (show s.users ≠ [] by rw [hu]; decide)⟩

end Bus

end Micronix
