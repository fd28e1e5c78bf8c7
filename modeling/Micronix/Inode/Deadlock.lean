import Micronix.Inode.Numbers
import Micronix.Inode.Order
import Micronix.Lib.Transition
import Mathlib.Logic.Relation

/-!
# No cycle of waiting

Whoever waits for an inode has locked nothing that another waits for, and whoever has the buffer of
a superblock waits for nothing, as long as `ialloc` finds its candidates free.  So no process waits
for one that waits for another, and there is no cycle.
-/

namespace Micronix

/-- What a process still has to do. -/
def Plan.job : Plan → Job
  | ready J => J
  | pending c k => .op c k

/-- Where the process stands in the inode list. -/
def Plan.At : Plan → Stage → Prop
  | ready _, k => k = .idle
  | pending c _, k => Ilist.StageOf c k

/-- Where every edge goes out of a vertex that no edge enters, or into one that no edge leaves,
there is no cycle. -/
lemma acyclic {α : Type*} {r : α → α → Prop} (h : ∀ p q, r p q → (∀ x, ¬r x p) ∨ ∀ x, ¬r q x)
    (p : α) : ¬Relation.TransGen r p p := by
  intro hp
  obtain ⟨q, hpq, hqp⟩ := Relation.TransGen.head'_iff.mp hp
  obtain ⟨x, -, hxp⟩ := Relation.TransGen.tail'_iff.mp hp
  rcases h p q hpq with hin | hout
  · exact hin x hxp
  · rcases Relation.ReflTransGen.cases_head hqp with rfl | ⟨y, hqy, -⟩
    · exact hout q hpq
    · exact hout y hqy

namespace Host

variable {s s' t : Host} {p n : ℕ} {c : Ilist.Call} {k : Option ℕ → Job} {J : Job} {il : Ilist}
  {pre post : Option ℕ}

/-- A process that has the buffer of a superblock finds the slot of the candidate that it takes up
not locked, and asks for no other block with that buffer; `balloc` is not called on a device that is
mounted read-only; and the I-list block of an inode that a process takes up has a buffer of its
own. -/
def Safe (s : Host) (p : ℕ) : Job → Prop
  | .op (.iget num dev) _ =>
      sbBlock num = false ∧ (s.sb p ≠ none → Ilist.blocked (s.il.n + 1) s.il num dev = false)
  | .bread b _ _ => s.sb p ≠ none → b % 256 ≠ 1
  | .flock d _ _ => (s.sup (d % 256)).flock = false
  | _ => True

instance (s : Host) (p : ℕ) : ∀ J, Decidable (s.Safe p J)
  | .op (.iget _ _) _ => inferInstanceAs (Decidable (_ ∧ (_ → _)))
  | .bread _ _ _ => inferInstanceAs (Decidable (_ → _))
  | .flock _ _ _ => inferInstanceAs (Decidable (_ = false))
  | .op (.ilock _) _ | .op (.irelse _) _ | .op (.idec _) _ | .op .isync _ | .op (.iflush _) _
  | .done | .act _ _ _ | .look _ _ | .choose _ | .sleep _ | .getsb _ _ | .edit _ _ _ | .mark _ _
  | .bdwrite _ _ => .isTrue trivial

/-- The steps with that property. -/
def Careful (s : Host) : Label → Prop
  | .exec p _ => s.Safe p (s.plan p).job
  | .start _ _ | .resume _ _ => True

instance (s : Host) : ∀ l, Decidable (s.Careful l)
  | .exec p _ => inferInstanceAs (Decidable (s.Safe p _))
  | .start _ _ | .resume _ _ => .isTrue trivial

/-- The property of the inode numbers. -/
abbrev Own (num : ℕ) : Prop := sbBlock num = false

/-- The invariant. -/
structure DInv (s : Host) : Prop where
  locked : s.il.Locked
  stage : ∀ p, (s.plan p).At (s.il.stage p)
  disc : ∀ p, Job.Disc (s.plan p).job (s.held p) (s.loose p) (s.sb p)
  own : ∀ i q, s.il.own i = some q → i ∈ s.held q ∨ (s.il.stage q).locks = some i
  loose : ∀ p i, i ∈ s.loose p → s.turn = some p ∧ s.il.own i = none
  owner : ∀ d q, (s.sup d).owner = some q → s.sb q = some d
  calm : ∀ p i r, s.sb p ≠ none → s.il.stage p ≠ .getWait i r
  known : ∀ p, s.il.Known Own p

/-! ## One process moves -/

/-- On the way from `s` only process `p` has done something, and its account is true. -/
structure Near (s t : Host) (p : ℕ) : Prop where
  locked : t.il.Locked
  stage : ∀ q, q ≠ p → t.il.stage q = s.il.stage q
  plan : ∀ q, q ≠ p → t.plan q = s.plan q
  others : ∀ q, q ≠ p → t.held q = s.held q ∧ t.loose q = s.loose q ∧ t.sb q = s.sb q
  own : ∀ i q, q ≠ p → t.il.own i = some q → s.il.own i = some q
  mine : ∀ i, t.il.own i = some p → i ∈ t.held p ∨ (t.il.stage p).locks = some i
  owner : ∀ d q, (t.sup d).owner = some q → t.sb q = some d
  calm : ∀ i r, t.sb p ≠ none → t.il.stage p ≠ .getWait i r
  known : t.il.Known Own p

lemma DInv.near (h : DInv s) (p : ℕ) : Near s s p :=
  ⟨h.locked, fun _ _ => rfl, fun _ _ => rfl, fun _ _ => ⟨rfl, rfl, rfl⟩, fun _ _ _ e => e,
    fun i => h.own i p, h.owner, h.calm p, h.known p⟩

/-- Process `p` is at `x` now and has released the slots of `loose` since it last slept. -/
lemma DInv.move (h : DInv s) (ht : s.turn = none ∨ s.turn = some p) (hn : Near s t p)
    {x : Plan} {loose : List ℕ} {turn : Option ℕ} (hx : x.At (t.il.stage p))
    (hd : Job.Disc x.job (t.held p) loose (t.sb p))
    (hl : ∀ i ∈ loose, turn = some p ∧ t.il.own i = none) :
    DInv { t with
      plan := Function.update t.plan p x
      turn := turn
      loose := Function.update t.loose p loose } where
  locked := hn.locked
  stage q := by
    by_cases hq : q = p
    · subst hq
      simpa using hx
    · simpa [hq, hn.plan q hq, hn.stage q hq] using h.stage q
  disc q := by
    by_cases hq : q = p
    · subst hq
      simpa using hd
    · simpa [hq, hn.plan q hq, hn.others q hq] using h.disc q
  own i q e := by
    by_cases hq : q = p
    · subst hq
      exact hn.mine i e
    · rw [(hn.others q hq).1, hn.stage q hq]
      exact h.own i q (hn.own i q hq e)
  loose q i hi := by
    by_cases hq : q = p
    · subst hq
      exact hl i (by simpa using hi)
    · -- only the process that runs has released anything since it slept
      have hi' : i ∈ s.loose q := by simpa [hq, hn.others q hq] using hi
      have hs := (h.loose q i hi').1
      rcases ht with ht | ht <;> simp [hs, hq] at ht
  owner := hn.owner
  calm q i r hs := by
    by_cases hq : q = p
    · subst hq
      exact hn.calm i r hs
    · rw [hn.stage q hq]
      exact h.calm q i r (by rwa [← (hn.others q hq).2.2])
  known q := by
    refine ⟨hn.known.1, fun num e => ?_⟩
    by_cases hq : q = p
    · subst hq
      exact hn.known.2 num e
    · exact (h.known q).2 num (by rwa [← hn.stage q hq])

lemma DInv.yield (h : DInv s) (ht : s.turn = none ∨ s.turn = some p) (hn : Near s t p)
    {x : Plan} (hx : x.At (t.il.stage p)) (hd : Job.Disc x.job (t.held p) [] (t.sb p)) :
    DInv (t.yield p x) :=
  h.move ht hn hx hd (by simp)

/-- The process goes on. -/
lemma DInv.go (h : DInv s) (ht : s.turn = none ∨ s.turn = some p) (hn : Near s t p)
    (hs : t.il.stage p = .idle) (hd : Job.Disc J (t.held p) (t.loose p) (t.sb p))
    (hl : ∀ i ∈ t.loose p, t.il.own i = none) : DInv (t.go p J) := by
  unfold Host.go
  split_ifs with hJ
  · cases J <;> simp only [Job.isDone, Bool.false_eq_true] at hJ
    exact h.yield ht hn hs hd
  · have hm := h.move (x := .ready J) ht hn hs hd fun i hi => ⟨rfl, hl i hi⟩
    rwa [Function.update_eq_self] at hm

lemma DInv.released (h : DInv s) (p : ℕ) : ∀ i ∈ s.loose p, s.il.own i = none :=
  fun i hi => (h.loose p i hi).2

/-! ## A call of the inode list -/

/-- What a process has locked stays on its account unless the call drops it. -/
lemma mem_heldAfter_of_ne {i : ℕ} {o : Option ℕ} {held : List ℕ} (hi : i ∈ held)
    (hc : c.drops ≠ some i) : i ∈ Kernel.heldAfter c o held := by
  cases c with
  | iget num dev => exact List.mem_append_right _ hi
  | ilock j => exact List.mem_cons_of_mem _ hi
  | irelse j | idec j =>
      have hne : i ≠ j := fun e => hc (by rw [e]; rfl)
      exact (List.mem_erase_of_ne hne).mpr hi
  | isync | iflush d => exact hi

/-- What a call returns is on the account. -/
lemma mem_heldAfter_of_grant {i : ℕ} {held : List ℕ} (hi : il.grant c = some i) :
    i ∈ Kernel.heldAfter c il.result held := by
  cases c with
  | iget num dev =>
      have hr : il.result = some i := hi
      simp [Kernel.heldAfter, hr]
  | ilock j =>
      obtain rfl : j = i := by simpa [Ilist.grant] using hi
      exact List.mem_cons_self
  | irelse j | idec j | isync | iflush d => simp [Ilist.grant] at hi

/-- What has been released is what the call drops, or was released before it. -/
lemma mem_looseAfter {i : ℕ} {loose : List ℕ} (hi : i ∈ Kernel.looseAfter c loose) :
    c.drops = some i ∨ i ∈ loose ∧ c.drops ≠ none := by
  cases c with
  | irelse j =>
      rcases List.mem_cons.mp hi with rfl | hi
      · exact Or.inl rfl
      · exact Or.inr ⟨hi, by simp [Ilist.Call.drops]⟩
  | idec j =>
      obtain rfl : i = j := by simpa [Kernel.looseAfter] using hi
      exact Or.inl rfl
  | iget num dev | ilock j | isync | iflush d => simp [Kernel.looseAfter] at hi

/-- The discipline allows the calls of `iget.c` other than `idec` and `iflush`. -/
lemma plain_of_callOk {held loose : List ℕ} {sb : Option ℕ} (h : Job.CallOk held loose sb c) :
    c.plain := by
  cases c <;> simp_all [Job.CallOk, Ilist.Call.plain]

/-- Where process `p` is after a call, or after it has gone on in one: `pre` is what it had locked in
the call or drops, `post` what it has locked in the call or returns. -/
structure Moved (s : Host) (p : ℕ) (c : Ilist.Call) (il : Ilist) (pre post : Option ℕ) : Prop where
  locked : il.Locked
  stage : ∀ q, q ≠ p → il.stage q = s.il.stage q
  own : ∀ i q, il.own i = some q → post = some i ∧ q = p ∨ s.il.own i = some q ∧
    (pre = some i → post = some i)
  ends : il.Ends p c post
  drops : il.stage p = .idle → c.drops = none ∨ pre = c.drops ∧ ∀ i, pre = some i → il.own i = none
  locks : ∀ i, (s.il.stage p).locks = some i → pre = some i
  keeps : ∀ i, c.drops = some i → pre = some i

/-- **After a call.** -/
lemma DInv.after (h : DInv s) (ht : s.turn = none ∨ s.turn = some p)
    (hd : Job.Disc (.op c k) (s.held p) (s.loose p) (s.sb p))
    (hm : Moved s p c il pre post) (hk : il.Known Own p)
    (hc : ∀ i r, s.sb p ≠ none → il.stage p ≠ .getWait i r)
    (hl : il.stage p ≠ .idle → Job.CallOk (s.held p) [] (s.sb p) c)
    {u : Host} (hu : u.sup = s.sup ∧ u.plan = s.plan ∧ u.held = s.held ∧ u.loose = s.loose ∧
      u.sb = s.sb) : DInv (u.after p c k il) := by
  obtain ⟨hsup, hplan, hheld, hloose, hsb⟩ := hu
  have hown : ∀ i q, q ≠ p → il.own i = some q → s.il.own i = some q := by
    intro i q hq e
    rcases hm.own i q e with ⟨-, e'⟩ | ⟨e', -⟩
    · exact absurd e' hq
    · exact e'
  have howner : ∀ d q, (u.sup d).owner = some q → u.sb q = some d := by
    rw [hsup, hsb]
    exact h.owner
  by_cases hi : il.stage p = .idle
  · have hgrant : post = il.grant c := by
      rcases hm.ends with ⟨-, e⟩ | ⟨e, -⟩
      · exact e
      · exact absurd (hi ▸ e) (by cases c <;> simp [Ilist.StageOf])
    have hmine : ∀ i, il.own i = some p → i ∈ Kernel.heldAfter c il.result (s.held p) := by
      intro i e
      by_cases hp : post = some i
      · exact mem_heldAfter_of_grant (hgrant ▸ hp)
      · rcases hm.own i p e with ⟨e', -⟩ | ⟨e', hpre⟩
        · exact absurd e' hp
        · have hne : pre ≠ some i := fun e => hp (hpre e)
          rcases h.own i p e' with e'' | e''
          · exact mem_heldAfter_of_ne e'' fun e => hne (hm.keeps i e)
          · exact absurd (hm.locks i e'') hne
    rw [Host.after, if_pos (by simp [hi, Stage.isIdle])]
    refine h.go (t := { u with il := il, held := _, loose := _ }) ht ⟨hm.locked, hm.stage,
      fun q hq => by rw [hplan], fun q hq => ?_, hown,
      fun i e => Or.inl ?_, howner, fun i r _ => by simp [hi], hk⟩ hi ?_ ?_
    · dsimp only
      rw [Function.update_of_ne hq, Function.update_of_ne hq, hheld, hloose, hsb]
      exact ⟨rfl, rfl, rfl⟩
    · simpa [hheld] using hmine i e
    · simpa [hheld, hloose, hsb] using hd.2 il.result
    · intro i hi'
      simp only [Function.update_self, hloose] at hi'
      rcases hm.drops hi with e | ⟨e, hnone⟩
      · rcases mem_looseAfter hi' with e' | ⟨-, e'⟩
        · simp [e] at e'
        · exact absurd e e'
      · rcases mem_looseAfter hi' with e' | ⟨e', hne⟩
        · exact hnone i (e.trans e')
        · -- released before the call, which returns no slot
          by_contra ho
          obtain ⟨q, ho⟩ := Option.ne_none_iff_exists'.mp ho
          rcases hm.own i q ho with ⟨e3, -⟩ | ⟨e3, -⟩
          · rw [hgrant] at e3
            cases c <;> simp_all [Ilist.grant, Ilist.Call.drops]
          · simp [h.released p i e'] at e3
  · have hends : Ilist.StageOf c (il.stage p) ∧ post = (il.stage p).locks := by
      rcases hm.ends with ⟨e, -⟩ | e
      · exact absurd e hi
      · exact e
    have hb : (il.stage p).isIdle = false := by
      cases hk' : il.stage p <;> first | rfl | exact absurd hk' hi
    rw [Host.after, if_neg (by simp [hb])]
    refine h.yield (t := { u with il := il }) ht ⟨hm.locked, hm.stage,
      fun q hq => by rw [hplan], fun q hq => ?_, hown, fun i e => ?_, howner, ?_, hk⟩ hends.1 ⟨?_, fun o => ?_⟩
    · dsimp only
      rw [hheld, hloose, hsb]
      exact ⟨rfl, rfl, rfl⟩
    · rcases hm.own i p e with ⟨e', -⟩ | ⟨e', hpre⟩
      · exact Or.inr (hends.2 ▸ e')
      · rcases h.own i p e' with e'' | e''
        · exact Or.inl (by simpa [hheld] using e'')
        · exact Or.inr (hends.2 ▸ hpre (hm.locks i e''))
    · rw [hsb]
      exact hc
    · simpa [hheld, hsb] using hl hi
    · have hlo : Kernel.looseAfter c (s.loose p) = Kernel.looseAfter c [] := by
        have := hends.1
        cases c <;> simp [Kernel.looseAfter, Ilist.StageOf] at this ⊢
      simpa [hheld, hsb, ← hlo] using hd.2 o

/-- The discipline leaves only `irelse` to release a slot, and it does not sleep. -/
lemma drops_of_plain {i : ℕ} (hc : c.plain) (hd : c.drops = some i) : c = .irelse i := by
  cases c <;> simp_all [Ilist.Call.drops, Ilist.Call.plain]

lemma Moved.of_call (hl : s.il.Locked) (hs : s.il.stage p = .idle) (hc : c.plain)
    (he : s.il.step (.call p c) = some il) : ∃ pre post, Moved s p c il pre post := by
  obtain ⟨pre, post, ho, hends, hpre, -⟩ := Ilist.call_out hl hs he
  have hkeeps : ∀ i, c.drops = some i → pre = some i ∧ post = none := by
    intro i hd
    obtain rfl := drops_of_plain hc hd
    have hpost : il.stage p = .idle ∧ post = none := by
      rcases hends with e | ⟨e, -⟩
      · exact e
      · exact absurd e (by simp [Ilist.StageOf])
    rcases hpre with ⟨e, -⟩ | ⟨-, e⟩ | ⟨-, e⟩
    · exact ⟨e, hpost.2⟩
    · exact absurd hpost.1 e
    · simp [hd] at e
  refine ⟨pre, post, ho.locked, ho.stage, fun i q e => ?_, hends, fun _ => ?_, fun i e => ?_,
    fun i hd => (hkeeps i hd).1⟩
  · rw [ho.own i] at e
    split_ifs at e with h1 h2
    · exact Or.inl ⟨h1, by simpa using e.symm⟩
    · exact Or.inr ⟨e, fun h => absurd h h2⟩
  · cases hd : c.drops with
    | none => exact Or.inl rfl
    | some i =>
        obtain ⟨hp, hq⟩ := hkeeps i hd
        refine Or.inr ⟨hp, fun j e => ?_⟩
        rw [ho.own j, if_neg (by simp [hq]), if_pos e]
  · simp [hs, Stage.locks] at e

lemma Moved.of_run {d : Option Bytes} (hl : s.il.Locked) (hs : Ilist.StageOf c (s.il.stage p))
    (hc : c.plain) (he : s.il.step (.run p d) = some il) : ∃ pre post, Moved s p c il pre post := by
  obtain ⟨pre, post, hm, hends, hpre⟩ := Ilist.run_moves hl hs he
  have hdrops : c.drops = none := by
    cases hd : c.drops with
    | none => rfl
    | some i =>
        obtain rfl := drops_of_plain hc hd
        exact absurd hs (by simp [Ilist.StageOf])
  have hlocks : ∀ i, (s.il.stage p).locks = some i → pre = some i := by
    intro i e
    rcases hpre with ⟨e', -⟩ | ⟨e', -⟩
    · exact e'.trans e
    · simp [e] at e'
  have hstage : ∀ q, q ≠ p → il.stage q = s.il.stage q := by
    rcases hm with hm | ⟨hm, -⟩
    · exact hm.stage
    · exact hm.stage
  have hlocked : il.Locked := by
    rcases hm with hm | ⟨hm, -⟩
    · exact hm.locked
    · exact hm.locked
  refine ⟨pre, post, hlocked, hstage, fun i q e => ?_, hends, fun _ => Or.inl hdrops, hlocks,
    fun i e => by simp [hdrops] at e⟩
  rcases hm with ho | ⟨hk, hpq⟩
  · rw [ho.own i] at e
    split_ifs at e with h1 h2
    · exact Or.inl ⟨h1, by simpa using e.symm⟩
    · exact Or.inr ⟨e, fun h => absurd h h2⟩
  · rw [hk.own] at e
    exact Or.inr ⟨e, fun h => hpq ▸ h⟩

/-- Locking a slot that is not busy does not sleep. -/
lemma ilock_idle {i : ℕ} (hs : s.il.stage p = .idle) (hb : (s.il.slot i).busy = false)
    (he : s.il.step (.call p (.ilock i)) = some il) : il.stage p = .idle := by
  simp only [Ilist.step, hs, Stage.isIdle, if_true, Ilist.call, hb, Bool.false_eq_true, if_false,
    Option.some.injEq] at he
  subst he
  exact hs

lemma own_zero : Own 0 := rfl

lemma own_one : Own 1 := rfl

/-- **A process makes a call.** -/
lemma DInv.call (h : DInv s) (ht : s.turn = none ∨ s.turn = some p) (hs : s.il.stage p = .idle)
    (hd : Job.Disc (.op c k) (s.held p) (s.loose p) (s.sb p)) (hc : s.Safe p (.op c k))
    (he : s.il.step (.call p c) = some il) : DInv (s.after p c k il) := by
  have hplain := plain_of_callOk hd.1
  obtain ⟨pre, post, hm⟩ := Moved.of_call h.locked hs hplain he
  have hnum : ∀ num, c.num = some num → Own num := by
    intro num e
    cases c with
    | iget num' dev =>
        obtain rfl : num' = num := by simpa [Ilist.Call.num] using e
        exact hc.1
    | ilock i | irelse i | idec i | isync | iflush d => simp [Ilist.Call.num] at e
  refine h.after ht hd hm (.call own_zero own_one h.locked (h.known p).1 hplain hnum hs he)
    (fun i r hsb => ?_) (fun hi => ?_) ⟨rfl, rfl, rfl, rfl, rfl⟩
  · -- the candidate is not locked
    cases c with
    | iget num dev =>
        have hb := hc.2 hsb
        simp only [Ilist.step, hs, Stage.isIdle, if_true, Ilist.call] at he
        set u : Ilist := { s.il with last := none } with hu
        have hb' : Ilist.blocked (u.n + 1) u num dev = false :=
          (Ilist.blocked_congr (t := u) (s := s.il) rfl (fun _ => rfl) (fun _ => rfl) (fun _ => rfl)
            _ num dev).trans hb
        exact Ilist.iget_not_wait (s := u) _ hs hb' he
    | ilock j | irelse j | idec j | isync | iflush d =>
        rcases hm.ends with ⟨e, -⟩ | ⟨e, -⟩
        · simp [e]
        · intro e'
          simp [e', Ilist.StageOf] at e
  · cases c with
    | ilock j =>
        rcases hd.1 with e | e
        · exact Or.inl e
        · have hb : (s.il.slot j).busy = false := by
            have := (h.locked j).mp.mt (by simp [h.released p j e])
            simpa using this
          exact absurd (ilock_idle hs hb he) hi
    | iget num dev | irelse j | isync => exact hd.1
    | idec j | iflush d => exact hd.1

/-- **A process goes on in a call.** -/
lemma DInv.goOn {d : Option Bytes} {disk : ℕ × ℕ → Bytes} (h : DInv s) (ht : s.turn = none)
    (hs : Ilist.StageOf c (s.il.stage p))
    (hd : Job.Disc (.op c k) (s.held p) (s.loose p) (s.sb p))
    (he : s.il.step (.run p d) = some il) : DInv ({ s with disk := disk }.after p c k il) := by
  have hplain := plain_of_callOk hd.1
  obtain ⟨pre, post, hm⟩ := Moved.of_run h.locked hs hplain he
  refine h.after (Or.inl ht) hd hm (.run own_zero own_one h.locked (h.known p) hplain hs he)
    (fun i r hsb => ?_) (fun _ => ?_) ⟨rfl, rfl, rfl, rfl, rfl⟩
  · exact Ilist.run_not_wait h.locked hs hplain (fun j q => h.calm p j q hsb) he i r
  · have hl : s.loose p = [] := by
      refine List.eq_nil_iff_forall_not_mem.mpr fun i hi => ?_
      simpa [ht] using (h.loose p i hi).1
    exact hl ▸ hd.1

/-! ## Steps and runs -/

/-- A change of a slot. -/
lemma DInv.act {f : Incore → Incore} (h : DInv s) (hf : Job.Mild f) (i : ℕ) :
    Near s { s with il := s.il.modSlot i f } p := by
  have hslot : ∀ j, ((s.il.modSlot i f).slot j).busy = (s.il.slot j).busy ∧
      ((s.il.modSlot i f).slot j).inum = (s.il.slot j).inum := by
    intro j
    by_cases hj : j = i
    · subst hj
      rw [Ilist.modSlot_self]
      exact ⟨(hf _).1, (hf _).2.1⟩
    · rw [Ilist.modSlot_ne _ _ hj]
      exact ⟨rfl, rfl⟩
  refine ⟨fun j => ?_, fun _ _ => rfl, fun _ _ => rfl, fun _ _ => ⟨rfl, rfl, rfl⟩,
    fun _ _ _ e => e, fun j => h.own j p, h.owner, h.calm p, fun j => ?_, (h.known p).2⟩
  · rw [(hslot j).1]
    exact h.locked j
  · rw [(hslot j).2]
    exact (h.known p).1 j

/-- A change of `s_inode`. -/
lemma DInv.list (h : DInv s) (d : ℕ) (l : List ℕ) : Near s (s.list d l) p := by
  refine ⟨h.locked, fun _ _ => rfl, fun _ _ => rfl, fun _ _ => ⟨rfl, rfl, rfl⟩,
    fun _ _ _ e => e, fun j => h.own j p, fun e q ho => h.owner e q ?_, h.calm p, h.known p⟩
  by_cases he : e = d
  · subst he
    simpa [Host.list] using ho
  · simpa [Host.list, he] using ho

/-- The buffer of a superblock is locked by a process that has none. -/
lemma DInv.take (h : DInv s) (hs : s.il.stage p = .idle) (hsb : s.sb p = none) (d : ℕ) :
    Near s (s.take p d) p := by
  refine ⟨h.locked, fun _ _ => rfl, fun _ _ => rfl, fun q hq => ⟨rfl, ?_, ?_⟩,
    fun _ _ _ e => e, fun j => h.own j p, fun e q ho => ?_, fun i r _ => ?_, h.known p⟩
  · exact Function.update_of_ne hq ..
  · exact Function.update_of_ne hq ..
  · by_cases he : e = d
    · subst he
      obtain rfl : p = q := by simpa [Host.take] using ho
      exact Function.update_self ..
    · have hq : s.sb q = some e := h.owner e q (by simpa [Host.take, he] using ho)
      have hne : q ≠ p := by
        rintro rfl
        simp [hsb] at hq
      exact (Function.update_of_ne hne ..).trans hq
  · rw [show (s.take p d).il.stage p = .idle from hs]
    simp

/-- The buffer of the superblock is released by the process that has it. -/
lemma DInv.give {d : ℕ} (h : DInv s) (hsb : s.sb p = some d) : Near s (s.give p d) p := by
  refine ⟨h.locked, fun _ _ => rfl, fun _ _ => rfl, fun q hq => ⟨rfl, rfl, ?_⟩,
    fun _ _ _ e => e, fun j => h.own j p, fun e q ho => ?_, fun i r hn => ?_, h.known p⟩
  · exact Function.update_of_ne hq ..
  · by_cases he : e = d
    · subst he
      simp [Host.give] at ho
    · have hq : s.sb q = some e := h.owner e q (by simpa [Host.give, he] using ho)
      have hne : q ≠ p := by
        rintro rfl
        exact he (Option.some.inj (hq.symm.trans hsb))
      exact (Function.update_of_ne hne ..).trans hq
  · simp [Host.give] at hn

/-- **The next thing that a process does.** -/
lemma DInv.exec (h : DInv s) (hp : s.plan p = .ready J) (ht : s.turn = none ∨ s.turn = some p)
    (hc : s.Safe p J) (he : s.exec p n J = some s') : DInv s' := by
  have hs : s.il.stage p = .idle := by
    have := h.stage p
    rwa [hp] at this
  have hd : Job.Disc J (s.held p) (s.loose p) (s.sb p) := by
    have := h.disc p
    rwa [hp] at this
  have hl := h.released p
  cases J with
  | done => exact absurd he (by simp [Host.exec])
  | op c k =>
      obtain ⟨il, hil, rfl⟩ := Option.map_eq_some_iff.mp he
      exact h.call ht hs hd hc hil
  | act i f k =>
      obtain rfl := Option.some.inj he
      exact h.go ht (h.act hd.1 i) hs hd.2 hl
  | look f k =>
      obtain rfl := Option.some.inj he
      exact h.go ht (h.near p) hs (hd _) hl
  | choose k =>
      obtain rfl := Option.some.inj he
      exact h.go ht (h.near p) hs (hd n) hl
  | sleep k =>
      obtain rfl := Option.some.inj he
      exact h.yield ht (h.near p) hs hd
  | bread b d k =>
      obtain rfl := Option.some.inj he
      split_ifs with hb
      · -- the buffer of the superblock is free to be taken: the process has none
        have hsb : s.sb p = none := by
          by_contra hne
          exact hc hne hb
        refine h.go ht (h.near p) hs ⟨hsb, rfl, ?_⟩ hl
        rw [← hsb]
        exact hd
      · exact h.yield ht (h.near p) hs hd
  | getsb d k =>
      obtain rfl := Option.some.inj he
      split_ifs
      · refine h.go ht (h.take hs hd.1 _) hs ?_ ?_
        · simpa [Host.take] using hd.2
        · simp [Host.take]
      · exact h.yield ht (h.near p) hs hd
  | flock d ro k =>
      obtain rfl := Option.some.inj he
      rw [if_neg (by simp [show (s.sup (d % 256)).flock = false from hc])]
      exact h.go ht (h.near p) hs hd hl
  | edit d f k =>
      obtain rfl := Option.some.inj he
      exact h.go ht (h.list _ _) hs hd hl
  | mark f k =>
      obtain rfl := Option.some.inj he
      have hn := h.near p
      exact h.go ht ⟨hn.locked, hn.stage, hn.plan, hn.others, hn.own, hn.mine, hn.owner, hn.calm,
        hn.known⟩ hs hd hl
  | bdwrite d k =>
      obtain rfl := Option.some.inj he
      refine h.go ht (h.give hd.1) hs ?_ hl
      simpa [Host.give] using hd.2

/-- **One step.** -/
lemma DInv.step {l : Label} (h : DInv s) (hc : Careful s l) (he : step s l = some s') :
    DInv s' := by
  cases l with
  | start p c =>
      simp only [Host.step] at he
      split at he
      · rename_i hp
        split_ifs at he with ht
        obtain rfl := Option.some.inj he
        -- the process has nothing locked
        have hs := h.stage p
        have hd := h.disc p
        rw [hp] at hs hd
        refine h.yield (Or.inl ht) (h.near p) hs ?_
        rw [show s.held p = [] from hd.1, show s.sb p = none from hd.2]
        exact c.disc
      · simp at he
  | exec p n =>
      simp only [Host.step] at he
      split at he
      · rename_i J hp
        split_ifs at he with ht
        have hsafe : s.Safe p (s.plan p).job := hc
        rw [hp] at hsafe
        exact h.exec hp ht hsafe he
      · simp at he
  | resume p ok =>
      simp only [Host.step] at he
      split at he
      · simp at he
      · rename_i c k hp
        split_ifs at he with ht
        obtain ⟨il, hil, rfl⟩ := Option.map_eq_some_iff.mp he
        have hs := h.stage p
        have hd := h.disc p
        rw [hp] at hs hd
        exact h.goOn ht.1 hs hd hil

/-- The I-list blocks have buffers of their own. -/
lemma DInv.iobuf (h : DInv s) (p : ℕ) : s.iobuf p = none := by
  unfold Host.iobuf
  cases (s.il.stage p).locks with
  | none => rfl
  | some i => simp [show sbBlock (s.il.slot i).inum = false from (h.known p).1 i]

/-- Whoever waits in the inode list waits for an inode. -/
lemma DInv.awaits_pending (h : DInv s) (hp : s.plan p = .pending c k) {q : ℕ}
    (hw : s.awaits p = some q) :
    ∃ i, s.il.own i = some q ∧
      ((∃ r, s.il.stage p = .getWait i r) ∨ ∃ a, s.il.stage p = .lockWait i a) := by
  rw [Host.awaits, hp] at hw
  dsimp only at hw
  split at hw
  · exact ⟨_, hw, Or.inl ⟨_, ‹_›⟩⟩
  · exact ⟨_, hw, Or.inr ⟨_, ‹_›⟩⟩
  · simp [h.iobuf p] at hw

/-- **Whoever waits for an inode has nothing locked.** -/
lemma DInv.unburdened (h : DInv s) (hp : s.plan p = .pending c k) {q : ℕ}
    (hw : s.awaits p = some q) : s.held p = [] ∧ s.sb p = none ∧ (s.il.stage p).locks = none := by
  have hst := h.stage p
  have hd := h.disc p
  rw [hp] at hst hd
  obtain ⟨i, hown, ⟨r, hk⟩ | ⟨a, hk⟩⟩ := h.awaits_pending hp hw
  · have hsb : s.sb p = none := by
      by_contra hne
      exact h.calm p i r hne hk
    rw [Plan.At, hk] at hst
    cases c with
    | iget num dev =>
        refine ⟨hd.1.resolve_left fun e => e hsb, hsb, by rw [hk]; rfl⟩
    | ilock j | irelse j | idec j | isync | iflush d => simp [Ilist.StageOf] at hst
  · rw [Plan.At, hk] at hst
    cases c with
    | ilock j =>
        obtain ⟨a', e⟩ := hst
        obtain ⟨rfl, -⟩ : i = j ∧ a = a' := by simpa using e
        rcases hd.1 with ⟨e1, e2⟩ | e
        · exact ⟨e1, e2, by rw [hk]; rfl⟩
        · simp [h.released p i e] at hown
    | iget num dev | irelse j | idec j | isync | iflush d => simp [Ilist.StageOf] at hst

/-- Nobody waits for a process that has nothing locked. -/
lemma DInv.unwanted (h : DInv s) (hheld : s.held p = []) (hsb : s.sb p = none)
    (hl : (s.il.stage p).locks = none) (x : ℕ) : ¬s.Waits x p := by
  intro hw
  have hsup : ∀ d, (s.sup d).owner ≠ some p := fun d e => by simp [h.owner d p e] at hsb
  cases hx : s.plan x with
  | ready J =>
      rw [Waits, awaits, hx] at hw
      cases J with
      | getsb d k => exact hsup _ hw
      | done | op c k | act i f k | look f k | choose k | sleep k | bread b d k | flock d ro k
      | edit d f k | mark f k | bdwrite d k => simp at hw
  | pending c k =>
      obtain ⟨i, hown, -⟩ := h.awaits_pending hx hw
      rcases h.own i p hown with e | e
      · simp [hheld] at e
      · simp [hl] at e

/-- **Whoever has the buffer of a superblock waits for nothing.** -/
lemma DInv.awaits_sb (h : DInv s) (hsb : s.sb p ≠ none) (x : ℕ) : ¬s.Waits p x := by
  intro hw
  cases hp : s.plan p with
  | ready J =>
      have hd := h.disc p
      rw [hp] at hd
      rw [Waits, awaits, hp] at hw
      cases J with
      | getsb d k => exact hsb hd.1
      | done | op c k | act i f k | look f k | choose k | sleep k | bread b d k | flock d ro k
      | edit d f k | mark f k | bdwrite d k => simp at hw
  | pending c k => exact hsb (h.unburdened hp hw).2.1

/-- No process waits for one that waits for another. -/
lemma DInv.waits (h : DInv s) (q : ℕ) (hw : s.Waits p q) :
    (∀ x, ¬s.Waits x p) ∨ ∀ x, ¬s.Waits q x := by
  cases hp : s.plan p with
  | ready J =>
      right
      rw [Waits, awaits, hp] at hw
      cases J with
      | getsb d k =>
          refine h.awaits_sb ?_
          simp [h.owner _ q hw]
      | done | op c k | act i f k | look f k | choose k | sleep k | bread b d k | flock d ro k
      | edit d f k | mark f k | bdwrite d k => simp at hw
  | pending c k =>
      left
      obtain ⟨h1, h2, h3⟩ := h.unburdened hp hw
      exact h.unwanted h1 h2 h3

/-- A state in which the I-list blocks of the inodes in core have buffers of their own. -/
def Start (s : Host) : Prop := Boot s ∧ ∀ i, Own (s.il.slot i).inum

lemma Start.inv (h : Start s) : DInv s where
  locked i := by simp [h.1.il.busy i, h.1.il.own i]
  stage p := by
    rw [h.1.plan p]
    exact h.1.il.stage p
  disc p := by
    rw [h.1.plan p]
    exact ⟨h.1.held p, h.1.sb p⟩
  own i q e := by simp [h.1.il.own i] at e
  loose p i hi := by simp [h.1.loose p] at hi
  owner d q e := by simp [h.1.owner d] at e
  calm p i r _ := by simp [h.1.il.stage p]
  known p := ⟨h.2, fun num e => by simp [h.1.il.stage p, Stage.seeks] at e⟩

/-- **No lock cycle**: in every run in which `ialloc` finds the candidates that it takes up not
locked, `balloc` meets no superblock of a device that is mounted read-only and no other block comes
into the buffer of a superblock, no processes wait in a cycle. -/
theorem no_lock_cycle (h : Transition.Reach step Start Careful s) (p : ℕ) :
    ¬Relation.TransGen s.Waits p p := by
  have hi : DInv s := h.invariant (fun _ hs => hs.inv) fun _ _ _ hi hc he => DInv.step hi hc he
  exact acyclic (fun _ q hw => hi.waits q hw) p

/-- Device 1 has one block of inodes, of which inode 3 alone is free; two directories are in core. -/
def lone : Host :=
  { il :=
      { n := 50
        slot := fun i => if i < 2 then
          ⟨i + 1, 1, Ilist.plain, false, false, false, false, 1, none, 0, 0⟩ else Incore.zero
        icount := 0
        mlook := fun d => if d = 1 then some ⟨1, false⟩ else none
        stage := fun _ => .idle
        event := fun _ => none
        own := fun _ => none
        refs := fun i => if i < 2 then 1 else 0
        last := none }
    disk := fun t => if t = (3, 1) then Bytes.zero else Ilist.plain
    sup := fun _ => ⟨none, false, 1, []⟩
    lastiblock := 2
    plan := fun _ => .ready .done
    turn := none
    held := fun _ => []
    loose := fun _ => []
    sb := fun _ => none }

lemma lone_slot (i : ℕ) : lone.il.slot i = if i < 2 then
    ⟨i + 1, 1, Ilist.plain, false, false, false, false, 1, none, 0, 0⟩ else Incore.zero := rfl

lemma lone_refs (i : ℕ) : lone.il.refs i = if i < 2 then 1 else 0 := rfl

lemma start_lone : Start lone := by
  refine ⟨⟨⟨fun _ => rfl, fun _ => rfl, fun _ => rfl, fun i => ?_, fun i => ?_, ?_, rfl⟩,
    fun _ => rfl, fun _ => rfl, rfl, fun _ => rfl, fun _ => rfl, fun _ => rfl⟩, fun i => ?_⟩
  · rw [lone_slot]
    split_ifs
    · rfl
    · rfl
  · rw [lone_slot, lone_refs]
    split_ifs
    · exact ⟨rfl, by decide⟩
    · exact ⟨rfl, by decide⟩
  · intro i j _ _ hz e
    rw [Ilist.tag, Ilist.tag, lone_slot, lone_slot] at e
    rw [lone_slot] at hz
    split_ifs at hz e with hi hj
    · injection e with e _
      exact Nat.succ_injective e
    · injection e with e _
      exact absurd e (Nat.succ_ne_zero i)
    · exact absurd rfl hz
    · exact absurd rfl hz
  · by_cases hi : i < 2
    · obtain rfl | rfl : i = 0 ∨ i = 1 := by omega
      · rfl
      · rfl
    · rw [lone_slot, if_neg hi]
      exact own_zero

/-- Process `p` goes on, with what it finds where it chooses. -/
def goes (p : ℕ) (found : List ℕ) : List Label := found.map (Label.exec p)

/-- `creat` in the directory in slot `ip`, up to the candidate of `ialloc`. -/
def makes (p ip : ℕ) : List Label :=
  .start p (.creat 1 ip 3) ::
    goes p [0, 1, 1, 0, 0, 0, 0, 1, 0, 0, 0, 0, 0, 0, 0, 0, 1, 0, 0, 0, 0, 0, 0, 0]

/-- A `creat` that takes inode 3 from the list and writes its entry. -/
theorem no_lock_cycle_creat : ∃ s, Transition.Reach step Start Careful s ∧ s.held 1 = [0, 2] ∧
    ¬Relation.TransGen s.Waits 1 1 := by
  have hrun : (Transition.run step Careful lone
      (makes 1 0 ++ .resume 1 true :: goes 1 [0, 0, 0, 0, 0, 0, 1, 3, 0, 0, 5, 0])).map
        (fun s => s.held 1) = some [0, 2] := by
    decide +kernel
  obtain ⟨s, hs, he⟩ := Option.map_eq_some_iff.mp hrun
  have hr := Transition.Reach.of_run start_lone hs
  exact ⟨s, hr, he, no_lock_cycle hr 1⟩

/-- Process 1 has taken inode 3 in core, which is free on the disk as long as it is locked, and wants
a block for its directory.  Process 2 has the superblock, found inode 3 on the disk once more and
waits for it. -/
theorem creat_lock_cycle : ¬∀ s, Transition.Reachable step Start s →
    ∀ p, ¬Relation.TransGen s.Waits p p := by
  intro h
  have hrun : (Transition.run step (fun _ _ => True) lone
      (makes 1 0 ++ .resume 1 true :: goes 1 [0, 0, 0, 0, 0, 0, 1, 3, 0, 0, 5, 0] ++ makes 2 1 ++
        goes 1 [1, 0])).map (fun s => (s.awaits 1, s.awaits 2)) = some (some 2, some 1) := by
    decide +kernel
  obtain ⟨s, hs, he⟩ := Option.map_eq_some_iff.mp hrun
  simp only [Prod.mk.injEq] at he
  exact h s (.of_run start_lone hs) 1 (.tail (.single he.1) he.2)

end Host

end Micronix
