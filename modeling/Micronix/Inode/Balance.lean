import Micronix.Inode.Exclusion

/-!
# Every exit path gives the locked inodes back

The remaining system calls that lock inodes, and what every routine has locked when it returns.
`held` is the account of what `iget`, `iname`, `ialloc` and `ilock` have locked for a process and
`irelse` and `idec` have not released; `own` is what is true of the list.  The account is empty
whenever a process is outside the kernel, unless `istat` has refused a buffer: then the inode of
`stat` and `fstat` stays locked.

Nothing is asked of `idec` here: another process may have released a slot before.
-/

namespace Micronix

namespace Prog

/-! ## The routines -/

/-- `istat(ip, buf)`, where `legal` is what `valid(buf, 36)` says. -/
def istat (legal : Bool) (ip : ℕ) : Prog := sleep <| if legal then irelse ip done else done

/-- `stat(name, buf)` -/
def stat (legal : Bool) (n ip : ℕ) : Prog :=
  iname n ip fun o _ =>
    match o with
    | none => done
    | some ip => istat legal ip

/-- `fstat(fd, buf)` of a file whose inode is `ip`. -/
def fstat (legal : Bool) (ip : ℕ) : Prog :=
  choose fun file => if file = 0 then done else ilock ip <| istat legal ip

/-- `chmod(name, mode)` -/
def chmod (n ip mode : ℕ) : Prog :=
  iname n ip fun o _ =>
    match o with
    | none => done
    | some i => choose fun ok =>
        if ok = 0 then irelse i done
        else act (.modify i fun d k =>
          if k = 0 then UInt8.ofNat mode
          else if k = 1 then d 1 / 16 * 16 + UInt8.ofNat (mode / 256 % 16) else d k) <| irelse i done

/-- `chown(name, owner)` -/
def chown (n ip owner : ℕ) : Prog :=
  choose fun super =>
    if super = 0 then done
    else iname n ip fun o _ =>
      match o with
      | none => done
      | some i => choose fun ronly =>
          if ronly ≠ 0 then irelse i done
          else act (.modify i fun d k =>
            if k = 3 then UInt8.ofNat owner
            else if k = 4 then UInt8.ofNat (owner / 256) else d k) <| irelse i done

/-- `permission(name, mode)` -/
def permission (n ip : ℕ) : Prog :=
  iname n ip fun o _ =>
    match o with
    | none => done
    | some ip => irelse ip done

/-- `mknod(name, mode, dev)` -/
def mknod (n ip m : ℕ) : Prog :=
  choose fun super =>
    if super = 0 then done
    else iname n ip fun o parent =>
      match o, parent with
      | some ip, _ => irelse ip done
      | none, none => done
      | none, some parent => imkfile m parent fun o =>
          match o with
          | none => done
          | some ip => irelse ip done

/-- `pipe(vec)` on the root device. -/
def pipe (root m : ℕ) : Prog :=
  choose fun file =>
    if file = 0 then done
    -- `getsb`
    else sleep <| ialloc root (fun o =>
      match o with
      | none => done
      | some ip => act (.ref ip) <| act (.ref ip) <| irelse ip done) m

/-- `exec(name, args)`, which waits at most `turns` times for its turn. -/
def exec (n ip : ℕ) : ℕ → Prog
  | 0 => iname n ip fun o _ =>
      match o with
      | none => done
      | some ip => choose fun xchk =>
          if xchk = 0 then irelse ip done
          -- `getargs` and `rdhdr`
          else sleep <| choose fun fit =>
            if fit = 0 then irelse ip done
            -- `mrelse`, `putargs`, `setusr` and `readin`
            else sleep <| irelse ip done
  | turns + 1 => choose fun execing => if execing = 0 then exec n ip 0 else sleep <| exec n ip turns

/-- On every path a routine that starts with `held` locked ends with nothing locked. -/
def Balanced : Prog → List ℕ → Prop
  | done, held => held = []
  | op c k, held => ∀ o, Balanced (k o) (Kernel.heldAfter c o held)
  | act _ k, held => Balanced k held
  | look _ k, held => ∀ n, Balanced (k n) held
  | choose k, held => ∀ n, Balanced (k n) held
  | sleep k, held => Balanced k held

end Prog

/-- The system calls that lock inodes and are not among `Syscall`. -/
inductive Service
  | stat (legal : Bool) (n ip : ℕ)
  | fstat (legal : Bool) (ip : ℕ)
  | chmod (n ip mode : ℕ)
  | chown (n ip owner : ℕ)
  | permission (n ip : ℕ)
  | mknod (n ip m : ℕ)
  | pipe (root m : ℕ)
  | exec (n ip turns : ℕ)

namespace Service

/-- Its routine. -/
def prog : Service → Prog
  | stat legal n ip => Prog.stat legal n ip
  | fstat legal ip => Prog.fstat legal ip
  | chmod n ip mode => Prog.chmod n ip mode
  | chown n ip owner => Prog.chown n ip owner
  | permission n ip => Prog.permission n ip
  | mknod n ip m => Prog.mknod n ip m
  | pipe root m => Prog.pipe root m
  | exec n ip turns => Prog.exec n ip turns

/-- The buffer of `stat` or `fstat` is legal. -/
def Legal : Service → Prop
  | stat legal _ _ | fstat legal _ => legal = true
  | chmod _ _ _ | chown _ _ _ | permission _ _ | mknod _ _ _ | pipe _ _ | exec _ _ _ => True

instance : ∀ c, Decidable (Legal c)
  | stat legal _ _ | fstat legal _ => inferInstanceAs (Decidable (legal = true))
  | chmod _ _ _ | chown _ _ _ | permission _ _ | mknod _ _ _ | pipe _ _ | exec _ _ _ =>
      inferInstanceAs (Decidable True)

/-- A process makes one of these calls, or what else can happen in the kernel. -/
inductive Move
  | enter (p : ℕ) (c : Service)
  | kernel (l : Kernel.Label)

/-- The step function. -/
def step (s : Kernel) : Move → Option Kernel
  | .enter p c =>
      match s.ctl p with
      | .ready .done => if s.turn = none then some (s.yield p (.ready c.prog)) else none
      | _ => none
  | .kernel l => s.step l

/-- A call of `stat` or `fstat` comes with a legal buffer. -/
def Lawful (_ : Kernel) : Move → Prop
  | .enter _ c => c.Legal
  | .kernel _ => True

instance (s : Kernel) : ∀ l, Decidable (Lawful s l)
  | .enter _ c => inferInstanceAs (Decidable c.Legal)
  | .kernel _ => inferInstanceAs (Decidable True)

end Service

namespace Prog

variable {bare : Bool} {held loose : List ℕ} {i : ℕ} {k : Prog}

/-! ## What is locked at the end -/

/-- A routine that keeps to the discipline is balanced. -/
lemma Disc.balanced {P : Prog} : ∀ {held loose}, Disc bare P held loose → Balanced P held := by
  induction P with
  | done => exact fun h => h
  | op c k ih => exact fun h o => ih o (h.2 o)
  | act a k ih => exact fun h => ih h
  | look f k ih => exact fun h n => ih n (h n)
  | choose k ih => exact fun h n => ih n (h n)
  | sleep k ih => exact fun h => ih h

lemma disc_istat : Disc bare (istat true i) [i] loose :=
  disc_irelse fun _ => rfl

lemma disc_chmod (n ip mode : ℕ) : Disc bare (chmod n ip mode) [] [] := by
  refine disc_iname (fun o _ l => ?_) n ip
  cases o with
  | none => exact rfl
  | some i =>
      intro ok
      dsimp only
      split_ifs
      · exact disc_irelse fun _ => rfl
      · exact disc_irelse fun _ => rfl

lemma disc_chown (n ip owner : ℕ) : Disc bare (chown n ip owner) [] [] := by
  intro super
  dsimp only
  split_ifs
  · exact rfl
  · refine disc_iname (fun o _ l => ?_) n ip
    cases o with
    | none => exact rfl
    | some i =>
        intro ronly
        dsimp only
        split_ifs
        · exact disc_irelse fun _ => rfl
        · exact disc_irelse fun _ => rfl

lemma disc_mknod (n ip m : ℕ) : Disc bare (mknod n ip m) [] [] := by
  intro super
  dsimp only
  split_ifs
  · exact rfl
  · refine disc_iname (fun o parent l => ?_) n ip
    cases o with
    | some i => exact disc_irelse fun _ => rfl
    | none =>
        cases parent with
        | none => exact rfl
        | some parent =>
            refine disc_imkfile (fun o l => ?_) m parent
            cases o with
            | none => exact rfl
            | some i => exact disc_irelse fun _ => rfl

lemma disc_pipe (root m : ℕ) : Disc bare (pipe root m) [] [] := by
  intro file
  dsimp only
  split_ifs
  · exact rfl
  · refine disc_ialloc (fun o l => ?_) m []
    cases o with
    | none => exact rfl
    | some i => exact disc_irelse fun _ => rfl

lemma disc_exec (n ip turns : ℕ) : ∀ l, Disc bare (exec n ip turns) [] l := by
  have hbody : ∀ l, Disc bare (exec n ip 0) [] l := by
    intro l
    rw [exec]
    refine disc_iname (fun o _ l => ?_) n ip
    cases o with
    | none => exact rfl
    | some i =>
        intro xchk
        dsimp only
        split_ifs
        · exact disc_irelse fun _ => rfl
        · intro fit
          dsimp only
          split_ifs
          · exact disc_irelse fun _ => rfl
          · exact disc_irelse fun _ => rfl
  induction turns with
  | zero => exact hbody
  | succ turns ih =>
      intro l
      rw [exec]
      intro execing
      dsimp only
      split_ifs
      · exact hbody l
      · exact ih []

/-- When the search succeeds, what follows has the last inode locked. -/
lemma Balanced.of_walk {k : Option ℕ → Option ℕ → Prog} (n : ℕ) :
    ∀ {ip parent}, Balanced (walk k n ip parent) [ip] → ∃ i parent, Balanced (k (some i) parent) [i] := by
  induction n with
  | zero => exact fun h => ⟨_, _, h⟩
  | succ n ih =>
      intro ip parent h
      -- a directory that can be searched and has an entry, whose inode is found in the same slot
      have h' := h 1 1 1 none 0 (some ip)
      simp only [Kernel.heldAfter, List.erase_cons_head, Option.toList_some, List.append_nil] at h'
      exact ih h'

/-- `istat` of a buffer that is not legal returns with the inode locked. -/
lemma not_balanced_istat : ¬Balanced (istat false i) [i] := List.cons_ne_nil _ _

end Prog

/-- Every call with a legal buffer keeps to the strict discipline. -/
lemma Service.disc (c : Service) (h : c.Legal) : Prog.Disc false c.prog [] [] := by
  cases c with
  | stat legal n ip =>
      obtain rfl : legal = true := h
      refine Prog.disc_iname (fun o _ l => ?_) n ip
      cases o with
      | none => exact rfl
      | some i => exact Prog.disc_istat
  | fstat legal ip =>
      obtain rfl : legal = true := h
      intro file
      dsimp only
      split_ifs
      · exact rfl
      · exact Prog.disc_ilock Prog.disc_istat
  | chmod n ip mode => exact Prog.disc_chmod n ip mode
  | chown n ip owner => exact Prog.disc_chown n ip owner
  | permission n ip =>
      refine Prog.disc_iname (fun o _ l => ?_) n ip
      cases o with
      | none => exact rfl
      | some i => exact Prog.disc_irelse fun _ => rfl
  | mknod n ip m => exact Prog.disc_mknod n ip m
  | pipe root m => exact Prog.disc_pipe root m
  | exec n ip turns => exact Prog.disc_exec n ip turns []

/-- **Every call is balanced on every path, except for `stat` and `fstat` with a buffer that is not
legal.** -/
lemma Service.balanced_iff (c : Service) : Prog.Balanced c.prog [] ↔ c.Legal := by
  refine ⟨fun h => ?_, fun h => (c.disc h).balanced⟩
  cases c with
  | stat legal n ip =>
      cases legal with
      | true => exact rfl
      | false =>
          -- the search finds the file
          obtain ⟨i, -, h'⟩ := Prog.Balanced.of_walk n (h none)
          exact absurd h' Prog.not_balanced_istat
  | fstat legal ip =>
      cases legal with
      | true => exact rfl
      | false => exact absurd (h 1 none) Prog.not_balanced_istat
  | chmod | chown | permission | mknod | pipe | exec => trivial

lemma Syscall.balanced (c : Syscall) : Prog.Balanced c.prog [] :=
  (c.disc fun _ => rfl : Prog.Disc true c.prog [] []).balanced

/-! ## Who owns what -/

namespace Ilist

/-- After a step of process `p` every lock was there before, except for `post`, and `p` has given up
`pre`. -/
structure Left (s s' : Ilist) (p : ℕ) (pre post : Option ℕ) : Prop where
  locked : Locked s'
  own : ∀ i q, s'.own i = some q → q = p ∧ post = some i ∨ s.own i = some q ∧ (q = p → pre ≠ some i)
  stage : ∀ q, q ≠ p → s'.stage q = s.stage q

variable {s s' : Ilist} {p : ℕ} {pre post : Option ℕ}

lemma Out.left (h : Out s s' p pre post) : Left s s' p pre post := by
  refine ⟨h.locked, fun i q e => ?_, h.stage⟩
  rw [h.own i] at e
  split_ifs at e with hpost hpre
  · exact Or.inl ⟨(Option.some.inj e).symm, hpost⟩
  · exact Or.inr ⟨e, fun _ => hpre⟩

lemma Kept.left (h : Kept s s' p) : Left s s' p pre pre := by
  refine ⟨h.locked, fun i q e => ?_, h.stage⟩
  rw [h.own] at e
  by_cases hq : q = p ∧ pre = some i
  · exact Or.inl hq
  · exact Or.inr ⟨e, fun hp hpre => hq ⟨hp, hpre⟩⟩

end Ilist

namespace Kernel

variable {s s' : Kernel} {il : Ilist} {p n : ℕ} {c : Ilist.Call} {k : Option ℕ → Prog}
  {pre post : Option ℕ} {P : Prog}

@[simp] lemma go_ctl : (s.go p P).ctl = Function.update s.ctl p (.ready P) := by
  unfold Kernel.go
  split_ifs <;> rfl

@[simp] lemma go_held : (s.go p P).held = s.held := by
  unfold Kernel.go
  split_ifs <;> rfl

/-- The invariant: the account covers every lock, and what each process still has to do gives back
all that is in the account. -/
structure Accounted (s : Kernel) : Prop where
  locked : s.il.Locked
  stage : ∀ p, (s.ctl p).At (s.il.stage p)
  prog : ∀ p, Prog.Balanced (s.ctl p).prog (s.held p)
  own : ∀ i p, s.il.own i = some p → i ∈ s.held p ∨ (s.il.stage p).locks = some i

/-- The process continues with a routine that is balanced. -/
lemma Accounted.ready {t : Kernel} (h : Accounted s) (hst : t.il.stage = s.il.stage)
    (hidle : s.il.stage p = .idle) (hbusy : ∀ i, (t.il.slot i).busy = (s.il.slot i).busy)
    (hown : t.il.own = s.il.own) (hheld : t.held = s.held)
    (hctl : t.ctl = Function.update s.ctl p (.ready P)) (hP : Prog.Balanced P (s.held p)) :
    Accounted t := by
  refine ⟨fun i => ?_, fun q => ?_, fun q => ?_, fun i q e => ?_⟩
  · rw [hbusy, hown]
    exact h.locked i
  · rw [hctl, hst]
    by_cases hq : q = p
    · subst hq
      rw [Function.update_self]
      exact hidle
    · rw [Function.update_of_ne hq]
      exact h.stage q
  · rw [hctl, hheld]
    by_cases hq : q = p
    · subst hq
      rw [Function.update_self]
      exact hP
    · rw [Function.update_of_ne hq]
      exact h.prog q
  · rw [hheld, hst]
    rw [hown] at e
    exact h.own i q e

/-- What a call does not release stays in the account. -/
lemma heldAfter_of_mem {i : ℕ} {o : Option ℕ} {held : List ℕ} (hi : i ∈ held)
    (hc : c.drops ≠ some i) : i ∈ heldAfter c o held := by
  cases c with
  | iget num dev => exact List.mem_append_right _ hi
  | ilock j => exact List.mem_cons_of_mem _ hi
  | irelse j | idec j =>
      have hj : i ≠ j := by
        rintro rfl
        exact hc rfl
      exact (List.mem_erase_of_ne hj).mpr hi
  | isync | iflush d => exact hi

/-- What a call returns locked goes into the account. -/
lemma heldAfter_of_grant {i : ℕ} {held : List ℕ} (hi : il.grant c = some i) :
    i ∈ heldAfter c il.result held := by
  cases c with
  | iget num dev =>
      have hr : il.result = some i := hi
      simp [heldAfter, hr]
  | ilock j =>
      obtain rfl : j = i := by simpa [Ilist.grant] using hi
      exact List.mem_cons_self
  | irelse j | idec j | isync | iflush d => simp [Ilist.grant] at hi

/-- **A process makes a call or goes on in it**: it returns, or sleeps in it. -/
lemma Accounted.after (h : Accounted s) (hl : Ilist.Left s.il il p pre post)
    (hends : il.Ends p c post) (hk : ∀ o, Prog.Balanced (k o) (heldAfter c o (s.held p)))
    (hheld : ∀ i, s.il.own i = some p → pre ≠ some i → i ∈ s.held p)
    (hpre : il.stage p = .idle → pre = c.drops ∨ c.drops = none) :
    Accounted (s.after p c k il) := by
  rcases hends with ⟨hidle, hgrant⟩ | ⟨hst, hlocks⟩
  · rw [Kernel.after, if_pos (by rw [hidle]; rfl)]
    refine ⟨?_, fun q => ?_, fun q => ?_, fun i q e => ?_⟩
    · rw [go_il]
      exact hl.locked
    · rw [go_ctl, go_il]
      by_cases hq : q = p
      · subst hq
        rw [Function.update_self]
        exact hidle
      · rw [Function.update_of_ne hq, hl.stage q hq]
        exact h.stage q
    · rw [go_ctl, go_held]
      by_cases hq : q = p
      · subst hq
        simp only [Function.update_self]
        exact hk _
      · simp only [Function.update_of_ne hq]
        exact h.prog q
    · rw [go_il] at e ⊢
      rw [go_held]
      dsimp only at e ⊢
      rcases hl.own i q e with ⟨rfl, hpost⟩ | ⟨e', hno⟩
      · left
        rw [Function.update_self]
        exact heldAfter_of_grant (hgrant.symm.trans hpost)
      · by_cases hq : q = p
        · subst hq
          left
          rw [Function.update_self]
          refine heldAfter_of_mem (hheld i e' (hno rfl)) fun hd => ?_
          rcases hpre hidle with hp | hp
          · exact hno rfl (hp.trans hd)
          · rw [hp] at hd
            exact absurd hd (by simp)
        · rw [Function.update_of_ne hq, hl.stage q hq]
          exact h.own i q e'
  · have hb : (il.stage p).isIdle = false := by
      cases hs : il.stage p with
      | idle => exact absurd (hs ▸ hst) (not_stageOf_idle c)
      | _ => rfl
    rw [Kernel.after, if_neg (by simp [hb])]
    refine ⟨hl.locked, fun q => ?_, fun q => ?_, fun i q e => ?_⟩
    · by_cases hq : q = p
      · subst hq
        simp only [Kernel.yield, Function.update_self]
        exact hst
      · simp only [Kernel.yield, Function.update_of_ne hq, hl.stage q hq]
        exact h.stage q
    · by_cases hq : q = p
      · subst hq
        simp only [Kernel.yield, Function.update_self]
        exact hk
      · simp only [Kernel.yield, Function.update_of_ne hq]
        exact h.prog q
    · rcases hl.own i q e with ⟨rfl, hpost⟩ | ⟨e', hno⟩
      · exact Or.inr (hlocks.symm.trans hpost)
      · by_cases hq : q = p
        · subst hq
          exact Or.inl (hheld i e' (hno rfl))
        · have := h.own i q e'
          rwa [← hl.stage q hq] at this

/-- A call. -/
lemma Accounted.call (h : Accounted s) (hp : (s.ctl p).prog = .op c k) (hs : s.il.stage p = .idle)
    (he : s.il.step (.call p c) = some il) : Accounted (s.after p c k il) := by
  obtain ⟨pre, post, ho, hends, hpre, -⟩ := Ilist.call_out h.locked hs he
  have hk : Prog.Balanced (.op c k) (s.held p) := hp ▸ h.prog p
  refine h.after ho.left hends hk (fun i e _ => ?_) fun hidle => ?_
  · rcases h.own i p e with hi | hi
    · exact hi
    · simp [hs, Stage.locks] at hi
  · rcases hpre with ⟨hp, -⟩ | ⟨-, hne⟩ | ⟨-, hd⟩
    · exact Or.inl hp
    · exact absurd hidle hne
    · exact Or.inr hd

/-- Going on in a call. -/
lemma Accounted.goOn {d : Option Bytes} (h : Accounted s) (hp : (s.ctl p).prog = .op c k)
    (hs : Ilist.StageOf c (s.il.stage p)) (he : s.il.step (.run p d) = some il) :
    Accounted (s.after p c k il) := by
  obtain ⟨pre, post, hm, hends, hpre⟩ := Ilist.run_moves h.locked hs he
  have hk : Prog.Balanced (.op c k) (s.held p) := hp ▸ h.prog p
  have hl : Ilist.Left s.il il p pre post := by
    rcases hm with hm | ⟨hkept, rfl⟩
    · exact hm.left
    · exact hkept.left
  refine h.after hl hends hk (fun i e hno => ?_) fun hidle => ?_
  · rcases h.own i p e with hi | hi
    · exact hi
    · -- the slot locked in the call is the one that is given up
      rcases hpre with ⟨hp, -⟩ | ⟨hn, -⟩
      · exact absurd (hp.trans hi) hno
      · rw [hn] at hi
        exact absurd hi (by simp)
  · rcases hpre with ⟨-, hd⟩ | ⟨-, hp, -⟩
    · exact Or.inr hd
    · exact Or.inl hp

/-- **One step of the kernel.** -/
lemma Accounted.step {l : Label} (h : Accounted s) (he : s.step l = some s') : Accounted s' := by
  cases l with
  | start p c =>
      simp only [Kernel.step] at he
      split at he
      · rename_i hp
        split_ifs at he
        obtain rfl := Option.some.inj he
        have hs := h.stage p
        have hheld := h.prog p
        rw [hp] at hs hheld
        refine h.ready rfl hs (fun _ => rfl) rfl rfl rfl ?_
        rw [show s.held p = [] from hheld]
        exact c.balanced
      · simp at he
  | exec p n =>
      simp only [Kernel.step] at he
      split at he
      · rename_i P hp
        split_ifs at he
        have hs := h.stage p
        have hP := h.prog p
        rw [hp] at hs hP
        cases P with
        | done => exact absurd he (by simp [Kernel.exec])
        | op c k =>
            obtain ⟨il, hil, rfl⟩ := Option.map_eq_some_iff.mp he
            exact h.call (by rw [hp]; rfl) hs hil
        | act a k =>
            obtain rfl := Option.some.inj he
            obtain ⟨hb, ho, hst⟩ := act_run a s.il
            exact h.ready (by rw [go_il]; exact hst) hs (by rw [go_il]; exact hb)
              (by rw [go_il]; exact ho) go_held go_ctl hP
        | look f k =>
            obtain rfl := Option.some.inj he
            exact h.ready (by rw [go_il]) hs (by simp) (by simp) go_held go_ctl (hP _)
        | choose k =>
            obtain rfl := Option.some.inj he
            exact h.ready (by rw [go_il]) hs (by simp) (by simp) go_held go_ctl (hP n)
        | sleep k =>
            obtain rfl := Option.some.inj he
            exact h.ready rfl hs (fun _ => rfl) rfl rfl rfl hP
      · simp at he
  | resume p d =>
      simp only [Kernel.step] at he
      split at he
      · simp at he
      · rename_i c k hp
        split_ifs at he
        obtain ⟨il, hil, rfl⟩ := Option.map_eq_some_iff.mp he
        have hs := h.stage p
        rw [hp] at hs
        exact h.goOn (by rw [hp]; rfl) hs hil
  | env a =>
      simp only [Kernel.step] at he
      split_ifs at he
      obtain rfl := Option.some.inj he
      obtain ⟨hb, ho, hst⟩ := act_run a s.il
      refine ⟨fun i => ?_, fun p => ?_, h.prog, fun i p e => ?_⟩
      · rw [hb, ho]
        exact h.locked i
      · rw [hst]
        exact h.stage p
      · rw [hst]
        rw [ho] at e
        exact h.own i p e

lemma Boot.accounted (h : Boot s) : Accounted s where
  locked := (show KInv true _ from h.kinv).locked
  stage := (show KInv true _ from h.kinv).stage
  prog p := by
    rw [h.ctl p]
    exact h.held p
  own i p e := by simp [h.il.own i] at e

end Kernel

namespace Service

open Kernel

variable {s s' : Kernel} {l : Move}

/-- **One step.** -/
lemma accounted_step (h : Accounted s) (hl : Lawful s l) (he : step s l = some s') :
    Accounted s' := by
  cases l with
  | enter p c =>
      simp only [step] at he
      split at he
      · rename_i hp
        split_ifs at he
        obtain rfl := Option.some.inj he
        have hs := h.stage p
        have hheld := h.prog p
        rw [hp] at hs hheld
        refine h.ready rfl hs (fun _ => rfl) rfl rfl rfl ?_
        rw [show s.held p = [] from hheld]
        exact c.balanced_iff.mpr hl
      · simp at he
  | kernel l => exact h.step he

/-- Whether a process is outside the kernel. -/
def outside (s : Kernel) (p : ℕ) : Bool :=
  match s.ctl p with
  | .ready P => P.isDone
  | .pending _ _ => false

lemma ctl_of_outside {p : ℕ} (h : outside s p = true) : s.ctl p = .ready .done := by
  unfold outside at h
  split at h
  · rename_i P hp
    rw [hp]
    cases P <;> simp_all [Prog.isDone]
  · simp at h

end Service

end Micronix
