import Micronix.Proc.Ledger

/-!
# What a call has to make good when it sleeps

`Fair` is read off a routine: it takes from the counts only what it has put there, at the end it has
nothing to make good, and where it sleeps at a priority that a signal interrupts it has nothing to
make good either.  The exception is the wait for carrier, in `muopen`: `iopen` has raised the count
of the inode for it.
-/

namespace Micronix

namespace Deed

/-- What the account must be for a change. -/
def Ok (d : Deed) (t : Tally) : Prop :=
  match d with
  | ref _ => t.owed.length ≤ 1
  | unref i => i ∈ t.owed
  | enter _ => t.away = true
  | unspawn _ => False
  | putsb => t.super = true ∧ t.owed = []
  | irelse _ | quit | unlink _ | mklink _ | takeTurn | giveTurn | bget _ | brelse _ => True

end Deed

namespace Task

/-- What a process may have to make good when it sleeps. -/
def Calm (e : Event) (pri : ℕ) (t : Tally) : Prop :=
  pri < sigPri → if e = .mstate then t.owed ≠ [] else t = .clear

/-- The discipline. -/
def Fair : Task → Tally → Prop
  | done, t => t = .clear
  | act d k, t => d.Ok t ∧ (d = .quit → k = done) ∧ Fair k (d.tally t)
  | look _ k, t => ∀ n, Fair (k n) t
  | choose k, t => ∀ n, Fair (k n) t
  | ilock i k, t => t.owed.length ≤ 1 ∧ Fair k (t.lock i)
  | relock i k, t => i ∈ t.owed ∧ Fair k ((t.pay i).lock i)
  | sleep e pri k, t => Calm e pri t ∧ Fair k t
  | await e pri _ k, t => Calm e pri t ∧ Fair k t
  | fopen _ k, t => Fair k t
  | unslot _ k, t => Fair (k none) t ∧ ∀ f, Fair (k (some f)) (t.fowe f)
  | drop f last k, t => f ∈ t.fowed ∧ t.owed.length ≤ 1 ∧ Fair k (t.fpay f) ∧
      ∀ i, Fair (last i) ((t.fpay f).owe i)
  | release i last k, t => i ∈ t.owed ∧ Fair k (t.pay i) ∧ Fair last ((t.pay i).charge i)
  | getsb k, t => Fair k { t with super := true }
  | take i used k, t => (i ∈ t.held ∧ t.super = true ∧ t.owed = []) ∧ Fair used t ∧ Fair k t
  | leave k, t => ∀ c, Fair (k c) { t.charge c with away := true }
  | spawn _ full k, t => Fair full t ∧ Fair k t
  | idec i k, t => t.freeing = none ∧ Fair k ((t.unlock i).discharge i)
  | freeing i k, t => t.freeing = some i ∧ Fair k { (t.unlock i).discharge i with freeing := none }

variable {t : Tally} {i : ℕ} {k : Task}

/-! ## Accounts -/

@[simp] lemma lock_unlock : (t.lock i).unlock i = t := by simp [Tally.lock, Tally.unlock]

@[simp] lemma owe_pay : (t.owe i).pay i = t := by simp [Tally.owe, Tally.pay]

@[simp] lemma fowe_fpay : (t.fowe i).fpay i = t := by simp [Tally.fowe, Tally.fpay]

@[simp] lemma charge_discharge : (t.charge i).discharge i = t := by
  simp [Tally.charge, Tally.discharge]

/-- Releasing the slot that was locked before the last one. -/
lemma lock_lock_unlock {j : ℕ} : ((t.lock j).lock i).unlock j = t.lock i := by
  by_cases h : i = j
  · subst h
    simp [Tally.lock, Tally.unlock]
  · simp [Tally.lock, Tally.unlock, List.erase_cons_tail, h]

/-! ## The routines -/

lemma fair_irelse (h : Fair k t) : Fair (irelse i k) (t.lock i) :=
  ⟨trivial, by simp, by simpa [Deed.tally] using h⟩

lemma fair_io (h : Fair k t) : Fair (io k) t := ⟨fun h => absurd h (by decide), h⟩

lemma fair_iget {k : Option ℕ → Task} (ho : t.owed.length ≤ 1) (hn : Fair (k none) t)
    (hs : ∀ i, Fair (k (some i)) (t.lock i)) : Fair (iget k) t := by
  intro r
  cases r with
  | zero => exact hn
  | succ i => exact ⟨ho, fair_io (hs i)⟩

/-- The loop of `iname`, by induction on the names to go. -/
lemma fair_walk {k : Option ℕ → Option ℕ → Task} (ho : t.owed = [])
    (hn : ∀ parent, Fair (k none parent) t) (hs : ∀ i parent, Fair (k (some i) parent) (t.lock i))
    (n : ℕ) : ∀ ip parent, Fair (walk k n ip parent) (t.lock ip) := by
  induction n with
  | zero => exact fun ip parent => hs ip parent
  | succ n ih =>
      intro ip parent
      rw [walk]
      intro isdir
      dsimp only
      split_ifs
      · exact fair_irelse (hn parent)
      · intro ok
        dsimp only
        split_ifs
        · exact fair_irelse (hn (some ip))
        · refine fair_io fun inum => ?_
          dsimp only
          split_ifs
          · exact fair_irelse (hn (some ip))
          · refine ⟨by simp [Deed.Ok, Tally.lock, ho], by simp, ?_⟩
            have hcomm : (Deed.ref ip).tally (t.lock ip) = (t.owe ip).lock ip := rfl
            rw [hcomm]
            have hmem : ip ∈ (t.owe ip).owed := List.mem_cons_self
            refine fair_irelse (fair_iget (by simp [Tally.owe, ho]) ?_ fun i => ?_)
            · exact ⟨hmem, by simp, by simpa [Deed.tally] using hn (some ip)⟩
            · refine ⟨hmem, by simp, ?_⟩
              have hc : (Deed.unref ip).tally ((t.owe ip).lock i) = ((t.owe ip).pay ip).lock i := rfl
              rw [hc, owe_pay]
              exact ih i (some ip)

lemma fair_iname {k : Option ℕ → Option ℕ → Task} (ho : t.owed = [])
    (hn : ∀ parent, Fair (k none parent) t) (hs : ∀ i parent, Fair (k (some i) parent) (t.lock i))
    (n ip : ℕ) : Fair (iname n ip k) t :=
  ⟨by simp [ho], fair_walk ho hn hs n ip none⟩

/-- The wait for carrier, with something to make good. -/
lemma fair_copen (ho : t.owed ≠ []) (h : Fair k t) : Fair (copen k) t := by
  intro major
  dsimp only
  split_ifs
  · intro kind
    dsimp only
    split
    · exact h
    · exact h
    · exact ⟨fun _ => by simpa using ho, h⟩
  · exact h

lemma fair_iopen (ho : t.owed = []) (h : Fair k (t.lock i)) : Fair (iopen i k) (t.lock i) := by
  have hrest : Fair (choose fun error => if error ≠ 0 then k else fopen i k) (t.lock i) := by
    intro error
    dsimp only
    split_ifs
    · exact h
    · exact h
  intro fmt
  dsimp only
  split
  · refine ⟨by simp [Deed.Ok, Tally.lock, ho], by simp, ?_⟩
    rw [show (Deed.ref i).tally (t.lock i) = (t.owe i).lock i from rfl]
    refine fair_irelse (fair_copen (by simp [Tally.owe]) ⟨by simp [Tally.owe, ho], ?_⟩)
    refine ⟨List.mem_cons_self, by simp, ?_⟩
    rw [show (Deed.unref i).tally ((t.owe i).lock i) = ((t.owe i).pay i).lock i from rfl, owe_pay]
    exact hrest
  · exact fair_io hrest
  · exact hrest

lemma fair_iclose (ho : t.owed = []) (hfr : t.freeing = none) (h : Fair k t) :
    Fair (iclose i k) (t.owe i) := by
  refine ⟨List.mem_cons_self, by simpa using h, ?_⟩
  rw [owe_pay]
  have hidec : Fair (idec i k) ((t.charge i).lock i) := by
    refine ⟨hfr, ?_⟩
    rw [lock_unlock, charge_discharge]
    exact h
  refine ⟨by simp [Tally.charge, ho], fun fmt => ?_⟩
  dsimp only
  split
  · refine ⟨by simp [Deed.Ok, Tally.lock, Tally.charge, ho], by simp, ?_⟩
    rw [show (Deed.ref i).tally ((t.charge i).lock i) = ((t.charge i).owe i).lock i from rfl]
    refine fair_irelse ⟨by simp [Tally.owe, Tally.charge, ho], List.mem_cons_self, by simp, ?_⟩
    rw [show (Deed.unref i).tally (((t.charge i).owe i).lock i)
      = (((t.charge i).owe i).pay i).lock i from rfl, owe_pay]
    exact hidec
  · exact fair_io hidec
  · exact hidec

lemma fair_close (ho : t.owed = []) (hfr : t.freeing = none) (h : Fair k t) (fd : ℕ) :
    Fair (close fd k) t := by
  refine ⟨h, fun f => ⟨List.mem_cons_self, by simp [Tally.fowe, ho], by simpa using h, fun ip => ?_⟩⟩
  rw [fowe_fpay]
  exact fair_iclose ho hfr h

lemma fair_exit : Fair exit .clear := by
  have hloop : ∀ n, Fair (closeAll (act .quit done) n) .clear := by
    intro n
    induction n with
    | zero => exact ⟨trivial, fun _ => rfl, rfl⟩
    | succ n ih => exact fair_close rfl rfl ih _
  exact hloop nopen

lemma fair_ilink (ho : t.owed = []) (parent : ℕ) (h : Fair k t) : Fair (ilink parent k) t :=
  ⟨by simp [ho], fair_io (fair_irelse h)⟩

lemma fair_icand {k : Option ℕ → Task} (ho : t.owed = []) (hs : t.super = true)
    (hn : Fair (k none) { t with super := false })
    (hk : ∀ i, Fair (k (some i)) ({ t with super := false }.lock i)) (m : ℕ) :
    Fair (icand k m) t := by
  induction m with
  | zero => exact ⟨⟨hs, ho⟩, by simp, hn⟩
  | succ m ih =>
      rw [icand]
      refine fair_io fun r => ?_
      cases r with
      | zero => exact ⟨⟨hs, ho⟩, by simp, hn⟩
      | succ i =>
          exact ⟨by simp [ho], fair_io ⟨⟨List.mem_cons_self, hs, ho⟩, fair_irelse ih, ⟨hs, ho⟩,
            by simp, hk i⟩⟩

lemma fair_ialloc {k : Option ℕ → Task} (ho : t.owed = []) (hs : t.super = false)
    (hn : Fair (k none) t) (hk : ∀ i, Fair (k (some i)) (t.lock i)) (m : ℕ) :
    Fair (ialloc m k) t := by
  have ht : { ({ t with super := true } : Tally) with super := false } = t := by
    rw [← hs]
  refine fair_icand (t := { t with super := true }) ho rfl ?_ (fun i => ?_) m
  · rw [ht]
    exact hn
  · rw [ht]
    exact hk i

lemma fair_imkfile {k : Option ℕ → Task} (ho : t.owed = []) (hsup : t.super = false)
    (hn : Fair (k none) t) (hs : ∀ i, Fair (k (some i)) (t.lock i)) (m parent : ℕ) :
    Fair (imkfile m parent k) t := by
  intro ok
  dsimp only
  split_ifs
  · exact hn
  · refine ⟨by simp [ho], fair_ialloc (t := t.lock parent) ho hsup (fair_irelse hn) (fun i => ?_) m⟩
    refine ⟨trivial, by simp, ?_⟩
    rw [show (Deed.irelse parent).tally ((t.lock parent).lock i)
      = ((t.lock parent).lock i).unlock parent from rfl, lock_lock_unlock]
    refine fair_ilink (t := t.lock i) ho parent ?_
    exact ⟨trivial, by simp, hs i⟩

/-! ## The calls -/

lemma fair_end : Fair (iopen i (irelse i done)) (Tally.clear.lock i) :=
  fair_iopen rfl (fair_irelse rfl)

lemma fair_open (n ip : ℕ) : Fair (Task.open n ip) .clear := by
  refine fair_iname rfl (fun _ => ?_) (fun i _ => ?_) n ip
  · exact rfl
  · intro ok
    dsimp only
    split_ifs
    · exact fair_irelse rfl
    · exact fair_end

lemma fair_creat (n ip m : ℕ) : Fair (creat n ip m) .clear := by
  refine fair_iname rfl (fun parent => ?_) (fun i _ => ?_) n ip
  · cases parent with
    | none => exact rfl
    | some parent =>
        refine fair_imkfile rfl rfl ?_ (fun _ => ?_) m parent
        · exact rfl
        · exact fair_end
  · intro ok
    dsimp only
    split_ifs
    · exact fair_irelse rfl
    · exact fair_io fair_end

lemma fair_chdir (n ip : ℕ) : Fair (chdir n ip) .clear := by
  refine fair_iname rfl (fun _ => ?_) (fun i _ => ?_) n ip
  · exact rfl
  intro ok
  dsimp only
  split_ifs
  · exact fair_irelse rfl
  · refine fun c => ⟨rfl, rfl, by simp, trivial, by simp, ?_⟩
    -- `idec` may have released the new directory, when it is the old one
    by_cases hc : c = i
    · subst hc
      simp [Deed.tally, Tally.lock, Tally.charge, Tally.clear, Tally.unlock, Tally.discharge, Fair]
    · simp [Deed.tally, Tally.lock, Tally.charge, Tally.clear, Tally.unlock, Tally.discharge, Fair,
        List.erase_cons_tail, Ne.symm hc]

lemma fair_unlink (n ip : ℕ) : Fair (unlink n ip) .clear := by
  refine fair_iname rfl (fun _ => ?_) (fun i parent => fair_irelse ?_) n ip
  · exact rfl
  cases parent with
  | none => exact rfl
  | some parent =>
      intro ok
      dsimp only
      split_ifs
      · exact rfl
      · refine ⟨trivial, by simp, by simp [Deed.Ok, Deed.tally, Tally.charge, Tally.clear],
          by simp, rfl, List.mem_cons_self, by simp, ?_⟩
        have ht : (Deed.unref parent).tally ((((Deed.ref parent).tally
            ((Deed.unlink i).tally .clear)).unlock i).discharge i) = .clear := by
          simp [Deed.tally, Tally.charge, Tally.clear, Tally.owe, Tally.pay, Tally.unlock,
            Tally.discharge]
        rw [ht]
        exact fair_ilink rfl parent rfl

lemma fair_fork (child : ℕ) : Fair (fork child true) .clear :=
  ⟨rfl, fair_io (k := done) rfl⟩

lemma fair_pread (ip n : ℕ) : Fair (pread ip n) .clear := by
  induction n with
  | zero => exact rfl
  | succ n ih =>
      refine ⟨by decide, fun empty => ?_⟩
      dsimp only
      split_ifs
      · exact fair_io (fair_irelse rfl)
      · intro writer
        dsimp only
        split_ifs
        · exact fair_irelse rfl
        · exact fair_irelse ⟨fun _ => rfl, ih⟩

lemma fair_pwrite (ip n : ℕ) : Fair (pwrite ip n) .clear := by
  induction n with
  | zero => exact rfl
  | succ n ih =>
      refine ⟨by decide, fun reader => ?_⟩
      dsimp only
      split_ifs
      · exact fair_irelse rfl
      · refine fair_io fun full => ?_
        dsimp only
        split_ifs
        · exact fair_irelse rfl
        · exact fair_irelse ⟨fun _ => rfl, ih⟩

lemma fair_ttywrite (n : ℕ) : Fair (ttywrite done n) .clear := by
  induction n with
  | zero => exact rfl
  | succ n ih =>
      intro count
      dsimp only
      split_ifs
      · exact rfl
      · exact ⟨fun _ => rfl, ih⟩

lemma fair_read (ip n : ℕ) : Fair (read ip n) .clear := by
  intro kind
  dsimp only
  split
  · exact fair_pread ip n
  · intro cooked
    dsimp only
    split_ifs
    · exact rfl
    · exact ⟨fun _ => rfl, rfl⟩
  · exact fair_io rfl

lemma fair_write (ip n : ℕ) : Fair (write ip n) .clear := by
  intro kind
  dsimp only
  split
  · exact fair_pwrite ip n
  · exact fair_ttywrite n
  · exact fair_io rfl

lemma fair_wait (n : ℕ) : Fair (wait n) .clear := by
  induction n with
  | zero => exact rfl
  | succ n ih =>
      intro zombie
      dsimp only
      split_ifs
      · exact rfl
      · exact ⟨fun _ => rfl, ih⟩

lemma fair_snooze (n : ℕ) : Fair (snooze n) .clear := by
  induction n with
  | zero => exact rfl
  | succ n ih =>
      intro late
      dsimp only
      split_ifs
      · exact rfl
      · exact ⟨fun _ => rfl, ih⟩

lemma fair_exec (n ip nblks old : ℕ) : Fair (exec n ip nblks old) .clear := by
  have hfin : ∀ a b, a ≤ b → Fair (act (.brelse b) (act .giveTurn done))
      ⟨[], [], [], [], a, false, true, false, none⟩ := by
    intro a b hab
    refine ⟨trivial, by simp, trivial, by simp, ?_⟩
    simp [Deed.tally, Fair, Tally.clear, Nat.sub_eq_zero_of_le hab]
  refine ⟨fun _ => rfl, trivial, by simp, ?_⟩
  rw [show Deed.takeTurn.tally .clear = ⟨[], [], [], [], 0, false, true, false, none⟩ from rfl]
  refine fair_iname rfl (fun _ => ?_) (fun i _ => ?_) n ip
  · exact hfin 0 old (Nat.zero_le _)
  intro xchk
  dsimp only
  split_ifs
  · exact fair_irelse (hfin 0 old (Nat.zero_le _))
  · have hend : Fair (irelse i (act (.brelse nblks) (act .giveTurn done)))
        (Tally.lock ⟨[], [], [], [], 0 + nblks, false, true, false, none⟩ i) :=
      fair_irelse (hfin _ _ (by simp))
    refine fair_io ⟨trivial, by simp, fair_io ?_⟩
    intro fit
    dsimp only
    split_ifs
    · exact hend
    · exact fair_io hend

end Task

/-- **Every call keeps to the discipline**, except for a `fork` without room for the child. -/
lemma Trap.fair (c : Trap) (h : ∀ child, c ≠ .fork child false) : c.task.Fair .clear := by
  cases c with
  | «open» n ip => exact Task.fair_open n ip
  | creat n ip m => exact Task.fair_creat n ip m
  | close fd => exact Task.fair_close (t := .clear) (k := .done) rfl rfl rfl fd
  | chdir n ip => exact Task.fair_chdir n ip
  | unlink n ip => exact Task.fair_unlink n ip
  | fork child room =>
      cases room with
      | false => exact absurd rfl (h child)
      | true => exact Task.fair_fork child
  | exit => exact Task.fair_exit
  | read ip n => exact Task.fair_read ip n
  | write ip n => exact Task.fair_write ip n
  | wait n => exact Task.fair_wait n
  | pause => exact ⟨fun _ => rfl, rfl⟩
  | snooze n => exact Task.fair_snooze n
  | exec n ip nblks old => exact Task.fair_exec n ip nblks old

end Micronix
