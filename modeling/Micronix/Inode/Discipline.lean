import Micronix.Inode.Calls
import Micronix.Inode.Mutex

/-!
# Who may release a lock

`Disc` is a discipline that can be read off a routine: it releases only what it has locked, or has
itself released since it last slept.  Every system call keeps to it except for the `idec` of
`chdir`, `unlink` and `umount`, which release an inode that they have not locked.  In runs where
these find the inode not locked by anybody else, `IBUSY` is cleared only by the process that set it.
-/

namespace Micronix

namespace Prog

/-- What a routine may release: `bare` says that `idec` may be called without the lock. -/
def CallOk (bare : Bool) (held loose : List ℕ) : Ilist.Call → Prop
  | .irelse i => i ∈ held ∨ i ∈ loose
  | .idec i => i ∈ held ∨ bare = true
  | .iget _ _ | .ilock _ | .isync | .iflush _ => True

/-- The discipline: `held` are the slots that the process has locked, `loose` those it has released
since it last slept.  At the end nothing is locked. -/
def Disc (bare : Bool) : Prog → List ℕ → List ℕ → Prop
  | done, held, _ => held = []
  | op c k, held, loose => CallOk bare held loose c ∧
      ∀ o, Disc bare (k o) (Kernel.heldAfter c o held) (Kernel.looseAfter c loose)
  | act _ k, held, loose => Disc bare k held loose
  | look _ k, held, loose => ∀ n, Disc bare (k n) held loose
  | choose k, held, loose => ∀ n, Disc bare (k n) held loose
  | sleep k, held, _ => Disc bare k held []

variable {bare : Bool} {held loose : List ℕ} {i : ℕ} {k : Prog}

/-! ## The routines -/

lemma disc_ilock (h : Disc bare k (i :: held) []) : Disc bare (ilock i k) held loose :=
  ⟨trivial, fun _ => h⟩

/-- Releasing the slot that was locked last. -/
lemma disc_irelse (h : ∀ l, Disc bare k held l) : Disc bare (irelse i k) (i :: held) loose := by
  refine ⟨Or.inl List.mem_cons_self, fun _ => ?_⟩
  rw [Kernel.heldAfter, List.erase_cons_head]
  exact h _

lemma disc_idec (h : ∀ l, Disc bare k held l) : Disc bare (idec i k) (i :: held) loose := by
  refine ⟨Or.inl List.mem_cons_self, fun _ => ?_⟩
  rw [Kernel.heldAfter, List.erase_cons_head]
  exact h _

/-- The loop of `iname`, by induction on the names to go. -/
lemma disc_walk {k : Option ℕ → Option ℕ → Prog}
    (h : ∀ o parent l, Disc bare (k o parent) (o.toList ++ held) l) (n : ℕ) :
    ∀ ip parent l, Disc bare (walk k n ip parent) (ip :: held) l := by
  induction n with
  | zero =>
      intro ip parent l
      exact h (some ip) parent l
  | succ n ih =>
      intro ip parent l
      rw [walk]
      intro isdir
      dsimp only
      split_ifs
      · exact disc_irelse (h none parent)
      · intro ok
        dsimp only
        split_ifs
        · exact disc_irelse (h none (some ip))
        · intro inum
          dsimp only
          split_ifs
          · exact disc_irelse (h none (some ip))
          · refine disc_irelse fun l d => ⟨trivial, fun o => ?_⟩
            cases o with
            | none => exact h none (some ip) _
            | some i => exact ih i (some ip) _

lemma disc_iname {k : Option ℕ → Option ℕ → Prog}
    (h : ∀ o parent l, Disc bare (k o parent) (o.toList ++ held) l) (n ip : ℕ) :
    Disc bare (iname n ip k) held loose :=
  disc_ilock (disc_walk h n ip none [])

lemma disc_iopen (h : ∀ l, Disc bare k (i :: held) l) : Disc bare (iopen i k) (i :: held) loose := by
  have hrest : ∀ l, Disc bare (choose fun fd => if fd = 0 then k else act (.ref i) k)
      (i :: held) l := by
    intro l fd
    dsimp only
    split_ifs
    · exact h l
    · exact h l
  intro fmt
  dsimp only
  split
  · exact disc_irelse fun l => disc_ilock (hrest [])
  · exact hrest []
  · exact hrest loose

lemma disc_iclose (h : ∀ l, Disc bare k held l) : Disc bare (iclose i k) held loose := by
  intro c
  dsimp only
  split_ifs
  · exact h loose
  · refine disc_ilock fun fmt => ?_
    dsimp only
    split
    · exact disc_irelse fun l => disc_ilock (disc_idec h)
    · exact disc_idec h
    · exact disc_idec h

lemma disc_fclose (h : ∀ l, Disc bare k held l) : Disc bare (fclose i k) held loose := by
  intro count
  dsimp only
  split_ifs
  · exact h loose
  · intro pipe
    dsimp only
    split_ifs
    · exact disc_iclose h
    · exact disc_iclose h

lemma disc_ilink (h : ∀ l, Disc bare k held l) : Disc bare (ilink i k) held loose :=
  disc_ilock (disc_irelse h)

lemma disc_open (n ip : ℕ) : Disc bare (Prog.open n ip) [] [] := by
  refine disc_iname (fun o _ l => ?_) n ip
  cases o with
  | none => exact rfl
  | some i =>
      intro ok
      dsimp only
      split_ifs
      · exact disc_irelse fun _ => rfl
      · exact disc_iopen fun _ => disc_irelse fun _ => rfl

lemma disc_exit (cdir : ℕ) (files : List ℕ) : ∀ l, Disc bare (exit cdir files) [] l := by
  induction files with
  | nil => exact fun _ => rfl
  | cons i files ih => exact fun _ => disc_fclose ih

/-- `idec` releases the old current directory without the lock, or with it when it is the new
one. -/
lemma disc_chdir (n ip cdir : ℕ) : Disc true (chdir n ip cdir) [] [] := by
  refine disc_iname (fun o _ l => ?_) n ip
  cases o with
  | none => exact rfl
  | some i =>
      intro isdir
      dsimp only
      split_ifs
      · exact disc_irelse fun _ => rfl
      · intro ok
        dsimp only
        split_ifs
        · exact disc_irelse fun _ => rfl
        · refine ⟨Or.inr rfl, fun _ => ?_⟩
          by_cases hc : cdir = i
          · subst hc
            refine ⟨Or.inr List.mem_cons_self, fun _ => ?_⟩
            simp [Kernel.heldAfter, Disc]
          · have he : [i].erase cdir = [i] := by
              rw [List.erase_cons_tail (by simpa using Ne.symm hc), List.erase_nil]
            simp only [Kernel.heldAfter, Option.toList_some, List.append_nil, he]
            exact disc_irelse fun _ => rfl

/-- `unlink` has released the inode when it calls `idec`. -/
lemma disc_unlink (n ip : ℕ) : Disc true (unlink n ip) [] [] := by
  refine disc_iname (fun o parent l => ?_) n ip
  cases o with
  | none => exact rfl
  | some i =>
      refine disc_irelse fun l => ?_
      cases parent with
      | none => exact rfl
      | some parent =>
          intro ok
          dsimp only
          split_ifs
          · exact rfl
          · exact ⟨Or.inr rfl, fun _ => disc_ilink fun _ => rfl⟩

lemma disc_link (n ip n' ip' : ℕ) : Disc bare (link n ip n' ip') [] [] := by
  refine disc_iname (fun o _ l => ?_) n ip
  cases o with
  | none => exact rfl
  | some old =>
      refine disc_irelse fun l ok => ?_
      dsimp only
      split_ifs
      · exact rfl
      · intro inum d
        refine disc_iname (fun o parent l => ?_) n' ip'
        cases o with
        | some new => exact disc_irelse fun _ => rfl
        | none =>
            cases parent with
            | none => exact rfl
            | some parent =>
                intro ok
                dsimp only
                split_ifs
                · exact rfl
                · refine ⟨trivial, fun o => ?_⟩
                  cases o with
                  | none => exact rfl
                  | some i => exact disc_irelse fun _ => disc_ilink fun _ => rfl

lemma disc_ialloc {d : ℕ} {k : Option ℕ → Prog}
    (h : ∀ o l, Disc bare (k o) (o.toList ++ held) l) (n : ℕ) :
    ∀ l, Disc bare (ialloc d k n) held l := by
  induction n with
  | zero => exact h none
  | succ n ih =>
      intro l
      have htake : ∀ f : Option ℕ → Prog, f none = ialloc d k n →
          (∀ ip, f (some ip) = choose fun free =>
            if free = 0 then irelse ip (ialloc d k n) else act (.alloc ip) <| k (some ip)) →
          ∀ l, Disc bare (choose fun num => iget num d f) held l := by
        intro f hnone hsome l num
        refine ⟨trivial, fun o => ?_⟩
        cases o with
        | none => exact hnone ▸ ih _
        | some i =>
            rw [hsome]
            intro free
            dsimp only
            split_ifs
            · exact disc_irelse ih
            · exact h (some i) _
      rw [ialloc]
      intro free
      dsimp only
      split_ifs
      · refine ⟨trivial, fun _ ok => ?_⟩
        dsimp only
        split_ifs
        · exact h none []
        · exact htake _ rfl (fun _ => rfl) []
      · exact htake _ rfl (fun _ => rfl) l

lemma disc_imkfile {k : Option ℕ → Prog} (h : ∀ o l, Disc bare (k o) (o.toList ++ held) l)
    (n parent : ℕ) : Disc bare (imkfile n parent k) held loose := by
  intro ok
  dsimp only
  split_ifs
  · exact h none loose
  · refine disc_ilock fun d => disc_ialloc (fun o l => ?_) n []
    cases o with
    | none => exact disc_irelse (h none)
    | some i =>
        refine ⟨Or.inl (List.mem_append_right _ List.mem_cons_self), fun _ => ?_⟩
        by_cases hp : parent = i
        · -- the list cannot give the locked parent out again
          subst hp
          simp only [Kernel.heldAfter, Option.toList_some, List.cons_append, List.nil_append,
            List.erase_cons_head]
          exact disc_ilink (h (some parent))
        · have he : (i :: parent :: held).erase parent = i :: held := by
            rw [List.erase_cons_tail (by simpa using Ne.symm hp), List.erase_cons_head]
          simp only [Kernel.heldAfter, Option.toList_some, List.cons_append, List.nil_append, he]
          exact disc_ilink (h (some i))

lemma disc_creat (n ip m : ℕ) : Disc bare (creat n ip m) [] [] := by
  refine disc_iname (fun o parent l => ?_) n ip
  have hend : ∀ i l, Disc bare (iopen i (irelse i done)) [i] l := fun i l =>
    disc_iopen fun _ => disc_irelse fun _ => rfl
  cases o with
  | some i =>
      intro ok
      dsimp only
      split_ifs
      · exact disc_irelse fun _ => rfl
      · exact hend i []
  | none =>
      cases parent with
      | none => exact rfl
      | some parent =>
          refine disc_imkfile (fun o l => ?_) m parent
          cases o with
          | none => exact rfl
          | some i => exact hend i l

lemma disc_pwrite (ip n : ℕ) : ∀ l, Disc bare (pwrite ip n) [] l := by
  induction n with
  | zero => exact fun _ => rfl
  | succ n ih =>
      refine fun l => disc_ilock fun reader => ?_
      dsimp only
      split_ifs
      · exact disc_irelse fun _ => rfl
      · intro full
        dsimp only
        split_ifs
        · exact disc_irelse fun _ => rfl
        · exact disc_irelse fun _ => ih []

lemma disc_pread (ip n : ℕ) : ∀ l, Disc bare (pread ip n) [] l := by
  induction n with
  | zero => exact fun _ => rfl
  | succ n ih =>
      refine fun l => disc_ilock fun empty => ?_
      dsimp only
      split_ifs
      · exact disc_irelse fun _ => rfl
      · intro writer
        dsimp only
        split_ifs
        · exact disc_irelse fun _ => rfl
        · exact disc_irelse fun _ => ih []

lemma disc_mount (n ip n' ip' : ℕ) : Disc bare (mount n ip n' ip') [] [] := by
  refine disc_iname (fun o _ l => ?_) n ip
  cases o with
  | none => exact rfl
  | some io =>
      refine disc_irelse fun l ok => ?_
      dsimp only
      split_ifs
      · exact rfl
      · intro inum idev d
        refine disc_iname (fun o _ l => ?_) n' ip'
        cases o with
        | none => exact rfl
        | some id =>
            intro ok
            dsimp only
            split_ifs
            · exact disc_irelse fun _ => rfl
            · intro isize
              dsimp only
              split_ifs
              · exact disc_irelse fun _ => rfl
              · refine ⟨trivial, fun o => ?_⟩
                cases o with
                | none => exact disc_irelse fun _ => rfl
                | some io => exact disc_irelse fun _ => disc_irelse fun _ => rfl

/-- `umount` has not locked the inode on which the file system is mounted. -/
lemma disc_umount (n ip d m : ℕ) : Disc true (umount n ip d m) [] [] := by
  refine disc_iname (fun o _ l => ?_) n ip
  cases o with
  | none => exact rfl
  | some io =>
      intro ok
      dsimp only
      split_ifs
      · exact disc_irelse fun _ => rfl
      · refine ⟨trivial, fun _ used => ?_⟩
        dsimp only
        split_ifs
        · exact disc_irelse fun _ => rfl
        · refine ⟨trivial, fun _ => disc_irelse fun l => disc_iclose fun l => ⟨Or.inr rfl, fun _ => ?_⟩⟩
          simp [Kernel.heldAfter, Disc]

end Prog

end Micronix
