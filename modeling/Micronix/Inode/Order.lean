import Micronix.Inode.Superblock

/-!
# The order of the locks

`Disc` is a discipline that can be read off a routine: whoever waits for an inode has no inode and
no superblock locked, unless it is the candidate of `ialloc` or an inode that the process has itself
released since it last slept; and whoever wants the buffer of a superblock has none.  The five
system calls keep to it.
-/

namespace Micronix

namespace Job

/-- A change of a slot that leaves its lock and its inode alone. -/
def Mild (f : Incore → Incore) : Prop :=
  ∀ x, (f x).busy = x.busy ∧ (f x).inum = x.inum ∧ (f x).dev = x.dev

/-- When a routine may call the inode list. -/
def CallOk (held loose : List ℕ) (sb : Option ℕ) : Ilist.Call → Prop
  | .iget _ _ => sb ≠ none ∨ held = []
  | .ilock i => held = [] ∧ sb = none ∨ i ∈ loose
  | .irelse _ | .isync => True
  | .idec _ | .iflush _ => False

/-- The discipline: `held` are the slots that the process has locked, `loose` those it has released
since it last slept, `sb` the superblock that it has locked.  At the end nothing is locked. -/
def Disc : Job → List ℕ → List ℕ → Option ℕ → Prop
  | done, held, _, sb => held = [] ∧ sb = none
  | op c k, held, loose, sb => CallOk held loose sb c ∧
      ∀ o, Disc (k o) (Kernel.heldAfter c o held) (Kernel.looseAfter c loose) sb
  | act _ f k, held, loose, sb => Mild f ∧ Disc k held loose sb
  | look _ k, held, loose, sb => ∀ n, Disc (k n) held loose sb
  | choose k, held, loose, sb => ∀ n, Disc (k n) held loose sb
  | sleep k, held, _, sb => Disc k held [] sb
  | bread _ _ k, held, _, sb => Disc k held [] sb
  | getsb d k, held, _, sb => sb = none ∧ Disc k held [] (some (d % 256))
  | flock _ _ k, held, loose, sb => Disc k held loose sb
  | edit _ _ k, held, loose, sb => Disc k held loose sb
  | mark _ k, held, loose, sb => Disc k held loose sb
  | bdwrite d k, held, loose, sb => sb = some (d % 256) ∧ Disc k held loose none

variable {held loose : List ℕ} {sb : Option ℕ} {i d : ℕ} {k : Job}

/-! ## Locking and releasing -/

/-- Waiting for an inode with nothing locked. -/
lemma disc_ilock (h : Disc k [i] [] none) : Disc (ilock i k) [] loose none :=
  ⟨Or.inl ⟨rfl, rfl⟩, fun _ => h⟩

/-- Releasing the slot that was locked last. -/
lemma disc_irelse (h : ∀ l, Disc k held (i :: l) sb) : Disc (irelse i k) (i :: held) loose sb := by
  refine ⟨trivial, fun _ => ?_⟩
  rw [Kernel.heldAfter, List.erase_cons_head]
  exact h _

lemma disc_ref (h : Disc k held loose sb) : Disc (ref i k) held loose sb :=
  ⟨fun _ => ⟨rfl, rfl, rfl⟩, h⟩

lemma disc_unref (h : Disc k held loose sb) : Disc (unref i k) held loose sb :=
  ⟨fun _ => ⟨rfl, rfl, rfl⟩, h⟩

lemma disc_dirty (h : Disc k held loose sb) : Disc (dirty i k) held loose sb := by
  refine ⟨fun x => ?_, h⟩
  dsimp only
  split_ifs
  · exact ⟨rfl, rfl, rfl⟩
  · exact ⟨rfl, rfl, rfl⟩

/-! ## Blocks -/

lemma disc_balloc (h : ∀ l, Disc k held l none) : Disc (balloc d k) held loose none := by
  refine ⟨rfl, fun free => ?_⟩
  dsimp only
  split_ifs
  · exact ⟨rfl, h []⟩
  · exact fun bn => ⟨rfl, h []⟩

lemma disc_bfree (h : ∀ l, Disc k held l none) : Disc (bfree d k) held loose none := by
  intro bn
  dsimp only
  split_ifs
  · exact h loose
  · refine ⟨rfl, fun full => ?_⟩
    dsimp only
    split_ifs
    · exact ⟨rfl, h []⟩
    · exact ⟨rfl, h []⟩

lemma disc_plug (h : ∀ l, Disc k held l none) : Disc (plug d k) held loose none := by
  refine disc_balloc fun l hole => ?_
  dsimp only
  split_ifs
  · exact h l
  · exact fun d' => disc_bfree h

lemma disc_imapi (h : ∀ l, Disc k held l none) : Disc (imapi d k) held loose none := by
  intro hole
  dsimp only
  split_ifs
  · exact h loose
  · exact disc_plug h

lemma disc_imapb (h : ∀ l, Disc k held l none) : Disc (imapb d k) held loose none := by
  intro ind
  dsimp only
  split_ifs
  · exact h loose
  · intro hole
    dsimp only
    split_ifs
    · exact h []
    · exact disc_plug h

lemma disc_imap (h : ∀ l, Disc k held l none) : Disc (imap d k) held loose none := by
  have hlarge : ∀ l, Disc (imapi d <| choose fun huge =>
      if huge = 0 then imapb d k else imapb d (imapb d k)) held l none := by
    refine fun l => disc_imapi fun l huge => ?_
    dsimp only
    split_ifs
    · exact disc_imapb h
    · exact disc_imapb fun l => disc_imapb h
  intro way
  dsimp only
  split
  · exact h loose
  · exact disc_imapi h
  · refine disc_balloc fun l bn => ?_
    dsimp only
    split_ifs
    · exact h l
    · exact hlarge []
  · exact hlarge loose

/-- The loops over the blocks of a file, by induction on their bound. -/
lemma disc_blocks {bd : ℕ} (h : ∀ l, Disc k held l none) (n : ℕ) :
    ∀ l, Disc (blocks d bd k n) held l none := by
  induction n with
  | zero => exact h
  | succ n ih =>
      intro l stop
      dsimp only
      split_ifs
      · exact h l
      · refine disc_imap fun l phys => ?_
        dsimp only
        split_ifs
        · exact ih l
        · exact ih []

/-! ## Names -/

/-- The loop of `iname`, by induction on the names to go. -/
lemma disc_walk {m : ℕ} {k : Option ℕ → Option ℕ → Job}
    (h : ∀ o parent l, Disc (k o parent) o.toList l none) (n : ℕ) :
    ∀ ip parent l, Disc (walk m k n ip parent) [ip] l none := by
  induction n with
  | zero =>
      intro ip parent l
      exact h (some ip) parent l
  | succ n ih =>
      intro ip parent l
      rw [walk]
      intro isdir
      dsimp only
      split_ifs
      · exact disc_irelse fun l => h none parent _
      · intro ok
        dsimp only
        split_ifs
        · exact disc_irelse fun l => h none (some ip) _
        · refine fun d => disc_blocks (fun l => ?_) m l
          intro inum
          dsimp only
          split_ifs
          · exact disc_irelse fun l => h none (some ip) _
          · refine disc_ref (disc_irelse fun l d => ⟨Or.inr rfl, fun o => disc_unref ?_⟩)
            cases o with
            | none => exact h none (some ip) _
            | some i => exact ih i (some ip) _

lemma disc_iname {m : ℕ} {k : Option ℕ → Option ℕ → Job}
    (h : ∀ o parent l, Disc (k o parent) o.toList l none) (n ip : ℕ) :
    Disc (iname n ip m k) [] loose none :=
  disc_ilock (disc_walk h n ip none [])

lemma disc_iopen (h : ∀ l, Disc k [i] l none) : Disc (iopen i k) [i] loose none := by
  have hrest : ∀ l, Disc (choose fun fd => if fd = 0 then k else ref i k) [i] l none := by
    intro l fd
    dsimp only
    split_ifs
    · exact h l
    · exact disc_ref (h l)
  intro fmt
  dsimp only
  split
  · exact disc_ref (disc_irelse fun l => disc_ilock (disc_unref (hrest [])))
  · exact hrest []
  · exact hrest loose

/-- Releasing the one slot that is locked, at the end of a call. -/
lemma disc_last : Disc (irelse i done) [i] loose none := disc_irelse fun _ => ⟨rfl, rfl⟩

lemma disc_open (n ip m : ℕ) : Disc (Job.open n ip m) [] [] none := by
  refine disc_iname (fun o _ l => ?_) n ip
  cases o with
  | none => exact ⟨rfl, rfl⟩
  | some i =>
      intro ok
      dsimp only
      split_ifs
      · exact disc_last
      · exact disc_iopen fun _ => disc_last

/-! ## Inodes -/

lemma disc_itrunc {ip : ℕ} (h : ∀ l, Disc k held l none) (n : ℕ) :
    ∀ l, Disc (itrunc ip d k n) held l none := by
  induction n with
  | zero => exact fun l => ⟨fun _ => ⟨rfl, rfl, rfl⟩, h l⟩
  | succ n ih =>
      intro l what
      dsimp only
      split
      · exact h l
      · exact fun bn => ih []
      · exact disc_bfree ih

lemma disc_ifree {ip : ℕ} (h : ∀ l, Disc k held l none) : Disc (ifree ip k) held loose none := by
  refine fun d inum => ⟨rfl, fun n => ?_⟩
  have hclear : Disc (act ip (fun x => { x with node := Bytes.zero, mod := true }) (bdwrite d k))
      held [] (some (d % 256)) := ⟨fun _ => ⟨rfl, rfl, rfl⟩, rfl, h []⟩
  dsimp only
  split_ifs
  · exact hclear
  · exact hclear

/-- `idec` of a slot that is not locked. -/
lemma disc_idec {ip m : ℕ} (hi : ip ∉ held) (h : ∀ l, Disc k held l none) :
    Disc (idec ip m k) held loose none := by
  have hend : ∀ l, Disc (irelse ip k) held l none := by
    refine fun l => ⟨trivial, fun _ => ?_⟩
    rw [Kernel.heldAfter, List.erase_of_not_mem hi]
    exact h _
  intro unused
  dsimp only
  split_ifs
  · exact hend loose
  · exact fun d => disc_itrunc (fun _ => disc_ifree hend) m loose

/-- The loop of `ifill`, by induction on the blocks to go. -/
lemma disc_search {itop : ℕ} (h : ∀ l, Disc k held l sb) (limit : ℕ) :
    ∀ iblk l, Disc (search d itop k limit iblk) held l sb := by
  induction limit with
  | zero => exact fun _ l => h l
  | succ limit ih =>
      intro iblk l
      rw [search]
      generalize (if itop < iblk then 2 else iblk) = b
      intro ok
      dsimp only
      split_ifs
      · exact ih _ []
      · intro n
        dsimp only
        split_ifs
        · exact h []
        · exact ih _ []

lemma disc_ifill {k : ℕ → Job} (h : ∀ n l, Disc (k n) held l sb) :
    Disc (ifill d k) held loose sb := by
  refine ⟨trivial, fun _ iblk limit => disc_search (fun l => ?_) limit iblk _⟩
  exact fun n => h n l

/-- The loop of `ialloc`, by induction on its bound. -/
lemma disc_candidates {k : Option ℕ → Job} (h : ∀ o l, Disc (k o) (o.toList ++ held) l none)
    (n : ℕ) : ∀ l, Disc (candidates d k n) held l (some (d % 256)) := by
  induction n with
  | zero => exact fun l => ⟨rfl, h none l⟩
  | succ n ih =>
      intro l
      have htake : ∀ f : Option ℕ → Job, f none = candidates d k n →
          (∀ ip, f (some ip) = look (Shared.ialloc ip) fun used =>
            if used ≠ 0 then irelse ip (candidates d k n)
            else act ip
              (fun x => { x with node := fun k => if k = 1 then 128 else 0, mod := true,
                                 count := 0, mount := none, size := 0 }) <|
              bdwrite d <| k (some ip)) →
          ∀ l, Disc (look (Shared.top d) fun num => edit d (Shared.pop d) <| iget num d f) held l
            (some (d % 256)) := by
        refine fun f hnone hsome l num => ⟨Or.inl (by simp), fun o => ?_⟩
        cases o with
        | none => exact hnone ▸ ih _
        | some i =>
            rw [hsome]
            intro used
            dsimp only
            split_ifs
            · exact disc_irelse fun l => ih _
            · exact ⟨fun _ => ⟨rfl, rfl, rfl⟩, rfl, h (some i) _⟩
      rw [candidates]
      intro c
      dsimp only
      split_ifs
      · refine disc_ifill fun n l => ?_
        split_ifs
        · exact ⟨rfl, h none l⟩
        · exact htake _ rfl (fun _ => rfl) l
      · exact htake _ rfl (fun _ => rfl) l

lemma disc_ialloc {n : ℕ} {k : Option ℕ → Job} (h : ∀ o l, Disc (k o) (o.toList ++ held) l none) :
    Disc (ialloc d n k) held loose none :=
  ⟨rfl, disc_candidates h n []⟩

/-! ## The system calls -/

/-- `ilink`, with nothing locked or right after the release of the directory. -/
lemma disc_ilink {m : ℕ} (hi : held = [] ∨ i ∈ loose) (h : ∀ l, Disc k held l none) :
    Disc (ilink i m k) held loose none := by
  refine ⟨?_, fun _ d => disc_blocks (fun l => disc_dirty (disc_irelse fun l => h _)) m []⟩
  rcases hi with hi | hi
  · exact Or.inl ⟨hi, rfl⟩
  · exact Or.inr hi

lemma disc_unlink (n ip m : ℕ) : Disc (unlink n ip m) [] [] none := by
  refine disc_iname (fun o parent l => ?_) n ip
  cases o with
  | none => exact ⟨rfl, rfl⟩
  | some i =>
      refine disc_irelse fun l => ?_
      cases parent with
      | none => exact ⟨rfl, rfl⟩
      | some parent =>
          intro ok
          dsimp only
          split_ifs
          · exact ⟨rfl, rfl⟩
          · refine ⟨fun x => ?_, disc_ref (disc_idec (by simp) fun l => disc_unref ?_)⟩
            · dsimp only
              split_ifs
              · exact ⟨rfl, rfl, rfl⟩
              · exact ⟨rfl, rfl, rfl⟩
            · exact disc_ilink (Or.inl rfl) fun _ => ⟨rfl, rfl⟩

lemma disc_link (n ip n' ip' m : ℕ) : Disc (link n ip n' ip' m) [] [] none := by
  refine disc_iname (fun o _ l => ?_) n ip
  cases o with
  | none => exact ⟨rfl, rfl⟩
  | some old =>
      refine disc_irelse fun l ok => ?_
      dsimp only
      split_ifs
      · exact ⟨rfl, rfl⟩
      · intro inum d
        refine disc_iname (fun o parent l => ?_) n' ip'
        cases o with
        | some new => exact disc_last
        | none =>
            cases parent with
            | none => exact ⟨rfl, rfl⟩
            | some parent =>
                intro ok
                dsimp only
                split_ifs
                · exact ⟨rfl, rfl⟩
                · refine ⟨Or.inr rfl, fun o => ?_⟩
                  cases o with
                  | none => exact ⟨rfl, rfl⟩
                  | some i =>
                      exact ⟨fun _ => ⟨rfl, rfl, rfl⟩, disc_irelse fun l =>
                        disc_ilink (Or.inl rfl) fun _ => ⟨rfl, rfl⟩⟩

/-- `imkfile` locks the directory again right after it has released it. -/
lemma disc_imkfile {m : ℕ} {k : Option ℕ → Job} (h : ∀ o l, Disc (k o) o.toList l none)
    (parent : ℕ) : Disc (imkfile parent m k) [] loose none := by
  intro ok
  dsimp only
  split_ifs
  · exact h none loose
  · refine disc_ilock fun d => disc_ialloc fun o l => ?_
    cases o with
    | none => exact disc_irelse fun l => h none _
    | some i =>
        have hlink : ∀ l, parent ∈ l → Disc (ilink parent m <| act i
            (fun x => { x with node := fun k => if k = 2 then 1 else x.node k }) <| k (some i))
            [i] l none :=
          fun l hl => disc_ilink (Or.inr hl) fun l => ⟨fun _ => ⟨rfl, rfl, rfl⟩, h (some i) l⟩
        refine ⟨trivial, fun _ => ?_⟩
        have he : (i :: [parent]).erase parent = [i] := by
          by_cases hp : parent = i
          · -- the list cannot give the locked parent out again
            rw [hp, List.erase_cons_head]
          · rw [List.erase_cons_tail (by simpa using Ne.symm hp), List.erase_cons_head]
        simp only [Kernel.heldAfter, Option.toList_some, List.cons_append, List.nil_append, he]
        exact hlink _ List.mem_cons_self

lemma disc_creat (n ip m : ℕ) : Disc (creat n ip m) [] [] none := by
  refine disc_iname (fun o parent l => ?_) n ip
  have hend : ∀ i l, Disc (iopen i (irelse i done)) [i] l none := fun i l =>
    disc_iopen fun _ => disc_last
  cases o with
  | some i =>
      intro ok
      dsimp only
      split_ifs
      · exact disc_last
      · exact fun d => disc_itrunc (hend i) m l
  | none =>
      cases parent with
      | none => exact ⟨rfl, rfl⟩
      | some parent =>
          refine disc_imkfile (fun o l => ?_) parent
          cases o with
          | none => exact ⟨rfl, rfl⟩
          | some i => exact hend i l

/-- The loop of `pwrite`, by induction on its bound. -/
lemma disc_pwrite (ip m n : ℕ) : ∀ l, Disc (pwrite ip m n) [] l none := by
  induction n with
  | zero => exact fun _ => ⟨rfl, rfl⟩
  | succ n ih =>
      refine fun l => disc_ilock fun reader => ?_
      dsimp only
      split_ifs
      · exact disc_last
      · have hrest : ∀ l, Disc (choose fun full =>
            if full = 0 then irelse ip done
            else irelse ip <| act ip (fun x => { x with want := true }) <| sleep <|
              pwrite ip m n) [ip] l none := by
          intro l full
          dsimp only
          split_ifs
          · exact disc_last
          · exact disc_irelse fun l => ⟨fun _ => ⟨rfl, rfl, rfl⟩, ih []⟩
        intro room
        dsimp only
        split_ifs
        · exact hrest []
        · exact fun d => disc_blocks (fun l => disc_dirty (hrest l)) m []

lemma disc_write (ip m : ℕ) : Disc (write ip m) [] [] none := by
  intro kind
  have hend : ∀ l, Disc (dirty ip done) [] l none := fun _ => disc_dirty ⟨rfl, rfl⟩
  dsimp only
  split
  · exact disc_pwrite ip m m []
  · exact hend []
  · exact fun d bd => disc_blocks hend m []

end Job

/-- **The system calls keep to the discipline.** -/
lemma Errand.disc (c : Errand) : Job.Disc c.job [] [] none := by
  cases c with
  | creat n ip m => exact Job.disc_creat n ip m
  | link n ip n' ip' m => exact Job.disc_link n ip n' ip' m
  | «open» n ip m => exact Job.disc_open n ip m
  | write ip m => exact Job.disc_write ip m
  | unlink n ip m => exact Job.disc_unlink n ip m

end Micronix
