import Micronix.Fs.Disknode
import Micronix.Host.Unlink

/-!
# Two ways along a path

`namei` of the library against `iname` of the kernel, which starts at the root with the rights of the
super-user and finds every block readable.  Both take the names from the path in the same way and
compare 14 characters, but the library has room for 19 in `chunk[]`, ends its search at an entry that
has been deleted, does not see an entry that the size of the directory cuts off, and asks neither for an
execute bit nor whether there is an inode of that number.
-/

namespace Micronix

namespace Tree

/-- The names that `iname` and `dlook` take from a path that begins with one. -/
def pathNames : ℕ → List UInt8 → List Name
  | 0, _ => []
  | n + 1, p =>
      if p.headD 0 = 0 then [] else (nambuf 14 p).1 :: pathNames n (advance (nambuf 14 p).2)

/-- The number of the inode that `iname` returns. -/
def Found.number : Found → Option ℕ
  | .inode ip _ _ _ _ => some ip.inum
  | .missing _ _ _ _ => none

/-- The first entry of a name that is not deleted. -/
def firstLive (ents : List Dirent) (c : Name) : Option Dirent :=
  ents.find? fun e => e.inum ≠ 0 ∧ chars e.name = chars c

lemma direqu_chars (a b : Name) : direqu a b 14 = true ↔ chars a = chars b := direqu_iff a b 14

/-- What is left of a path after its first name. -/
lemma advance_nambuf (n : ℕ) (p : List UInt8) : advance (nambuf n p).2 = advance p := by
  induction n generalizing p with
  | zero => rfl
  | succ n ih =>
      cases p with
      | nil => rfl
      | cons c p =>
          rw [nambuf]
          split_ifs with h
          · rfl
          · obtain ⟨h0, hs⟩ := not_or.mp h
            dsimp only
            rw [ih, advance, advance, List.dropWhile_cons_of_pos (by simp [h0, hs])]

lemma headD_dropWhile (p : List UInt8) : (p.dropWhile (· = slash)).headD 0 ≠ slash := by
  induction p with
  | nil => decide
  | cons c p ih =>
      rw [List.dropWhile_cons]
      split_ifs with h
      · exact ih
      · simpa using h

lemma component_ne_nil {p : List UInt8} (h0 : p.headD 0 ≠ 0) (hs : p.headD 0 ≠ slash) :
    component p ≠ [] := by
  cases p with
  | nil => exact absurd rfl h0
  | cons c p =>
      rw [component, List.takeWhile_cons_of_pos (by simpa using ⟨h0, hs⟩)]
      exact List.cons_ne_nil _ _

/-- The number of an entry that is found. -/
def Look.number : Look → Option ℕ
  | .found inum _ => some inum
  | .missing _ _ => none

/-- The number that `dlook` returns when every block can be read. -/
lemma dlook_number (ents : List Dirent) (c : Name) (last : Bool) (bread : ℕ → Bool)
    (hb : ∀ l, bread l = true) (error : Option Errno) :
    (dlook ents c last bread error).1 = (firstLive ents c).map Dirent.inum := by
  have hblock : ∀ (l : List Dirent) (place slot : ℕ),
      (dlookBlock c l place slot).number = (firstLive l c).map Dirent.inum := by
    intro l
    induction l with
    | nil => exact fun _ _ => rfl
    | cons d ds ih =>
        intro place slot
        rw [dlookBlock, firstLive, List.find?_cons]
        by_cases h0 : d.inum = 0
        · rw [if_pos h0, ih]
          simp [h0, firstLive]
        · rw [if_neg h0]
          by_cases hd : direqu d.name c 14 = true
          · rw [if_pos hd]
            simp [h0, (direqu_chars _ _).mp hd, Look.number]
          · rw [if_neg hd, ih]
            simp [(direqu_chars d.name c).not.mp hd, firstLive]
  have hloop : (dlookLoop c bread ((ents.length + 31) / 32) 0 ents 0 0 error).1 = _ :=
    dlookLoop_spec hb (by omega)
  rw [← hblock ents 0 0, dlook, ← hloop]
  cases hrun : dlookLoop c bread ((ents.length + 31) / 32) 0 ents 0 0 error with
  | mk look e => cases look <;> rfl

end Tree

namespace Host

open Bytes Super Program
open Tree (slash component advance nambuf chars direqu firstLive pathNames advance_nambuf
  headD_dropWhile component_ne_nil)

/-! ## What the kernel finds on an image -/

/-- The entries as `dlook` goes over them.  The size may cut off the last one. -/
def ents (blk : ℕ → Bytes) (d : Bytes) : List Dirent :=
  (List.range ((Dsknod.filesize d + 15) / 16)).map (entryOf blk d)

/-- `access(ip, IEXEC)` for the super-user: one of the execute bits is set. -/
def searchable (d : Bytes) : Bool :=
  (Dsknod.mode d).testBit 0 || (Dsknod.mode d).testBit 3 || (Dsknod.mode d).testBit 6

/-- `inum <= m->isize << 4` -/
def inList (sb : Bytes) (inum : ℕ) : Bool := inum ≤ 16 * isize sb % 65536

/-- The file system in the kernel, with nothing mounted on it. -/
def treeOf (blk : ℕ → Bytes) : Tree where
  node i :=
    let d := dsknod blk i.inum
    ⟨Dsknod.ialloc d, Ifmt.ofMode (Dsknod.mode d), Dsknod.nlink d, 0, ents blk d⟩
  mount _ := none

/-- The numbers that the kernel comes to with these names. -/
def way (blk : ℕ → Bytes) : List Name → ℕ → List ℕ
  | [], j => [j]
  | c :: cs, j =>
      j :: match firstLive (ents blk (dsknod blk j)) c with
        | some e => way blk cs e.inum
        | none => []

/-- `iname` of a path, for the super-user in the root. -/
def walkOf (blk : ℕ → Bytes) (sb : Bytes) (path : List UInt8) : Tree.Walk :=
  let cs := pathNames path.length (path.dropWhile (· = slash))
  { start := ⟨0, 1, Nat.one_pos⟩
    path := cs
    access := fun k => searchable (dsknod blk ((way blk cs 1).getD k 0))
    bread := fun _ _ => true
    iget := fun k => inList sb ((way blk cs 1).getD (k + 1) 0) }

/-- What the kernel comes to from a directory with one name. -/
def kernelNext (blk : ℕ → Bytes) (sb : Bytes) (j : ℕ) (c : Name) : Option ℕ :=
  if Dsknod.ifdir (dsknod blk j) ∧ searchable (dsknod blk j) then
    ((firstLive (ents blk (dsknod blk j)) c).map Dirent.inum).filter (inList sb)
  else none

/-- What it comes to with all of them. -/
def kernelEnd (blk : ℕ → Bytes) (sb : Bytes) (cs : List Name) (j : ℕ) : Option ℕ :=
  cs.foldlM (kernelNext blk sb) j

variable {blk : ℕ → Bytes} {sb : Bytes}

lemma ofMode_eq_dir (d : Bytes) :
    Ifmt.ofMode (Dsknod.mode d) = .IFDIR ↔ Dsknod.ifdir d = true := by
  have h14 := Nat.testBit_eq_decide_div_mod_eq (x := Dsknod.mode d) (i := 14)
  have h13 := Nat.testBit_eq_decide_div_mod_eq (x := Dsknod.mode d) (i := 13)
  have hcode : Ifmt.ofMode (Dsknod.mode d) = .IFDIR ↔ Dsknod.mode d / 8192 % 4 = 2 := by
    rw [Ifmt.ofMode]
    split <;> simp_all
  rw [hcode, Dsknod.ifdir, h14, h13]
  simp only [Bool.and_eq_true, decide_eq_true_eq, Bool.not_eq_true', decide_eq_false_iff_not]
  omega

/-- The loop of `iname`, by induction on the names. -/
lemma inameLoop_number {w : Tree.Walk} (hb : ∀ k l, w.bread k l = true) {cs : List Name} {j k : ℕ}
    (ha : ∀ m, w.access (k + m) = searchable (dsknod blk ((way blk cs j).getD m 0)))
    (hi : ∀ m, w.iget (k + m) = inList sb ((way blk cs j).getD (m + 1) 0)) {ip : Ino}
    (hip : ip.inum = j) (parent : Option Ino) (offset : ℕ) (name : Name) (error : Option Errno) :
    (Tree.inameLoop (treeOf blk) w cs k ip parent offset name error).number =
      kernelEnd blk sb cs j := by
  induction cs generalizing j k ip parent offset name error with
  | nil => exact congrArg some hip
  | cons c cs ih =>
      rw [kernelEnd, List.foldlM_cons, kernelNext, Tree.inameLoop]
      have hfmt : ((treeOf blk).node ip).fmt = .IFDIR ↔ Dsknod.ifdir (dsknod blk j) = true := by
        rw [← hip]
        exact ofMode_eq_dir _
      have hents : ((treeOf blk).node ip).ents = ents blk (dsknod blk j) := by
        rw [← hip]
        rfl
      have hacc : w.access k = searchable (dsknod blk j) := ha 0
      by_cases hdir : Dsknod.ifdir (dsknod blk j) = true
      · rw [if_neg (not_not.mpr (hfmt.mpr hdir)), hacc]
        by_cases hs : searchable (dsknod blk j) = true
        · rw [if_neg (not_not.mpr hs), if_pos ⟨hdir, hs⟩, hents]
          have hnum := Tree.dlook_number (ents blk (dsknod blk j)) c cs.isEmpty (w.bread k) (hb k)
            error
          cases hlook : Tree.dlook (ents blk (dsknod blk j)) c cs.isEmpty (w.bread k) error with
          | mk num rest =>
              rw [hlook] at hnum
              dsimp only at hnum
              cases hlive : firstLive (ents blk (dsknod blk j)) c with
              | none =>
                  rw [hlive] at hnum
                  obtain rfl := hnum
                  rfl
              | some e =>
                  rw [hlive] at hnum
                  obtain rfl := hnum
                  have h0 : e.inum ≠ 0 := by
                    have hfound := List.find?_some hlive
                    simp only [decide_eq_true_eq] at hfound
                    exact hfound.1
                  have hway : way blk (c :: cs) j = j :: way blk cs e.inum := by
                    rw [way, hlive]
                  have hget : w.iget k = inList sb e.inum := by
                    have hk := hi 0
                    rw [hway] at hk
                    rw [Nat.add_zero] at hk
                    rw [hk]
                    cases cs <;> rfl
                  dsimp only [Option.map_some]
                  rw [dif_pos (Nat.pos_of_ne_zero h0), hget]
                  by_cases hin : inList sb e.inum = true
                  · rw [if_pos hin, Option.filter_some, if_pos hin]
                    refine ih (fun m => ?_) (fun m => ?_) rfl _ _ _ _
                    · have hm := ha (m + 1)
                      rw [hway] at hm
                      rw [Nat.add_assoc, Nat.add_comm 1 m]
                      exact hm
                    · have hm := hi (m + 1)
                      rw [hway] at hm
                      rw [Nat.add_assoc, Nat.add_comm 1 m]
                      exact hm
                  · rw [if_neg hin, Option.filter_some, if_neg hin]
                    rfl
        · rw [if_pos hs, if_neg fun h => hs h.2]
          rfl
      · rw [if_pos (hfmt.not.mpr hdir), if_neg fun h => hdir h.1]
        rfl

/-- **`iname`** follows the names on the image. -/
lemma iname_number (path : List UInt8) :
    ((treeOf blk).iname (walkOf blk sb path) none).number =
      kernelEnd blk sb (pathNames path.length (path.dropWhile (· = slash))) 1 := by
  refine inameLoop_number (fun _ _ => rfl) (fun m => ?_) (fun m => ?_) rfl _ _ _ _
  · rw [Nat.zero_add]
    rfl
  · rw [Nat.zero_add]
    rfl

/-! ## What the library finds on an image -/

/-- The first entry of the name is live, whole and for an inode of the list, and the directory can be
searched: there the kernel gets to what the library gets to. -/
def plain (blk : ℕ → Bytes) (sb : Bytes) (j : ℕ) (c : Name) : Option ℕ :=
  let i := nameIn blk (dsknod blk j) c
  if i ≠ 0 ∧ searchable (dsknod blk j) ∧ inList sb i then some i else none

/-- In the directories as the library reads them the path comes to a name that is not there. -/
def Nowhere (blk : ℕ → Bytes) : ℕ → ℕ → List UInt8 → Prop
  | 0, _, _ => False
  | n + 1, j, p =>
      let i := nameIn blk (dsknod blk j) (component p)
      p.headD 0 ≠ 0 ∧ (component p).length < 20 ∧
        (Dsknod.ifdir (dsknod blk j) = true →
          Within (dsknod blk j) ∧ (i = 0 ∨ Nowhere blk n i (advance p)))

/-- The names that the library comes to have at most 19 characters, the directories are within the
arrays of `bmap`, and where an entry is not a plain one, neither of the two comes to an inode. -/
def Clear (blk : ℕ → Bytes) (sb : Bytes) : ℕ → ℕ → List UInt8 → Prop
  | 0, _, _ => True
  | n + 1, j, p =>
      p.headD 0 = 0 ∨ (component p).length < 20 ∧
        (Dsknod.ifdir (dsknod blk j) = true →
          Within (dsknod blk j) ∧
            match plain blk sb j (component p) with
            | some i => Clear blk sb n i (advance p)
            | none => Nowhere blk (n + 1) j p ∧ kernelEnd blk sb (pathNames (n + 1) p) j = none)

/-- A name that the search finds, the kernel finds in the same entry. -/
lemma firstLive_of_nameIn {d : Bytes} {c : Name} (h : nameIn blk d c ≠ 0) :
    (firstLive (ents blk d) c).map Dirent.inum = some (nameIn blk d c) := by
  rw [nameIn] at h ⊢
  cases hfind : (List.range (Dsknod.filesize d / 16)).find? fun i =>
      direqu (entryOf blk d i).name c 14 with
  | none =>
      rw [hfind] at h
      exact absurd rfl h
  | some i =>
      rw [hfind] at h
      dsimp only at h ⊢
      obtain ⟨hi, as, bs, hsplit, has⟩ := List.find?_eq_some_iff_append.mp hfind
      obtain ⟨m, hm⟩ : ∃ m, (Dsknod.filesize d + 15) / 16 = Dsknod.filesize d / 16 + m :=
        ⟨_, (Nat.add_sub_of_le (Nat.div_le_div_right (Nat.le_add_right _ 15))).symm⟩
      have hlive : (ents blk d).find? (fun e => e.inum ≠ 0 ∧ chars e.name = chars c) =
          some (entryOf blk d i) := by
        refine List.find?_eq_some_iff_append.mpr ⟨?_, as.map (entryOf blk d), ?_, ?_, ?_⟩
        · simpa [h] using (Tree.direqu_chars _ _).mp hi
        · exact bs.map (entryOf blk d) ++
            ((List.range m).map (Dsknod.filesize d / 16 + ·)).map (entryOf blk d)
        · rw [ents, hm, List.range_add, hsplit]
          simp
        · intro e he
          obtain ⟨k, hk, rfl⟩ := List.mem_map.mp he
          have hno := (Tree.direqu_chars (entryOf blk d k).name c).not.mp
            (by simpa using has k hk)
          simp [hno]
      rw [firstLive, hlive]
      rfl

/-- Names are compared in 14 characters. -/
lemma nameIn_congr {d : Bytes} {c c' : Name} (h : chars c = chars c') :
    nameIn blk d c = nameIn blk d c' := by
  have hfun : (fun i => direqu (entryOf blk d i).name c 14) =
      fun i => direqu (entryOf blk d i).name c' 14 := by
    funext i
    rw [Bool.eq_iff_iff, Tree.direqu_chars, Tree.direqu_chars, h]
  rw [nameIn, nameIn, hfun]

lemma firstLive_congr {l : List Dirent} {c c' : Name} (h : chars c = chars c') :
    firstLive l c = firstLive l c' := by
  rw [firstLive, firstLive, h]

lemma chars_nambuf (p : List UInt8) : chars (nambuf 14 p).1 = chars (component p) := by
  rw [Tree.nambuf_name, Tree.chars_component, chars]
  have hne : ∀ c ∈ (component p).take 14, c ≠ 0 := by
    intro c hc
    have hmem := List.mem_takeWhile_imp (List.mem_of_mem_take hc)
    simp only [ne_eq, decide_eq_true_eq] at hmem
    exact hmem.1
  exact (List.takeWhile_eq_self_iff.mpr (by simpa using hne)).symm

/-! ## Step by step -/

/-- The path does not begin with a slash. -/
lemma headD_advance (p : List UInt8) : (advance p).headD 0 ≠ slash := headD_dropWhile _

/-- What `resolveLoop` does with one name. -/
lemma resolveLoop_succ {n j : ℕ} {p : List UInt8} (h0 : p.headD 0 ≠ 0) (hs : p.headD 0 ≠ slash)
    (hlen : (component p).length < 20) :
    resolveLoop blk (n + 1) j p =
      if Dsknod.ifdir (dsknod blk j) = true then
        if Within (dsknod blk j) then
          if nameIn blk (dsknod blk j) (component p) = 0 then .ok none
          else resolveLoop blk n (nameIn blk (dsknod blk j) (component p)) (advance p)
        else .error .outside
      else .ok none := by
  rw [resolveLoop, if_neg h0, if_neg (by omega), if_neg (component_ne_nil h0 hs), lookupOf]
  by_cases hdir : Dsknod.ifdir (dsknod blk j) = true
  · rw [if_pos hdir, if_neg (ne_false_of_eq_true hdir)]
    by_cases hw : Within (dsknod blk j)
    · rw [if_pos hw, if_pos hw]
      rfl
    · rw [if_neg hw, if_neg hw]
      rfl
  · rw [if_neg hdir, if_pos (Bool.eq_false_of_not_eq_true hdir)]
    rfl

lemma resolveLoop_nowhere {n j : ℕ} {p : List UInt8} (hs : p.headD 0 ≠ slash) :
    resolveLoop blk n j p = .ok none ↔ Nowhere blk n j p := by
  induction n generalizing j p with
  | zero => exact iff_of_false (by rw [resolveLoop]; rintro ⟨⟩) id
  | succ n ih =>
      rw [Nowhere]
      by_cases h0 : p.headD 0 = 0
      · rw [resolveLoop, if_pos h0]
        exact iff_of_false (fun h => by cases h) fun h => h.1 h0
      · rw [and_iff_right h0]
        by_cases hlen : (component p).length < 20
        · rw [resolveLoop_succ h0 hs hlen, and_iff_right hlen]
          by_cases hdir : Dsknod.ifdir (dsknod blk j) = true
          · rw [if_pos hdir, forall_prop_of_true hdir]
            by_cases hw : Within (dsknod blk j)
            · rw [if_pos hw, and_iff_right hw]
              by_cases hn : nameIn blk (dsknod blk j) (component p) = 0
              · rw [if_pos hn]
                exact iff_of_true rfl (Or.inl hn)
              · rw [if_neg hn, or_iff_right hn]
                exact ih (headD_advance p)
            · rw [if_neg hw]
              exact iff_of_false (fun h => by cases h) fun h => hw h.1
          · rw [if_neg hdir]
            exact iff_of_true rfl fun h => absurd h hdir
        · rw [resolveLoop, if_neg h0, if_pos (by omega)]
          exact iff_of_false (fun h => by cases h) fun h => hlen h.1

/-- What the kernel does with one name. -/
lemma kernelEnd_succ {n j : ℕ} {p : List UInt8} (h0 : p.headD 0 ≠ 0) :
    kernelEnd blk sb (pathNames (n + 1) p) j =
      (kernelNext blk sb j (component p)).bind (kernelEnd blk sb (pathNames n (advance p))) := by
  rw [pathNames, if_neg h0, kernelEnd, List.foldlM_cons, advance_nambuf]
  have hnext : kernelNext blk sb j (nambuf 14 p).1 = kernelNext blk sb j (component p) := by
    rw [kernelNext, kernelNext, firstLive_congr (chars_nambuf p)]
  rw [hnext]
  rfl

/-- At a plain entry the kernel goes on to the same inode. -/
lemma kernelNext_plain {j i : ℕ} {c : Name} (hdir : Dsknod.ifdir (dsknod blk j) = true)
    (h : plain blk sb j c = some i) :
    nameIn blk (dsknod blk j) c = i ∧ i ≠ 0 ∧ kernelNext blk sb j c = some i := by
  rw [plain] at h
  split_ifs at h with hp
  obtain ⟨h0, hs, hin⟩ := hp
  obtain rfl := Option.some.inj h
  refine ⟨rfl, h0, ?_⟩
  rw [kernelNext, if_pos ⟨hdir, hs⟩, firstLive_of_nameIn h0, Option.filter_some, if_pos hin]

/-- At another entry one of the two stops. -/
lemma kernelNext_not_plain {j : ℕ} {c : Name} (h : plain blk sb j c = none) :
    nameIn blk (dsknod blk j) c = 0 ∨ kernelNext blk sb j c = none := by
  rw [plain] at h
  by_cases h0 : nameIn blk (dsknod blk j) c = 0
  · exact Or.inl h0
  · refine Or.inr ?_
    rw [kernelNext]
    split_ifs with hd
    · rw [firstLive_of_nameIn h0, Option.filter_some, if_neg]
      intro hin
      rw [if_pos ⟨h0, hd.2, hin⟩] at h
      cases h
    · rfl

/-- **The loops agree** exactly on clear paths, by induction on the turns. -/
lemma resolveLoop_eq_iff {n j : ℕ} {p : List UInt8} (hs : p.headD 0 ≠ slash) :
    resolveLoop blk n j p = .ok (kernelEnd blk sb (pathNames n p) j) ↔ Clear blk sb n j p := by
  induction n generalizing j p with
  | zero => exact iff_of_true rfl trivial
  | succ n ih =>
      rw [Clear]
      by_cases h0 : p.headD 0 = 0
      · rw [resolveLoop, if_pos h0, pathNames, if_pos h0]
        exact iff_of_true rfl (Or.inl h0)
      · rw [or_iff_right h0]
        by_cases hlen : (component p).length < 20
        · rw [and_iff_right hlen]
          by_cases hdir : Dsknod.ifdir (dsknod blk j) = true
          · rw [forall_prop_of_true hdir]
            by_cases hw : Within (dsknod blk j)
            · rw [and_iff_right hw]
              cases hplain : plain blk sb j (component p) with
              | some i =>
                  obtain ⟨hi, hi0, hnext⟩ := kernelNext_plain hdir hplain
                  rw [resolveLoop_succ h0 hs hlen, if_pos hdir, if_pos hw, hi, if_neg hi0,
                    kernelEnd_succ h0, hnext]
                  exact ih (headD_advance p)
              | none =>
                  dsimp only
                  rw [← resolveLoop_nowhere hs]
                  refine ⟨fun heq => ?_, fun h => by rw [h.1, h.2]⟩
                  have hend : kernelEnd blk sb (pathNames (n + 1) p) j = none := by
                    rcases kernelNext_not_plain hplain with hi | hnext
                    · rw [resolveLoop_succ h0 hs hlen, if_pos hdir, if_pos hw, if_pos hi] at heq
                      exact (Except.ok.inj heq).symm
                    · rw [kernelEnd_succ h0, hnext]
                      rfl
                  exact ⟨heq.trans (congrArg _ hend), hend⟩
            · rw [resolveLoop_succ h0 hs hlen, if_pos hdir, if_neg hw]
              exact iff_of_false (fun h => by cases h) fun h => hw h.1
          · rw [resolveLoop_succ h0 hs hlen, if_neg hdir, kernelEnd_succ h0, kernelNext,
              if_neg fun h => hdir h.1]
            exact iff_of_true rfl fun h => absurd h hdir
        · rw [resolveLoop, if_neg h0, if_pos (by omega)]
          exact iff_of_false (fun h => by cases h) fun h => hlen h.1

/-! ## The turns of the loops -/

lemma length_advance {p : List UInt8} (h : component p ≠ []) : (advance p).length < p.length := by
  cases p with
  | nil => exact absurd rfl h
  | cons c p =>
      by_cases hc : c ≠ 0 ∧ c ≠ slash
      · rw [advance, List.dropWhile_cons_of_pos (by simpa using hc), List.length_cons]
        exact Nat.lt_succ_of_le ((List.length_dropWhile_le _ _).trans (List.length_dropWhile_le _ _))
      · rw [component, List.takeWhile_cons_of_neg (by simpa using hc)] at h
        exact absurd rfl h

/-- As many turns as there are characters are enough for `namei`. -/
lemma nameiLoop_turns (how : How) (f : ℕ) {n m : ℕ} (ip : Inode) {p : List UInt8}
    (hn : p.length ≤ n) (hm : p.length ≤ m) :
    nameiLoop how f n ip p = nameiLoop how f m ip p := by
  have hdone : ∀ m ip, nameiLoop how f m ip [] = pure (some ip) := fun m ip => by
    cases m <;> rfl
  induction n generalizing m ip p with
  | zero =>
      obtain rfl := List.length_eq_zero_iff.mp (Nat.le_zero.mp hn)
      rw [hdone, hdone]
  | succ n ih =>
      cases m with
      | zero =>
          obtain rfl := List.length_eq_zero_iff.mp (Nat.le_zero.mp hm)
          rw [hdone, hdone]
      | succ m =>
          rw [nameiLoop, nameiLoop]
          split_ifs with h0 hlen hnil
          · rfl
          · rfl
          · rfl
          · have hlt := length_advance hnil
            congr 1
            funext inum
            split_ifs
            · rfl
            · congr 1
              funext ip
              exact ih ip (by omega) (by omega)

/-- And for `iname`. -/
lemma pathNames_turns {n m : ℕ} {p : List UInt8} (hs : p.headD 0 ≠ slash) (hn : p.length ≤ n)
    (hm : p.length ≤ m) : pathNames n p = pathNames m p := by
  have hdone : ∀ m, pathNames m [] = [] := fun m => by cases m <;> rfl
  induction n generalizing m p with
  | zero =>
      obtain rfl := List.length_eq_zero_iff.mp (Nat.le_zero.mp hn)
      rw [hdone, hdone]
  | succ n ih =>
      cases m with
      | zero =>
          obtain rfl := List.length_eq_zero_iff.mp (Nat.le_zero.mp hm)
          rw [hdone, hdone]
      | succ m =>
          rw [pathNames, pathNames]
          split_ifs with h0
          · rfl
          · have hlt := length_advance (component_ne_nil h0 hs)
            rw [advance_nambuf, ih (m := m) (headD_advance p) (by omega) (by omega)]

/-! ## The whole path -/

/-- `namei` comes to the inode that `iname` comes to, or neither comes to one, and no image changes. -/
def SameWay (s : Lib) (f : ℕ) (path : List UInt8) : Prop :=
  ∃ o t, namei .cached f path s = .ok o t ∧ t.fs = s.fs ∧
    o.map Inode.inum =
      ((treeOf (s.fs f).blk).iname (walkOf (s.fs f).blk (s.fs f).sb path) none).number

/-- What `namei` comes to decides. -/
lemma sameWay_iff {s : Lib} {f : ℕ} (hs : Coherent f s) (path : List UInt8) :
    SameWay s f path ↔ resolve (s.fs f).blk path =
      .ok ((treeOf (s.fs f).blk).iname (walkOf (s.fs f).blk (s.fs f).sb path) none).number := by
  have hrun := (viewed_coherent s.fs f).namei path s ⟨rfl, hs⟩
  have hnum : ∀ o : Option ℕ, (o.map (inodeOf (s.fs f).blk f)).map Inode.inum = o := by
    rintro (_ | j) <;> rfl
  cases hres : resolve (s.fs f).blk path with
  | ok o =>
      rw [hres] at hrun
      obtain ⟨t, hrun, hfs, -⟩ := hrun
      constructor
      · rintro ⟨o', t', hrun', -, ho'⟩
        rw [hrun] at hrun'
        cases hrun'
        rw [hnum] at ho'
        rw [ho']
      · intro heq
        refine ⟨_, t, hrun, hfs, ?_⟩
        rw [hnum]
        exact Except.ok.inj heq
  | error e =>
      rw [hres] at hrun
      obtain ⟨t, hrun⟩ := hrun
      refine iff_of_false ?_ nofun
      rintro ⟨o', t', hrun', -⟩
      rw [hrun] at hrun'
      cases hrun'

end Host

end Micronix
