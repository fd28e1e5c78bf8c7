import Micronix.Dir.Entry
import Micronix.Dir.Search
import Micronix.Fs.Buffers
import Micronix.Host.Library

/-!
# Directories and names of the host library

The functions of `fslib.c` from `getdir` to `filecreate` that know of names.  A whole directory is read
into memory from `malloc`, and an access beyond its size stops the program, as does one through the
null pointer that `namei` returns for a name that is not there.
-/

namespace Micronix

namespace Host

open Bytes Super Program
open Fslib (setFmod)
open Tree (slash component advance direqu)

namespace Dsknod

def nlink (d : Bytes) : ℕ := (d 2).toNat
def size1 (d : Bytes) : ℕ := word d 3

/-- `(d_mode & IFMT) == IFDIR` -/
def ifdir (d : Bytes) : Bool := (mode d).testBit 14 && !(mode d).testBit 13

def setNlink (d : Bytes) (v : ℕ) : Bytes := Function.update d 2 (UInt8.ofNat v)
def setSize1 (d : Bytes) (v : ℕ) : Bytes := setWord d 3 v

end Dsknod

/-! ## A directory in memory -/

/-- Memory from `malloc`. -/
structure Buffer where
  size : ℕ
  bytes : Bytes

namespace Buffer

/-- `dirp[i]` -/
def entry (dirp : Buffer) (i : ℕ) : Dirent := direntAt dirp.bytes (16 * i)

/-- `strncpy(d, name, 14)`, what it leaves in `d`. -/
def strncpy (name : List UInt8) : List UInt8 :=
  (List.range 14).map fun j => (name.takeWhile (· ≠ 0)).getD j 0

/-- The bytes of an entry. -/
def dirent (inum : ℕ) (name : List UInt8) : List UInt8 :=
  [UInt8.ofNat inum, UInt8.ofNat (inum / 256)] ++ strncpy name

/-- An entry is stored. -/
def setEntry (dirp : Buffer) (i inum : ℕ) (name : List UInt8) : Buffer :=
  { dirp with bytes := copyBytes (ofList (dirent inum name)) 0 dirp.bytes (16 * i) 16 }

/-- `realloc`, with what the new memory holds. -/
def realloc (dirp : Buffer) (size : ℕ) (junk : Bytes) : Buffer :=
  ⟨size, fun k => if k < dirp.size then dirp.bytes k else junk k⟩

end Buffer

/-- `getdir(dp)`: every byte of the memory is filled. -/
def getdir (how : How) (ip : Inode) : M Buffer := do
  let n := blocks (Dsknod.filesize ip.ondisk)
  let bytes ← (List.range n).foldlM (fun bytes i => do
    let (b, _) ← bmap how ip (512 * i) false
    let buf ← readblk ip.fs b
    pure (copyBytes buf 0 bytes (512 * i) 512)) zero
  pure ⟨512 * n, bytes⟩

/-- The turn of `putdir` for one block. -/
def Buffer.putblk (dirp : Buffer) (how : How) (ip : Inode) (i : ℕ) : M Inode := do
  let (b, ip) ← bmap how ip (512 * i) true
  if b ≠ 0 ∧ dirp.size < 512 * i + 512 then outside
  else do
    writeblk ip.fs b (fun k => dirp.bytes (512 * i + k))
    pure ip

/-- `putdir(dp, dirp)`, from memory of some size. -/
def Buffer.putdir (dirp : Buffer) (how : How) (ip : Inode) : M Inode :=
  (List.range (blocks (Dsknod.filesize ip.ondisk))).foldlM (dirp.putblk how) ip

/-- Memory that is too small for the size of the inode is never written as a whole. -/
lemma putdir_stops (how : How) {dirp : Buffer} {dp : Inode}
    (h : dirp.size < 512 * blocks (Dsknod.filesize dp.ondisk)) : Stops (dirp.putdir how dp) := by
  obtain ⟨n, hn⟩ : ∃ n, blocks (Dsknod.filesize dp.ondisk) = n + 1 :=
    Nat.exists_eq_add_one_of_ne_zero (by omega)
  rw [Buffer.putdir, hn, List.range_succ, List.foldlM_append]
  refine .after _ fun ip => ?_
  rw [List.foldlM_cons, Buffer.putblk]
  refine .bind (.after _ fun r => ?_) _
  obtain ⟨b, ip'⟩ := r
  by_cases hb : b = 0
  · -- block 0 is not written
    have hwrite : Stops (writeblk ip'.fs b fun k => dirp.bytes (512 * n + k)) := fun s =>
      ⟨.lose, s, if_pos (Or.inl hb)⟩
    dsimp only
    rw [if_neg (by simp [hb])]
    exact hwrite.bind _
  · dsimp only
    rw [if_pos ⟨hb, by omega⟩]
    exact fun s => ⟨.outside, s, rfl⟩

/-! ## Looking for names -/

/-- The loop over the entries, which ends at the first that has the name, live or not. -/
def Buffer.find (dirp : Buffer) (entries : ℕ) (name : List UInt8) : Option ℕ :=
  (List.range entries).find? fun i => direqu (dirp.entry i).name name 14

/-- `lookup(dp, name)` -/
def lookup (how : How) (ip : Inode) (name : List UInt8) : M ℕ :=
  let entries := Dsknod.filesize ip.ondisk / 16
  if Dsknod.ifdir ip.ondisk = false then pure 0
  else do
    let dirp ← getdir how ip
    pure (match dirp.find entries name with
      | some i => (dirp.entry i).inum
      | none => 0)

/-- The loop of `namei`, of as many turns as the path has characters.  `chunk[20]` has room for 19 of
them and the 0. -/
def nameiLoop (how : How) (f : ℕ) : ℕ → Inode → List UInt8 → M (Option Inode)
  | 0, ip, _ => pure (some ip)
  | n + 1, ip, name =>
      if name.headD 0 = 0 then pure (some ip)
      else if 20 ≤ (component name).length then outside
      else if component name = [] then pure (some ip)
      else do
        let inum ← lookup how ip (component name)
        if inum = 0 then pure none
        else do
          let ip ← iget how f inum
          nameiLoop how f n ip (advance name)

/-- `namei(fs, name)` -/
def namei (how : How) (f : ℕ) (name : List UInt8) : M (Option Inode) := do
  let ip ← iget how f 1
  nameiLoop how f name.length ip (name.dropWhile (· = slash))

/-- `rindex(path, '/')`: the path before the last slash, and what follows it. -/
def rindex : List UInt8 → Option (List UInt8 × List UInt8)
  | [] => none
  | c :: p =>
      if c = 0 then none
      else
        match rindex p with
        | some (dir, name) => some (c :: dir, name)
        | none => if c = slash then some ([], p) else none

/-- The directory of a path, 0 if there is none, and the name in it. -/
def dirname (how : How) (f : ℕ) (path : List UInt8) : M (Option Inode × List UInt8) :=
  match rindex path with
  | none => do
      let dp ← iget how f 1
      pure (some dp, path)
  | some (dir, name) => do
      let dp ← namei how f dir
      pure (dp, name)

/-! ## Removing a name -/

/-- `memmove(&dp[i], &dp[i+1], (entries - i) * 16)` and `memset(&dp[entries-1], 0, 16)`, which are
meant for `dirp`.  `dp` points to the 48 bytes of a `struct i_node`, an element of `dp[]` has 32. -/
def compact (dp : Inode) (i entries : ℕ) : M Inode :=
  if 32 * (i + 1) + 16 * (entries - i) ≤ 48 ∧ 32 * (entries - 1) + 16 ≤ 48 then
    pure { dp with ondisk := copyBytes zero 0 dp.ondisk 0 16 }
  else outside

/-- The last block of a directory that has become smaller by an entry. -/
def shrink (dp : Inode) : M Inode :=
  let size := Dsknod.filesize dp.ondisk
  if size % 512 = 0 then
    if size / 512 ≥ 8 then outside
    else do
      bfree dp.fs (dp.addr (size / 512))
      pure (dp.setAddr (size / 512) 0)
  else pure dp

/-- The entry `i` is taken out of the directory. -/
def delete (how : How) (dp : Inode) (dirp : Buffer) (i : ℕ) : M Unit := do
  let dp ← compact dp i (Dsknod.filesize dp.ondisk / 16)
  let dp ← shrink { dp with
    ondisk := Dsknod.setSize1 dp.ondisk ((Dsknod.size1 dp.ondisk + 65520) % 65536) }
  iput how dp
  let _ ← dirp.putdir how dp

/-- The number of a free inode is kept in the superblock if there is room. -/
def ifreed (f inum : ℕ) : M Unit := do
  let sb ← superblock f
  if ninode sb = 100 then pure ()
  else if ninode sb > 100 then outside
  else setSuper f (setNinode (setInode sb (ninode sb) inum) (ninode sb + 1))

/-- The rest of `fileunlink`: the inode has a link less, and is freed with the last one. -/
def unlinked (how : How) (f inum : ℕ) : M Unit := do
  let dp ← iget how f inum
  let dp := { dp with
    ondisk := Dsknod.setNlink dp.ondisk ((Dsknod.nlink dp.ondisk + 255) % 256) }
  let dp ← if Dsknod.nlink dp.ondisk = 0 then do
      let dp ← filefree how dp
      ifreed f inum
      pure { dp with ondisk := Dsknod.setMode dp.ondisk 0 }
    else pure dp
  iput how dp
  let sb ← superblock f
  setSuper f (setFmod sb)

/-- `fileunlink(fs, name)`.  The entries are compared with the whole path. -/
def fileunlink (how : How) (f : ℕ) (name : List UInt8) : M Unit := do
  let (dp, _) ← dirname how f name
  match dp with
  | none => outside
  | some dp =>
      if Dsknod.ifdir dp.ondisk = false then pure ()
      else do
        let dirp ← getdir how dp
        match dirp.find (Dsknod.filesize dp.ondisk / 16) name with
        | none => pure ()
        | some i =>
            if (dirp.entry i).inum = 0 then pure ()
            else do
              delete how dp dirp i
              unlinked how f (dirp.entry i).inum

/-! ## Making a name -/

/-- The entry `i` is stored in the directory. -/
def insert (how : How) (dp : Inode) (dirp : Buffer) (i inum : ℕ) (name : List UInt8) : M Unit :=
  if dirp.size < 16 * i + 16 then outside
  else do
    let dp ← (dirp.setEntry i inum name).putdir how dp
    iput how dp
    let sb ← superblock dp.fs
    setSuper dp.fs (setFmod sb)

/-- A directory without a free entry gets another one at its end. -/
def extend (dp : Inode) (dirp : Buffer) (junk : Bytes) : Inode × Buffer :=
  let size1 := (Dsknod.size1 dp.ondisk + 16) % 65536
  ({ dp with ondisk := Dsknod.setSize1 dp.ondisk size1 },
    if size1 % 512 = 0 then dirp.realloc size1 junk else dirp)

/-- The first entry with number 0. -/
def Buffer.unused (dirp : Buffer) (entries : ℕ) : Option ℕ :=
  (List.range entries).find? fun i => (dirp.entry i).inum = 0

/-- The new entry goes into the first free one, or behind the last. -/
def enter (how : How) (dp : Inode) (dirp : Buffer) (inum : ℕ) (name : List UInt8) : M Unit :=
  let entries := Dsknod.filesize dp.ondisk / 16
  match dirp.unused entries with
  | some i => insert how dp dirp i inum name
  | none => do
      let junk ← junk
      let (dp, dirp) := extend dp dirp junk
      insert how dp dirp entries inum name

/-- `filelink(fs, path, inum)` -/
def filelink (how : How) (f : ℕ) (path : List UInt8) (inum : ℕ) : M Unit := do
  let (dp, name) ← dirname how f path
  match dp with
  | none => outside
  | some dp =>
      if Dsknod.ifdir dp.ondisk = false then pure ()
      else do
        let dirp ← getdir how dp
        enter how dp dirp inum name

/-- The inode that `ialloc` makes: `IALLOC | mode`, and zeros up to the times. -/
def freshInode (d : Bytes) (mode : ℕ) : Bytes :=
  Dsknod.setMode (copyBytes zero 0 d 2 22) (32768 ||| mode)

/-- `ialloc(fs, mode)`, without `ILARG`.  There is no inode 0 in `inodeblk[]`. -/
def ialloc (how : How) (f mode : ℕ) : M ℕ := do
  let sb ← superblock f
  if ninode sb = 0 then pure 0
  else if ninode sb > 100 then outside
  else do
    let inum := Super.inode sb (ninode sb - 1)
    setSuper f (setNinode sb (ninode sb - 1))
    if inum = 0 then outside
    else do
      let dp ← iget how f inum
      if Dsknod.ialloc dp.ondisk then pure 0
      else do
        iput how { dp with
          ondisk := freshInode dp.ondisk (mode % 4096 + mode / 8192 * 8192) }
        let sb ← superblock f
        setSuper f (setFmod sb)
        pure inum

/-- `filecreate(fs, name)`: an ordinary file with all permissions. -/
def filecreate (how : How) (f : ℕ) (name : List UInt8) : M (Option Inode) := do
  let inum ← ialloc how f 511
  if inum = 0 then pure none
  else do
    filelink how f name inum
    namei how f name

end Host

end Micronix
