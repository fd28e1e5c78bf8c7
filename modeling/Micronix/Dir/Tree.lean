import Micronix.Fs.Sys

/-!
# Directories

`dlook` and `iname` of `name.c`, and the calls of `link.c` and `create.c`, over inodes that have
their directory entries in them.  A call ends with the file system as it has left it and with
`u.error`.

What depends on more than the directory tree is chosen: permissions, whether blocks can be read and
written, whether there is room for an inode or a file entry.
-/

namespace Micronix

/-- A name in a directory, 14 bytes. -/
abbrev Name := List UInt8

/-- `struct dir` -/
structure Dirent where
  inum : ℕ
  name : Name
  deriving DecidableEq

/-- An inode by its device and number; there is no inode 0. -/
structure Ino where
  dev : ℕ
  inum : ℕ
  pos : 0 < inum
  deriving DecidableEq

/-- An inode: `IALLOC`, its type, `i_nlink`, the references to it in core and, in a directory, its
entries. -/
structure Dnode where
  alloc : Bool
  fmt : Ifmt
  nlink : ℕ
  count : ℕ
  ents : List Dirent

/-- The file systems, with the devices mounted on inodes. -/
structure Tree where
  node : Ino → Dnode
  mount : Ino → Option ℕ

namespace Tree

def modNode (t : Tree) (i : Ino) (f : Dnode → Dnode) : Tree :=
  { t with node := Function.update t.node i (f (t.node i)) }

/-! ## `name.c` -/

/-- `direqu(a, b)` -/
def direqu : Name → Name → ℕ → Bool
  | _, _, 0 => true
  | a, b, n + 1 =>
      if a.headD 0 ≠ b.headD 0 then false
      else if a.headD 0 = 0 then true
      else direqu a.tail b.tail n

/-- What `dlook` comes to: the number and the offset of the entry, or the offset for a new one. -/
inductive Look
  | found (inum offset : ℕ)
  | missing (place slot : ℕ)

/-- The entries of one block; `place` and `slot` are 16 bits. -/
def dlookBlock (name : Name) : List Dirent → ℕ → ℕ → Look
  | [], place, slot => .missing place slot
  | d :: ds, place, slot =>
      if d.inum = 0 then dlookBlock name ds ((place + 16) % 65536) (if slot = 0 then place else slot)
      else if direqu d.name name 14 then .found d.inum place
      else dlookBlock name ds ((place + 16) % 65536) slot

/-- The loop over `nblks` blocks from block `log` on.  A block that cannot be mapped or read is left
out, and `place` stays; `EIO` stands for the errors of both.  `bread` of a block that can be read
clears `u.error`. -/
def dlookLoop (name : Name) (bread : ℕ → Bool) :
    ℕ → ℕ → List Dirent → ℕ → ℕ → Option Errno → Look × Option Errno
  | 0, _, _, place, slot, error => (.missing place slot, error)
  | nblks + 1, log, ents, place, slot, _ =>
      if bread log then
        match dlookBlock name (ents.take 32) place slot with
        | .found inum offset => (.found inum offset, none)
        | .missing place slot =>
            dlookLoop name bread nblks (log + 1) (ents.drop 32) place slot none
      else dlookLoop name bread nblks (log + 1) (ents.drop 32) place slot (some Errno.EIO)

/-- `dlook(ip, np)`; `last` says that no name follows.  It gives `u.offset` and `u.error`, and the
number of the entry if there is one. -/
def dlook (ents : List Dirent) (name : Name) (last : Bool) (bread : ℕ → Bool)
    (error : Option Errno) : Option ℕ × ℕ × Option Errno :=
  match dlookLoop name bread ((ents.length + 31) / 32) 0 ents 0 0 error with
  | (.found inum offset, error) => (some inum, offset, error)
  | (.missing place slot, error) =>
      (none, if slot ≠ 0 then slot else place,
        match error with
        | some e => some e
        | none => some (if last then .ENOENT else .ENOTDIR))

/-- What follows an inode with something mounted on it in `iget`: the root of that device. -/
def cross (mount : Ino → Option ℕ) : ℕ → Ino → Ino
  | 0, i => i
  | n + 1, i =>
      match mount i with
      | none => i
      | some dev => cross mount n ⟨dev, 1, Nat.one_pos⟩

/-- The inode that `iget(num, dev)` returns; there are `NMOUNT` mounts. -/
def iget (t : Tree) (i : Ino) : Ino := cross t.mount 4 i

/-- A path: where it starts, its names, and what the search finds at each: whether the directory may
be searched, whether its blocks can be read, whether the inode is to be had. -/
structure Walk where
  start : Ino
  path : List Name
  access : ℕ → Bool
  bread : ℕ → ℕ → Bool
  iget : ℕ → Bool

/-- What `iname` leaves: the inode or 0, with `u.iparent`, `u.offset`, `u.dir.name` and `u.error`. -/
inductive Found
  | inode (ip : Ino) (parent : Option Ino) (offset : ℕ) (name : Name) (error : Option Errno)
  | missing (parent : Option Ino) (offset : ℕ) (name : Name) (error : Errno)

/-- The loop of `iname` from the `k`-th name on. -/
def inameLoop (t : Tree) (w : Walk) :
    List Name → ℕ → Ino → Option Ino → ℕ → Name → Option Errno → Found
  | [], _, ip, parent, offset, name, error => .inode ip parent offset name error
  | c :: cs, k, ip, parent, offset, name, error =>
      if (t.node ip).fmt ≠ .IFDIR then .missing parent offset name .ENOTDIR
      else if ¬w.access k then .missing (some ip) offset name .EACCES
      else
        match dlook (t.node ip).ents c cs.isEmpty (w.bread k) error with
        | (none, offset, error) => .missing (some ip) offset c (error.getD .ENOENT)
        | (some inum, offset, error) =>
            if h : 0 < inum then
              if w.iget k then
                inameLoop t w cs (k + 1) (t.iget ⟨ip.dev, inum, h⟩) (some ip) offset c error
              else .missing (some ip) offset c .ENFILE
            else .missing (some ip) offset c Errno.EIO

/-- `iname(name)` -/
def iname (t : Tree) (w : Walk) (error : Option Errno) : Found :=
  inameLoop t w w.path 0 w.start none 0 [] error

/-! ## `link.c` -/

/-- What the calls find: whether the user is the super-user and may write, whether the inode is to
be had, the inode that `ialloc` gets with the error that it leaves, the errors in freeing blocks, in
the directory write and in the open. -/
structure Luck where
  super : Bool
  access : Bool
  iget : Bool
  ialloc : Option (ℕ × Option Errno)
  fault : Option Errno
  write : Option Errno
  iopen : Option Errno

/-- Where an entry is to be written, and for which inode. -/
structure Place where
  ip : Ino
  parent : Ino
  offset : ℕ
  name : Name
  error : Option Errno

/-- An entry in the place of the `k`-th one; a directory grows with free entries. -/
def putEnt (ents : List Dirent) (k : ℕ) (e : Dirent) : List Dirent :=
  if k < ents.length then ents.set k e
  else ents ++ List.replicate (k - ents.length) ⟨0, []⟩ ++ [e]

/-- `ilink(inum)`: after an error `iwrite` writes nothing, and it writes nothing when the block is
not to be had. -/
def ilink (t : Tree) (p : Place) (inum : ℕ) (error write : Option Errno) : Tree × Option Errno :=
  match error with
  | some e => (t, some e)
  | none =>
      match write with
      | some e => (t, some e)
      | none =>
          (t.modNode p.parent fun x =>
            { x with ents := putEnt x.ents (p.offset / 16) ⟨inum, p.name⟩ }, none)

/-- The checks of `link(old, new)`. -/
def linkCheck (t : Tree) (old new : Walk) (l : Luck) : Except Errno Place :=
  match t.iname old none with
  | .missing _ _ _ e => .error e
  | .inode ip _ _ _ e =>
      if (t.node ip).fmt = .IFDIR ∧ ¬l.super then .error .EPERM
      else if (t.node ip).nlink = 127 then .error .EMLINK
      else
        match t.iname new e with
        | .inode _ _ _ _ _ => .error .EEXIST
        | .missing none _ _ e => .error e
        | .missing (some parent) offset name e =>
            if e ≠ .ENOENT then .error e
            else if parent.dev ≠ ip.dev then .error .EXDEV
            else if ¬l.access then .error .EACCES
            else if ¬l.iget then .error .ENFILE
            else .ok ⟨ip, parent, offset, name, none⟩

/-- `link(old, new)` -/
def link (t : Tree) (old new : Walk) (l : Luck) : Tree × Option Errno :=
  match t.linkCheck old new l with
  | .error e => (t, some e)
  | .ok p =>
      ilink (t.modNode (t.iget p.ip) fun x => { x with nlink := (x.nlink + 1) % 256 }) p p.ip.inum
        none l.write

/-- `idec(ip)`; to free the blocks of the inode they must be read. -/
def idec (t : Tree) (ip : Ino) (error fault : Option Errno) : Tree × Option Errno :=
  if (t.node ip).count = 0 ∧ (t.node ip).nlink = 0 then
    (t.modNode ip fun x => { x with alloc := false, fmt := .IFREG, nlink := 0, ents := [] },
      match fault with
      | some e => some e
      | none => error)
  else (t, error)

/-- The checks of `unlink(name)`. -/
def unlinkCheck (t : Tree) (w : Walk) (l : Luck) : Except Errno Place :=
  match t.iname w none with
  | .missing _ _ _ e => .error e
  | .inode _ none _ _ _ => .error .ENOENT
  | .inode ip (some parent) offset name e =>
      if (t.node ip).fmt = .IFDIR ∧ ¬l.super then .error .EPERM
      else if ¬l.access then .error .EACCES
      else .ok ⟨ip, parent, offset, name, e⟩

/-- `unlink(name)` -/
def unlink (t : Tree) (w : Walk) (l : Luck) : Tree × Option Errno :=
  match t.unlinkCheck w l with
  | .error e => (t, some e)
  | .ok p =>
      let t := t.modNode p.ip fun x => { x with nlink := if 0 < x.nlink then x.nlink - 1 else x.nlink }
      -- the parent is protected across `idec`
      let t := t.modNode p.parent fun x => { x with count := x.count + 1 }
      let r := t.idec p.ip p.error l.fault
      ilink (r.1.modNode p.parent fun x => { x with count := x.count - 1 }) p 0 r.2 l.write

/-! ## `create.c` -/

/-- `imkfile(mode, dev)` up to the inode that `ialloc` gets: a free one, and not the directory, which
is locked. -/
def imkfileCheck (t : Tree) (f : Found) (l : Luck) : Except Errno Place :=
  match f with
  | .inode _ _ _ _ _ => .error .EEXIST
  | .missing none _ _ e => .error e
  | .missing (some parent) offset name e =>
      if e ≠ .ENOENT then .error e
      else if ¬l.access then .error .EACCES
      else
        match l.ialloc with
        | none => .error .ENOSPC
        | some (n, e) =>
            if h : 0 < n then
              if (t.node ⟨parent.dev, n, h⟩).alloc ∨ ⟨parent.dev, n, h⟩ = parent then .error .ENOSPC
              else .ok ⟨⟨parent.dev, n, h⟩, parent, offset, name, e⟩
            else .error .ENOSPC

/-- The rest of `imkfile`; `fmt` is the type in `mode`. -/
def imkfile (t : Tree) (p : Place) (fmt : Ifmt) (l : Luck) : Tree × Option Errno :=
  let r := ilink (t.modNode p.ip fun _ => ⟨true, .IFREG, 0, 0, []⟩) p p.ip.inum p.error l.write
  (r.1.modNode p.ip fun x => { x with nlink := 1, fmt }, r.2)

/-- The end of `iopen(ip, mode)`. -/
def iopen (t : Tree) (ip : Ino) (error : Option Errno) (l : Luck) : Tree × Option Errno :=
  match error with
  | some e => (t, some e)
  | none =>
      match l.iopen with
      | some e => (t, some e)
      | none => (t.modNode ip fun x => { x with count := x.count + 1 }, none)

/-- `creat(name, mode)` -/
def creat (t : Tree) (w : Walk) (l : Luck) : Tree × Option Errno :=
  match t.iname w none with
  | .inode ip _ _ _ e =>
      if (t.node ip).fmt = .IFDIR then (t, some .EISDIR)
      else if ¬l.access then (t, some .EACCES)
      -- `itrunc(ip)`
      else iopen t ip (match l.fault with | some e => some e | none => e) l
  | f =>
      match t.imkfileCheck f l with
      | .error e => (t, some e)
      | .ok p => iopen (imkfile t p .IFREG l).1 p.ip (imkfile t p .IFREG l).2 l

/-- `mknod(name, mode, dev)` -/
def mknod (t : Tree) (w : Walk) (fmt : Ifmt) (l : Luck) : Tree × Option Errno :=
  if ¬l.super then (t, some .EPERM)
  else
    match t.imkfileCheck (t.iname w none) l with
    | .error e => (t, some e)
    | .ok p => imkfile t p fmt l

/-- A call with what it finds. -/
inductive Call
  | link (old new : Walk) (l : Luck)
  | unlink (w : Walk) (l : Luck)
  | creat (w : Walk) (l : Luck)
  | mknod (w : Walk) (fmt : Ifmt) (l : Luck)

/-- The file system after the call, and `u.error`. -/
def run (t : Tree) : Call → Tree × Option Errno
  | .link old new l => t.link old new l
  | .unlink w l => t.unlink w l
  | .creat w l => t.creat w l
  | .mknod w fmt l => t.mknod w fmt l

end Tree

end Micronix
