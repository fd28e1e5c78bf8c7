import Mathlib.Logic.Function.Basic
import Mathlib.Data.List.FinRange

/-!
# The mount table, `sys/mount.c`

`mount` and `umount` of one process, with what they call in `name.c` and `iget.c`.  Nobody else runs:
where the process would sleep on an inode that stays locked, where the kernel panics and where an
`iget` goes around forever (it has a bound) there is no result.

What comes from the disks is the environment's: `Io` has the answer to each block i/o, in the order in
which they are done.  The mounted-on inode of an entry in use is never null, except for the root; for
the entry of the root, and for a free one, what `umount` does at the address 0 is left out.
-/

namespace Micronix

namespace Mounting

abbrev NMOUNT : ℕ := 4

def IFMT : BitVec 16 := 0o060000
def IFCHR : BitVec 16 := 0o020000
def IFDIR : BitVec 16 := 0o040000
def IFBLK : BitVec 16 := 0o060000

/-- `IEXEC | IEXEC << 3 | IEXEC << 6` -/
def IEXEC : BitVec 16 := 0o111

/-- `u.error`; `device` is what a driver leaves there. -/
inductive Errno
  | EPERM | ENOENT | EIO | EACCES | ENOTBLK | EBUSY | ENOTDIR | EINVAL | ENFILE
  | device (code : ℕ)
  deriving DecidableEq, Repr

/-- Which inode a slot of `ilist` has, the references to it, and the file system mounted on it. -/
structure Ref where
  dev : ℕ
  inum : ℕ
  count : BitVec 8
  mount : Option (Fin NMOUNT)
  deriving DecidableEq

/-- What `iio` reads, as far as it matters here; `addr0` is `i_addr[0]`. -/
structure Node where
  mode : BitVec 16
  nlink : BitVec 8
  addr0 : ℕ
  deriving DecidableEq

/-- A slot of `ilist`. -/
structure Inode extends Ref, Node where
  busy : Bool
  mod : Bool
  time : ℕ
  deriving DecidableEq

def Inode.zero : Inode := ⟨⟨0, 0, 0, none⟩, ⟨0, 0, 0⟩, false, false, 0⟩

/-- `struct mount`; an entry for device 0 is free. -/
structure Mount (n : ℕ) where
  dev : ℕ
  inode : Option (Fin n)
  ronly : Bool
  fsize : ℕ
  isize : ℕ
  deriving DecidableEq

def Mount.zero {n : ℕ} : Mount n := ⟨0, none, false, 0, 0⟩

/-- What the block i/o with a number leaves in `u.error`, and what it reads: an inode, the number of
the directory entry that `dlook` finds (or 0), `s_fsize` and `s_isize`. -/
structure Io where
  error : ℕ → Option Errno
  node : ℕ → Node
  entry : ℕ → ℕ
  fsize : ℕ → ℕ
  isize : ℕ → ℕ

/-- A pathname: whether it begins with a slash, and how many names there are. -/
structure Path where
  rooted : Bool
  names : ℕ

/-- The state, with `n` slots (`NINODE`) in `ilist`; `ios` is the number of the next i/o. -/
structure Sys (n : ℕ) where
  mlist : Fin NMOUNT → Mount n
  ilist : Fin n → Inode
  rootdev : ℕ
  rootdir : Fin n
  cdir : Fin n
  superuser : Bool
  error : Option Errno
  icount : ℕ
  ios : ℕ

/-- What `mount` has made: the entry, the slot it is mounted on, and the special file. -/
structure Made (n : ℕ) where
  entry : Fin NMOUNT
  id : Fin n
  inum : ℕ
  idev : ℕ
  deriving DecidableEq

/-- The file that `umount` was called for, its type and device, and the entry. -/
structure Target (n : ℕ) where
  file : Fin n
  mode : BitVec 16
  dev : ℕ
  entry : Fin NMOUNT
  deriving DecidableEq

variable {n : ℕ}

namespace Sys

variable (io : Io) (s : Sys n) (i : Fin n)

def fail (e : Errno) : Sys n := { s with error := some e }

def modSlot (f : Inode → Inode) : Sys n :=
  { s with ilist := Function.update s.ilist i (f (s.ilist i)) }

/-- A block i/o. -/
def doIo : Sys n := { s with error := io.error s.ios, ios := s.ios + 1 }

/-- `ip->count++` and `ip->count--` -/
def hold : Sys n := s.modSlot i fun x => { x with count := x.count + 1 }
def drop : Sys n := s.modSlot i fun x => { x with count := x.count - 1 }

/-! ## `iget.c` -/

/-- `i->time = itime()` -/
def itime : Sys n :=
  let count := (s.icount + 1) % 65536
  let s := if count = 0 then { s with ilist := fun j => { s.ilist j with time := 0 } } else s
  { s.modSlot i fun x => { x with time := count } with icount := count }

def irelse : Sys n := (s.modSlot i fun x => { x with busy := false }).itime i

/-- `ilock`; the count goes up and down again. -/
def ilock : Option (Sys n) :=
  if (s.ilist i).busy then none else some (s.modSlot i fun x => { x with busy := true })

/-- The first entry for a device. -/
def mlook (dev : ℕ) : Option (Fin NMOUNT) :=
  (List.finRange NMOUNT).find? fun m => (s.mlist m).dev = dev

/-- `inum == 0 || inum > m->isize << 4` -/
def badInum (m : Fin NMOUNT) : Prop :=
  (s.ilist i).inum = 0 ∨ (s.mlist m).isize * 16 % 65536 < (s.ilist i).inum

instance (m : Fin NMOUNT) : Decidable (s.badInum i m) := by
  unfold badInum
  infer_instance

/-- `iio`, where `f` is what it does to the slot; `none` is the panic. -/
def iio (f : Inode → Inode) : Option (Bool × Sys n) :=
  (s.mlook (s.ilist i).dev).map fun m =>
    if s.badInum i m then (false, s.fail Errno.EIO)
    else
      let s := s.doIo io
      if s.error = none then (true, s.modSlot i fun x => { f x with mod := false }) else (false, s)

/-- `iio(IREAD, i)` and `iio(IWRITE, i)` -/
def iread : Option (Bool × Sys n) := s.iio io i fun x => { x with toNode := io.node s.ios }
def iwrite : Option (Bool × Sys n) := s.iio io i id

/-- The slot that `iget` finds: the first that carries the inode. -/
def hit (num dev : ℕ) : Option (Fin n) :=
  (List.finRange n).find? fun i => (s.ilist i).inum = num ∧ (s.ilist i).dev = dev

/-- One slot more in the search for the one to take over. -/
def elder (f : Option (Fin n)) : Option (Fin n) :=
  if (s.ilist i).count ≠ 0 ∨ (s.ilist i).busy then f
  else
    match f with
    | none => some i
    | some j => if (s.ilist i).time < (s.ilist j).time then some i else some j

/-- The slot that `iget` takes over. -/
def victim : Option (Fin n) := (List.finRange n).foldl (fun f i => s.elder i f) none

/-- The slot is marked for other searchers, and read. -/
def claim (num dev : ℕ) : Option (Option (Fin n) × Sys n) := do
  let s := s.modSlot i fun x => { x with inum := num, dev := dev, count := 0, mount := none }
  let r ← s.iread io i
  if r.1 then some (some i, r.2)
  else some (none, (r.2.modSlot i fun _ => Inode.zero).irelse i)

def iget : ℕ → ℕ → ℕ → Sys n → Option (Option (Fin n) × Sys n)
  | 0, _, _, _ => none
  | fuel + 1, num, dev, s =>
      match s.hit num dev with
      | some i => do
          let s ← s.ilock i
          match (s.ilist i).mount with
          | some m => iget fuel 1 (s.mlist m).dev (s.irelse i)
          | none => some (some i, s)
      | none =>
          match s.victim with
          | none => some (none, s.fail .ENFILE)
          | some i => do
              let s ← s.ilock i
              if (s.ilist i).mod then
                let r ← s.iwrite io i
                if r.1 then r.2.claim io i num dev else some (none, r.2.irelse i)
              else s.claim io i num dev

/-- The slots that are modified and not locked are written. -/
def isync : Option (Sys n) :=
  (List.finRange n).foldlM (fun s i =>
    if (s.ilist i).mod ∧ ¬(s.ilist i).busy then do
      let s ← s.ilock i
      let r ← s.iwrite io i
      some (r.2.irelse i)
    else some s) s

/-- The slots of a device are written and cleared. -/
def iflush (dev : ℕ) : Option (Sys n) :=
  (List.finRange n).foldlM (fun s i =>
    if (s.ilist i).dev = dev then do
      let s ← s.ilock i
      let s ← if (s.ilist i).mod then (s.iwrite io i).map Prod.snd else some s
      some ((s.irelse i).modSlot i fun _ => Inode.zero)
    else some s) s

/-! ## `name.c` -/

/-- `dlook`, for the last name or not: the i-number, or 0. -/
def dlook (last : Bool) : ℕ × Sys n :=
  let inum := io.entry s.ios
  let t := s.doIo io
  if inum ≠ 0 then (inum, { t with error := none })
  else if t.error = none then (0, t.fail (if last then .ENOENT else .ENOTDIR))
  else (0, t)

/-- The loop of `iname`, with as many names left. -/
def walk (fuel : ℕ) : ℕ → Fin n → Sys n → Option (Option (Fin n) × Sys n)
  | 0, ip, s => some (some ip, s)
  | k + 1, ip, s =>
      if (s.ilist ip).mode &&& IFMT ≠ IFDIR then some (none, (s.fail .ENOTDIR).irelse ip)
      else if (s.ilist ip).mode &&& IEXEC = 0 then some (none, (s.fail .EACCES).irelse ip)
      else
        let (inum, s) := s.dlook io (k = 0)
        if inum = 0 then some (none, s.irelse ip)
        else do
          let s := (s.hold ip).irelse ip
          let r ← iget io fuel inum (s.ilist ip).dev s
          let s := r.2.drop ip
          match r.1 with
          | some i => walk fuel k i s
          | none => some (none, s)

def iname (fuel : ℕ) (name : Path) : Option (Option (Fin n) × Sys n) := do
  let ip := if name.rooted then s.rootdir else s.cdir
  let s ← s.ilock ip
  walk io fuel name.names ip s

/-! ## `mount` -/

/-- `tmount`; the entry, or none. -/
def tmount (dev : ℕ) (ip : Fin n) (ronly : Bool) : Option (Fin NMOUNT) × Sys n :=
  match s.mlook 0 with
  | none => (none, s.fail .EBUSY)
  | some m =>
      let t := s.doIo io
      if t.error ≠ none then (none, t)
      else
        let e : Mount n := ⟨dev, some ip, ronly, io.fsize s.ios, io.isize s.ios⟩
        (some m, { t with mlist := Function.update t.mlist m e })

/-- `mount` from `iname(dname)` on, up to `id->count++`; the special file is `inum` of `idev`. -/
def graft (fuel : ℕ) (dname : Path) (ronly : Bool) (dev inum idev : ℕ) :
    Option (Option (Made n) × Sys n) := do
  let r ← s.iname io fuel dname
  match r with
  | (none, s) => some (none, s)
  | (some id, s) =>
      if (s.ilist id).mode &&& IFMT ≠ IFDIR then some (none, (s.fail .ENOTDIR).irelse id)
      else if s.mlook dev ≠ none ∨ (s.ilist id).mount ≠ none then
        some (none, (s.fail .EBUSY).irelse id)
      else
        -- `bopen`
        let s := s.doIo io
        if s.error ≠ none then some (none, s.irelse id)
        else
          match s.tmount io dev id ronly with
          | (none, s) => some (none, s.irelse id)
          | (some m, s) =>
              some (some ⟨m, id, inum, idev⟩,
                (s.modSlot id fun x => { x with mount := some m }).hold id)

/-- `mount` up to `id->count++`. -/
def entered (fuel : ℕ) (ioname dname : Path) (ronly : Bool) : Option (Option (Made n) × Sys n) :=
  if s.superuser then do
    let r ← s.iname io fuel ioname
    match r with
    | (none, s) => some (none, s)
    | (some i, s) =>
        let s := s.irelse i
        if (s.ilist i).mode &&& IFMT ≠ IFBLK then some (none, s.fail .ENOTBLK)
        else s.graft io fuel dname ronly (s.ilist i).addr0 (s.ilist i).inum (s.ilist i).dev
  else some (none, s.fail .EPERM)

/-- The end of `mount`: the special file is counted.  The result, for the statements, is its slot. -/
def countIo (fuel : ℕ) (m : Made n) : Option (Option (Fin n) × Sys n) := do
  let r ← iget io fuel m.inum m.idev s
  match r with
  | (some i, s) => some (some i, ((s.hold i).irelse i).irelse m.id)
  | (none, s) => some (none, s.irelse m.id)

/-- `mount`; for the statements the result is what has been made, and the slot that is counted. -/
def mount (fuel : ℕ) (ioname dname : Path) (ronly : Bool) :
    Option (Option (Made n × Option (Fin n)) × Sys n) := do
  let r ← s.entered io fuel ioname dname ronly
  match r with
  | (none, s) => some (none, s)
  | (some m, s) =>
      let r ← s.countIo io fuel m
      some (some (m, r.1), r.2)

/-! ## `umount` -/

/-- `ip->i_mode & IFMT != IFBLK`, as the language has it: the comparison comes first. -/
def notBlk (mode : BitVec 16) : Bool := mode &&& (if IFMT ≠ IFBLK then 1 else 0) ≠ 0

/-- `itrunc(ip)` and `ifree(ip)` -/
def ifree : Sys n := (s.doIo io).modSlot i fun x => { x with toNode := ⟨0, 0, 0⟩, mod := true }

def idec : Sys n :=
  (if (s.ilist i).count = 0 ∧ (s.ilist i).nlink = 0 then s.ifree io i else s).irelse i

/-- `iclose`; the i/o are `cclose`, and `bflush` and `bclose`. -/
def iclose : Option (Sys n) :=
  let s := s.drop i
  if (s.ilist i).count = 0 then do
    let s ← s.ilock i
    let type := (s.ilist i).mode &&& IFMT
    if type = IFCHR then
      let s ← (((s.hold i).irelse i).doIo io).ilock i
      some ((s.drop i).idec io i)
    else if type = IFBLK then some ((s.doIo io).idec io i)
    else some (s.idec io i)
  else some s

/-- `umount` up to `getsb`. -/
def cleared (fuel : ℕ) (ioname : Path) : Option (Option (Target n) × Sys n) :=
  if s.superuser then do
    let r ← s.iname io fuel ioname
    match r with
    | (none, s) => some (none, s)
    | (some i, s) =>
        let mode := (s.ilist i).mode
        let dev := (s.ilist i).addr0
        if notBlk mode then some (none, (s.fail .ENOTBLK).irelse i)
        else
          match s.mlook dev with
          | none => some (none, (s.fail .EINVAL).irelse i)
          | some m =>
              if dev = s.rootdev then some (none, (s.fail .EINVAL).irelse i)
              else do
                let s ← s.isync io
                if ∃ j, (s.ilist j).dev = dev ∧
                    ((s.ilist j).busy ∨ (s.ilist j).mod ∨ (s.ilist j).count ≠ 0) then
                  some (none, (s.fail .EBUSY).irelse i)
                else
                  let s ← s.iflush io dev
                  -- `getsb`
                  let s := s.doIo io
                  if s.error = none then some (some ⟨i, mode, dev, m⟩, s) else none
  else some (none, s.fail .EPERM)

/-- The end of `umount`. -/
def detach (d : Target n) : Option (Sys n) := do
  let s ← (s.irelse d.file).iclose io d.file
  let s :=
    match (s.mlist d.entry).inode with
    | some ip => ((s.modSlot ip fun x => { x with mount := none }).drop ip).idec io ip
    | none => s
  some { s with mlist := Function.update s.mlist d.entry Mount.zero }

/-- `umount`; for the statements the result is what has been unmounted. -/
def umount (fuel : ℕ) (ioname : Path) : Option (Option (Target n) × Sys n) := do
  let r ← s.cleared io fuel ioname
  match r with
  | (none, s) => some (none, s)
  | (some d, s) =>
      let s ← s.detach io d
      some (some d, s)

end Sys

end Mounting

end Micronix
