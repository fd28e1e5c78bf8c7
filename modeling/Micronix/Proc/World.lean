import Mathlib.Algebra.BigOperators.Intervals

/-!
# References to inodes and files

What the system calls share beyond the contents of files: for every inode its link count, whether
it is allocated, and the count of references to it in core; the file table; for every process its
current directory and its open file slots; who has an inode locked, the superblock, and the turn in
`exec`.

An inode stands for the slot that it has in the inode list while it is in use.  `mounts` lists the
inodes that mounts refer to: those that are mounted on, the special files, and `rootdir`.

`Tally` is for the statements: by its own account, what a process has changed and has not yet made
good.
-/

namespace Micronix

/-! ## Sizes and priorities -/

/-- `NPROC`, `NOPEN` and `NFILE` -/
@[irreducible] def nproc : ℕ := 20
@[irreducible] def nopen : ℕ := 16
@[irreducible] def nfile : ℕ := 60

/-- The priorities of sleepers; below `sigPri` a signal aborts the call. -/
def priBio : ℕ := 90
def priNod : ℕ := 80
def sigPri : ℕ := 80
def priPipe : ℕ := 70
def priTti : ℕ := 60
def priWait : ℕ := 55
def priUser : ℕ := 40

/-- What processes sleep on: a buffer or other block i/o, a locked inode, the modem of a terminal in its
open, the queues of a terminal, the turn in `exec`, their children, the clock, nothing, a pipe. -/
inductive Event
  | buf | inode | mstate | rawque | outque | exec | proc | revel | pause | pipe
  deriving DecidableEq

/-! ## Tables -/

/-- An inode: `IALLOC`, `i_nlink` and `i_count`. -/
structure Node where
  alloc : Bool
  nlink : ℕ
  count : UInt8

/-- An entry of the file table. -/
structure File where
  count : UInt8
  inode : ℕ

/-- By its own account, a process has locked the inodes `held`, raised the counts of the inodes
`owed` and the files `fowed` without a reference to show for it, will call `idec` on `duty`, has
`bufs` buffers busy, has the superblock busy, has the turn in `exec`, has given back its current
directory to take another one, and is freeing an inode. -/
@[ext] structure Tally where
  held : List ℕ
  owed : List ℕ
  fowed : List ℕ
  duty : List ℕ
  bufs : ℕ
  super : Bool
  turn : Bool
  away : Bool
  freeing : Option ℕ
  deriving DecidableEq

/-- Nothing to make good. -/
def Tally.clear : Tally := ⟨[], [], [], [], 0, false, false, false, none⟩

/-- The tables; `live` are the processes that there are, `own` and `sb` are the processes that have locked
an inode or have the superblock busy, `execing` the one whose turn it is in `exec`. -/
structure World where
  node : ℕ → Node
  own : ℕ → Option ℕ
  file : ℕ → File
  olist : ℕ → ℕ → Option ℕ
  live : ℕ → Bool
  cdir : ℕ → Option ℕ
  mounts : List ℕ
  sb : Option ℕ
  execing : Option ℕ
  tally : ℕ → Tally

namespace World

open Finset

/-- The file entries, current directories and mounts that refer to an inode. -/
def refs (w : World) (i : ℕ) : ℕ :=
  (∑ f ∈ range nfile, if (w.file f).count ≠ 0 ∧ (w.file f).inode = i then 1 else 0) +
    (∑ p ∈ range nproc, if w.cdir p = some i then 1 else 0) + w.mounts.count i

/-- The slots of one process that refer to a file. -/
def opens (o : ℕ → Option ℕ) (f : ℕ) : ℕ := ∑ fd ∈ range nopen, if o fd = some f then 1 else 0

/-- The descriptor slots that refer to a file. -/
def slots (w : World) (f : ℕ) : ℕ :=
  ∑ p ∈ range nproc, opens (w.olist p) f

/-- What processes have still to take from the count of an inode. -/
def pending (w : World) (i : ℕ) : ℕ := ∑ p ∈ range nproc, (w.tally p).owed.count i

/-- What they have still to take from the count of a file. -/
def fpending (w : World) (f : ℕ) : ℕ := ∑ p ∈ range nproc, (w.tally p).fowed.count f

/-- This slot of the process table is free; a process that is no more has given back its current
directory and closed its files. -/
def Free (w : World) (p : ℕ) : Prop :=
  p < nproc ∧ w.live p = false ∧ w.cdir p = none ∧ ∀ fd < nopen, w.olist p fd = none

instance (w : World) (p : ℕ) : Decidable (w.Free p) :=
  inferInstanceAs (Decidable (_ ∧ _ ∧ _ ∧ ∀ fd < nopen, _))

/-! ## Updates -/

def modNode (w : World) (i : ℕ) (f : Node → Node) : World :=
  { w with node := Function.update w.node i (f (w.node i)) }

def setFile (w : World) (f : ℕ) (x : File) : World :=
  { w with file := Function.update w.file f x }

def setSlot (w : World) (p fd : ℕ) (x : Option ℕ) : World :=
  { w with olist := Function.update w.olist p (Function.update (w.olist p) fd x) }

def setCdir (w : World) (p : ℕ) (c : Option ℕ) : World :=
  { w with cdir := Function.update w.cdir p c }

def setOwn (w : World) (i : ℕ) (o : Option ℕ) : World :=
  { w with own := Function.update w.own i o }

def raise (w : World) (i : ℕ) : World := w.modNode i fun x => { x with count := x.count + 1 }

def lower (w : World) (i : ℕ) : World := w.modNode i fun x => { x with count := x.count - 1 }

def note (w : World) (p : ℕ) (f : Tally → Tally) : World :=
  { w with tally := Function.update w.tally p (f (w.tally p)) }

end World

namespace Tally

def lock (t : Tally) (i : ℕ) : Tally := { t with held := i :: t.held }
def unlock (t : Tally) (i : ℕ) : Tally := { t with held := t.held.erase i }
def owe (t : Tally) (i : ℕ) : Tally := { t with owed := i :: t.owed }
def pay (t : Tally) (i : ℕ) : Tally := { t with owed := t.owed.erase i }
def fowe (t : Tally) (f : ℕ) : Tally := { t with fowed := f :: t.fowed }
def fpay (t : Tally) (f : ℕ) : Tally := { t with fowed := t.fowed.erase f }
def charge (t : Tally) (i : ℕ) : Tally := { t with duty := i :: t.duty }
def discharge (t : Tally) (i : ℕ) : Tally := { t with duty := t.duty.erase i }

end Tally

/-- What a routine does without sleeping. -/
inductive Deed
  | ref (i : ℕ)
  | unref (i : ℕ)
  | irelse (i : ℕ)
  | enter (i : ℕ)
  | quit
  | unspawn (child : ℕ)
  | unlink (i : ℕ)
  | mklink (i : ℕ)
  | putsb
  | takeTurn
  | giveTurn
  | bget (n : ℕ)
  | brelse (n : ℕ)

namespace Deed

/-- What it changes in the account of the process. -/
def tally (d : Deed) (t : Tally) : Tally :=
  match d with
  | ref i => t.owe i
  | unref i => t.pay i
  | irelse i => t.unlock i
  | unlink i => t.charge i
  | takeTurn => { t with turn := true }
  | giveTurn => { t with turn := false }
  | bget n => { t with bufs := t.bufs + n }
  | brelse n => { t with bufs := t.bufs - n }
  | enter _ => { t with away := false }
  | putsb => { t with super := false }
  | quit | unspawn _ | mklink _ => t

/-- What it changes in the tables. -/
def effect (d : Deed) (p : ℕ) (w : World) : World :=
  match d with
  | ref i => w.raise i
  | unref i => w.lower i
  | irelse i => w.setOwn i none
  | enter i => (w.raise i).setCdir p (some i)
  | quit =>
      { w with
        node := match w.cdir p with
          | none => w.node
          | some c => (w.lower c).node
        live := Function.update w.live p false
        cdir := Function.update w.cdir p none }
  | unspawn child =>
      { w with
        live := Function.update w.live child false
        cdir := Function.update w.cdir child none
        olist := Function.update w.olist child fun _ => none }
  | unlink i => w.modNode i fun x => { x with nlink := x.nlink - 1 }
  | mklink i => w.modNode i fun x => { x with nlink := 1 }
  | putsb => { w with sb := none }
  | takeTurn => { w with execing := some p }
  | giveTurn => { w with execing := none }
  | bget _ | brelse _ => w

def run (d : Deed) (p : ℕ) (w : World) : World := (d.effect p w).note p d.tally

end Deed

namespace World

/-- `ilock(ip)` of a free inode. -/
def lock (w : World) (p i : ℕ) : World := (w.setOwn i (some p)).note p fun t => t.lock i

/-- `ilock(ip)` of a busy inode: the count is raised while the process waits. -/
def await (w : World) (p i : ℕ) : World := (w.raise i).note p fun t => t.owe i

/-- The end of the wait. -/
def relock (w : World) (p i : ℕ) : World :=
  ((w.lower i).setOwn i (some p)).note p fun t => (t.pay i).lock i

/-- `falloc()` and `oalloc()`: the first free entry of the file table, the first free slot. -/
def falloc (w : World) : Option ℕ := (List.range nfile).find? fun f => (w.file f).count = 0
def oalloc (w : World) (p : ℕ) : Option ℕ := (List.range nopen).find? fun fd => w.olist p fd = none

/-- The end of `iopen(ip, mode)`. -/
def fopen (w : World) (p i : ℕ) : World :=
  match w.falloc, w.oalloc p with
  | some f, some fd => ((w.raise i).setFile f ⟨1, i⟩).setSlot p fd (some f)
  | _, _ => w

/-- `u.olist[fd] = 0` -/
def unslot (w : World) (p fd f : ℕ) : World := (w.setSlot p fd none).note p fun t => t.fowe f

/-- `--fp->count`: when it comes to 0 the entry is free, and the count of the inode is one too
many. -/
def drop (w : World) (p f : ℕ) : World :=
  let x := w.file f
  (w.setFile f ⟨x.count - 1, x.inode⟩).note p fun t =>
    if x.count - 1 = 0 then (t.fpay f).owe x.inode else t.fpay f

/-- `--ip->count`, after which a count of 0 leads to `idec`. -/
def release (w : World) (p i : ℕ) : World :=
  (w.lower i).note p fun t => if (w.node i).count - 1 = 0 then (t.pay i).charge i else t.pay i

/-- `getsb(dev)` of a superblock that is not busy. -/
def getsb (w : World) (p : ℕ) : World :=
  { w with sb := some p }.note p fun t => { t with super := true }

/-- The end of `ialloc(dev)`: the inode is cleared, and with it its count. -/
def take (w : World) (i : ℕ) : World := w.modNode i fun _ => ⟨true, 0, 0⟩

/-- `u.cdir->count--`, when a new current directory is to follow. -/
def leave (w : World) (p c : ℕ) : World :=
  ((w.lower c).setCdir p none).note p fun t => { t.charge c with away := true }

/-- `fork` in process `p`: the child has the same current directory and open files. -/
def spawn (w : World) (p child : ℕ) : World :=
  { w with
    node := fun i => if w.cdir p = some i then { w.node i with count := (w.node i).count + 1 }
      else w.node i
    file := fun f =>
      { w.file f with count := (w.file f).count + UInt8.ofNat (opens (w.olist p) f) }
    live := Function.update w.live child true
    cdir := Function.update w.cdir child (w.cdir p)
    olist := Function.update w.olist child (w.olist p) }

/-- The end of `idec(ip)`: `irelse(ip)`. -/
def idec (w : World) (p i : ℕ) : World := (w.setOwn i none).note p fun t => (t.unlock i).discharge i

/-- `idec(ip)` of an inode without references and links, up to the end of its sleeps. -/
def condemn (w : World) (p i : ℕ) : World := w.note p fun t => { t with freeing := some i }

/-- `ifree(ip); irelse(ip)` -/
def freed (w : World) (p i : ℕ) : World :=
  ((w.modNode i fun x => { x with alloc := false, nlink := 0 }).setOwn i none).note p fun t =>
    { (t.unlock i).discharge i with freeing := none }

end World

end Micronix
