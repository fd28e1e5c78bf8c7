import Micronix.Lib.Slots
import Micronix.Lib.Transition
import Micronix.Proc.World

/-!
# The file table, `sys/open.c` and `sys/access.c`

The open file entries, the descriptors of the processes, and of the inodes what `access` and `iopen`
look at.  A process is interrupted only where it sleeps: in the open of a device, in `itrunc`, in the
`ialloc` of `pipe`, in `fork` until its child is on the swap device, and between two files that `exit`
closes.

An inode stands for the slot it has in core while something refers to it.  For the statements,
every entry that `falloc` hands out has a number, and `made` is the number behind a descriptor.
-/

namespace Micronix

namespace Files

open Transition

/-! ## Data -/

/-- `IREAD`, `IWRITE`, `IEXEC`, and `PIPE`, which is the same bit. -/
def iRead : ℕ := 4
def iWrite : ℕ := 2
def iExec : ℕ := 1
def pipeBit : ℕ := iExec

/-- `mode & IWRITE` -/
def writ (mode : ℕ) : Bool := mode &&& iWrite != 0

/-- What `u.error` is set to; `dev` is an error of a driver. -/
inductive Error
  | eagain | ebadf | eacces | ebusy | eisdir | enfile | emfile | erofs
  | dev (n : ℕ)
  deriving DecidableEq

/-- `i_mode & IFMT` -/
inductive Fmt
  | ifreg | ifchr | ifdir | ifblk
  deriving DecidableEq

/-- Of `i_mode` the type, `IALLOC`, `ISVTX` and the permissions; the owner; of the flags `IRONLY`,
`IWRLOCK` and `IBUSY`. -/
structure Inode where
  fmt : Fmt
  ialloc : Bool
  isvtx : Bool
  perm : ℕ
  uid : ℕ
  gid : ℕ
  ironly : Bool
  iwrlock : Bool
  ibusy : Bool

/-- `struct file` -/
structure File where
  mode : ℕ
  count : UInt8
  inode : Option ℕ

def File.zero : File := ⟨0, 0, none⟩

/-- Where a process sleeps: nowhere that matters here; in `copen` or `bopen` for `iopen(ip, mode)`;
in `itrunc(ip)` for `creat`; in `ialloc` for `pipe`; in `fork` for a child; in `exit` with the slots
from `fd` on to go; on the way to the swap device; it is no more. -/
inductive Phase
  | idle
  | opening (ip mode : ℕ)
  | truncating (ip : ℕ)
  | piping (rf rd wf wd : ℕ)
  | forking (child : ℕ)
  | closing (fd : ℕ)
  | unborn
  | dead
  deriving DecidableEq

/-- The inode that a sleeping call works on. -/
def Phase.node : Phase → Option ℕ
  | opening ip _ | truncating ip => some ip
  | _ => none

structure State where
  file : ℕ → File
  inode : ℕ → Inode
  olist : ℕ → ℕ → Option ℕ
  phase : ℕ → Phase
  error : ℕ → Option Error
  next : ℕ
  made : ℕ → ℕ → ℕ

/-- `u.u_euid` and `u.u_egid` -/
structure User where
  euid : ℕ
  egid : ℕ

/-! ## `access.c` -/

/-- `access(ip, per)`: the error, or none. -/
def access (u : User) (ip : Inode) (per : ℕ) : Option Error :=
  let allowed : Option Error :=
    if u.euid = 0 then
      if per &&& iExec = 0 then none
      else if ip.perm &&& (iExec ||| iExec <<< 3 ||| iExec <<< 6) ≠ 0 then none
      else some .eacces
    else if per &&& ip.perm = per then none
    else if u.egid = ip.gid ∧ (per <<< 3) &&& ip.perm = per <<< 3 then none
    else if u.euid = ip.uid ∧ (per <<< 6) &&& ip.perm = per <<< 6 then none
    else some .eacces
  if writ per then
    -- `mode & IIO` is set for both kinds of special files
    if ¬(ip.fmt = .ifchr ∨ ip.fmt = .ifblk) ∧ ip.ironly then some .erofs
    else if ip.iwrlock then some .ebusy
    else allowed
  else allowed

namespace State

/-! ## `open.c` -/

def setError (s : State) (p : ℕ) (e : Option Error) : State :=
  { s with error := Function.update s.error p e }

def fail (s : State) (p : ℕ) (e : Error) : State := s.setError p (some e)

/-- `u.error = 0` -/
def enter (s : State) (p : ℕ) : State := s.setError p none

def setPhase (s : State) (p : ℕ) (ph : Phase) : State :=
  { s with phase := Function.update s.phase p ph }

def setFile (s : State) (f : ℕ) (x : File) : State := { s with file := Function.update s.file f x }

def modInode (s : State) (ip : ℕ) (f : Inode → Inode) : State :=
  { s with inode := Function.update s.inode ip (f (s.inode ip)) }

/-- `u.olist[fd] = o` -/
def setSlot (s : State) (p fd : ℕ) (o : Option ℕ) : State :=
  { s with olist := Function.update s.olist p (Function.update (s.olist p) fd o) }

/-- `ip->flags |= IBUSY` and `ip->flags &= ~IBUSY` -/
def hold (s : State) (ip : ℕ) (b : Bool) : State := s.modInode ip fun i => { i with ibusy := b }

/-- `ip->flags |= IWRLOCK` and `ip->flags &= ~IWRLOCK` -/
def mark (s : State) (ip : ℕ) (b : Bool) : State := s.modInode ip fun i => { i with iwrlock := b }

/-- The search of `falloc`, which then clears the entry. -/
def falloc (s : State) : Option ℕ := (List.range nfile).find? fun f => (s.file f).count = 0

/-- `oalloc()` -/
def oalloc (s : State) (p : ℕ) : Option ℕ :=
  (List.range nopen).find? fun fd => s.olist p fd = none

/-- `ofile(fd)` -/
def ofile (s : State) (p fd : ℕ) : Option ℕ := if fd < nopen then s.olist p fd else none

/-- An entry goes to a descriptor: `count` is 1. -/
def grant (s : State) (p fd f mode : ℕ) (ip : Option ℕ) : State :=
  { (s.setFile f ⟨mode, 1, ip⟩).setSlot p fd (some f) with
    made := Function.update s.made p (Function.update (s.made p) fd s.next)
    next := s.next + 1 }

/-- `imode(m)` -/
def imode (m : ℕ) : ℕ :=
  match m with
  | 0 => iRead
  | 1 => iWrite
  | _ => iRead ||| iWrite

/-- The end of `iopen(ip, mode)`, after the `switch`. -/
def iopenEnd (s : State) (p ip mode : ℕ) : State :=
  if (s.error p).isSome then s.mark ip false
  else
    match s.falloc with
    | none => (s.fail p .enfile).mark ip false
    | some f =>
        let s := s.setFile f .zero
        match s.oalloc p with
        | none => (s.fail p .emfile).mark ip false
        | some fd => s.grant p fd f mode (some ip)

/-- `iopen(ip, mode)`, up to the open of a device: a character device is opened with the inode
released. -/
def iopen (s : State) (p ip mode : ℕ) : State :=
  let s := if writ mode && (s.inode ip).isvtx then s.mark ip true else s
  match (s.inode ip).fmt with
  | .ifdir => (if writ mode then s.fail p .eisdir else s).iopenEnd p ip mode
  | .ifchr => s.setPhase p (.opening ip mode)
  | .ifblk => (s.hold ip true).setPhase p (.opening ip mode)
  | .ifreg => s.iopenEnd p ip mode

/-- `open(name, mode)` of the inode `ip`. -/
def «open» (s : State) (p : ℕ) (u : User) (ip m : ℕ) : State :=
  match access u (s.inode ip) (imode m) with
  | some e => s.fail p e
  | none => s.iopen p ip (imode m)

/-- The beginning of `creat(name, mode)` of the inode `ip`, up to `itrunc`. -/
def creat (s : State) (p : ℕ) (u : User) (ip : ℕ) : State :=
  if (s.inode ip).fmt = .ifdir then s.fail p .eisdir
  else
    match access u (s.inode ip) iWrite with
    | some e => s.fail p e
    | none => (s.hold ip true).setPhase p (.truncating ip)

/-- The end of `creat` for a file that `imkfile` makes as inode `ip`, with the error of `ilink`. -/
def create (s : State) (p ip : ℕ) (isvtx : Bool) (perm uid gid : ℕ) (e : Option Error) : State :=
  let s := s.setError p e
  let s := s.modInode ip fun i =>
    { i with fmt := .ifreg, ialloc := true, isvtx, perm, uid, gid }
  s.iopen p ip iWrite

/-- `rf->count = 0; u.olist[rd] = 0` -/
def unpipe (s : State) (p rf rd : ℕ) : State :=
  (s.setFile rf { s.file rf with count := 0 }).setSlot p rd none

/-- `pipe(vec)`, up to `ialloc`. -/
def pipe (s : State) (p : ℕ) : State :=
  match s.falloc with
  | none => s.fail p .enfile
  | some rf =>
      let s := s.setFile rf .zero
      match s.oalloc p with
      | none => s.fail p .emfile
      | some rd =>
          let s := s.grant p rd rf (iRead ||| pipeBit) none
          match s.falloc with
          | none => (s.fail p .enfile).unpipe p rf rd
          | some wf =>
              let s := s.setFile wf .zero
              match s.oalloc p with
              | none => (s.fail p .emfile).unpipe p rf rd
              | some wd => s.setPhase p (.piping rf rd wf wd)

/-- The end of `pipe`, with the inode `ip` from `ialloc`. -/
def piped (s : State) (p rf _rd wf wd ip : ℕ) : State :=
  let s := s.modInode ip fun i =>
    { i with fmt := .ifreg, ialloc := true, isvtx := false, perm := 0, uid := 0, gid := 0 }
  let s := s.grant p wd wf (iWrite ||| pipeBit) (some ip)
  (s.setFile rf { s.file rf with inode := some ip }).setPhase p .idle

/-- `fclose(fp)`; `iclose` is left out. -/
def fclose (s : State) (f : ℕ) : State :=
  let s := s.setFile f { s.file f with count := (s.file f).count - 1 }
  if (s.file f).count ≠ 0 then s
  else
    match (s.file f).inode with
    | some ip => if writ (s.file f).mode then s.mark ip false else s
    | none => s

/-- `close(fd)` -/
def close (s : State) (p fd : ℕ) : State :=
  match s.ofile p fd with
  | none => s.fail p .ebadf
  | some f => (s.setSlot p fd none).fclose f

/-! ## `sys1.c` and `fork.c` -/

/-- `dup(fd)` -/
def dup (s : State) (p fd : ℕ) : State :=
  match s.ofile p fd with
  | none => s.fail p .ebadf
  | some f =>
      match s.oalloc p with
      | none => s.fail p .emfile
      | some d =>
          let s := s.setSlot p d (some f)
          { s.setFile f { s.file f with count := (s.file f).count + 1 } with
            made := Function.update s.made p (Function.update (s.made p) d (s.made p fd)) }

/-- `(*o)->count++` for all slots, in `fork`. -/
def bump (s : State) (p : ℕ) : State :=
  { s with
    file := fun f =>
      { s.file f with
        count := (s.file f).count + UInt8.ofNat (Slots.row nopen (s.olist p) f) } }

/-- The child has the slots of its parent. -/
def inherit (s : State) (p c : ℕ) : State :=
  { s with
    olist := Function.update s.olist c (s.olist p)
    made := Function.update s.made c (s.made p) }

end State

/-- What comes of the copy in `fork`: memory, nothing, or swap space to be written. -/
inductive Copy
  | room
  | full
  | swap
  deriving DecidableEq

/-- What process `p` does, or what happens to it. -/
inductive Label
  /-- `open` of an inode -/
  | open (p : ℕ) (u : User) (ip m : ℕ)
  /-- `creat` of a file that exists -/
  | creat (p : ℕ) (u : User) (ip : ℕ)
  /-- it goes on after `itrunc` -/
  | truncated (p : ℕ) (e : Option Error)
  /-- `creat` of a new file -/
  | create (p ip : ℕ) (isvtx : Bool) (perm uid gid : ℕ) (e : Option Error)
  /-- the device is open, or there is an error -/
  | opened (p : ℕ) (e : Option Error)
  /-- a signal ends the call in which a terminal is opened -/
  | abort (p : ℕ)
  | chmod (ip : ℕ) (isvtx : Bool) (perm : ℕ)
  | pipe (p : ℕ)
  /-- `pipe` has an inode, or there is none -/
  | piped (p : ℕ) (ip : Option ℕ)
  | dup (p fd : ℕ)
  | fork (p child : ℕ) (k : Copy)
  /-- the copy to the swap device is written, or not -/
  | forked (p : ℕ) (ok : Bool)
  | close (p fd : ℕ)
  /-- `exit` begins -/
  | exit (p : ℕ)
  /-- and comes to the next slot -/
  | next (p : ℕ)
  /-- `idec` frees an inode -/
  | free (ip : ℕ)

namespace State

/-- The process can make a call. -/
def Idle (s : State) (p : ℕ) : Prop := p < nproc ∧ s.phase p = .idle

instance (s : State) (p : ℕ) : Decidable (s.Idle p) := inferInstanceAs (Decidable (_ ∧ _))

/-- The inode can be locked. -/
def Ready (s : State) (ip : ℕ) : Prop := (s.inode ip).ialloc = true ∧ (s.inode ip).ibusy = false

instance (s : State) (ip : ℕ) : Decidable (s.Ready ip) := inferInstanceAs (Decidable (_ ∧ _))

/-- The inode is free. -/
def Fresh (s : State) (ip : ℕ) : Prop := (s.inode ip).ialloc = false ∧ (s.inode ip).ibusy = false

instance (s : State) (ip : ℕ) : Decidable (s.Fresh ip) := inferInstanceAs (Decidable (_ ∧ _))

/-- Nothing refers to the inode. -/
def Unused (s : State) (ip : ℕ) : Prop :=
  (∀ f < nfile, (s.file f).count ≠ 0 → (s.file f).inode ≠ some ip) ∧
    ∀ p < nproc, (s.phase p).node ≠ some ip

instance (s : State) (ip : ℕ) : Decidable (s.Unused ip) :=
  inferInstanceAs (Decidable ((∀ f < nfile, _ → _) ∧ ∀ p < nproc, _))

/-- `fork` in process `p`, with a free slot of the process table. -/
def fork (s : State) (p child : ℕ) (k : Copy) : State :=
  let s := s.bump p
  match k with
  | .room => (s.inherit p child).setPhase child .idle
  | .full => s.fail p .eagain
  | .swap => ((s.inherit p child).setPhase child .unborn).setPhase p (.forking child)

/-- The end of a `fork` through swap space. -/
def forked (s : State) (p child : ℕ) (ok : Bool) : State :=
  if ok then (s.setPhase child .idle).setPhase p .idle
  else
    { ((s.setPhase child .dead).setPhase p .idle).fail p .eagain with
      olist := Function.update s.olist child fun _ => none }

/-- The loop of `exit` over the slots. -/
def exitLoop (s : State) (p fd : ℕ) : State :=
  if fd < nopen then ((s.close p fd).enter p).setPhase p (.closing (fd + 1)) else s.setPhase p .dead

/-- The step function. -/
def step (s : State) : Label → Option State
  | .open p u ip m =>
      if s.Idle p ∧ s.Ready ip then some ((s.enter p).open p u ip m) else none
  | .creat p u ip => if s.Idle p ∧ s.Ready ip then some ((s.enter p).creat p u ip) else none
  | .truncated p e =>
      match s.phase p with
      | .truncating ip => some ((((s.hold ip false).setPhase p .idle).setError p e).iopen p ip iWrite)
      | _ => none
  | .create p ip isvtx perm uid gid e =>
      if s.Idle p ∧ s.Fresh ip then some (s.create p ip isvtx perm uid gid e) else none
  | .opened p e =>
      match s.phase p with
      | .opening ip mode =>
          -- `ilock` after `copen`
          if (s.inode ip).fmt = .ifchr ∧ (s.inode ip).ibusy = true then none
          else
            some ((((s.hold ip false).setPhase p .idle).setError p e).iopenEnd p ip mode)
      | _ => none
  | .abort p =>
      match s.phase p with
      | .opening ip _ => if (s.inode ip).fmt = .ifchr then some (s.setPhase p .idle) else none
      | _ => none
  | .chmod ip isvtx perm =>
      if s.Ready ip then some (s.modInode ip fun i => { i with isvtx, perm }) else none
  | .pipe p => if s.Idle p then some ((s.enter p).pipe p) else none
  | .piped p o =>
      match s.phase p with
      | .piping rf rd wf wd =>
          match o with
          | none => some ((s.unpipe p rf rd).setPhase p .idle)
          | some ip => if s.Fresh ip then some (s.piped p rf rd wf wd ip) else none
      | _ => none
  | .dup p fd => if s.Idle p then some ((s.enter p).dup p fd) else none
  | .fork p child k =>
      if s.Idle p ∧ child < nproc ∧ s.phase child = .dead then some ((s.enter p).fork p child k)
      else none
  | .forked p ok =>
      match s.phase p with
      | .forking child => some (s.forked p child ok)
      | _ => none
  | .close p fd => if s.Idle p then some ((s.enter p).close p fd) else none
  | .exit p => if s.Idle p then some (s.setPhase p (.closing 0)) else none
  | .next p =>
      match s.phase p with
      | .closing fd => some (s.exitLoop p fd)
      | _ => none
  | .free ip =>
      if s.Unused ip ∧ s.Ready ip then
        some (s.modInode ip fun i =>
          { i with fmt := .ifreg, ialloc := false, isvtx := false, perm := 0, uid := 0, gid := 0 })
      else none

/-- No file is open, and no call is in progress. -/
def Start (s : State) : Prop :=
  (∀ f, (s.file f).count = 0) ∧ (∀ p fd, s.olist p fd = none) ∧
    (∀ ip, (s.inode ip).iwrlock = false ∧ (s.inode ip).ibusy = false) ∧
    ∀ p, s.phase p = .dead ∨ s.Idle p

end State

end Files

end Micronix
