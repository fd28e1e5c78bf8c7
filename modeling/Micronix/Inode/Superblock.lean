import Micronix.Inode.Calls
import Micronix.Inode.Mutex

/-!
# Superblock buffers and inode locks, `sys/ialloc.c` and `sys/balloc.c`

`getsb` locks the buffer of a superblock and `bdwrite` releases it.  `ialloc`, `ifree`, `balloc` and
`bfree` keep it locked while they sleep, and some of them are called with inodes locked.  `creat`,
`link`, `open`, `write` and `unlink` are programs here as in the model of the system calls that lock
inodes, with these routines written out.

`bget` keeps 8 bits of the number of a block and of a device, so that a block whose number is 1
modulo 256 has the buffer of the superblock.  The other buffers are sleeps.
-/

namespace Micronix

/-- The superblock of a device in its buffer: the process that has set `BBUSY`, `s_flock`, `s_isize`
and `s_inode`, its last entry first. -/
structure Sblock where
  owner : Option ℕ
  flock : Bool
  isize : ℕ
  inode : List ℕ

/-- What the processes share: the inode list, the inodes on the disk, the superblocks and
`lastiblock`. -/
structure Shared where
  il : Ilist
  disk : ℕ × ℕ → Bytes
  sup : ℕ → Sblock
  lastiblock : ℕ

namespace Shared

/-- `i_dev`, `i_inum` and `i_mode & IALLOC` of a slot, and whether `idec` frees its inode. -/
def dev (i : ℕ) (s : Shared) : ℕ := (s.il.slot i).dev
def inum (i : ℕ) (s : Shared) : ℕ := (s.il.slot i).inum
def ialloc (i : ℕ) (s : Shared) : ℕ := ((s.il.slot i).node 1).toNat / 128
def unused (i : ℕ) (s : Shared) : ℕ :=
  if (s.il.slot i).count = 0 ∧ (s.il.slot i).nlink = 0 then 1 else 0

/-- `s_ninode`, the last entry of `s_inode` and `s_isize`. -/
def ninode (d : ℕ) (s : Shared) : ℕ := (s.sup (d % 256)).inode.length
def top (d : ℕ) (s : Shared) : ℕ := (s.sup (d % 256)).inode.headD 0
def isize (d : ℕ) (s : Shared) : ℕ := (s.sup (d % 256)).isize

/-- `--sup->s_ninode` -/
def pop (d : ℕ) (s : Shared) : List ℕ := (s.sup (d % 256)).inode.tail

/-- `sup->s_inode[sup->s_ninode++] = inum` -/
def push (d inum : ℕ) (s : Shared) : List ℕ := inum :: (s.sup (d % 256)).inode

/-- `ifill` on the block `iblk` of the I-list: the inodes that are free on the disk. -/
def scan (iblk d : ℕ) (s : Shared) : List ℕ :=
  (List.range 16).foldl
    (fun l n =>
      let inum := 16 * iblk - 31 + n
      if (s.disk (inum, d) 1).toNat < 128 ∧ l.length < 100 then inum :: l else l)
    (s.sup (d % 256)).inode

end Shared

/-- A routine of the kernel: calls of the inode list, changes of a slot, tests, choices and sleeps
as before; `bread` of a block whose buffer is released again, `getsb` and `bdwrite` of a superblock,
the test of `s_flock`, and changes of `s_inode` and `lastiblock`. -/
inductive Job
  | done
  | op (c : Ilist.Call) (k : Option ℕ → Job)
  | act (i : ℕ) (f : Incore → Incore) (k : Job)
  | look (f : Shared → ℕ) (k : ℕ → Job)
  | choose (k : ℕ → Job)
  | sleep (k : Job)
  | bread (b d : ℕ) (k : Job)
  | getsb (d : ℕ) (k : Job)
  | flock (d : ℕ) (ro k : Job)
  | edit (d : ℕ) (f : Shared → List ℕ) (k : Job)
  | mark (f : ℕ → ℕ) (k : Job)
  | bdwrite (d : ℕ) (k : Job)

namespace Job

def isDone : Job → Bool
  | done => true
  | _ => false

def ilock (i : ℕ) (k : Job) : Job := op (.ilock i) fun _ => k
def irelse (i : ℕ) (k : Job) : Job := op (.irelse i) fun _ => k
def iget (num dev : ℕ) (k : Option ℕ → Job) : Job := op (.iget num dev) k

/-- `ip->count++`, `ip->count--` -/
def ref (i : ℕ) (k : Job) : Job := act i (fun x => { x with count := (x.count + 1) % 256 }) k
def unref (i : ℕ) (k : Job) : Job := act i (fun x => { x with count := (x.count + 255) % 256 }) k

/-! ## `balloc.c` -/

/-- `balloc(dev)`.  On a device that is mounted read-only it returns with the superblock locked. -/
def balloc (d : ℕ) (k : Job) : Job :=
  getsb d <| flock d k <| choose fun free =>
    if free = 0 then bdwrite d k else choose fun bn => bread bn d <| bdwrite d k

/-- `bfree(bn, dev)` -/
def bfree (d : ℕ) (k : Job) : Job :=
  choose fun bn =>
    if bn = 0 then k
    else getsb d <| choose fun full => if full = 0 then bdwrite d k else bread bn d <| bdwrite d k

/-! ## `imap.c` -/

/-- `plug(p, dev)`; its `bfree` has no device. -/
def plug (d : ℕ) (k : Job) : Job :=
  balloc d <| choose fun hole => if hole ≠ 0 then k else choose fun d => bfree d k

/-- `imapi(ip, n, rap)` -/
def imapi (d : ℕ) (k : Job) : Job := choose fun hole => if hole = 0 then k else plug d k

/-- `imapb(ind, n, dev, rap)` -/
def imapb (d : ℕ) (k : Job) : Job :=
  choose fun ind =>
    if ind = 0 then k
    else bread ind d <| choose fun hole => if hole = 0 then k else plug d k

/-- `imap(ip, log, rap)`: nothing to map, small addressing, the conversion to large addressing, or
large addressing. -/
def imap (d : ℕ) (k : Job) : Job :=
  let large := imapi d <| choose fun huge => if huge = 0 then imapb d k else imapb d (imapb d k)
  choose fun way =>
    match way with
    | 0 => k
    | 1 => imapi d k
    | 2 => balloc d <| choose fun bn => if bn = 0 then k else bread bn d large
    | _ => large

/-- The loops of `iread`, `iwrite` and `dlook` over at most `n` blocks of a file on `d`, or of the
block device `bd`. -/
def blocks (d bd : ℕ) (k : Job) : ℕ → Job
  | 0 => k
  | n + 1 => choose fun stop =>
      if stop = 0 then k
      else imap d <| choose fun phys =>
        if phys = 0 then blocks d bd k n else bread phys bd (blocks d bd k n)

/-- The end of `iwrite`. -/
def dirty (ip : ℕ) (k : Job) : Job :=
  act ip (fun x => if x.ronly then x else { x with mod := true }) k

/-! ## `name.c` -/

/-- The loop of `iname` on the locked inode `ip`, with `n` names to go; `u.iparent` is `parent` and
`m` bounds the blocks of a directory. -/
def walk (m : ℕ) (k : Option ℕ → Option ℕ → Job) : ℕ → ℕ → Option ℕ → Job
  | 0, ip, parent => k (some ip) parent
  | n + 1, ip, parent =>
      choose fun isdir =>
        if isdir = 0 then irelse ip (k none parent)
        else choose fun ok =>
          if ok = 0 then irelse ip (k none (some ip))
          else look (Shared.dev ip) fun d => blocks d d
            (choose fun inum =>
              if inum = 0 then irelse ip (k none (some ip))
              else ref ip <| irelse ip <| look (Shared.dev ip) fun d =>
                iget inum d fun o => unref ip <|
                  match o with
                  | none => k none (some ip)
                  | some i => walk m k n i (some ip)) m

/-- `iname(name)`: `ip` is the current directory or the root. -/
def iname (n ip m : ℕ) (k : Option ℕ → Option ℕ → Job) : Job := ilock ip (walk m k n ip none)

/-! ## `open.c` -/

/-- `iopen(ip, mode)` -/
def iopen (ip : ℕ) (k : Job) : Job :=
  let rest := choose fun fd => if fd = 0 then k else ref ip k
  choose fun fmt =>
    match fmt with
    | 0 => ref ip <| irelse ip <| sleep <| ilock ip <| unref ip rest
    | 1 => sleep rest
    | _ => rest

/-- `open(name, mode)` -/
def «open» (n ip m : ℕ) : Job :=
  iname n ip m fun o _ =>
    match o with
    | none => done
    | some ip => choose fun ok =>
        if ok = 0 then irelse ip done else iopen ip (irelse ip done)

/-! ## `ialloc.c` -/

/-- `itrunc(ip)` of at most `n` blocks; `indfree` reads the indirect ones. -/
def itrunc (ip d : ℕ) (k : Job) : ℕ → Job
  | 0 => act ip
      (fun x => { x with
        node := fun k => if 8 ≤ k ∧ k < 24 then 0 else if k = 1 then x.node 1 &&& 239 else x.node k
        size := 0
        mod := true }) k
  | n + 1 => choose fun what =>
      match what with
      | 0 => k
      | 1 => choose fun bn => bread bn d (itrunc ip d k n)
      | _ => bfree d (itrunc ip d k n)

/-- `ifree(ip)` -/
def ifree (ip : ℕ) (k : Job) : Job :=
  look (Shared.dev ip) fun d => look (Shared.inum ip) fun inum =>
    let clear := act ip (fun x => { x with node := Bytes.zero, mod := true }) <| bdwrite d k
    getsb d <| look (Shared.ninode d) fun n =>
      if n < 100 then edit d (Shared.push d inum) clear
      else mark (fun last => min last ((inum + 31) / 16)) clear

/-- `idec(ip)` -/
def idec (ip m : ℕ) (k : Job) : Job :=
  look (Shared.unused ip) fun unused =>
    if unused = 0 then irelse ip k
    else look (Shared.dev ip) fun d => itrunc ip d (ifree ip (irelse ip k)) m

/-- The loop of `ifill` from the block `iblk` on, with `limit` blocks to go. -/
def search (d itop : ℕ) (k : Job) : ℕ → ℕ → Job
  | 0, iblk => mark (fun _ => iblk) k
  | limit + 1, iblk =>
      let iblk := if itop < iblk then 2 else iblk
      bread iblk d <| choose fun ok =>
        if ok = 0 then search d itop k limit (iblk + 1)
        else edit d (Shared.scan iblk d) <| look (Shared.ninode d) fun n =>
          if 100 ≤ n then mark (fun _ => iblk) k else search d itop k limit (iblk + 1)

/-- `ifill(sup, dev)`, which returns the length of `s_inode`. -/
def ifill (d : ℕ) (k : ℕ → Job) : Job :=
  op .isync fun _ => look Shared.lastiblock fun iblk => look (Shared.isize d) fun limit =>
    search d (limit + 1) (look (Shared.ninode d) k) limit iblk

/-- The loop of `ialloc(dev)`, at most `n` times. -/
def candidates (d : ℕ) (k : Option ℕ → Job) : ℕ → Job
  | 0 => bdwrite d (k none)
  | n + 1 =>
      let take := look (Shared.top d) fun num => edit d (Shared.pop d) <| iget num d fun o =>
        match o with
        | none => candidates d k n
        | some ip => look (Shared.ialloc ip) fun used =>
            if used ≠ 0 then irelse ip (candidates d k n)
            else act ip
              (fun x => { x with node := fun k => if k = 1 then 128 else 0, mod := true, count := 0,
                                 mount := none, size := 0 }) <| bdwrite d <| k (some ip)
      look (Shared.ninode d) fun c =>
        if c = 0 then ifill d fun c => if c = 0 then bdwrite d (k none) else take else take

/-- `ialloc(dev)` -/
def ialloc (d n : ℕ) (k : Option ℕ → Job) : Job := getsb d (candidates d k n)

/-! ## `link.c`, `create.c` and `rdwri.c` -/

/-- `ilink(inum)` into `u.iparent`. -/
def ilink (parent m : ℕ) (k : Job) : Job :=
  ilock parent <| look (Shared.dev parent) fun d =>
    blocks d d (dirty parent (irelse parent k)) m

/-- `unlink(name)` -/
def unlink (n ip m : ℕ) : Job :=
  iname n ip m fun o parent =>
    match o with
    | none => done
    | some ip => irelse ip <|
        match parent with
        | none => done
        | some parent => choose fun ok =>
            if ok = 0 then done
            else
              act ip (fun x => if x.nlink = 0 then x else
                { x with node := fun k => if k = 2 then x.node 2 - 1 else x.node k, mod := true }) <|
                ref parent <| idec ip m <| unref parent <| ilink parent m done

/-- `link(old, new)` -/
def link (n ip n' ip' m : ℕ) : Job :=
  iname n ip m fun o _ =>
    match o with
    | none => done
    | some old => irelse old <| choose fun ok =>
        if ok = 0 then done
        else look (Shared.inum old) fun inum => look (Shared.dev old) fun d =>
          iname n' ip' m fun o parent =>
            match o, parent with
            | some new, _ => irelse new done
            | none, none => done
            | none, some parent => choose fun ok =>
                if ok = 0 then done
                else iget inum d fun o =>
                  match o with
                  | none => done
                  | some ip =>
                      act ip (fun x =>
                        { x with node := fun k => if k = 2 then x.node 2 + 1 else x.node k
                                 mod := true }) <|
                        irelse ip <| ilink parent m done

/-- `imkfile(mode, dev)` in the directory `parent`. -/
def imkfile (parent m : ℕ) (k : Option ℕ → Job) : Job :=
  choose fun ok =>
    if ok = 0 then k none
    else ilock parent <| look (Shared.dev parent) fun d => ialloc d m fun o => irelse parent <|
      match o with
      | none => k none
      | some ip => ilink parent m <|
          act ip (fun x => { x with node := fun k => if k = 2 then 1 else x.node k }) <| k (some ip)

/-- `creat(name, mode)` -/
def creat (n ip m : ℕ) : Job :=
  iname n ip m fun o parent =>
    match o, parent with
    | none, none => done
    | none, some parent => imkfile parent m fun o =>
        match o with
        | none => done
        | some ip => iopen ip (irelse ip done)
    | some ip, _ => choose fun ok =>
        if ok = 0 then irelse ip done
        else look (Shared.dev ip) fun d => itrunc ip d (iopen ip (irelse ip done)) m

/-- `pwrite(ip)`, at most `n` turns. -/
def pwrite (ip m : ℕ) : ℕ → Job
  | 0 => done
  | n + 1 => ilock ip <| choose fun reader =>
      if reader = 0 then irelse ip done
      else
        let rest := choose fun full =>
          if full = 0 then irelse ip done
          else irelse ip <| act ip (fun x => { x with want := true }) <| sleep <| pwrite ip m n
        choose fun room =>
          if room = 0 then rest
          else look (Shared.dev ip) fun d => blocks d d (dirty ip rest) m

/-- `write(fd, buf, count)`: a pipe, a character device, a file or a block device. -/
def write (ip m : ℕ) : Job :=
  choose fun kind =>
    match kind with
    | 0 => pwrite ip m m
    | 1 => sleep (dirty ip done)
    | _ => look (Shared.dev ip) fun d => choose fun bd => blocks d bd (dirty ip done) m

end Job

/-- A system call: the slots it comes with, how many names its paths have, and a bound `m` on its
other loops. -/
inductive Errand
  | creat (n ip m : ℕ)
  | link (n ip n' ip' m : ℕ)
  | «open» (n ip m : ℕ)
  | write (ip m : ℕ)
  | unlink (n ip m : ℕ)

/-- Its routine. -/
def Errand.job : Errand → Job
  | creat n ip m => Job.creat n ip m
  | link n ip n' ip' m => Job.link n ip n' ip' m
  | «open» n ip m => Job.open n ip m
  | write ip m => Job.write ip m
  | unlink n ip m => Job.unlink n ip m

/-- What a process does next: a routine, or what follows the call in which it sleeps. -/
inductive Plan
  | ready (J : Job)
  | pending (c : Ilist.Call) (k : Option ℕ → Job)

/-- The processes.  For the statements: `held p` are the slots that process `p` has locked and not
released, `loose p` those that it has released since it last slept, and `sb p` the superblock whose
buffer it has, by its own account. -/
structure Host extends Shared where
  plan : ℕ → Plan
  turn : Option ℕ
  held : ℕ → List ℕ
  loose : ℕ → List ℕ
  sb : ℕ → Option ℕ

namespace Host

/-- Process `p` goes to sleep, or has nothing more to do: others may run. -/
def yield (s : Host) (p : ℕ) (c : Plan) : Host :=
  { s with
    plan := Function.update s.plan p c
    turn := none
    loose := Function.update s.loose p [] }

/-- Process `p` goes on with `J`. -/
def go (s : Host) (p : ℕ) (J : Job) : Host :=
  if J.isDone then s.yield p (.ready J)
  else { s with plan := Function.update s.plan p (.ready J), turn := some p }

/-- After a step of the inode list in call `c`: it has returned, or the process sleeps in it. -/
def after (s : Host) (p : ℕ) (c : Ilist.Call) (k : Option ℕ → Job) (il : Ilist) : Host :=
  if (il.stage p).isIdle then
    { s with
      il := il
      held := Function.update s.held p (Kernel.heldAfter c il.result (s.held p))
      loose := Function.update s.loose p (Kernel.looseAfter c (s.loose p)) }.go p (k il.result)
  else { s with il := il }.yield p (.pending c k)

/-- `BBUSY` is set in the buffer of a superblock. -/
def take (s : Host) (p d : ℕ) : Host :=
  { s with
    sup := Function.update s.sup d { s.sup d with owner := some p }
    loose := Function.update s.loose p []
    sb := Function.update s.sb p (some d) }

/-- `bdwrite(sb)` -/
def give (s : Host) (p d : ℕ) : Host :=
  { s with
    sup := Function.update s.sup d { s.sup d with owner := none }
    sb := Function.update s.sb p none }

/-- A change of `s_inode`. -/
def list (s : Host) (d : ℕ) (l : List ℕ) : Host :=
  { s with sup := Function.update s.sup d { s.sup d with inode := l } }

/-- The block of the I-list in which an inode lies has the buffer of the superblock. -/
def sbBlock (num : ℕ) : Bool := decide (0 < num) && (num + 31) % 65536 / 16 % 256 == 1

/-- The superblock in whose buffer `iio` of process `p` has its block. -/
def iobuf (s : Host) (p : ℕ) : Option ℕ :=
  (s.il.stage p).locks.bind fun i =>
    if sbBlock (s.il.slot i).inum then some ((s.il.slot i).dev % 256) else none

/-- What the block i/o of process `p` brings. -/
def brings (s : Host) (p : ℕ) (ok : Bool) : Option Bytes :=
  if ok then
    match s.il.stage p with
    | .getRead i _ => some (s.disk (s.il.tag i))
    | _ => some Bytes.zero
  else none

/-- The inodes on the disk after it. -/
def stores (s : Host) (p : ℕ) (ok : Bool) : ℕ × ℕ → Bytes :=
  match s.il.stage p with
  | .getWrite i _ | .syncWrite i =>
      if ok then
        Function.update s.disk (s.il.tag i) (Ilist.x4to3 (s.il.slot i).size (s.il.slot i).node)
      else s.disk
  | _ => s.disk

/-- What can happen next: a process makes a system call, goes on with it (`n` is what it finds where
it chooses), or goes on in a call in which it slept. -/
inductive Label
  | start (p : ℕ) (c : Errand)
  | exec (p n : ℕ)
  | resume (p : ℕ) (ok : Bool)

/-- The next thing that process `p` does. -/
def exec (s : Host) (p n : ℕ) : Job → Option Host
  | .done => none
  | .op c k => (s.il.step (.call p c)).map fun il => s.after p c k il
  | .act i f k => some ({ s with il := s.il.modSlot i f }.go p k)
  | .look f k => some (s.go p (k (f s.toShared)))
  | .choose k => some (s.go p (k n))
  | .sleep k => some (s.yield p (.ready k))
  | .bread b d k =>
      some (if b % 256 = 1 then s.go p (.getsb d (.sleep (.bdwrite d k))) else s.yield p (.ready k))
  | .getsb d k =>
      some (if (s.sup (d % 256)).owner = none then (s.take p (d % 256)).go p k
        else s.yield p (.ready (.getsb d k)))
  | .flock d ro k => some (s.go p (if (s.sup (d % 256)).flock then ro else k))
  | .edit d f k => some ((s.list (d % 256) (f s.toShared)).go p k)
  | .mark f k => some ({ s with lastiblock := f s.lastiblock }.go p k)
  | .bdwrite d k => some ((s.give p (d % 256)).go p k)

/-- The step function. -/
def step (s : Host) : Label → Option Host
  | .start p c =>
      match s.plan p with
      | .ready .done => if s.turn = none then some (s.yield p (.ready c.job)) else none
      | _ => none
  | .exec p n =>
      match s.plan p with
      | .ready J => if s.turn = none ∨ s.turn = some p then s.exec p n J else none
      | .pending _ _ => none
  | .resume p ok =>
      match s.plan p with
      | .ready _ => none
      | .pending c k =>
          if s.turn = none ∧ (s.iobuf p).all fun d => (s.sup d).owner.isNone then
            (s.il.step (.run p (s.brings p ok))).map fun il =>
              { s with disk := s.stores p ok }.after p c k il
          else none

/-- The process that has locked what process `p` waits for: the buffer of a superblock, or a slot
of the inode list. -/
def awaits (s : Host) (p : ℕ) : Option ℕ :=
  match s.plan p with
  | .ready (.getsb d _) => (s.sup (d % 256)).owner
  | .ready _ => none
  | .pending _ _ =>
      match s.il.stage p with
      | .getWait i _ | .lockWait i _ => s.il.own i
      | _ => (s.iobuf p).bind fun d => (s.sup d).owner

/-- Process `p` waits for process `q`. -/
def Waits (s : Host) (p q : ℕ) : Prop := s.awaits p = some q

/-- Every process is outside the kernel. -/
structure Boot (s : Host) : Prop where
  il : s.il.Quiet
  owner : ∀ d, (s.sup d).owner = none
  plan : ∀ p, s.plan p = .ready .done
  turn : s.turn = none
  held : ∀ p, s.held p = []
  loose : ∀ p, s.loose p = []
  sb : ∀ p, s.sb p = none

end Host

end Micronix
