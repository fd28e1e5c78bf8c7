import Micronix.Proc.World

/-!
# The system calls and their sleeps

The calls as programs over the tables.  A sleep carries the event and the priority it has in the
source; a signal can end the call there when the priority is below `sigPri`.  Between two sleeps a
process is not interrupted: `turn` is the process that runs.

What the calls find on disk, on terminals and in user space is chosen: the outcome of `dlook`, of
permission checks and of block i/o, file modes, whether carrier is there.
-/

namespace Micronix

/-- A routine of the kernel.  `relock` and `freeing` are where a process sleeps in `ilock` and in
`idec`; `sleep` sleeps once, `await` as long as its test fails. -/
inductive Task
  | done
  | act (d : Deed) (k : Task)
  | look (f : World → ℕ) (k : ℕ → Task)
  | choose (k : ℕ → Task)
  | ilock (i : ℕ) (k : Task)
  | relock (i : ℕ) (k : Task)
  | sleep (e : Event) (pri : ℕ) (k : Task)
  | await (e : Event) (pri : ℕ) (f : World → ℕ → Bool) (k : Task)
  | fopen (i : ℕ) (k : Task)
  | unslot (fd : ℕ) (k : Option ℕ → Task)
  | drop (f : ℕ) (last : ℕ → Task) (k : Task)
  | release (i : ℕ) (last k : Task)
  | getsb (k : Task)
  | take (i : ℕ) (used k : Task)
  | leave (k : ℕ → Task)
  | spawn (child : ℕ) (full k : Task)
  | idec (i : ℕ) (k : Task)
  | freeing (i : ℕ) (k : Task)

namespace Task

def irelse (i : ℕ) (k : Task) : Task := act (.irelse i) k

/-- Block i/o. -/
def io (k : Task) : Task := sleep .buf priBio k

/-! ## `iget.c` and `name.c` -/

/-- `iget(num, dev)`: there is no such inode to be had, or it is inode `i`, which is read. -/
def iget (k : Option ℕ → Task) : Task :=
  choose fun r =>
    match r with
    | 0 => k none
    | i + 1 => ilock i <| io <| k (some i)

/-- The loop of `iname` on the locked inode `ip`, with `n` names to go; `u.iparent` is `parent`. -/
def walk (k : Option ℕ → Option ℕ → Task) : ℕ → ℕ → Option ℕ → Task
  | 0, ip, parent => k (some ip) parent
  | n + 1, ip, parent =>
      choose fun isdir =>
        if isdir = 0 then irelse ip (k none parent)
        else choose fun ok =>
          if ok = 0 then irelse ip (k none (some ip))
          else
            -- `dlook`
            io <| choose fun inum =>
              if inum = 0 then irelse ip (k none (some ip))
              else act (.ref ip) <| irelse ip <| iget fun o => act (.unref ip) <|
                match o with
                | none => k none (some ip)
                | some i => walk k n i (some ip)

/-- `iname(name)`: `ip` is the current directory or the root. -/
def iname (n ip : ℕ) (k : Option ℕ → Option ℕ → Task) : Task := ilock ip (walk k n ip none)

/-! ## `multio.c`, `tty.c` and `cio.c` -/

/-- `muopen(dev, mode)`: no such board, a dialer, or a terminal that waits for carrier. -/
def muopen (k : Task) : Task :=
  choose fun kind =>
    match kind with
    | 0 => k
    | 1 => k
    | _ => await .mstate priTti (fun _ cd => cd ≠ 0) k

/-- `copen(dev, mode)`: the other drivers do not sleep. -/
def copen (k : Task) : Task := choose fun major => if major = 1 then muopen k else k

/-- `ttyread(tty)`: with nothing in the cooked queue, `cookin` waits for the raw queue. -/
def ttyread (k : Task) : Task :=
  choose fun cooked => if cooked ≠ 0 then k else await .rawque priUser (fun _ c => c ≠ 0) k

/-- `ttywrite(tty)`, which fills the queue at most `n` times. -/
def ttywrite (k : Task) : ℕ → Task
  | 0 => k
  | n + 1 => choose fun count =>
      if count = 0 then k else await .outque priUser (fun _ low => low ≠ 0) (ttywrite k n)

/-! ## `open.c` -/

/-- `iopen(ip, mode)` -/
def iopen (ip : ℕ) (k : Task) : Task :=
  let rest := choose fun error => if error ≠ 0 then k else fopen ip k
  choose fun fmt =>
    match fmt with
    | 0 => act (.ref ip) <| irelse ip <| copen <| ilock ip <| act (.unref ip) rest
    | 1 => io rest
    | _ => rest

/-- `open(name, mode)` -/
def «open» (n ip : ℕ) : Task :=
  iname n ip fun o _ =>
    match o with
    | none => done
    | some ip => choose fun ok =>
        if ok = 0 then irelse ip done else iopen ip (irelse ip done)

/-- `iclose(ip, writ)`; no driver sleeps in its `close`. -/
def iclose (ip : ℕ) (k : Task) : Task :=
  release ip
    (ilock ip <| choose fun fmt =>
      match fmt with
      | 0 => act (.ref ip) <| irelse ip <| ilock ip <| act (.unref ip) <| idec ip k
      | 1 => io <| idec ip k
      | _ => idec ip k)
    k

/-- `fclose(fp)` -/
def fclose (f : ℕ) (k : Task) : Task := drop f (fun ip => iclose ip k) k

/-- `close(fd)` -/
def close (fd : ℕ) (k : Task) : Task :=
  unslot fd fun o =>
    match o with
    | none => k
    | some f => fclose f k

/-! ## `fork.c` -/

/-- The loop of `exit` with `n` slots to go. -/
def closeAll (k : Task) : ℕ → Task
  | 0 => k
  | n + 1 => close (nopen - (n + 1)) (closeAll k n)

/-- `exit(stat)` -/
def exit : Task := closeAll (act .quit done) nopen

/-- `fork()` into a slot of the process table: `room` says that there is memory for the child, or
room to swap it out. -/
def fork (child : ℕ) (room : Bool) : Task :=
  spawn child done <| io <| if room then done else act (.unspawn child) done

/-- `wait(addr)`, at most `n` times. -/
def wait : ℕ → Task
  | 0 => done
  | n + 1 => choose fun zombie => if zombie ≠ 0 then done else sleep .proc priWait (wait n)

/-! ## `sys1.c` and `sys2.c` -/

/-- `chdir(name)` -/
def chdir (n ip : ℕ) : Task :=
  iname n ip fun o _ =>
    match o with
    | none => done
    | some i => choose fun ok =>
        if ok = 0 then irelse i done
        else leave fun c => idec c <| act (.enter i) <| irelse i done

/-- `snooze(secs)`, which sleeps at most `n` times. -/
def snooze : ℕ → Task
  | 0 => done
  | n + 1 => choose fun late => if late ≠ 0 then done else sleep .revel priUser (snooze n)

/-- `pause()` -/
def pause : Task := sleep .pause priUser done

/-! ## `link.c`, `ialloc.c` and `create.c` -/

/-- `ilink(inum)` into `u.iparent`. -/
def ilink (parent : ℕ) (k : Task) : Task := ilock parent <| io <| irelse parent k

/-- `unlink(name)` -/
def unlink (n ip : ℕ) : Task :=
  iname n ip fun o parent =>
    match o with
    | none => done
    | some ip => irelse ip <|
        match parent with
        | none => done
        | some parent => choose fun ok =>
            if ok = 0 then done
            else act (.unlink ip) <| act (.ref parent) <| idec ip <| act (.unref parent) <|
              ilink parent done

/-- The loop of `ialloc(dev)` with the superblock busy, at most `m` times. -/
def icand (k : Option ℕ → Task) : ℕ → Task
  | 0 => act .putsb (k none)
  | m + 1 =>
      -- `ifill`
      io <| choose fun r =>
        match r with
        | 0 => act .putsb (k none)
        | i + 1 => ilock i <| io <| take i (irelse i (icand k m)) <| act .putsb <| k (some i)

/-- `ialloc(dev)` -/
def ialloc (m : ℕ) (k : Option ℕ → Task) : Task := getsb <| icand k m

/-- `imkfile(mode, dev)` in the directory `parent`. -/
def imkfile (m parent : ℕ) (k : Option ℕ → Task) : Task :=
  choose fun ok =>
    if ok = 0 then k none
    else ilock parent <| ialloc m fun o => irelse parent <|
      match o with
      | none => k none
      | some ip => ilink parent <| act (.mklink ip) <| k (some ip)

/-- `creat(name, mode)` -/
def creat (n ip m : ℕ) : Task :=
  iname n ip fun o parent =>
    match o, parent with
    | none, none => done
    | none, some parent => imkfile m parent fun o =>
        match o with
        | none => done
        | some ip => iopen ip (irelse ip done)
    | some ip, _ => choose fun ok =>
        if ok = 0 then irelse ip done
        -- `itrunc`
        else io <| iopen ip (irelse ip done)

/-! ## `rdwri.c` -/

/-- `pwrite(ip)`, at most `n` turns. -/
def pwrite (ip : ℕ) : ℕ → Task
  | 0 => done
  | n + 1 => ilock ip <| choose fun reader =>
      if reader = 0 then irelse ip done
      else io <| choose fun full =>
        if full = 0 then irelse ip done
        else irelse ip <| sleep .pipe priPipe <| pwrite ip n

/-- `pread(ip)`, at most `n` turns. -/
def pread (ip : ℕ) : ℕ → Task
  | 0 => done
  | n + 1 => ilock ip <| choose fun empty =>
      if empty = 0 then io <| irelse ip done
      else choose fun writer =>
        if writer = 0 then irelse ip done
        else irelse ip <| sleep .pipe priPipe <| pread ip n

/-- `read(fd, buf, count)` of a pipe, a terminal or anything else whose inode is `ip`. -/
def read (ip n : ℕ) : Task :=
  choose fun kind =>
    match kind with
    | 0 => pread ip n
    | 1 => ttyread done
    | _ => io done

/-- `write(fd, buf, count)` -/
def write (ip n : ℕ) : Task :=
  choose fun kind =>
    match kind with
    | 0 => pwrite ip n
    | 1 => ttywrite done n
    | _ => io done

/-! ## `exec.c` -/

/-- `exec(name, args)` with `nblks` blocks of arguments; `arelse` releases as many as `getargs` has
counted last, which may have been in an earlier call: `old` blocks. -/
def exec (n ip nblks old : ℕ) : Task :=
  let finish (nblks : ℕ) := act (.brelse nblks) <| act .giveTurn done
  await .exec priWait (fun w _ => w.execing.isNone) <| act .takeTurn <| iname n ip fun o _ =>
    match o with
    | none => finish old
    | some ip => choose fun xchk =>
        if xchk = 0 then irelse ip (finish old)
        -- `getargs` and `rdhdr`
        else io <| act (.bget nblks) <| io <| choose fun fit =>
          if fit = 0 then irelse ip (finish nblks)
          -- `mrelse`, `putargs`, `setusr` and `readin`
          else io <| irelse ip (finish nblks)

end Task

/-- A system call with the inodes and numbers it comes with. -/
inductive Trap
  | «open» (n ip : ℕ)
  | creat (n ip m : ℕ)
  | close (fd : ℕ)
  | chdir (n ip : ℕ)
  | unlink (n ip : ℕ)
  | fork (child : ℕ) (room : Bool)
  | exit
  | read (ip n : ℕ)
  | write (ip n : ℕ)
  | wait (n : ℕ)
  | pause
  | snooze (n : ℕ)
  | exec (n ip nblks old : ℕ)

/-- Its routine. -/
def Trap.task : Trap → Task
  | «open» n ip => Task.open n ip
  | creat n ip m => Task.creat n ip m
  | close fd => Task.close fd Task.done
  | chdir n ip => Task.chdir n ip
  | unlink n ip => Task.unlink n ip
  | fork child room => Task.fork child room
  | exit => Task.exit
  | read ip n => Task.read ip n
  | write ip n => Task.write ip n
  | wait n => Task.wait n
  | pause => Task.pause
  | snooze n => Task.snooze n
  | exec n ip nblks old => Task.exec n ip nblks old

/-! ## Processes -/

/-- The processes: what each has still to do in the kernel, and which one runs. -/
structure Machine where
  w : World
  task : ℕ → Task
  turn : Option ℕ

namespace Machine

/-- A process that comes to this point stops running: others may go on. -/
def stops : Task → Bool
  | .done | .sleep _ _ _ | .relock _ _ | .freeing _ _ => true
  | _ => false

/-- Process `p` goes on with `k`. -/
def go (m : Machine) (p : ℕ) (k : Task) (w : World) : Machine :=
  { w, task := Function.update m.task p k, turn := if stops k then none else some p }

/-- Process `p` stays asleep. -/
def stay (m : Machine) : Machine := { m with turn := none }

/-- The next thing that process `p` does; `n` is what it finds where it chooses. -/
def exec (m : Machine) (p n : ℕ) : Task → Option Machine
  | .done => none
  | .act d k => some (m.go p k (d.run p m.w))
  | .look f k => some (m.go p (k (f m.w)) m.w)
  | .choose k => some (m.go p (k n) m.w)
  | .ilock i k =>
      if m.w.own i = none then some (m.go p k (m.w.lock p i))
      else some (m.go p (.relock i k) (m.w.await p i))
  | .relock i k =>
      if m.w.own i = none then some (m.go p k (m.w.relock p i)) else some m.stay
  | .sleep _ _ k => some (m.go p k m.w)
  | .await _ _ f k => if f m.w n then some (m.go p k m.w) else some m.stay
  | .fopen i k => some (m.go p k (m.w.fopen p i))
  | .unslot fd k =>
      match if fd < nopen then m.w.olist p fd else none with
      | none => some (m.go p (k none) m.w)
      | some f => some (m.go p (k (some f)) (m.w.unslot p fd f))
  | .drop f last k =>
      if (m.w.file f).count - 1 = 0 then some (m.go p (last (m.w.file f).inode) (m.w.drop p f))
      else some (m.go p k (m.w.drop p f))
  | .release i last k =>
      if (m.w.node i).count - 1 = 0 then some (m.go p last (m.w.release p i))
      else some (m.go p k (m.w.release p i))
  | .getsb k => if m.w.sb = none then some (m.go p k (m.w.getsb p)) else some m.stay
  | .take i used k =>
      if (m.w.node i).alloc then some (m.go p used m.w) else some (m.go p k (m.w.take i))
  | .leave k =>
      match m.w.cdir p with
      | none => none
      | some c => some (m.go p (k c) (m.w.leave p c))
  | .spawn child full k =>
      if m.w.Free child then some (m.go p k (m.w.spawn p child)) else some (m.go p full m.w)
  | .idec i k =>
      if (m.w.node i).count = 0 ∧ (m.w.node i).nlink = 0 then
        some (m.go p (.freeing i k) (m.w.condemn p i))
      else some (m.go p k (m.w.idec p i))
  | .freeing i k => some (m.go p k (m.w.freed p i))

/-- A process makes a system call or goes on with it, or a signal ends the call in which it
sleeps. -/
inductive Label
  | start (p : ℕ) (c : Trap)
  | exec (p n : ℕ)
  | abort (p : ℕ)

/-- The event and the priority at which a process sleeps. -/
def asleep : Task → Option (Event × ℕ)
  | .sleep e pri _ | .await e pri _ _ => some (e, pri)
  | .relock _ _ => some (.inode, priNod)
  | .freeing _ _ | .getsb _ => some (.buf, priBio)
  | _ => none

/-- The step function. -/
def step (m : Machine) : Label → Option Machine
  | .start p c =>
      match m.task p with
      | .done =>
          if m.turn = none ∧ p < nproc ∧ m.w.live p = true then some (m.go p c.task m.w) else none
      | _ => none
  | .exec p n => if m.turn = none ∨ m.turn = some p then m.exec p n (m.task p) else none
  | .abort p =>
      match asleep (m.task p) with
      | some (_, pri) =>
          if m.turn = none ∧ pri < sigPri then some { m with task := Function.update m.task p .done }
          else none
      | none => none

end Machine

end Micronix
