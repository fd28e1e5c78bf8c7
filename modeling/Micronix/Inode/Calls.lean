import Micronix.Inode.Iget

/-!
# The system calls that lock inodes

The kernel's routines as programs over the inode list: `op` is a call of one of the routines of
`iget.c` or of `idec`, `act` a change that does not sleep, `look` a test of the inode list, `choose`
anything else the code looks at (modes, permissions, directory entries, the file table), and `sleep`
block i/o or a device routine, during which others run.  Between two sleeps a process is not
interrupted: `turn` is the process that runs.

The slots that a process gets from elsewhere (its current directory, its open files, the inode on
which a file system is mounted) are parameters.
-/

namespace Micronix

/-- What a routine does to the inode list without sleeping. -/
inductive Act
  | ref (i : ℕ)
  | unref (i : ℕ)
  | modify (i : ℕ) (f : Bytes → Bytes)
  | graft (i d : ℕ)
  | prune (i : ℕ)
  | mtab (dev : ℕ) (m : Option Mount)
  | alloc (i : ℕ)
  | want (i : ℕ)
  | wake (i : ℕ)

/-- The effect of an action. -/
def Act.run (a : Act) (s : Ilist) : Ilist :=
  match a with
  | ref i => s.ref i
  | unref i => s.unref i
  | modify i f => s.modify i (f (s.slot i).node) (s.slot i).size
  | graft i d => s.graft i d
  | prune i => s.prune i
  | mtab dev m => { s with mlook := Function.update s.mlook dev m }
  | alloc i => s.modSlot i fun x =>
      { x with node := fun k => if k = 1 then 128 else 0, mod := true, count := 0, mount := none,
               size := 0 }
  | want i => s.modSlot i fun x => { x with want := true }
  | wake i => s.wakeup i

/-- A routine of the kernel. -/
inductive Prog
  | done
  | op (c : Ilist.Call) (k : Option ℕ → Prog)
  | act (a : Act) (k : Prog)
  | look (f : Ilist → ℕ) (k : ℕ → Prog)
  | choose (k : ℕ → Prog)
  | sleep (k : Prog)

namespace Prog

def isDone : Prog → Bool
  | done => true
  | _ => false

def ilock (i : ℕ) (k : Prog) : Prog := op (.ilock i) fun _ => k
def irelse (i : ℕ) (k : Prog) : Prog := op (.irelse i) fun _ => k
def idec (i : ℕ) (k : Prog) : Prog := op (.idec i) fun _ => k
def iget (num dev : ℕ) (k : Option ℕ → Prog) : Prog := op (.iget num dev) k

/-- `i_dev`, `i_inum` and `i_count` of a slot. -/
def dev (i : ℕ) (s : Ilist) : ℕ := (s.slot i).dev
def inum (i : ℕ) (s : Ilist) : ℕ := (s.slot i).inum
def count (i : ℕ) (s : Ilist) : ℕ := (s.slot i).count

/-! ## `name.c` -/

/-- The loop of `iname` on the locked inode `ip`, with `n` names to go; `u.iparent` is `parent`. -/
def walk (k : Option ℕ → Option ℕ → Prog) : ℕ → ℕ → Option ℕ → Prog
  | 0, ip, parent => k (some ip) parent
  | n + 1, ip, parent =>
      choose fun isdir =>
        if isdir = 0 then irelse ip (k none parent)
        else choose fun ok =>
          if ok = 0 then irelse ip (k none (some ip))
          else
            -- `dlook`
            sleep <| choose fun inum =>
              if inum = 0 then irelse ip (k none (some ip))
              else act (.ref ip) <| irelse ip <| look (dev ip) fun d =>
                iget inum d fun o => act (.unref ip) <|
                  match o with
                  | none => k none (some ip)
                  | some i => walk k n i (some ip)

/-- `iname(name)`: `ip` is the current directory or the root. -/
def iname (n ip : ℕ) (k : Option ℕ → Option ℕ → Prog) : Prog := ilock ip (walk k n ip none)

/-! ## `open.c` -/

/-- `iopen(ip, mode)` -/
def iopen (ip : ℕ) (k : Prog) : Prog :=
  let rest := choose fun fd => if fd = 0 then k else act (.ref ip) k
  choose fun fmt =>
    match fmt with
    | 0 => act (.ref ip) <| irelse ip <| sleep <| ilock ip <| act (.unref ip) rest
    | 1 => sleep rest
    | _ => rest

/-- `open(name, mode)` -/
def «open» (n ip : ℕ) : Prog :=
  iname n ip fun o _ =>
    match o with
    | none => done
    | some ip => choose fun ok =>
        if ok = 0 then irelse ip done else iopen ip (irelse ip done)

/-- `iclose(ip, writ)` -/
def iclose (ip : ℕ) (k : Prog) : Prog :=
  act (.unref ip) <| look (count ip) fun c =>
    if c ≠ 0 then k
    else ilock ip <| choose fun fmt =>
      match fmt with
      | 0 => act (.ref ip) <| irelse ip <| sleep <| ilock ip <| act (.unref ip) <| idec ip k
      | 1 => sleep <| idec ip k
      | _ => idec ip k

/-- `fclose(fp)` of a file whose inode is `ip`. -/
def fclose (ip : ℕ) (k : Prog) : Prog :=
  choose fun count =>
    if count ≠ 0 then k
    else choose fun pipe => if pipe ≠ 0 then act (.wake ip) (iclose ip k) else iclose ip k

/-- `close(fd)` -/
def close (ip : ℕ) : Prog := fclose ip done

/-- `exit(stat)`: the open files are closed and the current directory is given back. -/
def exit (cdir : ℕ) : List ℕ → Prog
  | [] => act (.unref cdir) done
  | ip :: files => fclose ip (exit cdir files)

/-! ## `sys1.c` -/

/-- `chdir(name)` with the current directory `cdir`. -/
def chdir (n ip cdir : ℕ) : Prog :=
  iname n ip fun o _ =>
    match o with
    | none => done
    | some i => choose fun isdir =>
        if isdir = 0 then irelse i done
        else choose fun ok =>
          if ok = 0 then irelse i done
          else act (.unref cdir) <| idec cdir <| act (.ref i) <| irelse i done

/-! ## `link.c` -/

/-- `ilink(inum)` into `u.iparent`. -/
def ilink (parent : ℕ) (k : Prog) : Prog := ilock parent <| sleep <| irelse parent k

/-- `unlink(name)` -/
def unlink (n ip : ℕ) : Prog :=
  iname n ip fun o parent =>
    match o with
    | none => done
    | some ip => irelse ip <|
        match parent with
        | none => done
        | some parent => choose fun ok =>
            if ok = 0 then done
            else
              act (.modify ip fun d k => if k = 2 ∧ d 2 ≠ 0 then d 2 - 1 else d k) <|
                act (.ref parent) <| idec ip <| act (.unref parent) <| ilink parent done

/-- `link(old, new)` -/
def link (n ip n' ip' : ℕ) : Prog :=
  iname n ip fun o _ =>
    match o with
    | none => done
    | some old => irelse old <| choose fun ok =>
        if ok = 0 then done
        else look (inum old) fun inum => look (dev old) fun d =>
          iname n' ip' fun o parent =>
            match o, parent with
            | some new, _ => irelse new done
            | none, none => done
            | none, some parent => choose fun ok =>
                if ok = 0 then done
                else iget inum d fun o =>
                  match o with
                  | none => done
                  | some ip =>
                      act (.modify ip fun d k => if k = 2 then d 2 + 1 else d k) <|
                        irelse ip <| ilink parent done

/-! ## `ialloc.c` and `create.c` -/

/-- The loop of `ialloc(dev)`, at most `n` times; `ifill` calls `isync` and reads blocks. -/
def ialloc (dev : ℕ) (k : Option ℕ → Prog) : ℕ → Prog
  | 0 => k none
  | n + 1 =>
      let take := choose fun num => iget num dev fun o =>
        match o with
        | none => ialloc dev k n
        | some ip => choose fun free =>
            if free = 0 then irelse ip (ialloc dev k n)
            else act (.alloc ip) <| k (some ip)
      choose fun free =>
        if free = 0 then op .isync fun _ => sleep <| choose fun ok => if ok = 0 then k none else take
        else take

/-- `imkfile(mode, dev)` in the directory `parent`. -/
def imkfile (n parent : ℕ) (k : Option ℕ → Prog) : Prog :=
  choose fun ok =>
    if ok = 0 then k none
    else ilock parent <| look (dev parent) fun d => sleep <| ialloc d (fun o => irelse parent <|
      match o with
      | none => k none
      | some ip => ilink parent <| act (.modify ip fun d k => if k = 2 then 1 else d k) <| k (some ip)) n

/-- `creat(name, mode)` -/
def creat (n ip m : ℕ) : Prog :=
  iname n ip fun o parent =>
    match o, parent with
    | none, none => done
    | none, some parent => imkfile m parent fun o =>
        match o with
        | none => done
        | some ip => iopen ip (irelse ip done)
    | some ip, _ => choose fun ok =>
        if ok = 0 then irelse ip done
        -- `itrunc`
        else sleep <| iopen ip (irelse ip done)

/-! ## `rdwri.c` -/

/-- `pwrite(ip)`, at most `n` turns. -/
def pwrite (ip : ℕ) : ℕ → Prog
  | 0 => done
  | n + 1 => ilock ip <| choose fun reader =>
      if reader = 0 then irelse ip done
      else sleep <| choose fun full =>
        if full = 0 then irelse ip done
        else irelse ip <| act (.want ip) <| sleep <| pwrite ip n

/-- `pread(ip)`, at most `n` turns. -/
def pread (ip : ℕ) : ℕ → Prog
  | 0 => done
  | n + 1 => ilock ip <| choose fun empty =>
      if empty = 0 then sleep <| irelse ip done
      else choose fun writer =>
        if writer = 0 then irelse ip done
        else irelse ip <| act (.want ip) <| sleep <| pread ip n

/-- `read(fd, buf, count)`: `iread` of anything but a pipe does not lock the inode. -/
def read (ip n : ℕ) : Prog := choose fun pipe => if pipe = 0 then sleep done else pread ip n

/-- `write(fd, buf, count)` -/
def write (ip n : ℕ) : Prog := choose fun pipe => if pipe = 0 then sleep done else pwrite ip n

/-! ## `mount.c` -/

/-- `mount(ioname, dname, ronly)` -/
def mount (n ip n' ip' : ℕ) : Prog :=
  iname n ip fun o _ =>
    match o with
    | none => done
    | some io => irelse io <| choose fun ok =>
        if ok = 0 then done
        else look (inum io) fun inum => look (dev io) fun idev => choose fun d =>
          iname n' ip' fun o _ =>
            match o with
            | none => done
            | some id => choose fun ok =>
                if ok = 0 then irelse id done
                else
                  -- `bopen` and `tmount`
                  sleep <| choose fun isize =>
                    if isize = 0 then irelse id done
                    else act (.mtab d (some ⟨isize, false⟩)) <| act (.graft id d) <| act (.ref id) <|
                      iget inum idev fun o =>
                        match o with
                        | none => irelse id done
                        | some io => act (.ref io) <| irelse io <| irelse id done

/-- `umount(ioname)` of the file system on device `d` that is mounted on `m`. -/
def umount (n ip d m : ℕ) : Prog :=
  iname n ip fun o _ =>
    match o with
    | none => done
    | some io => choose fun ok =>
        if ok = 0 then irelse io done
        else op .isync fun _ =>
          look (fun s => (List.range s.n).countP fun i => (s.slot i).dev = d ∧
              ((s.slot i).busy = true ∨ (s.slot i).mod = true ∨ 0 < (s.slot i).count)) fun used =>
            if used ≠ 0 then irelse io done
            else op (.iflush d) fun _ => sleep <| irelse io <| iclose io <|
              act (.prune m) <| act (.unref m) <| idec m <| act (.mtab d none) done

end Prog

/-- A system call with the slots and numbers it comes with. -/
inductive Syscall
  | «open» (n ip : ℕ)
  | close (ip : ℕ)
  | chdir (n ip cdir : ℕ)
  | unlink (n ip : ℕ)
  | link (n ip n' ip' : ℕ)
  | creat (n ip m : ℕ)
  | read (ip n : ℕ)
  | write (ip n : ℕ)
  | mount (n ip n' ip' : ℕ)
  | umount (n ip d m : ℕ)
  | exit (cdir : ℕ) (files : List ℕ)

/-- Its routine. -/
def Syscall.prog : Syscall → Prog
  | «open» n ip => Prog.open n ip
  | close ip => Prog.close ip
  | chdir n ip cdir => Prog.chdir n ip cdir
  | unlink n ip => Prog.unlink n ip
  | link n ip n' ip' => Prog.link n ip n' ip'
  | creat n ip m => Prog.creat n ip m
  | read ip n => Prog.read ip n
  | write ip n => Prog.write ip n
  | mount n ip n' ip' => Prog.mount n ip n' ip'
  | umount n ip d m => Prog.umount n ip d m
  | exit cdir files => Prog.exit cdir files

/-! ## Processes -/

/-- What a process does next: a routine, or what follows the call in which it sleeps. -/
inductive Ctl
  | ready (P : Prog)
  | pending (c : Ilist.Call) (k : Option ℕ → Prog)

/-- The processes.  For the statements: `held p` are the slots that process `p` has locked and not
released, by its own account, and `loose p` those that it has released since it last slept. -/
structure Kernel where
  il : Ilist
  ctl : ℕ → Ctl
  turn : Option ℕ
  held : ℕ → List ℕ
  loose : ℕ → List ℕ

namespace Kernel

/-- Process `p` goes to sleep, or has nothing more to do: others may run. -/
def yield (s : Kernel) (p : ℕ) (c : Ctl) : Kernel :=
  { s with
    ctl := Function.update s.ctl p c
    turn := none
    loose := Function.update s.loose p [] }

/-- Process `p` goes on with `P`. -/
def go (s : Kernel) (p : ℕ) (P : Prog) : Kernel :=
  if P.isDone then s.yield p (.ready P)
  else { s with ctl := Function.update s.ctl p (.ready P), turn := some p }

/-- What a process has locked after a call. -/
def heldAfter (c : Ilist.Call) (o : Option ℕ) (held : List ℕ) : List ℕ :=
  match c with
  | .ilock i => i :: held
  | .iget _ _ => o.toList ++ held
  | .irelse i | .idec i => held.erase i
  | .isync | .iflush _ => held

/-- What it has released since it last slept. -/
def looseAfter (c : Ilist.Call) (loose : List ℕ) : List ℕ :=
  match c with
  | .irelse i => i :: loose
  | .idec i => [i]
  | .ilock _ | .iget _ _ | .isync | .iflush _ => []

/-- After a step of the inode list in call `c`: it has returned, or the process sleeps in it. -/
def after (s : Kernel) (p : ℕ) (c : Ilist.Call) (k : Option ℕ → Prog) (il : Ilist) : Kernel :=
  if (il.stage p).isIdle then
    { s with
      il := il
      held := Function.update s.held p (heldAfter c il.result (s.held p))
      loose := Function.update s.loose p (looseAfter c (s.loose p)) }.go p (k il.result)
  else { s with il := il }.yield p (.pending c k)

/-- What can happen next: a process makes a system call, goes on with it (`n` is what it finds where
it chooses), or goes on in a call in which it slept; or the rest of the kernel acts. -/
inductive Label
  | start (p : ℕ) (c : Syscall)
  | exec (p n : ℕ)
  | resume (p : ℕ) (d : Option Bytes)
  | env (a : Act)

/-- The next thing that process `p` does. -/
def exec (s : Kernel) (p n : ℕ) : Prog → Option Kernel
  | .done => none
  | .op c k => (s.il.step (.call p c)).map fun il => s.after p c k il
  | .act a k => some ({ s with il := a.run s.il }.go p k)
  | .look f k => some (s.go p (k (f s.il)))
  | .choose k => some (s.go p (k n))
  | .sleep k => some (s.yield p (.ready k))

/-- The step function. -/
def step (s : Kernel) : Label → Option Kernel
  | .start p c =>
      match s.ctl p with
      | .ready .done => if s.turn = none then some (s.yield p (.ready c.prog)) else none
      | _ => none
  | .exec p n =>
      match s.ctl p with
      | .ready P => if s.turn = none ∨ s.turn = some p then s.exec p n P else none
      | .pending _ _ => none
  | .resume p d =>
      match s.ctl p with
      | .ready _ => none
      | .pending c k =>
          if s.turn = none then (s.il.step (.run p d)).map fun il => s.after p c k il else none
  | .env a => if s.turn = none then some { s with il := a.run s.il } else none

end Kernel

end Micronix
