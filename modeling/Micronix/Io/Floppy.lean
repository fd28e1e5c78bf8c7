import Micronix.Host.Skew
import Micronix.Lib.Bytes
import Micronix.Lib.Transition

/-!
# The floppy disk driver, `sys/dj.c`

`djstrat` puts a request into a queue; `djint` is called by the interrupts of the controller, by
`djstrat`, and by the other driver when it passes the bus on.  A request is served sector by sector.
Sectors of 1024 bytes hold two blocks, so that they go through `kbuf`, which also serves as a cache of
one sector.

A device is its minor number.  The memory at `b->data` is part of the buffer, and an address in it is an
offset.  What `getstat` finds out about a drive comes from the controller, like the outcomes of commands;
the answers of `busget` and `busgive` come from the other driver.
-/

namespace Micronix

namespace Floppy

/-- `struct specs`; `sio` uses the fields of `Skew.Specs`. -/
structure Specs extends Skew.Specs where
  config : ℕ
  spb : ℕ
  ncyl : ℕ
  bps : ℕ
  volume : ℕ

/-- A row of the table, in the order of its columns. -/
def row (config : ℕ) (ds : Bool) (spt cylinder : UInt8) (spb ncyl : ℕ) (toff : UInt8)
    (bps volume : ℕ) : Specs :=
  { ds, spt, cylinder, toff, config, spb, ncyl, bps, volume }

/-- `specs` -/
def specs : List Specs :=
  [row 0 false 26 26 4 77 2 128 1950, row 0 false 26 26 2 77 2 256 1950,
    row 0 false 15 15 1 77 2 512 1125, row 0 false 8 8 1 77 2 1024 600,
    row 0 true 26 52 4 77 2 128 3900, row 0 true 26 52 2 77 2 256 3900,
    row 0 true 15 30 1 77 2 512 2250, row 0 true 8 16 1 77 2 1024 1200,
    row 0x90 false 10 10 1 35 2 512 330, row 0xF0 true 10 20 1 35 2 512 660,
    row 0xB0 false 10 10 1 35 2 512 330, row 0x10 false 10 10 2 35 3 256 320,
    row 0xA0 false 10 10 1 40 2 512 380, row 0xC0 false 10 10 1 80 2 512 780,
    row 0xD0 true 10 20 1 40 2 512 760, row 0xE0 true 10 20 1 80 2 512 1560,
    row 0 false 18 18 4 40 0 128 720, row 0 false 10 10 2 40 0 256 400,
    row 0 false 8 8 1 40 0 512 320, row 0 false 5 5 1 40 0 1024 200,
    row 0 false 9 9 1 40 0 512 360,
    row 0 true 18 36 4 40 0 128 1440, row 0 true 10 20 2 40 0 256 800,
    row 0 true 8 16 1 40 0 512 640, row 0 true 5 10 1 40 0 1024 400,
    row 0 true 9 18 1 40 0 512 720]

/-- `struct dm`: the flags `ISOPEN`, `F_WP` and `ORG1`. -/
structure Dm where
  specs : Specs
  isopen : Bool
  wp : Bool
  org1 : Bool

/-- `b->error` -/
inductive Error
  | eio | enxio
  deriving DecidableEq

/-- `struct buf`.  `error` is none without `BERROR`. -/
structure Buf where
  bread : Bool
  dev : UInt16
  blk : ℕ
  count : ℕ
  data : Bytes
  error : Option Error

/-- What the address in a command points to. -/
inductive Target
  | kbuf
  | data (addr : ℕ)
  deriving DecidableEq

/-- The codes `SREAD` and `SWRITE`, and the drive of a device. -/
def sread : UInt8 := 0x20
def swrite : UInt8 := 0x21
def drive (dev : UInt16) : UInt8 := (dev &&& 7).toUInt8

/-- `dev & GETSTAT` -/
def isGetstat (dev : UInt16) : Bool := dev &&& 0x80 != 0

/-- `OKSTAT`, `NOSTAT` and `BADSTAT` -/
def okstat : ℕ := 0x40
def nostat : ℕ := 0
def badstat : ℕ := 1

/-- What `djint` does not decide: whether `busget` succeeds at first, whether the bus is kept between two
requests when so many are left in the queue, and, of a request for the status, what `getstat` brings,
with what it leaves in `kbuf`. -/
structure Luck where
  bus : Bool
  keep : ℕ → Bool
  stat : ℕ → Option Bytes
  junk : ℕ → Bytes

/-- Where a sector is: drive, track, and side and sector. -/
abbrev Place := UInt8 × UInt8 × UInt8

/-- The statics of the driver, the command in `djcomm`, and the diskettes.  `halt` is `haltstat`.
`contender` says that `busget` has refused the bus and has not called back since; `asked` and `done` are
the requests that came and those that `iodone` was called for.  The code does not have these three. -/
structure State where
  dm : UInt8 → Dm
  queue : List Buf
  curbuf : Option Buf
  kdev : Option UInt16
  ksec : ℕ
  kbuf : Bytes
  kw : Bool
  op : UInt8
  addr : ℕ
  sec : ℕ
  off : ℕ
  bps : ℕ
  count : ℕ
  togo : ℕ
  dev : UInt16
  sp : Specs
  target : Target
  comm : Skew.Command
  iostat : ℕ
  intstat : ℕ
  halt : Bool
  inservice : Bool
  disk : Place → Bytes
  contender : Bool
  asked : List Buf
  done : List Buf

/-- Where the code goes on after a part of it: a command is in `djcomm` (`go`), or `curbuf` is done with
(`finished`). -/
inductive Outcome
  | go (s : State)
  | finished (s : State)

namespace State

/-- `curbuf->error = e`, and `BERROR`. -/
def fault (s : State) (e : Error) : State :=
  { s with curbuf := s.curbuf.map fun b => { b with error := some e } }

/-- `sio(d, addr, xaddr, op, sec, dev)`; `target` stands for the address. -/
def sio (s : State) (target : Target) (op : UInt8) (sec : ℕ) : State :=
  let d := s.dm (drive s.dev)
  { s with
    target := target
    comm := Skew.sio d.specs.toSpecs d.org1 0 0 op (UInt16.ofNat sec) s.dev
    iostat := nostat
    intstat := nostat
    halt := true }

/-- `copy(kbuf + off, addr, togo)` -/
def kread (s : State) : State :=
  { s with curbuf := s.curbuf.map fun b =>
      { b with data := Bytes.copyBytes s.kbuf s.off b.data s.addr s.togo } }

/-- From `kwrite` to `go`. -/
def kwrite (s : State) : State :=
  let kbuf := s.curbuf.elim s.kbuf fun b => Bytes.copyBytes b.data 0 s.kbuf s.off s.togo
  { { s with kbuf, halt := false }.sio .kbuf swrite s.ksec with kw := true }

/-- The sector is not in the cache: the command that brings it there. -/
def fill (s : State) : State :=
  { { s with kdev := none }.sio .kbuf sread s.sec with kw := false }

/-- The cache has just been filled, unless it was written out. -/
def filled (s : State) : State :=
  if s.kw then s else { s with kdev := some s.dev, ksec := s.sec }

/-- `count -= togo` -/
def rest (s : State) : ℕ := (s.count + 65536 - s.togo) % 65536

/-- On to the next sector, with so many bytes left. -/
def advance (s : State) (count : ℕ) : State :=
  { s with count, addr := s.addr + s.togo, sec := s.sec + 1, off := 0, halt := false }

/-- From `nextsec` on: the command for the sector `sec`, unless it is off the end.  When the cache has
the sector, the next one it has not. -/
def nextsec (s : State) : Outcome :=
  if s.sp.volume ≤ s.sec then .finished (s.fault .enxio)
  else if s.off = 0 ∧ s.bps ≤ s.count then .go (s.sio (.data s.addr) s.op s.sec)
  else if ¬(s.ksec = s.sec ∧ s.kdev = some s.dev) then .go s.fill
  else if s.op = sread then
    if s.kread.rest = 0 then .finished { s.kread with count := 0 }
    else nextsec (s.kread.advance s.kread.rest)
  else .go s.kwrite
termination_by if s.ksec = s.sec then 1 else 0
decreasing_by simp_all [kread, advance]

/-- From `secdone` to `nextsec` or `finished`. -/
def secdone (s : State) : Outcome :=
  if s.rest = 0 then .finished { s with count := 0 } else nextsec (s.advance s.rest)

/-- What `djint` does about the request in `curbuf` when its command is done. -/
def check (s : State) (b : Buf) : Outcome :=
  if s.iostat ≠ okstat then .finished (s.fault .eio)
  else if s.off = 0 ∧ s.bps ≤ s.count then s.secdone
  else if b.bread then s.filled.kread.secdone
  else if s.kw then .finished s.filled
  else .go s.filled.kwrite

/-- A request for the status: `getstat`, and the copy of what it brings. -/
def status (s : State) (b : Buf) (stat : Option Bytes) (junk : Bytes) : Outcome :=
  let s := { s with kdev := none, kbuf := junk }
  match stat with
  | some st => .finished { s with curbuf := some { b with data := Bytes.copyBytes st 0 b.data 0 15 } }
  | none => .finished (s.fault .eio)

/-- Where the transfer begins: a block is half of a sector of 1024 bytes, or `spb` sectors. -/
def setup (s : State) (b : Buf) : State :=
  let togo := if b.count < s.sp.bps then b.count else s.sp.bps
  let half := s.sp.bps = 1024 ∧ b.blk % 2 = 1
  { s with
    bps := s.sp.bps
    off := if half then 512 else 0
    togo := if half ∧ 512 < togo then 512 else togo
    sec := if s.sp.bps = 1024 then b.blk / 2 else b.blk * s.sp.spb
    op := if b.bread then sread else swrite }

/-- What `djint` does with the request that it has taken from the queue, up to `nextsec`. -/
def begin (s : State) (b : Buf) (stat : Option Bytes) (junk : Bytes) : Outcome :=
  let d := s.dm (drive b.dev)
  if isGetstat b.dev then { s with dev := b.dev }.status b stat junk
  else if !d.isopen then .finished ({ s with dev := b.dev }.fault .eio)
  else
    let s := { s with dev := b.dev, sp := d.specs, count := b.count }
    if 3000 < b.blk then .finished (s.fault .enxio)
    else if !b.bread && d.wp then .finished ((s.setup b).fault .eio)
    else { s.setup b with addr := 0 }.nextsec

/-- From `finished` to `request`: `iodone` and `djack`. -/
def iodone (s : State) : State :=
  { s with done := s.done ++ s.curbuf.toList, curbuf := none, halt := false }

/-- `finished`: another request is taken from the queue if there is one and the bus is kept. -/
def request (o : Luck) : List Buf → State → State
  | [], s => { s with queue := [], inservice := false }
  | b :: q, s =>
      match begin { s with queue := q, curbuf := some b } b (o.stat q.length) (o.junk q.length) with
      | .go s => { s with inservice := false }
      | .finished s =>
          if q = [] ∨ o.keep q.length then request o q s.iodone
          else { s.iodone with inservice := false, contender := true }

/-- What follows on a part of `djint`. -/
def after (o : Luck) : Outcome → State
  | .go s => { s with inservice := false }
  | .finished s =>
      if s.queue = [] ∨ o.keep s.queue.length then request o s.queue s.iodone
      else { s.iodone with inservice := false, contender := true }

/-- `djint`, once it has the bus. -/
def serve (s : State) (o : Luck) : State :=
  match s.curbuf with
  | some b => after o (s.check b)
  | none => request o s.queue s

/-- `djint()`, while the controller is not taken for `djstty`. -/
def djint (s : State) (o : Luck) : State :=
  if s.inservice ∨ (s.curbuf.isSome ∧ s.intstat = nostat) ∨ (s.curbuf = none ∧ s.queue = []) then s
  else if !o.bus then { s with contender := true }
  else { s with inservice := true, contender := false }.serve o

/-- `djstrat(b)` -/
def djstrat (s : State) (b : Buf) (o : Luck) : State :=
  { s with queue := s.queue ++ [b], asked := s.asked ++ [b] }.djint o

/-! ## The controller -/

/-- The place that the command names. -/
def place (s : State) : Place := (s.comm.drive, s.comm.track, s.comm.sector)

/-- A sector goes to where the command says. -/
def receive (s : State) (sector : Bytes) : State :=
  match s.target with
  | .kbuf => { s with kbuf := sector }
  | .data addr => { s with curbuf := s.curbuf.map fun b =>
      { b with data := Bytes.copyBytes sector 0 b.data addr s.bps } }

/-- The sector that stands where the command says. -/
def sending (s : State) (b : Buf) : Bytes :=
  match s.target with
  | .kbuf => s.kbuf
  | .data addr => fun j => b.data (addr + j)

/-- The controller obeys the command, and reports in `djcomm`.  When it fails, what it was to write to is
spoiled. -/
def obey (s : State) (b : Buf) (bad : Option Bytes) : State :=
  let s :=
    if s.comm.op = sread then s.receive (bad.getD (s.disk s.place))
    else { s with disk := Function.update s.disk s.place (bad.getD (s.sending b)) }
  { s with iostat := if bad.isSome then badstat else okstat, intstat := okstat }

end State

/-- What happens: a request comes; `djint` is called; the controller is done with its command (or
`djgoose` gives it up); a drive is opened or closed. -/
inductive Label
  | djstrat (b : Buf) (o : Luck)
  | djint (o : Luck)
  | controller (bad : Option Bytes)
  | drive (a : UInt8) (d : Dm)

/-- The controller works only while there is a command. -/
def step (s : State) : Label → Option State
  | .djstrat b o => some (s.djstrat b o)
  | .djint o => some (s.djint o)
  | .controller bad =>
      match s.curbuf with
      | some b => if s.intstat = nostat then some (s.obey b bad) else none
      | none => none
  | .drive a d => some { s with dm := Function.update s.dm a d }

/-- Nothing has been asked for yet. -/
structure Start (s : State) : Prop where
  queue : s.queue = []
  curbuf : s.curbuf = none
  kdev : s.kdev = none
  inservice : s.inservice = false
  contender : s.contender = false
  asked : s.asked = []
  done : s.done = []

end Floppy

end Micronix
