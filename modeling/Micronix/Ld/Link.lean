import Mathlib.Data.UInt
import Micronix.Lib.Probing

/-!
# The link editor, `cmd/ld/ld.c`

`ld` goes through its arguments twice.  The first pass enters the global symbols of the modules into a
hash table and adds up the sizes of their segments; `middle` places the common symbols and the segments;
the second pass relocates the words of the modules, and checks the symbols.

An object file is what its header says: words with their relocation words, and symbols.  A module of an
archive stands for its place in it.  Overlays (`-v`) and `-D` are left out.
-/

namespace Micronix

namespace Ld

abbrev Word := UInt16

/-- `sname`: eight bytes. -/
abbrev Name := List UInt8

/-- `cp8c` -/
def cp8c (s : List UInt8) : Name :=
  let s := (s.takeWhile (· ≠ 0)).take 8
  s ++ List.replicate (8 - s.length) 0

/-- `_etext`, `_edata` and `_end` -/
def etext : Name := cp8c [95, 101, 116, 101, 120, 116]
def edata : Name := cp8c [95, 101, 100, 97, 116, 97]
def «end» : Name := cp8c [95, 101, 110, 100]

def EXTERN : UInt8 := 0x20
def UNDEF : UInt8 := 0
def ABS : UInt8 := 1
def TEXT : UInt8 := 2
def DATA : UInt8 := 3
def BSS : UInt8 := 4
def COMM : UInt8 := 5

def RTEXT : Word := 2
def RDATA : Word := 4
def RBSS : Word := 6
def REXT : Word := 8

def NSYM : ℕ := 1103
def NSYMPR : ℕ := 1000
def TABSZ : ℕ := 700

/-- `struct symbol`, without `spare` -/
@[ext]
structure Symbol where
  sname : Name
  stype : UInt8
  svalue : Word
  deriving DecidableEq

/-- An object file.  `relflg` is its lowest bit. -/
structure Object where
  relflg : Bool
  text : List (Word × Word)
  data : List (Word × Word)
  bss : Word
  symbols : List Symbol

namespace Object

/-- `filhdr.tsize`, `filhdr.dsize` and `filhdr.bsize`, as `readhdr` leaves them -/
def tsize (o : Object) : Word := UInt16.ofNat (2 * o.text.length)
def dsize (o : Object) : Word := UInt16.ofNat (2 * o.data.length)
def bsize (o : Object) : Word := (o.bss + 1) &&& ~~~1

end Object

/-- A module of an archive, with `archdr.aname`. -/
structure Member where
  aname : List UInt8
  object : Object

/-- What `getfile` finds out about an archive: it has no table of contents, or one that is out of date,
or one that can be used. -/
inductive Contents
  | regular
  | stale
  | table (tab : List (Name × ℕ))

/-- An archive, with its modules beside the table of contents, which tells of no others. -/
structure Archive where
  contents : Contents
  members : List Member
  sound : ∀ tab, contents = .table tab → ∀ e ∈ tab, e.2 < members.length

inductive Flag
  | x | X | S | r | s | n | d | i | O

/-- What `argv` says.  A file goes by the last part of its name. -/
inductive Arg
  | file (name : List UInt8) (o : Object)
  | library (a : Archive)
  | use (name : List UInt8)
  | entry (name : List UInt8)
  | flag (f : Flag)

/-- `xflag` and the others -/
structure Flags where
  xflag : Bool
  Xflag : Bool
  Sflag : Bool
  rflag : Bool
  arflag : Bool
  sflag : Bool
  nflag : Bool
  dflag : Bool
  iflag : Bool
  Oflag : Bool

/-- Why `ld` stops before the end, or does not come to one. -/
inductive Fatal
  | error (s : String)
  | forever

/-- `ctrel`, `cdrel` and `cbrel` -/
structure Rel where
  ctrel : Word
  cdrel : Word
  cbrel : Word

/-- The variables of the first pass.  The entries of `hshtab` and `symhash` are numbers of symbols and
of slots; `said` are the texts that `error` has printed. -/
structure Link where
  flags : Flags
  symtab : List Symbol
  hshtab : ℕ → Option ℕ
  symhash : List ℕ
  liblist : List (Option ℕ)
  entrypt : Option ℕ
  tsize : Word
  dsize : Word
  bsize : Word
  ssize : Word
  errlev : ℕ
  said : List String

/-- The place where the search for a name begins. -/
def hash (n : Name) : ℕ :=
  let i : Word := n.foldl (fun i c => (i <<< 1) + c.toUInt16) 0
  (i &&& 0o77777).toNat % NSYM + 2

/-- `symreloc` -/
def symreloc (rel : Rel) (cursym : Symbol) : Symbol :=
  if cursym.stype = TEXT ∨ cursym.stype = EXTERN + TEXT then
    { cursym with svalue := cursym.svalue + rel.ctrel }
  else if cursym.stype = DATA ∨ cursym.stype = EXTERN + DATA then
    { cursym with svalue := cursym.svalue + rel.cdrel }
  else if cursym.stype = BSS ∨ cursym.stype = EXTERN + BSS then
    { cursym with svalue := cursym.svalue + rel.cbrel }
  else if cursym.stype = EXTERN + UNDEF then cursym
  else if cursym.stype &&& EXTERN ≠ 0 then { cursym with stype := EXTERN + ABS }
  else cursym

/-- The symbols that `-S` discards. -/
def discards (flags : Flags) (stype : UInt8) : Bool :=
  flags.Sflag && (stype &&& 0o37 == 1 || 4 < stype &&& 0o37)

/-- What an entry becomes when `cursym` has its name, and whether that counts for `ndef`. -/
def meet (cursym sp : Symbol) : Symbol × Bool :=
  if sp.stype ≠ EXTERN + UNDEF then (sp, false)
  else if cursym.stype = EXTERN + UNDEF then
    (if sp.svalue.toInt16 < cursym.svalue.toInt16 then { sp with svalue := cursym.svalue } else sp,
      false)
  else if sp.svalue ≠ 0 ∧ cursym.stype = EXTERN + TEXT then (sp, false)
  else ({ sp with stype := cursym.stype, svalue := cursym.svalue }, true)

namespace Link

/-- `error(n, s)`, for an error that is not fatal -/
def error (s : Link) (n : ℕ) (msg : String) : Link :=
  { s with errlev := n, said := s.said ++ [msg] }

/-- What `add(a, b, msg)` says; its value is the sum. -/
def add (s : Link) (a b : Word) (msg : String) : Link :=
  if 0o200000 ≤ a.toNat + b.toNat then s.error 1 msg else s

/-- `lookup`: the slot for a name -/
def lookup (s : Link) (n : Name) : ℕ :=
  Probing.probe (NSYM + 2)
    (fun hp => s.hshtab hp = none || (s.hshtab hp).bind ((s.symtab.map (·.sname))[·]?) = some n)
    (NSYM + 2) (hash n)

/-- `*lookup()` -/
def at? (s : Link) (n : Name) : Option ℕ := s.hshtab (s.lookup n)

/-- `enter(lookup())`: whether the symbol is a new one -/
def enter (s : Link) (cursym : Symbol) : Except Fatal (Link × Bool) :=
  let hp := s.lookup cursym.sname
  match s.hshtab hp with
  | some _ => .ok (s, false)
  | none =>
      if NSYM ≤ s.symtab.length then .error (.error "Symbol table overflow")
      else .ok ({ s with
        symhash := s.symhash ++ [hp]
        hshtab := Function.update s.hshtab hp (some s.symtab.length)
        symtab := s.symtab ++ [cursym] }, true)

/-- `*symhash[--symindex] = 0` -/
def pop (s : Link) : Link :=
  { s with
    symtab := s.symtab.dropLast
    hshtab := s.symhash.getLast?.elim s.hshtab fun hp => Function.update s.hshtab hp none
    symhash := s.symhash.dropLast }

/-- The symbols from `savindex` on are removed. -/
def remove (s : Link) (savindex : ℕ) : Link := pop^[s.symtab.length - savindex] s

end Link

/-- `load1`, in its loop -/
structure Scan where
  link : Link
  ndef : ℕ
  nloc : Word

/-- `sizeof cursym` -/
def symbolSize : Word := 12

/-- A turn of the loop of `load1`. -/
def scan (rel : Rel) (p : Scan) (cursym : Symbol) : Except Fatal Scan := do
  if discards p.link.flags cursym.stype then
    return p
  if cursym.stype &&& EXTERN = 0 then
    if !p.link.flags.Xflag || cursym.sname.head? ≠ some 76 then
      return { p with nloc := p.nloc + symbolSize }
    return p
  let cursym := symreloc rel cursym
  let (link, new) ← p.link.enter cursym
  if new then
    return { p with link }
  match link.at? cursym.sname with
  | none => return { p with link }
  | some k =>
      let counts := (link.symtab[k]?.map fun sp => (meet cursym sp).2).getD false
      return { p with
        link := { link with symtab := link.symtab.modify k fun sp => (meet cursym sp).1 }
        ndef := if counts then p.ndef + 1 else p.ndef }

namespace Link

/-- `ctrel`, `cdrel` and `cbrel` in `load1` -/
def rel (s : Link) (o : Object) : Rel :=
  ⟨s.tsize, s.dsize - o.tsize, s.bsize - (o.tsize + o.dsize)⟩

/-- `load1`, when it adds up the sizes -/
def sizes (s : Link) (o : Object) (nloc : Word) : Link :=
  let t := s.add s.tsize o.tsize "text overflow"
  let t := t.add s.dsize o.dsize "data overflow"
  let t := t.add s.bsize o.bsize "bss overflow"
  let t := t.add s.ssize nloc "symbol table overflow"
  { t with
    tsize := s.tsize + o.tsize
    dsize := s.dsize + o.dsize
    bsize := s.bsize + o.bsize
    ssize := s.ssize + nloc }

/-- `load1(libflg, loc)` -/
def load1 (s : Link) (libflg : Bool) (o : Object) : Except Fatal (Link × Bool) := do
  if o.relflg then
    return (s.error 1 "No relocation bits", false)
  let p ← o.symbols.foldlM (scan (s.rel o)) ⟨s, 0, symbolSize⟩
  if !libflg || p.ndef ≠ 0 then
    return (p.link.sizes o p.nloc, true)
  return (p.link.remove s.symtab.length, false)

/-- `libp->loc = loc; libp++` -/
def note (s : Link) (loc : Option ℕ) : Link := { s with liblist := s.liblist ++ [loc] }

/-- `step`, at the module `i` -/
def step (s : Link) (m : Member) (i : ℕ) : Except Fatal Link := do
  let (s, loaded) ← s.load1 true m.object
  return if loaded then s.note (some i) else s

/-- The modules of an archive one after the other, from `i` on. -/
def steps (s : Link) : List Member → ℕ → Except Fatal Link
  | [], _ => .ok (s.note none)
  | m :: members, i => do (← s.step m i).steps members (i + 1)

/-- A turn of the loop of `ldrand`.  Without an entry `sp->stype` is what stands at address 8. -/
def random (nil : UInt8) (a : Archive) (s : Link) (tab : Name × ℕ) : Except Fatal Link :=
  let stype := ((s.at? tab.1).bind fun k => s.symtab[k]?.map (·.stype)).getD nil
  if stype ≠ EXTERN + UNDEF then .ok s
  else
    match a.members[tab.2]? with
    | some m => s.step m tab.2
    | none => .ok (s.note none)

/-- `while (ldrand());`, with a limit -/
def ldrand (nil : UInt8) (a : Archive) (tab : List (Name × ℕ)) (s : Link) : ℕ → Except Fatal Link
  | 0 => .error .forever
  | limit + 1 => do
      let t ← tab.foldlM (random nil a) s
      if t.liblist.length = s.liblist.length then return t
      t.ldrand nil a tab limit

/-- `load1arg` of an archive -/
def loadlib (limit : ℕ) (nil : UInt8) (a : Archive) (s : Link) : Except Fatal Link :=
  match a.contents with
  | .regular => s.steps a.members 0
  | .stale => (s.error 0 "out of date (warning)").steps a.members 0
  | .table tab => do
      if TABSZ ≤ tab.length then
        throw (.error "fast load buffer too small")
      return (← s.ldrand nil a tab limit).note none

end Link

/-- An option. -/
def Flags.set (f : Flags) : Flag → Flags
  | .x => { f with xflag := true }
  | .X => { f with Xflag := true }
  | .S => { f with Sflag := true }
  | .r => { f with rflag := true, arflag := true }
  | .s => { f with sflag := true, xflag := true }
  | .n => { f with nflag := true }
  | .d => { f with dflag := true }
  | .i => { f with iflag := true }
  | .O => { f with Oflag := true }

/-- `main`, at an argument -/
def Link.arg (limit : ℕ) (nil : UInt8) (s : Link) : Arg → Except Fatal Link
  | .file _ o => (·.1) <$> s.load1 false o
  | .library a => s.loadlib limit nil a
  | .use name => (·.1) <$> s.enter ⟨cp8c name, EXTERN + UNDEF, 0⟩
  | .entry name => do
      let (s, _) ← s.enter ⟨cp8c name, EXTERN + UNDEF, 0⟩
      return { s with entrypt := s.at? (cp8c name) }
  | .flag f => .ok { s with flags := s.flags.set f }

/-- Before the first argument. -/
def Link.start : Link where
  flags := ⟨false, false, false, false, false, false, false, false, false, false⟩
  symtab := []
  hshtab := fun _ => none
  symhash := []
  liblist := []
  entrypt := none
  tsize := 0
  dsize := 0
  bsize := 0
  ssize := 0
  errlev := 0
  said := []

/-- The first pass. -/
def pass1 (limit : ℕ) (nil : UInt8) (argv : List Arg) : Except Fatal Link :=
  argv.foldlM (Link.arg limit nil) .start

/-! ## Between the passes -/

/-- What `middle` leaves for the second pass, beside the global variables: `nsym`, and the origins of
the segments. -/
structure Plan where
  link : Link
  nsym : ℕ
  dorigin : Word
  corigin : Word
  borigin : Word

/-- `ldrsym(asp, val, type)` -/
def ldrsym (s : Link) (asp : Option ℕ) (val : Word) (type : UInt8) : Link :=
  match asp with
  | none => s
  | some k =>
      if s.symtab[k]?.any fun sp => sp.stype ≠ EXTERN + UNDEF ∨ sp.svalue ≠ 0 then
        s.error 1 "Multiply defined"
      else { s with symtab := s.symtab.modify k fun sp => { sp with stype := type, svalue := val } }

/-- The loop that assigns common locations, from `csize` on. -/
def commons (s : Link) (csize : Word) : List Symbol → List Symbol × Link × Word
  | [] => ([], s, csize)
  | sp :: l =>
      if sp.stype = EXTERN + UNDEF ∧ sp.svalue ≠ 0 then
        let t := (sp.svalue + 1) &&& ~~~1
        let (l, s, csize') := commons (s.add csize t "bss overflow") (csize + t) l
        ({ sp with svalue := csize, stype := EXTERN + COMM } :: l, s, csize')
      else
        let (l, s, csize) := commons s csize l
        (sp :: l, s, csize)

/-- The final value of a symbol; `torigin` is 0. -/
def settle (dorigin corigin borigin : Word) (sp : Symbol) : Symbol :=
  if sp.stype = EXTERN + DATA then { sp with svalue := sp.svalue + dorigin }
  else if sp.stype = EXTERN + BSS then { sp with svalue := sp.svalue + borigin }
  else if sp.stype = EXTERN + COMM then
    { sp with stype := EXTERN + BSS, svalue := sp.svalue + corigin }
  else sp

namespace Link

/-- Whether there are undefined symbols, in `middle`. -/
def undefined (s : Link) : Bool :=
  (List.range s.symtab.length).any fun k =>
    s.symtab[k]?.any (fun sp => sp.stype = EXTERN + UNDEF ∧ sp.svalue = 0) &&
      some k ≠ s.at? «end» && some k ≠ s.at? edata && some k ≠ s.at? etext

/-- `middle`, up to where common locations are assigned -/
def bits (s : Link) : Link :=
  let s :=
    if !s.flags.rflag && s.undefined then
      { s with flags := { s.flags with rflag := true, dflag := false } }
    else s
  if s.flags.rflag then
    { s with flags := { s.flags with nflag := false, sflag := false, iflag := false, Oflag := false } }
  else s

/-- Common locations, with their size. -/
def common (s : Link) : Link × Word :=
  if s.flags.dflag || !s.flags.rflag then
    let t := ldrsym s (s.at? etext) s.tsize (EXTERN + TEXT)
    let t := ldrsym t (s.at? edata) s.dsize (EXTERN + DATA)
    let t := ldrsym t (s.at? «end») s.bsize (EXTERN + BSS)
    let (symtab, t, csize) := commons t 0 t.symtab
    ({ t with symtab }, csize)
  else (s, 0)

/-- `tsize`, and where the data begins -/
def origins (s : Link) : Word × Word :=
  let tsize := if s.flags.nflag || s.flags.iflag then (s.tsize + 0o77) &&& ~~~0o77 else s.tsize
  let dorigin := if s.flags.nflag then (tsize + 0o17777) &&& ~~~0o17777 else tsize
  (tsize, if s.flags.iflag then 0 else dorigin)

/-- `middle` -/
def middle (s : Link) : Plan :=
  let (s, csize) := s.bits.common
  let (tsize, dorigin) := s.origins
  let corigin := dorigin + s.dsize
  let borigin := corigin + csize
  let errlev :=
    if s.symtab.any fun sp => sp.stype = EXTERN + UNDEF then s.errlev ||| 1 else s.errlev
  let ssize := if s.flags.sflag || s.flags.xflag then 0 else s.ssize
  let s := { s with tsize, errlev, ssize, symtab := s.symtab.map (settle dorigin corigin borigin) }
  let t := s.add s.bsize csize "bss overflow"
  ⟨{ t with bsize := t.bsize + csize }, (ssize / symbolSize).toNat, dorigin, corigin, borigin⟩

end Link

/-! ## The second pass -/

/-- The variables of the second pass, and the buffers for the output. -/
structure Load where
  torigin : Word
  dorigin : Word
  borigin : Word
  toutb : List Word
  doutb : List Word
  troutb : List Word
  droutb : List Word
  soutb : List Symbol
  errlev : ℕ
  said : List String

/-- `locindex` and `locsymbol` -/
abbrev Local := ℕ × ℕ

/-- `lookloc`: the symbol that a relocation word names -/
def lookloc (local_ : List Local) (r : Word) : Except Fatal ℕ :=
  match local_.find? fun l => l.1 = ((r >>> 4) &&& 0o7777).toNat with
  | some l => .ok l.2
  | none => .error (.error "Local symbol botch")

namespace Plan

/-- A turn of the loop of `load2`; `symno` counts the symbols. -/
def symbol (P : Plan) (rel : Rel) (p : Load × List Local) (cursym : Symbol × ℕ) :
    Except Fatal (Load × List Local) :=
  let symno := cursym.2
  let cursym := symreloc rel cursym.1
  let flags := P.link.flags
  if discards flags cursym.stype then .ok p
  else if cursym.stype &&& EXTERN = 0 then
    if !flags.sflag && !flags.xflag && (!flags.Xflag || cursym.sname.head? ≠ some 76) then
      .ok ({ p.1 with soutb := p.1.soutb ++ [cursym] }, p.2)
    else .ok p
  else
    match P.link.at? cursym.sname with
    | none => .error (.error "internal error: symbol not found")
    | some sp =>
        if cursym.stype = EXTERN + UNDEF then
          if NSYMPR ≤ p.2.length then .error (.error "Local symbol overflow")
          else .ok (p.1, p.2 ++ [(symno, sp)])
        else if P.link.symtab[sp]?.any fun sp =>
            cursym.stype ≠ sp.stype ∨ cursym.svalue ≠ sp.svalue then
          .ok ({ p.1 with errlev := 1, said := p.1.said ++ ["Multiply defined"] }, p.2)
        else .ok p

/-- The switch in `load2td` -/
def refer (P : Plan) (local_ : List Local) (rel : Rel) (t r : Word) : Except Fatal (Word × Word) :=
  if r &&& 0o16 = RTEXT then .ok (t + rel.ctrel, r)
  else if r &&& 0o16 = RDATA then .ok (t + rel.cdrel, r)
  else if r &&& 0o16 = RBSS then .ok (t + rel.cbrel, r)
  else if r &&& 0o16 = REXT then do
    let k ← lookloc local_ r
    match P.link.symtab[k]? with
    | none => return (t, r)
    | some sp =>
        if sp.stype = EXTERN + UNDEF then
          return (t, (r &&& (1 : Word)) + (UInt16.ofNat (P.nsym + k) <<< 4) + REXT)
        return (t + sp.svalue, (r &&& (1 : Word)) + ((sp.stype - (EXTERN + ABS)).toUInt16 <<< 1))
  else .ok (t, r)

/-- What `load2td` makes of a word and its relocation word. -/
def word (P : Plan) (local_ : List Local) (rel : Rel) (creloc : Word) (w : Word × Word) :
    Except Fatal (Word × Word) := do
  let (t, r) ← P.refer local_ rel w.1 w.2
  return (if r &&& 1 ≠ 0 then t - creloc else t, r)

/-- `load2td` -/
def load2td (P : Plan) (local_ : List Local) (rel : Rel) (creloc : Word) (l : List (Word × Word)) :
    Except Fatal (List (Word × Word)) := l.mapM (P.word local_ rel creloc)

/-- `mkfsym` -/
def mkfsym (P : Plan) (p : Load) (s : List UInt8) : Load :=
  if P.link.flags.sflag || P.link.flags.xflag then p
  else { p with soutb := p.soutb ++ [⟨cp8c s, 0o37, p.torigin⟩] }

/-- `ctrel`, `cdrel` and `cbrel` in `load2` -/
def rel (p : Load) (o : Object) : Rel :=
  ⟨p.torigin, p.dorigin - o.tsize, p.borigin - (o.tsize + o.dsize)⟩

/-- `mkfsym` and `load2` -/
def load2 (P : Plan) (p : Load) (name : List UInt8) (o : Object) : Except Fatal Load := do
  let rel := Plan.rel p o
  let (p, local_) ← o.symbols.zipIdx.foldlM (P.symbol rel) (P.mkfsym p name, [])
  let text ← P.load2td local_ rel rel.ctrel o.text
  let data ← P.load2td local_ rel rel.cdrel o.data
  return { p with
    toutb := p.toutb ++ text.map (·.1)
    doutb := p.doutb ++ data.map (·.1)
    troutb := if P.link.flags.rflag then p.troutb ++ text.map (·.2) else p.troutb
    droutb := if P.link.flags.rflag then p.droutb ++ data.map (·.2) else p.droutb
    torigin := p.torigin + o.tsize
    dorigin := p.dorigin + o.dsize
    borigin := p.borigin + o.bsize }

end Plan

/-- What the second pass loads of an argument, and what is left of `liblist`. -/
def chosen (liblist : List (Option ℕ)) : Arg → List (List UInt8 × Object) × List (Option ℕ)
  | .file name o => ([(name, o)], liblist)
  | .library a =>
      let locs := liblist.takeWhile (·.isSome)
      (locs.filterMap fun loc => (loc.bind (a.members[·]?)).map fun m => (m.aname, m.object),
        liblist.drop (locs.length + 1))
  | _ => ([], liblist)

/-- `load2arg`, for the arguments one after the other: what is loaded -/
def loads : List (Option ℕ) → List Arg → List (List UInt8 × Object)
  | _, [] => []
  | liblist, a :: argv =>
      let c := chosen liblist a
      c.1 ++ loads c.2 argv

/-- The header of the output. -/
structure Header where
  fmagic : Word
  tsize : Word
  dsize : Word
  bsize : Word
  ssize : Word
  entry : Word
  relflg : Bool

/-- The output, before `finishout` puts its parts together; `text` and `treloc` are filled up. -/
structure Output where
  header : Header
  text : List Word
  data : List Word
  treloc : List Word
  dreloc : List Word
  locals : List Symbol
  globals : List Symbol
  errlev : ℕ
  said : List String

/-- `setupout`: the header, and the link with what is said about the entry point -/
def setupout (s : Link) : Header × Link :=
  let ssize := if s.flags.sflag then 0 else s.ssize + symbolSize * UInt16.ofNat s.symtab.length
  let fmagic :=
    if s.flags.Oflag then 0o405 else if s.flags.iflag then 0o411
    else if s.flags.nflag then 0o410 else 0o407
  let header : Header := ⟨fmagic, s.tsize, s.dsize, s.bsize, ssize, 0, !s.flags.rflag⟩
  match s.entrypt.bind (s.symtab[·]?) with
  | none => (header, s)
  | some sp =>
      if sp.stype ≠ EXTERN + TEXT then (header, s.error 1 "Entry point not in text")
      else ({ header with entry := sp.svalue ||| 1 }, s)

/-- How many words `finishout` fills up. -/
def fill (torigin : Word) : ℕ := (64 - torigin.toNat % 64) % 64 / 2

/-- `finishout` -/
def finishout (P : Plan) (header : Header) (p : Load) : Output :=
  let flags := P.link.flags
  let zeros := List.replicate (if flags.nflag || flags.iflag then fill p.torigin else 0) 0
  { header
    text := p.toutb ++ zeros
    data := p.doutb
    treloc := if flags.rflag then p.troutb ++ zeros else []
    dreloc := p.droutb
    locals := if flags.sflag || flags.xflag then [] else p.soutb
    globals := if flags.sflag then [] else P.link.symtab
    errlev := p.errlev
    said := p.said }

/-- `endload`, with the second pass -/
def endload (s : Link) (argv : List Arg) : Except Fatal (Plan × Output) := do
  let P := s.middle
  let (header, link) := setupout P.link
  let P := { P with link }
  let p ← (loads link.liblist argv).foldlM (fun p o => P.load2 p o.1 o.2)
    ⟨0, P.dorigin, P.borigin, [], [], [], [], [], link.errlev, link.said⟩
  return (P, finishout P header p)

/-- `main` -/
def ld (limit : ℕ) (nil : UInt8) (argv : List Arg) : Except Fatal (Plan × Output) := do
  endload (← pass1 limit nil argv) argv

end Ld

end Micronix
