import Micronix.Fs.Imap

/-!
# File i/o, `sys/fio.c`

`iread` and `iwrite` with the transfer parameters `u.count`, `u.offset` and `u.base` made explicit
(`Io`); `mem` is the memory that `u.base` points into.  A loop turn moves at least one byte, so
`u.count` turns are enough and the loops carry that bound; `ireadLoop_spec` and `iwriteLoop_spec`
show that they never run into it.

`aread` is left out: over a faithful array reading ahead does nothing.
-/

namespace Micronix

open Bytes

/-- The transfer parameters in the user structure, and the memory they refer to. -/
structure Io where
  count : ℕ
  offset : ℕ
  base : ℕ
  mem : Bytes

/-- `u.count -= n; u.offset += n; u.base += n`; `u.offset` has 32 bits. -/
def Io.advance (io : Io) (n : ℕ) : Io :=
  { io with
    count := io.count - n
    offset := (io.offset + n) % 4294967296
    base := io.base + n }

/-- `iomove(READ, data + into, n)` -/
def iomoveRead (io : Io) (data : Bytes) (into n : ℕ) : Io :=
  { io.advance n with mem := copyBytes data into io.mem io.base n }

/-- `iomove(WRITE, data + into, n)`: the buffer's contents and the parameters afterwards. -/
def iomoveWrite (io : Io) (data : Bytes) (into n : ℕ) : Bytes × Io :=
  (copyBytes io.mem io.base data into n, io.advance n)

/-- A character device driver: `cread` and `cwrite` move bytes between the device and memory, and
may set `u.error`. -/
structure CharDriver where
  cread : ℕ → Io → Io × Option Errno
  cwrite : ℕ → Io → Io × Option Errno

/-- The loop of `iread`. -/
def ireadLoop (ip dev : ℕ) : ℕ → ℕ → ℕ → Sys → Io → Sys × Io
  | 0, _, _, s, io => (s, io)
  | fuel + 1, log, into, s, io =>
      if io.count = 0 then (s, io)
      else
        let r := imap s ip log
        if r.2.error ≠ none then (r.2, io)
        else
          let nbytes := min io.count (512 - into)
          let s := r.2.setError none                -- bread
          let io := iomoveRead io (s.blk dev r.1.1) into nbytes
          ireadLoop ip dev fuel ((log + 1) % 65536) 0 s io

/-- The loop of `iwrite`. -/
def iwriteLoop (ip dev : ℕ) : ℕ → ℕ → ℕ → Sys → Io → Sys × Io
  | 0, _, _, s, io => (s, io)
  | fuel + 1, log, into, s, io =>
      if io.count = 0 then (s, io)
      else
        let r := imap s ip log
        if r.2.error ≠ none then (r.2, io)
        else
          let nbytes := min io.count (512 - into)
          -- a whole block is not read first
          let s := if nbytes = 512 then r.2 else r.2.setError none
          let w := iomoveWrite io (s.blk dev r.1.1) into nbytes
          iwriteLoop ip dev fuel ((log + 1) % 65536) 0 (s.put dev r.1.1 w.1) w.2

/-- `done:` of `iread` -/
def touchRead (s : Sys) (ip : ℕ) : Sys :=
  let i := s.ino ip
  if i.ironly then s else s.setIno ip { i with rtime := s.seconds, imod := true }

/-- `done:` of `iwrite`.  The size follows `u.offset`, however the loop ended. -/
def touchWrite (s : Sys) (ip : ℕ) (offset : ℕ) : Sys :=
  let i := s.ino ip
  let i := if i.size < offset then { i with size := offset } else i
  let i := if i.ironly then i else { i with mtime := s.seconds, imod := true }
  s.setIno ip i

/-- The device whose blocks are transferred. -/
def ioDev (i : Inode) : ℕ := if i.fmt.iio then i.addr 0 else i.dev

/-- `gap = ip->i_size - u.offset`, a difference in 32 bits. -/
def readGap (size offset : ℕ) : ℕ := (size + 4294967296 - offset) % 4294967296

/-- `iread(ip)`: the number of bytes read, the state and the transfer parameters.  `request` and
`u.count` are cut to what the file has left.  `gap` is signed, so the half from 2^31 on means past
the end, and so is `request`: a count of 32768 or more is never cut. -/
def iread (drv : CharDriver) (s : Sys) (ip : ℕ) (io : Io) : ℕ × Sys × Io :=
  if io.count = 0 then (0, s, io)
  else
    let i := s.ino ip
    if i.fmt = .IFCHR then
      let c := drv.cread (i.addr 0) io
      ((io.count + 65536 - c.1.count) % 65536, touchRead (s.setError c.2) ip, c.1)
    else if i.fmt ≠ .IFBLK ∧
        (readGap i.size io.offset = 0 ∨ readGap i.size io.offset ≥ 2147483648) then (0, s, io)
    else
      let gap := readGap i.size io.offset
      let request := if i.fmt ≠ .IFBLK ∧ io.count < 32768 ∧ gap < io.count then gap else io.count
      let io := { io with count := request }
      let r := ireadLoop ip (ioDev i) request (io.offset / 512 % 65536) (io.offset % 512) s io
      (request - r.2.count, touchRead r.1 ip, r.2)

/-- `iwrite(ip)`: the number of bytes written, the state and the transfer parameters. -/
def iwrite (drv : CharDriver) (s : Sys) (ip : ℕ) (io : Io) : ℕ × Sys × Io :=
  if io.count = 0 then (0, s, io)
  else
    let i := s.ino ip
    if i.fmt = .IFCHR then
      let c := drv.cwrite (i.addr 0) io
      ((io.count + 65536 - c.1.count) % 65536, touchWrite (s.setError c.2) ip c.1.offset, c.1)
    else
      let r := iwriteLoop ip (ioDev i) io.count (io.offset / 512 % 65536) (io.offset % 512) s io
      (io.count - r.2.count, touchWrite r.1 ip r.2.offset, r.2)

end Micronix
