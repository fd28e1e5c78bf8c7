import Micronix.Cache.Coherence
import Micronix.Cache.Errors
import Micronix.Cache.Safety
import Micronix.Cache.Solo
import Micronix.Cache.Steps
import Micronix.Cache.Tags
import Micronix.Cache.Uio
import Micronix.Dir.Entry
import Micronix.Dir.Links
import Micronix.Dir.Lookup
import Micronix.Dir.Search
import Micronix.Dir.Tree
import Micronix.Disas.Dorelocs
import Micronix.Disas.Symbols
import Micronix.Disas.Tracing
import Micronix.Edit.Buffer
import Micronix.Edit.Lines
import Micronix.Exec.Args
import Micronix.Exec.Bounds
import Micronix.Exec.Fit
import Micronix.Exec.Passing
import Micronix.Exec.Release
import Micronix.File.Counts
import Micronix.File.Exclusive
import Micronix.File.Table
import Micronix.File.Writers
import Micronix.Fs.Balance
import Micronix.Fs.Balloc
import Micronix.Fs.Buffers
import Micronix.Fs.Contents
import Micronix.Fs.Current
import Micronix.Fs.Disknode
import Micronix.Fs.Fetch
import Micronix.Fs.Fio
import Micronix.Fs.FioSpec
import Micronix.Fs.FreeList
import Micronix.Fs.Holes
import Micronix.Fs.Ialloc
import Micronix.Fs.Icache
import Micronix.Fs.Ifill
import Micronix.Fs.Imap
import Micronix.Fs.ImapSpec
import Micronix.Fs.Itrunc
import Micronix.Fs.ItruncSpec
import Micronix.Fs.Limit
import Micronix.Fs.Moves
import Micronix.Fs.Ownership
import Micronix.Fs.Place
import Micronix.Fs.Reads
import Micronix.Fs.Sync
import Micronix.Fs.Sys
import Micronix.Fslib.Blocks
import Micronix.Fslib.Bmap
import Micronix.Fslib.FreeList
import Micronix.Host.Alloc
import Micronix.Host.Bmap
import Micronix.Host.Caches
import Micronix.Host.Directory
import Micronix.Host.Filefree
import Micronix.Host.Filelink
import Micronix.Host.Icheck
import Micronix.Host.Library
import Micronix.Host.Maps
import Micronix.Host.Namei
import Micronix.Host.Putdir
import Micronix.Host.Reading
import Micronix.Host.Scan
import Micronix.Host.Skew
import Micronix.Host.Taken
import Micronix.Host.Unlink
import Micronix.Imdlib.Delta
import Micronix.Imdlib.Image
import Micronix.Imdlib.Merge
import Micronix.Imdlib.Sectors
import Micronix.Inode.Balance
import Micronix.Inode.Calls
import Micronix.Inode.Deadlock
import Micronix.Inode.Discipline
import Micronix.Inode.Exclusion
import Micronix.Inode.Identity
import Micronix.Inode.Iget
import Micronix.Inode.Locks
import Micronix.Inode.Modified
import Micronix.Inode.Mutex
import Micronix.Inode.Numbers
import Micronix.Inode.Order
import Micronix.Inode.Superblock
import Micronix.Inode.Uniqueness
import Micronix.Io.Arbitration
import Micronix.Io.Bus
import Micronix.Io.Deblock
import Micronix.Io.Floppy
import Micronix.Io.Pipe
import Micronix.Io.Service
import Micronix.Io.Winchester
import Micronix.Ld.Link
import Micronix.Ld.Linking
import Micronix.Ld.Middle
import Micronix.Ld.Passes
import Micronix.Ld.Symbols
import Micronix.Lib.Arbiter
import Micronix.Lib.Bytes
import Micronix.Lib.Carry
import Micronix.Lib.Circle
import Micronix.Lib.Circular
import Micronix.Lib.Ends
import Micronix.Lib.Ensures
import Micronix.Lib.Extent
import Micronix.Lib.Flag
import Micronix.Lib.Fuel
import Micronix.Lib.Lifo
import Micronix.Lib.Linked
import Micronix.Lib.Packed
import Micronix.Lib.Partition
import Micronix.Lib.Probing
import Micronix.Lib.Program
import Micronix.Lib.Replay
import Micronix.Lib.Search
import Micronix.Lib.Slots
import Micronix.Lib.Transition
import Micronix.Lib.Turns
import Micronix.Lib.Window
import Micronix.Lib.Writeback
import Micronix.Mem.Books
import Micronix.Mem.Coalesce
import Micronix.Mem.Failure
import Micronix.Mem.Isolation
import Micronix.Mem.Segments
import Micronix.Mem.Sharing
import Micronix.Mem.Swapio
import Micronix.Mem.Swapmap
import Micronix.Mem.Transfer
import Micronix.Mem.Transparent
import Micronix.Mem.Valid
import Micronix.Mounts.Calls
import Micronix.Mounts.Reload
import Micronix.Mounts.Restore
import Micronix.Obj.Format
import Micronix.Obj.Getwsreloc
import Micronix.Obj.Reloc
import Micronix.Obj.RoundTrip
import Micronix.Proc.Abort
import Micronix.Proc.Calls
import Micronix.Proc.Children
import Micronix.Proc.Exit
import Micronix.Proc.Fair
import Micronix.Proc.Family
import Micronix.Proc.Findout
import Micronix.Proc.Fork
import Micronix.Proc.Identity
import Micronix.Proc.Ledger
import Micronix.Proc.Orphan
import Micronix.Proc.Pids
import Micronix.Proc.Sched
import Micronix.Proc.Sigkill
import Micronix.Proc.Slist
import Micronix.Proc.Snooze
import Micronix.Proc.Table
import Micronix.Proc.Timeout
import Micronix.Proc.Wait
import Micronix.Proc.World
import Micronix.Sim.Backing
import Micronix.Sim.Harddisk
import Micronix.Sim.Mpz80
import Micronix.Sim.Pic
import Micronix.Sim.Seek
import Micronix.Sim.Seekfile
import Micronix.Sim.Signal
import Micronix.Sim.Usersim
import Micronix.Tty.Breaks
import Micronix.Tty.Chain
import Micronix.Tty.Cook
import Micronix.Tty.Fifo
import Micronix.Tty.Queue
import Micronix.Tty.Share
import Micronix.Tty.Tabs
