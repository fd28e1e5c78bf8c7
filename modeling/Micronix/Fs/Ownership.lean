import Micronix.Fs.FioSpec
import Micronix.Fs.ItruncSpec

/-!
# Block ownership over whole runs

Any sequence of reads, writes and truncations keeps a file system well formed: no block is at once
free and mapped, mapped twice, or lost.  The one way around the free list is a block special file
that names the device of the file system itself: writing it writes the blocks raw.
-/

namespace Micronix

open Bytes Super

/-- The arguments of a read or a write, in the machine's widths. -/
structure Xfer where
  count : UInt16
  offset : UInt32
  base : ℕ
  mem : Bytes

/-- `u.count`, `u.offset` and `u.base` set from the arguments. -/
def Xfer.io (x : Xfer) : Io := ⟨x.count.toNat, x.offset.toNat, x.base, x.mem⟩

/-- An operation on an inode. -/
inductive Op
  | iread (ip : ℕ) (x : Xfer)
  | iwrite (ip : ℕ) (x : Xfer)
  | itrunc (ip : ℕ)

/-- The inode an operation works on. -/
def Op.ip : Op → ℕ
  | iread ip _ | iwrite ip _ | itrunc ip => ip

/-- Run one operation; a system call starts with `u.error = 0`. -/
def Op.run (drv : CharDriver) (s : Sys) : Op → Sys
  | iread ip x => (Micronix.iread drv (s.setError none) ip x.io).2.1
  | iwrite ip x => (Micronix.iwrite drv (s.setError none) ip x.io).2.1
  | itrunc ip => Micronix.itrunc (s.setError none) ip

/-- Run operations one after another. -/
def runOps (drv : CharDriver) (s : Sys) (ops : List Op) : Sys := ops.foldl (Op.run drv) s

/-- No block special file gives raw access to the device. -/
def NoRaw (s : Sys) (dev : ℕ) : Prop := ∀ k, (s.ino k).fmt = .IFBLK → (s.ino k).addr 0 ≠ dev

/-- What no operation changes of an inode: its device, its type and, in a special file, the device
it names. -/
def SameKind (i i' : Inode) : Prop :=
  i'.dev = i.dev ∧ i'.fmt = i.fmt ∧ (i.fmt.iio = true → i'.addr = i.addr)

lemma SameKind.refl (i : Inode) : SameKind i i := ⟨rfl, rfl, fun _ => rfl⟩

lemma SameMap.sameKind {i i' : Inode} (h : SameMap i i') : SameKind i i' :=
  ⟨h.1, h.2.1, fun _ => h.2.2.2⟩

/-- Well formed, with the inodes of the kind they were. -/
structure Sound (s₀ : Sys) (dev : ℕ) (s : Sys) : Prop where
  wf : WellFormed s dev
  kind : ∀ k, SameKind (s₀.ino k) (s.ino k)

/-! ## Special files -/

lemma imap_iio {s : Sys} {ip log : ℕ} (h : (s.ino ip).fmt.iio = true) :
    imap s ip log = ((log, (log + 1) % 65536), s) := by
  simp [imap, h]

/-- Writing a special file changes blocks of the device it names and nothing else. -/
lemma iwriteLoop_raw {ip d : ℕ} : ∀ (fuel log into : ℕ) (s : Sys) (io : Io),
    (s.ino ip).fmt.iio = true →
      (iwriteLoop ip d fuel log into s io).1.ino = s.ino ∧
        ∀ d', d' ≠ d → (iwriteLoop ip d fuel log into s io).1.blk d' = s.blk d'
  | 0, _, _, _, _, _ => ⟨rfl, fun _ _ => rfl⟩
  | fuel + 1, log, into, s, io, h => by
      have hrest : ∀ (t : Sys) (io' : Io), t.ino = s.ino → (∀ d', d' ≠ d → t.blk d' = s.blk d') →
          (iwriteLoop ip d fuel ((log + 1) % 65536) 0 t io').1.ino = s.ino ∧
            ∀ d', d' ≠ d →
              (iwriteLoop ip d fuel ((log + 1) % 65536) 0 t io').1.blk d' = s.blk d' := by
        intro t io' hi hb
        obtain ⟨hi', hb'⟩ := iwriteLoop_raw fuel ((log + 1) % 65536) 0 t io' (by rw [hi]; exact h)
        exact ⟨hi'.trans hi, fun d' hd => (hb' d' hd).trans (hb d' hd)⟩
      have hput : ∀ (t : Sys) (b : Bytes), t.blk = s.blk → ∀ d', d' ≠ d →
          (t.put d log b).blk d' = s.blk d' := by
        intro t b hb d' hd
        rw [← hb]
        funext n
        exact Sys.put_blk_ne fun e => hd e.1
      unfold iwriteLoop
      rw [imap_iio h]
      dsimp only
      split_ifs
      · exact ⟨rfl, fun _ _ => rfl⟩
      · exact ⟨rfl, fun _ _ => rfl⟩
      · exact hrest _ _ rfl (hput _ _ rfl)
      · exact hrest _ _ rfl (hput _ _ rfl)

/-- Reading a special file changes nothing but `u.error`. -/
lemma ireadLoop_raw {ip d : ℕ} : ∀ (fuel log into : ℕ) (s : Sys) (io : Io),
    (s.ino ip).fmt.iio = true →
      (ireadLoop ip d fuel log into s io).1.ino = s.ino ∧
        (ireadLoop ip d fuel log into s io).1.blk = s.blk
  | 0, _, _, _, _, _ => ⟨rfl, rfl⟩
  | fuel + 1, log, into, s, io, h => by
      unfold ireadLoop
      rw [imap_iio h]
      dsimp only
      split_ifs
      · exact ⟨rfl, rfl⟩
      · exact ⟨rfl, rfl⟩
      · exact ireadLoop_raw fuel ((log + 1) % 65536) 0 (s.setError none) _ h

/-- Transfers to and from a special file leave the blocks of all other devices and all maps. -/
lemma iwrite_raw (drv : CharDriver) {s : Sys} {ip dev : ℕ} (io : Io)
    (h : (s.ino ip).fmt.iio = true) (hraw : (s.ino ip).fmt = .IFBLK → (s.ino ip).addr 0 ≠ dev) :
    (iwrite drv s ip io).2.1.blk dev = s.blk dev ∧
      ∀ k, SameMap (s.ino k) ((iwrite drv s ip io).2.1.ino k) := by
  have htouch : ∀ t : Sys, t.blk dev = s.blk dev → t.ino = s.ino → ∀ o,
      (touchWrite t ip o).blk dev = s.blk dev ∧
        ∀ k, SameMap (s.ino k) ((touchWrite t ip o).ino k) := by
    intro t hb hi o
    have ht := touchWrite_touched t ip o
    refine ⟨by rw [ht.blk, hb], fun k => ?_⟩
    have hm := ht.sameMap k
    rwa [hi] at hm
  by_cases h0 : io.count = 0
  · have hi : iwrite drv s ip io = (0, s, io) := by simp [iwrite, h0]
    rw [hi]
    exact ⟨rfl, fun _ => .refl _⟩
  · by_cases hchr : (s.ino ip).fmt = .IFCHR
    · simp only [iwrite, h0, hchr, if_true, if_false]
      exact htouch _ rfl rfl _
    · simp only [iwrite, h0, hchr, if_false]
      have hdev : ioDev (s.ino ip) = (s.ino ip).addr 0 := by rw [ioDev, if_pos h]
      have hfmt : (s.ino ip).fmt = .IFBLK := by
        cases hf : (s.ino ip).fmt <;> simp_all [Ifmt.iio]
      obtain ⟨hi, hb⟩ := iwriteLoop_raw (d := ioDev (s.ino ip)) io.count
        (io.offset / 512 % 65536) (io.offset % 512) s io h
      refine htouch _ (hb dev ?_) hi _
      rw [hdev]
      exact (hraw hfmt).symm

lemma iread_raw (drv : CharDriver) {s : Sys} {ip : ℕ} (io : Io)
    (h : (s.ino ip).fmt.iio = true) :
    (iread drv s ip io).2.1.blk = s.blk ∧
      ∀ k, SameMap (s.ino k) ((iread drv s ip io).2.1.ino k) := by
  have htouch : ∀ t : Sys, t.blk = s.blk → t.ino = s.ino →
      (touchRead t ip).blk = s.blk ∧ ∀ k, SameMap (s.ino k) ((touchRead t ip).ino k) := by
    intro t hb hi
    have ht := touchRead_touched t ip
    refine ⟨by rw [ht.blk, hb], fun k => ?_⟩
    have hm := ht.sameMap k
    rwa [hi] at hm
  rcases iread_state drv s ip io with e | ⟨-, _, e⟩ | ⟨q, e⟩
  · rw [e]
    exact ⟨rfl, fun _ => .refl _⟩
  · rw [e]
    exact htouch _ rfl rfl
  · obtain ⟨hi, hb⟩ := ireadLoop_raw (d := ioDev (s.ino ip)) q (io.offset / 512 % 65536)
      (io.offset % 512) s { io with count := q } h
    rw [e]
    exact htouch _ hb hi

/-! ## One operation and whole runs -/

section Run

variable {s₀ s s' : Sys} {dev ip : ℕ}

/-- The maps stay. -/
lemma Sound.sameMap (h : Sound s₀ dev s) (hm : ∀ k, SameMap (s.ino k) (s'.ino k))
    (hb : s'.blk dev = s.blk dev) : Sound s₀ dev s' := by
  obtain ⟨⟨L, ho⟩, hk⟩ := h
  refine ⟨⟨L, ho.ino hb hm⟩, fun k => ⟨(hm k).1.trans (hk k).1, (hm k).2.1.trans (hk k).2.1, ?_⟩⟩
  exact fun hi => (hm k).2.2.2.trans ((hk k).2.2 hi)

/-- Of a file with a block map the addresses may change. -/
lemma Sound.mapped (h : Sound s₀ dev s) (hio : (s.ino ip).fmt.iio = false)
    (hw : WellFormed s' dev) (hoth : ∀ k, k ≠ ip → s'.ino k = s.ino k)
    (hdev : (s'.ino ip).dev = (s.ino ip).dev) (hfmt : (s'.ino ip).fmt = (s.ino ip).fmt) :
    Sound s₀ dev s' := by
  refine ⟨hw, fun k => ?_⟩
  by_cases hk : k = ip
  · subst hk
    refine ⟨hdev.trans (h.kind k).1, hfmt.trans (h.kind k).2.1, fun hi => ?_⟩
    rw [← (h.kind k).2.1, hio] at hi
    exact absurd hi (by simp)
  · rw [hoth k hk]
    exact h.kind k

lemma Sound.noRaw (h : Sound s₀ dev s) (hraw : NoRaw s₀ dev) : NoRaw s dev := by
  intro k hf
  have hf0 : (s₀.ino k).fmt = .IFBLK := by rw [← (h.kind k).2.1, hf]
  rw [(h.kind k).2.2 (by rw [hf0]; rfl)]
  exact hraw k hf0

/-- **One operation** keeps a file system well formed: one case for each kind of operation, and
in each one for special files and one for files with a block map. -/
theorem Sound.run (drv : CharDriver) (h : Sound s₀ dev s) (hraw : NoRaw s₀ dev) (op : Op)
    (hop : (s₀.ino op.ip).dev = dev) : Sound s₀ dev (op.run drv s) := by
  have hd : (s.ino op.ip).dev = dev := by rw [(h.kind op.ip).1, hop]
  have hraw' := h.noRaw hraw
  have he : Sound s₀ dev (s.setError none) := h.sameMap (fun _ => .refl _) rfl
  obtain ⟨L, ho⟩ := he.wf
  cases op with
  | iread ip x =>
      by_cases hio : (s.ino ip).fmt.iio = true
      · obtain ⟨hb, hm⟩ := iread_raw drv (s := s.setError none) x.io hio
        exact he.sameMap hm (congrFun hb dev)
      · have hio' : (s.ino ip).fmt.iio = false := by simpa using hio
        obtain ⟨hw, hoth, hdev, hfmt, -⟩ := iread_owned drv x.io ho hd hio' rfl
          x.offset.toNat_lt
        exact he.mapped hio' hw hoth (hdev.trans hd.symm) hfmt
  | iwrite ip x =>
      by_cases hio : (s.ino ip).fmt.iio = true
      · obtain ⟨hb, hm⟩ := iwrite_raw drv (s := s.setError none) x.io hio (hraw' ip)
        exact he.sameMap hm hb
      · have hio' : (s.ino ip).fmt.iio = false := by simpa using hio
        obtain ⟨n, -, -, -, hw, hoth, hdev, hfmt, -⟩ := iwrite_spec drv x.io ho hd
          hio' rfl x.offset.toNat_lt
        exact he.mapped hio' hw hoth (hdev.trans hd.symm) hfmt
  | itrunc ip =>
      by_cases hio : (s.ino ip).fmt.iio = true
      · have hrun : Op.run drv s (.itrunc ip) = s.setError none := by
          have hio' : ((s.setError none).ino ip).fmt.iio = true := hio
          simp only [Op.run, Micronix.itrunc, hio', if_true]
        rw [hrun]
        exact he
      · have hio' : (s.ino ip).fmt.iio = false := by simpa using hio
        obtain ⟨hw, -, hself, hoth, -⟩ := itrunc_spec ho hd hio'
        refine he.mapped hio' hw hoth ?_ ?_
        · exact (congrArg Inode.dev hself).trans rfl
        · exact (congrArg Inode.fmt hself).trans rfl

/-- The run lemma. -/
lemma Sound.runOps (drv : CharDriver) (hraw : NoRaw s₀ dev) : ∀ (ops : List Op) (s : Sys), Sound s₀ dev s →
    (∀ op ∈ ops, (s₀.ino op.ip).dev = dev) → Sound s₀ dev (runOps drv s ops)
  | [], _, h, _ => h
  | op :: ops, s, h, hops => by
      have h1 := h.run drv hraw op (hops op List.mem_cons_self)
      exact Sound.runOps drv hraw ops (op.run drv s) h1
        fun op' hm => hops op' (List.mem_cons_of_mem op hm)

end Run

lemma smallDisk_place (fmt : Ifmt) (h : ∀ n, addrVal ((smallDisk fmt).ino 0) n = 0) :
    place (smallDisk fmt) 0 = fun _ => 0 := by
  funext ⟨ip, q⟩
  have hd : ((smallDisk fmt).ino ip).dev = 0 := rfl
  rw [place_of_dev hd]
  cases q with
  | addr n => exact h n
  | ind n k => rfl
  | dbl k j => rfl

lemma smallDisk_addrVal (fmt : Ifmt) (n : ℕ) : addrVal ((smallDisk fmt).ino 0) n = 0 := by
  unfold addrVal
  split_ifs <;> rfl

/-- The small device is well formed: its one block is free. -/
lemma smallDisk_owned (fmt : Ifmt) : Owned (smallDisk fmt) 0 [2] ∅ := by
  have hpl := smallDisk_place fmt (smallDisk_addrVal fmt)
  refine ⟨smallDisk_freeList fmt, ?_⟩
  rw [hpl]
  have hkept := smallDisk_kept fmt
  constructor
  · exact fun h0 => absurd ((smallDisk_inRange fmt 0).mp h0) (by decide)
  · exact hkept.1
  · exact hkept.2
  · exact fun b hb => absurd hb (Set.notMem_empty b)
  · exact fun x hx => absurd rfl hx
  · exact fun b _ => Set.notMem_empty b
  · exact fun x hx => absurd rfl hx
  · exact fun x hx => absurd rfl hx
  · exact fun x _ hx => absurd rfl hx
  · intro b hb
    rw [(smallDisk_inRange fmt b).mp hb]
    exact Or.inl (by simp)

/-- A driver that moves nothing. -/
def nullDriver : CharDriver := ⟨fun _ io => (io, none), fun _ io => (io, none)⟩

end Micronix
