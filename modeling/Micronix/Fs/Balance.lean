import Micronix.Fs.Buffers
import Micronix.Lib.Ensures

/-!
# Who lets go of which buffer

The allocators release every buffer that they take, with one exception: `balloc` keeps the
superblock when it is mounted read-only.  So do the routines that come to a `balloc`, and `imap`
comes to one when a block is missing on its way.
-/

namespace Micronix.Kern

open Bytes Super

variable {w w' : Kern} {dev d bn n ip : ℕ} {b : Bytes}

/-! ## The primitives -/

@[simp] lemma put_held : (w.put dev n b).held = w.held := rfl
@[simp] lemma put_ilist : (w.put dev n b).ilist = w.ilist := rfl
@[simp] lemma setError_held {e : ℕ} : (w.setError e).held = w.held := rfl
@[simp] lemma modify_held {f : Incore → Incore} : (w.modify ip f).held = w.held := rfl
@[simp] lemma modify_sb {f : Incore → Incore} : (w.modify ip f).sb = w.sb := rfl
@[simp] lemma ilock_held {i : ℕ} : (w.ilock i).held = w.held := rfl
@[simp] lemma irelse_held {i : ℕ} : (w.irelse i).held = w.held := rfl
@[simp] lemma brelse_held : (w.brelse dev n).held = w.held.erase (dev, n) := rfl
@[simp] lemma bdwrite_held : (w.bdwrite dev n).held = w.held.erase (dev, n) := rfl
@[simp] lemma bawrite_held : (w.bawrite dev n).held = w.held.erase (dev, n) := rfl
@[simp] lemma brelse_ilist : (w.brelse dev n).ilist = w.ilist := rfl
@[simp] lemma bdwrite_ilist : (w.bdwrite dev n).ilist = w.ilist := rfl
@[simp] lemma bawrite_ilist : (w.bawrite dev n).ilist = w.ilist := rfl

lemma put_sb : (w.put dev n b).sb d = if d = dev ∧ n = 1 then b else w.sb d := by
  simp only [sb, put, eq_comm (a := n)]

/-- No superblock changes from read-only to writable or back. -/
def SameLocks (w w' : Kern) : Prop := ∀ d, flock (w'.sb d) = flock (w.sb d)

lemma SameLocks.refl (w : Kern) : SameLocks w w := fun _ => rfl

lemma SameLocks.trans {w'' : Kern} (h : SameLocks w w') (h' : SameLocks w' w'') :
    SameLocks w w'' := fun d => (h' d).trans (h d)

/-- Storing another block. -/
lemma sameLocks_put (h : n ≠ 1) : SameLocks w (w.put dev n b) := by
  intro d
  rw [put_sb, if_neg fun hc => h hc.2]

/-- Storing a superblock that differs in its lists only. -/
lemma sameLocks_putSb (h : b 408 = w.sb dev 408) : SameLocks w (w.put dev 1 b) := by
  intro d
  rw [put_sb]
  split
  · rename_i hd
    rw [hd.1, flock, flock, h]
  · rfl

lemma setWord_flock {v : ℕ} (hn : n < 204) : setWord b n v 408 = b 408 := by
  rw [setWord, if_neg (by omega), if_neg (by omega)]

@[simp] lemma setNfree_flock {v : ℕ} : setNfree b v 408 = b 408 := setWord_flock (by omega)

/-- A buffer is taken that the process has not. -/
lemma bget_spec : Ensures (w.bget dev n) fun w' =>
    (dev, n) ∉ w.held ∧ w' = { w with held := insert (dev, n) w.held } := by
  rw [bget]
  exact .ite (fun _ => .none) fun h => .some ⟨h, rfl⟩

/-- `bread` takes the buffer if it returns it. -/
lemma bread_spec : Ensures (w.bread dev n) fun r => (dev, n) ∉ w.held ∧ ∃ e,
    w.ok w.reads = true ∧ r = (true, { w with
      held := insert (dev, n) w.held, error := e, reads := w.reads + 1 }) ∨
    w.ok w.reads = false ∧ r = (false, { w with error := e, reads := w.reads + 1 }) := by
  refine .map (bget_spec.mono ?_)
  rintro w' ⟨hn, rfl⟩
  cases hok : w.ok w.reads with
  | true => exact ⟨hn, 0, Or.inl ⟨rfl, rfl⟩⟩
  | false =>
      refine ⟨hn, eio, Or.inr ⟨rfl, ?_⟩⟩
      simp [brelse, Finset.erase_insert hn]

lemma getsb_spec : Ensures (w.getsb dev) fun w' => (dev, 1) ∉ w.held ∧ ∃ e, w' = { w with
    held := insert (dev, 1) w.held, error := e, reads := w.reads + 1 } := by
  refine bread_spec.bind ?_
  rintro r ⟨hn, e, ⟨-, rfl⟩ | ⟨-, rfl⟩⟩
  · exact .some ⟨hn, e, rfl⟩
  · exact .none

/-! ## `balloc.c` -/

/-- Nothing is kept and nothing becomes read-only. -/
structure Quiet (w w' : Kern) : Prop where
  held : w'.held = w.held
  locks : SameLocks w w'

lemma Quiet.trans {w'' : Kern} (h : Quiet w w') (h' : Quiet w' w'') : Quiet w w'' :=
  ⟨h'.held.trans h.held, h.locks.trans h'.locks⟩

/-- `balloc` on a file system that is mounted read-only. -/
lemma balloc_rofs (h : flock (w.sb dev) = true) : Ensures (w.balloc dev) fun r =>
    r.1 = 0 ∧ (dev, 1) ∉ w.held ∧
      r.2 = { w with held := insert (dev, 1) w.held, error := erofs, reads := w.reads + 1 } := by
  refine getsb_spec.bind ?_
  rintro w1 ⟨hn, e, rfl⟩
  refine .ite (fun _ => .some ⟨rfl, hn, rfl⟩) fun hf => absurd h hf

/-- The exits of `balloc` without a block. -/
lemma ballocBad_quiet (hn : (dev, 1) ∉ w.held) (hheld : w'.held = insert (dev, 1) w.held)
    (hs : SameLocks w w') : Quiet w (w'.ballocBad dev).2 := by
  refine ⟨?_, hs.trans (sameLocks_putSb (by simp))⟩
  show w'.held.erase (dev, 1) = w.held
  rw [hheld, Finset.erase_insert hn]

/-- The exit of `balloc` with a block, which is not the superblock: that is in a buffer. -/
lemma ballocTake_quiet (hn : (dev, 1) ∉ w.held) (hbn : (dev, bn) ∉ insert (dev, 1) w.held)
    (hheld : w'.held = insert (dev, bn) (insert (dev, 1) w.held)) (hs : SameLocks w w') :
    Quiet w (w'.ballocTake dev bn).2 ∧ bn ≠ 1 := by
  have h1 : bn ≠ 1 := by
    rintro rfl
    exact hbn (Finset.mem_insert_self _ _)
  refine ⟨⟨?_, hs.trans (sameLocks_put h1)⟩, h1⟩
  show (w'.held.erase (dev, bn)).erase (dev, 1) = w.held
  rw [hheld, Finset.erase_insert hbn, Finset.erase_insert hn]

/-- `balloc` on a file system that is not. -/
lemma balloc_quiet (h : flock (w.sb dev) = false) : Ensures (w.balloc dev) fun r =>
    Quiet w r.2 ∧ r.2.ilist = w.ilist ∧ r.1 ≠ 1 ∧ (dev, 1) ∉ w.held := by
  refine getsb_spec.bind ?_
  rintro w1 ⟨hn, e, rfl⟩
  refine .ite (fun hf => ?_) fun hf => ?_
  · cases h.symm.trans hf
  have hbad : ∀ w2 : Kern, w2.held = insert (dev, 1) w.held → SameLocks w w2 →
      w2.ilist = w.ilist → Quiet w (w2.ballocBad dev).2 ∧ (w2.ballocBad dev).2.ilist = w.ilist ∧
        (w2.ballocBad dev).1 ≠ 1 ∧ (dev, 1) ∉ w.held :=
    fun w2 hheld hs hil => ⟨ballocBad_quiet hn hheld hs, hil, Nat.zero_ne_one, hn⟩
  have htake : ∀ (w2 : Kern) (bn : ℕ), (dev, bn) ∉ insert (dev, 1) w.held →
      w2.held = insert (dev, bn) (insert (dev, 1) w.held) → SameLocks w w2 →
      w2.ilist = w.ilist → Quiet w (w2.ballocTake dev bn).2 ∧
        (w2.ballocTake dev bn).2.ilist = w.ilist ∧ (w2.ballocTake dev bn).1 ≠ 1 ∧
        (dev, 1) ∉ w.held := by
    intro w2 bn hbn hheld hs hil
    obtain ⟨hq, h1⟩ := ballocTake_quiet hn hbn hheld hs
    exact ⟨hq, hil, h1, hn⟩
  refine .ite (fun _ => .some (hbad _ rfl (fun _ => rfl) rfl)) fun _ => ?_
  -- the entry is taken off the list
  have hsame : SameLocks w (w.put dev 1 (setNfree (w.sb dev) (nfree (w.sb dev) - 1))) :=
    sameLocks_putSb (by simp)
  refine .ite (fun _ => .some (hbad _ rfl (fun d => hsame d) rfl)) fun _ => ?_
  refine .ite (fun _ => ?_) fun _ => ?_
  · refine bread_spec.bind ?_
    rintro r ⟨hbn, e3, ⟨-, rfl⟩ | ⟨-, rfl⟩⟩
    · exact .some (htake _ _ hbn rfl (SameLocks.trans (fun d => hsame d)
        (sameLocks_putSb (copyBytes_outside (Or.inr (by omega))))) rfl)
    · exact .some (hbad _ rfl (fun d => hsame d) rfl)
  · refine bget_spec.bind ?_
    rintro w3 ⟨hbn, rfl⟩
    exact .some (htake _ _ hbn rfl (fun d => hsame d) rfl)

/-- **`bfree`** releases what it takes. -/
lemma bfree_quiet : Ensures (w.bfree bn dev) fun w' => Quiet w w' ∧ w'.ilist = w.ilist := by
  refine .ite (fun _ => .some ⟨⟨rfl, fun _ => rfl⟩, rfl⟩) fun _ => getsb_spec.bind ?_
  rintro w1 ⟨hn, e, rfl⟩
  -- the superblock, changed in its lists, is released
  have hend : ∀ (w2 : Kern) (b : Bytes), w2.held = insert (dev, 1) w.held → SameLocks w w2 →
      w2.ilist = w.ilist → b 408 = w.sb dev 408 →
      Quiet w ((w2.put dev 1 b).bdwrite dev 1) ∧ ((w2.put dev 1 b).bdwrite dev 1).ilist = w.ilist := by
    intro w2 b hheld hs hil hb
    refine ⟨⟨?_, fun d => ?_⟩, hil⟩
    · rw [bdwrite_held, put_held, hheld, Finset.erase_insert hn]
    · show flock ((w2.put dev 1 b).sb d) = _
      rw [put_sb]
      split
      · rename_i hd
        rw [flock, hb, hd.1, flock]
      · exact hs d
  refine .ite (fun _ => .some ⟨⟨Finset.erase_insert hn, fun _ => rfl⟩, rfl⟩) fun _ => ?_
  refine .ite (fun _ => .some (hend _ _ rfl (fun _ => rfl) rfl ?_)) fun _ => ?_
  · simp only [setNfree_flock, setFree]
    rw [setWord_flock (by omega), setNfree_flock, setWord_flock (by omega)]
    rfl
  refine .ite (fun _ => bget_spec.bind ?_) fun _ => .some (hend _ _ rfl (fun _ => rfl) rfl ?_)
  · rintro w2 ⟨hbn, rfl⟩
    have h1 : bn ≠ 1 := by
      rintro rfl
      exact hbn (Finset.mem_insert_self _ _)
    refine .some (hend _ _ (Finset.erase_insert hbn) (fun d => sameLocks_put h1 d) rfl ?_)
    simp only [setNfree_flock, setFree]
    rw [setWord_flock (by omega), setNfree_flock]
    show (w.put dev bn _).sb dev 408 = _
    rw [put_sb, if_neg fun hc => h1 hc.2]
  · rw [setNfree_flock, setFree, setWord_flock (by omega)]
    rfl

/-! ## `imap.c` on a file system that is not read-only -/

/-- `p` is an entry of an inode, or a word of a block of the device that is in a buffer. -/
def InBuffer (w : Kern) (dev : ℕ) : Slot → Prop
  | .addr _ _ => True
  | .word d n _ => d = dev ∧ (dev, n) ∈ w.held

/-- The devices of the inodes do not change. -/
def SameDevs (w w' : Kern) : Prop := ∀ i, (w'.ilist.slot i).dev = (w.ilist.slot i).dev

lemma SameDevs.of_ilist (h : w'.ilist = w.ilist) : SameDevs w w' := by
  intro i
  rw [h]

lemma modify_devs {a : ℕ} {f : Incore → Incore} (hf : ∀ x, (f x).dev = x.dev) :
    SameDevs w (w.modify a f) := by
  intro i
  simp only [modify, Ilist.modSlot, Function.update_apply]
  split
  · rename_i hi
    rw [hf, hi]
  · rfl

/-- `plug` -/
lemma plug_quiet {p : Slot} (h : flock (w.sb dev) = false) (hp : w.InBuffer dev p) :
    Ensures (w.plug p dev) fun r => Quiet w r.2 ∧ SameDevs w r.2 := by
  refine (balloc_quiet h).bind ?_
  rintro ⟨bn, w1⟩ ⟨hq, hil, -, hn⟩
  refine .ite (fun _ => .some ⟨hq, .of_ilist hil⟩) fun _ => .ite (fun _ => .some ?_) fun _ => ?_
  · cases p with
    | addr i k =>
        refine ⟨⟨hq.held, hq.locks⟩, fun j => ?_⟩
        exact (modify_devs (f := fun x => x.setAddr k bn) (fun _ => rfl) j).trans
          (SameDevs.of_ilist hil j)
    | word d k j =>
        obtain ⟨rfl, hk⟩ := hp
        have h1 : k ≠ 1 := by
          rintro rfl
          exact hn hk
        exact ⟨⟨hq.held, hq.locks.trans (sameLocks_put h1)⟩, .of_ilist hil⟩
  · refine bfree_quiet.bind fun w2 ⟨hq2, hil2⟩ => .some ⟨hq.trans hq2, .of_ilist ?_⟩
    exact hil2.trans hil

lemma imapiPlug_quiet (h : flock (w.sb (w.ilist.slot ip).dev) = false) :
    Ensures (w.imapiPlug ip n) (Quiet w) := by
  refine .ite (fun _ => ?_) fun _ => .some ⟨rfl, fun _ => rfl⟩
  refine (plug_quiet (p := .addr ip n) h trivial).bind fun ⟨plugged, w1⟩ ⟨hq, _⟩ => .some ?_
  cases plugged with
  | false => exact hq
  | true => exact ⟨hq.held, hq.locks⟩

lemma imapi_quiet (h : flock (w.sb (w.ilist.slot ip).dev) = false) :
    Ensures (w.imapi ip n) fun r => Quiet w r.2 :=
  (imapiPlug_quiet h).bind fun _ hq => .some hq

/-- The buffer of the indirect block is released. -/
lemma imapbPlug_quiet {ind : ℕ} (h : flock (w.sb dev) = false) (hind : (dev, ind) ∈ w.held) :
    Ensures (w.imapbPlug ind n dev) fun w' => w'.held = w.held.erase (dev, ind) ∧ SameLocks w w' := by
  refine .ite (fun _ => ?_) fun _ => .some ⟨rfl, fun _ => rfl⟩
  refine (plug_quiet (p := .word dev ind n) h ⟨rfl, hind⟩).bind fun ⟨plugged, w1⟩ ⟨hq, _⟩ => .some ?_
  have hheld : (w1.brelse dev ind).held = w.held.erase (dev, ind) := by rw [brelse_held, hq.held]
  cases plugged with
  | false => exact ⟨hheld, hq.locks⟩
  | true => exact ⟨hheld, hq.locks⟩

lemma imapb_quiet {ind : ℕ} (h : flock (w.sb dev) = false) :
    Ensures (w.imapb ind n dev) fun r => Quiet w r.2 := by
  refine .ite (fun _ => .some ⟨rfl, fun _ => rfl⟩) fun _ => bread_spec.bind ?_
  rintro r ⟨hind, e, ⟨-, rfl⟩ | ⟨-, rfl⟩⟩
  · refine Ensures.bind (imapbPlug_quiet h (Finset.mem_insert_self _ _)) ?_
    rintro w1 ⟨hheld, hs⟩
    exact .some ⟨hheld.trans (Finset.erase_insert hind), hs⟩
  · exact .some ⟨rfl, fun _ => rfl⟩

lemma toLarge_quiet (h : flock (w.sb dev) = false) :
    Ensures (w.toLarge ip dev) fun r => Quiet w r.2 ∧ SameDevs w r.2 := by
  refine (balloc_quiet h).bind ?_
  rintro ⟨bn, w1⟩ ⟨hq, hil, h1, -⟩
  refine .ite (fun _ => .some ⟨hq, .of_ilist hil⟩) fun _ => bget_spec.bind ?_
  rintro w2 ⟨hbn, rfl⟩
  refine .some ⟨⟨?_, ?_⟩, fun j => ?_⟩
  · show (insert (dev, bn) w1.held).erase (dev, bn) = w.held
    rw [Finset.erase_insert hbn, hq.held]
  · exact hq.locks.trans (sameLocks_put h1)
  · have h1 := modify_devs (w := w1) (a := ip) (f := fun x => x.zeroAddr.setAddr 0 bn)
      (fun _ => rfl)
    have h2 := modify_devs (w := w1.modify ip fun x => x.zeroAddr.setAddr 0 bn) (a := ip)
      (f := fun x => { x with node := setWord x.node 0 (x.mode ||| 4096), mod := true })
      (fun _ => rfl)
    exact (h2 j).trans ((h1 j).trans (SameDevs.of_ilist hil j))

lemma imapLarge_quiet {log : ℕ} (h : flock (w.sb dev) = false)
    (hdev : (w.ilist.slot ip).dev = dev) : Ensures (w.imapLarge ip log dev) fun r => Quiet w r.2 := by
  refine (imapi_quiet (hdev ▸ h)).bind fun ⟨ind, w1⟩ hq1 => ?_
  have h1 : flock (w1.sb dev) = false := (hq1.locks dev).trans h
  refine .ite (fun _ => (imapb_quiet h1).bind fun ⟨ind2, w2⟩ hq2 => ?_) fun _ =>
    (imapb_quiet h1).mono fun _ hq2 => hq1.trans hq2
  exact (imapb_quiet ((hq2.locks dev).trans h1)).mono fun _ hq3 => hq1.trans (hq2.trans hq3)

/-- `imap` -/
lemma imap_quiet {log : ℕ} (h : flock (w.sb (w.ilist.slot ip).dev) = false) :
    Ensures (w.imap ip log) fun r => Quiet w r.2 := by
  refine .ite (fun _ => .some ⟨rfl, fun _ => rfl⟩) fun _ => ?_
  refine .ite (fun _ => .some ⟨rfl, fun _ => rfl⟩) fun _ => ?_
  refine .ite (fun _ => imapLarge_quiet h rfl) fun _ => .ite (fun _ => imapi_quiet h) fun _ => ?_
  refine (toLarge_quiet h).bind fun ⟨ok, w1⟩ ⟨hq, hd⟩ => .ite (fun _ => ?_) fun _ => .some hq
  exact (imapLarge_quiet ((hq.locks _).trans h) (hd ip)).mono fun _ hq' => hq.trans hq'

/-! ## `imap.c` on a file system that is read-only -/

/-- The superblock stays busy. -/
def Leaks (w : Kern) (dev : ℕ) (w' : Kern) : Prop :=
  (dev, 1) ∉ w.held ∧ w'.held = insert (dev, 1) w.held

/-- There is no block at word `n` of the indirect block `ind`, which can be read. -/
def holeIn (w : Kern) (ind n dev reads : ℕ) : Bool :=
  decide (ind ≠ 0) && w.ok reads && word (w.blk dev ind) n == 0

/-- On its way to block `log`, in large addressing, `imap` comes to a place without a block. -/
def missingLarge (w : Kern) (ip log dev : ℕ) : Bool :=
  let a := (w.ilist.slot ip).addr (min (log / 256) 7)
  if 7 ≤ log / 256 then
    a == 0 || w.holeIn a (log / 256 - 7) dev w.reads ||
      w.ok w.reads && w.holeIn (word (w.blk dev a) (log / 256 - 7)) (log % 256) dev (w.reads + 1)
  else a == 0 || w.holeIn a (log % 256) dev w.reads

/-- On its way to block `log` of the inode, `imap` needs a new block first. -/
def missing (w : Kern) (ip log : ℕ) : Bool :=
  let x := w.ilist.slot ip
  if x.iio then false
  else if 32768 ≤ log then false
  else if x.larg then w.missingLarge ip log x.dev
  else if log < 8 then x.addr log == 0
  else true

lemma plug_rofs {p : Slot} (h : flock (w.sb dev) = true) : Ensures (w.plug p dev) fun r =>
    (dev, 1) ∉ w.held ∧ r = (false, { w with
      held := insert (dev, 1) w.held, error := erofs, reads := w.reads + 1 }) := by
  refine (balloc_rofs h).bind ?_
  rintro ⟨bn, w1⟩ ⟨h0, hn, rfl⟩
  exact .ite (fun _ => .some ⟨hn, rfl⟩) fun hc => absurd h0 hc

lemma imapi_rofs (h : flock (w.sb (w.ilist.slot ip).dev) = true) :
    Ensures (w.imapi ip n) fun r =>
      ((w.ilist.slot ip).addr n = 0 → r.1.1 = 0 ∧ w.Leaks (w.ilist.slot ip).dev r.2) ∧
      ((w.ilist.slot ip).addr n ≠ 0 → r.1.1 = (w.ilist.slot ip).addr n ∧ r.2 = w) := by
  by_cases h0 : (w.ilist.slot ip).addr n = 0
  · have hplug : Ensures (w.imapiPlug ip n) fun w' =>
        w'.ilist = w.ilist ∧ w.Leaks (w.ilist.slot ip).dev w' := by
      refine .ite (fun _ => (plug_rofs h).bind ?_) fun hc => absurd h0 hc
      rintro r ⟨hn, rfl⟩
      exact .some ⟨rfl, hn, rfl⟩
    refine hplug.bind fun w1 ⟨hil, hl⟩ => .some ⟨fun _ => ⟨?_, hl⟩, fun hc => absurd h0 hc⟩
    show (w1.ilist.slot ip).addr n = 0
    rw [hil]
    exact h0
  · have hplug : Ensures (w.imapiPlug ip n) fun w' => w' = w :=
      .ite (fun hc => absurd hc h0) fun _ => .some rfl
    refine hplug.bind ?_
    rintro w1 rfl
    exact .some ⟨fun hc => absurd hc h0, fun _ => ⟨rfl, rfl⟩⟩

/-- The buffer of the indirect block is released here, too. -/
lemma imapbPlug_rofs {ind : ℕ} (h : flock (w.sb dev) = true) :
    Ensures (w.imapbPlug ind n dev) fun w' =>
      (word (w.blk dev ind) n = 0 → (dev, 1) ∉ w.held ∧
        w'.held = (insert (dev, 1) w.held).erase (dev, ind) ∧ w'.blk = w.blk) ∧
      (word (w.blk dev ind) n ≠ 0 → w' = w.brelse dev ind) := by
  refine .ite (fun h0 => (plug_rofs h).bind ?_) fun h0 => .some ⟨fun hc => absurd hc h0, fun _ => rfl⟩
  rintro r ⟨hn, rfl⟩
  exact .some ⟨fun _ => ⟨hn, rfl, rfl⟩, fun hc => absurd h0 hc⟩

/-- What `imapb` returns. -/
def entry (w : Kern) (ind n dev reads : ℕ) : ℕ :=
  if ind = 0 then 0 else if w.ok reads then word (w.blk dev ind) n else 0

lemma imapb_rofs {ind : ℕ} (h : flock (w.sb dev) = true) : Ensures (w.imapb ind n dev) fun r =>
    (w.holeIn ind n dev w.reads = true → r.1.1 = 0 ∧ w.Leaks dev r.2) ∧
    (w.holeIn ind n dev w.reads = false → r.1.1 = w.entry ind n dev w.reads ∧ r.2.held = w.held ∧
      r.2.blk = w.blk ∧ r.2.ok = w.ok ∧ (ind ≠ 0 → r.2.reads = w.reads + 1)) := by
  refine .ite (fun h0 => .some ⟨?_, fun _ => ?_⟩) fun h0 => bread_spec.bind ?_
  · simp [holeIn, h0]
  · rw [entry, if_pos h0]
    exact ⟨rfl, rfl, rfl, rfl, fun hc => absurd h0 hc⟩
  rintro r ⟨hind, e, ⟨hok, rfl⟩ | ⟨hok, rfl⟩⟩
  · refine Ensures.bind (imapbPlug_rofs h) ?_
    rintro w1 ⟨hhole, hfull⟩
    refine .some ⟨fun hh => ?_, fun hh => ?_⟩
    · obtain ⟨-, hw⟩ : (ind ≠ 0 ∧ w.ok w.reads = true) ∧ word (w.blk dev ind) n = 0 := by
        simpa [holeIn] using hh
      obtain ⟨hn, hheld, hblk⟩ := hhole hw
      have hne : (dev, 1) ≠ (dev, ind) := fun hc => hn (Finset.mem_insert.mpr (Or.inl hc))
      refine ⟨?_, fun hc => hn (Finset.mem_insert_of_mem hc), ?_⟩
      · show word (w1.blk dev ind) n = 0
        rw [hblk]
        exact hw
      · rw [hheld, Finset.erase_insert_of_ne hne, Finset.erase_insert hind]
    · have hw : word (w.blk dev ind) n ≠ 0 := by
        simpa [holeIn, h0, hok] using hh
      obtain rfl := hfull hw
      rw [entry, if_neg h0, if_pos hok]
      exact ⟨rfl, Finset.erase_insert hind, rfl, rfl, fun _ => rfl⟩
  · refine .some ⟨?_, fun _ => ?_⟩
    · simp [holeIn, hok]
    · rw [entry, if_neg h0, hok]
      exact ⟨rfl, rfl, rfl, rfl, fun _ => rfl⟩

/-- In a state that differs in nothing that `imapb` looks at. -/
lemma holeIn_congr {ind reads : ℕ} (hb : w'.blk = w.blk) (ho : w'.ok = w.ok) :
    w'.holeIn ind n dev reads = w.holeIn ind n dev reads := by
  rw [holeIn, holeIn, hb, ho]

lemma imapb_zero : w.imapb 0 n dev = some ((0, 0), w) := rfl

lemma imapLarge_rofs {log : ℕ} (h : flock (w.sb dev) = true) (hdev : (w.ilist.slot ip).dev = dev) :
    Ensures (w.imapLarge ip log dev) fun r =>
      (w.missingLarge ip log dev = true → w.Leaks dev r.2) ∧
      (w.missingLarge ip log dev = false → r.2.held = w.held) := by
  refine (imapi_rofs (hdev ▸ h)).bind ?_
  rintro ⟨⟨ind, rap⟩, w1⟩ ⟨hhole, hfull⟩
  by_cases h0 : (w.ilist.slot ip).addr (min (log / 256) 7) = 0
  · -- what follows is given block 0 and does nothing
    obtain ⟨rfl, hl⟩ := hhole h0
    rw [hdev] at hl
    have hm : w.missingLarge ip log dev = true := by
      simp [missingLarge, h0]
    have hend : (w.missingLarge ip log dev = true → w.Leaks dev w1) ∧
        (w.missingLarge ip log dev = false → w1.held = w.held) := by
      rw [hm]
      exact ⟨fun _ => hl, nofun⟩
    exact .ite (fun _ => .some hend) fun _ => .some hend
  · obtain ⟨hind, hw1⟩ := hfull h0
    obtain rfl : w1 = w := hw1
    obtain rfl : ind = (w1.ilist.slot ip).addr (min (log / 256) 7) := hind
    refine .ite (fun h7 => ?_) fun h7 => ?_
    · have hm : w1.missingLarge ip log dev =
          (w1.holeIn ((w1.ilist.slot ip).addr (min (log / 256) 7)) (log / 256 - 7) dev w1.reads ||
            w1.ok w1.reads && w1.holeIn (word (w1.blk dev ((w1.ilist.slot ip).addr
              (min (log / 256) 7))) (log / 256 - 7)) (log % 256) dev (w1.reads + 1)) := by
        rw [missingLarge, if_pos h7, beq_eq_false_iff_ne.mpr h0, Bool.false_or]
      refine (imapb_rofs h).bind ?_
      rintro ⟨⟨ind2, rap2⟩, w2⟩ ⟨hhole2, hfull2⟩
      cases hh : w1.holeIn ((w1.ilist.slot ip).addr (min (log / 256) 7)) (log / 256 - 7) dev
          w1.reads with
      | true =>
          obtain ⟨rfl, hl⟩ := hhole2 hh
          rw [hh, Bool.true_or] at hm
          refine .some ?_
          rw [hm]
          exact ⟨fun _ => hl, nofun⟩
      | false =>
          obtain ⟨hind2, hheld, hblk, hok, hreads⟩ := hfull2 hh
          rw [hh, Bool.false_or] at hm
          cases hr : w1.ok w1.reads with
          | false =>
              -- the first of the two blocks cannot be read
              have hz : ind2 = 0 := by simpa [entry, h0, hr] using hind2
              rw [hr, Bool.false_and] at hm
              subst hz
              refine .some ?_
              rw [hm]
              exact ⟨nofun, fun _ => hheld⟩
          | true =>
              have hw : ind2 = word (w1.blk dev ((w1.ilist.slot ip).addr (min (log / 256) 7)))
                  (log / 256 - 7) := by simpa [entry, h0, hr] using hind2
              have hf2 : flock (w2.sb dev) = true := by
                rw [sb, hblk]
                exact h
              have hh2 : w2.holeIn ind2 (log % 256) dev w2.reads = w1.missingLarge ip log dev := by
                rw [hm, hr, Bool.true_and, holeIn_congr hblk hok, hreads h0, hw]
              refine (imapb_rofs hf2).mono fun r ⟨h3, h3'⟩ => ⟨fun hc => ?_, fun hc => ?_⟩
              · obtain ⟨-, hn, hl⟩ := h3 (hh2.trans hc)
                rw [hheld] at hn hl
                exact ⟨hn, hl⟩
              · exact (h3' (hh2.trans hc)).2.1.trans hheld
    · have hm : w1.missingLarge ip log dev = w1.holeIn ((w1.ilist.slot ip).addr (min (log / 256) 7))
          (log % 256) dev w1.reads := by
        rw [missingLarge, if_neg h7, beq_eq_false_iff_ne.mpr h0, Bool.false_or]
      rw [hm]
      exact (imapb_rofs h).mono fun r ⟨h2, h2'⟩ => ⟨fun hc => (h2 hc).2, fun hc => (h2' hc).2.1⟩

/-- `imap` -/
lemma imap_rofs {log : ℕ} (h : flock (w.sb (w.ilist.slot ip).dev) = true) :
    Ensures (w.imap ip log) fun r =>
      (w.missing ip log = true → w.Leaks (w.ilist.slot ip).dev r.2) ∧
      (w.missing ip log = false → r.2.held = w.held) := by
  refine .ite (fun hio => .some ?_) fun hio => ?_
  · simp [missing, hio]
  refine .ite (fun hlog => .some ?_) fun hlog => ?_
  · simp [missing, hlog]
  refine .ite (fun hl => ?_) fun hl => ?_
  · have hm : w.missing ip log = w.missingLarge ip log (w.ilist.slot ip).dev := by
      simp [missing, hio, hlog, hl]
    rw [hm]
    exact imapLarge_rofs h rfl
  refine .ite (fun h8 => ?_) fun h8 => ?_
  · have hm : w.missing ip log = ((w.ilist.slot ip).addr log == 0) := by
      simp [missing, hio, hlog, hl, h8]
    rw [hm]
    refine (imapi_rofs h).mono fun r ⟨h1, h2⟩ => ⟨fun hc => (h1 (eq_of_beq hc)).2, fun hc => ?_⟩
    rw [(h2 (beq_eq_false_iff_ne.mp hc)).2]
  · have hm : w.missing ip log = true := by
      simp [missing, hio, hlog, hl, h8]
    rw [hm]
    have hto : Ensures (w.toLarge ip (w.ilist.slot ip).dev) fun r =>
        r.1 = false ∧ w.Leaks (w.ilist.slot ip).dev r.2 := by
      refine (balloc_rofs h).bind ?_
      rintro ⟨bn, w1⟩ ⟨h0, hn, rfl⟩
      exact .ite (fun _ => .some ⟨rfl, hn, rfl⟩) fun hc => absurd h0 hc
    refine hto.bind ?_
    rintro ⟨ok, w1⟩ ⟨hok, hl⟩
    exact .ite (fun hc => by cases hok.symm.trans hc) fun _ => .some ⟨fun _ => hl, nofun⟩

/-! ## `iget.c` -/

/-- `iio` -/
lemma iio_held {write : Bool} {i : ℕ} : Ensures (w.iio write i) fun r => r.2.held = w.held := by
  refine Ensures.bind (P := fun _ => True) (fun _ _ => trivial) fun bad _ => ?_
  refine .ite (fun _ => .some rfl) fun _ => bread_spec.bind ?_
  rintro r ⟨hn, e, ⟨-, rfl⟩ | ⟨-, rfl⟩⟩
  · cases write with
    | false => exact .some (Finset.erase_insert hn)
    | true => exact .some (Finset.erase_insert hn)
  · exact .some rfl

/-- `isync` -/
lemma isync_held {left : ℕ} : ∀ {w : Kern}, Ensures (isync left w) fun w' => w'.held = w.held := by
  induction left with
  | zero => exact fun {_} => .some rfl
  | succ left ih =>
      intro w
      refine .ite (fun _ => ?_) fun _ => ih
      exact iio_held.bind fun ⟨_, w1⟩ h1 => ih.mono fun w2 h2 => h2.trans h1

lemma claim_held {i num : ℕ} : Ensures (w.claim i num dev) fun r => r.2.held = w.held := by
  refine iio_held.bind fun ⟨ok, w1⟩ h1 => ?_
  exact .ite (fun _ => .some h1) fun _ => .some h1

lemma writeBack_held {i : ℕ} : Ensures (w.writeBack i) fun r => r.2.held = w.held :=
  .ite (fun _ => iio_held) fun _ => .some rfl

/-- `iget` -/
lemma iget_held {fuel : ℕ} : ∀ {w : Kern} {num dev : ℕ},
    Ensures (iget fuel w num dev) fun r => r.2.held = w.held := by
  induction fuel with
  | zero => exact fun {_ _ _} => .none
  | succ fuel ih =>
      intro w num dev
      rw [iget]
      split
      · refine .ite (fun _ => .none) fun _ => ?_
        dsimp only
        split
        · exact ih
        · exact .some rfl
      · split
        · exact .some rfl
        · refine writeBack_held.bind fun ⟨ok, w1⟩ h1 => ?_
          exact .ite (fun _ => claim_held.mono fun _ h2 => h2.trans h1) fun _ => .some h1

/-! ## `ialloc.c` -/

lemma ifillLoop_held {itop limit : ℕ} : ∀ {iblk : ℕ} {w : Kern},
    Ensures (ifillLoop dev itop limit iblk w) fun r => r.2.held = w.held := by
  induction limit with
  | zero => exact fun {_ _} => .some rfl
  | succ limit ih =>
      intro iblk w
      refine bread_spec.bind ?_
      rintro r ⟨hn, e, ⟨-, rfl⟩ | ⟨-, rfl⟩⟩
      · refine .ite (fun _ => ?_) fun hc => absurd rfl hc
        refine .ite (fun _ => .some (Finset.erase_insert hn)) fun _ => ih.mono fun _ h => ?_
        exact h.trans (Finset.erase_insert hn)
      · exact ih

lemma ifill_held : Ensures (w.ifill dev) fun r => r.2.held = w.held := by
  refine isync_held.bind fun w1 h1 => ifillLoop_held.bind fun ⟨iblk, w2⟩ h2 => ?_
  exact .ite (fun _ => .some (h2.trans h1)) fun _ => .some (h2.trans h1)

lemma iallocLoop_held {fuel : ℕ} : ∀ {w : Kern},
    Ensures (iallocLoop dev fuel w) fun r => r.2.held = w.held := by
  induction fuel with
  | zero => exact fun {_} => .none
  | succ fuel ih =>
      intro w
      have hc : Ensures (w.candidates dev) fun r => r.2.held = w.held :=
        .ite (fun _ => ifill_held) fun _ => .some rfl
      refine hc.bind fun ⟨ok, w1⟩ h1 => .ite (fun _ => ?_) fun _ => .some h1
      refine iget_held.bind fun ⟨ip, w2⟩ h2 => ?_
      cases ip with
      | none => exact ih.mono fun _ h3 => h3.trans (h2.trans h1)
      | some ip =>
          refine .ite (fun _ => ih.mono fun _ h3 => ?_) fun _ => .some (h2.trans h1)
          exact h3.trans (h2.trans h1)

/-- `ialloc` -/
lemma ialloc_held {fuel : ℕ} : Ensures (w.ialloc dev fuel) fun r => r.2.held = w.held := by
  refine getsb_spec.bind ?_
  rintro w1 ⟨hn, e, rfl⟩
  refine iallocLoop_held.bind fun ⟨ip, w2⟩ h2 => .some ?_
  have hend : w2.held.erase (dev, 1) = w.held := by
    rw [h2]
    exact Finset.erase_insert hn
  cases ip with
  | none => exact hend
  | some ip => exact hend

/-- `ifree` -/
lemma ifree_held : Ensures (w.ifree ip) fun w' => w'.held = w.held := by
  refine getsb_spec.bind ?_
  rintro w1 ⟨hn, e, rfl⟩
  refine .some ?_
  dsimp only
  split
  · exact Finset.erase_insert hn
  · exact Finset.erase_insert hn

lemma indWords_held {f : Kern → ℕ → Option Kern} {ind : ℕ}
    (hf : ∀ w b, Ensures (f w b) fun w' => w'.held = w.held) {k : ℕ} :
    ∀ {w : Kern}, Ensures (indWords f ind dev k w) fun w' => w'.held = w.held := by
  induction k with
  | zero => exact fun {_} => .some rfl
  | succ k ih => exact fun {w} => (hf w _).bind fun w1 h1 => ih.mono fun _ h2 => h2.trans h1

/-- `indfree` -/
lemma indfree_held {level : ℕ} : ∀ (w : Kern) (ind : ℕ),
    Ensures (indfree dev level w ind) fun w' => w'.held = w.held := by
  induction level with
  | zero => exact fun w ind => .ite (fun _ => .some rfl) fun _ => bfree_quiet.mono fun _ h => h.1.held
  | succ level ih =>
      intro w ind
      refine .ite (fun _ => .some rfl) fun _ => bread_spec.bind ?_
      rintro r ⟨hn, e, ⟨-, rfl⟩ | ⟨-, rfl⟩⟩
      · refine (indWords_held ih).bind fun w1 h1 => bfree_quiet.mono fun _ h2 => ?_
        rw [h2.1.held, brelse_held, h1]
        exact Finset.erase_insert hn
      · exact .some rfl

lemma addrDown_held {f : Kern → ℕ → Option Kern}
    (hf : ∀ w b, Ensures (f w b) fun w' => w'.held = w.held) {n : ℕ} :
    ∀ {w : Kern}, Ensures (addrDown f ip n w) fun w' => w'.held = w.held := by
  induction n with
  | zero => exact fun {_} => .some rfl
  | succ n ih => exact fun {w} => (hf w _).bind fun w1 h1 => ih.mono fun _ h2 => h2.trans h1

/-- `itrunc` -/
lemma itrunc_held : Ensures (w.itrunc ip) fun w' => w'.held = w.held := by
  have hblocks : Ensures (w.freeBlocks ip) fun w' => w'.held = w.held := by
    refine .ite (fun _ => ?_) fun _ => addrDown_held fun _ _ => bfree_quiet.mono fun _ h => h.1.held
    exact (indfree_held _ _).bind fun w1 h1 =>
      (addrDown_held indfree_held).mono fun _ h2 => h2.trans h1
  exact .ite (fun _ => .some rfl) fun _ => hblocks.bind fun w1 h1 => .some h1

/-! ## The buffers that a process has -/

lemma Leaks.ne (h : w.Leaks dev w') : w'.held ≠ w.held := by
  rw [h.2]
  exact fun hc => h.1 (hc ▸ Finset.mem_insert_self _ _)

/-- **Buffer balance.**  `bfree`, `ialloc`, `ifree`, `itrunc` and `indfree` return with the buffers
that the process had; `balloc` does unless the superblock says read-only, and `imap` unless it does
and a block is missing on the way. -/
theorem buffer_balance (w : Kern) (dev bn ip log level fuel : ℕ) :
    (Ensures (w.balloc dev) fun r => r.2.held = w.held ↔ flock (w.sb dev) = false) ∧
    (Ensures (w.bfree bn dev) fun w' => w'.held = w.held) ∧
    (Ensures (w.ialloc dev fuel) fun r => r.2.held = w.held) ∧
    (Ensures (w.ifree ip) fun w' => w'.held = w.held) ∧
    (Ensures (w.imap ip log) fun r => r.2.held = w.held ↔
      ¬ (flock (w.sb (w.ilist.slot ip).dev) = true ∧ w.missing ip log = true)) ∧
    (Ensures (w.itrunc ip) fun w' => w'.held = w.held) ∧
    (Ensures (indfree dev level w bn) fun w' => w'.held = w.held) := by
  refine ⟨?_, bfree_quiet.mono fun _ h => h.1.held, ialloc_held, ifree_held, ?_, itrunc_held,
    indfree_held w bn⟩
  · cases hf : flock (w.sb dev) with
    | false => exact (balloc_quiet hf).mono fun r h => by simp [h.1.held]
    | true =>
        refine (balloc_rofs hf).mono fun r ⟨_, hn, hr⟩ => ?_
        have hl : w.Leaks dev r.2 := ⟨hn, by rw [hr]⟩
        simp [hl.ne]
  · cases hf : flock (w.sb (w.ilist.slot ip).dev) with
    | false => exact (imap_quiet hf).mono fun r h => by simp [h.held]
    | true =>
        refine (imap_rofs hf).mono fun r ⟨hm, hm'⟩ => ?_
        cases h : w.missing ip log with
        | false => simp [hm' h]
        | true => simp [(hm h).ne]

/-! ## A file system that is mounted read-only -/

/-- A superblock with one block in its free list, mounted read-only or not. -/
def tinySb (ronly : Bool) : Bytes :=
  setWord (setWord (setWord (fun k => if k = 408 ∧ ronly then 1 else 0) 1 64) 2 2) 4 40

/-- A machine with an empty file of small addressing on such a file system. -/
def tiny (ronly : Bool) : Kern where
  blk := fun _ n => if n = 1 then tinySb ronly else zero
  ilist := ⟨1, fun _ => Incore.zero, 0, fun _ => none, fun _ => .idle, fun _ => none,
    fun _ => none, fun _ => 0, none⟩
  lastiblock := 2
  error := 0
  seconds := 0
  stack := 0
  me := 1
  held := ∅
  ok := fun _ => true
  reads := 0

/-- Block 0 of the file is taken from the free list, and all buffers are released. -/
theorem buffer_balance_tiny : ∃ r, (tiny false).imap 0 0 = some r ∧ r.1.1 = 40 ∧ r.2.held = ∅ := by
  have hrun : ((tiny false).imap 0 0).map (fun r => r.1.1) = some 40 := by decide +kernel
  obtain ⟨r, hr, hbn⟩ := Option.map_eq_some_iff.mp hrun
  have h := (buffer_balance (tiny false) 0 0 0 0 0 0).2.2.2.2.1 r hr
  exact ⟨r, hr, hbn, h.mpr fun hc => by cases hc.1⟩

/-- On a file system that is mounted read-only `balloc`, and `imap` with it, return with the
superblock busy. -/
theorem balloc_keeps_superblock :
    ((tiny true).balloc 0).map (fun r => (r.1, r.2.error, r.2.held)) = some (0, erofs, {(0, 1)}) ∧
    ((tiny true).imap 0 0).map (fun r => (r.1.1, r.2.error, r.2.held)) =
      some (0, erofs, {(0, 1)}) := by
  decide +kernel

end Micronix.Kern
