import ZCell.Bdev
import ZCell.LocalChannel

/-! spdk_bdev/bdev_zcell.c while a thread runs: the I/Os of its virtual disks go through the one local
channel of the thread's group, and the poller of the group completes them. -/
namespace ZCell.Bdev
open Bytes Messager Server Liboss Runs

/-- The types that `_bdev_zcell_submit_request` tells apart. -/
inductive IoType where
  | read
  | write
  | flush
  | reset
  | other
  deriving DecidableEq, Repr

/-- `enum spdk_bdev_io_status`. -/
inductive IoStatus where
  | failed
  | success
  deriving DecidableEq, Repr

/-- A call of `spdk_bdev_io_complete`. The operation is history. -/
structure Completion where
  bio : BitVec 64
  status : IoStatus
  op : Option Nat
  deriving DecidableEq, Repr

/-- An I/O that has become operation `op` of the channel. -/
structure Issued where
  op : Nat
  bio : BitVec 64
  disk : ZcellDisk
  io : BdevIo
  payload : List Byte
  deriving DecidableEq, Repr

/-- `zcell_channel_group` with its channel and the server behind it, the user data of the operations,
and the ids that the loop of the poller has still to go through. The last two fields are history. -/
structure Group where
  world : World
  userData : Nat → BitVec 64
  cpls : List Nat
  /-- The reads and writes that wait for `bdev_zcell_get_buf_cb`. -/
  waiting : List (BitVec 64 × Bool)
  completed : List Completion
  given : List (BitVec 64)
  issued : List Issued

def maxEventsPerPoll : Nat := 1024

/-- `bdev_zcell_group_create_cb`; the server is at `core`. -/
def Group.start (core : Nat) : Group where
  world := World.start .ipc [(core, 512)]
  userData _ := 0
  cpls := []
  waiting := []
  completed := []
  given := []
  issued := []

/-- The operation that the callback prepares. -/
def OssIo.call (c : OssIo) (payload : List Byte) : Call :=
  if c.isRead then .read2 c.buffer c.objId c.objOffset c.len
  else .write c.objId payload c.objOffset c.len

namespace Group

def crash (g : Group) (f : Fault) : Group := { g with world := g.world.crash f }

def complete (g : Group) (bio : BitVec 64) (status : IoStatus) (op : Option Nat) : Group :=
  { g with completed := g.completed ++ [⟨bio, status, op⟩] }

/-- `bdev_zcell_submit_request`. -/
def submitRequest (g : Group) (bio : BitVec 64) (type : IoType) : Group :=
  let g := { g with given := g.given ++ [bio] }
  match type with
  | .read => { g with waiting := g.waiting ++ [(bio, true)] }
  | .write => { g with waiting := g.waiting ++ [(bio, false)] }
  | .flush | .reset => g.complete bio .success none
  | .other => g.complete bio .failed none

/-- The callback from `io_read2` or `io_write` on. -/
def issue (h : Heap (List Byte)) (g : Group) (bio : BitVec 64) (disk : ZcellDisk) (io : BdevIo)
    (payload : List Byte) (c : OssIo) : Option Group :=
  (g.world.chans[c.stripeId]?).bind fun ch =>
    match ioCall ch.io (c.call payload) with
    | .error f => some (g.crash f)
    | .ok (rc, _) =>
      if rc < 0 then some (g.crash .assertion)
      else
        (calls h [.prepare c.stripeId (c.call payload), .submit c.stripeId [rc.toNat]] g.world).bind
          fun w =>
            -- a refused submission aborts
            if w.pc = .idle then some ({ g with world := w }.crash .assertion)
            else (calls h [.send, .send] w).map fun w => { g with
              world := w
              userData := Function.update g.userData rc.toNat bio
              issued := g.issued ++ [⟨g.world.nextOp, bio, disk, io, payload⟩] }

/-- `bdev_zcell_get_buf_cb`, called once for every I/O that waits. -/
def getBufCb (h : Heap (List Byte)) (g : Group) (bio : BitVec 64) (disk : ZcellDisk) (io : BdevIo)
    (payload : List Byte) (success : Bool) : Option Group :=
  if (bio, io.isRead) ∈ g.waiting then
    let g := { g with waiting := g.waiting.erase (bio, io.isRead) }
    match bdevZcellGetBufCb disk io success with
    | .error f => some (g.crash f)
    | .ok .failed => some (g.complete bio .failed none)
    | .ok .dropped => some g
    | .ok (.submitted c) => g.issue h bio disk io payload c
  else none

/-- `bdev_zcell_group_poll` up to its loop: the ring holds `j` messages. -/
def groupPoll (h : Heap (List Byte)) (g : Group) (j : Nat) : Option Group :=
  if g.cpls = [] then
    (g.world.polls h maxEventsPerPoll j).map fun r => { g with world := r.1, cpls := r.2 }
  else none

/-- The loop for the next id. -/
def pollNext (h : Heap (List Byte)) (g : Group) : Option Group :=
  match g.cpls with
  | [] => none
  | id::cpls => (g.world.chans[0]?).bind fun ch =>
    match opClaimResult ch.io id with
    | (_, _, none) => some (g.crash .assertion)
    | (_, _, some claim) => (calls h [.claim 0 id, .destroy 0 id] g.world).map fun w =>
      { g with world := w, cpls := cpls }.complete (g.userData id)
        (if claim.status ≠ 0 then .failed else .success) (some (ch.op id))

end Group

inductive BdevAct where
  | submit (bio : BitVec 64) (type : IoType)
  | getBuf (bio : BitVec 64) (disk : ZcellDisk) (io : BdevIo) (payload : List Byte) (success : Bool)
  | poll (j : Nat)
  | next
  /-- The server takes messages, handles one, or answers one. -/
  | take (l j : Nat)
  | handle (l : Nat) (rc : Int)
  | answer (l i : Nat) (code : Int)
  deriving DecidableEq

def Group.act (h : Heap (List Byte)) (g : Group) : BdevAct → Option Group
  | .submit bio type => some (g.submitRequest bio type)
  | .getBuf bio disk io payload success => g.getBufCb h bio disk io payload success
  | .poll j => g.groupPoll h j
  | .next => g.pollNext h
  | .take l j => (step h (.take l j) g.world).map fun w => { g with world := w }
  | .handle l rc => (step h (.handle l rc) g.world).map fun w => { g with world := w }
  | .answer l i code => (step h (.complete l i code) g.world).map fun w => { g with world := w }

/-- Nothing happens once an assertion has failed. -/
def groupStep (h : Heap (List Byte)) (a : BdevAct) (g : Group) : Option Group :=
  if g.world.fault.isSome then none else g.act h a

instance (d : ZcellDisk) (io : BdevIo) : Decidable (Inside d io) :=
  decidable_of_iff (0 < io.numBlocks.toNat ∧
      io.offsetBlocks.toNat + io.numBlocks.toNat ≤ d.blockcnt.toNat ∧ io.offsetBlocks.toNat / 1024 =
        (io.offsetBlocks.toNat + io.numBlocks.toNat - 1) / 1024)
    ⟨fun ⟨h1, h2, h3⟩ => ⟨h1, h2, h3⟩, fun h => ⟨h.pos, h.disk, h.stripe⟩⟩

/-- What the block layer promises: an I/O of a disk stays inside it and is split at the stripes, and
a buffer that it gets is not null. The buffer may come in several pieces. -/
def Buffered (disks : List ZcellDisk) (_ : Group) : BdevAct → Prop
  | .getBuf _ disk io _ success => disk ∈ disks ∧ Inside disk io ∧ (success = true → io.iovBase ≠ 0)
  | _ => True

instance (disks : List ZcellDisk) (g : Group) (a : BdevAct) : Decidable (Buffered disks g a) :=
  match a with
  | .getBuf _ disk io _ success =>
    inferInstanceAs (Decidable (disk ∈ disks ∧ Inside disk io ∧ (success = true → _)))
  | .submit .. | .poll .. | .next | .take .. | .handle .. | .answer .. => isTrue trivial

/-- The operations of the channel that have not been destroyed. -/
def Group.outstanding (g : Group) : List Nat := (g.world.chans[0]?).elim [] Chan.outstanding

/-- The request of an I/O as the server gets it: its block address is an object and an offset there. -/
structure Addressed (io : BdevIo) (payload : List Byte) (m : Msg) : Prop where
  type : m.header.type = if io.isRead then msgOssOpRead else msgOssOpWrite
  args : m.metaBuffer = some (argBytes ([io.offsetBlocks.toNat / 1024,
    4096 * (io.offsetBlocks.toNat % 1024), 4096 * io.numBlocks.toNat, 0] ++
      if io.isRead then [io.iovBase.toNat] else []))
  data : m.dataBuffer = if io.isRead then none else some payload

section Translation
variable {disk : ZcellDisk} {io : BdevIo} {payload : List Byte} {ch : IoChannel} {id : Nat}
  {cs : List (Bool × BitVec 32)}

theorem disk_ofSize (hd : disk ∈ (created cs).disks) : ∃ oid g, disk = .ofSize oid g := by
  obtain ⟨i, hi⟩ := List.mem_iff_getElem?.mp hd
  obtain ⟨g, -, rfl⟩ := (disk_at disk).mp hi
  exact ⟨_, g, rfl⟩

theorem getBufCb_scattered (hmany : 1 < io.iovcnt) : bdevZcellGetBufCb disk io true = .error .assertion := by
  simp only [bdevZcellGetBufCb, Bool.not_true, Bool.false_eq_true, if_false, if_pos hmany]

/-- What the callback makes of an I/O with a buffer in one piece. -/
theorem getBufCb_submits (hd : disk ∈ (created cs).disks) (hin : Inside disk io)
    (hone : io.iovcnt ≤ 1) (hbase : io.iovBase ≠ 0) :
    ∃ c, bdevZcellGetBufCb disk io true = .ok (.submitted c) ∧ c.isRead = io.isRead ∧ c.stripeId = 0 ∧
      c.objId.toNat = io.offsetBlocks.toNat / 1024 ∧
      c.objOffset.toNat = 4096 * (io.offsetBlocks.toNat % 1024) ∧
      c.len.toNat = 4096 * io.numBlocks.toNat ∧ c.buffer = io.iovBase := by
  obtain ⟨oid, g, rfl⟩ := disk_ofSize hd
  have hcb : ∃ c, bdevZcellGetBufCb (.ofSize oid g) io true = .ok (.submitted c) ∧ c.isRead = io.isRead ∧
      c.stripeId = 0 ∧ c.len = (io.numBlocks * (0x1000 : BitVec 32).setWidth 64).setWidth 32 ∧
      c.buffer = io.iovBase := by
    simp only [bdevZcellGetBufCb, Bool.not_true, Bool.false_eq_true, if_false,
      if_neg (Nat.not_lt_of_le hone), if_neg hbase]
    exact ⟨_, rfl, rfl, Nat.mod_one _, rfl, rfl⟩
  obtain ⟨c, hcb, hread, hstripe, hlen, hbuf⟩ := hcb
  obtain ⟨hobj, hoff⟩ := address hin hcb
  refine ⟨c, hcb, hread, hstripe, hobj, hoff, ?_, hbuf⟩
  have hpos := hin.pos
  have hone := hin.stripe
  have hblock : ((0x1000 : BitVec 32).setWidth 64).toNat = 4096 := by decide
  rw [hlen, BitVec.toNat_setWidth, BitVec.toNat_mul, hblock]
  omega

theorem call_none {c : OssIo} (hwords : 64 * ch.opCtxsBitmap.wordsLength ≤ 2 ^ 32)
    (hhint : ch.bitmapHint ≤ 64 * ch.opCtxsBitmap.wordsLength)
    (hn : ch.opCtxsBitmap.nextSetIndex ch.bitmapHint = none) :
    ioCall ch (c.call payload) = .ok (Liboss.enomem, ch) := by
  unfold OssIo.call
  split
  · exact prepare_none hwords hhint (by decide) hn
  · exact prepare_none hwords hhint (by decide) hn

theorem call_addressed {c : OssIo} (hread : c.isRead = io.isRead)
    (hobj : c.objId.toNat = io.offsetBlocks.toNat / 1024)
    (hoff : c.objOffset.toNat = 4096 * (io.offsetBlocks.toNat % 1024))
    (hlen : c.len.toNat = 4096 * io.numBlocks.toNat) (hbuf : c.buffer = io.iovBase)
    (hwords : 64 * ch.opCtxsBitmap.wordsLength ≤ 2 ^ 32)
    (hhint : ch.bitmapHint ≤ 64 * ch.opCtxsBitmap.wordsLength)
    (hn : ch.opCtxsBitmap.nextSetIndex ch.bitmapHint = some id) (hsmall : id < 2 ^ 31)
    (hlt : id < ch.queueDepth) :
    ∃ m, ioCall ch (c.call payload) = .ok ((id : Int), ch.prepared id m) ∧ Addressed io payload m := by
  -- an offset inside an object fits the 32 bits that `io_write` keeps of it
  have hcut : c.objOffset.toNat % 2 ^ 32 = c.objOffset.toNat := by omega
  unfold OssIo.call
  rw [hread]
  split
  · rename_i hr
    refine ⟨_, prepare_found hwords hhint (by decide) hn hsmall hlt, ?_, ?_, ?_⟩
    · rw [messageStateReset_header, build_type _ _ (by decide), if_pos hr]
    · simp [hobj, hoff, hlen, hbuf, hr]
    · simp [hr]
  · rename_i hw
    refine ⟨_, prepare_found hwords hhint (by decide) hn hsmall hlt, ?_, ?_, ?_⟩
    · rw [messageStateReset_header, build_type _ _ (by decide), if_neg hw]
    · rw [messageStateReset_metaBuffer, hcut, hobj, hoff, hlen, if_neg hw, List.append_nil]
    · simp [hw]

end Translation

end ZCell.Bdev
