import Mathlib.Logic.Function.Basic
import ZCell.Messager
import ZCell.Server

/-! liboss.c: the client side of a connection. An operation is prepared in a slot of its channel,
submitted, answered, claimed and destroyed; a bitmap (util/bitmap.h) tells which slots are free. -/
namespace ZCell.Liboss
open Bytes Messager Server

structure Bitmap where
  wordsLength : Nat
  words : Nat → BitVec 64

/-- All bits are set, those of the last word beyond the length too. -/
def bitmapConstructor (bitLength : BitVec 32) : Bitmap where
  wordsLength := (bitLength + 63).toNat / 64
  words _ := BitVec.allOnes 64

def Bitmap.getBit (b : Bitmap) (i : Nat) : Bool := (b.words (i / 64)).getLsbD (i % 64)

def Bitmap.setBit (b : Bitmap) (i : Nat) : Bitmap :=
  { b with words := Function.update b.words (i / 64) (b.words (i / 64) ||| BitVec.twoPow 64 (i % 64)) }

def Bitmap.clrBit (b : Bitmap) (i : Nat) : Bitmap :=
  { b with
    words := Function.update b.words (i / 64) (b.words (i / 64) &&& ~~~BitVec.twoPow 64 (i % 64)) }

/-- `__builtin_ffsll(v) - 1`. -/
def ffs (v : BitVec 64) : Nat := ((List.range 64).find? fun i => v.getLsbD i).getD 64

/-- The index that the loops of `bitmap_next_set` find: the words from the one of the hint on, then
those before it. -/
def Bitmap.nextSetIndex (b : Bitmap) (hint : Nat) : Option Nat :=
  let k := hint / 64
  ((List.range' k (b.wordsLength - k) ++ List.range k).find? fun i => b.words i ≠ 0).map
    fun i => 64 * i + ffs (b.words i)

/-- It is returned as an `int`. -/
def Bitmap.nextSet (b : Bitmap) (hint : Nat) : Int :=
  match b.nextSetIndex hint with
  | some i => (BitVec.ofNat 32 i).toInt
  | none => -1

def Bitmap.findNextSetAndClr (b : Bitmap) (hint : Nat) : Int × Bitmap :=
  let i := b.nextSet hint
  if i < 0 then (-1, b) else (i, b.clrBit i.toNat)

inductive OpState where
  | new
  | waitingSubmit
  | inProgress
  | completed
  | ended
  deriving DecidableEq, Repr

/-- A message with the contents of its buffers. -/
structure OpCtx where
  requestAndResponse : Msg
  state : OpState

structure IoChannel where
  session : Nat
  sessionType : Kind
  queueDepth : Nat
  reapDepth : Nat
  seq : BitVec 64
  bitmapHint : Nat
  opCtxsBitmap : Bitmap
  /-- `queueDepth` of them. -/
  opCtxs : Nat → OpCtx
  cplNr : Nat
  /-- `reapDepth` indices of operations. -/
  cplOps : Nat → Nat

def ringMax : BitVec 32 := 1024

/-- What `calloc` makes of an operation. -/
def blankOp : OpCtx := ⟨⟨⟨0, 0, 0⟩, .zero, none, none, 0⟩, .new⟩

/-- `io_channel_new` in `get_io_channel_with` and `get_io_channel_with_local`, which pass one
number for both depths. -/
def getIoChannel (sessionType : Kind) (session : Nat) (maxQd : BitVec 32) : IoChannel :=
  let depth := if maxQd ≠ 0 then maxQd else ringMax
  { session := session
    sessionType := sessionType
    queueDepth := depth.toNat
    reapDepth := depth.toNat
    seq := 0
    bitmapHint := 0
    opCtxsBitmap := bitmapConstructor depth
    opCtxs := fun _ => blankOp
    cplNr := 0
    cplOps := fun _ => 0 }

def enomem : Int := -12
def einval : Int := -22
def einprogress : Int := -115

def IoChannel.setOp (ch : IoChannel) (id : Nat) (op : OpCtx) : IoChannel :=
  { ch with opCtxs := Function.update ch.opCtxs id op }

def IoChannel.setState (ch : IoChannel) (id : Nat) (state : OpState) : IoChannel :=
  ch.setOp id { ch.opCtxs id with state := state }

def allocOp (ch : IoChannel) : Option (Nat × IoChannel) :=
  let r := ch.opCtxsBitmap.findNextSetAndClr ch.bitmapHint
  if r.1 < 0 then none
  else some (r.1.toNat, { ch with bitmapHint := r.1.toNat + 1, opCtxsBitmap := r.2 })

def freeOp (ch : IoChannel) (i : Nat) : Except Fault IoChannel :=
  if (ch.opCtxs i).state ≠ .ended then .error .assertion
  else
    let id := (ch.opCtxs i).requestAndResponse.header.rsv 0
    if ch.opCtxsBitmap.getBit id then .error .assertion
    else .ok { ch.setState i .new with
      opCtxsBitmap := ch.opCtxsBitmap.setBit id
      bitmapHint := if id < ch.bitmapHint then id else ch.bitmapHint }

/-- Return code and channel; the operations lie in an array of `queueDepth`. -/
def ioPrepareOpCommon (ch : IoChannel) (opType metaSize : Nat) (metaBuffer : Option (List Byte))
    (dataLength : Nat) (dataBuffer : Option (List Byte)) : Except Fault (Int × IoChannel) :=
  match allocOp ch with
  | none => .ok (enomem, ch)
  | some (id, ch) =>
    if ch.queueDepth ≤ id then .error .workArray
    else if 255 < metaSize then
      match freeOp ch id with
      | .error f => .error f
      | .ok ch => .ok (einval, ch)
    else
      let hdr := MsgHdr.build ch.seq opType ch.sessionType.magic metaSize dataLength id
      let m := messageStateReset ⟨⟨0, 0, 0⟩, hdr, metaBuffer, dataBuffer, ch.session⟩
      .ok (id, { ch.setOp id ⟨m, .waitingSubmit⟩ with seq := ch.seq + 1 })

/-- An operation and its arguments; `junk` is what `malloc` left in the last field. -/
inductive Call where
  | stat
  | create (oid : BitVec 64)
  | delete (oid : BitVec 64)
  | read (oid ofst : BitVec 64) (len : BitVec 32) (junk : BitVec 64)
  | read2 (buf oid ofst : BitVec 64) (len : BitVec 32)
  | write (oid : BitVec 64) (buffer : List Byte) (ofst : BitVec 64) (len : BitVec 32)
  deriving DecidableEq

/-- The arguments in the meta buffer. -/
def argBytes (args : List Nat) : List Byte := args.flatMap (leBytes 8)

theorem argBytes_length (xs : List Nat) : (argBytes xs).length = 8 * xs.length := by
  induction xs with
  | nil => rfl
  | cons x xs ih =>
    have hcons : argBytes (x :: xs) = leBytes 8 x ++ argBytes xs := List.flatMap_cons
    rw [hcons, List.length_append, leBytes_length, ih, List.length_cons]
    omega

def ioStat (ch : IoChannel) : Except Fault (Int × IoChannel) :=
  ioPrepareOpCommon ch msgOssOpStat 0 none 0 none

def ioCreate (ch : IoChannel) (oid : BitVec 64) : Except Fault (Int × IoChannel) :=
  ioPrepareOpCommon ch msgOssOpCreate 8 (some (argBytes [oid.toNat])) 0 none

def ioDelete (ch : IoChannel) (oid : BitVec 64) : Except Fault (Int × IoChannel) :=
  ioPrepareOpCommon ch msgOssOpDelete 8 (some (argBytes [oid.toNat])) 0 none

/-- The offset is cut to 32 bits, and the zero-copy address is not set. -/
def ioRead (ch : IoChannel) (oid ofst : BitVec 64) (len : BitVec 32) (junk : BitVec 64) :
    Except Fault (Int × IoChannel) :=
  ioPrepareOpCommon ch msgOssOpRead 40
    (some (argBytes [oid.toNat, ofst.toNat % 2 ^ 32, len.toNat, 0, junk.toNat])) 0 none

def ioRead2 (ch : IoChannel) (buf oid ofst : BitVec 64) (len : BitVec 32) :
    Except Fault (Int × IoChannel) :=
  ioPrepareOpCommon ch msgOssOpRead 40
    (some (argBytes [oid.toNat, ofst.toNat, len.toNat, 0, buf.toNat])) 0 none

def ioWrite (ch : IoChannel) (oid : BitVec 64) (buffer : List Byte) (ofst : BitVec 64)
    (len : BitVec 32) : Except Fault (Int × IoChannel) :=
  ioPrepareOpCommon ch msgOssOpWrite 32
    (some (argBytes [oid.toNat, ofst.toNat % 2 ^ 32, len.toNat, 0])) len.toNat (some buffer)

def ioCall (ch : IoChannel) : Call → Except Fault (Int × IoChannel)
  | .stat => ioStat ch
  | .create oid => ioCreate ch oid
  | .delete oid => ioDelete ch oid
  | .read oid ofst len junk => ioRead ch oid ofst len junk
  | .read2 buf oid ofst len => ioRead2 ch buf oid ofst len
  | .write oid buffer ofst len => ioWrite ch oid buffer ofst len

/-- The loop that `io_submit_to_channel` begins with. The id `queueDepth` passes the check of the
range. -/
def submitCheck (ch : IoChannel) : List Nat → Except Fault Bool
  | [] => .ok true
  | opd::ops =>
    if ch.queueDepth < opd then .ok false
    else if opd = ch.queueDepth then .error .workArray
    else if (ch.opCtxs opd).state = .waitingSubmit then submitCheck ch ops
    else .ok false

/-- The loop that it ends with. -/
def markInProgress (ch : IoChannel) (ops : List Nat) : IoChannel :=
  ops.foldl (fun ch opd => ch.setState opd .inProgress) ch

/-- `net_msgr_on_recv_msg` and `ipc_msgr_on_recv_msg`, on the channel that the session of the
message belongs to. -/
def onRecvMsg (ch : IoChannel) (msg : Msg) : Except Fault IoChannel :=
  let id := msg.header.rsv 0
  if msg.metaBuffer.isSome then .error .assertion
  else if ch.queueDepth ≤ id then .error .workArray
  else
    let hdr := (ch.opCtxs id).requestAndResponse.header
    if hdr.seq ≠ msg.header.seq then .error .assertion
    else if hdr.type ≠ msg.header.type then .error .assertion
    else if ch.reapDepth ≤ ch.cplNr then .error .workArray
    else .ok { ch.setOp id ⟨msg, .completed⟩ with
      cplOps := Function.update ch.cplOps ch.cplNr id
      cplNr := ch.cplNr + 1 }

/-- The end of `io_poll_channel`: the ids that are reported, and the channel. What is left in the
list is not moved to its front. -/
def reap (ch : IoChannel) (max : Nat) : List Nat × IoChannel :=
  let cpls := min ch.cplNr (min max ch.reapDepth)
  ((List.range cpls).map fun i => (ch.opCtxs (ch.cplOps i)).requestAndResponse.header.rsv 0,
    { ch with cplNr := ch.cplNr - cpls })

/-- Status, type, data buffer and data length of a completed operation. -/
structure Claim where
  status : Nat
  opType : Nat
  dataBuffer : Option (List Byte)
  dataLen : Nat

def opClaimResult (ch : IoChannel) (id : Nat) : Int × IoChannel × Option Claim :=
  if id < ch.queueDepth ∧ (ch.opCtxs id).state = .completed then
    let m := (ch.opCtxs id).requestAndResponse
    (0, ch.setState id .ended,
      some ⟨m.header.status, m.header.type, m.dataBuffer, m.header.dataLength⟩)
  else (einval, ch, none)

/-- An operation that is dropped before its end runs into the assertion of `_free_op`. -/
def opDestory (ch : IoChannel) (id : Nat) : Except Fault (Int × IoChannel) :=
  if id < ch.queueDepth then
    match (ch.opCtxs id).state with
    | .inProgress => .ok (einprogress, ch)
    | .new => .error .assertion
    | .ended | .waitingSubmit | .completed =>
      match freeOp ch id with
      | .error f => .error f
      | .ok ch => .ok (0, ch)
  else .ok (einval, ch)

end ZCell.Liboss
