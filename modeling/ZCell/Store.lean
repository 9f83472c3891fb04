import ZCell.PmLog
import ZCell.Allocator

/-! zstore.c up to the point where a request becomes a transaction: superblock, onode table,
data-index blocks and the prepare functions. -/
namespace ZCell.Store
open Bytes Persist Pm Allocator

def zstorePageSize : Nat := 4096
def zstoreTxIovMax : Nat := 32
def zstoreIoUnitMax : Nat := 128 * 1024
def zstoreObjMaxSizeBytes : Nat := 4 * 2 ^ 20
def zstoreEnableTrim : BitVec 32 := 2

/-- The fields of `zstore_superblock_t` that are read after mkfs. -/
structure Superblock where
  magic : Nat
  ssdMinAllocSizeShift : Nat
  ssdNrPages : Nat
  pmNrPages : Nat
  pmSsdBitmapOfst : Nat
  pmDyBitmapOfst : Nat
  onodesRsv : Nat
  pmOtableOfst : Nat
  pmDySpaceOfst : Nat

/-- `otable_entry_t` as the number its 64 bytes hold: `valid` is bit 0, `oid` the bits 16 to 63
and `data_idx_id` the bits 96 to 127. -/
abbrev OtableEntry := BitVec 512

def OtableEntry.valid (e : OtableEntry) : Bool := e.getLsbD 0

def OtableEntry.dataIdxId (e : OtableEntry) : Nat := (e.extractLsb' 96 32).toNat

/-- A zeroed entry with `valid`, `oid` and `data_idx_id` filled in. -/
def otableEntry (oid dataIdxId : Nat) : OtableEntry :=
  BitVec.ofNat 512 (1 + 2 ^ 16 * (oid % 2 ^ 48) + 2 ^ 96 * (dataIdxId % 2 ^ 32))

/-- The 64 bytes at `a`: a bitmap entry or an onode. -/
def lineAt (m : Image) (a : Nat) : BitVec 512 := BitVec.ofNat 512 (loadLe m a 64)

def lineBytes (v : BitVec 512) : List Byte := leBytes 64 v.toNat

def wordAt (m : Image) (a : Nat) : BitVec 32 := BitVec.ofNat 32 (loadLe m a 4)

def readWords (m : Image) (a n : Nat) : List (BitVec 32) :=
  (List.range n).map fun i => wordAt m (a + 4 * i)

def wordsBytes (ws : List (BitVec 32)) : List Byte := ws.flatMap fun w => leBytes 4 w.toNat

/-- An index word that maps no block. -/
def unmapped : BitVec 32 := 0xffffffff

inductive MsgOp where
  | create
  | read
  | write
  | delete
  | other
  deriving DecidableEq, Repr

/-- The operation of a message and the arguments in its meta buffer. -/
structure Request where
  op : MsgOp
  oid : BitVec 64
  ofst : BitVec 64
  len : BitVec 64
  dataBuffer : BitVec 64
  deriving DecidableEq, Repr

inductive IoType where
  | read
  | write
  | trim
  deriving DecidableEq, Repr

structure Bio where
  ioType : IoType
  blkOfst : BitVec 32
  blkLen : BitVec 32
  deriving DecidableEq, Repr

inductive TxState where
  | prepare
  | dataIo
  | pmTx
  deriving DecidableEq, Repr

inductive TxType where
  | rdonly
  | write
  deriving DecidableEq, Repr

structure ZstoreTransaction where
  tid : Nat
  txType : TxType
  /-- `tx_attr_ & TX_SYNC`. -/
  sync : Bool
  state : TxState
  err : Int
  request : Request
  bioOutstanding : Nat
  dataBuffer : BitVec 64
  bios : List Bio
  pmTx : Option PmemTransaction

structure ZstoreContext where
  mntFlag : BitVec 32
  zsb : Superblock
  pmem : Pmem
  /-- The mapped persistent memory. -/
  pm : Image
  /-- Ordinary memory, where the onode table starts at `otable`. -/
  mem : Image
  otable : Nat
  ssdAllocator : StupidAllocator
  pmAllocator : StupidAllocator
  tidMax : Nat
  txOutstanding : Nat
  txList : List Nat
  txRdonlyOutstanding : Nat
  txRdonlyList : List Nat

/-- The address of `otable_[oid]`. -/
def ZstoreContext.onodeAddr (zs : ZstoreContext) (oid : Nat) : Nat := zs.otable + 64 * oid

/-- `otable_[oid]`. -/
def ZstoreContext.onode (zs : ZstoreContext) (oid : Nat) : OtableEntry :=
  lineAt zs.mem (zs.onodeAddr oid)

theorem onode_congr {zs zs' : ZstoreContext} (h1 : zs'.mem = zs.mem) (h2 : zs'.otable = zs.otable)
    (oid : Nat) : zs'.onode oid = zs.onode oid := by
  rw [ZstoreContext.onode, ZstoreContext.onodeAddr, h1, h2]
  rfl

def objectDataIndexBlock (zs : ZstoreContext) (oe : OtableEntry) : Nat :=
  zs.zsb.pmDySpaceOfst + oe.dataIdxId * zstorePageSize

/-- The loop variables of `object_lba_merge_to`; `ex` has the newest extent first. -/
structure Merge where
  ex : List Extent
  inFoundCtx : Bool
  mbLen : Nat

def mergeRound (s : Merge) (ba : BitVec 32) : Merge :=
  if ba = unmapped then { s with inFoundCtx := false }
  else if s.inFoundCtx then
    match s.ex with
    | p :: ps =>
      -- no extent crosses a bitmap entry or exceeds the largest bio
      if p.len + p.lba = ba.toNat ∧ p.lba / 512 = ba.toNat / 512 ∧ p.len < zstoreIoUnitMax then
        { s with ex := ⟨p.lba, p.len + 1⟩ :: ps, mbLen := s.mbLen + 1 }
      else { s with ex := ⟨ba.toNat, 1⟩ :: s.ex, mbLen := s.mbLen + 1 }
    | [] => { s with ex := [⟨ba.toNat, 1⟩], mbLen := s.mbLen + 1 }
  else { ex := ⟨ba.toNat, 1⟩ :: s.ex, inFoundCtx := true, mbLen := s.mbLen + 1 }

/-- The extents `e[0..n)` and the number of mapped words. -/
def objectLbaMergeTo (bi : List (BitVec 32)) : List Extent × Nat :=
  let s := bi.foldl mergeRound ⟨[], false, 0⟩
  (s.ex.reverse, s.mbLen)

/-- Extents, mapped length and the index words of the addressed range. -/
def objectLbaRangeGet (zs : ZstoreContext) (oe : OtableEntry) (opOfst opLen : BitVec 64)
    (isWrite : Bool) : Except Fault (List Extent × Nat × List (BitVec 32)) :=
  let bofst := opOfst.toNat / 2 ^ zs.zsb.ssdMinAllocSizeShift
  let blen := opLen.toNat / 2 ^ zs.zsb.ssdMinAllocSizeShift
  let dibAddr := objectDataIndexBlock zs oe
  if zstoreTxIovMax < blen then .error .workArray
  else if zs.pmem.size < dibAddr + 4 * bofst + 4 * blen then .error .pmRange
  else
    let words := readWords zs.pm (dibAddr + 4 * bofst) blen
    -- a read takes a hole for block 0
    let dib := if isWrite then words else words.map fun w => if w = unmapped then 0 else w
    .ok ((objectLbaMergeTo dib).1, (objectLbaMergeTo dib).2, dib)

/-- The bitmap entries of the first blocks of the extents, each named once. -/
def lbaToBitmapId (e : List Extent) : List Nat :=
  e.foldl (fun bid d => if d.lba / 512 ∈ bid then bid else bid ++ [d.lba / 512]) []

/-- The log entry that saves bitmap entry `k`. -/
def bitmapLog (base : Nat) (bs : Nat → BitVec 512) (k : Nat) : PmLogEntry :=
  ⟨0, BitVec.ofNat 64 (base + 64 * k), lineBytes (bs k)⟩

def Bio.ofExtent (ioType : IoType) (e : Extent) : Bio :=
  ⟨ioType, BitVec.ofNat 32 e.lba, BitVec.ofNat 32 e.len⟩

/-- Memory that a prepare function uses without initialising it: the log buffer, as `malloc` returned
it, and the array `e` of `_tx_prep_rw_common`. -/
structure Uninit where
  log : Image
  e : Nat → Extent

/-- `e[enew_nr]` to `e[enew_nr + ne - 1]`, where the list `e` is `e[0..ne)`: the index of the loop over
the new extents runs on. -/
def trimExtents (u : Nat → Extent) (e : List Extent) (enewNr : Nat) : List Extent :=
  (List.range' enewNr e.length).map fun i => e.getD i (u i)

/-- What a prepare function returns: the code, the store and the transaction. -/
abbrev Prepared := Except Fault (Int × ZstoreContext × ZstoreTransaction)

/-- The write branch of `_tx_prep_rw_common`; `e` are the extents that the range maps now. -/
def txPrepWrite (g : Uninit) (zs : ZstoreContext) (r : Request) (tx : ZstoreTransaction)
    (oe : OtableEntry) (e : List Extent) (blen : Nat) : Prepared :=
  if zstoreObjMaxSizeBytes < (r.ofst + r.len).toNat then
    .ok (Status.ostoreWriteOutMaxSize.code, zs, tx)
  else if (blocks e).any (fun b => zs.ssdAllocator.nrEntrys ≤ b / 512) then .error .bitmapRange
  else
    let tx := { tx with txType := .write, state := .dataIo }
    -- the old blocks are free from here on, also when the allocation fails
    let freed := if e = [] then zs.ssdAllocator else stupidFreeSpace zs.ssdAllocator e
    let bid := if e = [] then [] else lbaToBitmapId e
    let (rc, a, enew) := stupidAllocSpace freed blen
    let zs := { zs with ssdAllocator := a }
    if rc ≠ 0 then .ok (rc, zs, tx)
    else if zs.mntFlag &&& zstoreEnableTrim ≠ 0 ∧ e ≠ [] ∧ zstoreTxIovMax < enew.length + e.length then
      .error .workArray
    else
      let trim := if zs.mntFlag &&& zstoreEnableTrim ≠ 0 then trimExtents g.e e enew.length else []
      let bios := enew.map (Bio.ofExtent .write) ++ trim.map (Bio.ofExtent .trim)
      let tx := { tx with bioOutstanding := bios.length, bios := bios }
      let bid2 := lbaToBitmapId enew
      match addAll (pmemTransactionAlloc g.log)
          ((bid ++ bid2).map (bitmapLog zs.zsb.pmSsdBitmapOfst a.bs)) with
      | none => .ok (Status.invalidOp.code, zs, tx)
      | some t =>
        let dib := (blocks enew).map (BitVec.ofNat 32)
        if dib.length ≠ blen then .error .assertion
        else
          let bofst := r.ofst.toNat / zstorePageSize % 2 ^ 32
          let t := (pmemTransactionAdd t
            (BitVec.ofNat 64 (objectDataIndexBlock zs oe + 4 * bofst)) 0 (wordsBytes dib)).1
          -- the onode as it is now is logged for memory and for persistent memory
          let t := (pmemTransactionAdd t
            (BitVec.ofNat 64 (zs.zsb.pmOtableOfst + 64 * r.oid.toNat))
            (BitVec.ofNat 64 (zs.onodeAddr r.oid.toNat)) (lineBytes oe)).1
          .ok (0, zs, { tx with pmTx := some t })

def txPrepRwCommon (g : Uninit) (zs : ZstoreContext) (r : Request) (tx : ZstoreTransaction) :
    Prepared :=
  if r.op ≠ .read ∧ r.op ≠ .write then .ok (Status.unknownOp.code, zs, tx)
  else if r.len = 0 ∨ r.len.toNat % zstorePageSize ≠ 0 then .ok (Status.invalidOp.code, zs, tx)
  else if r.ofst.toNat % zstorePageSize ≠ 0 then .ok (Status.invalidOp.code, zs, tx)
  else if zs.zsb.onodesRsv ≤ r.oid.toNat then .ok (Status.ostoreNoNode.code, zs, tx)
  else
    let oe := zs.onode r.oid.toNat
    let blen := r.len.toNat / zstorePageSize % 2 ^ 32
    match objectLbaRangeGet zs oe r.ofst r.len (r.op = .write) with
    | .error f => .error f
    | .ok (e, mappedBlen, _) =>
      let tx := { tx with dataBuffer := r.dataBuffer }
      if r.op = .read then
        if e = [] ∨ blen ≠ mappedBlen then .ok (Status.ostoreReadHole.code, zs, tx)
        else .ok (0, zs, { tx with
          txType := .rdonly
          state := .dataIo
          bios := e.map (Bio.ofExtent .read)
          bioOutstanding := e.length })
      else txPrepWrite g zs r tx oe e blen

/-- The transaction of a create or delete: the new onode, then the bitmap entries of `ze`. -/
def creDelTx (g : Uninit) (zs : ZstoreContext) (oid : Nat) (ote : OtableEntry) (ze : List Extent)
    (tx : ZstoreTransaction) : ZstoreTransaction :=
  let t := (pmemTransactionAdd (pmemTransactionAlloc g.log)
    (BitVec.ofNat 64 (zs.zsb.pmOtableOfst + 64 * oid))
    (BitVec.ofNat 64 (zs.onodeAddr oid)) (lineBytes ote)).1
  let t := (ze.map fun e => bitmapLog zs.zsb.pmDyBitmapOfst zs.pmAllocator.bs (e.lba / 512)).foldl
    (fun t e => (pmemTransactionAdd t e.ofst e.paddr e.value).1) t
  { tx with txType := .write, state := .pmTx, sync := true, pmTx := some t }

def txPrepCreDelCommon (g : Uninit) (zs : ZstoreContext) (r : Request) (tx : ZstoreTransaction) :
    Prepared :=
  let oid := r.oid.toNat % 2 ^ 48
  if zs.zsb.onodesRsv ≤ oid then .ok (Status.ostoreNoNode.code, zs, tx)
  else
    let oldOe := zs.onode oid
    if !oldOe.valid && r.op = .create then
      let (rc, a, ze) := stupidAllocSpace zs.pmAllocator 1
      if rc ≠ 0 then .ok (Status.ostoreNoNode.code, { zs with pmAllocator := a }, tx)
      else
        let lba := (ze.headD ⟨0, 0⟩).lba
        let didPmOfst := lba * zstorePageSize + zs.zsb.pmDySpaceOfst
        if zs.pmem.size < didPmOfst + zstorePageSize then .error .pmRange
        else
          let pm := finish zs.pm (pmemWrite false (List.replicate zstorePageSize 0xff) didPmOfst)
          let zs := { zs with pmAllocator := a, pm := pm }
          .ok (0, zs, creDelTx g zs oid (otableEntry oid lba) ze tx)
    else if oldOe.valid && r.op ≠ .create then
      if zs.pmAllocator.nrEntrys ≤ oldOe.dataIdxId / 512 then .error .bitmapRange
      else
        let zs := { zs with
          pmAllocator := stupidFreeSpace zs.pmAllocator [⟨oldOe.dataIdxId, 1⟩] }
        -- `ze_nr` stays 0: no bitmap entry is logged
        .ok (0, zs, creDelTx g zs oid 0 [] tx)
    else .ok (Status.ostoreNoNode.code, zs, tx)

/-- The assertion on `state_` behind each prepare function. -/
def assertState (state : TxState) : Prepared → Prepared
  | .ok (0, zs, tx) => if tx.state = state then .ok (0, zs, tx) else .error .assertion
  | p => p

/-- `tx` is the memory of the transaction before the call. -/
def zstoreTxPrepare (g : Uninit) (zs : ZstoreContext) (r : Request) (tx : ZstoreTransaction) :
    Prepared :=
  let tx := { tx with
    request := r
    err := 0
    state := .prepare
    bios := []
    bioOutstanding := 0
    pmTx := none
    sync := false
    tid := zs.tidMax }
  let zs := { zs with tidMax := zs.tidMax + 1 }
  match r.op with
  | .create | .delete => assertState .pmTx (txPrepCreDelCommon g zs r tx)
  | .read | .write => assertState .dataIo (txPrepRwCommon g zs r tx)
  | .other => .ok (Status.unknownOp.code, zs, tx)

end ZCell.Store
