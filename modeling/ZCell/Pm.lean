import ZCell.Errcode
import ZCell.Persist

/-! pm.c: the per-core redo log in persistent memory. Every function that writes
persistent memory is the list of its libpmem calls. -/
namespace ZCell.Pm
open Bytes Persist

def pmLogRegionSize : Nat := 8192

/-- `CEIL_ALIGN` for a power of two `align`. -/
def ceilAlign (v align : Nat) : Nat := (v + align - 1) / align * align

structure Pmem where
  logRegionOfst : Nat
  /-- Bytes mapped at `map_base`. -/
  size : Nat

def pmemOpen (cpu : Nat) : Pmem := ⟨4096 + cpu * pmLogRegionSize, 4 * 2 ^ 30⟩

/-- The first word of the 64-byte union; the other 56 bytes are zero in every header written. -/
structure PmLogHeader where
  valid : Bool
  rsv : BitVec 15
  nrLogs : BitVec 16
  alignLength : BitVec 32

def PmLogHeader.zero : PmLogHeader := ⟨false, 0, 0, 0⟩

def PmLogHeader.word (lh : PmLogHeader) : Nat :=
  lh.valid.toNat + 2 * lh.rsv.toNat + 2 ^ 16 * lh.nrLogs.toNat + 2 ^ 32 * lh.alignLength.toNat

def PmLogHeader.bytes (lh : PmLogHeader) : List Byte := leBytes 8 lh.word ++ List.replicate 56 0

def PmLogHeader.read (m : Image) (o : Nat) : PmLogHeader :=
  let w := loadLe m o 8
  ⟨w % 2 == 1, BitVec.ofNat 15 (w / 2), BitVec.ofNat 16 (w / 2 ^ 16), BitVec.ofNat 32 (w / 2 ^ 32)⟩

/-- `pm_log_entry_t`: a 24-byte head and the logged value behind it. -/
structure PmLogEntry where
  paddr : BitVec 64
  ofst : BitVec 64
  value : List Byte

def PmLogEntry.size (e : PmLogEntry) : Nat := 24 + e.value.length

def PmLogEntry.bytes (e : PmLogEntry) : List Byte :=
  leBytes 8 e.paddr.toNat ++ leBytes 8 e.ofst.toNat ++ leBytes 8 e.value.length ++ e.value

def PmLogEntry.read (m : Image) (p : Nat) : PmLogEntry :=
  ⟨BitVec.ofNat 64 (loadLe m p 8), BitVec.ofNat 64 (loadLe m (p + 8) 8),
    load m (p + 24) (loadLe m (p + 16) 8)⟩

/-- The copy an entry asks for. -/
def PmLogEntry.copy (e : PmLogEntry) : Nat × List Byte := (e.ofst.toNat, e.value)

def pmemRead (m : Image) (offset length : Nat) : List Byte := load m offset length

def pmemWrite (sync : Bool) (src : List Byte) (offset : Nat) : List PmOp :=
  if sync then persist offset src else [.nodrain offset src]

/-- The header and the memory behind it, from the first entry on. -/
structure PmemTransaction where
  lh : PmLogHeader
  le : Image

/-- `g` is what `malloc` left in the buffer. -/
def pmemTransactionAlloc (g : Image) : PmemTransaction := ⟨PmLogHeader.zero, g⟩

def pmemTransactionAdd (tx : PmemTransaction) (pmemOfst memAddr : BitVec 64)
    (newValue : List Byte) : PmemTransaction × Bool :=
  let logLen := BitVec.ofNat 32 (24 + newValue.length)
  let pl := tx.lh.alignLength.toNat
  -- the length and the count are advanced before the capacity is checked
  let lh := { tx.lh with
    alignLength := tx.lh.alignLength + logLen
    nrLogs := tx.lh.nrLogs + 1 }
  if pmLogRegionSize < lh.alignLength.toNat then (⟨lh, tx.le⟩, false)
  else (⟨lh, store tx.le pl (PmLogEntry.mk memAddr pmemOfst newValue).bytes⟩, true)

/-- The walk over the entries: `n` of them, the first one at `p`, each found behind the value
of the one before. -/
def logEntries (le : Image) : Nat → Nat → List PmLogEntry
  | 0, _ => []
  | n+1, p =>
    let e := PmLogEntry.read le p
    e :: logEntries le n (p + e.size)

def PmemTransaction.entries (tx : PmemTransaction) : List PmLogEntry :=
  logEntries tx.le tx.lh.nrLogs.toNat 0

/-- The header with the length rounded up, as step 1 leaves it. -/
def PmemTransaction.sealed (tx : PmemTransaction) : PmLogHeader :=
  { tx.lh with alignLength := BitVec.ofNat 32 (ceilAlign tx.lh.alignLength.toNat 256) }

/-- Steps 1 to 4 of `pmem_transaction_apply`: log body, log header, in-place writes and the
drain behind them, cleared header. -/
def applyOps (pmem : Pmem) (tx : PmemTransaction) : List PmOp :=
  pmemWrite true (load tx.le 0 tx.sealed.alignLength.toNat) (pmem.logRegionOfst + 64) ++
  pmemWrite true tx.sealed.bytes pmem.logRegionOfst ++
  tx.entries.flatMap (fun e => pmemWrite false e.value e.ofst.toNat) ++
  [.drain] ++
  pmemWrite true PmLogHeader.zero.bytes pmem.logRegionOfst

/-- Step 5: the deferred updates of ordinary memory. -/
def applyMem (entries : List PmLogEntry) (mem : Image) : Image :=
  entries.foldl (fun m e => if e.paddr ≠ 0 then store m e.paddr.toNat e.value else m) mem

/-- The persistent image and the ordinary memory after an undisturbed call. -/
def pmemTransactionApply (pmem : Pmem) (tx : PmemTransaction) (img mem : Image) :
    Image × Image × Bool :=
  (finish img (applyOps pmem tx), applyMem tx.entries mem, true)

/-- The replay loop of `pmem_recovery` over its local buffer of 4096 bytes. -/
def replay (pload : Image) : Nat → Nat → Except Fault (List PmOp)
  | 0, _ => .ok []
  | n+1, cur => do
    if 4096 < cur + 24 then throw .workArray
    let e := PmLogEntry.read pload cur
    if e.value.length % 64 ≠ 0 then throw .assertion
    if e.ofst.toNat % 64 ≠ 0 then throw .assertion
    if 4096 < cur + e.size then throw .workArray
    let rest ← replay pload n (cur + e.size)
    return pmemWrite true e.value e.ofst.toNat ++ rest

/-- `stk` is what the stack held below the local buffer before the call. -/
def pmemRecovery (pmem : Pmem) (stk : Image) (m : Image) : Except Fault (List PmOp) := do
  let lh := PmLogHeader.read m pmem.logRegionOfst
  if lh.valid then
    let len := lh.alignLength.toNat
    if len % 256 ≠ 0 then throw .assertion
    if 4096 < len then throw .workArray
    let pload := store stk 0 (pmemRead m (pmem.logRegionOfst + 64) len)
    let ops ← replay pload lh.nrLogs.toNat 0
    return ops ++ pmemWrite true PmLogHeader.zero.bytes pmem.logRegionOfst
  else return []

/-- The image a store finds after recovery. -/
def recovered (pmem : Pmem) (stk : Image) (m : Image) : Except Fault Image := do
  let ops ← pmemRecovery pmem stk m
  return finish m ops

end ZCell.Pm
