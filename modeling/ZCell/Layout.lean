import ZCell.Prepare
import ZCell.Regions
import ZCell.CrashAtomicity

/-! The layout that mkfs writes, the four metadata regions of the persistent memory, and what
the commit of a transaction does to each of them and to the onode table in memory. -/
namespace ZCell.Store
open Bytes Persist Pm Allocator

/-- A mounted store with the layout of `zstore_mkfs`: every region lies behind the log regions,
and the onode table is somewhere in memory. -/
structure Formatted (zs : ZstoreContext) : Prop where
  shift : zs.zsb.ssdMinAllocSizeShift = 12
  ssdBitmap : zs.zsb.pmSsdBitmapOfst = 2 ^ 20
  dyBitmap : zs.zsb.pmDyBitmapOfst = 33 * 2 ^ 20
  otableOfst : zs.zsb.pmOtableOfst = 34 * 2 ^ 20
  dySpace : zs.zsb.pmDySpaceOfst = 98 * 2 ^ 20
  onodesRsv : zs.zsb.onodesRsv = 2 ^ 20
  size : zs.pmem.size = 4 * 2 ^ 30
  log : zs.pmem.logRegionOfst + pmLogRegionSize ≤ 2 ^ 20
  otable_pos : 0 < zs.otable
  otable_le : zs.otable + 64 * 2 ^ 20 ≤ 2 ^ 64
  ssdTotal : zs.ssdAllocator.nrTotal ≤ 2 ^ 28
  ssdEntrys : zs.ssdAllocator.nrEntrys = (zs.ssdAllocator.nrTotal + 511) / 512
  pmTotal : zs.pmAllocator.nrTotal = 2 ^ 20
  pmEntrys : zs.pmAllocator.nrEntrys = 2 ^ 11

def ssdLine (m : Image) (k : Nat) : BitVec 512 := lineAt m (2 ^ 20 + 64 * k)

def dyLine (m : Image) (k : Nat) : BitVec 512 := lineAt m (33 * 2 ^ 20 + 64 * k)

def onodeLine (m : Image) (oid : Nat) : OtableEntry := lineAt m (34 * 2 ^ 20 + 64 * oid)

/-- Word `n` of the dynamic space: word `n % 1024` of index block `n / 1024`. -/
def indexWord (m : Image) (n : Nat) : BitVec 32 := wordAt m (98 * 2 ^ 20 + 4 * n)

/-- The first index word that a request addresses. -/
def firstWord (zs : ZstoreContext) (r : Request) : Nat :=
  1024 * (zs.onode r.oid.toNat).dataIdxId + r.bofst

section Views
variable {zs zs' : ZstoreContext} {r : Request} {tx : ZstoreTransaction}

/-- A looked-up range that passes the size check ends within the object. -/
theorem range_le_of_checked (hf : Formatted zs) (hchk : ¬ Refused zs r)
    (hpm : objectDataIndexBlock zs (zs.onode r.oid.toNat) + 4 * r.bofst + 4 * r.blen ≤ zs.pmem.size) :
    r.bofst + r.blen ≤ 1024 := by
  simp only [Refused, not_or, not_not, Nat.not_lt, Nat.not_le] at hchk
  obtain ⟨_, hlen, hofst, _, hsum⟩ := hchk
  rw [hf.size] at hpm
  rw [BitVec.toNat_add] at hsum
  unfold zstoreObjMaxSizeBytes at hsum
  unfold Request.bofst Request.blen zstorePageSize at *
  omega

theorem Written.range_le (hf : Formatted zs) (h : Written zs r zs' tx) : r.bofst + r.blen ≤ 1024 :=
  range_le_of_checked hf h.checked h.in_pm

theorem oid_lt_of_checked (hf : Formatted zs) (hchk : ¬ ReadRefused zs r) : r.oid.toNat < 2 ^ 20 := by
  simp only [ReadRefused, not_or, Nat.not_le, hf.onodesRsv] at hchk
  exact hchk.2.2.2

theorem Written.index_addr (hf : Formatted zs) (h : Written zs r zs' tx) :
    (BitVec.ofNat 64 (objectDataIndexBlock zs (zs.onode r.oid.toNat) +
      4 * (r.bofst % 2 ^ 32))).toNat = 98 * 2 ^ 20 + 4 * firstWord zs r := by
  have hle := h.range_le hf
  have hpm := h.in_pm
  rw [hf.size] at hpm
  simp only [objectDataIndexBlock, hf.dySpace, zstorePageSize, firstWord, BitVec.toNat_ofNat] at hpm ⊢
  omega

theorem Written.index_le (hf : Formatted zs) (h : Written zs r zs' tx) :
    98 * 2 ^ 20 + 4 * (firstWord zs r + r.blen) ≤ 4 * 2 ^ 30 := by
  have hpm := h.in_pm
  rw [hf.size] at hpm
  simp only [objectDataIndexBlock, hf.dySpace, zstorePageSize, firstWord] at hpm ⊢
  omega

theorem Written.oid_lt (hf : Formatted zs) (h : Written zs r zs' tx) : r.oid.toNat < 2 ^ 20 :=
  oid_lt_of_checked hf (readChecked h.checked)

theorem released_total (zs : ZstoreContext) (r : Request) :
    (released zs r).nrTotal = zs.ssdAllocator.nrTotal := rfl

theorem Written.named_lt (hf : Formatted zs) (h : Written zs r zs' tx) :
    ∀ k ∈ namedEntries zs r, k < 2 ^ 19 := by
  have htot := hf.ssdTotal
  intro k hk
  obtain hk | hk := List.mem_append.mp hk
  · obtain ⟨d, hd, rfl⟩ := mem_lbaToBitmapId.mp hk
    have hb := h.in_bitmap d.lba (merge_lba _ d hd)
    rw [hf.ssdEntrys] at hb
    omega
  · obtain ⟨d, hd, rfl⟩ := mem_lbaToBitmapId.mp hk
    have hb := (takes_free (alloc_lba h.blen_pos h.room d hd)).1
    rw [released_total] at hb
    omega

/-- The words that a write logs. -/
def newWords (zs : ZstoreContext) (r : Request) : List (BitVec 32) :=
  (blocks (newExtents zs r)).map (BitVec.ofNat 32)

theorem Written.newWords_length (h : Written zs r zs' tx) : (newWords zs r).length = r.blen := by
  rw [newWords, List.length_map]
  exact (alloc_extents h.blen_pos h.room).1

/-- The copies of a write, at the addresses of the four regions. -/
theorem Written.targets_eq (hf : Formatted zs) (h : Written zs r zs' tx) :
    targets (writeLog zs r) =
      ((namedEntries zs r).map (bitmapLog (2 ^ 20) (newSsd zs r).bs)).map PmLogEntry.copy ++
      [(98 * 2 ^ 20 + 4 * firstWord zs r, wordsBytes (newWords zs r)),
        (34 * 2 ^ 20 + 64 * r.oid.toNat, lineBytes (zs.onode r.oid.toNat))] := by
  have hoid := h.oid_lt hf
  have hidx := h.index_addr hf
  simp only [targets, writeLog, List.map_append, List.map_cons, List.map_nil, hf.ssdBitmap,
    PmLogEntry.copy, hidx, hf.otableOfst, BitVec.toNat_ofNat,
    Nat.mod_eq_of_lt (by omega : 34 * 2 ^ 20 + 64 * r.oid.toNat < 2 ^ 64), newWords]

section Copies
variable (hf : Formatted zs) (h : Written zs r zs' tx)
include hf h

theorem Written.bitmap_copies {w : Nat × List Byte}
    (hw : w ∈ ((namedEntries zs r).map (bitmapLog (2 ^ 20) (newSsd zs r).bs)).map PmLogEntry.copy) :
    2 ^ 20 ≤ w.1 ∧ w.1 + w.2.length ≤ 33 * 2 ^ 20 := by
  obtain ⟨e, he, rfl⟩ := List.mem_map.mp hw
  obtain ⟨k, hk, rfl⟩ := List.mem_map.mp he
  have hlt := h.named_lt hf k hk
  rw [copy_bitmapLog _ _ k (by omega), lineBytes_length]
  simp only
  omega

theorem Written.ssdLine_copies (m : Image) {k : Nat} (hk : k < 2 ^ 19) :
    ssdLine (storeAll m (targets (writeLog zs r))) k =
      if k ∈ namedEntries zs r then (newSsd zs r).bs k else ssdLine m k := by
  have hle := h.index_le hf
  have hbm : ∀ k ∈ namedEntries zs r, 2 ^ 20 + 64 * k < 2 ^ 64 := by
    intro k hk
    have hlt := h.named_lt hf k hk
    omega
  rw [h.targets_eq hf, storeAll_append, ssdLine, lineAt_storeAll_disjoint,
    lineAt_storeAll_bitmapLogs m (2 ^ 20) _ _ hbm k]
  · rfl
  · intro w hw
    simp only [List.mem_cons, List.not_mem_nil, or_false] at hw
    obtain rfl | rfl := hw
    all_goals
      simp only
      omega

theorem Written.onodeLine_copies (m : Image) {oid : Nat} (ho : oid < 2 ^ 20) :
    onodeLine (storeAll m (targets (writeLog zs r))) oid =
      if oid = r.oid.toNat then zs.onode r.oid.toNat else onodeLine m oid := by
  rw [h.targets_eq hf, storeAll_append, storeAll_cons, storeAll_cons, storeAll_nil, onodeLine,
    lineAt_store_line, lineAt_store_disjoint _ _ _ _ (by omega), lineAt_storeAll_disjoint]
  · rfl
  · intro w hw
    have hr := h.bitmap_copies hf hw
    omega

theorem Written.indexWord_copies (m : Image) (n : Nat) :
    indexWord (storeAll m (targets (writeLog zs r))) n =
      if firstWord zs r ≤ n ∧ n < firstWord zs r + r.blen then
        (newWords zs r).getD (n - firstWord zs r) 0 else indexWord m n := by
  have hoid := h.oid_lt hf
  have hold : indexWord (storeAll m (((namedEntries zs r).map (bitmapLog (2 ^ 20)
      (newSsd zs r).bs)).map PmLogEntry.copy)) n = indexWord m n := by
    apply wordAt_storeAll_disjoint
    intro w hw
    have hr := h.bitmap_copies hf hw
    omega
  rw [indexWord] at hold
  rw [h.targets_eq hf, storeAll_append, storeAll_cons, storeAll_cons, storeAll_nil, indexWord,
    wordAt_store_disjoint _ _ _ _ (by rw [lineBytes_length]; omega), wordAt_store_words, hold,
    h.newWords_length]

end Copies

/-- The body of a write's log is well below the size of its region. -/
theorem Written.logFits (h : Written zs r zs' tx) : LogFits (writeLog zs r) := by
  have hmax := h.blen_le
  have h1 : (oldExtents zs r).length ≤ r.blen := by
    refine (merge_length _).trans (Nat.le_of_eq ?_)
    rw [rangeWords, readWords_length]
  have h2 : (newExtents zs r).length ≤ r.blen := (alloc_extents h.blen_pos h.room).2.1
  have h3 := lbaToBitmapId_length (oldExtents zs r)
  have h4 := lbaToBitmapId_length (newExtents zs r)
  have hlen := h.newWords_length
  have hsize : logSize (writeLog zs r) = 88 * (namedEntries zs r).length + 4 * r.blen + 112 := by
    rw [writeLog, logSize_append, logSize_bitmapLogs, logSize_pair, lineBytes_length,
      wordsBytes_length]
    rw [newWords] at hlen
    rw [hlen]
    omega
  rw [namedEntries, List.length_append] at hsize
  unfold LogFits ceilAlign pmLogRegionSize
  omega

theorem Created.index_le (hf : Formatted zs) (h : Created zs r zs' tx) :
    98 * 2 ^ 20 + 4096 * newIndex zs + 4096 ≤ 4 * 2 ^ 30 := by
  have hpm := h.in_pm
  simp only [hf.size, hf.dySpace, zstorePageSize] at hpm
  linarith

theorem onodeLog_copy (hf : Formatted zs) {oid : Nat} (ho : oid < 2 ^ 20) (ote : OtableEntry) :
    (onodeLog zs oid ote).copy = (34 * 2 ^ 20 + 64 * oid, lineBytes ote) := by
  simp only [onodeLog, PmLogEntry.copy, hf.otableOfst, BitVec.toNat_ofNat,
    Nat.mod_eq_of_lt (by omega : 34 * 2 ^ 20 + 64 * oid < 2 ^ 64)]

theorem Created.targets_eq (hf : Formatted zs) (h : Created zs r zs' tx) :
    targets (createLog zs r) =
      [(34 * 2 ^ 20 + 64 * r.object, lineBytes (otableEntry r.object (newIndex zs))),
        (33 * 2 ^ 20 + 64 * (newIndex zs / 512), lineBytes ((newPm zs).bs (newIndex zs / 512)))] := by
  have hoid := h.oid
  have hidx := h.index_le hf
  rw [hf.onodesRsv] at hoid
  rw [targets, createLog, List.map_cons, onodeLog_copy hf hoid, List.map_cons, List.map_nil,
    copy_bitmapLog _ _ _ (by rw [hf.dyBitmap]; omega), hf.dyBitmap]

theorem Deleted.targets_eq (hf : Formatted zs) (h : Deleted zs r zs' tx) :
    targets (deleteLog zs r) = [(34 * 2 ^ 20 + 64 * r.object, lineBytes 0)] := by
  have hoid := h.oid
  rw [hf.onodesRsv] at hoid
  rw [targets, deleteLog, List.map_cons, onodeLog_copy hf hoid, List.map_nil]

theorem createLog_fits (zs : ZstoreContext) (r : Request) : LogFits (createLog zs r) := by
  rw [LogFits, createLog, logSize_pair]
  simp only [onodeLog, bitmapLog, lineBytes_length, ceilAlign, pmLogRegionSize]
  omega

theorem deleteLog_fits (zs : ZstoreContext) (r : Request) : LogFits (deleteLog zs r) := by
  simp [LogFits, deleteLog, logSize, PmLogEntry.size, onodeLog, ceilAlign, pmLogRegionSize]

end Views
end ZCell.Store
