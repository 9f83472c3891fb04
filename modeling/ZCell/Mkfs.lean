import ZCell.StoreStep
import ZCell.AllocatorBounds

/-! zstore.c: `zstore_mkfs` and `zstore_mount`, and the store that a mount finds behind a mkfs. -/
namespace ZCell.Store
open Bytes Persist Pm Allocator

def zstoreMagic : Nat := 0x1997070519980218
def zstoreMkfsReserveObjid : BitVec 32 := 4
def zstoreMkfsReserveObjNr : Nat := 512 * 512

/-- The assignments to the fields of `zsb`: offset in the union and bytes. -/
def superblockFields (nblks npmBlks : Nat) : List (Nat × List Byte) :=
  [(0, leBytes 8 zstoreMagic), (48, leBytes 8 4096), (32, leBytes 4 nblks), (40, leBytes 4 npmBlks),
    (72, leBytes 8 (2 ^ 20)), (56, leBytes 8 (2 ^ 20)), (64, leBytes 8 (33 * 2 ^ 20)),
    (80, leBytes 8 (34 * 2 ^ 20)), (88, leBytes 8 (98 * 2 ^ 20)), (36, leBytes 4 4096),
    (44, leBytes 4 4096), (16, leBytes 8 12), (24, leBytes 8 12)]

def Superblock.read (m : Image) : Superblock where
  magic := loadLe m 0 8
  ssdMinAllocSizeShift := loadLe m 16 8
  ssdNrPages := loadLe m 32 4
  pmNrPages := loadLe m 40 4
  pmSsdBitmapOfst := loadLe m 56 8
  pmDyBitmapOfst := loadLe m 64 8
  onodesRsv := loadLe m 72 8
  pmOtableOfst := loadLe m 80 8
  pmDySpaceOfst := loadLe m 88 8

/-- `e` with `oid`, `data_idx_id` and `valid` assigned; the other bits are what the stack held. -/
def reservedEntry (e : OtableEntry) (i : Nat) : OtableEntry :=
  BitVec.ofNat 512 (1 + 2 * (e.toNat / 2 % 2 ^ 15) + 2 ^ 16 * (i % 2 ^ 48) +
    2 ^ 64 * (e.toNat / 2 ^ 64 % 2 ^ 32) + 2 ^ 96 * (i % 2 ^ 32) + 2 ^ 128 * (e.toNat / 2 ^ 128))

/-- Pages `first` to `first+n-1`, written one by one. -/
def writePages (v : Byte) (first n : Nat) : List PmOp :=
  (List.range n).flatMap fun i =>
    pmemWrite true (List.replicate zstorePageSize v) ((first + i) * zstorePageSize)

/-- The reserved objects: bitmaps, onodes and index blocks. `e` is what the stack holds in the
place of the onode of a round. -/
def reserveOps (e : Nat → OtableEntry) : List PmOp :=
  if zstoreMkfsReserveObjNr % (4096 * 8 * 8) ≠ 0 then []
  else
    let pages := zstoreMkfsReserveObjNr / (4096 * 8 * 8)
    writePages 0xff (2 ^ 20 / zstorePageSize) pages ++
    writePages 0xff (33 * 2 ^ 20 / zstorePageSize) pages ++
    ((List.range zstoreMkfsReserveObjNr).flatMap fun i =>
      pmemWrite true (lineBytes (reservedEntry (e i) i)) (34 * 2 ^ 20 + i * 64)) ++
    writePages 0xff (98 * 2 ^ 20 / zstorePageSize) zstoreMkfsReserveObjNr

/-- `stk` is what the stack holds in the place of the superblock. -/
def mkfsOps (stk : Image) (e : Nat → OtableEntry) (nblks : Nat) (pmSize : Nat) (flags : BitVec 32) :
    List PmOp :=
  let zsb := storeAll stk (superblockFields (min (2 ^ 28) nblks) (pmSize / 2 ^ 12))
  pmemWrite true (load zsb 0 zstorePageSize) 0 ++
  writePages 0 1 255 ++
  writePages 0 (2 ^ 20 / zstorePageSize) (97 * 2 ^ 20 / zstorePageSize) ++
  if flags &&& zstoreMkfsReserveObjid ≠ 0 then reserveOps e else []

/-- The image that mkfs makes of `m` for a device of `nblks` blocks. -/
def zstoreMkfs (stk : Image) (e : Nat → OtableEntry) (nblks : Nat) (flags : BitVec 32) (m : Image) :
    Image :=
  finish m (mkfsOps stk e nblks (pmemOpen 0).size flags)

/-- What mount finds in ordinary memory: the two bitmaps from `calloc`, the address of the onode
table, the memory itself and the stack below the buffer of `pmem_recovery`. -/
structure MountMem where
  ssdBs : Nat → BitVec 512
  pmBs : Nat → BitVec 512
  otable : Nat
  mem : Image
  stk : Image

/-- Every entry of the bitmap at `ofst` loaded; `b` is the memory at `bs_`. -/
def loadedAllocator (b : Nat → BitVec 512) (nrTotal : Nat) (pm : Image) (ofst : Nat) :
    StupidAllocator :=
  let a := stupidAllocatorConstructor b nrTotal
  loadEntries (fun i => lineAt pm (ofst + 64 * i)) a.nrEntrys a

/-- The constructor and the loop over the entries, which leaves the memory of the bitmap when this has
fewer entries. -/
def loadAllocator (b : Nat → BitVec 512) (nrTotal : Nat) (pm : Image) (ofst : Nat) :
    Except Fault StupidAllocator :=
  if storageEntrys nrTotal < (stupidAllocatorConstructor b nrTotal).nrEntrys then .error .bitmapRange
  else .ok (loadedAllocator b nrTotal pm ofst)

def zstoreMount (cpu : Nat) (flags : BitVec 32) (h : MountMem) (m : Image) :
    Except Fault ZstoreContext :=
  let pmem := pmemOpen cpu
  let zsb := Superblock.read m
  if zsb.magic ≠ zstoreMagic then .error .assertion
  else
    match recovered pmem h.stk m with
    | .error f => .error f
    | .ok pm =>
      match loadAllocator h.ssdBs zsb.ssdNrPages pm zsb.pmSsdBitmapOfst with
      | .error f => .error f
      | .ok ssdAllocator =>
        match loadAllocator h.pmBs zsb.pmNrPages pm zsb.pmDyBitmapOfst with
        | .error f => .error f
        | .ok pmAllocator => .ok {
          mntFlag := flags
          zsb := zsb
          pmem := pmem
          pm := pm
          mem := storeAll h.mem ((List.range zsb.onodesRsv).map fun i =>
            (h.otable + 64 * i, load pm (zsb.pmOtableOfst + 64 * i) 64))
          otable := h.otable
          ssdAllocator := ssdAllocator
          pmAllocator := pmAllocator
          tidMax := 0
          txOutstanding := 0
          txList := []
          txRdonlyOutstanding := 0
          txRdonlyList := [] }

/-- The world around a store that has just been mounted; `heap` is what `malloc` returns for the
transactions. -/
def World.mounted (zs : ZstoreContext) (heap : Nat → ZstoreTransaction) : World where
  zs := zs
  tx := heap
  flight := []
  posted := []
  stack := []
  log := []
  before := fun _ => zs
  after := fun _ => zs

/-- Copies of consecutive ranges of `c` bytes add up to the copy of the whole. -/
theorem storeAll_blocks (m src : Image) (p q c n a : Nat) :
    storeAll m ((List.range n).map fun i => (p + c * i, load src (q + c * i) c)) a =
      if p ≤ a ∧ a < p + c * n then src (q + (a - p)) else m a := by
  induction n with
  | zero => simp
  | succ n ih =>
    rw [List.range_succ, List.map_append, storeAll_append]
    simp only [List.map_cons, List.map_nil, storeAll_cons, storeAll_nil, Nat.mul_succ]
    by_cases hin : p + c * n ≤ a ∧ a < p + c * n + c
    · rw [store_at _ _ _ _ hin.1 (by rw [load_length]; omega), load_getElem, if_pos (by omega)]
      congr 1
      omega
    · rw [store_outside _ _ _ _ (by rw [load_length]; omega), ih]
      have hiff : (p ≤ a ∧ a < p + c * n) ↔ (p ≤ a ∧ a < p + (c * n + c)) := by omega
      simp only [hiff]

theorem finish_append (m : Image) (u v : List PmOp) :
    finish m (u ++ v) = finish (finish m u) v := by
  rw [finish, copies_append, storeAll_append]
  rfl

theorem copies_writePages (v : Byte) (first n : Nat) : copies (writePages v first n) =
    (List.range n).map fun i => (first * 4096 + 4096 * i, load (fun _ => v) (0 + 4096 * i) 4096) := by
  have hpage : ∀ o, load (fun _ => v) o 4096 = List.replicate 4096 v := by
    intro o
    simp [load]
  simp only [hpage]
  induction n with
  | zero => rfl
  | succ n ih =>
    have haddr : (first + n) * 4096 = first * 4096 + 4096 * n := by rw [Nat.add_mul, Nat.mul_comm n]
    rw [writePages, List.range_succ, List.flatMap_append, copies_append, List.map_append, ← ih]
    simp only [List.flatMap_cons, List.flatMap_nil, List.append_nil, List.map_cons, List.map_nil,
      pmemWrite, if_true, copies_persist, zstorePageSize, haddr]
    rfl

theorem finish_writePages (v : Byte) (first n : Nat) (m : Image) (a : Nat) :
    finish m (writePages v first n) a =
      if first * 4096 ≤ a ∧ a < first * 4096 + 4096 * n then v else m a := by
  rw [finish, copies_writePages]
  exact storeAll_blocks m (fun _ => v) (first * 4096) 0 4096 n a

section Fresh
variable {stk : Image} {e : Nat → OtableEntry} {nblks cpu : Nat} {flags : BitVec 32} {m : Image}
  {h : MountMem}

/-- Without the reserve flag the image is the superblock, zeros up to the dynamic space, and
whatever the file held there. -/
theorem zstoreMkfs_at (hflags : flags &&& zstoreMkfsReserveObjid = 0) (a : Nat) :
    zstoreMkfs stk e nblks flags m a =
      if a < 4096 then storeAll stk (superblockFields (min (2 ^ 28) nblks) (2 ^ 20)) a
      else if a < 98 * 2 ^ 20 then 0 else m a := by
  simp only [zstoreMkfs, mkfsOps, hflags, ne_eq, not_true_eq_false, if_false, List.append_nil,
    finish_append, finish_writePages]
  have hsb : ∀ zsb : Image, finish m (pmemWrite true (load zsb 0 zstorePageSize) 0) a =
      if a < 4096 then zsb a else m a := by
    intro zsb
    have hb := storeAll_blocks m zsb 0 0 4096 1 a
    simpa [finish, pmemWrite, zstorePageSize] using hb
  rw [hsb]
  have hpages : (pmemOpen 0).size / 2 ^ 12 = 2 ^ 20 := rfl
  rw [hpages]
  unfold zstorePageSize
  by_cases h1 : a < 4096
  · rw [if_neg (by omega), if_neg (by omega), if_pos h1, if_pos h1]
  · by_cases h2 : a < 98 * 2 ^ 20
    · rw [if_neg h1, if_pos h2]
      by_cases h3 : a < 2 ^ 20
      · rw [if_neg (by omega), if_pos (by omega), if_neg h1]
      · rw [if_pos (by omega), if_neg h1]
    · rw [if_neg (by omega), if_neg (by omega), if_neg h1, if_neg h1, if_neg h2]

theorem loadLe_zero {m : Image} {o n : Nat} (hz : ∀ i < n, m (o + i) = 0) : loadLe m o n = 0 := by
  rw [loadLe, @load_congr m (fun _ => 0) o n hz]
  have hrep : load (fun _ => 0) o n = leBytes n 0 := by
    induction n with
    | zero => rfl
    | succ n ih =>
      have ih' := ih fun i hi => hz i (by omega)
      simp only [load, leBytes] at ih' ⊢
      rw [List.range_succ_eq_map]
      simpa [Function.comp_def] using ih'
  rw [hrep, leValue_leBytes]
  exact Nat.zero_mod _

def mkfsSuperblock (nblks : Nat) : Superblock where
  magic := zstoreMagic
  ssdMinAllocSizeShift := 12
  ssdNrPages := nblks
  pmNrPages := 2 ^ 20
  pmSsdBitmapOfst := 2 ^ 20
  pmDyBitmapOfst := 33 * 2 ^ 20
  onodesRsv := 2 ^ 20
  pmOtableOfst := 34 * 2 ^ 20
  pmDySpaceOfst := 98 * 2 ^ 20

/-- The superblock is read back as it was written. -/
theorem superblock_read {img stk : Image} {n : Nat} (hn : n < 256 ^ 4)
    (himg : ∀ a < 4096, img a = storeAll stk (superblockFields n (2 ^ 20)) a) :
    Superblock.read img = mkfsSuperblock n := by
  have hfield : ∀ o n', o + n' ≤ 4096 → loadLe img o n' =
      loadLe (storeAll stk (superblockFields n (2 ^ 20))) o n' := by
    intro o n' ho
    apply loadLe_congr
    intro i hi
    exact himg _ (by omega)
  have hmagic : zstoreMagic < 256 ^ 8 := by decide
  simp only [Superblock.read, mkfsSuperblock, hfield, Nat.reduceAdd, Nat.reduceLeDiff,
    superblockFields, storeAll_cons, storeAll_nil]
  simp (disch := first | assumption | simp) only [loadLe_store_disjoint, loadLe_store_same]

theorem superblock_mkfs (hflags : flags &&& zstoreMkfsReserveObjid = 0) :
    Superblock.read (zstoreMkfs stk e nblks flags m) = mkfsSuperblock (min (2 ^ 28) nblks) := by
  apply superblock_read (by omega)
  intro a ha
  rw [zstoreMkfs_at hflags, if_pos ha]

/-- An allocator with every block of the device free; `b` is what lies behind its bitmap. -/
def emptyAllocator (b : Nat → BitVec 512) (n : Nat) : StupidAllocator where
  bs := fun k => if k < (n + 511) / 512 then 0 else b k
  nrFree := n
  nrTotal := n
  nrEntrys := (n + 511) / 512
  hint := 0

/-- The store that mount builds behind a mkfs without the reserve flag, on the image `pm`. -/
def freshStore (cpu : Nat) (flags : BitVec 32) (h : MountMem) (nblks : Nat) (pm : Image) :
    ZstoreContext where
  mntFlag := flags
  zsb := mkfsSuperblock nblks
  pmem := pmemOpen cpu
  pm := pm
  mem := fun a => if h.otable ≤ a ∧ a < h.otable + 64 * 2 ^ 20 then 0 else h.mem a
  otable := h.otable
  ssdAllocator := emptyAllocator h.ssdBs nblks
  pmAllocator := emptyAllocator h.pmBs (2 ^ 20)
  tidMax := 0
  txOutstanding := 0
  txList := []
  txRdonlyOutstanding := 0
  txRdonlyList := []

theorem lineAt_zero {m : Image} {a : Nat} (hz : ∀ i < 64, m (a + i) = 0) : lineAt m a = 0 := by
  rw [lineAt, loadLe_zero hz]
  rfl

/-- The entries that mount loads are those of the image. -/
theorem loadedAllocator_bs (b : Nat → BitVec 512) (n : Nat) (pm : Image) (ofst : Nat) {k : Nat}
    (hk : k < (n + 511) / 512) : (loadedAllocator b n pm ofst).bs k = lineAt pm (ofst + 64 * k) := by
  have hentrys : (stupidAllocatorConstructor b n).nrEntrys = (n + 511) / 512 := rfl
  rw [loadedAllocator, hentrys, loadEntries_spec b (fun i => lineAt pm (ofst + 64 * i)) n _
    (Nat.le_refl _)]
  simp only [hk, if_true]

theorem loadedAllocator_total (b : Nat → BitVec 512) (n : Nat) (pm : Image) (ofst : Nat) :
    (loadedAllocator b n pm ofst).nrTotal = n ∧
    (loadedAllocator b n pm ofst).nrEntrys = (n + 511) / 512 := by
  have hentrys : (stupidAllocatorConstructor b n).nrEntrys = (n + 511) / 512 := rfl
  rw [loadedAllocator, hentrys, loadEntries_spec b (fun i => lineAt pm (ofst + 64 * i)) n _
    (Nat.le_refl _)]
  exact ⟨rfl, rfl⟩

/-- The memory of the bitmap has an entry for each that is loaded exactly when the last one is full. -/
theorem loadAllocator_ok {b : Nat → BitVec 512} {n : Nat} {pm : Image} {ofst : Nat}
    {a : StupidAllocator} :
    loadAllocator b n pm ofst = .ok a ↔ n % 512 = 0 ∧ a = loadedAllocator b n pm ofst := by
  have hiff : storageEntrys n < (stupidAllocatorConstructor b n).nrEntrys ↔ n % 512 ≠ 0 := by
    simp only [storageEntrys, stupidAllocatorConstructor]
    omega
  simp only [loadAllocator, hiff]
  by_cases hn : n % 512 = 0
  · rw [if_neg (not_not.mpr hn), Except.ok.injEq]
    exact ⟨fun h => ⟨hn, h.symm⟩, fun h => h.2.symm⟩
  · rw [if_pos hn]
    constructor
    · intro h
      cases h
    · exact fun h => absurd h.1 hn

theorem loadedAllocator_zero (b : Nat → BitVec 512) (n ofst : Nat) {pm : Image}
    (hz : ∀ i < (n + 511) / 512, lineAt pm (ofst + 64 * i) = 0) :
    loadedAllocator b n pm ofst = emptyAllocator b n := by
  have hbs : (fun k => if k < (n + 511) / 512 then lineAt pm (ofst + 64 * k) else b k) =
      (emptyAllocator b n).bs := by
    funext k
    by_cases hk : k < (n + 511) / 512
    · simp only [emptyAllocator, if_pos hk, hz k hk]
    · simp only [emptyAllocator, if_neg hk]
  have hcount : zeroCount (emptyAllocator b n).bs 0 n = n := by
    apply zeroCount_clear
    intro j _ hj
    simp only [bit, emptyAllocator]
    rw [if_pos (by omega)]
    exact BitVec.getLsbD_zero
  have hentrys : (stupidAllocatorConstructor b n).nrEntrys = (n + 511) / 512 := rfl
  rw [loadedAllocator, hentrys, loadEntries_spec b (fun i => lineAt pm (ofst + 64 * i)) n _ (Nat.le_refl _)]
  have hmin : min ((n + 511) / 512 * 512) n = n := by omega
  simp only [stupidAllocatorConstructor, hbs, hmin, hcount]
  rfl

theorem recovered_idle {pmem : Pmem} {stk m : Image}
    (hz : ∀ i < 8, m (pmem.logRegionOfst + i) = 0) : recovered pmem stk m = .ok m := by
  have hlog : (PmLogHeader.read m pmem.logRegionOfst).valid = false := by
    simp only [PmLogHeader.read, loadLe_zero hz]
    rfl
  simp only [recovered, pmemRecovery, hlog]
  rfl

/-- An onode table loaded from zeros. -/
theorem loadOnodes_zero (mem pm : Image) (ot ofst n : Nat)
    (hz : ∀ i < 64 * n, pm (ofst + i) = 0) :
    storeAll mem ((List.range n).map fun i => (ot + 64 * i, load pm (ofst + 64 * i) 64)) =
      fun a => if ot ≤ a ∧ a < ot + 64 * n then 0 else mem a := by
  funext a
  rw [storeAll_blocks]
  split
  · exact hz _ (by omega)
  · rfl

/-- A device that can be mounted fills the last entry of its bitmap. -/
theorem zstoreMount_full {zs : ZstoreContext} (hm : zstoreMount cpu flags h m = .ok zs) :
    (Superblock.read m).ssdNrPages % 512 = 0 := by
  simp only [zstoreMount] at hm
  split at hm
  · cases hm
  · split at hm
    · cases hm
    · split at hm
      · cases hm
      · rename_i a hssd
        exact (loadAllocator_ok.mp hssd).1

theorem zstoreMount_size {zs : ZstoreContext} {n : Nat} (hm : zstoreMount cpu flags h m = .ok zs)
    (hsuper : Superblock.read m = mkfsSuperblock n) : n % 512 = 0 := by
  have hfull := zstoreMount_full hm
  rwa [hsuper] at hfull

/-- An image with the superblock of mkfs, from which the log can be recovered. -/
theorem mount_recovered {pm : Image} {n : Nat} (hsuper : Superblock.read m = mkfsSuperblock n)
    (hfull : n % 512 = 0) (hrec : recovered (pmemOpen cpu) h.stk m = .ok pm) (flags : BitVec 32) :
    ∃ zs, zstoreMount cpu flags h m = .ok zs ∧ zs.pm = pm ∧ zs.zsb = mkfsSuperblock n := by
  have hmagic : ¬ (mkfsSuperblock n).magic ≠ zstoreMagic := fun hne => hne rfl
  have hssd := (@loadAllocator_ok h.ssdBs (mkfsSuperblock n).ssdNrPages pm
    (mkfsSuperblock n).pmSsdBitmapOfst _).mpr ⟨hfull, rfl⟩
  have hpm := (@loadAllocator_ok h.pmBs (mkfsSuperblock n).pmNrPages pm
    (mkfsSuperblock n).pmDyBitmapOfst _).mpr ⟨(by decide : 2 ^ 20 % 512 = 0), rfl⟩
  simp only [zstoreMount, hsuper, hrec, if_neg hmagic, hssd, hpm]
  exact ⟨_, rfl, rfl, rfl⟩

/-- Mounting an image without a log, without objects and without index blocks. -/
theorem mount_blank {pm : Image} {n : Nat} (hsb : Superblock.read pm = mkfsSuperblock n)
    (hcpu : cpu < 127) (hfull : n % 512 = 0) (hz : ∀ a, 4096 ≤ a → a < 98 * 2 ^ 20 → a < 2 ^ 20 ∨ 33 * 2 ^ 20 ≤ a →
      pm a = 0) (mflags : BitVec 32) :
    zstoreMount cpu mflags h pm = .ok { freshStore cpu mflags h n pm with
      ssdAllocator := loadedAllocator h.ssdBs n pm (2 ^ 20) } := by
  have hrec : recovered (pmemOpen cpu) h.stk pm = .ok pm := by
    apply recovered_idle
    intro i hi
    have hlog : (pmemOpen cpu).logRegionOfst = 4096 + cpu * 8192 := rfl
    exact hz _ (by omega) (by omega) (Or.inl (by omega))
  have hpm : loadAllocator h.pmBs (2 ^ 20) pm (33 * 2 ^ 20) = .ok (emptyAllocator h.pmBs (2 ^ 20)) := by
    refine loadAllocator_ok.mpr ⟨by decide, Eq.symm ?_⟩
    apply loadedAllocator_zero
    intro i hi
    exact lineAt_zero fun j hj => hz _ (by omega) (by omega) (Or.inr (by omega))
  have hssd := (@loadAllocator_ok h.ssdBs n pm (2 ^ 20) _).mpr ⟨hfull, rfl⟩
  have hmem := loadOnodes_zero h.mem pm h.otable (34 * 2 ^ 20) (2 ^ 20)
    fun i hi => hz _ (by omega) (by omega) (Or.inr (by omega))
  have hmagic : ¬ (mkfsSuperblock n).magic ≠ zstoreMagic := fun hne => hne rfl
  simp only [zstoreMount, hsb, hrec, if_neg hmagic]
  simp only [freshStore, mkfsSuperblock, hssd, hpm, hmem]

/-- Mounting an image that mkfs made: no log waits there, and everything is empty. -/
theorem mount_mkfs (hflags : flags &&& zstoreMkfsReserveObjid = 0) (hcpu : cpu < 127)
    (hfull : min (2 ^ 28) nblks % 512 = 0) (mflags : BitVec 32) :
    zstoreMount cpu mflags h (zstoreMkfs stk e nblks flags m) =
      .ok (freshStore cpu mflags h (min (2 ^ 28) nblks) (zstoreMkfs stk e nblks flags m)) := by
  have hat := @zstoreMkfs_at stk e nblks flags m hflags
  have hz : ∀ a, 4096 ≤ a → a < 98 * 2 ^ 20 → zstoreMkfs stk e nblks flags m a = 0 := by
    intro a h1 h2
    rw [hat, if_neg (by omega), if_pos h2]
  have hssd : loadedAllocator h.ssdBs (min (2 ^ 28) nblks) (zstoreMkfs stk e nblks flags m) (2 ^ 20) =
      emptyAllocator h.ssdBs (min (2 ^ 28) nblks) := by
    apply loadedAllocator_zero
    intro i hi
    exact lineAt_zero fun j hj => hz _ (by omega) (by omega)
  rw [mount_blank (superblock_mkfs hflags) hcpu hfull (fun a h1 h2 _ => hz a h1 h2), hssd]
  simp only [freshStore]

/-- Where `calloc` put the onode table. -/
def MountMem.Placed (h : MountMem) : Prop := 0 < h.otable ∧ h.otable + 64 * 2 ^ 20 ≤ 2 ^ 64

theorem freshStore_formatted (hcpu : cpu < 127) (hp : h.Placed) (hn : nblks ≤ 2 ^ 28) (pm : Image) :
    Formatted (freshStore cpu flags h nblks pm) where
  shift := rfl
  ssdBitmap := rfl
  dyBitmap := rfl
  otableOfst := rfl
  dySpace := rfl
  onodesRsv := rfl
  size := rfl
  log := by
    simp only [freshStore, pmemOpen, pmLogRegionSize]
    omega
  otable_pos := hp.1
  otable_le := hp.2
  ssdTotal := hn
  ssdEntrys := rfl
  pmTotal := rfl
  pmEntrys := rfl

/-- No object exists in a fresh store. -/
theorem freshStore_onode {oid : Nat} (ho : oid < 2 ^ 20) (pm : Image) :
    (freshStore cpu flags h nblks pm).onode oid = 0 := by
  apply lineAt_zero
  intro i hi
  simp only [freshStore, ZstoreContext.onodeAddr]
  rw [if_pos (by omega)]

theorem freshStore_mounted (hcpu : cpu < 127) (hp : h.Placed) (hn : nblks ≤ 2 ^ 28) {pm : Image}
    (hz : ∀ a, 4096 ≤ a → a < 98 * 2 ^ 20 → pm a = 0) (heap : Nat → ZstoreTransaction) :
    Mounted (World.mounted (freshStore cpu flags h nblks pm) heap) where
  formatted := freshStore_formatted hcpu hp hn pm
  coherent := by
    intro oid ho
    rw [World.mounted]
    simp only
    rw [freshStore_onode ho]
    exact lineAt_zero fun i hi => hz _ (by omega) (by omega)
  txList := rfl
  txOutstanding := rfl
  txRdonlyList := rfl
  txRdonlyOutstanding := rfl
  flight := rfl
  posted := rfl
  stack := rfl
  log := rfl

/-- The image of a device of 512 blocks whose file held ones before mkfs. -/
def smallImage : Image := fun a =>
  if a < 4096 then storeAll (fun _ => 0) (superblockFields 512 (2 ^ 20)) a
  else if a < 98 * 2 ^ 20 then 0 else 0xff

/-- What the mounts of it find in memory. -/
def smallMem : MountMem := ⟨fun _ => 0, fun _ => 0, 2 ^ 32, fun _ => 0, fun _ => 0⟩

/-- The store mounted on it. -/
def smallStore : ZstoreContext :=
  freshStore 0 0 ⟨fun _ => 0, fun _ => 0, 2 ^ 32, fun _ => 0, fun _ => 0⟩ 512 smallImage

theorem smallStore_mount :
    zstoreMount 0 0 ⟨fun _ => 0, fun _ => 0, 2 ^ 32, fun _ => 0, fun _ => 0⟩
      (zstoreMkfs (fun _ => 0) (fun _ => 0) 512 0 fun _ => 0xff) = .ok smallStore := by
  have hmin : min (2 ^ 28) 512 = 512 := by decide
  have himg : zstoreMkfs (fun _ => 0) (fun _ => 0) 512 0 (fun _ => 0xff) = smallImage := by
    funext a
    rw [zstoreMkfs_at (by decide), hmin, smallImage]
  have hfull : min (2 ^ 28) 512 % 512 = 0 := by rw [hmin]
  rw [mount_mkfs (by decide) (by decide) hfull, himg, hmin, smallStore]

/-- The store mounted on it, with nothing called yet. -/
def smallWorld : World :=
  World.mounted smallStore fun _ =>
    ⟨0, .write, false, .prepare, 0, ⟨.other, 0, 0, 0, 0⟩, 0, 0, [], none⟩

/-- A device that accepts every bio, and callbacks that call nothing. -/
def smallEnv : Env := ⟨fun _ => ⟨fun _ => 0, fun _ => ⟨0, 0⟩⟩, fun _ => [], fun _ _ => true⟩

theorem smallWorld_mounted : Mounted smallWorld :=
  freshStore_mounted (by decide) ⟨by decide, by decide⟩ (by decide)
    (fun a h1 h2 => by rw [smallImage, if_neg (by omega), if_pos h2]) _

end Fresh
end ZCell.Store
