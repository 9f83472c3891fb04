import ZCell.Errcode
import Mathlib.Data.BitVec
import Mathlib.Tactic.Linarith

/-! spdk_bdev/bdev_zcell.c: the virtual disks and the translation of their block addresses into
objects. Object ids are handed out to the disks, but the translation does not use them. -/
namespace ZCell.Bdev

def stripeUnit : Nat := 4 * 2 ^ 20
def stripeUnitShift : Nat := 22

/-- `zcell_disk` with the fields of its `spdk_bdev` that the callbacks read. -/
structure ZcellDisk where
  stripeOidStart : BitVec 64
  blocklen : BitVec 32
  blockcnt : BitVec 64
  deriving DecidableEq, Repr

/-- `oid_max` and `g_zcell_disk_head`. -/
structure Module where
  oidMax : BitVec 64
  disks : List ZcellDisk

/-- The first object id of a disk, and the new `oid_max`. -/
def getOidStart (giB stripes oidMax : BitVec 64) : BitVec 64 × BitVec 64 :=
  let objs := (giB <<< (30 - stripeUnitShift)) / stripes
  (oidMax, oidMax + objs)

def enomem : Int := 12

/-- `zdisk` tells whether `calloc` found memory for the disk. -/
def createZcellDisk (zdisk : Bool) (sizeGiB : BitVec 32) (m : Module) : Int × Module :=
  if !zdisk then (-enomem, m)
  else
    let (oid, oidMax) := getOidStart (sizeGiB.setWidth 64) 1 m.oidMax
    let disk : ZcellDisk := ⟨oid, 0x1000, sizeGiB.setWidth 64 <<< 18⟩
    (0, ⟨oidMax, m.disks ++ [disk]⟩)

/-- What a read or write carries. -/
structure BdevIo where
  isRead : Bool
  offsetBlocks : BitVec 64
  numBlocks : BitVec 64
  iovcnt : Nat
  iovBase : BitVec 64
  deriving DecidableEq, Repr

/-- A call of `io_read2` or `io_write` on a channel of the group. -/
structure OssIo where
  isRead : Bool
  stripeId : Nat
  objId : BitVec 64
  objOffset : BitVec 64
  len : BitVec 32
  buffer : BitVec 64
  deriving DecidableEq, Repr

inductive GetBuf where
  | failed
  | dropped
  | submitted (io : OssIo)
  deriving DecidableEq, Repr

/-- The disk gives the block length only; `stripe_oid_start` is not used. -/
def bdevZcellGetBufCb (disk : ZcellDisk) (io : BdevIo) (success : Bool) : Except Fault GetBuf :=
  if !success then .ok .failed
  else
    let len := (io.numBlocks * disk.blocklen.setWidth 64).setWidth 32
    let offset := io.offsetBlocks * disk.blocklen.setWidth 64
    let stripeId := (offset.toNat / 2 ^ stripeUnitShift) % 1
    let objId := offset / BitVec.ofNat 64 stripeUnit
    let objOffset := offset % BitVec.ofNat 64 stripeUnit
    if 1 < io.iovcnt then .error .assertion
    else if io.iovBase = 0 then .ok .dropped
    else .ok (.submitted ⟨io.isRead, stripeId, objId, objOffset, len, io.iovBase⟩)

/-- The module after a sequence of `create_zcell_disk` calls. -/
def created (calls : List (Bool × BitVec 32)) : Module :=
  calls.foldl (fun m c => (createZcellDisk c.1 c.2 m).2) ⟨0, []⟩

/-- The sizes of the disks that were created. -/
def sizes (calls : List (Bool × BitVec 32)) : List (BitVec 32) :=
  (calls.filter fun c => c.1).map fun c => c.2

/-- The I/O lies inside the disk and inside one stripe. -/
structure Inside (d : ZcellDisk) (io : BdevIo) : Prop where
  pos : 0 < io.numBlocks.toNat
  disk : io.offsetBlocks.toNat + io.numBlocks.toNat ≤ d.blockcnt.toNat
  stripe : io.offsetBlocks.toNat / 1024 =
    (io.offsetBlocks.toNat + io.numBlocks.toNat - 1) / 1024

/-- I/Os that differ in the disk or in the block address address different places, and every disk
stays in its own range of objects. -/
def Isolated (calls : List (Bool × BitVec 32)) : Prop :=
  (∀ (i j : Nat) di dj a b ca cb, (created calls).disks[i]? = some di → (created calls).disks[j]? = some dj →
    Inside di a → Inside dj b → bdevZcellGetBufCb di a true = .ok (.submitted ca) →
    bdevZcellGetBufCb dj b true = .ok (.submitted cb) → i ≠ j ∨ a.offsetBlocks ≠ b.offsetBlocks →
    (ca.objId, ca.objOffset) ≠ (cb.objId, cb.objOffset)) ∧
  ∀ (i : Nat) d (g : BitVec 32) a c, (created calls).disks[i]? = some d → (sizes calls)[i]? = some g → Inside d a →
    bdevZcellGetBufCb d a true = .ok (.submitted c) →
    d.stripeOidStart.toNat ≤ c.objId.toNat ∧
      c.objId.toNat < d.stripeOidStart.toNat + 256 * g.toNat

/-- A disk of the given size. -/
def ZcellDisk.ofSize (oid : BitVec 64) (g : BitVec 32) : ZcellDisk :=
  ⟨oid, 0x1000, g.setWidth 64 <<< 18⟩

/-- The objects that a disk of the given size reserves. -/
def objects (g : BitVec 32) : BitVec 64 := (g.setWidth 64 <<< 8) / 1

section Disks
variable {calls : List (Bool × BitVec 32)} {g : BitVec 32} {oid : BitVec 64} {i : Nat}

theorem created_append (calls : List (Bool × BitVec 32)) (m : Module) :
    calls.foldl (fun m c => (createZcellDisk c.1 c.2 m).2) m =
      ⟨m.oidMax + ((sizes calls).map objects).sum,
        m.disks ++ (List.range (sizes calls).length).map fun i =>
          .ofSize (m.oidMax + (((sizes calls).take i).map objects).sum) ((sizes calls).getD i 0)⟩ := by
  induction calls generalizing m with
  | nil => simp [sizes]
  | cons c calls ih =>
    obtain ⟨zdisk, g⟩ := c
    rw [List.foldl_cons, ih]
    cases zdisk with
    | false => simp [createZcellDisk, sizes]
    | true =>
      have hs : sizes ((true, g) :: calls) = g :: sizes calls := by simp [sizes]
      rw [hs, List.length_cons, List.range_succ_eq_map]
      simp only [createZcellDisk, Bool.not_true, Bool.false_eq_true, if_false, getOidStart,
        List.map_cons, List.sum_cons, List.append_assoc, List.singleton_append, List.map_map]
      congr 1
      · simp only [objects, BitVec.add_assoc]
        rfl
      · congr 1
        congr 1
        · simp [ZcellDisk.ofSize]
        · apply List.map_congr_left
          intro i _
          simp only [Function.comp_apply, List.take_succ_cons, List.map_cons, List.sum_cons,
            List.getD_cons_succ, objects, BitVec.add_assoc]
          rfl

theorem disk_at (d : ZcellDisk) : (created calls).disks[i]? = some d ↔
    ∃ g, (sizes calls)[i]? = some g ∧
      d = .ofSize (((sizes calls).take i).map objects).sum g := by
  rw [created, created_append]
  simp only [List.nil_append, List.getElem?_map]
  by_cases hi : i < (sizes calls).length
  · rw [List.getElem?_range hi, List.getElem?_eq_getElem hi]
    simp [List.getD_eq_getElem?_getD, hi, eq_comm]
  · rw [List.getElem?_eq_none (by simpa using hi), List.getElem?_eq_none (by simpa using hi)]
    simp

theorem ofSize_blockcnt (oid : BitVec 64) (g : BitVec 32) :
    (ZcellDisk.ofSize oid g).blockcnt.toNat = 2 ^ 18 * g.toNat := by
  have hg := g.isLt
  simp only [ZcellDisk.ofSize, BitVec.toNat_shiftLeft, BitVec.toNat_setWidth, Nat.shiftLeft_eq]
  omega

/-- The translation of an I/O of a disk. -/
theorem address {a : BdevIo} {c : OssIo} (ha : Inside (.ofSize oid g) a)
    (h : bdevZcellGetBufCb (.ofSize oid g) a true = .ok (.submitted c)) :
    c.objId.toNat = a.offsetBlocks.toNat / 1024 ∧
    c.objOffset.toNat = 4096 * (a.offsetBlocks.toNat % 1024) := by
  have hd := ha.disk
  rw [ofSize_blockcnt] at hd
  have hg := g.isLt
  have hpos := ha.pos
  simp only [bdevZcellGetBufCb, ZcellDisk.ofSize, Bool.not_true, Bool.false_eq_true, if_false] at h
  split at h
  · cases h
  · split at h
    · cases h
    · simp only [Except.ok.injEq, GetBuf.submitted.injEq] at h
      subst h
      have hlen : (BitVec.setWidth 64 (0x1000 : BitVec 32)).toNat = 4096 := by decide
      have hunit : (BitVec.ofNat 64 stripeUnit).toNat = 4194304 := by decide
      have hoff : (a.offsetBlocks * BitVec.setWidth 64 (0x1000 : BitVec 32)).toNat =
          a.offsetBlocks.toNat * 4096 := by
        rw [BitVec.toNat_mul, hlen, Nat.mod_eq_of_lt (by omega)]
      simp only [BitVec.toNat_udiv, BitVec.toNat_umod, hoff, hunit]
      omega

theorem sum_zero {l : List (BitVec 32)} (h : ∀ g ∈ l, g = 0) : (l.map objects).sum = 0 := by
  induction l with
  | nil => rfl
  | cons g l ih =>
    rw [List.map_cons, List.sum_cons, ih fun x hx => h x (List.mem_cons_of_mem g hx),
      h g (List.mem_cons_self ..)]
    rfl

/-- An I/O of one block at the start of a disk. -/
def firstBlock : BdevIo := ⟨true, 0, 1, 1, 0x1000⟩

theorem firstBlock_inside (hg : g ≠ 0) : Inside (.ofSize oid g) firstBlock := by
  have hpos : g.toNat ≠ 0 := fun h0 => hg (BitVec.eq_of_toNat_eq h0)
  refine ⟨by decide, ?_, by decide⟩
  have h0 : firstBlock.offsetBlocks.toNat = 0 := rfl
  have h1 : firstBlock.numBlocks.toNat = 1 := rfl
  rw [ofSize_blockcnt, h0, h1]
  omega

theorem firstBlock_submitted (oid : BitVec 64) (g : BitVec 32) :
    bdevZcellGetBufCb (.ofSize oid g) firstBlock true =
      .ok (.submitted ⟨true, 0, 0, 0, 4096, 0x1000⟩) := by
  simp only [bdevZcellGetBufCb, ZcellDisk.ofSize, firstBlock]
  decide

end Disks

/-- The disks are kept apart exactly when no two of them have blocks. -/
theorem isolated_iff (calls : List (Bool × BitVec 32)) :
    Isolated calls ↔ ∀ (i j : Nat) gi gj, (sizes calls)[i]? = some gi → (sizes calls)[j]? = some gj →
      gi ≠ 0 → gj ≠ 0 → i = j := by
  constructor
  · rintro ⟨h, _⟩ i j gi gj hi hj hgi hgj
    by_contra hne
    exact h i j _ _ firstBlock firstBlock _ _ ((disk_at _).mpr ⟨gi, hi, rfl⟩)
      ((disk_at _).mpr ⟨gj, hj, rfl⟩) (firstBlock_inside hgi) (firstBlock_inside hgj)
      (firstBlock_submitted _ _) (firstBlock_submitted _ _) (Or.inl hne) rfl
  · intro hone
    have hsize : ∀ {oid g a}, Inside (.ofSize oid g) a → g ≠ 0 := by
      rintro oid g a ha rfl
      have hd := ha.disk
      have hpos := ha.pos
      rw [ofSize_blockcnt] at hd
      simp at hd
      omega
    refine ⟨fun i j di dj a b ca cb hdi hdj ha hb hca hcb hdiff => ?_,
      fun i d g a c hd hg ha hc => ?_⟩
    · obtain ⟨gi, hi, rfl⟩ := (disk_at di).mp hdi
      obtain ⟨gj, hj, rfl⟩ := (disk_at dj).mp hdj
      have hij := hone i j gi gj hi hj (hsize ha) (hsize hb)
      have hoff : a.offsetBlocks.toNat ≠ b.offsetBlocks.toNat := by
        obtain hne | hne := hdiff
        · exact absurd hij hne
        · exact fun heq => hne (BitVec.eq_of_toNat_eq heq)
      obtain ⟨a1, a2⟩ := address ha hca
      obtain ⟨b1, b2⟩ := address hb hcb
      intro heq
      simp only [Prod.mk.injEq] at heq
      rw [heq.1, b1] at a1
      rw [heq.2, b2] at a2
      omega
    · obtain ⟨g', hg', rfl⟩ := (disk_at d).mp hd
      obtain rfl : g = g' := Option.some.inj (hg.symm.trans hg')
      -- the disks in front of this one are empty
      have hstart : (((sizes calls).take i).map objects).sum = 0 := by
        apply sum_zero
        intro x hx
        obtain ⟨j, hj, rfl⟩ := List.mem_iff_getElem.mp hx
        rw [List.length_take] at hj
        by_contra hne
        have hjs : j < (sizes calls).length := by omega
        rw [List.getElem_take] at hne
        have hji := hone j i _ g (List.getElem?_eq_getElem hjs) hg hne (hsize ha)
        omega
      obtain ⟨a1, _⟩ := address ha hc
      have hd := ha.disk
      have hpos := ha.pos
      rw [ofSize_blockcnt] at hd
      have hzero : (ZcellDisk.ofSize 0 g).stripeOidStart.toNat = 0 := rfl
      rw [hstart, a1, hzero]
      omega

/-- Two disks of 1 GiB: both first blocks are the start of object 0. -/
theorem twoDisks_not_isolated : ¬ Isolated [(true, 1), (true, 1)] := by
  rintro ⟨h, _⟩
  have h0 : (created [(true, 1), (true, 1)]).disks[0]? = some (.ofSize 0 1) := by decide
  have h1 : (created [(true, 1), (true, 1)]).disks[1]? = some (.ofSize 256 1) := by decide
  exact h 0 1 _ _ firstBlock firstBlock _ _ h0 h1 (firstBlock_inside (by decide))
    (firstBlock_inside (by decide)) (firstBlock_submitted _ _) (firstBlock_submitted _ _)
    (Or.inl (by decide)) rfl

end ZCell.Bdev
