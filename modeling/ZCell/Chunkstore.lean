import Mathlib.Data.BitVec
import ZCell.Server

/-! chunkstore.c: a store whose objects are the 4 MiB chunks of a block device, one after the other.
The arguments of a request are narrowed to 32 bits on their way to the device. -/
namespace ZCell.Chunkstore
open Server

/-- The operation of a message and the arguments in its meta buffer. -/
structure Request where
  op : Nat
  oid : BitVec 64
  ofst : BitVec 64
  len : BitVec 64
  deriving DecidableEq, Repr

/-- `cs->stat`. -/
structure Stat where
  dataGb : BitVec 64
  maxOid : BitVec 64
  maxObjSz : BitVec 64
  deriving DecidableEq, Repr

def hardcodeStat (blockSize : BitVec 32) (numBlocks : BitVec 64) : Except Fault Stat :=
  if blockSize ≠ 4096 then .error .assertion
  else
    let cb := numBlocks * blockSize.setWidth 64
    .ok ⟨cb / 0x40000000, cb / 0x400000, 0x400000⟩

/-- A call of `spdk_bdev_read_blocks` or `spdk_bdev_write_blocks`. -/
structure BlockIo where
  isRead : Bool
  bdevOfst : BitVec 64
  bdevLen : BitVec 64
  deriving DecidableEq, Repr

/-- What these calls return. -/
abbrev Bdev := BlockIo → Int

/-- Offset and length in blocks, computed in 32 bits and widened. -/
def obj2blk (oid oOfst oLen : BitVec 32) : BitVec 64 × BitVec 64 :=
  (((oid * 1024#32) + (oOfst >>> 12)).setWidth 64, (oLen >>> 12).setWidth 64)

/-- The code that is returned, and what has been submitted. -/
def doRw (bdev : Bdev) (isRead : Bool) (r : Request) : Int × Option BlockIo :=
  let (bdevOfst, bdevLen) := obj2blk (r.oid.setWidth 32) (r.ofst.setWidth 32) (r.len.setWidth 32)
  let io := ⟨isRead, bdevOfst, bdevLen⟩
  if bdev io ≠ 0 then (Status.ostoreIoError.code, none) else (Status.success.code, some io)

def doRead (bdev : Bdev) (r : Request) : Int × Option BlockIo := doRw bdev true r

def doWrite (bdev : Bdev) (r : Request) : Int × Option BlockIo := doRw bdev false r

/-- `chunkstore_obj_async_op_call`. The handlers of stat, create and delete only send a callback. -/
def chunkstoreObjAsyncOpCall (bdev : Bdev) (r : Request) : Except Fault (Int × Option BlockIo) :=
  match r.op with
  | msgOssOpStat | msgOssOpCreate | msgOssOpDelete => .ok (Status.success.code, none)
  | msgOssOpRead => .ok (doRead bdev r)
  | msgOssOpWrite => .ok (doWrite bdev r)
  | _ => .error .nullPointer

/-- The request lies in one object of the device. -/
def Inside (s : Stat) (r : Request) : Prop :=
  r.oid.toNat < s.maxOid.toNat ∧ r.ofst.toNat + r.len.toNat ≤ s.maxObjSz.toNat

instance (s : Stat) (r : Request) : Decidable (Inside s r) := inferInstanceAs (Decidable (_ ∧ _))

/-- The I/O covers block `b` of the device. -/
def BlockIo.Has (io : BlockIo) (b : Nat) : Prop :=
  io.bdevOfst.toNat ≤ b ∧ b < io.bdevOfst.toNat + io.bdevLen.toNat

instance (io : BlockIo) (b : Nat) : Decidable (io.Has b) := inferInstanceAs (Decidable (_ ∧ _))

/-- The request covers block `j` of its object. -/
def Request.Has (r : Request) (j : Nat) : Prop :=
  r.ofst.toNat / 4096 ≤ j ∧ j < r.ofst.toNat / 4096 + r.len.toNat / 4096

/-- What the call submits to the device. -/
def submitted (bdev : Bdev) (r : Request) : Option BlockIo :=
  match chunkstoreObjAsyncOpCall bdev r with
  | .ok (_, io) => io
  | .error _ => none

/-- The first block and the number of blocks that the device is asked for. -/
def firstBlock (r : Request) : Nat := (r.oid.toNat * 1024 + r.ofst.toNat % 2 ^ 32 / 4096) % 2 ^ 32
def blockCount (r : Request) : Nat := r.len.toNat % 2 ^ 32 / 4096

/-- The device takes the range. -/
def Taken (bdev : Bdev) (r : Request) : Prop :=
  bdev ⟨decide (r.op = msgOssOpRead), BitVec.ofNat 64 (firstBlock r), BitVec.ofNat 64 (blockCount r)⟩ = 0

instance (bdev : Bdev) (r : Request) : Decidable (Taken bdev r) := inferInstanceAs (Decidable (_ = _))

/-- A request that does not lie in one object is rejected, and submits nothing. -/
def RejectedOutside (bdev : Bdev) (s : Stat) (r : Request) : Prop :=
  ¬ Inside s r → ∃ rc, rc ≠ Status.success.code ∧ chunkstoreObjAsyncOpCall bdev r = .ok (rc, none)

/-- Requests of different objects get disjoint ranges of the device, and requests outside of the
objects none. -/
structure Separated (bdev : Bdev) (s : Stat) (r r' : Request) : Prop where
  disjoint : r.oid ≠ r'.oid → ∀ io ∈ submitted bdev r, ∀ io' ∈ submitted bdev r',
    ∀ b, io.Has b → ¬ io'.Has b
  first : RejectedOutside bdev s r
  second : RejectedOutside bdev s r'

section Blocks
variable {bdev : Bdev} {s : Stat} {r r' : Request} {io : BlockIo} {b : Nat}

theorem obj2blk_eq (r : Request) :
    obj2blk (r.oid.setWidth 32) (r.ofst.setWidth 32) (r.len.setWidth 32) =
      (BitVec.ofNat 64 (firstBlock r), BitVec.ofNat 64 (blockCount r)) := by
  have hk : (1024#32).toNat = 1024 := rfl
  simp only [obj2blk, firstBlock, blockCount, Prod.mk.injEq]
  constructor
  · apply BitVec.eq_of_toNat_eq
    simp only [BitVec.toNat_setWidth, BitVec.toNat_add, BitVec.toNat_mul, BitVec.toNat_ushiftRight,
      BitVec.toNat_ofNat, Nat.shiftRight_eq_div_pow, hk]
    omega
  · apply BitVec.eq_of_toNat_eq
    simp only [BitVec.toNat_setWidth, BitVec.toNat_ushiftRight, BitVec.toNat_ofNat,
      Nat.shiftRight_eq_div_pow]

theorem call_rw (hrw : r.op = msgOssOpRead ∨ r.op = msgOssOpWrite) : chunkstoreObjAsyncOpCall bdev r = .ok
    (if Taken bdev r then (Status.success.code, some ⟨decide (r.op = msgOssOpRead),
      BitVec.ofNat 64 (firstBlock r), BitVec.ofNat 64 (blockCount r)⟩)
    else (Status.ostoreIoError.code, none)) := by
  have hcall : chunkstoreObjAsyncOpCall bdev r = .ok (doRw bdev (decide (r.op = msgOssOpRead)) r) := by
    obtain hop | hop := hrw
    · simp only [chunkstoreObjAsyncOpCall, hop]
      rfl
    · simp only [chunkstoreObjAsyncOpCall, hop]
      rfl
  rw [hcall, doRw, obj2blk_eq]
  by_cases ht : Taken bdev r
  · rw [if_pos ht]
    exact congrArg Except.ok (if_neg (not_not.mpr ht))
  · rw [if_neg ht]
    exact congrArg Except.ok (if_pos ht)

theorem submitted_iff (hrw : r.op = msgOssOpRead ∨ r.op = msgOssOpWrite) : io ∈ submitted bdev r ↔
    Taken bdev r ∧ io = ⟨decide (r.op = msgOssOpRead), BitVec.ofNat 64 (firstBlock r),
      BitVec.ofNat 64 (blockCount r)⟩ := by
  rw [submitted, call_rw hrw]
  by_cases ht : Taken bdev r
  · simp [ht, eq_comm]
  · simp [ht]

theorem rejectedOutside_iff (hrw : r.op = msgOssOpRead ∨ r.op = msgOssOpWrite) :
    RejectedOutside bdev s r ↔ Inside s r ∨ ¬ Taken bdev r := by
  rw [RejectedOutside, call_rw hrw]
  constructor
  · intro h
    by_cases hin : Inside s r
    · exact Or.inl hin
    · obtain ⟨rc, hne, hrc⟩ := h hin
      refine Or.inr fun ht => hne ?_
      rw [if_pos ht] at hrc
      cases hrc
  · rintro (hin | hno) hout
    · exact absurd hin hout
    · rw [if_neg hno]
      exact ⟨_, by decide, rfl⟩

/-- The objects repeat after 2 ^ 22 ids, where the multiplication wraps. -/
theorem has_inside (hs : s.maxObjSz = 0x400000) (hin : Inside s r)
    (hio : io = ⟨decide (r.op = msgOssOpRead), BitVec.ofNat 64 (firstBlock r),
      BitVec.ofNat 64 (blockCount r)⟩) :
    io.Has b ↔ b / 1024 = r.oid.toNat % 2 ^ 22 ∧ r.Has (b % 1024) := by
  obtain ⟨_, hsize⟩ := hin
  rw [hs] at hsize
  have hmax : (0x400000 : BitVec 64).toNat = 4194304 := rfl
  have hfirst : firstBlock r < 2 ^ 64 := by
    unfold firstBlock
    omega
  have hcount : blockCount r < 2 ^ 64 := by
    unfold blockCount
    omega
  simp only [BlockIo.Has, Request.Has, hio, BitVec.toNat_ofNat, Nat.mod_eq_of_lt hfirst,
    Nat.mod_eq_of_lt hcount]
  unfold firstBlock blockCount
  omega

end Blocks

/-- For two reads or writes: whether they are separated comes down to where they lie, what the device
refuses, and the ids modulo 2 ^ 22. -/
theorem separated_iff (bdev : Bdev) (blockSize : BitVec 32) (numBlocks : BitVec 64) (s : Stat)
    (r r' : Request) (hs : hardcodeStat blockSize numBlocks = .ok s)
    (hrw : r.op = msgOssOpRead ∨ r.op = msgOssOpWrite)
    (hrw' : r'.op = msgOssOpRead ∨ r'.op = msgOssOpWrite) :
    Separated bdev s r r' ↔ (Inside s r ∨ ¬ Taken bdev r) ∧ (Inside s r' ∨ ¬ Taken bdev r') ∧
      (Taken bdev r → Taken bdev r' → r.oid ≠ r'.oid →
        r.oid.toNat % 2 ^ 22 = r'.oid.toNat % 2 ^ 22 → ∀ j, r.Has j → ¬ r'.Has j) := by
  have hsz : s.maxObjSz = 0x400000 := by
    unfold hardcodeStat at hs
    split at hs
    · cases hs
    · obtain rfl := Except.ok.inj hs
      rfl
  constructor
  · rintro ⟨hdis, h1, h2⟩
    have h1 := (rejectedOutside_iff hrw).mp h1
    have h2 := (rejectedOutside_iff hrw').mp h2
    refine ⟨h1, h2, fun ht ht' hne hmod j hj hj' => ?_⟩
    have hin := h1.resolve_right (not_not.mpr ht)
    have hin' := h2.resolve_right (not_not.mpr ht')
    have hlt : j < 1024 := by
      obtain ⟨_, hsize⟩ := hin
      rw [hsz] at hsize
      have hmax : (0x400000 : BitVec 64).toNat = 4194304 := rfl
      unfold Request.Has at hj
      omega
    have hdiv : (1024 * (r.oid.toNat % 2 ^ 22) + j) / 1024 = r.oid.toNat % 2 ^ 22 := by omega
    have hrem : (1024 * (r.oid.toNat % 2 ^ 22) + j) % 1024 = j := by omega
    refine hdis hne _ ((submitted_iff hrw).mpr ⟨ht, rfl⟩) _ ((submitted_iff hrw').mpr ⟨ht', rfl⟩)
      (1024 * (r.oid.toNat % 2 ^ 22) + j) ?_ ?_
    · exact (has_inside hsz hin rfl).mpr ⟨hdiv, hrem.symm ▸ hj⟩
    · exact (has_inside hsz hin' rfl).mpr ⟨hdiv.trans hmod, hrem.symm ▸ hj'⟩
  · rintro ⟨h1, h2, hapart⟩
    refine ⟨fun hne io hio io' hio' b hb hb' => ?_, (rejectedOutside_iff hrw).mpr h1,
      (rejectedOutside_iff hrw').mpr h2⟩
    obtain ⟨ht, hio⟩ := (submitted_iff hrw).mp hio
    obtain ⟨ht', hio'⟩ := (submitted_iff hrw').mp hio'
    obtain ⟨hdiv, hj⟩ := (has_inside hsz (h1.resolve_right (not_not.mpr ht)) hio).mp hb
    obtain ⟨hdiv', hj'⟩ := (has_inside hsz (h2.resolve_right (not_not.mpr ht')) hio').mp hb'
    exact hapart ht ht' hne (hdiv.symm.trans hdiv') _ hj hj'

/-- A device of `n` blocks that takes whatever lies within it. -/
def plainBdev (n : Nat) : Bdev := fun io => if io.bdevOfst.toNat + io.bdevLen.toNat ≤ n then 0 else -22

/-- The statistics of a device of 1 GiB. -/
def gibStat : Stat := ⟨1, 256, 0x400000⟩

theorem neighbours_separated : Separated (plainBdev 262144) gibStat ⟨msgOssOpWrite, 0, 0x3ff000, 4096⟩
    ⟨msgOssOpRead, 1, 0, 4096⟩ :=
  (separated_iff (plainBdev 262144) 4096 262144 gibStat _ _ (by decide) (by decide) (by decide)).mpr
    ⟨Or.inl (by decide), Or.inl (by decide), fun _ _ _ h => absurd h (by decide)⟩

/-- A write to the object 2 ^ 22 goes to the blocks of object 0. -/
theorem wrappedOid_not_separated : hardcodeStat 4096 262144 = .ok gibStat ∧
    ¬ Separated (plainBdev 262144) gibStat ⟨msgOssOpRead, 0, 0, 4096⟩ ⟨msgOssOpWrite, 0x400000, 0, 4096⟩ := by
  refine ⟨by decide, fun h => ?_⟩
  exact h.disjoint (by decide) ⟨true, 0, 1⟩ (by decide) ⟨false, 0, 1⟩ (by decide) 0 (by decide) (by decide)

end ZCell.Chunkstore
