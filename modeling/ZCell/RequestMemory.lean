import ZCell.Response

/-! The memory behind a validated request: the meta buffer that its fields are read from, and the
buffer that the answer of a read is written to. -/
namespace ZCell.Server
open Messager

variable {β : Type}

/-- The fields of `op_create_t` and `op_delete_t`, `op_read_t` and `op_write_t`: offset and width. -/
def fieldsOf : Nat → List (Nat × Nat)
  | msgOssOpCreate | msgOssOpDelete => [(0, 8)]
  | msgOssOpRead => [(0, 8), (8, 8), (16, 8), (24, 8), (32, 8)]
  | msgOssOpWrite => [(0, 8), (8, 8), (16, 8), (24, 8)]
  | _ => []

/-- The size of the packed structure. -/
def sizeofArgs (op : Nat) : Nat := ((fieldsOf op).map Prod.snd).sum

/-- What `alloc_data_buffer` asks of `spdk_malloc`. -/
def allocatedSize (sz : Nat) : Nat := if sz ≤ 0x1000 then 0x1000 else sz

/-- `size` tells how many bytes a buffer from `alloc_data_buffer` has. -/
def Sized (h : Heap β) (size : β → Nat) : Prop :=
  ∀ n, ∀ b ∈ h.allocDataBuffer n, size b = allocatedSize n

/-- The structure and its fields lie within the meta buffer, and the buffer that the server has
allocated for a read within the length that the store is asked for. -/
structure CarriesMemory (h : Heap β) (size : β → Nat) (m : Message β) : Prop where
  args : sizeofArgs m.header.type ≤ m.header.metaLength
  fields : ∀ f ∈ fieldsOf m.header.type, f.1 + f.2 ≤ m.header.metaLength
  data : m.header.type = msgOssOpRead → ∀ op ∈ m.metaBuffer, h.readBufferZeroCopyAddr op = 0 →
    ∀ b ∈ (ossOpRefillRequestWithReponse h m).dataBuffer, h.opLen op ≤ size b

/-- A length that the argument of `alloc_data_buffer` can hold, unless there is no memory. -/
def LengthFits (h : Heap β) (op : β) : Prop :=
  h.readBufferZeroCopyAddr op = 0 → h.allocDataBuffer (h.opLen op % 2 ^ 32) ≠ none →
  h.opLen op < 2 ^ 32

section Memory
variable {h : Heap β} {size : β → Nat} {m : Message β} {op b : β}

/-- Each field ends within its structure. -/
theorem field_le_sizeof (ty : Nat) : ∀ f ∈ fieldsOf ty, f.1 + f.2 ≤ sizeofArgs ty := by
  unfold sizeofArgs fieldsOf
  split <;> simp

theorem le_allocatedSize_iff (n : Nat) : n ≤ allocatedSize (n % 2 ^ 32) ↔ n < 2 ^ 32 := by
  unfold allocatedSize
  split <;> omega

theorem readBuffer_server (h : Heap β) (hzero : h.readBufferZeroCopyAddr op = 0) :
    readBuffer h op = h.allocDataBuffer (h.opLen op % 2 ^ 32) := by
  simp [readBuffer, hzero]

/-- A buffer for a read is large enough exactly when its length was not cut off. -/
theorem buffer_covers_iff (hsize : Sized h size) :
    (h.readBufferZeroCopyAddr op = 0 → ∀ b ∈ readBuffer h op, h.opLen op ≤ size b) ↔
      LengthFits h op := by
  constructor
  · intro hle hzero hsome
    obtain ⟨b, hb⟩ := Option.ne_none_iff_exists'.mp hsome
    have hcov := hle hzero b (by rw [readBuffer_server h hzero]; exact hb)
    rw [hsize _ b hb] at hcov
    exact (le_allocatedSize_iff _).mp hcov
  · intro hfit hzero b hb
    rw [readBuffer_server h hzero] at hb
    rw [hsize _ b hb]
    exact (le_allocatedSize_iff _).mpr (hfit hzero (Option.ne_none_iff_exists'.mpr ⟨b, hb⟩))

theorem refill_read_buffer (h : Heap β) (hop : m.header.type = msgOssOpRead) (hmeta : m.metaBuffer = some op) :
    (ossOpRefillRequestWithReponse h m).dataBuffer = readBuffer h op := by
  simp only [ossOpRefillRequestWithReponse, hop, hmeta]
  rfl

/-- The check compares the length of the meta buffer for creates and deletes only. -/
theorem valid_args_iff (hvalid : ossOpValid h m) : sizeofArgs m.header.type ≤ m.header.metaLength ↔
    (m.header.type = msgOssOpRead → 40 ≤ m.header.metaLength) ∧
    (m.header.type = msgOssOpWrite → 32 ≤ m.header.metaLength) := by
  unfold ossOpValid at hvalid
  split at hvalid
  · rename_i hop
    simp [hop, sizeofArgs, fieldsOf, msgOssOpRead, msgOssOpWrite]
  · rename_i hop
    simp only [Bool.and_eq_true, decide_eq_true_eq] at hvalid
    simp [hop, sizeofArgs, fieldsOf, hvalid.1.1.2, sizeofOpCreate, msgOssOpRead, msgOssOpWrite]
  · rename_i hop
    simp only [Bool.and_eq_true, decide_eq_true_eq] at hvalid
    simp [hop, sizeofArgs, fieldsOf, hvalid.1.1.2, sizeofOpCreate, msgOssOpRead, msgOssOpWrite]
  · rename_i hop
    simp [hop, sizeofArgs, fieldsOf, msgOssOpRead, msgOssOpWrite]
  · rename_i hop
    simp [hop, sizeofArgs, fieldsOf, msgOssOpRead, msgOssOpWrite]
  · cases hvalid

end Memory

/-- A validated request has the memory that its execution uses exactly when a read or write comes
with a meta buffer of full length, and the buffer for a read was asked for in full. -/
theorem validated_carriesMemory_iff (h : Heap β) (size : β → Nat) (m : Message β)
    (hsize : Sized h size) (hvalid : ossOpValid h m) :
    CarriesMemory h size m ↔
      (m.header.type = msgOssOpRead → 40 ≤ m.header.metaLength ∧ ∀ op ∈ m.metaBuffer, LengthFits h op) ∧
      (m.header.type = msgOssOpWrite → 32 ≤ m.header.metaLength) := by
  have hargs := valid_args_iff hvalid
  constructor
  · intro hc
    obtain ⟨hr, hw⟩ := hargs.mp hc.args
    refine ⟨fun hop => ⟨hr hop, fun op hmeta => (buffer_covers_iff hsize).mp fun hzero b hb => ?_⟩, hw⟩
    refine hc.data hop op hmeta hzero b ?_
    rw [refill_read_buffer h hop hmeta]
    exact hb
  · rintro ⟨hr, hw⟩
    have hle := hargs.mpr ⟨fun hop => (hr hop).1, hw⟩
    refine ⟨hle, fun f hf => (field_le_sizeof _ f hf).trans hle, fun hop op hmeta hzero b hb => ?_⟩
    rw [refill_read_buffer h hop hmeta] at hb
    exact (buffer_covers_iff hsize).mpr ((hr hop).2 op hmeta) hzero b hb

/-- Memory in which the arguments of every read ask for `len` bytes. -/
def lengthHeap (len : Nat) : Heap Nat :=
  ⟨fun _ o _ => if o = 16 then len else 0, fun n => some (1000 + n), id⟩

def lengthSize (b : Nat) : Nat := allocatedSize (b - 1000)

theorem lengthHeap_sized (len : Nat) : Sized (lengthHeap len) lengthSize := by
  intro n b hb
  obtain rfl : 1000 + n = b := Option.some.inj hb
  rw [lengthSize, Nat.add_sub_cancel_left]

/-- A read from the network with a meta buffer of `metaLength` bytes. -/
def readRequest (metaLength : Nat) : Message Nat :=
  ⟨⟨0, 0, 0⟩, MsgHdr.zero.put 8 [13, 0, 0x22, BitVec.ofNat 8 metaLength], some 5, none, 7⟩

theorem wholeRead_carriesMemory :
    CarriesMemory (lengthHeap 8192) lengthSize (readRequest 40) :=
  (validated_carriesMemory_iff (lengthHeap 8192) lengthSize (readRequest 40) (lengthHeap_sized 8192)
    (by decide)).mpr ⟨fun _ => ⟨by decide, fun _ _ _ _ => (by decide : 8192 < 2 ^ 32)⟩,
      fun h => absurd h (by decide)⟩

/-- A read with one byte of arguments, and one for 4 GiB and a block. -/
theorem cutReads_not_carriesMemory :
    (ossOpValid (lengthHeap 8192) (readRequest 1) = true ∧
      ¬ CarriesMemory (lengthHeap 8192) lengthSize (readRequest 1)) ∧
    Sized (lengthHeap (2 ^ 32 + 4096)) lengthSize ∧
    ossOpValid (lengthHeap (2 ^ 32 + 4096)) (readRequest 40) = true ∧
    ¬ CarriesMemory (lengthHeap (2 ^ 32 + 4096)) lengthSize (readRequest 40) := by
  refine ⟨⟨by decide, fun hc => absurd hc.args (by decide)⟩, lengthHeap_sized _, by decide, fun hc => ?_⟩
  have hle := hc.data (by decide) 5 rfl rfl (1000 + 4096) (by decide)
  exact absurd hle (by decide)

end ZCell.Server
