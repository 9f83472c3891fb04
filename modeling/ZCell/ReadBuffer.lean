import ZCell.LibossRun
import ZCell.Slots

/-! Where the buffer comes from that the store reads into: the server allocates it, or the request
names its address. -/
namespace ZCell.Server
open Messager

variable {β γ : Type}

/-- A buffer with its origin: it came with the message, from `alloc_data_buffer`, or from an address
that a request names. -/
inductive Origin (β : Type) where
  | received (b : β)
  | server (b : β)
  | named (addr : Nat)

/-- The buffer without its origin. -/
def Origin.buffer (h : Heap β) : Origin β → β
  | .received b | .server b => b
  | .named addr => h.ofAddr addr

/-- The same memory, whose buffers know their origin. -/
def Heap.origins (h : Heap β) : Heap (Origin β) where
  field b ofst n := h.field (b.buffer h) ofst n
  allocDataBuffer n := (h.allocDataBuffer n).map .server
  ofAddr := .named

def mapBuffers (f : β → γ) (m : Message β) : Message γ :=
  ⟨m.state, m.header, m.metaBuffer.map f, m.dataBuffer.map f, m.privCtx⟩

/-- The request that the store takes for `m`. -/
def taken (h : Heap β) (m : Message β) : Option (Message β) := (onRecvMessage h Status.success.code m).2

/-- The store reads into a buffer that the server has allocated for this request. -/
def FillsServerBuffer (h : Heap β) (m : Message β) : Prop :=
  ∀ r ∈ taken h.origins (mapBuffers .received m), ∀ o ∈ r.dataBuffer, ∃ b, o = .server b

section Origins
variable {h : Heap β} {m : Message β} {op : β}

theorem taken_eq (h : Heap β) (m : Message β) : taken h m =
    if ossOpValid h m then some (ossOpRefillRequestWithReponse h m) else none := by
  by_cases hvalid : ossOpValid h m
  · have hping : m.header.type ≠ msgPing := by
      intro hping
      rw [not_valid_ping h m hping] at hvalid
      cases hvalid
    simp only [taken, onRecvMessage, opExecute, if_neg hping, if_pos (msgTypeOss_of_valid h m hvalid),
      doOpOss, if_pos hvalid, if_true]
  · rw [if_neg hvalid]
    simp only [taken, onRecvMessage, opExecute, doOpOss, if_neg hvalid]
    split
    · rfl
    · split <;> rfl

/-- The checks see the same message. -/
theorem valid_origins (h : Heap β) (m : Message β) :
    ossOpValid h.origins (mapBuffers .received m) = ossOpValid h m := by
  obtain ⟨state, header, metaBuffer, dataBuffer, privCtx⟩ := m
  cases metaBuffer <;> cases dataBuffer <;> rfl

/-- Without the origins it is the request that the store takes. -/
theorem taken_origins (h : Heap β) (m : Message β) :
    (taken h.origins (mapBuffers .received m)).map (mapBuffers (Origin.buffer h)) = taken h m := by
  have hid : ∀ o : Option β, (o.map Origin.received).map (Origin.buffer h) = o := fun o => by
    cases o <;> rfl
  have hserver : ∀ n, ((h.allocDataBuffer n).map Origin.server).map (Origin.buffer h) =
      h.allocDataBuffer n := fun n => by cases h.allocDataBuffer n <;> rfl
  have hread : ∀ op : β, (readBuffer h.origins (Origin.received op)).map (Origin.buffer h) =
      readBuffer h op := by
    intro op
    have haddr : h.origins.readBufferZeroCopyAddr (.received op) = h.readBufferZeroCopyAddr op := rfl
    simp only [readBuffer, haddr]
    split
    · rfl
    · exact hserver _
  rw [taken_eq, taken_eq, valid_origins]
  split
  · obtain ⟨state, header, metaBuffer, dataBuffer, privCtx⟩ := m
    simp only [Option.map_some, Option.some.injEq]
    unfold ossOpRefillRequestWithReponse
    dsimp only [mapBuffers]
    split <;> simp only [hid, Message.mk.injEq, true_and, and_true]
    · exact hserver _
    · cases metaBuffer with
      | none => exact ⟨rfl, rfl⟩
      | some op => exact ⟨rfl, hread op⟩
  · rfl

/-- The branch is taken by the field alone. -/
theorem readBuffer_origins (h : Heap β) (op : β) : readBuffer h.origins (.received op) =
    if h.readBufferZeroCopyAddr op ≠ 0 then some (.named (h.readBufferZeroCopyAddr op))
    else (h.allocDataBuffer (h.opLen op % 2 ^ 32)).map .server := rfl

theorem valid_read (h : Heap β) (hop : m.header.type = msgOssOpRead) : ossOpValid h m =
    (decide (m.header.dataLength = 0) && decide (0 < m.header.metaLength) && m.dataBuffer.isNone &&
      m.metaBuffer.isSome) := by
  unfold ossOpValid
  rw [hop]
  rfl

theorem taken_read (hop : m.header.type = msgOssOpRead) {r : Message (Origin β)}
    (hr : r ∈ taken h.origins (mapBuffers .received m)) :
    ossOpValid h m = true ∧ ∃ op, m.metaBuffer = some op ∧
      r.dataBuffer = readBuffer h.origins (.received op) := by
  rw [taken_eq, valid_origins] at hr
  split at hr
  · rename_i hvalid
    obtain rfl := Option.some.inj hr
    refine ⟨hvalid, ?_⟩
    rw [valid_read h hop, Bool.and_eq_true] at hvalid
    obtain ⟨op, hmeta⟩ := Option.isSome_iff_exists.mp hvalid.2
    refine ⟨op, hmeta, ?_⟩
    simp only [ossOpRefillRequestWithReponse, mapBuffers, hop, hmeta]
    rfl
  · cases hr

theorem fills_of_zero (hop : m.header.type = msgOssOpRead)
    (hzero : ossOpValid h m → ∀ op ∈ m.metaBuffer, h.readBufferZeroCopyAddr op = 0) :
    FillsServerBuffer h m := by
  intro r hr o ho
  obtain ⟨hvalid, op, hmeta, hdata⟩ := taken_read hop hr
  rw [hdata, readBuffer_origins, if_neg (not_not.mpr (hzero hvalid op hmeta))] at ho
  obtain ⟨b, _, rfl⟩ := Option.map_eq_some_iff.mp ho
  exact ⟨b, rfl⟩

theorem zero_of_fills (hop : m.header.type = msgOssOpRead) (hf : FillsServerBuffer h m)
    (hvalid : ossOpValid h m) (hmeta : m.metaBuffer = some op) : h.readBufferZeroCopyAddr op = 0 := by
  by_contra hne
  have htaken : taken h.origins (mapBuffers .received m) =
      some (ossOpRefillRequestWithReponse h.origins (mapBuffers .received m)) := by
    rw [taken_eq, valid_origins, if_pos hvalid]
  obtain ⟨_, op', hmeta', hdata⟩ := taken_read hop htaken
  obtain rfl := Option.some.inj (hmeta.symm.trans hmeta')
  rw [readBuffer_origins, if_pos hne] at hdata
  obtain ⟨b, hb⟩ := hf _ htaken _ hdata
  cases hb

end Origins

/-- A read goes into a buffer of the server exactly when its address field is zero, whatever way it
came and whatever else it holds. -/
theorem read_fillsServerBuffer_iff (h : Heap β) (m : Message β) (hop : m.header.type = msgOssOpRead) :
    FillsServerBuffer h m ↔
      (ossOpValid h m → ∀ op ∈ m.metaBuffer, h.readBufferZeroCopyAddr op = 0) :=
  ⟨fun hf hvalid _ hmeta => zero_of_fills hop hf hvalid hmeta, fills_of_zero hop⟩

end ZCell.Server

namespace ZCell.Liboss
open Bytes Messager Server

section Encoder
variable {ch ch' : IoChannel} {oid ofst junk : BitVec 64} {len : BitVec 32} {id s : Nat}

/-- What `io_read` has prepared, as the server gets it. -/
theorem ioRead_delivered (h : ioRead ch oid ofst len junk = .ok ((id : Int), ch')) :
    let m := delivered .net s (ch'.opCtxs id).requestAndResponse
    m.header.type = msgOssOpRead ∧ m.header.metaLength = 40 ∧
      m.metaBuffer = some (argBytes [oid.toNat, ofst.toNat % 2 ^ 32, len.toNat, 0, junk.toNat]) := by
  unfold ioRead ioPrepareOpCommon at h
  split at h
  · obtain ⟨hid, _⟩ := Prod.mk.inj (Except.ok.inj h)
    have hneg : enomem = (id : Int) := hid
    unfold enomem at hneg
    omega
  · split at h
    · cases h
    · rename_i n ch0 _ _
      rw [if_neg (by decide)] at h
      obtain ⟨hid, rfl⟩ := Prod.mk.inj (Except.ok.inj h)
      obtain rfl := Int.ofNat.inj hid
      have hm := @build_metaLength ch0.seq ch0.sessionType msgOssOpRead 40 0 n (by decide)
      have ht := @build_type ch0.seq ch0.sessionType msgOssOpRead 40 0 n (by decide)
      simp only [delivered, IoChannel.setOp, Function.update_self, messageStateReset]
      refine ⟨ht, hm, if_neg ?_⟩
      rw [hm]
      decide

theorem argBytes_drop (xs ys : List Nat) : (argBytes (xs ++ ys)).drop (8 * xs.length) = argBytes ys := by
  rw [argBytes, List.flatMap_append, ← argBytes_length xs]
  exact List.drop_left

/-- The address field of a request that `io_read` encodes holds what `malloc` left there. -/
theorem ioRead_addr (h : ioRead ch oid ofst len junk = .ok ((id : Int), ch')) {op : List Byte}
    (hmeta : (delivered .net s (ch'.opCtxs id).requestAndResponse).metaBuffer = some op) :
    byteHeap.readBufferZeroCopyAddr op = junk.toNat := by
  obtain ⟨_, _, hargs⟩ := ioRead_delivered (s := s) h
  obtain rfl := Option.some.inj (hmeta.symm.trans hargs)
  have hdrop : (argBytes [oid.toNat, ofst.toNat % 2 ^ 32, len.toNat, 0, junk.toNat]).drop 32 =
      argBytes [junk.toNat] :=
    argBytes_drop [oid.toNat, ofst.toNat % 2 ^ 32, len.toNat, 0] [junk.toNat]
  have hlast : argBytes [junk.toNat] = leBytes 8 junk.toNat := List.append_nil _
  simp only [Heap.readBufferZeroCopyAddr, byteHeap]
  rw [hdrop, hlast, List.take_of_length_le (by rw [leBytes_length]), leValue_leBytes]
  exact Nat.mod_eq_of_lt junk.isLt

end Encoder

/-- The first operation of a network channel, a read of object 1, as the server gets it. -/
def firstRead (junk : BitVec 64) : Option Msg :=
  match ioRead (getIoChannel .net 0 64) 1 0 4096 junk with
  | .ok (_, ch) => some (delivered .net 3 (ch.opCtxs 0).requestAndResponse)
  | .error _ => none

theorem firstRead_spec (junk : BitVec 64) : ∃ m, firstRead junk = some m ∧
    m.header.type = msgOssOpRead ∧ ossOpValid byteHeap m = true ∧ m.metaBuffer.isSome ∧
      ∀ op ∈ m.metaBuffer, byteHeap.readBufferZeroCopyAddr op = junk.toNat := by
  obtain ⟨ch, hcall, hvalid⟩ : ∃ ch, ioRead (getIoChannel .net 0 64) 1 0 4096 junk =
      .ok (((0 : Nat) : Int), ch) ∧
        ossOpValid byteHeap (delivered .net 3 (ch.opCtxs 0).requestAndResponse) = true :=
    ⟨_, rfl, rfl⟩
  obtain ⟨htype, _, hmeta⟩ := ioRead_delivered (s := 3) hcall
  refine ⟨delivered .net 3 (ch.opCtxs 0).requestAndResponse, ?_, htype, hvalid, ?_, ?_⟩
  · rw [firstRead, hcall]
  · rw [hmeta]
    rfl
  · exact fun op hop => ioRead_addr hcall hop

theorem cleanRead_fillsServerBuffer : ∃ m, firstRead 0 = some m ∧ m.header.type = msgOssOpRead ∧
    ossOpValid byteHeap m = true ∧ FillsServerBuffer byteHeap m := by
  obtain ⟨m, hm, htype, hvalid, _, haddr⟩ := firstRead_spec 0
  exact ⟨m, hm, htype, hvalid, (read_fillsServerBuffer_iff byteHeap m htype).mpr fun _ => haddr⟩

/-- A read that `io_read` has encoded where `malloc` had left the value 7. -/
theorem junkRead_not_fills : ∃ m, firstRead 7 = some m ∧ m.header.type = msgOssOpRead ∧
    ¬ FillsServerBuffer byteHeap m := by
  obtain ⟨m, hm, htype, hvalid, hsome, haddr⟩ := firstRead_spec 7
  refine ⟨m, hm, htype, fun hfills => ?_⟩
  obtain ⟨op, hop⟩ := Option.isSome_iff_exists.mp hsome
  have hzero := zero_of_fills htype hfills hvalid hop
  rw [haddr op hop] at hzero
  exact absurd hzero (by decide)

end ZCell.Liboss
