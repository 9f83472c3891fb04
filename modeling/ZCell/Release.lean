import ZCell.Response

/-! How often the server frees each buffer of a request, and whether it gives it back to the pool that
it came from. -/
namespace ZCell.Server
open Messager

variable {β : Type} [DecidableEq β]

/-- Calls of `free_meta_buffer` on the buffer. -/
def metaFrees (b : β) (events : List (Event β)) : Nat :=
  events.countP fun
    | .freeMetaBuffer c => c = b
    | _ => false

/-- Calls of `free_data_buffer` on the buffer. -/
def dataFrees (b : β) (events : List (Event β)) : Nat :=
  events.countP fun
    | .freeDataBuffer c => c = b
    | _ => false

/-- Messages with this data buffer that a messager took over. -/
def dataHands (b : β) (events : List (Event β)) : Nat :=
  events.countP fun
    | .sendmsg _ m => m.dataBuffer = some b
    | _ => false

section Counts
variable (b : β) (es fs : List (Event β)) (o : Option β) (m : Message β)

@[simp] theorem metaFrees_append : metaFrees b (es ++ fs) = metaFrees b es + metaFrees b fs :=
  List.countP_append

@[simp] theorem dataFrees_append : dataFrees b (es ++ fs) = dataFrees b es + dataFrees b fs :=
  List.countP_append

@[simp] theorem dataHands_append : dataHands b (es ++ fs) = dataHands b es + dataHands b fs :=
  List.countP_append

@[simp] theorem metaFrees_nil : metaFrees b [] = 0 := rfl
@[simp] theorem dataFrees_nil : dataFrees b [] = 0 := rfl
@[simp] theorem dataHands_nil : dataHands b [] = 0 := rfl

@[simp] theorem metaFrees_freeMeta :
    metaFrees b (o.toList.map .freeMetaBuffer) = if o = some b then 1 else 0 := by
  cases o <;> simp [metaFrees, List.countP_cons]

@[simp] theorem metaFrees_freeData : metaFrees b (o.toList.map .freeDataBuffer) = 0 := by
  cases o <;> rfl

@[simp] theorem dataFrees_freeMeta : dataFrees b (o.toList.map .freeMetaBuffer) = 0 := by
  cases o <;> rfl

@[simp] theorem dataFrees_freeData :
    dataFrees b (o.toList.map .freeDataBuffer) = if o = some b then 1 else 0 := by
  cases o <;> simp [dataFrees, List.countP_cons]

@[simp] theorem dataHands_freeMeta : dataHands b (o.toList.map .freeMetaBuffer) = 0 := by
  cases o <;> rfl

@[simp] theorem dataHands_freeData : dataHands b (o.toList.map .freeDataBuffer) = 0 := by
  cases o <;> rfl

@[simp] theorem metaFrees_sendResponse : metaFrees b (sendResponse m) = 0 := by
  unfold sendResponse
  split
  · rfl
  · split <;> rfl

@[simp] theorem dataFrees_sendResponse : dataFrees b (sendResponse m) = 0 := by
  unfold sendResponse
  split
  · rfl
  · split <;> rfl

theorem dataHands_sendResponse (k : Kind) (hk : m.header.magic = k.magic) :
    dataHands b (sendResponse m) = if m.dataBuffer = some b then 1 else 0 := by
  unfold sendResponse
  rw [hk]
  cases k <;> simp [Kind.magic, dataHands, List.countP_cons]

end Counts

section Reusing
variable (b : β) (m : Message β) (code : Int)

theorem metaFrees_msgFreeResource : metaFrees b (msgFreeResource m).1 =
    if m.header.metaLength = 0 ∧ m.metaBuffer = some b then 1 else 0 := by
  have hdata : metaFrees b (if m.header.dataLength = 0 ∧ m.header.magic = Kind.net.magic then
      m.dataBuffer.toList.map Event.freeDataBuffer else []) = 0 := by
    split <;> simp
  simp only [msgFreeResource, metaFrees_append, hdata, Nat.add_zero]
  by_cases hlen : m.header.metaLength = 0 <;> simp [hlen]

theorem dataFrees_msgFreeResource : dataFrees b (msgFreeResource m).1 =
    if m.header.dataLength = 0 ∧ m.header.magic = Kind.net.magic ∧ m.dataBuffer = some b then 1
    else 0 := by
  have hmeta : dataFrees b (if m.header.metaLength = 0 then
      m.metaBuffer.toList.map Event.freeMetaBuffer else []) = 0 := by
    split <;> simp
  simp only [msgFreeResource, dataFrees_append, hmeta, Nat.zero_add]
  by_cases hgone : m.header.dataLength = 0 ∧ m.header.magic = Kind.net.magic
  · simp [hgone]
  · rw [if_neg hgone, if_neg (fun hc => hgone ⟨hc.1, hc.2.1⟩)]
    rfl

theorem dataHands_msgFreeResource : dataHands b (msgFreeResource m).1 = 0 := by
  unfold msgFreeResource
  rw [dataHands_append]
  split <;> split <;> simp

/-- The meta buffer is freed with an announced length of zero, and kept else. -/
theorem metaFrees_reusing : metaFrees b (responseWithReusingRequest m code) =
    if m.header.metaLength = 0 ∧ m.metaBuffer = some b then 1 else 0 := by
  rw [responseWithReusingRequest_eq, metaFrees_append, metaFrees_sendResponse,
    metaFrees_msgFreeResource, messageStateReset_header, MsgHdr.setStatus_metaLength,
    messageStateReset_metaBuffer, Nat.add_zero]

theorem dataFrees_reusing : dataFrees b (responseWithReusingRequest m code) =
    if m.header.dataLength = 0 ∧ m.header.magic = Kind.net.magic ∧ m.dataBuffer = some b then 1
    else 0 := by
  rw [responseWithReusingRequest_eq, dataFrees_append, dataFrees_sendResponse,
    dataFrees_msgFreeResource, messageStateReset_header, MsgHdr.setStatus_dataLength,
    MsgHdr.setStatus_magic, messageStateReset_dataBuffer, Nat.add_zero]

/-- A data buffer with bytes in it goes to the messager of the magic. -/
theorem dataHands_reusing (k : Kind) (hk : m.header.magic = k.magic) :
    dataHands b (responseWithReusingRequest m code) =
      if m.header.dataLength ≠ 0 ∧ m.dataBuffer = some b then 1 else 0 := by
  rw [responseWithReusingRequest_eq, dataHands_append, dataHands_msgFreeResource, Nat.zero_add,
    dataHands_sendResponse b _ k ((MsgHdr.setStatus_magic m.header code).trans hk)]
  simp only [msgFreeResource, messageStateReset_header, MsgHdr.setStatus_dataLength,
    messageStateReset_dataBuffer]
  by_cases hlen : m.header.dataLength = 0 <;> simp [hlen]

/-- The error path frees, and the common path frees again. -/
theorem metaFrees_broken : metaFrees b (responseBrokenOp m code) =
    if m.metaBuffer = some b then 2 else 0 := by
  unfold responseBrokenOp
  simp only [metaFrees_append, metaFrees_freeMeta, metaFrees_freeData, metaFrees_reusing]
  by_cases hb : m.metaBuffer = some b <;> simp [hb]

theorem dataFrees_broken : dataFrees b (responseBrokenOp m code) =
    if m.dataBuffer = some b then if m.header.magic = Kind.net.magic then 2 else 1 else 0 := by
  unfold responseBrokenOp
  simp only [dataFrees_append, dataFrees_freeMeta, dataFrees_freeData, dataFrees_reusing]
  by_cases hb : m.dataBuffer = some b
  · by_cases hnet : m.header.magic = Kind.net.magic <;> simp [hb, hnet]
  · simp [hb]

end Reusing

section Refill
omit [DecidableEq β]
variable (h : Heap β) (m : Message β)

theorem answered_metaLength (hvalid : ossOpValid h m) : (answered h m).header.metaLength = 0 := by
  rw [answered, if_pos hvalid]
  revert hvalid
  unfold ossOpValid ossOpRefillRequestWithReponse
  dsimp only
  split <;> simp

/-- A valid request that has a data buffer is a write, and keeps it. -/
theorem answered_dataBuffer {b : β} (hb : m.dataBuffer = some b) :
    (answered h m).dataBuffer = some b := by
  unfold answered
  split
  · rename_i hvalid
    revert hvalid
    unfold ossOpValid ossOpRefillRequestWithReponse
    dsimp only
    split <;> simp [hb]
  · exact hb

/-- Without a meta buffer, only a stat is valid. -/
theorem stat_of_valid (hvalid : ossOpValid h m) (hmeta : m.metaBuffer = none) :
    m.header.type = msgOssOpStat ∧ m.dataBuffer = none := by
  revert hvalid
  unfold ossOpValid
  dsimp only
  split
  · rename_i htype
    simp only [htype, msgOssOpStat, Bool.and_eq_true, Option.isNone_iff_eq_none]
    rintro ⟨⟨-, hdata⟩, -⟩
    exact ⟨trivial, hdata⟩
  all_goals simp [hmeta]

end Refill

section Once
variable (h : Heap β) (k : Kind) (rc statusCode : Int) (m : Message β)

theorem metaPool_iff : k.metaPool = freePool ↔ k = .ipc := by
  cases k with
  | ipc => exact ⟨fun _ => rfl, fun _ => rfl⟩
  | net => exact ⟨fun hpool => (by cases hpool), fun hk => (by cases hk)⟩

theorem dataPool_eq : k.dataPool = freePool := by
  cases k with
  | ipc => rfl
  | net => rfl

/-- The data buffers that belong to the client: the one that came with the request, and the one
at the address that a read names. -/
def ClientData (b : β) : Prop :=
  m.dataBuffer = some b ∨ (ossOpValid h m ∧ m.header.type = msgOssOpRead ∧
    ∃ op, m.metaBuffer = some op ∧ h.readBufferZeroCopyAddr op ≠ 0 ∧
      b = h.ofAddr (h.readBufferZeroCopyAddr op))

/-- Each buffer of the request, which came through the messager `k`, is released once and by its
owner: it goes back to the pool that it came from. -/
structure ReleasedOnce (events : List (Event β)) : Prop where
  metaOnce : ∀ b, m.metaBuffer = some b → metaFrees b events = 1 ∧ k.metaPool = freePool
  remoteOnce : m.header.magic = Kind.net.magic → ∀ b,
    m.dataBuffer = some b ∨ (answered h m).dataBuffer = some b →
      dataFrees b events + dataHands b events = 1 ∧ k.dataPool = freePool
  localNever : m.header.magic = Kind.ipc.magic → ∀ b, ClientData h m b → dataFrees b events = 0

/-- The request has nothing that the error path could free twice, or that it must not free. -/
def HoldsNothing : Prop :=
  m.metaBuffer = none ∧
    (m.header.magic = Kind.ipc.magic ∨ m.header.magic = Kind.net.magic → m.dataBuffer = none) ∧
    (m.header.magic = Kind.net.magic → ossOpValid h m →
      h.allocDataBuffer sizeofOpStatResult = none)

/-- A ping has no bytes in a meta buffer; any other request goes through, or holds nothing. And a
request with a meta buffer came through the messager of the `LOCAL` ones. -/
def ReleasesWhen : Prop :=
  if m.header.type = msgPing then m.metaBuffer = none ∨ m.header.metaLength = 0 ∧ k = .ipc
  else (ossOpValid h m ∧ rc = Status.success.code ∧ statusCode = Status.success.code ∧
      (m.metaBuffer = none ∨ k = .ipc)) ∨
    HoldsNothing h m

theorem reusing_data_once (r : Message β) (code : Int) {b : β}
    (hnet : r.header.magic = Kind.net.magic) (hb : r.dataBuffer = some b) :
    dataFrees b (responseWithReusingRequest r code) +
      dataHands b (responseWithReusingRequest r code) = 1 := by
  rw [dataFrees_reusing, dataHands_reusing b r code .net hnet]
  by_cases hlen : r.header.dataLength = 0 <;> simp [hlen, hnet, hb]

theorem reusing_local_never (r : Message β) (code : Int) (b : β)
    (hipc : r.header.magic = Kind.ipc.magic) :
    dataFrees b (responseWithReusingRequest r code) = 0 := by
  rw [dataFrees_reusing, if_neg]
  rintro ⟨-, hnet, -⟩
  rw [hipc] at hnet
  exact absurd hnet (by decide)

/-- The common path releases once unless it keeps a meta buffer with bytes in it. -/
theorem reusing_releasedOnce_iff (code : Int) (r : Message β)
    (hmagic : r.header.magic = m.header.magic) (hmeta : r.metaBuffer = m.metaBuffer)
    (hdata : ∀ b, m.dataBuffer = some b ∨ (answered h m).dataBuffer = some b →
      r.dataBuffer = some b) :
    ReleasedOnce h k m (responseWithReusingRequest r code) ↔
      m.metaBuffer = none ∨ r.header.metaLength = 0 ∧ k = .ipc := by
  constructor
  · intro hrel
    cases hb : m.metaBuffer with
    | none => exact .inl rfl
    | some b =>
      obtain ⟨hone, hpool⟩ := hrel.metaOnce b hb
      rw [metaFrees_reusing] at hone
      split at hone
      · rename_i hlen
        exact .inr ⟨hlen.1, (metaPool_iff k).mp hpool⟩
      · cases hone
  · intro hok
    refine ⟨?_, ?_, ?_⟩
    · intro b hb
      obtain ⟨hlen, hk⟩ := hok.resolve_left (by rw [hb]; exact Option.some_ne_none b)
      rw [metaFrees_reusing, if_pos ⟨hlen, hmeta.trans hb⟩]
      exact ⟨rfl, (metaPool_iff k).mpr hk⟩
    · intro hnet b hb
      exact ⟨reusing_data_once r code (hmagic.trans hnet) (hdata b hb), dataPool_eq k⟩
    · intro hipc b _
      exact reusing_local_never r code b (hmagic.trans hipc)

theorem broken_releasedOnce_iff (code : Int) :
    ReleasedOnce h k m (responseBrokenOp (answered h m) code) ↔ HoldsNothing h m := by
  have hmf : ∀ b, metaFrees b (responseBrokenOp (answered h m) code) =
      if m.metaBuffer = some b then 2 else 0 := by
    intro b
    rw [metaFrees_broken, answered_metaBuffer]
  have hdf : ∀ b, dataFrees b (responseBrokenOp (answered h m) code) =
      if (answered h m).dataBuffer = some b then
        if m.header.magic = Kind.net.magic then 2 else 1 else 0 := by
    intro b
    rw [dataFrees_broken, answered_magic]
  constructor
  · intro hrel
    have hmeta : m.metaBuffer = none := by
      cases hb : m.metaBuffer with
      | none => rfl
      | some b =>
        have hone := (hrel.metaOnce b hb).1
        rw [hmf, if_pos hb] at hone
        cases hone
    have hremote : m.header.magic = Kind.net.magic → (answered h m).dataBuffer = none := by
      intro hnet
      cases hb : (answered h m).dataBuffer with
      | none => rfl
      | some b =>
        have hone := (hrel.remoteOnce hnet b (.inr hb)).1
        rw [hdf, if_pos hb, if_pos hnet] at hone
        omega
    refine ⟨hmeta, ?_, ?_⟩
    · intro hkind
      cases hb : m.dataBuffer with
      | none => rfl
      | some b =>
        have hans := answered_dataBuffer h m hb
        rcases hkind with hipc | hnet
        · have hzero := hrel.localNever hipc b (.inl hb)
          rw [hdf, if_pos hans, hipc, if_neg (by decide)] at hzero
          cases hzero
        · rw [hremote hnet] at hans
          cases hans
    · intro hnet hvalid
      have hstat := (stat_of_valid h m hvalid hmeta).1
      have hnone := hremote hnet
      rw [answered, if_pos hvalid, ossOpRefillRequestWithReponse, hstat] at hnone
      exact hnone
  · rintro ⟨hmeta, hdata, hstat⟩
    refine ⟨?_, ?_, ?_⟩
    · intro b hb
      rw [hmeta] at hb
      cases hb
    · intro hnet b hb
      exfalso
      rw [hdata (.inr hnet)] at hb
      have hb := hb.resolve_left (Option.some_ne_none b).symm
      unfold answered at hb
      split at hb
      · rename_i hvalid
        rw [ossOpRefillRequestWithReponse, (stat_of_valid h m hvalid hmeta).1] at hb
        rw [show _ = h.allocDataBuffer sizeofOpStatResult from rfl] at hb
        rw [hstat hnet hvalid] at hb
        cases hb
      · rw [hdata (.inr hnet)] at hb
        cases hb
    · intro hipc b hb
      exfalso
      rcases hb with hb | ⟨-, -, op, hop, -⟩
      · rw [hdata (.inl hipc)] at hb
        cases hb
      · rw [hmeta] at hop
        cases hop

/-- The exact condition, over every request, whatever its header and its buffers and whichever messager
it came through, and every outcome of the store. -/
theorem releasedOnce_iff :
    ReleasedOnce h k m (serve h rc statusCode m) ↔ ReleasesWhen h k rc statusCode m := by
  unfold ReleasesWhen
  obtain ⟨hping, hs⟩ | ⟨hping, hdone, hs⟩ | ⟨hping, hfail, code, hs⟩ :=
    serve_cases h rc statusCode m
  · have hinvalid := not_valid_ping h m hping
    have hans : answered h m = m := by
      rw [answered, hinvalid]
      rfl
    rw [hs, if_pos hping]
    refine reusing_releasedOnce_iff h k m _ m rfl rfl ?_
    intro b hb
    rw [hans, or_self] at hb
    exact hb
  · rw [hs, if_neg hping, reusing_releasedOnce_iff h k m _ (answered h m) (answered_magic h m)
      (answered_metaBuffer h m) fun b hb => hb.elim (answered_dataBuffer h m) id]
    obtain ⟨hvalid, hrc, hst⟩ := hdone
    constructor
    · intro hor
      exact .inl ⟨hvalid, hrc, hst, hor.imp_right And.right⟩
    · intro hor
      obtain ⟨_, _, _, hor⟩ | hnone := hor
      · exact hor.imp_right fun hk => ⟨answered_metaLength h m hvalid, hk⟩
      · exact .inl hnone.1
  · rw [hs, if_neg hping, broken_releasedOnce_iff]
    exact ⟨.inr, fun hor => hor.resolve_left fun hdone => hfail ⟨hdone.1, hdone.2.1, hdone.2.2.1⟩⟩

end Once

/-- A delete from the network, of an object that does not exist. -/
def deleteRequest : Message Nat :=
  ⟨⟨0, 0, 0⟩, (MsgHdr.zero.put 8 [15, 0, 0x22, 8]), some 5, none, 7⟩

/-- Refused, its meta buffer is freed twice; carried out, it is freed once, but with `spdk_free`, where
messager.c has taken it from `malloc`. -/
theorem refusedDelete_not_releasedOnce :
    ¬ReleasedOnce testHeap .net deleteRequest
      (serve testHeap Status.ostoreObjectNotExist.code 0 deleteRequest) ∧
    ¬ReleasedOnce testHeap .net deleteRequest
      (serve testHeap Status.success.code Status.success.code deleteRequest) := by
  refine ⟨fun hrel => ?_, fun hrel => ?_⟩
  · have htwo : metaFrees 5 (serve testHeap Status.ostoreObjectNotExist.code 0 deleteRequest) = 2 := by
      decide +kernel
    have hone := (hrel.metaOnce 5 rfl).1
    rw [htwo] at hone
    cases hone
  · have hpool := (hrel.metaOnce 5 rfl).2
    cases hpool

end ZCell.Server
