import ZCell.Response

/-! What the response to a request keeps of it: sequence number, type, magic and slot pass through
the server, which rewrites the rest of the header in place. -/
namespace ZCell.Messager.MsgHdr
open Bytes

/-- The fields by which a response is matched with its request. -/
def ident (h : MsgHdr) : Nat × Nat × Nat × Nat := (h.seq, h.type, h.magic, h.rsv 0)

section Ident
variable (h : MsgHdr) (code : Int) (n : Nat)

theorem put_ident (i : Nat) (bs : List Byte) (hd : i = 9 ∧ bs.length = 1 ∨
    11 ≤ i ∧ i + bs.length ≤ 18) : (h.put i bs).ident = h.ident := by
  simp only [ident, seq, type, magic, rsv]
  rw [field_put_disjoint h i 0 8 bs (by omega), field_put_disjoint h i 8 1 bs (by omega),
    field_put_disjoint h i 10 1 bs (by omega), field_put_disjoint h i _ 4 bs (by omega)]

@[simp] theorem setStatus_ident : (h.setStatus code).ident = h.ident :=
  put_ident h 9 _ (Or.inl ⟨rfl, rfl⟩)

@[simp] theorem setMetaLength_ident : (h.setMetaLength n).ident = h.ident :=
  put_ident h 11 _ (Or.inr ⟨Nat.le_refl _, by simp⟩)

@[simp] theorem setDataLength_ident : (h.setDataLength n).ident = h.ident :=
  put_ident h 12 _ (Or.inr ⟨by decide, by simp⟩)

theorem setStatus_status : (h.setStatus code).status = (BitVec.ofInt 8 code).toNat := by
  have hput := field_put_same h 9 [BitVec.ofInt 8 code] (by simp [sizeofHdr])
  rw [setStatus, status]
  exact hput.trans (by simp [leValue])

variable {h} {h' : MsgHdr}

theorem type_of_ident (hi : h'.ident = h.ident) : h'.type = h.type :=
  congrArg (fun x => x.2.1) hi

theorem magic_of_ident (hi : h'.ident = h.ident) : h'.magic = h.magic :=
  congrArg (fun x => x.2.2.1) hi

end Ident
end ZCell.Messager.MsgHdr

namespace ZCell.Server
open Bytes Messager

variable {β : Type}

/-- The types of the requests that liboss sends. -/
def ossTypes : List Nat := [msgOssOpStat, msgOssOpCreate, msgOssOpRead, msgOssOpWrite, msgOssOpDelete]

/-- The types whose responses carry no data. -/
def dataless : List Nat := [msgOssOpCreate, msgOssOpWrite, msgOssOpDelete]

theorem ossTypes_oss {t : Nat} (h : t ∈ ossTypes) : t ≠ msgPing ∧ msgTypeOss t = true := by
  simp only [ossTypes, List.mem_cons, List.not_mem_nil, or_false] at h
  obtain rfl | rfl | rfl | rfl | rfl := h <;> exact ⟨by decide, rfl⟩

/-- The response with the request's own header. -/
def reply (m : Message β) (code : Int) : Message β :=
  (msgFreeResource (messageStateReset { m with header := m.header.setStatus code })).2

/-- A response with the code `code`, which has no meta data, and no data if it reports an error. -/
structure Replied (m r : Message β) (code : Int) : Prop where
  ident : r.header.ident = m.header.ident
  privCtx : r.privCtx = m.privCtx
  status : r.header.status = (BitVec.ofInt 8 code).toNat
  metaLength : r.header.metaLength = 0
  metaBuffer : r.metaBuffer = none
  error : code ≠ Status.success.code → r.header.dataLength = 0

/-- A request that the store works on. -/
structure Refilled (m r : Message β) : Prop where
  ident : r.header.ident = m.header.ident
  privCtx : r.privCtx = m.privCtx
  metaLength : r.header.metaLength = 0
  dataLength : m.header.type ∈ dataless → r.header.dataLength = 0

/-- What data the response has are those of the refilled request. -/
def Carries (r s : Message β) : Prop :=
  s.header.dataLength ≠ 0 → s.header.dataLength = r.header.dataLength ∧ s.dataBuffer = r.dataBuffer

section Reply
variable (h : Heap β) (rc code : Int) (m : Message β) (k : Kind)

theorem reply_header : (reply m code).header = m.header.setStatus code := rfl

theorem reply_metaBuffer (hmeta : m.header.metaLength = 0) : (reply m code).metaBuffer = none := by
  simp [reply, msgFreeResource, hmeta]

theorem reply_carries : Carries m (reply m code) := by
  intro hne
  have hlen : (reply m code).header.dataLength = m.header.dataLength := by
    rw [reply_header, MsgHdr.setStatus_dataLength]
  rw [hlen] at hne
  exact ⟨hlen, by simp [reply, msgFreeResource, hne]⟩

theorem responses_send (r : Message β) (hk : r.header.magic = k.magic) :
    responses (sendResponse r) = [(k, r)] := by
  cases k with
  | ipc =>
    rw [sendResponse, if_pos hk]
    rfl
  | net =>
    have hno : r.header.magic ≠ Kind.ipc.magic := by
      rw [hk]
      decide
    rw [sendResponse, if_neg hno, if_pos hk]
    rfl

theorem reusing_responses (hk : m.header.magic = k.magic) :
    responses (responseWithReusingRequest m code) = [(k, reply m code)] := by
  rw [responseWithReusingRequest_eq, responses_append, responses_msgFreeResource, List.nil_append]
  exact responses_send k _ ((MsgHdr.setStatus_magic m.header code).trans hk)

/-- A request whose header announces nothing any more. -/
def emptied (m : Message β) : Message β :=
  { m with header := (m.header.setDataLength 0).setMetaLength 0 }

theorem broken_responses (hk : m.header.magic = k.magic) :
    responses (responseBrokenOp m code) = [(k, reply (emptied m) code)] := by
  unfold responseBrokenOp
  rw [responses_append, responses_append, responses_freeMeta, responses_freeData]
  exact reusing_responses code (emptied m) k (by simp [emptied, hk])

theorem broken_replied : Replied m (reply (emptied m) code) code where
  ident := by simp [reply_header, emptied]
  privCtx := rfl
  status := MsgHdr.setStatus_status ..
  metaLength := by simp [reply_header, emptied]
  metaBuffer := reply_metaBuffer code _ (by simp [emptied])
  error _ := by simp [reply_header, emptied]

/-- The store calls back. -/
theorem ossOpCb_replied {r : Message β} (hk : m.header.magic = k.magic) (hr : Refilled m r) :
    ∃ s, responses (ossOpCb r code) = [(k, s)] ∧ Replied m s code ∧
      (m.header.type ∈ dataless → s.header.dataLength = 0) ∧ Carries r s := by
  have hkr : r.header.magic = k.magic := (MsgHdr.magic_of_ident hr.ident).trans hk
  by_cases hc : code = Status.success.code
  · have hcb : ossOpCb r code = responseWithReusingRequest r code := if_neg (not_not.mpr hc)
    refine ⟨reply r code, by rw [hcb]; exact reusing_responses code r k hkr, ?_, fun ht => ?_,
      reply_carries code r⟩
    · exact {
        ident := by rw [reply_header, MsgHdr.setStatus_ident, hr.ident]
        privCtx := hr.privCtx
        status := MsgHdr.setStatus_status ..
        metaLength := by rw [reply_header, MsgHdr.setStatus_metaLength, hr.metaLength]
        metaBuffer := reply_metaBuffer code r hr.metaLength
        error := fun hne => absurd hc hne }
    · rw [reply_header, MsgHdr.setStatus_dataLength, hr.dataLength ht]
  · have hcb : ossOpCb r code = responseBrokenOp r code := if_pos hc
    have hb := broken_replied code r
    refine ⟨_, by rw [hcb]; exact broken_responses code r k hkr, ?_, fun _ => hb.error hc,
      fun hne => absurd (hb.error hc) hne⟩
    exact ⟨hb.ident.trans hr.ident, hb.privCtx.trans hr.privCtx, hb.status, hb.metaLength,
      hb.metaBuffer, hb.error⟩

/-- A valid request, refilled. -/
theorem refilled (hvalid : ossOpValid h m = true) : Refilled m (ossOpRefillRequestWithReponse h m) := by
  have hoss := hvalid
  unfold ossOpValid at hoss
  unfold ossOpRefillRequestWithReponse
  dsimp only at hoss ⊢
  split at hoss <;> rename_i htype
  · exact ⟨by simp, rfl, by simp, fun hd => absurd hd (by rw [htype]; decide)⟩
  · simp only [Bool.and_eq_true, decide_eq_true_eq] at hoss
    exact ⟨by simp, rfl, by simp, fun _ => by simp [hoss.1.1.1]⟩
  · simp only [Bool.and_eq_true, decide_eq_true_eq] at hoss
    exact ⟨by simp, rfl, by simp, fun _ => by simp [hoss.1.1.1]⟩
  · exact ⟨by simp, rfl, by simp, fun _ => by simp⟩
  · exact ⟨by simp, rfl, by simp, fun hd => absurd hd (by rw [htype]; decide)⟩
  · cases hoss

/-- A request is refused at once, with an error, or goes to the store. -/
theorem onRecvMessage_served (ht : m.header.type ∈ ossTypes) (hk : m.header.magic = k.magic) :
    (∃ events s code, onRecvMessage h rc m = (events, none) ∧ responses events = [(k, s)] ∧
      Replied m s code ∧ code ≠ Status.success.code ∧
      code = if ossOpValid h m then rc else Status.invalidOp.code) ∨
    ∃ r, onRecvMessage h rc m = ([], some r) ∧ Refilled m r := by
  obtain ⟨hping, hoss⟩ := ossTypes_oss ht
  simp only [onRecvMessage, opExecute, if_neg hping, if_pos hoss, doOpOss]
  by_cases hvalid : ossOpValid h m = true
  · have hr := refilled h m hvalid
    simp only [if_pos hvalid]
    by_cases hrc : rc = Status.success.code
    · exact Or.inr ⟨_, by rw [if_pos hrc], hr⟩
    · have hkr := (MsgHdr.magic_of_ident hr.ident).trans hk
      have hb := broken_replied rc (ossOpRefillRequestWithReponse h m)
      refine Or.inl ⟨_, _, rc, by rw [if_neg hrc], broken_responses rc _ k hkr, ?_, hrc, rfl⟩
      exact ⟨hb.ident.trans hr.ident, hb.privCtx.trans hr.privCtx, hb.status, hb.metaLength,
        hb.metaBuffer, hb.error⟩
  · simp only [if_neg hvalid]
    exact Or.inl ⟨_, _, Status.invalidOp.code, rfl, broken_responses _ m k hk, broken_replied _ m,
      by decide, rfl⟩

end Reply
end ZCell.Server
