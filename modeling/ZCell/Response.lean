import ZCell.Server

/-! What a request leaves behind: the responses that were handed to a messager, and how often
each of its buffers was freed. -/
namespace ZCell.Server
open Messager

variable {β : Type}

section Answer
variable (h : Heap β) (rc statusCode : Int) (m r : Message β) (k : Kind)

@[simp] theorem messageStateReset_header : (messageStateReset m).header = m.header := rfl
@[simp] theorem messageStateReset_metaBuffer : (messageStateReset m).metaBuffer = m.metaBuffer :=
  rfl
@[simp] theorem messageStateReset_dataBuffer : (messageStateReset m).dataBuffer = m.dataBuffer :=
  rfl
@[simp] theorem messageStateReset_privCtx : (messageStateReset m).privCtx = m.privCtx := rfl

/-- The request as it is answered: a valid operation has been refilled. -/
def answered : Message β :=
  if ossOpValid h m then ossOpRefillRequestWithReponse h m else m

/-- The refill changes the header and the data buffer only, and never the magic. -/
theorem refill_eq : ∃ hdr data, hdr.magic = m.header.magic ∧
    ossOpRefillRequestWithReponse h m = { m with header := hdr, dataBuffer := data } := by
  unfold ossOpRefillRequestWithReponse
  dsimp only
  split
  · exact ⟨_, _, by simp, rfl⟩
  · exact ⟨_, _, by simp, rfl⟩
  · exact ⟨_, _, by simp, rfl⟩
  · exact ⟨_, _, by simp, rfl⟩
  · exact ⟨_, _, by simp, rfl⟩
  · exact ⟨_, _, rfl, rfl⟩

/-- So does the answered request. -/
theorem answered_eq : ∃ hdr data, hdr.magic = m.header.magic ∧
    answered h m = { m with header := hdr, dataBuffer := data } := by
  unfold answered
  split
  · exact refill_eq h m
  · exact ⟨m.header, m.dataBuffer, rfl, rfl⟩

@[simp] theorem answered_magic : (answered h m).header.magic = m.header.magic := by
  obtain ⟨hdr, data, hmagic, hm⟩ := answered_eq h m
  rw [hm]
  exact hmagic

@[simp] theorem answered_privCtx : (answered h m).privCtx = m.privCtx := by
  obtain ⟨hdr, data, -, hm⟩ := answered_eq h m
  rw [hm]

@[simp] theorem answered_metaBuffer : (answered h m).metaBuffer = m.metaBuffer := by
  obtain ⟨hdr, data, -, hm⟩ := answered_eq h m
  rw [hm]

theorem not_valid_ping (hping : m.header.type = msgPing) : ossOpValid h m = false := by
  unfold ossOpValid
  rw [hping]
  rfl

theorem msgTypeOss_of_valid (hvalid : ossOpValid h m) : msgTypeOss m.header.type := by
  revert hvalid
  unfold ossOpValid
  split
  all_goals first | (rename_i htype; intro _; rw [htype]; rfl) | (intro hf; cases hf)

theorem serve_ping (hping : m.header.type = msgPing) :
    serve h rc statusCode m = responseWithReusingRequest m Status.success.code := by
  simp only [serve, onRecvMessage, opExecute, if_pos hping, doOpPing, Option.toList_none,
    List.flatMap_nil, List.append_nil]

theorem serve_done (hvalid : ossOpValid h m) :
    serve h Status.success.code Status.success.code m =
      responseWithReusingRequest (answered h m) Status.success.code := by
  have hping : m.header.type ≠ msgPing := by
    intro hping
    rw [not_valid_ping h m hping] at hvalid
    cases hvalid
  simp only [serve, onRecvMessage, opExecute, if_neg hping, if_pos (msgTypeOss_of_valid h m hvalid),
    doOpOss, if_pos hvalid, if_true, answered, ossOpCb, ne_eq, not_true_eq_false, if_false,
    Option.toList_some, List.flatMap_cons, List.flatMap_nil, List.append_nil, List.nil_append]

/-- Everything but a ping and an operation that goes through ends in `_response_broken_op`. -/
theorem serve_failed (hping : m.header.type ≠ msgPing)
    (hfail : ¬(ossOpValid h m ∧ rc = Status.success.code ∧ statusCode = Status.success.code)) :
    ∃ code, serve h rc statusCode m = responseBrokenOp (answered h m) code := by
  simp only [serve, onRecvMessage, opExecute, if_neg hping, answered]
  by_cases hvalid : ossOpValid h m
  · simp only [if_pos (msgTypeOss_of_valid h m hvalid), doOpOss, if_pos hvalid]
    by_cases hrc : rc = Status.success.code
    · have hst : statusCode ≠ Status.success.code := fun hst => hfail ⟨hvalid, hrc, hst⟩
      exact ⟨statusCode, by simp [if_pos hrc, ossOpCb, if_pos hst]⟩
    · exact ⟨rc, by simp [if_neg hrc]⟩
  · by_cases hoss : msgTypeOss m.header.type
    · exact ⟨Status.invalidOp.code, by simp [hoss, doOpOss, hvalid]⟩
    · exact ⟨Status.unknownOp.code, by simp [hoss, doOpUnknown, hvalid]⟩

/-- The three ways of a request through the server. -/
theorem serve_cases :
    (m.header.type = msgPing ∧
      serve h rc statusCode m = responseWithReusingRequest m Status.success.code) ∨
    (m.header.type ≠ msgPing ∧
      (ossOpValid h m ∧ rc = Status.success.code ∧ statusCode = Status.success.code) ∧
      serve h rc statusCode m =
        responseWithReusingRequest (answered h m) Status.success.code) ∨
    (m.header.type ≠ msgPing ∧
      ¬(ossOpValid h m ∧ rc = Status.success.code ∧ statusCode = Status.success.code) ∧
      ∃ code, serve h rc statusCode m = responseBrokenOp (answered h m) code) := by
  by_cases hping : m.header.type = msgPing
  · exact .inl ⟨hping, serve_ping h rc statusCode m hping⟩
  · right
    by_cases hdone : ossOpValid h m ∧ rc = Status.success.code ∧ statusCode = Status.success.code
    · obtain ⟨hvalid, rfl, rfl⟩ := hdone
      exact .inl ⟨hping, ⟨hvalid, rfl, rfl⟩, serve_done h m hvalid⟩
    · exact .inr ⟨hping, hdone, serve_failed h rc statusCode m hping hdone⟩

end Answer

section Responses
variable (h : Heap β) (rc statusCode : Int) (m r : Message β) (k : Kind)

/-- What was handed to a messager. -/
def responses (events : List (Event β)) : List (Kind × Message β) :=
  events.filterMap fun
    | .sendmsg k r => some (k, r)
    | _ => none

@[simp] theorem responses_append (es fs : List (Event β)) :
    responses (es ++ fs) = responses es ++ responses fs :=
  List.filterMap_append

@[simp] theorem responses_freeMeta (bs : List β) :
    responses (bs.map .freeMetaBuffer) = [] := by
  rw [responses, List.filterMap_map]
  exact List.filterMap_eq_nil_iff.mpr fun _ _ => rfl

@[simp] theorem responses_freeData (bs : List β) :
    responses (bs.map .freeDataBuffer) = [] := by
  rw [responses, List.filterMap_map]
  exact List.filterMap_eq_nil_iff.mpr fun _ _ => rfl

@[simp] theorem responses_msgFreeResource : responses (msgFreeResource m).1 = [] := by
  unfold msgFreeResource
  rw [responses_append]
  split <;> split <;> simp <;> rfl

/-- `events` answer the request `m` once, in the way that its magic says. -/
def Answers (m : Message β) (events : List (Event β)) : Prop :=
  ∃ r, responses events = responses (sendResponse r) ∧ r.header.magic = m.header.magic ∧
    r.privCtx = m.privCtx

theorem responseWithReusingRequest_eq : responseWithReusingRequest m statusCode =
    (msgFreeResource (messageStateReset { m with header := m.header.setStatus statusCode })).1 ++
      sendResponse
        (msgFreeResource (messageStateReset { m with header := m.header.setStatus statusCode })).2 := rfl

theorem responseWithReusingRequest_answers :
    Answers m (responseWithReusingRequest m statusCode) := by
  let reset := messageStateReset { m with header := m.header.setStatus statusCode }
  refine ⟨(msgFreeResource reset).2, ?_, MsgHdr.setStatus_magic m.header statusCode, rfl⟩
  rw [responseWithReusingRequest_eq, responses_append, responses_msgFreeResource, List.nil_append]

theorem responseBrokenOp_answers : Answers m (responseBrokenOp m statusCode) := by
  obtain ⟨r, hr, hmagic, hctx⟩ := responseWithReusingRequest_answers statusCode
    { m with header := (m.header.setDataLength 0).setMetaLength 0 }
  refine ⟨r, ?_, ?_, hctx⟩
  · unfold responseBrokenOp
    rw [responses_append, responses_append, responses_freeMeta, responses_freeData]
    exact hr
  · rw [hmagic]
    simp

theorem Answers.of_answered {events : List (Event β)} (ha : Answers (answered h m) events) :
    Answers m events := by
  obtain ⟨r, hr, hmagic, hctx⟩ := ha
  rw [answered_magic] at hmagic
  rw [answered_privCtx] at hctx
  exact ⟨r, hr, hmagic, hctx⟩

theorem serve_answers : Answers m (serve h rc statusCode m) := by
  obtain ⟨_, hs⟩ | ⟨_, _, hs⟩ | ⟨_, _, code, hs⟩ := serve_cases h rc statusCode m
  · rw [hs]
    exact responseWithReusingRequest_answers _ m
  · rw [hs]
    exact (responseWithReusingRequest_answers _ _).of_answered
  · rw [hs]
    exact (responseBrokenOp_answers code _).of_answered

/-- Exactly one response, to the messager `k` and the session `s`. -/
def RespondsOnce (k : Kind) (s : Nat) (events : List (Event β)) : Prop :=
  ∃ r, responses events = [(k, r)] ∧ r.privCtx = s

theorem Answers.once_iff {events : List (Event β)} (ha : Answers m events) :
    RespondsOnce k m.privCtx events ↔ m.header.magic = k.magic := by
  obtain ⟨r, hr, hmagic, hctx⟩ := ha
  unfold RespondsOnce
  rw [hr, ← hmagic, sendResponse]
  constructor
  · rintro ⟨r', hone, -⟩
    split at hone
    · rename_i hipc
      obtain ⟨rfl, -⟩ := Prod.mk.inj (List.cons.inj hone).1
      exact hipc
    · split at hone
      · rename_i hnet
        obtain ⟨rfl, -⟩ := Prod.mk.inj (List.cons.inj hone).1
        exact hnet
      · cases hone
  · intro hk
    cases k with
    | ipc =>
      rw [if_pos hk]
      exact ⟨r, rfl, hctx⟩
    | net =>
      rw [if_neg (by rw [hk]; decide), if_pos hk]
      exact ⟨r, rfl, hctx⟩

/-- A request that came through the messager `k` gets its one response there exactly if its
header says so, whatever the operation and its outcome. -/
theorem respondsOnce_iff :
    RespondsOnce k m.privCtx (serve h rc statusCode m) ↔ m.header.magic = k.magic :=
  (serve_answers h rc statusCode m).once_iff m k

end Responses

/-- A ping as it comes from the network, its magic left at zero. -/
def blankPing : Message Nat :=
  ⟨⟨0, 0, 0⟩, MsgHdr.zero.put 8 [1], none, none, 7⟩

def testHeap : Heap Nat := ⟨fun _ _ _ => 0, fun n => some (1000 + n), id⟩

theorem blankPing_not_respondsOnce :
    ¬RespondsOnce .net blankPing.privCtx (serve testHeap 0 0 blankPing) := by
  rintro ⟨r, hone, -⟩
  have hnone : responses (serve testHeap 0 0 blankPing) = [] := rfl
  rw [hnone] at hone
  cases hone

end ZCell.Server
