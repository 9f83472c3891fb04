import ZCell.Runs
import ZCell.Slots

/-! A channel and the calls on it, each from its beginning to its end: what `io_submit_to_channel`
hands to the messager, and what `io_poll_channel` receives and reports. -/
namespace ZCell.Liboss
open Bytes Messager Server

/-- The check of `io_submit_to_channel` for an array of `int`. -/
def ioSubmitCheck (ch : IoChannel) : List Int → Except Fault Bool
  | [] => .ok true
  | opd::ops =>
    if opd < 0 then .ok false
    else match submitCheck ch [opd.toNat] with
      | .ok true => ioSubmitCheck ch ops
      | r => r

/-- Return code, the operations whose messages `messager_sendmsg` gets, and the channel. -/
def ioSubmitToChannel (ch : IoChannel) (ops : List Int) : Except Fault (Int × List Nat × IoChannel) :=
  match ioSubmitCheck ch ops with
  | .error f => .error f
  | .ok false => .ok (einval, [], ch)
  | .ok true => .ok (0, ops.map Int.toNat, markInProgress ch (ops.map Int.toNat))

/-- What `messager_wait_msg_of` does with the messages that it gets. -/
def recvMsgs (ch : IoChannel) (msgs : List Msg) : Except Fault IoChannel := msgs.foldlM onRecvMsg ch

/-- The test of the loop of `io_poll_channel`, of which `retry` is `retry_times`. -/
def pollAgain (min : Int) (rc n : Nat) (retry : Bool) : Bool :=
  decide (min ≠ 0 ∧ (n : Int) < min) || decide (rc = 0) && retry

/-- The loop, for waits that bring `batches`: the channel behind it and the batches that are left, or
none if it waits once more. -/
def pollLoop (min : Int) (ch : IoChannel) (rc n : Nat) (retry : Bool) (batches : List (List Msg)) :
    Except Fault (Option (IoChannel × List (List Msg))) :=
  if pollAgain min rc n retry then
    match batches with
    | [] => .ok none
    | msgs::rest =>
      match recvMsgs ch msgs with
      | .error f => .error f
      | .ok ch =>
        pollLoop min ch msgs.length (n + msgs.length) (retry && decide (min ≠ 0 ∧ (n : Int) < min)) rest
  else .ok (some (ch, batches))

/-- The loop that fills `op_cpl`, from index `i` on. -/
def reapLoop (ch : IoChannel) : Nat → Nat → (Nat → Nat) → Nat × (Nat → Nat)
  | i, 0, opCpl => (i, opCpl)
  | i, nrReap + 1, opCpl =>
    if i < ch.cplNr then
      let id := (ch.opCtxs (ch.cplOps i)).requestAndResponse.header.rsv 0
      reapLoop ch (i + 1) nrReap (Function.update opCpl i id)
    else (i, opCpl)

/-- Return code, `op_cpl` and the channel when the call returns, and the batches that it has not
waited for. -/
structure Polled where
  code : Int
  opCpl : Nat → Nat
  io : IoChannel
  rest : List (List Msg)

/-- An `int` that is compared with an unsigned number. -/
def asUnsigned (n : Int) : Nat := (BitVec.ofInt 32 n).toNat

def ioPollChannel (ch : IoChannel) (opCpl : Nat → Nat) (min max : Int) (batches : List (List Msg)) :
    Except Fault (Option Polled) :=
  let nrReap := Nat.min (asUnsigned max) ch.reapDepth
  if max < min then .ok (some ⟨einval, opCpl, ch, batches⟩)
  else
    match if ch.cplNr = 0 then pollLoop min ch 0 0 true batches else .ok (some (ch, batches)) with
    | .error f => .error f
    | .ok none => .ok none
    | .ok (some (ch, rest)) =>
      let r := reapLoop ch 0 nrReap opCpl
      .ok (some ⟨r.1, r.2, { ch with cplNr := ch.cplNr - r.1 }, rest⟩)

/-- A channel and the ids that its client has: returned by a call, and not yet destroyed. -/
structure Client where
  io : IoChannel
  live : List Nat

def Client.start (kind : Kind) (session : Nat) (maxQd : BitVec 32) : Client :=
  ⟨getIoChannel kind session maxQd, []⟩

/-- The calls of a client, and a message that comes in otherwise. -/
inductive Move where
  | prepare (call : Call)
  | submit (ops : List Int)
  | recv (msg : Msg)
  | poll (min max : Int) (batches : List (List Msg))
  | claim (id : Int)
  | destroy (id : Int)

/-- The client behind the call; none if it faults, or has not returned. -/
def Client.move : Move → Client → Option Client
  | .prepare call, x =>
    match ioCall x.io call with
    | .error _ => none
    | .ok (rc, io) => if rc < 0 then some ⟨io, x.live⟩ else some ⟨io, rc.toNat :: x.live⟩
  | .submit ops, x =>
    match ioSubmitToChannel x.io ops with
    | .error _ => none
    | .ok (_, _, io) => some ⟨io, x.live⟩
  | .recv msg, x =>
    match onRecvMsg x.io msg with
    | .error _ => none
    | .ok io => some ⟨io, x.live⟩
  | .poll min max batches, x =>
    match ioPollChannel x.io (fun _ => 0) min max batches with
    | .ok (some r) => some ⟨r.io, x.live⟩
    | _ => none
  | .claim id, x => if id < 0 then some x else some ⟨(opClaimResult x.io id.toNat).2.1, x.live⟩
  | .destroy id, x =>
    if id < 0 then some x
    else match opDestory x.io id.toNat with
      | .error _ => none
      | .ok (rc, io) => some ⟨io, if rc = 0 then x.live.erase id.toNat else x.live⟩

/-- A client may do anything at any time. -/
def Client.any (_ : Client) (_ : Move) : Prop := True

instance (x : Client) (a : Move) : Decidable (x.any a) := isTrue trivial

/-- An element that may be submitted. -/
def Submittable (ch : IoChannel) (opd : Int) : Prop :=
  0 ≤ opd ∧ opd < ch.queueDepth ∧ (ch.opCtxs opd.toNat).state = .waitingSubmit

instance (ch : IoChannel) (opd : Int) : Decidable (Submittable ch opd) :=
  inferInstanceAs (Decidable (_ ∧ _))

/-- The check ends at the first element that may not be submitted, and reads behind the array when
that is the depth. -/
theorem ioSubmitCheck_eq (ch : IoChannel) (ops : List Int) : ioSubmitCheck ch ops =
    match ops.find? fun opd => ¬ Submittable ch opd with
    | none => .ok true
    | some opd => if opd = ch.queueDepth then .error .workArray else .ok false := by
  induction ops with
  | nil => rfl
  | cons opd ops ih =>
    have hone : submitCheck ch [opd.toNat] = if ch.queueDepth < opd.toNat then .ok false
        else if opd.toNat = ch.queueDepth then .error .workArray
        else if (ch.opCtxs opd.toNat).state = .waitingSubmit then .ok true else .ok false := rfl
    rw [ioSubmitCheck, hone]
    by_cases hs : Submittable ch opd
    · rw [List.find?_cons_of_neg (by simpa using hs), ← ih]
      obtain ⟨hneg, hlt, hst⟩ := hs
      rw [if_neg (by omega), if_neg (by omega), if_neg (by omega), if_pos hst]
    · rw [List.find?_cons_of_pos (by simpa using hs)]
      dsimp only
      by_cases hneg : opd < 0
      · rw [if_pos hneg, if_neg (by omega)]
      · rw [if_neg hneg]
        by_cases heq : opd = ch.queueDepth
        · rw [if_neg (by omega), if_pos (by omega), if_pos heq]
        · rw [if_neg heq]
          by_cases hgt : ch.queueDepth < opd.toNat
          · rw [if_pos hgt]
          · have hst : (ch.opCtxs opd.toNat).state ≠ .waitingSubmit := fun hst =>
              hs ⟨by omega, by omega, hst⟩
            rw [if_neg hgt, if_neg (by omega), if_neg hst]

theorem ioSubmitCheck_true {ch : IoChannel} {ops : List Int} (h : ioSubmitCheck ch ops = .ok true) :
    ∀ opd ∈ ops, Submittable ch opd := by
  rw [ioSubmitCheck_eq] at h
  split at h
  · rename_i hnone
    intro opd hopd
    simpa using List.find?_eq_none.mp hnone opd hopd
  · split at h <;> cases h

section Frame
variable {ch ch' : IoChannel} {msg : Msg} {min max : Int}

/-- What a channel keeps as long as nothing is prepared or freed. -/
structure IoChannel.Same (ch ch' : IoChannel) : Prop where
  queueDepth : ch'.queueDepth = ch.queueDepth
  reapDepth : ch'.reapDepth = ch.reapDepth
  bitmap : ch'.opCtxsBitmap = ch.opCtxsBitmap
  hint : ch'.bitmapHint = ch.bitmapHint

theorem IoChannel.Same.refl (ch : IoChannel) : ch.Same ch := ⟨rfl, rfl, rfl, rfl⟩

theorem IoChannel.Same.trans {ch ch1 ch2 : IoChannel} (h : ch.Same ch1) (h' : ch1.Same ch2) :
    ch.Same ch2 :=
  ⟨h'.queueDepth.trans h.queueDepth, h'.reapDepth.trans h.reapDepth, h'.bitmap.trans h.bitmap,
    h'.hint.trans h.hint⟩

/-- All that receiving a message does. -/
structure Recv (ch ch' : IoChannel) (msg : Msg) : Prop where
  lt : msg.header.rsv 0 < ch.queueDepth
  room : ch.cplNr < ch.reapDepth
  session : ch'.session = ch.session
  same : ch.Same ch'
  opCtxs : ch'.opCtxs = Function.update ch.opCtxs (msg.header.rsv 0) ⟨msg, .completed⟩
  cplOps : ch'.cplOps = Function.update ch.cplOps ch.cplNr (msg.header.rsv 0)
  cplNr : ch'.cplNr = ch.cplNr + 1

theorem onRecvMsg_recv (h : onRecvMsg ch msg = .ok ch') : Recv ch ch' msg := by
  unfold onRecvMsg at h
  dsimp only at h
  split at h
  · cases h
  · split at h
    · cases h
    · rename_i hlt
      split at h
      · cases h
      · split at h
        · cases h
        · split at h
          · cases h
          · rename_i hroom
            obtain rfl := Except.ok.inj h
            exact ⟨Nat.lt_of_not_le hlt, Nat.lt_of_not_le hroom, rfl, ⟨rfl, rfl, rfl, rfl⟩, rfl, rfl, rfl⟩

/-- What a message keeps, several keep. -/
theorem recvMsgs_keeps {P : IoChannel → Prop}
    (hP : ∀ ch msg ch', P ch → onRecvMsg ch msg = .ok ch' → P ch') {msgs : List Msg} (h : P ch)
    (hr : recvMsgs ch msgs = .ok ch') : P ch' := by
  induction msgs generalizing ch with
  | nil =>
    obtain rfl := Except.ok.inj hr
    exact h
  | cons msg msgs ih =>
    simp only [recvMsgs, List.foldlM_cons] at hr
    cases hm : onRecvMsg ch msg with
    | error f =>
      rw [hm] at hr
      cases hr
    | ok ch1 =>
      rw [hm] at hr
      exact ih (hP ch msg ch1 h hm) hr

theorem pollLoop_keeps {P : IoChannel → Prop}
    (hP : ∀ ch msg ch', P ch → onRecvMsg ch msg = .ok ch' → P ch') {rc n : Nat} {retry : Bool}
    {batches rest : List (List Msg)} (h : P ch)
    (hr : pollLoop min ch rc n retry batches = .ok (some (ch', rest))) : P ch' := by
  induction batches generalizing ch rc n retry with
  | nil =>
    unfold pollLoop at hr
    split at hr
    · cases hr
    · obtain ⟨rfl, _⟩ := Prod.mk.inj (Option.some.inj (Except.ok.inj hr))
      exact h
  | cons msgs batches ih =>
    unfold pollLoop at hr
    split at hr
    · dsimp only at hr
      split at hr
      · cases hr
      · rename_i ch1 hm
        exact ih (recvMsgs_keeps hP h hm) hr
    · obtain ⟨rfl, _⟩ := Prod.mk.inj (Option.some.inj (Except.ok.inj hr))
      exact h

/-- What a message keeps and the counter does not matter to, a poll keeps. -/
theorem ioPollChannel_keeps {P : IoChannel → Prop}
    (hP : ∀ ch msg ch', P ch → onRecvMsg ch msg = .ok ch' → P ch')
    (hnr : ∀ ch k, P ch → P { ch with cplNr := k }) {opCpl : Nat → Nat} {batches : List (List Msg)}
    {r : Polled} (h : P ch) (hr : ioPollChannel ch opCpl min max batches = .ok (some r)) : P r.io := by
  unfold ioPollChannel at hr
  dsimp only at hr
  split at hr
  · obtain rfl := Option.some.inj (Except.ok.inj hr)
    exact h
  · split at hr
    · cases hr
    · cases hr
    · rename_i ch1 rest hloop
      obtain rfl := Option.some.inj (Except.ok.inj hr)
      apply hnr
      split at hloop
      · exact pollLoop_keeps hP h hloop
      · obtain ⟨rfl, _⟩ := Prod.mk.inj (Option.some.inj (Except.ok.inj hloop))
        exact h

theorem opClaimResult_eq (ch : IoChannel) (id : Nat) : (opClaimResult ch id).2.1 =
    if id < ch.queueDepth ∧ (ch.opCtxs id).state = .completed then ch.setState id .ended else ch := by
  unfold opClaimResult
  split <;> rfl

/-- The slot `id` is free again. -/
def IoChannel.freed (ch : IoChannel) (id : Nat) : IoChannel :=
  { ch.setState id .new with
    opCtxsBitmap := ch.opCtxsBitmap.setBit id
    bitmapHint := if id < ch.bitmapHint then id else ch.bitmapHint }

/-- `op_destory` on a slot whose message names it. -/
theorem opDestory_eq {id : Nat}
    (hslot : id < ch.queueDepth → (ch.opCtxs id).state ≠ .new →
      (ch.opCtxs id).requestAndResponse.header.rsv 0 = id) :
    opDestory ch id =
      if id < ch.queueDepth then
        match (ch.opCtxs id).state with
        | .inProgress => .ok (einprogress, ch)
        | .ended => if ch.opCtxsBitmap.getBit id then .error .assertion else .ok (0, ch.freed id)
        | _ => .error .assertion
      else .ok (einval, ch) := by
  unfold opDestory
  split
  · rename_i hlt
    cases hst : (ch.opCtxs id).state with
    | new => rfl
    | inProgress => rfl
    | waitingSubmit | completed =>
      dsimp only
      rw [freeOp, if_pos (by rw [hst]; exact OpState.noConfusion)]
    | ended =>
      dsimp only
      rw [freeOp, if_neg (not_not.mpr hst), hslot hlt (by rw [hst]; exact OpState.noConfusion)]
      by_cases hbit : ch.opCtxsBitmap.getBit id
      · rw [if_pos hbit, if_pos hbit]
      · rw [if_neg hbit, if_neg hbit]
        rfl
  · rfl

end Frame
end ZCell.Liboss
