import ZCell.SlotLife

/-! What `io_poll_channel` does with the responses to a channel's operations: how many it waits for,
which ids it writes to `op_cpl`, and what it leaves for the next call. -/
namespace ZCell.Liboss
open Bytes Messager Server Runs

/-- The operation that a message names. -/
def slotOf (msg : Msg) : Nat := msg.header.rsv 0

/-- A response to an operation in progress. -/
structure Response (ch : IoChannel) (msg : Msg) : Prop where
  lt : slotOf msg < ch.queueDepth
  state : (ch.opCtxs (slotOf msg)).state = .inProgress
  seq : (ch.opCtxs (slotOf msg)).requestAndResponse.header.seq = msg.header.seq
  type : (ch.opCtxs (slotOf msg)).requestAndResponse.header.type = msg.header.type
  metaBuffer : msg.metaBuffer = none

/-- Responses to different operations. -/
structure Honest (ch : IoChannel) (msgs : List Msg) : Prop where
  response : ∀ msg ∈ msgs, Response ch msg
  nodup : (msgs.map slotOf).Nodup

instance (ch : IoChannel) (msg : Msg) : Decidable (Response ch msg) :=
  decidable_of_iff (slotOf msg < ch.queueDepth ∧ (ch.opCtxs (slotOf msg)).state = .inProgress ∧
    (ch.opCtxs (slotOf msg)).requestAndResponse.header.seq = msg.header.seq ∧
    (ch.opCtxs (slotOf msg)).requestAndResponse.header.type = msg.header.type ∧ msg.metaBuffer = none)
    ⟨fun ⟨h1, h2, h3, h4, h5⟩ => ⟨h1, h2, h3, h4, h5⟩, fun h => ⟨h.lt, h.state, h.seq, h.type, h.metaBuffer⟩⟩

instance (ch : IoChannel) (msgs : List Msg) : Decidable (Honest ch msgs) :=
  decidable_of_iff ((∀ msg ∈ msgs, Response ch msg) ∧ (msgs.map slotOf).Nodup)
    ⟨fun h => ⟨h.1, h.2⟩, fun h => ⟨h.response, h.nodup⟩⟩

/-- The operations that are completed and not reported. -/
def pending (ch : IoChannel) : List Nat := (List.range ch.cplNr).map ch.cplOps

/-- The channel when the operations of `msgs` are completed. -/
structure Completes (ch : IoChannel) (msgs : List Msg) (ch' : IoChannel) : Prop where
  same : ch.Same ch'
  pending : pending ch' = pending ch ++ msgs.map slotOf
  answered : ∀ id ∈ msgs.map slotOf, (ch'.opCtxs id).state = .completed ∧
    (ch'.opCtxs id).requestAndResponse.header.rsv 0 = id
  other : ∀ id, id ∉ msgs.map slotOf → ch'.opCtxs id = ch.opCtxs id

section Receive
variable {ch ch' : IoChannel} {msg : Msg} {msgs : List Msg}

theorem length_pending (ch : IoChannel) : (pending ch).length = ch.cplNr := by
  rw [pending, List.length_map, List.length_range]

theorem Honest.length_le (h : Honest ch msgs) : msgs.length ≤ ch.queueDepth := by
  have hle := length_le_of_bounded h.nodup fun id hid => by
    obtain ⟨msg, hmsg, rfl⟩ := List.mem_map.mp hid
    exact (h.response msg hmsg).lt
  rwa [List.length_map] at hle

theorem Recv.completes (h : Recv ch ch' msg) : Completes ch [msg] ch' where
  same := h.same
  pending := by
    have hold : (List.range ch.cplNr).map ch'.cplOps = (List.range ch.cplNr).map ch.cplOps := by
      apply List.map_congr_left
      intro i hi
      rw [h.cplOps, Function.update_of_ne (Nat.ne_of_lt (List.mem_range.mp hi))]
    rw [Liboss.pending, h.cplNr, List.range_succ, List.map_append, hold, List.map_singleton, h.cplOps,
      Function.update_self]
    rfl
  answered id hid := by
    obtain rfl := List.mem_singleton.mp hid
    rw [h.opCtxs, slotOf, Function.update_self]
    exact ⟨rfl, rfl⟩
  other id hid := by
    rw [h.opCtxs]
    exact Function.update_of_ne (fun he => hid (List.mem_singleton.mpr he)) ..

theorem Completes.refl (ch : IoChannel) : Completes ch [] ch where
  same := .refl ch
  pending := (List.append_nil _).symm
  answered _ hid := absurd hid List.not_mem_nil
  other _ _ := rfl

theorem Completes.trans {ch1 ch2 : IoChannel} {msgs msgs' : List Msg} (h : Completes ch msgs ch1)
    (h' : Completes ch1 msgs' ch2) : Completes ch (msgs ++ msgs') ch2 where
  same := h.same.trans h'.same
  pending := by rw [h'.pending, h.pending, List.map_append, List.append_assoc]
  answered id hid := by
    by_cases hlate : id ∈ msgs'.map slotOf
    · exact h'.answered id hlate
    · rw [List.map_append, List.mem_append] at hid
      rw [h'.other id hlate]
      exact h.answered id (hid.resolve_right hlate)
  other id hid := by
    rw [List.map_append, List.mem_append, not_or] at hid
    rw [h'.other id hid.2, h.other id hid.1]

theorem Completes.cplNr (h : Completes ch msgs ch') : ch'.cplNr = ch.cplNr + msgs.length := by
  rw [← length_pending, h.pending, List.length_append, length_pending, List.length_map]

theorem onRecvMsg_response (h : Response ch msg) (hroom : ch.cplNr < ch.reapDepth) :
    ∃ ch', onRecvMsg ch msg = .ok ch' := by
  have hmeta : ¬ msg.metaBuffer.isSome = true := by
    rw [h.metaBuffer]
    decide
  have hlt : ¬ ch.queueDepth ≤ msg.header.rsv 0 := Nat.not_le_of_lt h.lt
  have hseq : (ch.opCtxs (msg.header.rsv 0)).requestAndResponse.header.seq = msg.header.seq := h.seq
  have htype : (ch.opCtxs (msg.header.rsv 0)).requestAndResponse.header.type = msg.header.type := h.type
  unfold onRecvMsg
  dsimp only
  rw [if_neg hmeta, if_neg hlt, if_neg (not_not.mpr hseq), if_neg (not_not.mpr htype),
    if_neg (Nat.not_le_of_lt hroom)]
  exact ⟨_, rfl⟩

/-- What is still to come are responses to other operations. -/
theorem Honest.rest {msgs' : List Msg} (h : Honest ch (msgs ++ msgs')) (hc : Completes ch msgs ch') :
    Honest ch' msgs' where
  response msg hmsg := by
    have hr := h.response msg (List.mem_append_right _ hmsg)
    have hother : slotOf msg ∉ msgs.map slotOf := by
      have hnd := h.nodup
      rw [List.map_append, List.nodup_append] at hnd
      exact fun hin => hnd.2.2 _ hin _ (List.mem_map_of_mem hmsg) rfl
    have hop := hc.other _ hother
    refine ⟨?_, ?_, ?_, ?_, hr.metaBuffer⟩
    · rw [hc.same.queueDepth]
      exact hr.lt
    · rw [hop]
      exact hr.state
    · rw [hop]
      exact hr.seq
    · rw [hop]
      exact hr.type
  nodup := by
    have hnd := h.nodup
    rw [List.map_append] at hnd
    exact (List.nodup_append.mp hnd).2.1

theorem Honest.first {msgs' : List Msg} (h : Honest ch (msgs ++ msgs')) : Honest ch msgs where
  response msg hmsg := h.response msg (List.mem_append_left _ hmsg)
  nodup := by
    have hnd := h.nodup
    rw [List.map_append] at hnd
    exact (List.nodup_append.mp hnd).1

/-- Responses fail no assertion, and complete their operations in their order. -/
theorem recvMsgs_honest (h : Honest ch msgs) (hroom : ch.cplNr + msgs.length ≤ ch.reapDepth) :
    ∃ ch', recvMsgs ch msgs = .ok ch' ∧ Completes ch msgs ch' := by
  induction msgs generalizing ch with
  | nil => exact ⟨ch, rfl, .refl ch⟩
  | cons msg msgs ih =>
    rw [List.length_cons] at hroom
    obtain ⟨ch1, h1⟩ := onRecvMsg_response (h.response msg (List.mem_cons_self ..)) (by omega)
    have hr := onRecvMsg_recv h1
    have hc := hr.completes
    obtain ⟨ch2, h2, hc2⟩ := ih (@Honest.rest ch ch1 [msg] msgs h hc) (by
      rw [hr.cplNr, hr.same.reapDepth]
      omega)
    refine ⟨ch2, ?_, hc.trans hc2⟩
    rw [recvMsgs, List.foldlM_cons, h1]
    exact h2

end Receive

section Loop
variable {ch : IoChannel} {min : Int} {rc n : Nat} {retry : Bool} {batches : List (List Msg)}

theorem pollAgain_false (h : pollAgain min rc n retry = false) : min ≤ n := by
  simp only [pollAgain, Bool.or_eq_false_iff, decide_eq_false_iff_not] at h
  omega

/-- The loop takes batches until it has `min` messages. -/
theorem pollLoop_honest (h : Honest ch batches.flatten)
    (hroom : ch.cplNr + batches.flatten.length ≤ ch.reapDepth) :
    pollLoop min ch rc n retry batches = .ok none ∨ ∃ ch' taken rest, batches = taken ++ rest ∧
      pollLoop min ch rc n retry batches = .ok (some (ch', rest)) ∧ Completes ch taken.flatten ch' ∧
        min ≤ n + taken.flatten.length := by
  induction batches generalizing ch rc n retry with
  | nil =>
    unfold pollLoop
    split
    · exact Or.inl rfl
    · rename_i hstop
      have hmin := pollAgain_false (by simpa using hstop)
      exact Or.inr ⟨ch, [], [], rfl, rfl, .refl ch, by simpa using hmin⟩
  | cons msgs batches ih =>
    rw [List.flatten_cons] at h hroom
    rw [List.length_append] at hroom
    unfold pollLoop
    split
    · obtain ⟨ch1, h1, hc⟩ := recvMsgs_honest h.first (by omega)
      have hrest := @ih ch1 msgs.length (n + msgs.length) (retry && decide (min ≠ 0 ∧ (n : Int) < min))
        (h.rest hc) (by rw [hc.cplNr, hc.same.reapDepth]; omega)
      simp only [h1]
      obtain hnone | ⟨ch2, taken, rest, rfl, hloop, hc2, hmin⟩ := hrest
      · exact Or.inl hnone
      · refine Or.inr ⟨ch2, msgs :: taken, rest, rfl, hloop, ?_, ?_⟩
        · rw [List.flatten_cons]
          exact hc.trans hc2
        · rw [List.flatten_cons, List.length_append]
          push_cast at hmin ⊢
          omega
    · rename_i hstop
      have hmin := pollAgain_false (by simpa using hstop)
      exact Or.inr ⟨ch, [], msgs :: batches, rfl, rfl, .refl ch, by simpa using hmin⟩

/-- With enough messages the loop ends; `hlast` is that it may wait once where it wants to. -/
theorem pollLoop_returns (hmin : min ≤ n + batches.flatten.length)
    (hlast : rc = 0 → retry = true → batches ≠ []) :
    pollLoop min ch rc n retry batches ≠ .ok none := by
  induction batches generalizing ch rc n retry with
  | nil =>
    have hstop : pollAgain min rc n retry = false := by
      have hone : ¬ (rc = 0 ∧ retry = true) := fun hc => hlast hc.1 hc.2 rfl
      simp only [List.flatten_nil, List.length_nil] at hmin
      have htwo : ¬ (min ≠ 0 ∧ (n : Int) < min) := by omega
      simp only [pollAgain, decide_eq_false htwo, Bool.false_or]
      simpa [Bool.and_eq_false_iff] using fun hz => by simpa using fun hr => hone ⟨hz, hr⟩
    unfold pollLoop
    rw [hstop]
    intro he
    cases he
  | cons msgs batches ih =>
    rw [List.flatten_cons, List.length_append] at hmin
    unfold pollLoop
    split
    · dsimp only
      split
      · intro he
        cases he
      · apply ih
        · push_cast at hmin ⊢
          omega
        · intro hzero hretry hempty
          simp only [Bool.and_eq_true, decide_eq_true_eq] at hretry
          rw [hempty] at hmin
          simp only [List.flatten_nil, List.length_nil] at hmin
          omega
    · intro he
      cases he

end Loop

/-- How many completions a call reports. -/
def reapCount (ch : IoChannel) (max : Int) : Nat := Nat.min ch.cplNr (Nat.min (asUnsigned max) ch.reapDepth)

/-- The end of a call: the first completions are written, and the counter says how many are left. -/
structure Reaped (ch : IoChannel) (opCpl : Nat → Nat) (max : Int) (r : Polled) : Prop where
  code : r.code = reapCount ch max
  io : r.io = { ch with cplNr := ch.cplNr - reapCount ch max }
  filled : ∀ i < reapCount ch max,
    r.opCpl i = (ch.opCtxs (ch.cplOps i)).requestAndResponse.header.rsv 0
  behind : ∀ i, reapCount ch max ≤ i → r.opCpl i = opCpl i

section Reap
variable {ch : IoChannel} {min max : Int} {opCpl : Nat → Nat} {batches : List (List Msg)}

theorem reapLoop_eq (ch : IoChannel) (i nrReap : Nat) (opCpl : Nat → Nat) :
    (reapLoop ch i nrReap opCpl).1 = i + Nat.min (ch.cplNr - i) nrReap ∧
      ∀ j, (reapLoop ch i nrReap opCpl).2 j =
        if i ≤ j ∧ j < i + Nat.min (ch.cplNr - i) nrReap then
          (ch.opCtxs (ch.cplOps j)).requestAndResponse.header.rsv 0
        else opCpl j := by
  induction nrReap generalizing i opCpl with
  | zero =>
    have hzero : Nat.min (ch.cplNr - i) 0 = 0 := Nat.min_zero _
    rw [hzero]
    refine ⟨rfl, fun j => ?_⟩
    rw [if_neg (by omega)]
    rfl
  | succ nrReap ih =>
    unfold reapLoop
    split
    · rename_i hlt
      have hmin : Nat.min (ch.cplNr - i) (nrReap + 1) = Nat.min (ch.cplNr - (i + 1)) nrReap + 1 := by
        simp only [Nat.min_def]
        split <;> split <;> omega
      obtain ⟨hcount, hfill⟩ := ih (i + 1)
        (Function.update opCpl i ((ch.opCtxs (ch.cplOps i)).requestAndResponse.header.rsv 0))
      dsimp only
      refine ⟨by rw [hcount, hmin]; omega, fun j => ?_⟩
      rw [hfill j, hmin]
      by_cases hj : j = i
      · subst hj
        rw [if_neg (by omega), if_pos (by omega), Function.update_self]
      · rw [Function.update_of_ne hj]
        by_cases hin : i + 1 ≤ j ∧ j < i + 1 + Nat.min (ch.cplNr - (i + 1)) nrReap
        · rw [if_pos hin, if_pos (by omega)]
        · rw [if_neg hin, if_neg (by omega)]
    · rename_i hge
      have hzero : ch.cplNr - i = 0 := by omega
      have hmin : Nat.min (ch.cplNr - i) (nrReap + 1) = 0 := by
        rw [hzero]
        exact Nat.zero_min _
      rw [hmin]
      refine ⟨rfl, fun j => ?_⟩
      rw [if_neg (by omega)]

theorem reapLoop_reaped (ch : IoChannel) (opCpl : Nat → Nat) (max : Int) (rest : List (List Msg)) :
    let r := reapLoop ch 0 (Nat.min (asUnsigned max) ch.reapDepth) opCpl
    Reaped ch opCpl max ⟨r.1, r.2, { ch with cplNr := ch.cplNr - r.1 }, rest⟩ := by
  obtain ⟨hcount, hfill⟩ := reapLoop_eq ch 0 (Nat.min (asUnsigned max) ch.reapDepth) opCpl
  rw [Nat.zero_add, Nat.sub_zero] at hcount
  simp only [Nat.zero_add, Nat.sub_zero, Nat.zero_le, true_and] at hfill
  dsimp only
  rw [hcount]
  refine ⟨rfl, rfl, fun i hi => ?_, fun i hi => ?_⟩
  · exact (hfill i).trans (if_pos hi)
  · exact (hfill i).trans (if_neg (Nat.not_lt_of_le hi))

/-- The loop reports what the step `reap` does. -/
theorem reap_reaped {r : Polled} (h : Reaped ch opCpl max r) :
    (List.range (reapCount ch max)).map r.opCpl = (reap ch (asUnsigned max)).1 ∧
      r.io = (reap ch (asUnsigned max)).2 := by
  refine ⟨?_, h.io⟩
  apply List.map_congr_left
  exact fun i hi => h.filled i (List.mem_range.mp hi)

/-- A call fails no assertion. It takes messages only if nothing is pending, and then at least `min`;
it returns if something is pending, or once it has got enough. -/
theorem ioPollChannel_honest (hle : min ≤ max) (h : Honest ch batches.flatten)
    (hroom : ch.cplNr = 0 → batches.flatten.length ≤ ch.reapDepth) :
    ∃ r, ioPollChannel ch opCpl min max batches = .ok r ∧
      (ch.cplNr ≠ 0 ∨ batches ≠ [] ∧ min ≤ batches.flatten.length → r.isSome) ∧
      ∀ p ∈ r, ∃ taken ch1, batches = taken ++ p.rest ∧ Completes ch taken.flatten ch1 ∧
        (ch.cplNr = 0 → min ≤ taken.flatten.length) ∧ (ch.cplNr ≠ 0 → taken = []) ∧
          Reaped ch1 opCpl max p := by
  unfold ioPollChannel
  dsimp only
  rw [if_neg (Int.not_lt.mpr hle)]
  by_cases hnr : ch.cplNr = 0
  · rw [if_pos hnr]
    have hroom := hroom hnr
    obtain hnone | ⟨ch1, taken, rest, rfl, hloop, hc, hmin⟩ :=
      @pollLoop_honest ch min 0 0 true batches h (by omega)
    · rw [hnone]
      refine ⟨none, rfl, ?_, fun p hp => nomatch hp⟩
      rintro (hne | ⟨hne, henough⟩)
      · exact absurd hnr hne
      · refine absurd hnone (pollLoop_returns ?_ fun _ _ => hne)
        push_cast
        omega
    · rw [hloop]
      refine ⟨_, rfl, fun _ => rfl, fun p hp => ?_⟩
      obtain rfl := Option.some.inj hp
      refine ⟨taken, ch1, rfl, hc, fun _ => ?_, fun hne => absurd hnr hne, ?_⟩
      · push_cast at hmin
        omega
      · rw [← hc.same.reapDepth]
        exact reapLoop_reaped ch1 opCpl max rest
  · rw [if_neg hnr]
    refine ⟨_, rfl, fun _ => rfl, fun p hp => ?_⟩
    obtain rfl := Option.some.inj hp
    exact ⟨[], ch, rfl, .refl ch, fun hz => absurd hz hnr, fun _ => rfl, reapLoop_reaped ch opCpl max batches⟩

end Reap

section Steps
variable {w : World} {ch : Chan} {c min max n j : Nat} {retry : Bool}

/-- The messages of the link as the channel gets them. -/
def Chan.batch (ch : Chan) (kind : Kind) (xs : List Sent) : List Msg :=
  xs.map fun x => delivered kind ch.io.session x.msg

theorem recvAll_io (kind : Kind) (c : Nat) (ch : Chan) (xs : List Sent) :
    recvMsgs ch.io (ch.batch kind xs) =
      match (World.recvAll kind c ch xs).2.2 with
      | none => .ok (World.recvAll kind c ch xs).1.io
      | some f => .error f := by
  induction xs generalizing ch with
  | nil => rfl
  | cons x xs ih =>
    simp only [World.recvAll, Chan.batch, List.map_cons, recvMsgs, List.foldlM_cons]
    cases hm : onRecvMsg ch.io (delivered kind ch.io.session x.msg) with
    | error f => rfl
    | ok io =>
      have hrest := ih { ch with io := io }
      have hsession : io.session = ch.io.session := (onRecvMsg_recv hm).session
      simp only [Chan.batch, hsession] at hrest
      exact hrest

/-- A step `wait` is one turn of the loop: it receives one batch, and goes on as the test says. -/
theorem wait_turns (hj : j ≤ (w.s2c ch.link).length) :
    let msgs := ch.batch w.kind ((w.s2c ch.link).take j)
    let w' := w.wait c ch min max n retry j
    msgs.length = j ∧
      w'.pc = (if pollAgain min msgs.length (n + msgs.length) retry then
          .polling c min max (n + j) (retry && decide ((min : Int) ≠ 0 ∧ ((n + j : Nat) : Int) < min))
        else .reaping c max) ∧
      recvMsgs ch.io msgs = match w'.fault with
        | none => .ok (World.recvAll w.kind c ch ((w.s2c ch.link).take j)).1.io
        | some f => .error f := by
  have hlen : (ch.batch w.kind ((w.s2c ch.link).take j)).length = j := by
    rw [Chan.batch, List.length_map, List.length_take, Nat.min_eq_left hj]
  dsimp only
  refine ⟨hlen, ?_, recvAll_io w.kind c ch _⟩
  rw [hlen]
  simp only [World.wait, World.receive, pollAgain]
  by_cases hmore : n + j < min
  · have hless : (min : Int) ≠ 0 ∧ ((n + j : Nat) : Int) < min := by omega
    simp only [if_pos hmore, decide_eq_true hless, Bool.true_or, Bool.and_true, if_true]
  · have hless : ¬ ((min : Int) ≠ 0 ∧ ((n + j : Nat) : Int) < min) := by omega
    simp only [if_neg hmore, decide_eq_false hless, Bool.false_or, Bool.and_false, Bool.and_eq_true,
      decide_eq_true_eq]

/-- The first test lets the loop begin. -/
theorem poll_begins (hle : min ≤ max) (hnr : ch.io.cplNr = 0) : pollAgain min 0 0 true = true ∧
    (w.poll c ch min max).pc =
      .polling c min max 0 (true && decide ((min : Int) ≠ 0 ∧ ((0 : Nat) : Int) < min)) := by
  have hpos : (min : Int) ≠ 0 ∧ ((0 : Nat) : Int) < min ↔ 0 < min := by omega
  refine ⟨by simp [pollAgain], ?_⟩
  rw [World.poll, if_neg (Nat.not_lt_of_le hle), if_pos hnr]
  simp only [hpos, Bool.true_and]

end Steps
end ZCell.Liboss
