import ZCell.PollBounds

/-! Which polls report a completion. What a poll leaves over stays at the end of the array, while the
next one begins at its front. -/
namespace ZCell.Liboss
open Bytes Messager Server Runs

/-- A channel and the ids that polls have written to `op_cpl`, one call after the other. -/
structure Reporter where
  io : IoChannel
  reported : List Nat

/-- A response arrives, or a poll waits for exactly `batches`. -/
inductive Tick where
  | recv (msg : Msg)
  | poll (min max : Int) (batches : List (List Msg))

def Reporter.tick : Tick → Reporter → Option Reporter
  | .recv msg, p =>
    match onRecvMsg p.io msg with
    | .error _ => none
    | .ok io => some ⟨io, p.reported⟩
  | .poll min max batches, p =>
    match ioPollChannel p.io (fun _ => 0) min max batches with
    | .ok (some r) =>
      if r.rest.isEmpty then some ⟨r.io, p.reported ++ (List.range r.code.toNat).map r.opCpl⟩ else none
    | _ => none

/-- What comes in are responses to operations in progress. -/
def Reporter.fair (p : Reporter) : Tick → Prop
  | .recv msg => Response p.io msg
  | .poll min max batches => min ≤ max ∧ Honest p.io batches.flatten

/-- A poll asks for nothing, or takes all that is pending when it has waited. -/
def Reporter.takesAll (p : Reporter) : Tick → Prop
  | .recv _ => True
  | .poll _ max batches =>
    asUnsigned max = 0 ∨ p.io.cplNr + batches.flatten.length ≤ asUnsigned max

def Reporter.ok (p : Reporter) (t : Tick) : Prop := p.fair t ∧ p.takesAll t

instance (p : Reporter) (t : Tick) : Decidable (p.fair t) :=
  match t with
  | .recv msg => inferInstanceAs (Decidable (Response p.io msg))
  | .poll min max batches => inferInstanceAs (Decidable (min ≤ max ∧ Honest p.io batches.flatten))

instance (p : Reporter) (t : Tick) : Decidable (p.takesAll t) :=
  match t with
  | .recv _ => inferInstanceAs (Decidable True)
  | .poll _ max batches => inferInstanceAs (Decidable
      (asUnsigned max = 0 ∨ p.io.cplNr + batches.flatten.length ≤ asUnsigned max))

instance (p : Reporter) (t : Tick) : Decidable (p.ok t) := inferInstanceAs (Decidable (_ ∧ _))

/-- The response to operation `id` has come in since the channel was `ch0`. -/
def AnsweredSince (ch0 ch : IoChannel) (id : Nat) : Prop :=
  id < ch0.queueDepth ∧ (ch0.opCtxs id).state = .inProgress ∧ (ch.opCtxs id).state = .completed

/-- Nothing is reported twice, and only what has been answered. A poll that asks for something leaves
no answered operation out, and no assertion fails. -/
structure OnceReported (ch0 : IoChannel) (p : Reporter) : Prop where
  nodup : p.reported.Nodup
  answered : ∀ id ∈ p.reported, AnsweredSince ch0 p.io id
  complete : ∀ min max batches p', p.ok (.poll min max batches) → asUnsigned max ≠ 0 →
    Reporter.tick (.poll min max batches) p = some p' →
      ∀ id, AnsweredSince ch0 p'.io id → id ∈ p'.reported
  recvOk : ∀ msg, p.ok (.recv msg) → ∃ io, onRecvMsg p.io msg = .ok io
  pollOk : ∀ min max batches, p.ok (.poll min max batches) →
    ∃ r, ioPollChannel p.io (fun _ => 0) min max batches = .ok r

/-- What is reported and what is pending are together the operations that have been answered. -/
structure Tally (ch0 : IoChannel) (p : Reporter) : Prop where
  depth : ch0.queueDepth ≤ ch0.reapDepth
  same : ch0.Same p.io
  nodup : (p.reported ++ pending p.io).Nodup
  slot : ∀ id ∈ pending p.io, (p.io.opCtxs id).requestAndResponse.header.rsv 0 = id
  answered : ∀ id ∈ p.reported ++ pending p.io, AnsweredSince ch0 p.io id
  other : ∀ id, id ∉ p.reported ++ pending p.io → p.io.opCtxs id = ch0.opCtxs id

section Tally
variable {ch0 ch1 : IoChannel} {p p' : Reporter} {msg : Msg} {msgs : List Msg} {min max : Int}
  {batches : List (List Msg)}

theorem start_tally (hdepth : ch0.queueDepth ≤ ch0.reapDepth) (hnr : ch0.cplNr = 0) :
    Tally ch0 ⟨ch0, []⟩ := by
  have hnone : pending ch0 = [] := by
    rw [pending, hnr]
    rfl
  refine ⟨hdepth, .refl ch0, ?_, ?_, ?_, fun _ _ => rfl⟩ <;> dsimp only <;> rw [hnone]
  · exact List.nodup_nil
  · exact fun id hid => absurd hid List.not_mem_nil
  · exact fun id hid => absurd hid List.not_mem_nil

/-- An operation in progress is neither reported nor pending. -/
theorem Tally.fresh (h : Tally ch0 p) {id : Nat} (hst : (p.io.opCtxs id).state = .inProgress) :
    id ∉ p.reported ++ pending p.io := by
  intro hid
  have hdone := (h.answered id hid).2.2
  rw [hst] at hdone
  cases hdone

theorem Tally.cplNr_le (h : Tally ch0 p) (hr : Response p.io msg) : p.io.cplNr < p.io.reapDepth := by
  have hfresh := h.fresh hr.state
  rw [List.mem_append, not_or] at hfresh
  have hlt := length_lt_of_missing (List.nodup_append.mp h.nodup).2.1
    (fun id hid => (h.answered id (List.mem_append_right _ hid)).1)
    (by rw [← h.same.queueDepth]; exact hr.lt) hfresh.2
  rw [length_pending] at hlt
  rw [h.same.reapDepth]
  exact hlt.trans_le h.depth

/-- The array of completions has room for the responses to all operations in progress. -/
theorem Tally.room (h : Tally ch0 p) (hh : Honest p.io msgs) : msgs.length ≤ p.io.reapDepth := by
  have hlen := hh.length_le
  rw [h.same.queueDepth] at hlen
  rw [h.same.reapDepth]
  exact hlen.trans h.depth

/-- Responses that come in are pending behind those that are already. -/
theorem Tally.completes (h : Tally ch0 p) (hh : Honest p.io msgs) (hc : Completes p.io msgs ch1) :
    Tally ch0 ⟨ch1, p.reported⟩ := by
  have hfresh : ∀ id ∈ msgs.map slotOf, id ∉ p.reported ++ pending p.io := by
    intro id hid
    obtain ⟨msg, hmsg, rfl⟩ := List.mem_map.mp hid
    exact h.fresh (hh.response msg hmsg).state
  have hold : ∀ id ∈ p.reported ++ pending p.io, ch1.opCtxs id = p.io.opCtxs id := fun id hid =>
    hc.other id fun hin => hfresh id hin hid
  refine ⟨h.depth, h.same.trans hc.same, ?_, ?_, ?_, ?_⟩ <;> dsimp only <;> rw [hc.pending]
  · rw [← List.append_assoc, List.nodup_append]
    exact ⟨h.nodup, hh.nodup, fun a ha b hb he => hfresh b hb (he ▸ ha)⟩
  · intro id hid
    obtain hid | hid := List.mem_append.mp hid
    · rw [hold id (List.mem_append_right _ hid)]
      exact h.slot id hid
    · exact (hc.answered id hid).2
  · intro id hid
    rw [← List.append_assoc, List.mem_append] at hid
    obtain hid | hid := hid
    · obtain ⟨hlt, hstart, hdone⟩ := h.answered id hid
      exact ⟨hlt, hstart, by rw [hold id hid]; exact hdone⟩
    · have hdone := (hc.answered id hid).1
      obtain ⟨msg, hmsg, rfl⟩ := List.mem_map.mp hid
      have hr := hh.response msg hmsg
      refine ⟨by rw [← h.same.queueDepth]; exact hr.lt, ?_, hdone⟩
      rw [← h.other _ (hfresh _ hid)]
      exact hr.state
  · intro id hid
    rw [← List.append_assoc, List.mem_append, not_or] at hid
    rw [hc.other id hid.2, h.other id hid.1]

/-- A poll that takes all reports what is pending, and one that asks for nothing leaves it. -/
theorem Tally.reaped (h : Tally ch0 p) {opCpl : Nat → Nat} {r : Polled} (hr : Reaped p.io opCpl max r)
    (hall : asUnsigned max = 0 ∨ p.io.cplNr ≤ asUnsigned max) :
    Tally ch0 ⟨r.io, p.reported ++ (List.range r.code.toNat).map r.opCpl⟩ ∧
      (asUnsigned max ≠ 0 → pending r.io = []) := by
  have hle : p.io.cplNr ≤ p.io.reapDepth := by
    have hlen := length_le_of_bounded (List.nodup_append.mp h.nodup).2.1
      fun id hid => (h.answered id (List.mem_append_right _ hid)).1
    rw [length_pending] at hlen
    rw [h.same.reapDepth]
    exact hlen.trans h.depth
  have hsame : p.io.Same r.io := by
    rw [hr.io]
    exact ⟨rfl, rfl, rfl, rfl⟩
  have hops : r.io.opCtxs = p.io.opCtxs := by rw [hr.io]
  have hkeep : ∀ id, AnsweredSince ch0 p.io id → AnsweredSince ch0 r.io id := fun id ha => by
    rw [AnsweredSince, hops]
    exact ha
  by_cases hzero : asUnsigned max = 0
  · have hcount : reapCount p.io max = 0 := by
      rw [reapCount, hzero]
      simp
    have hpend : pending r.io = pending p.io := by
      rw [hr.io, hcount]
      rfl
    have hnone : (List.range r.code.toNat).map r.opCpl = [] := by
      rw [hr.code, hcount]
      rfl
    refine ⟨?_, fun hne => absurd hzero hne⟩
    rw [hnone, List.append_nil]
    refine ⟨h.depth, h.same.trans hsame, ?_, ?_, ?_, ?_⟩ <;> dsimp only <;> rw [hpend]
    · exact h.nodup
    · rw [hops]
      exact h.slot
    · exact fun id hid => hkeep id (h.answered id hid)
    · rw [hops]
      exact h.other
  · have hcount : reapCount p.io max = p.io.cplNr := by
      have hfits := hall.resolve_left hzero
      have hinner : p.io.cplNr ≤ Nat.min (asUnsigned max) p.io.reapDepth := Nat.le_min.mpr ⟨hfits, hle⟩
      rw [reapCount]
      exact Nat.min_eq_left hinner
    have hpend : pending r.io = [] := by
      rw [hr.io, hcount, pending]
      simp
    have hreport : (List.range r.code.toNat).map r.opCpl = pending p.io := by
      rw [hr.code, hcount, Int.toNat_natCast]
      apply List.map_congr_left
      intro i hi
      rw [hr.filled i (by rw [hcount]; exact List.mem_range.mp hi)]
      exact h.slot _ (List.mem_map_of_mem hi)
    refine ⟨?_, fun _ => hpend⟩
    rw [hreport]
    refine ⟨h.depth, h.same.trans hsame, ?_, ?_, ?_, ?_⟩ <;> dsimp only <;> rw [hpend]
    · rw [List.append_nil]
      exact h.nodup
    · exact fun id hid => absurd hid List.not_mem_nil
    · rw [List.append_nil]
      exact fun id hid => hkeep id (h.answered id hid)
    · rw [List.append_nil, hops]
      exact h.other

theorem Tally.recv (h : Tally ch0 p) (hr : Response p.io msg) (hs : Reporter.tick (.recv msg) p = some p') :
    Tally ch0 p' := by
  simp only [Reporter.tick] at hs
  split at hs
  · cases hs
  · rename_i io hio
    obtain rfl := Option.some.inj hs
    have hone : Honest p.io [msg] := by
      refine ⟨fun m hm => ?_, List.pairwise_singleton ..⟩
      obtain rfl := List.mem_singleton.mp hm
      exact hr
    exact h.completes hone (onRecvMsg_recv hio).completes

theorem Tally.poll (h : Tally ch0 p) (hok : p.ok (.poll min max batches))
    (hs : Reporter.tick (.poll min max batches) p = some p') :
    Tally ch0 p' ∧ (asUnsigned max ≠ 0 → pending p'.io = []) := by
  obtain ⟨⟨hle, hh⟩, hall⟩ := hok
  obtain ⟨r, hcall, _, hspec⟩ := @ioPollChannel_honest p.io min max (fun _ => 0) batches hle hh
    fun _ => h.room hh
  simp only [Reporter.tick, hcall] at hs
  cases r with
  | none => cases hs
  | some r =>
    dsimp only at hs
    split at hs
    · rename_i hrest
      obtain rfl := Option.some.inj hs
      obtain ⟨taken, ch1, hbatches, hc, _, _, hreap⟩ := hspec r rfl
      rw [List.isEmpty_iff.mp hrest, List.append_nil] at hbatches
      subst hbatches
      exact @Tally.reaped ch0 ⟨ch1, p.reported⟩ max (h.completes hh hc) (fun _ => 0) r hreap
        (by rw [hc.cplNr]; exact hall)
    · cases hs

theorem Tally.tick (h : Tally ch0 p) {t : Tick} (hok : p.ok t) (hs : Reporter.tick t p = some p') :
    Tally ch0 p' := by
  cases t with
  | recv msg => exact h.recv hok.1 hs
  | poll min max batches => exact (h.poll hok hs).1

theorem Tally.onceReported (h : Tally ch0 p) : OnceReported ch0 p where
  nodup := (List.nodup_append.mp h.nodup).1
  answered id hid := h.answered id (List.mem_append_left _ hid)
  complete min max batches p' hok hne hs id ha := by
    obtain ⟨h', hnone⟩ := h.poll hok hs
    by_contra hnot
    have hsame := h'.other id (by rw [hnone hne, List.append_nil]; exact hnot)
    have hdone := ha.2.2
    rw [hsame, ha.2.1] at hdone
    cases hdone
  recvOk msg hok := onRecvMsg_response hok.1 (h.cplNr_le hok.1)
  pollOk min max batches hok := by
    obtain ⟨⟨hle, hh⟩, _⟩ := hok
    obtain ⟨r, hcall, _⟩ := @ioPollChannel_honest p.io min max (fun _ => 0) batches hle hh
      fun _ => h.room hh
    exact ⟨r, hcall⟩

end Tally

section Results
variable {kind : Kind} {session : Nat} {maxQd : BitVec 32} {x : Client}

/-- From a channel on which nothing is pending: as long as every poll takes all or asks for nothing,
every completion is reported once. -/
theorem reported_once (hclient : Run Client.move Client.any (Client.start kind session maxQd) x)
    (hnr : x.io.cplNr = 0) {p : Reporter} (hrun : Run Reporter.tick Reporter.ok ⟨x.io, []⟩ p) :
    OnceReported x.io p := by
  have hl := run_lives hclient
  have hdepth : x.io.queueDepth ≤ x.io.reapDepth := by
    rw [hl.queueDepth, hl.reapDepth]
  have ht : Tally x.io p :=
    hrun.invariant (start_tally hdepth hnr) fun _ _ _ h hok hs => h.tick hok hs
  exact ht.onceReported

/-- Two operations are answered during a poll that takes both. -/
theorem both_reported : ∃ x p, Run Client.move Client.any (Client.start .net 0 3) x ∧
    Run Reporter.tick Reporter.ok ⟨x.io, []⟩ p ∧ p.reported = [0, 1] ∧ OnceReported x.io p := by
  have hrun : ((runActs Client.move Client.any [.prepare .stat, .prepare .stat, .submit [0, 1]]
      (Client.start .net 0 3)).bind fun x =>
        (runActs Reporter.tick Reporter.ok [.poll 1 2 [[statReply 0, statReply 1]]] ⟨x.io, []⟩).map
          fun p => (x.io.cplNr, p.reported)) = some (0, [0, 1]) := by decide +kernel
  obtain ⟨x, hx, hpoll⟩ := Option.bind_eq_some_iff.mp hrun
  obtain ⟨p, hp, hval⟩ := Option.map_eq_some_iff.mp hpoll
  obtain ⟨hnr, hreported⟩ := Prod.mk.inj hval
  have hclient := run_of_runActs .start hx
  have hticks := run_of_runActs .start hp
  exact ⟨x, p, hclient, hticks, hreported, reported_once hclient hnr hticks⟩

/-- Two operations are answered during a poll for one, and the next poll reports the first again. -/
theorem first_reported_twice : ∃ x p, Run Client.move Client.any (Client.start .net 0 3) x ∧
    x.io.cplNr = 0 ∧ Run Reporter.tick Reporter.fair ⟨x.io, []⟩ p ∧ p.reported = [0, 0] ∧
      ¬ OnceReported x.io p := by
  have hrun : ((runActs Client.move Client.any [.prepare .stat, .prepare .stat, .submit [0, 1]]
      (Client.start .net 0 3)).bind fun x =>
        (runActs Reporter.tick Reporter.fair [.poll 1 1 [[statReply 0, statReply 1]], .poll 1 1 []]
          ⟨x.io, []⟩).map fun p => (x.io.cplNr, p.reported)) = some (0, [0, 0]) := by decide +kernel
  obtain ⟨x, hx, hpoll⟩ := Option.bind_eq_some_iff.mp hrun
  obtain ⟨p, hp, hval⟩ := Option.map_eq_some_iff.mp hpoll
  obtain ⟨hnr, hreported⟩ := Prod.mk.inj hval
  refine ⟨x, p, run_of_runActs .start hx, hnr, run_of_runActs .start hp, hreported, fun honce => ?_⟩
  have hnd := honce.nodup
  rw [hreported] at hnd
  exact absurd hnd (by decide)

end Results
end ZCell.Liboss
