import ZCell.SlotLife

/-! What the client of a channel can rely on: a call returns an id of its own, or none is left, and
destroying gives ids back. Both fail: a call reaches behind the array where the bitmap does, and
`_free_op` asserts the one state that `op_claim_result` leaves. -/
namespace ZCell.Liboss
open Messager Server Runs

/-- The call returns an id of the array that nobody has, or all ids are in use. -/
def PrepareOk (x : Client) (call : Call) : Prop :=
  ∃ rc io, ioCall x.io call = .ok (rc, io) ∧
    ((∃ id : Nat, rc = id ∧ id < x.io.queueDepth ∧ id ∉ x.live) ∨
      rc = enomem ∧ x.live.length = x.io.queueDepth)

/-- An id is left below 2^31, or none is and the bitmap ends with the array; and the length of the
bitmap does not wrap around. -/
def IdLeft (depth inUse : Nat) : Prop :=
  depth + 63 < 2 ^ 32 ∧ (inUse < depth ∧ inUse < 2 ^ 31 ∨ inUse = depth ∧ 64 ∣ depth)

/-- An operation in progress is refused; every other one is freed. -/
def DestroyOk (ch : IoChannel) (id : Nat) : Prop :=
  if (ch.opCtxs id).state = .inProgress then opDestory ch id = .ok (einprogress, ch)
  else ∃ io, opDestory ch id = .ok (0, io) ∧ io.opCtxsBitmap.getBit id = true ∧
    (io.opCtxs id).state = .new

def freeSlots (ch : IoChannel) : Nat :=
  (List.range (64 * ch.opCtxsBitmap.wordsLength)).countP ch.opCtxsBitmap.getBit

section Ids
variable {qd wl : Nat} {x : Client} {call : Call}

theorem wordsOf_ge {qd : Nat} (h : qd + 63 < 2 ^ 32) : qd ≤ 64 * wordsOf qd := by
  rw [wordsOf_eq, Nat.mod_eq_of_lt h]
  omega

theorem wordsOf_full {qd : Nat} (h : qd < 2 ^ 32) (hdvd : 64 ∣ qd) : 64 * wordsOf qd = qd := by
  rw [wordsOf_eq]
  omega

/-- What the search finds is free, and everything below it is in use. -/
theorem Lives.lowest (h : Lives qd wl x) {i : Nat}
    (hn : x.io.opCtxsBitmap.nextSetIndex x.io.bitmapHint = some i) :
    i < 64 * wl ∧ i ∉ x.live ∧ ∀ j < i, j ∈ x.live := by
  have hhint := h.hint
  rw [← h.words] at hhint
  obtain ⟨hset, hmin⟩ := nextSetIndex_lowest h.before hn
  refine ⟨?_, (h.free i).mp hset, fun j hj => ?_⟩
  · rw [← h.words]
    exact (nextSetIndex_spec hn).2 hhint
  · by_contra hnot
    have hset := (h.free j).mpr hnot
    rw [hmin j hj] at hset
    cases hset

/-- No id is left that the search finds. -/
theorem Lives.none_left (h : Lives qd (wordsOf qd) x) (hqd : 0 < qd) (hlt : qd < 2 ^ 32)
    (hnone : ∀ i, x.io.opCtxsBitmap.nextSetIndex x.io.bitmapHint = some i → 2 ^ 31 ≤ i) :
    x.live.length = qd ↔ IdLeft qd x.live.length := by
  have hhint := h.hint
  rw [← h.words] at hhint
  cases hn : x.io.opCtxsBitmap.nextSetIndex x.io.bitmapHint with
  | none =>
    have hclear := nextSetIndex_none hhint hn
    have hlive : ∀ i < 64 * wordsOf qd, i ∈ x.live := by
      intro i hi
      by_contra hnot
      have hset := (h.free i).mpr hnot
      rw [hclear i (by rw [h.words]; exact hi)] at hset
      cases hset
    have hle := length_le_of_bounded h.nodup fun i hi => (h.inside i hi).1
    have hle' := length_le_of_bounded h.nodup fun i hi => (h.inside i hi).2.1
    have hge := le_length_of_all hlive
    constructor
    · intro hfull
      have hwrap : qd + 63 < 2 ^ 32 := by
        by_contra hwrap
        have hzero := wordsOf_eq qd
        omega
      have hcover := wordsOf_ge hwrap
      exact ⟨hwrap, Or.inr ⟨hfull, ⟨wordsOf qd, by omega⟩⟩⟩
    · rintro ⟨hwrap, ⟨hless, _⟩ | ⟨hfull, _⟩⟩
      · have hcover := wordsOf_ge hwrap
        omega
      · exact hfull
  | some i =>
    have hi := hnone i hn
    obtain ⟨hword, _, hlow⟩ := h.lowest hn
    have hge := le_length_of_all hlow
    have hle := length_le_of_bounded h.nodup fun j hj => (h.inside j hj).2.2
    have hle' := length_le_of_bounded h.nodup fun j hj => (h.inside j hj).1
    constructor
    · intro hfull
      have hcover := wordsOf_eq qd
      omega
    · rintro ⟨_, ⟨_, hless⟩ | ⟨hfull, _⟩⟩
      · omega
      · exact hfull

/-- The search has found `id`. -/
theorem Lives.found_left (h : Lives qd (wordsOf qd) x) (hlt : qd < 2 ^ 32) {id : Nat} (hid : id < 2 ^ 31)
    (hn : x.io.opCtxsBitmap.nextSetIndex x.io.bitmapHint = some id) :
    id ∉ x.live ∧ (id < qd ↔ IdLeft qd x.live.length) := by
  obtain ⟨hword, hmiss, hlow⟩ := h.lowest hn
  have hge := le_length_of_all hlow
  refine ⟨hmiss, fun hless => ⟨?_, Or.inl ⟨?_, ?_⟩⟩, ?_⟩
  · by_contra hwrap
    have hcover := wordsOf_eq qd
    omega
  · exact length_lt_of_missing h.nodup (fun j hj => (h.inside j hj).1) hless hmiss
  · exact length_lt_of_missing h.nodup (fun j hj => (h.inside j hj).2.2) hid hmiss
  · rintro ⟨hwrap, ⟨hless, _⟩ | ⟨hfull, hdvd⟩⟩
    · omega
    · have hcover := wordsOf_full (by omega) hdvd
      omega

theorem Lives.prepareOk_iff (h : Lives qd (wordsOf qd) x) (hqd : 0 < qd) (hlt : qd < 2 ^ 32) :
    PrepareOk x call ↔ IdLeft qd x.live.length := by
  have hhint := h.hint
  have hwl : 64 * wordsOf qd ≤ 2 ^ 32 := by
    rw [wordsOf_eq]
    omega
  rw [← h.words] at hhint hwl
  unfold PrepareOk
  obtain ⟨hcall, hnone⟩ | ⟨id, m, hn, hid, _, hcall⟩ := ioCall_prepares hwl hhint call
  · rw [hcall, h.queueDepth, ← h.none_left hqd hlt hnone]
    constructor
    · rintro ⟨rc, io, hrc, ⟨id, rfl, _⟩ | ⟨_, hfull⟩⟩
      · have hneg := (Prod.mk.inj (Except.ok.inj hrc)).1
        unfold enomem at hneg
        omega
      · exact hfull
    · exact fun hfull => ⟨enomem, x.io, rfl, Or.inr ⟨rfl, hfull⟩⟩
  · obtain ⟨hmiss, hiff⟩ := h.found_left hlt hid hn
    rw [hcall, h.queueDepth, ← hiff]
    split
    · rename_i hge
      constructor
      · rintro ⟨rc, io, hrc, _⟩
        cases hrc
      · exact fun hless => absurd hge (Nat.not_le_of_lt hless)
    · rename_i hless
      have hless := Nat.lt_of_not_le hless
      exact ⟨fun _ => hless, fun _ => ⟨_, _, rfl, Or.inl ⟨id, rfl, hless, hmiss⟩⟩⟩

theorem Lives.freeSlots (h : Lives qd (wordsOf qd) x) (hlt : qd < 2 ^ 32) (hdvd : 64 ∣ qd) :
    freeSlots x.io + x.live.length = qd := by
  have hfull := wordsOf_full hlt hdvd
  have hperm : ((List.range qd).filter fun i => ¬ x.io.opCtxsBitmap.getBit i = true).Perm x.live := by
    rw [List.perm_ext_iff_of_nodup (List.nodup_range.filter _) h.nodup]
    intro i
    simp only [List.mem_filter, List.mem_range, decide_eq_true_eq, h.free, not_not]
    exact ⟨And.right, fun hi => ⟨(h.inside i hi).1, hi⟩⟩
  have hsplit := List.length_eq_countP_add_countP x.io.opCtxsBitmap.getBit (l := List.range qd)
  rw [List.length_range] at hsplit
  rw [Liboss.freeSlots, h.words, hfull, ← hperm.length_eq, ← List.countP_eq_length_filter]
  exact hsplit.symm

theorem Lives.destroyOk_iff (h : Lives qd wl x) {id : Nat} (hid : id ∈ x.live) :
    DestroyOk x.io id ↔ (x.io.opCtxs id).state = .inProgress ∨ (x.io.opCtxs id).state = .ended := by
  have hlt : id < x.io.queueDepth := by
    rw [h.queueDepth]
    exact (h.inside id hid).1
  have hbit : ¬ x.io.opCtxsBitmap.getBit id = true := fun hset => (h.free id).mp hset hid
  have heq := opDestory_eq fun hlt => h.slot id (by rw [← h.queueDepth]; exact hlt)
  rw [if_pos hlt] at heq
  unfold DestroyOk
  cases hst : (x.io.opCtxs id).state with
  | new => exact absurd hst (h.used id hid)
  | inProgress =>
    rw [hst] at heq
    simp [heq]
  | waitingSubmit | completed =>
    rw [hst] at heq
    simp [heq]
  | ended =>
    rw [hst] at heq
    dsimp only at heq
    rw [if_neg hbit] at heq
    have hnew : ((x.io.freed id).opCtxs id).state = .new := by
      simp [IoChannel.freed, IoChannel.setState]
    have hset : (x.io.freed id).opCtxsBitmap.getBit id = true := by
      simp [IoChannel.freed, getBit_setBit]
    simp only [heq, reduceCtorEq, if_false, false_or, iff_true]
    exact ⟨_, rfl, hset, hnew⟩

end Ids

section Results
variable {kind : Kind} {session : Nat} {maxQd : BitVec 32} {x : Client}

/-- Whatever the client and its server have done, a call keeps its promise exactly as long as an id
is left below 2^31, and beyond that only if the bitmap ends with the array. -/
theorem prepare_keeps_iff
    (hrun : Run Client.move Client.any (Client.start kind session maxQd) x) (call : Call) :
    PrepareOk x call ↔ IdLeft (depthOf maxQd) x.live.length :=
  (run_lives hrun).prepareOk_iff (depthOf_pos maxQd) (depthOf_lt maxQd)

/-- Two operations in flight, of which the second is answered, claimed and destroyed before the next
call. -/
theorem laterCall_keeps : ∃ x, Run Client.move Client.any (Client.start .net 0 64) x ∧ x.live = [0] ∧
    PrepareOk x (.create 5) := by
  have hrun : (runActs Client.move Client.any [.prepare .stat, .prepare .stat, .submit [0, 1],
      .poll 1 2 [[⟨⟨0, 0, 0⟩, MsgHdr.build 1 msgOssOpStat Kind.net.magic 0 0 1, none, none, 0⟩]],
      .claim 1, .destroy 1] (Client.start .net 0 64)).map Client.live = some [0] := by decide +kernel
  obtain ⟨x, hx, hlive⟩ := Option.map_eq_some_iff.mp hrun
  have hreach := run_of_runActs .start hx
  refine ⟨x, hreach, hlive, (prepare_keeps_iff hreach (.create 5)).mpr ⟨by decide, Or.inl ?_⟩⟩
  rw [hlive]
  decide

/-- On a channel of depth 1 the second call takes bit 1, behind the array. -/
theorem second_call_behind_array : ∃ x, Run Client.move Client.any (Client.start .net 0 1) x ∧
    x.live = [0] ∧ ioCall x.io .stat = .error .workArray ∧ ¬ PrepareOk x .stat := by
  have hstep : ∃ x, Client.move (.prepare .stat) (Client.start .net 0 1) = some x ∧ x.live = [0] ∧
      ioCall x.io .stat = .error .workArray := ⟨_, rfl, rfl, rfl⟩
  obtain ⟨x, hs, hlive, hcall⟩ := hstep
  refine ⟨x, .next (.prepare .stat) .start trivial hs, hlive, hcall, ?_⟩
  rintro ⟨rc, io, hok, _⟩
  rw [hcall] at hok
  cases hok

/-- Free slots and ids in use add up to the depth, and an id can be destroyed exactly if its
operation is in progress, where that is refused, or has been claimed. -/
theorem destroy_keeps_iff (hdvd : 64 ∣ depthOf maxQd)
    (hrun : Run Client.move Client.any (Client.start kind session maxQd) x) :
    freeSlots x.io + x.live.length = depthOf maxQd ∧ ∀ id ∈ x.live, DestroyOk x.io id ↔
      (x.io.opCtxs id).state = .inProgress ∨ (x.io.opCtxs id).state = .ended :=
  ⟨(run_lives hrun).freeSlots (depthOf_lt maxQd) hdvd, fun _ hid => (run_lives hrun).destroyOk_iff hid⟩

theorem submitted_refused : ∃ x, Run Client.move Client.any (Client.start .net 0 64) x ∧
    freeSlots x.io + x.live.length = 64 ∧ DestroyOk x.io 0 := by
  have hsteps : ∃ x1 x2, Client.move (.prepare .stat) (Client.start .net 0 64) = some x1 ∧
      Client.move (.submit [0]) x1 = some x2 ∧ x2.live = [0] ∧ (x2.io.opCtxs 0).state = .inProgress :=
    ⟨_, _, rfl, rfl, rfl, rfl⟩
  obtain ⟨x1, x2, h1, h2, hlive, hst⟩ := hsteps
  have hrun : Run Client.move Client.any (Client.start .net 0 64) x2 :=
    .next (.submit [0]) (.next (.prepare .stat) .start trivial h1) trivial h2
  obtain ⟨hsum, hdestroy⟩ := destroy_keeps_iff (by decide) hrun
  exact ⟨x2, hrun, hsum, (hdestroy 0 (by rw [hlive]; exact List.mem_singleton_self 0)).mpr (Or.inl hst)⟩

/-- An operation that is destroyed before it is submitted. -/
theorem waiting_aborts : ∃ x, Run Client.move Client.any (Client.start .net 0 64) x ∧ x.live = [0] ∧
    (x.io.opCtxs 0).state = .waitingSubmit ∧ opDestory x.io 0 = .error .assertion ∧
      ¬ DestroyOk x.io 0 := by
  have hstep : ∃ x, Client.move (.prepare .stat) (Client.start .net 0 64) = some x ∧ x.live = [0] ∧
      (x.io.opCtxs 0).state = .waitingSubmit ∧ opDestory x.io 0 = .error .assertion :=
    ⟨_, rfl, rfl, rfl, rfl⟩
  obtain ⟨x, hs, hlive, hst, hdestroy⟩ := hstep
  refine ⟨x, .next (.prepare .stat) .start trivial hs, hlive, hst, hdestroy, ?_⟩
  rw [DestroyOk, hst, if_neg (by decide), hdestroy]
  rintro ⟨io, hok, _⟩
  cases hok

end Results
end ZCell.Liboss
