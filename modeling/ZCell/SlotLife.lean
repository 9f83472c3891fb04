import ZCell.ChannelCalls
import ZCell.PairingRun

/-! The ids that the calls of liboss.c return: which slot a call takes, and which slots are free. The
bitmap is rounded up to words, so that its last ones may lie behind the array. -/
namespace ZCell.Liboss
open Messager Server Runs

/-- The search finds the lowest free slot: before the word of the hint nothing is free. A slot is
free exactly if no client has it, and the message of a slot in use names it. -/
structure Lives (qd wl : Nat) (x : Client) : Prop where
  queueDepth : x.io.queueDepth = qd
  reapDepth : x.io.reapDepth = qd
  words : x.io.opCtxsBitmap.wordsLength = wl
  hint : x.io.bitmapHint ≤ 64 * wl
  before : ∀ i < 64 * (x.io.bitmapHint / 64), x.io.opCtxsBitmap.getBit i = false
  free : ∀ i, x.io.opCtxsBitmap.getBit i = true ↔ i ∉ x.live
  inside : ∀ i ∈ x.live, i < qd ∧ i < 64 * wl ∧ i < 2 ^ 31
  nodup : x.live.Nodup
  slot : ∀ i < qd, (x.io.opCtxs i).state ≠ .new →
    (x.io.opCtxs i).requestAndResponse.header.rsv 0 = i
  used : ∀ i ∈ x.live, (x.io.opCtxs i).state ≠ .new

/-- The number of words of the bitmap, which is rounded up and may wrap around. -/
def wordsOf (qd : Nat) : Nat := (bitmapConstructor (BitVec.ofNat 32 qd)).wordsLength

theorem wordsOf_eq (qd : Nat) : wordsOf qd = (qd + 63) % 2 ^ 32 / 64 := by
  have h63 : (63 : BitVec 32).toNat = 63 := rfl
  simp only [wordsOf, bitmapConstructor, BitVec.toNat_add, BitVec.toNat_ofNat, h63, Nat.mod_add_mod]

theorem depthOf_pos (maxQd : BitVec 32) : 0 < depthOf maxQd := by
  unfold depthOf
  split
  · rename_i hne
    exact Nat.pos_of_ne_zero fun hz => hne (BitVec.eq_of_toNat_eq hz)
  · decide

theorem depthOf_lt (maxQd : BitVec 32) : depthOf maxQd < 2 ^ 32 := BitVec.isLt _

section Search
variable {b : Bitmap} {hint i : Nat}

/-- Where nothing is free before the word of the hint, the search does not come back to it. -/
theorem nextSetIndex_lowest (hbefore : ∀ j < 64 * (hint / 64), b.getBit j = false)
    (h : b.nextSetIndex hint = some i) : b.getBit i = true ∧ ∀ j < i, b.getBit j = false := by
  have hwrap : (List.range (64 * (hint / 64))).find? b.getBit = none := by
    rw [List.find?_range_eq_none]
    intro j hj
    rw [hbefore j hj]
    rfl
  rw [nextSetIndex_eq, Bitmap.searchOrder, List.find?_append, hwrap, Option.or_none,
    List.find?_range'_eq_some] at h
  obtain ⟨hset, _, hmin⟩ := h
  refine ⟨hset, fun j hj => ?_⟩
  by_cases hlow : j < 64 * (hint / 64)
  · exact hbefore j hlow
  · simpa using hmin j (Nat.le_of_not_lt hlow) hj

theorem nextSetIndex_none (hhint : hint ≤ 64 * b.wordsLength) (h : b.nextSetIndex hint = none) :
    ∀ i < 64 * b.wordsLength, b.getBit i = false := by
  intro i hi
  rw [nextSetIndex_eq, List.find?_eq_none] at h
  simpa using h i ((mem_searchOrder hhint).mpr hi)

end Search

section Counting
variable {l : List Nat} {n : Nat}

theorem length_le_of_bounded (hnd : l.Nodup) (h : ∀ i ∈ l, i < n) : l.length ≤ n := by
  have hle := (List.subperm_of_subset hnd fun i hi => List.mem_range.mpr (h i hi)).length_le
  rwa [List.length_range] at hle

theorem le_length_of_all (h : ∀ i < n, i ∈ l) : n ≤ l.length := by
  have hle := (List.subperm_of_subset List.nodup_range fun i hi => h i (List.mem_range.mp hi)).length_le
  rwa [List.length_range] at hle

theorem length_lt_of_missing {i : Nat} (hnd : l.Nodup) (h : ∀ j ∈ l, j < n) (hi : i < n) (hmiss : i ∉ l) :
    l.length < n := by
  have hle := @length_le_of_bounded (i :: l) n (List.nodup_cons.mpr ⟨hmiss, hnd⟩) fun j hj => by
    obtain rfl | hj := List.mem_cons.mp hj
    · exact hi
    · exact h j hj
  exact hle

end Counting

section Step
variable {qd wl : Nat} {x x' : Client}

theorem start_lives (kind : Kind) (session : Nat) (maxQd : BitVec 32) :
    Lives (depthOf maxQd) (wordsOf (depthOf maxQd)) (Client.start kind session maxQd) where
  queueDepth := rfl
  reapDepth := rfl
  words := by
    rw [wordsOf, depthOf, BitVec.ofNat_toNat, BitVec.setWidth_eq]
    rfl
  hint := Nat.zero_le _
  before i hi := by
    have hi' : i < 64 * (0 / 64) := hi
    omega
  free i := ⟨fun _ => List.not_mem_nil, fun _ => getBit_bitmapConstructor _ i⟩
  inside i hi := nomatch hi
  nodup := List.nodup_nil
  slot _ _ h := absurd rfl h
  used i hi := nomatch hi

/-- The calls that take no slot and free none leave the bitmap alone, and use no slot anew. -/
theorem Lives.congr (h : Lives qd wl x) {io : IoChannel} (hs : x.io.Same io)
    (hslot : ∀ i < qd, (io.opCtxs i).state ≠ .new →
      (io.opCtxs i).requestAndResponse.header.rsv 0 = i)
    (hused : ∀ i ∈ x.live, (io.opCtxs i).state ≠ .new) : Lives qd wl ⟨io, x.live⟩ where
  queueDepth := hs.queueDepth.trans h.queueDepth
  reapDepth := hs.reapDepth.trans h.reapDepth
  words := by
    rw [hs.bitmap]
    exact h.words
  hint := by
    rw [hs.hint]
    exact h.hint
  before i hi := by
    rw [hs.hint] at hi
    rw [hs.bitmap]
    exact h.before i hi
  free i := by
    rw [hs.bitmap]
    exact h.free i
  inside := h.inside
  nodup := h.nodup
  slot := hslot
  used := hused

/-- A message that comes in, whatever it is. -/
theorem Lives.recv (h : Lives qd wl x) {io : IoChannel} {msg : Msg} (hr : Recv x.io io msg) :
    Lives qd wl ⟨io, x.live⟩ := by
  apply h.congr hr.same
  · intro i hi hne
    rw [hr.opCtxs] at hne ⊢
    by_cases he : i = msg.header.rsv 0
    · rw [he, Function.update_self]
    · rw [Function.update_of_ne he] at hne ⊢
      exact h.slot i hi hne
  · intro i hi
    rw [hr.opCtxs]
    by_cases he : i = msg.header.rsv 0
    · rw [he, Function.update_self]
      exact OpState.noConfusion
    · rw [Function.update_of_ne he]
      exact h.used i hi

theorem Lives.poll (h : Lives qd wl x) {min max : Int} {batches : List (List Msg)} {opCpl : Nat → Nat}
    {r : Polled} (hr : ioPollChannel x.io opCpl min max batches = .ok (some r)) :
    Lives qd wl ⟨r.io, x.live⟩ := by
  apply @ioPollChannel_keeps x.io min max (fun io => Lives qd wl ⟨io, x.live⟩)
  · exact fun io msg io' hio hm => hio.recv (onRecvMsg_recv hm)
  · exact fun io k hio => hio.congr ⟨rfl, rfl, rfl, rfl⟩ hio.slot hio.used
  · exact h
  · exact hr

/-- A change of the state of operations that are in use. -/
theorem Lives.setStates (h : Lives qd wl x) {io : IoChannel} (hs : x.io.Same io)
    (hops : ∀ i, io.opCtxs i = x.io.opCtxs i ∨
      (x.io.opCtxs i).state ≠ .new ∧ (io.opCtxs i).state ≠ .new ∧
        (io.opCtxs i).requestAndResponse = (x.io.opCtxs i).requestAndResponse) :
    Lives qd wl ⟨io, x.live⟩ := by
  apply h.congr hs
  · intro i hi hne
    obtain he | ⟨hold, _, hm⟩ := hops i
    · rw [he] at hne ⊢
      exact h.slot i hi hne
    · rw [hm]
      exact h.slot i hi hold
  · intro i hi
    obtain he | ⟨_, hnew, _⟩ := hops i
    · rw [he]
      exact h.used i hi
    · exact hnew

theorem Lives.submit (h : Lives qd wl x) {ops : List Int} {rc : Int} {handed : List Nat}
    {io : IoChannel} (hr : ioSubmitToChannel x.io ops = .ok (rc, handed, io)) : Lives qd wl ⟨io, x.live⟩ := by
  unfold ioSubmitToChannel at hr
  split at hr
  · cases hr
  · obtain ⟨_, hr⟩ := Prod.mk.inj (Except.ok.inj hr)
    obtain ⟨_, rfl⟩ := Prod.mk.inj hr
    exact h
  · rename_i hcheck
    obtain ⟨_, hr⟩ := Prod.mk.inj (Except.ok.inj hr)
    obtain ⟨_, rfl⟩ := Prod.mk.inj hr
    apply h.setStates
    · rw [markInProgress_frame]
      exact ⟨rfl, rfl, rfl, rfl⟩
    · intro i
      rw [markInProgress_opCtxs]
      split
      · rename_i hi
        obtain ⟨opd, hopd, rfl⟩ := List.mem_map.mp hi
        obtain ⟨_, _, hst⟩ := ioSubmitCheck_true hcheck opd hopd
        refine Or.inr ⟨?_, OpState.noConfusion, rfl⟩
        rw [hst]
        exact OpState.noConfusion
      · exact Or.inl rfl

theorem Lives.claim (h : Lives qd wl x) (id : Nat) : Lives qd wl ⟨(opClaimResult x.io id).2.1, x.live⟩ := by
  rw [opClaimResult_eq]
  split
  · rename_i hst
    apply @Lives.setStates qd wl x h (x.io.setState id .ended) ⟨rfl, rfl, rfl, rfl⟩
    intro i
    by_cases hi : i = id
    · subst hi
      refine Or.inr ⟨?_, ?_, ?_⟩
      · rw [hst.2]
        exact OpState.noConfusion
      · simp [IoChannel.setState]
      · simp [IoChannel.setState]
    · exact Or.inl (setOp_other x.io _ hi)
  · exact h

/-- The slot that a call takes is the lowest free one. -/
theorem Lives.prepare (h : Lives qd wl x) (hwl : 64 * wl ≤ 2 ^ 32) {call : Call} {rc : Int}
    {io : IoChannel} (hr : ioCall x.io call = .ok (rc, io)) :
    Lives qd wl (if rc < 0 then ⟨io, x.live⟩ else ⟨io, rc.toNat :: x.live⟩) := by
  have hhint := h.hint
  rw [← h.words] at hwl hhint
  obtain ⟨hcall, _⟩ | ⟨id, m, hn, hlt, hrsv, hcall⟩ := ioCall_prepares hwl hhint call
  · rw [hcall] at hr
    obtain ⟨rfl, rfl⟩ := Prod.mk.inj (Except.ok.inj hr)
    exact h
  · rw [hcall] at hr
    split at hr
    · cases hr
    · rename_i hdepth
      obtain ⟨rfl, rfl⟩ := Prod.mk.inj (Except.ok.inj hr)
      obtain ⟨hset, hmin⟩ := nextSetIndex_lowest (by rw [h.words] at *; exact h.before) hn
      have hword := (nextSetIndex_spec hn).2 hhint
      rw [h.words] at hword
      rw [h.queueDepth] at hdepth
      rw [if_neg (by omega), Int.toNat_natCast]
      exact {
        queueDepth := h.queueDepth
        reapDepth := h.reapDepth
        words := h.words
        hint := hword
        before := fun i hi => by
          simp only [IoChannel.prepared] at hi ⊢
          rw [getBit_clrBit]
          by_cases he : i = id
          · simp [he]
          · rw [hmin i (by omega)]
            rfl
        free := fun i => by
          simp only [IoChannel.prepared]
          rw [getBit_clrBit, Bool.and_eq_true, decide_eq_true_eq, h.free, List.mem_cons, not_or]
          exact And.comm
        inside := fun i hi => by
          obtain rfl | hi := List.mem_cons.mp hi
          · exact ⟨Nat.lt_of_not_le hdepth, hword, hlt⟩
          · exact h.inside i hi
        nodup := List.nodup_cons.mpr ⟨(h.free id).mp hset, h.nodup⟩
        slot := fun i hi hne => by
          simp only [IoChannel.prepared] at hne ⊢
          by_cases he : i = id
          · rw [he, Function.update_self]
            exact hrsv
          · rw [Function.update_of_ne he] at hne ⊢
            exact h.slot i hi hne
        used := fun i hi => by
          simp only [IoChannel.prepared]
          by_cases he : i = id
          · rw [he, Function.update_self]
            exact OpState.noConfusion
          · rw [Function.update_of_ne he]
            exact h.used i ((List.mem_cons.mp hi).resolve_left he) }

theorem Lives.destroy (h : Lives qd wl x) {id : Nat} {rc : Int} {io : IoChannel}
    (hr : opDestory x.io id = .ok (rc, io)) :
    Lives qd wl ⟨io, if rc = 0 then x.live.erase id else x.live⟩ := by
  have hsame : ∀ code : Int, code ≠ 0 → (code, x.io) = (rc, io) →
      Lives qd wl ⟨io, if rc = 0 then x.live.erase id else x.live⟩ := by
    intro code hne he
    obtain ⟨rfl, rfl⟩ := Prod.mk.inj he
    rw [if_neg hne]
    exact h
  rw [opDestory_eq fun hlt => h.slot id (by rw [← h.queueDepth]; exact hlt)] at hr
  split at hr
  · split at hr
    · exact hsame _ (by decide) (Except.ok.inj hr)
    · split at hr
      · cases hr
      · rename_i hst hbit
        obtain ⟨rfl, rfl⟩ := Prod.mk.inj (Except.ok.inj hr)
        have hmem : id ∈ x.live := by
          by_contra hnot
          exact hbit ((h.free id).mpr hnot)
        have hother : ∀ i, i ≠ id → (x.io.freed id).opCtxs i = x.io.opCtxs i := fun i hi =>
          setOp_other x.io _ hi
        rw [if_pos rfl]
        exact {
          queueDepth := h.queueDepth
          reapDepth := h.reapDepth
          words := h.words
          hint := by
            have hhint := h.hint
            simp only [IoChannel.freed]
            split <;> omega
          before := fun i hi => by
            have hi' : i < 64 * (x.io.bitmapHint / 64) ∧ i ≠ id := by
              simp only [IoChannel.freed] at hi
              split at hi <;> omega
            simp only [IoChannel.freed]
            rw [getBit_setBit, h.before i hi'.1, decide_eq_false hi'.2]
            rfl
          free := fun i => by
            simp only [IoChannel.freed]
            rw [getBit_setBit, Bool.or_eq_true, decide_eq_true_eq, h.free, h.nodup.mem_erase_iff]
            by_cases he : i = id
            · simp [he]
            · simp [he]
          inside := fun i hi => h.inside i (List.mem_of_mem_erase hi)
          nodup := h.nodup.erase id
          slot := fun i hi hne => by
            by_cases he : i = id
            · subst he
              simp [IoChannel.freed, IoChannel.setState] at hne
            · rw [hother i he] at hne ⊢
              exact h.slot i hi hne
          used := fun i hi => by
            obtain ⟨he, hi⟩ := h.nodup.mem_erase_iff.mp hi
            dsimp only
            rw [hother i he]
            exact h.used i hi }
    · cases hr
  · exact hsame _ (by decide) (Except.ok.inj hr)

theorem Lives.move (hwl : 64 * wl ≤ 2 ^ 32) (h : Lives qd wl x) {a : Move} (hs : Client.move a x = some x') :
    Lives qd wl x' := by
  cases a with
  | prepare call =>
    simp only [Client.move] at hs
    split at hs
    · cases hs
    · rename_i rc io hr
      have hl := h.prepare hwl hr
      split at hs <;> rename_i hneg
      · obtain rfl := Option.some.inj hs
        rwa [if_pos hneg] at hl
      · obtain rfl := Option.some.inj hs
        rwa [if_neg hneg] at hl
  | submit ops =>
    simp only [Client.move] at hs
    split at hs
    · cases hs
    · rename_i hr
      obtain rfl := Option.some.inj hs
      exact h.submit hr
  | recv msg =>
    simp only [Client.move] at hs
    split at hs
    · cases hs
    · rename_i hr
      obtain rfl := Option.some.inj hs
      exact h.recv (onRecvMsg_recv hr)
  | poll min max batches =>
    simp only [Client.move] at hs
    split at hs
    · rename_i hr
      obtain rfl := Option.some.inj hs
      exact h.poll hr
    · cases hs
  | claim id =>
    simp only [Client.move] at hs
    split at hs <;> obtain rfl := Option.some.inj hs
    · exact h
    · exact h.claim _
  | destroy id =>
    simp only [Client.move] at hs
    split at hs
    · obtain rfl := Option.some.inj hs
      exact h
    · split at hs
      · cases hs
      · rename_i hr
        obtain rfl := Option.some.inj hs
        exact h.destroy hr

theorem run_lives {kind : Kind} {session : Nat} {maxQd : BitVec 32}
    (hrun : Run Client.move Client.any (Client.start kind session maxQd) x) :
    Lives (depthOf maxQd) (wordsOf (depthOf maxQd)) x := by
  have hwl : 64 * wordsOf (depthOf maxQd) ≤ 2 ^ 32 := by
    rw [wordsOf_eq]
    omega
  exact hrun.invariant (start_lives kind session maxQd) fun _ _ _ h _ hs => h.move hwl hs

end Step
end ZCell.Liboss
