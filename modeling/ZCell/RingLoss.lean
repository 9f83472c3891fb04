import Mathlib.Data.List.Nodup
import ZCell.PairingRun

/-! The two rings of a local channel: they keep one message for each operation in progress as long as
nobody enqueues into a full one, which a channel deeper than the ring can do. -/
namespace ZCell.Liboss
open Bytes Messager Server Runs

/-- Each operation in progress has one message, in a ring or at the server. -/
def OneMessage (w : World) : Prop :=
  ∀ c ch, w.chans[c]? = some ch → ∀ id < ch.io.queueDepth, (ch.io.opCtxs id).state = .inProgress →
    (w.flight ch.link).countP (fun x => x.chan = c ∧ x.op = ch.op id) = 1

section Kept
variable {h : Heap (List Byte)} {w : World} {ch : Chan} {a : Act}

theorem PairInv.oneMessage (hi : PairInv w ch) : OneMessage w := by
  intro c ch' hc id hlt hst
  rw [hi.chans] at hc
  cases c with
  | succ c => cases hc
  | zero =>
    obtain rfl := Option.some.inj hc
    have hnew : (ch.io.opCtxs id).state ≠ .new := by
      rw [hst]
      exact fun h => OpState.noConfusion h
    have hmem : id ∈ (w.flight ch.link).map Sent.slot := by
      have hout := (hi.paired.out id).mpr ⟨hlt, Or.inl hst⟩
      rwa [List.map_map] at hout
    -- its slot has no other operation in it
    have hiff : ∀ x ∈ w.flight ch.link, (x.chan = 0 ∧ x.op = ch.op id) ↔ x.slot = id := by
      intro x hx
      obtain ⟨hout, hxnew, hop⟩ := hi.slot_of_mem hx
      constructor
      · intro hown
        exact hi.ok.distinct _ hout.1 _ hlt hxnew hnew (hop.symm.trans hown.2)
      · intro hslot
        exact ⟨(hi.paired.home_of_mem hx).chan, by rw [hop, hslot]⟩
    have hcount : (w.flight ch.link).countP (fun x => decide (x.chan = 0 ∧ x.op = ch.op id)) =
        ((w.flight ch.link).map Sent.slot).count id := by
      rw [List.count, List.countP_map]
      refine List.countP_congr fun x hx => ?_
      simp only [decide_eq_true_eq, Function.comp_apply, beq_iff_eq]
      exact hiff x hx
    rw [hcount]
    exact List.count_eq_one_of_mem hi.slots_nodup hmem

/-- In every run in which no array names an id twice and no message meets a full ring. -/
theorem run_oneMessage (h : Heap (List Byte)) (l : Nat) (qd : BitVec 32) (w : World)
    (hrun : Run (step h) (Room h) (World.start .ipc [(l, qd)]) w) : OneMessage w := by
  obtain ⟨ch, ho⟩ := run_opened hrun
  exact ho.inv.oneMessage

/-- Three operations: one is with the store, one is answered, and one still in the ring. -/
theorem run_oneMessage_three : ∃ w, ((w.chans.map fun ch => (List.range 3).all fun id =>
    (ch.io.opCtxs id).state = .inProgress) = [true]) ∧ OneMessage w := by
  have hrun : (runActs (step byteHeap) (Room byteHeap) [.prepare 0 .stat, .prepare 0 (.create 7),
      .prepare 0 (.delete 9), .submit 0 [2, 0], .send, .send, .send, .take 1 2, .handle 1 0, .handle 1 0,
      .submit 0 [1], .send, .complete 1 1 0, .send] (World.start .ipc [(1, 64)])).map (fun w =>
        decide ((w.chans.map fun ch => (List.range 3).all fun id =>
          (ch.io.opCtxs id).state = .inProgress) = [true])) = some true := by
    decide +kernel
  obtain ⟨w, hw, hend⟩ := Option.map_eq_some_iff.mp hrun
  exact ⟨w, of_decide_eq_true hend, run_oneMessage byteHeap 1 64 w (run_of_runActs .start hw)⟩

/-- A step that submits no id twice. -/
def DistinctIds (w : World) : Act → Prop
  | .submit c ops => Distinct w c ops
  | _ => True

/-- The rings of a channel that is no deeper than they are never fill. -/
theorem room_of_depth {w' : World} (hi : PairInv w ch) (hdepth : ch.io.queueDepth ≤ ringSize)
    (hd : DistinctIds w a) (hs : step h a w = some w') : Room h w a := by
  have hlen := hi.paired.length_le
  simp only [World.flight, List.length_map, List.length_append] at hlen
  cases a with
  | submit c ops => exact hd
  | send =>
    simp only [Room, SendRoom]
    split
    · rename_i c id rest all hpc
      obtain ⟨rfl, hnd, hsuf, hall⟩ := atPc_sending hi hpc
      intro ch' hch'
      rw [hi.chans] at hch'
      obtain rfl := Option.some.inj hch'
      intro _
      have hsent := (hi.send hpc).paired.length_le
      simp only [World.flight, List.length_map, List.length_append, Function.update_self,
        List.length_singleton] at hsent
      omega
    · trivial
  | handle l rc =>
    intro x hx
    have hfl : x ∈ w.batch l := List.mem_of_mem_head? hx
    have hl := hi.served.of_mem (mem_flight.mpr (Or.inr (Or.inl hfl)))
    subst hl
    have hpos := List.length_pos_of_mem hfl
    exact Or.inr fun _ => by omega
  | complete l i code =>
    obtain ⟨x, hx, -⟩ := Option.map_eq_some_iff.mp (step_act hs).2
    have hfl : x ∈ w.pending l := List.mem_of_getElem? hx
    have hl := hi.served.of_mem (mem_flight.mpr (Or.inr (Or.inr (Or.inl hfl))))
    subst hl
    have hpos := List.length_pos_of_mem hfl
    exact fun _ => by omega
  | _ => trivial

/-- So a channel of at most the ring's size loses nothing. -/
theorem run_oneMessage_shallow (l : Nat) (qd : BitVec 32) (hqd : depthOf qd ≤ ringSize)
    (hrun : Run (step h) DistinctIds (World.start .ipc [(l, qd)]) w) : OneMessage w := by
  have hopened : ∃ ch, Opened .ipc l (depthOf qd) w ch := by
    induction hrun with
    | start => exact ⟨_, Opened.start .ipc l qd⟩
    | next a _ hd hs ih =>
      obtain ⟨ch, ho⟩ := ih
      obtain ⟨ch', -, ho'⟩ := ho.step (room_of_depth ho.inv (ho.depth ▸ hqd) hd hs) hs
      exact ⟨ch', ho'⟩
  obtain ⟨ch, ho⟩ := hopened
  exact ho.inv.oneMessage

end Kept

section Lost
variable {h : Heap (List Byte)} {w : World} {ch : Chan} {l k depth : Nat}

/-- The first free slot, when the bitmap has been cleared up to the hint. -/
theorem nextSetIndex_first {b : Bitmap} (hlt : k < 64 * b.wordsLength)
    (hbit : ∀ i, b.getBit i = decide (k ≤ i)) : b.nextSetIndex k = some k := by
  have hfind : (List.range' (64 * (k / 64)) (64 * b.wordsLength - 64 * (k / 64))).find? b.getBit =
      some k := by
    rw [List.find?_range'_eq_some, hbit, List.mem_range'_1]
    refine ⟨by simp, by omega, fun j _ hj => ?_⟩
    have hno : ¬ k ≤ j := by omega
    simp [hbit j, hno]
  rw [nextSetIndex_eq, Bitmap.searchOrder, List.find?_append, hfind]
  rfl

/-- The slots below `k` are prepared and nothing has been submitted. -/
structure Filled (l depth k : Nat) (w : World) (ch : Chan) : Prop where
  chans : w.chans = [ch]
  kind : w.kind = .ipc
  link : ch.link = l
  pc : w.pc = .idle
  fault : w.fault = none
  nextOp : w.nextOp = k
  empty : w.flight l = []
  queueDepth : ch.io.queueDepth = depth
  words : depth ≤ 64 * ch.io.opCtxsBitmap.wordsLength
  hint : ch.io.bitmapHint = k
  bits : ∀ i, ch.io.opCtxsBitmap.getBit i = decide (k ≤ i)
  waiting : ∀ i < k, (ch.io.opCtxs i).state = .waitingSubmit
  op : ∀ i < k, ch.op i = i

theorem Filled.prepare (hf : Filled l depth k w ch) (hk : k < depth) (hring : k ≤ ringSize) :
    ∃ w' ch', step h (.prepare 0 .stat) w = some w' ∧ Filled l depth (k + 1) w' ch' := by
  have hring : k ≤ 512 := hring
  have hnext : ch.io.opCtxsBitmap.nextSetIndex ch.io.bitmapHint = some k := by
    rw [hf.hint]
    exact nextSetIndex_first (hk.trans_le hf.words) hf.bits
  have halloc : allocOp ch.io = some (k,
      { ch.io with bitmapHint := k + 1, opCtxsBitmap := ch.io.opCtxsBitmap.clrBit k }) := by
    have hcode := nextSet_of_index hnext
    rw [Nat.mod_eq_of_lt (by omega), if_pos (by omega)] at hcode
    have hneg : ¬ (k : Int) < 0 := by omega
    simp only [allocOp, Bitmap.findNextSetAndClr, hcode, if_neg hneg, Int.toNat_natCast]
  have hlt : ¬ ch.io.queueDepth ≤ k := by
    rw [hf.queueDepth]
    omega
  obtain ⟨io, m, hcall, hhint, hbitmap, hdepth, hops⟩ : ∃ io m, ioCall ch.io .stat = .ok ((k : Int), io) ∧
      io.bitmapHint = k + 1 ∧ io.opCtxsBitmap = ch.io.opCtxsBitmap.clrBit k ∧
      io.queueDepth = depth ∧ io.opCtxs = Function.update ch.io.opCtxs k ⟨m, .waitingSubmit⟩ := by
    simp only [ioCall, ioStat, ioPrepareOpCommon, halloc, if_neg hlt]
    exact ⟨_, _, rfl, rfl, rfl, hf.queueDepth, rfl⟩
  have hact : World.call w 0 (fun ch => w.prepare 0 ch .stat) = some (w.prepare 0 ch .stat) := by
    rw [World.call, if_pos hf.pc, hf.chans]
    rfl
  have hneg : ¬ (k : Int) < 0 := by omega
  refine ⟨w.prepare 0 ch .stat, { ch with io := io, op := Function.update ch.op k w.nextOp }, ?_, ?_⟩
  · rw [step, hf.fault]
    exact hact
  · simp only [World.prepare, hcall, if_neg hneg, setChan_one hf.chans, Int.toNat_natCast]
    refine ⟨rfl, hf.kind, hf.link, hf.pc, hf.fault, ?_, hf.empty, hdepth, ?_, hhint, ?_, ?_, ?_⟩
    · rw [hf.nextOp]
    · rw [hbitmap]
      exact hf.words
    · intro i
      rw [hbitmap, getBit_clrBit, hf.bits, ← Bool.decide_and, decide_eq_decide]
      omega
    · intro i hi
      dsimp only
      rw [hops]
      by_cases he : i = k
      · rw [he, Function.update_self]
      · rw [Function.update_of_ne he]
        exact hf.waiting i (by omega)
    · intro i hi
      dsimp only
      by_cases he : i = k
      · rw [he, Function.update_self, hf.nextOp]
      · rw [Function.update_of_ne he]
        exact hf.op i (by omega)

theorem Filled.start (l : Nat) (qd : BitVec 32) (hqd : depthOf qd + 63 < 2 ^ 32) :
    Filled l (depthOf qd) 0 (World.start .ipc [(l, qd)]) ⟨getIoChannel .ipc 0 qd, l, fun _ => 0⟩ where
  chans := rfl
  kind := rfl
  link := rfl
  pc := rfl
  fault := rfl
  nextOp := rfl
  empty := rfl
  queueDepth := rfl
  words := by
    have hadd : (depthOf qd + 63) % 2 ^ 32 = depthOf qd + 63 := Nat.mod_eq_of_lt hqd
    have hwords : (getIoChannel .ipc 0 qd).opCtxsBitmap.wordsLength = (depthOf qd + 63) / 64 := by
      simp only [getIoChannel, bitmapConstructor, BitVec.toNat_add]
      exact congrArg (· / 64) hadd
    rw [hwords]
    omega
  hint := rfl
  bits i := by
    rw [decide_eq_true (Nat.zero_le i)]
    exact getBit_bitmapConstructor _ i
  waiting i hi := absurd hi (Nat.not_lt_zero i)
  op i hi := absurd hi (Nat.not_lt_zero i)

/-- `k` of the prepared operations have been handed to the messager. -/
structure Sending (l depth n k : Nat) (w : World) (ch : Chan) : Prop where
  chans : w.chans = [ch]
  kind : w.kind = .ipc
  link : ch.link = l
  pc : w.pc = .sending 0 (List.range' k (n - k)) (List.range n)
  fault : w.fault = none
  ring : w.c2s l = (List.range (min k ringSize)).map ch.sent
  others : w.batch l = [] ∧ w.pending l = [] ∧ w.s2c l = []
  queueDepth : ch.io.queueDepth = depth
  op : ∀ i < n, ch.op i = i

theorem Sending.send {n : Nat} (hf : Sending l depth n k w ch) (hk : k < n) :
    ∃ w', step h .send w = some w' ∧ Sending l depth n (k + 1) w' ch := by
  have hrange : List.range' k (n - k) = k :: List.range' (k + 1) (n - (k + 1)) := by
    rw [← List.range'_succ]
    congr 1
    omega
  have hpc := hf.pc
  rw [hrange] at hpc
  refine ⟨_, by simp only [step, hf.fault, World.act, hpc, hf.chans]; rfl, ?_⟩
  refine ⟨hf.chans, hf.kind, hf.link, rfl, hf.fault, ?_, hf.others, hf.queueDepth, hf.op⟩
  dsimp only [World.send]
  rw [hf.link, Function.update_self, hf.kind, hf.ring, enqueue, List.length_map, List.length_range]
  by_cases hfull : ringSize ≤ k
  · rw [Nat.min_eq_right hfull, if_pos ⟨rfl, Nat.le_refl _⟩, Nat.min_eq_right (by omega)]
  · have hlt : k + 1 ≤ ringSize := by omega
    rw [Nat.min_eq_left (by omega), if_neg (fun hc => hfull hc.2), Nat.min_eq_left hlt,
      List.range_succ, List.map_append]
    rfl

theorem Filled.submit {n : Nat} (hf : Filled l depth n w ch) (hn : n ≤ depth) :
    ∃ w', step h (.submit 0 (List.range n)) w = some w' ∧ Sending l depth n 0 w' ch := by
  have hcheck : submitCheck ch.io (List.range n) = .ok true := submitCheck_ok fun id hid => by
    have hlt := List.mem_range.mp hid
    exact ⟨by rw [hf.queueDepth]; omega, hf.waiting id hlt⟩
  have hact : World.call w 0 (fun ch => w.submit 0 ch (List.range n)) =
      some (w.submit 0 ch (List.range n)) := by
    rw [World.call, if_pos hf.pc, hf.chans]
    rfl
  have hempty := hf.empty
  simp only [World.flight, List.append_eq_nil_iff] at hempty
  refine ⟨w.submit 0 ch (List.range n), ?_, ?_⟩
  · rw [step, hf.fault]
    exact hact
  · rw [World.submit, hcheck]
    refine ⟨hf.chans, hf.kind, hf.link, ?_, hf.fault, ?_, ⟨hempty.1.1.2, hempty.1.2, hempty.2⟩,
      hf.queueDepth, hf.op⟩
    · rw [List.range_eq_range']
      rfl
    · exact hempty.1.1.1

/-- The operation after the last one that the ring took is in progress without a message. -/
theorem Sending.marked {n : Nat} (hf : Sending l depth n n w ch) (hn : ringSize < n) (hdepth : n ≤ depth) :
    ∃ w', step h .send w = some w' ∧ ¬ OneMessage w' := by
  have hpc := hf.pc
  rw [Nat.sub_self, List.range'_zero] at hpc
  refine ⟨{ w with chans := [{ ch with io := markInProgress ch.io (List.range n) }], pc := .idle }, ?_, ?_⟩
  · have hset := setChan_one hf.chans { ch with io := markInProgress ch.io (List.range n) }
    simp only [step, hf.fault, World.act, hpc, hf.chans, List.getElem?_cons_zero, Option.map_some, hset]
    rfl
  · intro hone
    have hmem : ringSize ∈ List.range n := List.mem_range.mpr hn
    have hone := hone 0 _ rfl ringSize (by
      dsimp only
      rw [markInProgress_frame]
      have hd := hf.queueDepth
      dsimp only
      omega) (by
      dsimp only
      rw [markInProgress_opCtxs, if_pos hmem])
    obtain ⟨hb, hp, hs⟩ := hf.others
    have hmin : min n ringSize = ringSize := Nat.min_eq_right (by omega)
    simp only [World.flight, hf.link, hf.ring, hb, hp, hs, List.append_nil, hmin] at hone
    have hzero : ((List.range ringSize).map ch.sent).countP
        (fun x => x.chan = 0 ∧ x.op = ch.op ringSize) = 0 := by
      rw [List.countP_eq_zero]
      intro x hx
      obtain ⟨i, hi, rfl⟩ := List.mem_map.mp hx
      have hi' := List.mem_range.mp hi
      have hop : (ch.sent i).op = i := hf.op i (by omega)
      rw [hop, hf.op ringSize hn]
      simp [Nat.ne_of_lt hi']
    omega

end Lost

/-- A deeper channel loses a message: the client submits one operation more than the ring holds
before the server polls. -/
theorem ring_overflows (h : Heap (List Byte)) (l : Nat) (qd : BitVec 32) (hqd : ringSize < depthOf qd)
    (hwrap : depthOf qd + 63 < 2 ^ 32) :
    ∃ w, Run (step h) DistinctIds (World.start .ipc [(l, qd)]) w ∧ ¬ OneMessage w := by
  have hfill : ∀ k ≤ ringSize + 1, ∃ w ch, Run (step h) DistinctIds (World.start .ipc [(l, qd)]) w ∧
      Filled l (depthOf qd) k w ch := by
    intro k
    induction k with
    | zero => exact fun _ => ⟨_, _, .start, Filled.start l qd hwrap⟩
    | succ k ih =>
      intro hk
      obtain ⟨w, ch, hrun, hf⟩ := ih (by omega)
      obtain ⟨w', ch', hs, hf'⟩ := hf.prepare (h := h) (by omega) (by omega)
      exact ⟨w', ch', .next (.prepare 0 .stat) hrun trivial hs, hf'⟩
  obtain ⟨w, ch, hrun, hf⟩ := hfill (ringSize + 1) (Nat.le_refl _)
  obtain ⟨w, hs, hf⟩ := hf.submit (h := h) hqd
  have hrun : Run (step h) DistinctIds (World.start .ipc [(l, qd)]) w :=
    .next (.submit 0 _) hrun (fun _ _ _ => List.nodup_range) hs
  have hsend : ∀ k ≤ ringSize + 1, ∃ w, Run (step h) DistinctIds (World.start .ipc [(l, qd)]) w ∧
      Sending l (depthOf qd) (ringSize + 1) k w ch := by
    intro k
    induction k with
    | zero => exact fun _ => ⟨w, hrun, hf⟩
    | succ k ih =>
      intro hk
      obtain ⟨w, hrun, hf⟩ := ih (by omega)
      obtain ⟨w', hs, hf'⟩ := hf.send (h := h) hk
      exact ⟨w', .next .send hrun trivial hs, hf'⟩
  obtain ⟨w, hrun, hf⟩ := hsend (ringSize + 1) (Nat.le_refl _)
  obtain ⟨w', hs, hno⟩ := hf.marked (h := h) (Nat.lt_succ_self _) hqd
  exact ⟨w', .next .send hrun trivial hs, hno⟩

/-- A channel of the default depth. -/
theorem default_channel_loses : ∃ w, Run (step byteHeap) DistinctIds (World.start .ipc [(1, 0)]) w ∧
    ¬ OneMessage w :=
  ring_overflows byteHeap 1 0 (by decide) (by decide)

end ZCell.Liboss
