import ZCell.Matching
import ZCell.PollReport
import ZCell.SlotIds

/-! A local channel that is no deeper than its rings, under a client that submits one operation at a
time and takes all that a poll gives it: what each of these calls does to the channel. -/
namespace ZCell.Liboss
open Bytes Messager Server Runs

/-- Calls of the client, one after the other. -/
def calls (h : Heap (List Byte)) (as : List Act) (w : World) : Option World :=
  as.foldlM (fun w a => step h a w) w

/-- `io_poll_channel` for no more than is there: the ids that it reports. -/
def World.polls (h : Heap (List Byte)) (w : World) (max j : Nat) : Option (World × List Nat) :=
  (step h (.poll 0 0 max) w).bind fun w =>
  (if w.pc = .reaping 0 max then some w else step h (.wait j) w).bind fun w =>
    if w.fault.isSome then some (w, [])
    else (w.chans[0]?).bind fun ch => (step h .reap w).map fun w => (w, (reap ch.io max).1)

/-- The ids whose operations have not been destroyed. -/
def Chan.outstanding (ch : Chan) : List Nat :=
  (List.range ch.io.queueDepth).filter fun id => (ch.io.opCtxs id).state ≠ .new

/-- The channel, with its log, when no assertion has failed. -/
structure Healthy (l depth : Nat) (w : World) (ch : Chan) : Prop where
  opened : Opened .ipc l depth w ch
  book : Book w ch
  fault : w.fault = none
  le_ring : depth ≤ ringSize
  words_full : 64 ∣ depth

/-- Operation `n` in progress in slot `id`. -/
def Chan.submitted (ch : Chan) (id : Nat) (m : Msg) (n : Nat) : Chan :=
  { ch with
    io := markInProgress (ch.io.prepared id m) [id]
    op := Function.update ch.op id n }

/-- Its request is in the ring. -/
def World.submitted (w : World) (ch : Chan) (id : Nat) (m : Msg) : World :=
  { w with
    chans := [ch.submitted id m w.nextOp]
    nextOp := w.nextOp + 1
    c2s := Function.update w.c2s ch.link (w.c2s ch.link ++ [⟨m, 0, w.nextOp⟩]) }

section Steps
variable {h : Heap (List Byte)} {l depth : Nat} {w w' : World} {ch ch' : Chan} {a : Act}

theorem step_of_act (hf : w.fault = none) (ha : w.act h a = some w') : step h a w = some w' := by
  rw [step, hf]
  exact ha

theorem calls_two {b : Act} {w1 : World} (ha : step h a w = some w1) (hb : step h b w1 = some w') :
    calls h [a, b] w = some w' := by
  simp [calls, ha, hb]

theorem Healthy.chans (hs : Healthy l depth w ch) : w.chans = [ch] := hs.opened.inv.chans

theorem Healthy.unique (hs : Healthy l depth w ch) (hch : w.chans = [ch']) : ch = ch' :=
  List.singleton_inj.mp (hs.chans.symm.trans hch)

theorem Healthy.full (hs : Healthy l depth w ch) : 64 * ch.io.opCtxsBitmap.wordsLength = depth := by
  have h63 : (63 : BitVec 32).toNat = 63 := rfl
  have hring : depth ≤ 512 := hs.le_ring
  have hdvd := hs.words_full
  rw [hs.opened.words]
  simp only [bitmapConstructor, BitVec.toNat_add, BitVec.toNat_ofNat, h63]
  omega

/-- A step of a client that uses the channel properly, or of the server. -/
theorem Healthy.advance (hs : Healthy l depth w ch) (hp : Proper w a) (hstep : step h a w = some w') :
    ∃ ch', Trans w ch w' ch' ∧ Healthy l depth w' ch' := by
  have hids : DistinctIds w a := by
    cases a with
    | submit c ops => exact fun _ _ _ => hp.1
    | _ => trivial
  have hroom := room_of_depth hs.opened.inv (hs.opened.depth ▸ hs.le_ring) hids hstep
  obtain ⟨ch', ht, ho⟩ := hs.opened.step hroom hstep
  have hfull : 64 * ch.io.opCtxsBitmap.wordsLength ≤ ch.io.queueDepth :=
    (hs.full.trans hs.opened.depth.symm).le
  exact ⟨ch', ht, ho, hs.book.trans hs.opened.inv ht, step_noFault hs.opened.inv hfull hp hstep,
    hs.le_ring, hs.words_full⟩

/-- The step leads to a world that shows its channel. -/
theorem Healthy.next (hs : Healthy l depth w ch) (hp : Proper w a) (ha : w.act h a = some w')
    (hch : w'.chans = [ch']) : step h a w = some w' ∧ Healthy l depth w' ch' := by
  have hstep := step_of_act hs.fault ha
  obtain ⟨ch1, -, hs'⟩ := hs.advance hp hstep
  obtain rfl := hs'.unique hch
  exact ⟨hstep, hs'⟩

theorem call_one (hs : Healthy l depth w ch) (hpc : w.pc = .idle) (f : Chan → World) :
    w.call 0 f = some (f ch) := by
  rw [World.call, if_pos hpc, hs.chans]
  rfl

/-- One operation is prepared and submitted. -/
theorem Healthy.submits (hs : Healthy l depth w ch) (hpc : w.pc = .idle) {call : Call} {id : Nat} {m : Msg}
    (hlt : id < depth) (hcall : ioCall ch.io call = .ok ((id : Int), ch.io.prepared id m)) :
    ∃ w1, calls h [.prepare 0 call, .submit 0 [id]] w = some w1 ∧ w1.pc ≠ .idle ∧
      calls h [.send, .send] w1 = some (w.submitted ch id m) ∧
      Healthy l depth (w.submitted ch id m) (ch.submitted id m w.nextOp) := by
  have hneg : ¬ (id : Int) < 0 := by omega
  have hself : ((ch.io.prepared id m).opCtxs id) = ⟨m, .waitingSubmit⟩ := Function.update_self ..
  have hlt' : id < (ch.io.prepared id m).queueDepth := hlt.trans_eq hs.opened.depth.symm
  -- the operation gets its slot
  let ch1 : Chan := { ch with io := ch.io.prepared id m, op := Function.update ch.op id w.nextOp }
  let w1 : World := { w with chans := [ch1], nextOp := w.nextOp + 1 }
  obtain ⟨hstep1, hs1⟩ : step h (.prepare 0 call) w = some w1 ∧ Healthy l depth w1 ch1 := by
    refine hs.next trivial ?_ rfl
    simp only [World.act, call_one hs hpc, World.prepare, hcall, if_neg hneg, setChan_one hs.chans,
      Int.toNat_natCast]
    rfl
  -- its submission passes the checks
  let w2 : World := { w1 with pc := .sending 0 [id] [id] }
  have hwait : ∀ i ∈ [id], i < ch1.io.queueDepth ∧ (ch1.io.opCtxs i).state = .waitingSubmit := by
    intro i hi
    rw [List.mem_singleton.mp hi, hself]
    exact ⟨hlt', rfl⟩
  obtain ⟨hstep2, hs2⟩ : step h (.submit 0 [id]) w1 = some w2 ∧ Healthy l depth w2 ch1 := by
    refine hs1.next ⟨List.nodup_singleton id, fun c hc => ?_⟩ ?_ hs1.chans
    · obtain rfl := Option.some.inj hc
      exact hwait
    · simp only [World.act, call_one hs1 hpc, World.submit, submitCheck_ok hwait]
      rfl
  -- the ring takes it
  let w3 : World := { w2 with
    c2s := Function.update w.c2s ch.link (w.c2s ch.link ++ [⟨m, 0, w.nextOp⟩])
    pc := .sending 0 [] [id] }
  obtain ⟨hstep3, hs3⟩ : step h .send w2 = some w3 ∧ Healthy l depth w3 ch1 := by
    have hact : w2.act h .send = some (w2.send 0 ch1 id [] [id]) := rfl
    have hroom := room_of_depth hs2.opened.inv (hs2.opened.depth ▸ hs2.le_ring)
      (show DistinctIds w2 .send from trivial) (step_of_act hs2.fault hact)
    have hroom : HasRoom w2.kind (w2.c2s ch1.link) := hroom ch1 rfl
    refine hs2.next trivial ?_ hs1.chans
    have hop : ch1.op id = w.nextOp := Function.update_self ..
    rw [hact, World.send, enqueue_room hroom, hself, hop]
  obtain ⟨hstep4, hs4⟩ : step h .send w3 = some (w.submitted ch id m) ∧
      Healthy l depth (w.submitted ch id m) (ch.submitted id m w.nextOp) := by
    refine hs3.next trivial ?_ rfl
    have hact : w3.act h .send =
        some { w3.setChan 0 { ch1 with io := markInProgress ch1.io [id] } with pc := .idle } := rfl
    rw [hact, setChan_one hs3.chans]
    simp only [World.submitted, Chan.submitted, ← hpc, w3, w2, w1, ch1]
  refine ⟨w2, calls_two hstep1 hstep2, ?_, calls_two hstep3 hstep4, hs4⟩
  intro he
  cases he

/-- What a poll has received: the operations of the messages `xs` are completed, and reported. -/
structure Reported (ch ch' : Chan) (xs : List Sent) : Prop where
  op : ch'.op = ch.op
  none_left : ch'.io.cplNr = 0
  nodup : (xs.map Sent.slot).Nodup
  done : ∀ id ∈ xs.map Sent.slot, id < ch.io.queueDepth ∧ (ch.io.opCtxs id).state = .inProgress ∧
    (ch'.io.opCtxs id).state = .completed
  other : ∀ id, id ∉ xs.map Sent.slot → ch'.io.opCtxs id = ch.io.opCtxs id

/-- The messages in the ring are responses to operations in progress. -/
theorem Healthy.honest (hs : Healthy l depth w ch) (hpc : ∀ id, ¬ w.pc.Submitted id) :
    Honest ch.io (ch.batch .ipc (w.s2c ch.link)) := by
  have hi := hs.opened.inv
  have hslots : (ch.batch .ipc (w.s2c ch.link)).map slotOf = (w.s2c ch.link).map Sent.slot := by
    simp [Chan.batch, slotOf, Sent.slot]
  refine ⟨fun msg hmsg => ?_, ?_⟩
  · obtain ⟨x, hx, rfl⟩ := List.mem_map.mp hmsg
    have hfl : x ∈ w.flight ch.link := List.mem_append_right _ hx
    obtain ⟨⟨hlt, hst⟩, -, -⟩ := hi.slot_of_mem hfl
    have hident := (hi.paired.home_of_mem hfl).ident
    refine ⟨hlt, hst.resolve_right (hpc _), ?_, ?_, ?_⟩
    · exact (congrArg Prod.fst hident).symm
    · exact (MsgHdr.type_of_ident hident).symm
    · exact delivered_metaBuffer .ipc _ (hi.served.replied x hx).2
  · rw [hslots]
    have hnd := hi.slots_nodup
    rw [World.flight, List.map_append] at hnd
    exact (List.nodup_append.mp hnd).2.1

theorem reap_all {io : IoChannel} {ids : List Nat} {max : Nat} (hp : pending io = ids) (hmax : io.cplNr ≤ max)
    (hreap : io.cplNr ≤ io.reapDepth)
    (hslot : ∀ id ∈ ids, (io.opCtxs id).requestAndResponse.header.rsv 0 = id) :
    reap io max = (ids, { io with cplNr := 0 }) := by
  have hmin : min io.cplNr (min max io.reapDepth) = io.cplNr := by omega
  rw [reap, hmin, Nat.sub_self, ← hp, pending]
  congr 1
  apply List.map_congr_left
  intro i hi
  exact hslot _ (hp ▸ List.mem_map_of_mem hi)

/-- A poll takes what is in the ring. -/
theorem Healthy.polls (hs : Healthy l depth w ch) (hpc : w.pc = .idle) (hnr : ch.io.cplNr = 0) {max : Nat}
    (hmax : depth ≤ max) : ∃ ch' log,
    (∀ j, w.polls h max j = if j = (w.s2c ch.link).length then
      some ({ w with
        chans := [ch']
        s2c := Function.update w.s2c ch.link []
        log := w.log ++ log }, (w.s2c ch.link).map Sent.slot) else none) ∧
    Healthy l depth { w with
      chans := [ch']
      s2c := Function.update w.s2c ch.link []
      log := w.log ++ log } ch' ∧ Reported ch ch' (w.s2c ch.link) := by
  have hkind := hs.opened.kind
  have hhonest := hs.honest (by rw [hpc]; exact fun _ => Pc.idle_submitted)
  -- the call begins to wait
  let w1 : World := { w with pc := .polling 0 0 max 0 false }
  obtain ⟨hstep1, hs1⟩ : step h (.poll 0 0 max) w = some w1 ∧ Healthy l depth w1 ch := by
    refine hs.next trivial ?_ hs.chans
    simp only [World.act, call_one hs hpc, World.poll, if_neg (Nat.not_lt_zero max), if_pos hnr]
    rfl
  -- it receives what is in the ring
  have hlen : ch.io.cplNr + (ch.batch .ipc (w.s2c ch.link)).length ≤ ch.io.reapDepth := by
    have hslots := hs.opened.inv.ok.slots
    have hle := hhonest.length_le
    rw [hslots.reapDepth, hnr]
    omega
  obtain ⟨io, hrecv, hc⟩ := recvMsgs_honest hhonest hlen
  have hio := recvAll_io .ipc 0 ch (w.s2c ch.link)
  rw [hrecv] at hio
  generalize hr : World.recvAll .ipc 0 ch (w.s2c ch.link) = r at hio
  obtain ⟨ch1, log, fault⟩ := r
  cases fault with
  | some f => cases hio
  | none =>
    replace hc : Completes ch.io (ch.batch .ipc (w.s2c ch.link)) ch1.io := Except.ok.inj hio ▸ hc
    let w2 : World := { w with
      chans := [ch1]
      s2c := Function.update w.s2c ch.link []
      log := w.log ++ log
      pc := .reaping 0 max }
    have hact : ∀ j, w1.act h (.wait j) = if j = (w.s2c ch.link).length then some w2 else none := by
      intro j
      have htakes : Takes w1.kind (w1.s2c ch.link) j ↔ j = (w.s2c ch.link).length := by
        have hipc : w1.kind = .ipc := hkind
        rw [hipc, Takes]
        exact ⟨fun ht => ht.2 rfl, fun he => ⟨he.le, fun _ => he⟩⟩
      simp only [World.act, w1, hs.chans, List.getElem?_cons_zero]
      by_cases hj : j = (w.s2c ch.link).length
      · rw [if_pos hj, if_pos (htakes.mpr hj)]
        subst hj
        simp only [World.wait, World.receive, List.take_length, List.drop_length, hkind, hr]
        simp [World.setChan, w2, hkind, hs.fault]
      · rw [if_neg hj, if_neg (fun ht => hj (htakes.mp ht))]
    have hs2 : Healthy l depth w2 ch1 :=
      (hs1.next (a := .wait (w.s2c ch.link).length) trivial ((hact _).trans (if_pos rfl)) rfl).2
    -- and reports all of it
    have hslots : (ch.batch .ipc (w.s2c ch.link)).map slotOf = (w.s2c ch.link).map Sent.slot := by
      simp [Chan.batch, slotOf, Sent.slot]
    have hcount := hc.cplNr
    have hdepth := hs.opened.depth
    have hdepths := hs.opened.inv.ok.slots.reapDepth
    have hreap : reap ch1.io max = ((w.s2c ch.link).map Sent.slot, { ch1.io with cplNr := 0 }) := by
      apply reap_all
      · rw [hc.pending, pending, hnr, List.range_zero, List.map_nil, List.nil_append, hslots]
      · omega
      · rw [hc.same.reapDepth]
        omega
      · intro id hid
        rw [← hslots] at hid
        exact (hc.answered id hid).2
    let ch2 : Chan := { ch1 with io := { ch1.io with cplNr := 0 } }
    let w3 : World := { w with
      chans := [ch2]
      s2c := Function.update w.s2c ch.link []
      log := w.log ++ log }
    obtain ⟨hstep3, hs3⟩ : step h .reap w2 = some w3 ∧ Healthy l depth w3 ch2 := by
      refine hs2.next trivial ?_ rfl
      have hact : w2.act h .reap =
          some { w2.setChan 0 { ch1 with io := (reap ch1.io max).2 } with pc := .idle } := rfl
      rw [hact, setChan_one hs2.chans, hreap]
      simp only [← hpc, w3, w2, ch2]
    refine ⟨ch2, log, fun j => ?_, hs3, ?_⟩
    · have hpc1 : w1.pc ≠ .reaping 0 max := fun he => Pc.noConfusion he
      have hwait : step h (.wait j) w1 = if j = (w.s2c ch.link).length then some w2 else none := by
        rw [step, hs1.fault]
        exact hact j
      rw [World.polls, hstep1, Option.bind_some, if_neg hpc1, hwait]
      by_cases hj : j = (w.s2c ch.link).length
      · have hf : ¬ w2.fault.isSome = true := by
          rw [hs2.fault]
          decide
        rw [if_pos hj, if_pos hj, Option.bind_some, if_neg hf, hs2.chans, List.getElem?_cons_zero,
          Option.bind_some, hstep3, hreap]
        rfl
      · rw [if_neg hj, if_neg hj]
        rfl
    · have hop : ch1.op = ch.op := by
        have hop := (hs1.opened.inv.received rfl (List.append_nil (w1.s2c ch.link)).symm).op
        rwa [show w1.kind = .ipc from hkind, hr] at hop
      refine ⟨hop, rfl, ?_, fun id hid => ?_, fun id hid => ?_⟩
      · rw [← hslots]
        exact hhonest.nodup
      · rw [← hslots] at hid
        obtain ⟨msg, hmsg, rfl⟩ := List.mem_map.mp hid
        have hresp := hhonest.response msg hmsg
        exact ⟨hresp.lt, hresp.state, (hc.answered _ hid).1⟩
      · rw [← hslots] at hid
        exact hc.other id hid

/-- An operation that is completed is claimed and destroyed. -/
theorem Healthy.finishes (hs : Healthy l depth w ch) (hpc : w.pc = .idle) {id : Nat} (hlt : id < depth)
    (hst : (ch.io.opCtxs id).state = .completed) :
    let hdr := (ch.io.opCtxs id).requestAndResponse.header
    let ch' := { ch with io := (ch.io.setState id .ended).freed id }
    let w' := { w with
      chans := [ch']
      log := w.log ++ [.claimed (ch.op id) hdr.status hdr.type hdr.dataLength] }
    calls h [.claim 0 id, .destroy 0 id] w = some w' ∧ Healthy l depth w' ch' := by
  intro hdr ch' w'
  have hdepth := hs.opened.depth
  let ch1 : Chan := { ch with io := ch.io.setState id .ended }
  let w1 : World := { w' with chans := [ch1] }
  obtain ⟨hstep1, hs1⟩ : step h (.claim 0 id) w = some w1 ∧ Healthy l depth w1 ch1 := by
    refine hs.next trivial ?_ rfl
    have hclaim : opClaimResult ch.io id = (0, ch.io.setState id .ended, some
        ⟨hdr.status, hdr.type, (ch.io.opCtxs id).requestAndResponse.dataBuffer, hdr.dataLength⟩) := by
      rw [opClaimResult, if_pos ⟨by omega, hst⟩]
    simp only [World.act, call_one hs hpc, World.claim, hclaim, setChan_one hs.chans]
    rfl
  have hended : (ch1.io.opCtxs id).state = .ended := by
    rw [setState_self]
  obtain ⟨hstep2, hs2⟩ : step h (.destroy 0 id) w1 = some w' ∧ Healthy l depth w' ch' := by
    refine hs1.next (fun c hc _ => ?_) ?_ rfl
    · obtain rfl := Option.some.inj hc
      exact hended
    · have hslots := hs1.opened.inv.ok.slots
      have hlt1 : id < ch1.io.queueDepth := hlt.trans_eq hdepth.symm
      have hbit : ¬ ch1.io.opCtxsBitmap.getBit id = true := fun hb =>
        OpState.noConfusion (hended.symm.trans ((hslots.free id hlt1).mp hb))
      have hdestroy := opDestory_eq (hslots.slot id)
      rw [if_pos hlt1, hended] at hdestroy
      dsimp only at hdestroy
      rw [if_neg hbit] at hdestroy
      simp only [World.act, call_one hs1 hpc, World.destroy, hdestroy, setChan_one hs1.chans]
      rfl
  exact ⟨calls_two hstep1 hstep2, hs2⟩

end Steps

section Prepare
variable {ch : IoChannel} {opType metaSize dataLength : Nat} {metaBuffer dataBuffer : Option (List Byte)}
  (hwords : 64 * ch.opCtxsBitmap.wordsLength ≤ 2 ^ 32)
  (hhint : ch.bitmapHint ≤ 64 * ch.opCtxsBitmap.wordsLength) (hm : metaSize ≤ 255)
include hwords hhint hm

theorem prepare_none (hn : ch.opCtxsBitmap.nextSetIndex ch.bitmapHint = none) :
    ioPrepareOpCommon ch opType metaSize metaBuffer dataLength dataBuffer = .ok (enomem, ch) := by
  obtain ⟨hcall, -⟩ | ⟨i, hi, -⟩ := @prepare_cases ch hwords hhint opType metaSize dataLength metaBuffer
    dataBuffer hm
  · exact hcall
  · rw [hn] at hi
    cases hi

theorem prepare_found {id : Nat} (hn : ch.opCtxsBitmap.nextSetIndex ch.bitmapHint = some id)
    (hsmall : id < 2 ^ 31) (hlt : id < ch.queueDepth) :
    ioPrepareOpCommon ch opType metaSize metaBuffer dataLength dataBuffer =
      .ok ((id : Int), ch.prepared id (messageStateReset ⟨⟨0, 0, 0⟩,
        MsgHdr.build ch.seq opType ch.sessionType.magic metaSize dataLength id, metaBuffer, dataBuffer,
          ch.session⟩)) := by
  obtain ⟨-, hnone⟩ | ⟨i, hi, -, hcall⟩ := @prepare_cases ch hwords hhint opType metaSize dataLength
    metaBuffer dataBuffer hm
  · exact absurd (hnone id hn) (Nat.not_le_of_lt hsmall)
  · obtain rfl := Option.some.inj (hn.symm.trans hi)
    rw [hcall, if_neg (Nat.not_le_of_lt hlt)]

end Prepare

section Outstanding
variable {l depth : Nat} {w : World} {ch ch' : Chan} {id : Nat}

theorem mem_outstanding : id ∈ ch.outstanding ↔ id < ch.io.queueDepth ∧ (ch.io.opCtxs id).state ≠ .new := by
  simp [Chan.outstanding]

theorem outstanding_nodup (ch : Chan) : ch.outstanding.Nodup := List.nodup_range.filter _

/-- A slot comes into use. -/
theorem outstanding_cons (hdepth : ch'.io.queueDepth = ch.io.queueDepth) (hlt : id < ch.io.queueDepth)
    (hfree : (ch.io.opCtxs id).state = .new) (hused : (ch'.io.opCtxs id).state ≠ .new)
    (hother : ∀ i, i ≠ id → ch'.io.opCtxs i = ch.io.opCtxs i) :
    ch'.outstanding.Perm (id :: ch.outstanding) := by
  have hnot : id ∉ ch.outstanding := fun hin => (mem_outstanding.mp hin).2 hfree
  rw [List.perm_ext_iff_of_nodup (outstanding_nodup ch') (List.nodup_cons.mpr ⟨hnot, outstanding_nodup ch⟩)]
  intro i
  rw [List.mem_cons, mem_outstanding, mem_outstanding, hdepth]
  by_cases he : i = id
  · simp [he, hlt, hused]
  · simp [he, hother i he]

/-- Where the search ends: at a free slot, or nowhere if all are in use. -/
theorem Healthy.search (hs : Healthy l depth w ch) :
    ch.io.opCtxsBitmap.nextSetIndex ch.io.bitmapHint = none ∧ ch.outstanding.length = depth ∨
    ∃ id, ch.io.opCtxsBitmap.nextSetIndex ch.io.bitmapHint = some id ∧ id < depth ∧
      (ch.io.opCtxs id).state = .new ∧ ch.outstanding.length < depth := by
  have hslots := hs.opened.inv.ok.slots
  have hdepth := hs.opened.depth
  have hfull := hs.full
  have hbound : ∀ i ∈ ch.outstanding, i < depth := fun i hi => hdepth ▸ (mem_outstanding.mp hi).1
  cases hn : ch.io.opCtxsBitmap.nextSetIndex ch.io.bitmapHint with
  | none =>
    have hclear := nextSetIndex_none hslots.hint hn
    have hall : ∀ i < depth, i ∈ ch.outstanding := by
      intro i hi
      refine mem_outstanding.mpr ⟨hdepth ▸ hi, fun hnew => ?_⟩
      have hset := (hslots.free i (hdepth ▸ hi)).mpr hnew
      rw [hclear i (by omega)] at hset
      cases hset
    exact Or.inl ⟨rfl, Nat.le_antisymm (length_le_of_bounded (outstanding_nodup ch) hbound)
      (le_length_of_all hall)⟩
  | some i =>
    obtain ⟨hset, hrange⟩ := nextSetIndex_spec hn
    have hlt : i < depth := by
      have hi := hrange hslots.hint
      omega
    have hnew := (hslots.free i (hdepth ▸ hlt)).mp hset
    have hmiss : i ∉ ch.outstanding := fun hin => (mem_outstanding.mp hin).2 hnew
    exact Or.inr ⟨i, rfl, hlt, hnew, length_lt_of_missing (outstanding_nodup ch) hbound hlt hmiss⟩

end Outstanding

/-- The requests that the server has not looked at. -/
def World.requests (w : World) (l : Nat) : List Sent := w.c2s l ++ w.batch l

/-- A step that leaves the client alone, and brings no request that was not there. -/
structure Beside (l : Nat) (w w' : World) : Prop where
  chans : w'.chans = w.chans
  pc : w'.pc = w.pc
  nextOp : w'.nextOp = w.nextOp
  log : w.log <+: w'.log
  requests : ∀ x ∈ w'.requests l, ∃ y ∈ w.requests l, x.op = y.op ∧ x.msg.header = y.msg.header ∧
    x.msg.metaBuffer = y.msg.metaBuffer ∧ x.msg.dataBuffer = y.msg.dataBuffer

section Server
variable {h : Heap (List Byte)} {l : Nat} {w w' : World}

/-- A world that differs in what is behind the requests. -/
theorem Beside.of_fewer {c2s batch pending s2c : Nat → List Sent} {log : List Obs} {f : Option Fault}
    (hreq : ∀ x ∈ c2s l ++ batch l, x ∈ w.requests l) : Beside l w { w with
      c2s := c2s, batch := batch, pending := pending, s2c := s2c, log := w.log ++ log, fault := f } where
  chans := rfl
  pc := rfl
  nextOp := rfl
  log := List.prefix_append _ _
  requests x hx := ⟨x, hreq x hx, rfl, rfl, rfl, rfl⟩

theorem take_beside {l' j : Nat} (hkind : w.kind = .ipc) (hs : step h (.take l' j) w = some w') :
    Beside l w w' := by
  have ha := (step_act hs).2
  simp only [World.act] at ha
  split at ha
  · obtain rfl := Option.some.inj ha
    refine ⟨rfl, rfl, rfl, List.prefix_refl _, fun x hx => ?_⟩
    simp only [World.requests, World.take, World.arrive, hkind, List.mem_append] at hx ⊢
    by_cases hl : l = l'
    · subst hl
      simp only [Function.update_self, List.mem_append, List.mem_map] at hx
      obtain hx | hx | ⟨y, hy, rfl⟩ := hx
      · exact ⟨x, Or.inl (List.mem_of_mem_drop hx), rfl, rfl, rfl, rfl⟩
      · exact ⟨x, Or.inr hx, rfl, rfl, rfl, rfl⟩
      · exact ⟨y, Or.inl (List.mem_of_mem_take hy), rfl, rfl, rfl, rfl⟩
    · rw [Function.update_of_ne hl, Function.update_of_ne hl] at hx
      exact ⟨x, hx, rfl, rfl, rfl, rfl⟩
  · cases ha

theorem handle_beside {l' : Nat} {rc : Int} (hs : step h (.handle l' rc) w = some w') :
    Beside l w w' := by
  have ha := (step_act hs).2
  simp only [World.act] at ha
  split at ha
  · rename_i x xs hb
    obtain rfl := Option.some.inj ha
    unfold World.handle
    dsimp only
    generalize onRecvMessage h rc x.msg = r
    obtain ⟨s2c, log, he, -⟩ := answer_frame { w with
      batch := Function.update w.batch l' xs
      pending := Function.update w.pending l'
        (w.pending l' ++ r.2.toList.map fun m => { x with msg := m }) } x (World.refusal h rc x.msg) r.1
    rw [he]
    apply Beside.of_fewer
    intro y hy
    rw [List.mem_append] at hy
    dsimp only at hy
    refine List.mem_append.mpr (hy.imp_right fun hy => ?_)
    by_cases hl : l = l'
    · subst hl
      rw [Function.update_self] at hy
      rw [hb]
      exact List.mem_cons_of_mem x hy
    · rwa [Function.update_of_ne hl] at hy
  · cases ha

theorem complete_beside {l' i : Nat} {code : Int} (hs : step h (.complete l' i code) w = some w') :
    Beside l w w' := by
  obtain ⟨x, -, rfl⟩ := Option.map_eq_some_iff.mp (step_act hs).2
  unfold World.complete
  obtain ⟨s2c, log, he, -⟩ := answer_frame { w with
    pending := Function.update w.pending l' ((w.pending l').eraseIdx i) } x code (ossOpCb x.msg code)
  rw [he]
  exact Beside.of_fewer fun y hy => hy

/-- The server never fails an assertion of the client. -/
theorem Beside.sound {depth : Nat} {ch : Chan} {a : Act} (hb : Beside l w w') (hs : Healthy l depth w ch)
    (hp : Proper w a) (hstep : step h a w = some w') : Healthy l depth w' ch := by
  obtain ⟨ch', -, hs'⟩ := hs.advance hp hstep
  obtain rfl := hs'.unique (hb.chans.trans hs.chans)
  exact hs'

end Server
end ZCell.Liboss
