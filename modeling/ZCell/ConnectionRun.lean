import ZCell.Connection

/-! Matching on a connection: while the lengths of no write wrap, every step is one of the channel of
whole messages, or none. The arguments of a write that wraps are taken for another request. -/
namespace ZCell.Liboss
open Bytes Messager Server Runs

/-- What the channel and the server have to send is ready for the connection. -/
structure Stocked (w : World) (ch : Chan) : Prop where
  slots : ∀ id, (ch.io.opCtxs id).state = .waitingSubmit → Ready (ch.io.opCtxs id).requestAndResponse
  c2s : ∀ x ∈ w.c2s ch.link, Ready x.msg
  pending : ∀ x ∈ w.pending ch.link, Ready x.msg
  s2c : ∀ x ∈ w.s2c ch.link, Ready x.msg

section Requests
variable {kind : Kind} {ch io : IoChannel} {rc : Int}

/-- A prepared request has the lengths of its parts in its header. -/
theorem prepare_ready (hs : Slots kind ch) {opType metaSize dataLength : Nat}
    {metaBuffer dataBuffer : Option (List Byte)}
    (hcall : ioPrepareOpCommon ch opType metaSize metaBuffer dataLength dataBuffer = .ok (rc, io))
    (hm : metaSize ≤ 255) (hd : dataLength < 2 ^ 32)
    (hmb : metaSize ≤ (metaBuffer.getD []).length) (hdb : dataLength ≤ (dataBuffer.getD []).length)
    (hsmall : metaSize + dataLength < 2 ^ 32)
    (hold : ∀ id, (ch.opCtxs id).state = .waitingSubmit → Ready (ch.opCtxs id).requestAndResponse) :
    ∀ id, (io.opCtxs id).state = .waitingSubmit → Ready (io.opCtxs id).requestAndResponse := by
  obtain ⟨hno, _⟩ | ⟨id, _, _, hyes⟩ := @prepare_cases ch hs.words hs.hint opType metaSize dataLength
    metaBuffer dataBuffer hm
  · rw [hno] at hcall
    obtain ⟨-, rfl⟩ := Prod.mk.inj (Except.ok.inj hcall)
    exact hold
  · rw [hyes] at hcall
    split at hcall
    · cases hcall
    · obtain ⟨-, rfl⟩ := Prod.mk.inj (Except.ok.inj hcall)
      have hmeta := @build_metaLength ch.seq ch.sessionType opType metaSize dataLength id (by omega)
      have hdata := @build_dataLength ch.seq ch.sessionType opType metaSize dataLength id hd
      intro i hi
      by_cases he : i = id
      · subst he
        simp only [IoChannel.prepared, Function.update_self]
        refine ⟨⟨?_, ?_⟩, ?_⟩
        · simp only [content, messageStateReset, hmeta]
          exact List.length_take_of_le hmb
        · simp only [content, messageStateReset, hdata]
          exact List.length_take_of_le hdb
        · simp only [Messager.Small, messageStateReset, hmeta, hdata]
          exact hsmall
      · simp only [IoChannel.prepared, Function.update_of_ne he] at hi ⊢
        exact hold i hi

theorem ioCall_ready (hs : Slots kind ch) {call : Call} (hback : call.Backed) (hsmall : call.Small)
    (hcall : ioCall ch call = .ok (rc, io))
    (hold : ∀ id, (ch.opCtxs id).state = .waitingSubmit → Ready (ch.opCtxs id).requestAndResponse) :
    ∀ id, (io.opCtxs id).state = .waitingSubmit → Ready (io.opCtxs id).requestAndResponse := by
  have hargs : ∀ (args : List Nat) (n : Nat), 8 * args.length = n →
      n ≤ ((some (argBytes args)).getD []).length :=
    fun args n hn => hn ▸ (argBytes_length args).ge
  have hnone : 0 ≤ ((none : Option (List Byte)).getD []).length := Nat.le_refl _
  cases call with
  | stat => exact prepare_ready hs hcall (by decide) (by decide) hnone hnone (by decide) hold
  | create oid => exact prepare_ready hs hcall (by decide) (by decide) (hargs _ _ rfl) hnone (by decide) hold
  | delete oid => exact prepare_ready hs hcall (by decide) (by decide) (hargs _ _ rfl) hnone (by decide) hold
  | read oid ofst len junk =>
    exact prepare_ready hs hcall (by decide) (by decide) (hargs _ _ rfl) hnone (by decide) hold
  | read2 buf oid ofst len =>
    exact prepare_ready hs hcall (by decide) (by decide) (hargs _ _ rfl) hnone (by decide) hold
  | write oid buffer ofst len =>
    exact prepare_ready hs hcall (by decide) len.isLt (hargs _ _ rfl) hback hsmall hold

end Requests

section Stock
variable {h : Heap (List Byte)} {w w' : World} {ch ch' : Chan}

theorem Stocked.start (qd : BitVec 32) :
    Stocked (World.start .net [(0, qd)]) ⟨getIoChannel .net 0 qd, 0, fun _ => 0⟩ where
  slots _ hst := nomatch hst
  c2s _ hx := nomatch hx
  pending _ hx := nomatch hx
  s2c _ hx := nomatch hx

/-- Only a new operation waits for its submission that has not waited before. -/
theorem Trans.waiting (hi : PairInv w ch) (ht : Trans w ch w' ch') (hn : w'.nextOp = w.nextOp) :
    ∀ id, (ch'.io.opCtxs id).state = .waitingSubmit → ch'.io.opCtxs id = ch.io.opCtxs id := by
  intro id hst
  cases ht with
  | prepared io id hpc h => exact absurd hn (Nat.succ_ne_self _)
  | marked all hpc =>
    rw [markInProgress_opCtxs] at hst ⊢
    split at hst
    · cases hst
    · rename_i hnot
      exact if_neg hnot
  | wait xs ys min max n m retry retry' r pc hpc hs2c hr hpc' =>
    have hrecv := hi.received hpc hs2c
    rw [← hr] at hrecv
    refine (hrecv.slots id).resolve_right fun hc => ?_
    rw [hc.1] at hst
    cases hst
  | claim i hpc hlt hcompl =>
    by_cases he : id = i
    · subst he
      rw [setState_self] at hst
      cases hst
    · exact setState_other ch.io _ he
  | destroyed io i hpc h =>
    by_cases he : id = i
    · subst he
      rw [h.isNew] at hst
      cases hst
    · exact h.other id he
  | _ => rfl

theorem Stocked.requests (hst : Stocked w ch) (hi : PairInv w ch) (ht : Trans w ch w' ch') :
    ∀ x ∈ w'.c2s ch.link, Ready x.msg := by
  cases ht with
  | send id rest all hpc =>
    obtain ⟨-, -, hsuf, hall⟩ := atPc_sending hi hpc
    obtain ⟨-, hwait⟩ := hall id (hsuf.subset (List.mem_cons_self ..))
    intro x hx
    simp only [Function.update_self, List.mem_append, List.mem_singleton] at hx
    rcases hx with hx | rfl
    · exact hst.c2s x hx
    · exact hst.slots id hwait
  | take xs ys hc2s =>
    intro x hx
    simp only [Function.update_self] at hx
    exact hst.c2s x (by rw [hc2s]; exact List.mem_append_right _ hx)
  | _ => exact hst.c2s

theorem Stocked.responses (hst : Stocked w ch) (ht : Trans w ch w' ch') :
    ∀ x ∈ w'.s2c ch.link, Ready x.msg := by
  cases ht with
  | wait xs ys min max n m retry retry' r pc hpc hs2c hr hpc' =>
    intro x hx
    simp only [Function.update_self] at hx
    exact hst.s2c x (by rw [hs2c]; exact List.mem_append_right _ hx)
  | refused x xs m code hb hm hcode =>
    intro y hy
    simp only [World.answered, Function.update_self, List.mem_append, List.mem_singleton] at hy
    rcases hy with hy | rfl
    · exact hst.s2c y hy
    · exact .of_data hm.metaLength (by rw [hm.error hcode]; exact Nat.zero_le _)
  | complete i x m code hp hm hdata hcarry =>
    intro y hy
    simp only [World.answered, Function.update_self, List.mem_append, List.mem_singleton] at hy
    rcases hy with hy | rfl
    · exact hst.s2c y hy
    · refine .of_data hm.metaLength ?_
      by_cases hz : m.header.dataLength = 0
      · rw [hz]
        exact Nat.zero_le _
      · obtain ⟨hlen, hbuf⟩ := hcarry hz
        have hx := (hst.pending x (List.mem_of_getElem? hp)).whole.dataLen
        simp only [content, List.length_take] at hx
        rw [hlen, hbuf]
        omega
  | _ => exact hst.s2c

theorem Stocked.step {W : Wired} {a : Act} (hst : Stocked W.world ch) (hi : PairInv W.world ch)
    (hfit : WireFits h W (.act a)) (hs : W.world.act h a = some w') (ht : Trans W.world ch w' ch')
    (hlink : ch'.link = ch.link) : Stocked w' ch' where
  slots := by
    by_cases hprep : ∃ c call, a = .prepare c call
    · obtain ⟨c, call, rfl⟩ := hprep
      obtain ⟨hback, hsmall⟩ := hfit
      have hch' := (hi.trans ht).chans
      obtain ⟨-, rfl, rfl⟩ := call_some hi.chans hs
      unfold World.prepare at hch'
      cases hcall : ioCall ch.io call with
      | error f =>
        rw [hcall] at hch'
        obtain rfl := List.singleton_inj.mp (hi.chans.symm.trans hch')
        exact hst.slots
      | ok r =>
        obtain ⟨rc, io⟩ := r
        have hready := ioCall_ready hi.ok.slots hback hsmall hcall hst.slots
        rw [hcall] at hch'
        dsimp only at hch'
        split at hch'
        · rw [setChan_one hi.chans] at hch'
          obtain rfl := List.singleton_inj.mp hch'
          exact hready
        · rw [setChan_one hi.chans] at hch'
          obtain rfl := List.singleton_inj.mp hch'
          exact hready
    · have hn := (act_frame (l := 0) hs).nextOp fun c call he => hprep ⟨c, call, he⟩
      intro id hwait
      have hsame := ht.waiting hi hn id hwait
      rw [hsame] at hwait ⊢
      exact hst.slots id hwait
  c2s := by
    rw [hlink]
    exact hst.requests hi ht
  pending x hx := by
    rw [hlink] at hx
    rcases (act_frame hs).pending x hx with hx | ⟨⟨rc, rfl⟩, y, hy, hvalid, hmsg⟩
    · exact hst.pending x hx
    · rw [hmsg]
      exact .of_data (refilled h y.msg hvalid).metaLength (hfit.1 y hy hvalid)
  s2c := by
    rw [hlink]
    exact hst.responses ht

end Stock

/-- The channel, and the messages of its queues under way on the connection. -/
structure OnWire (qd : BitVec 32) (w : Wired) (ch : Chan) : Prop where
  opened : Opened .net 0 (depthOf qd) w.world ch
  stocked : Stocked w.world ch
  up : Hauls (w.world.c2s 0) w.up
  down : Hauls (w.world.s2c 0) w.down

section Simulation
variable {h : Heap (List Byte)} {qd : BitVec 32} {w w' : Wired} {ch : Chan}

theorem usual_proper {a : Act} (hu : Usual h w (.act a)) : Proper w.world a := by
  cases a with
  | submit c ops => exact hu
  | destroy c id => exact hu
  | _ => trivial

/-- A step of the channel of whole messages, on the connection. -/
theorem OnWire.channel (hi : OnWire qd w ch) {a : Act} {v : World} (hfit : WireFits h w (.act a))
    (hs : step h a w.world = some v) : ∃ ch', Opened .net 0 (depthOf qd) v ch' ∧ Stocked v ch' := by
  have hroom := room_of_proper (h := h) hi.opened.kind (usual_proper hfit.1)
  obtain ⟨ch', ht, ho⟩ := hi.opened.step hroom hs
  exact ⟨ch', ho, hi.stocked.step hi.opened.inv hfit (step_act hs).2 ht
    (ho.link.trans hi.opened.link.symm)⟩

theorem OnWire.act (hi : OnWire qd w ch) {a : Act} (hfit : WireFits h w (.act a))
    (hf : w.world.fault = none) (hs : Wired.step h (.act a) w = some w') :
    (∃ ch', OnWire qd w' ch') ∧ step h a w.world = some w'.world := by
  simp only [Wired.step, hf, Option.isSome_none, Bool.false_eq_true, if_false] at hs
  split at hs
  · cases hs
  · rename_i hwaits
    obtain ⟨v, hact, rfl⟩ := Option.map_eq_some_iff.mp hs
    have hstep : step h a w.world = some v := by
      rw [step, hf]
      exact hact
    obtain ⟨ch', ho, hst⟩ := hi.channel hfit hstep
    have hframe : Frame h w.world v a 0 := act_frame hact
    obtain ⟨xs, hxs⟩ := hframe.c2s fun l j he => hwaits (by rw [he]; rfl)
    obtain ⟨ys, hys⟩ := hframe.s2c fun j he => hwaits (by rw [he]; rfl)
    refine ⟨⟨ch', ho, hst, ?_, ?_⟩, hstep⟩
    · dsimp only
      rw [← hxs, List.drop_left]
      refine hi.up.pushAll fun x hx => hst.c2s x ?_
      rw [ho.link, ← hxs]
      exact List.mem_append_right _ hx
    · dsimp only
      rw [← hys, List.drop_left]
      refine hi.down.pushAll fun x hx => hst.s2c x ?_
      rw [ho.link, ← hys]
      exact List.mem_append_right _ hx

/-- A read event of the server takes messages from the channel. -/
theorem OnWire.readUp (hi : OnWire qd w ch) {turns : List Turn} {fill : Nat → Nat → Byte}
    (hok : Turn.error ∉ turns) (hf : w.world.fault = none)
    (hs : Wired.step h (.readUp turns fill) w = some w') :
    (∃ ch', OnWire qd w' ch') ∧ ∃ j, step h (.take 0 j) w.world = some w'.world := by
  obtain ⟨hle, hup, hxs⟩ := hi.up.read fill 0 hok
  simp only [Wired.step, hf, Option.isSome_none, Bool.false_eq_true, if_false] at hs
  obtain rfl := Option.some.inj hs
  generalize (handedOut w.up (linkAct (.read turns fill) w.up)).length = j at hle hup hxs ⊢
  have hstep : step h (.take 0 j) w.world = some (w.world.take 0 j) := by
    have htakes : Takes w.world.kind (w.world.c2s 0) j :=
      ⟨hle, fun hipc => by rw [hi.opened.kind] at hipc; cases hipc⟩
    rw [step, hf]
    exact if_pos htakes
  have hworld : w.world.arrive 0 j (arrivals 0 (w.world.c2s 0)
      (handedOut w.up (linkAct (.read turns fill) w.up))) = w.world.take 0 j := by
    rw [hxs, World.take, hi.opened.kind]
  dsimp only
  rw [hworld]
  have hfit : WireFits h w (.act (.take 0 j)) := ⟨trivial, trivial⟩
  obtain ⟨ch', ho, hst⟩ := hi.channel hfit hstep
  refine ⟨⟨ch', ho, hst, ?_, hi.down⟩, j, hstep⟩
  have hc2s : (w.world.take 0 j).c2s 0 = (w.world.c2s 0).drop j := by
    simp only [World.take, World.arrive, Function.update_self]
  rw [hc2s]
  exact hup

/-- A read event of the client is a round of the loop in `io_poll_channel`. -/
theorem OnWire.readDown (hi : OnWire qd w ch) {turns : List Turn} {fill : Nat → Nat → Byte}
    (hok : Turn.error ∉ turns) (hf : w.world.fault = none)
    (hs : Wired.step h (.readDown turns fill) w = some w') :
    (∃ ch', OnWire qd w' ch') ∧ ∃ j, step h (.wait j) w.world = some w'.world := by
  have hch := hi.opened.inv.chans
  have hlink := hi.opened.link
  simp only [Wired.step, hf, Option.isSome_none, Bool.false_eq_true, if_false] at hs
  split at hs
  · rename_i c min max n retry hpc
    obtain ⟨rfl, -⟩ := atPc_polling hi.opened.inv hpc
    rw [hch] at hs
    obtain rfl := Option.some.inj hs
    obtain ⟨hle, hdown, hxs⟩ := hi.down.read fill ch.io.session hok
    generalize (handedOut w.down (linkAct (.read turns fill) w.down)).length = j at hle hdown hxs ⊢
    have hstep : step h (.wait j) w.world = some (w.world.wait 0 ch min max n retry j) := by
      have htakes : Takes w.world.kind (w.world.s2c ch.link) j := by
        rw [hlink]
        exact ⟨hle, fun hipc => by rw [hi.opened.kind] at hipc; cases hipc⟩
      rw [step, hf]
      simp only [Option.isSome_none, Bool.false_eq_true, if_false, World.act, hpc, hch,
        List.getElem?_cons_zero, if_pos htakes]
    have hworld : w.world.receive 0 ch min max n retry j (arrivals ch.io.session (w.world.s2c ch.link)
        (handedOut w.down (linkAct (.read turns fill) w.down))) =
          w.world.wait 0 ch min max n retry j := by
      rw [hlink, hxs, World.wait, World.receive, World.receive, hi.opened.kind, recvAll_delivered, hlink]
    dsimp only
    rw [hworld]
    have hfit : WireFits h w (.act (.wait j)) := ⟨trivial, trivial⟩
    obtain ⟨ch', ho, hst⟩ := hi.channel hfit hstep
    refine ⟨⟨ch', ho, hst, hi.up, ?_⟩, j, hstep⟩
    have hs2c : (w.world.wait 0 ch min max n retry j).s2c 0 = (w.world.s2c 0).drop j := by
      rw [World.wait, World.receive]
      dsimp only
      rw [hlink, Function.update_self]
    rw [hs2c]
    exact hdown
  · cases hs

/-- Every step on the connection is one of the channel of whole messages, or none. -/
theorem OnWire.step {a : WireAct} (hi : OnWire qd w ch) (hfit : WireFits h w a)
    (hs : Wired.step h a w = some w') : (∃ ch', OnWire qd w' ch') ∧
      (w'.world = w.world ∨ ∃ b, Proper w.world b ∧ Liboss.step h b w.world = some w'.world) := by
  have hf : w.world.fault = none := by
    unfold Wired.step at hs
    split at hs
    · cases hs
    · rename_i hno
      simpa using hno
  cases a with
  | act a =>
    obtain ⟨hw, hstep⟩ := hi.act hfit hf hs
    exact ⟨hw, Or.inr ⟨a, usual_proper hfit.1, hstep⟩⟩
  | flushUp turns =>
    simp only [Wired.step, hf, Option.isSome_none, Bool.false_eq_true, if_false] at hs
    obtain rfl := Option.some.inj hs
    exact ⟨⟨ch, hi.opened, hi.stocked, hi.up.flush hfit.1, hi.down⟩, Or.inl rfl⟩
  | flushDown turns =>
    simp only [Wired.step, hf, Option.isSome_none, Bool.false_eq_true, if_false] at hs
    obtain rfl := Option.some.inj hs
    exact ⟨⟨ch, hi.opened, hi.stocked, hi.up, hi.down.flush hfit.1⟩, Or.inl rfl⟩
  | readUp turns fill =>
    obtain ⟨hw, j, hstep⟩ := hi.readUp hfit.1 hf hs
    exact ⟨hw, Or.inr ⟨.take 0 j, trivial, hstep⟩⟩
  | readDown turns fill =>
    obtain ⟨hw, j, hstep⟩ := hi.readDown hfit.1 hf hs
    exact ⟨hw, Or.inr ⟨.wait j, trivial, hstep⟩⟩

end Simulation

/-- A connection on which no request wraps, and a depth that is a multiple of 64. -/
theorem wired_matched (h : Heap (List Byte)) (qd : BitVec 32) (w : Wired)
    (hqd : depthOf qd % 64 = 0) (hrun : Run (Wired.step h) (WireFits h) (Wired.start qd) w) :
    Matched w.world := by
  have hstart : (Wired.start qd).world = World.start .net [(0, qd)] ∧
      ∃ ch, OnWire qd (Wired.start qd) ch :=
    ⟨rfl, _, Opened.start .net 0 qd, Stocked.start qd, .start, .start⟩
  have hsim : ∃ v, Run (step h) Proper (World.start .net [(0, qd)]) v ∧
      (w.world = v ∧ ∃ ch, OnWire qd w ch) :=
    hrun.simulate (R := fun w v => w.world = v ∧ ∃ ch, OnWire qd w ch) hstart
      fun s t a s' hr hok hs => by
        obtain ⟨rfl, ch, hi⟩ := hr
        obtain ⟨hw, hsame | ⟨b, hp, hb⟩⟩ := hi.step hok hs
        · exact Or.inl ⟨hsame, hw⟩
        · exact Or.inr ⟨b, _, hp, hb, rfl, hw⟩
  obtain ⟨v, hv, rfl, -⟩ := hsim
  exact run_matched h 0 qd w.world hqd hv

/-- A submission: the messages go out, and the server gets them. -/
def submitActs (ops : List Nat) : List WireAct :=
  let turns := List.replicate (3 * ops.length) (.upTo 999)
  .act (.submit 0 ops) :: ops.map (fun _ => .act .send) ++
    [.flushUp turns, .act .send, .readUp turns fun _ _ => 0]

/-- A write and a refused delete, whose responses come out of order and in pieces; then a request
for the state of the store in the slot of the write. -/
def recycleActs : List WireAct :=
  List.flatten [[.act (.prepare 0 (.write 7 [1, 2] 0 2)), .act (.prepare 0 (.delete 9))],
    submitActs [1, 0],
    [.act (.handle 0 0), .act (.handle 0 0), .act (.complete 0 1 0), .act (.complete 0 0 (-5)),
      .act (.poll 0 2 2), .flushDown [.upTo 9, .wouldBlock], .readDown [.upTo 4] fun _ _ => 0,
      .flushDown [.upTo 99, .upTo 99], .readDown [.upTo 3, .upTo 99] fun _ _ => 0,
      .readDown [.upTo 99, .upTo 99, .upTo 99] fun _ _ => 0, .act .reap, .act (.claim 0 1),
      .act (.claim 0 0), .act (.destroy 0 0), .act (.prepare 0 .stat)],
    submitActs [0],
    [.act (.handle 0 0), .act (.complete 0 0 0), .act (.poll 0 1 1), .flushDown [.upTo 99, .upTo 99],
      .readDown [.upTo 99, .upTo 99] fun _ _ => 0, .act .reap, .act (.claim 0 0)]]

theorem wired_matched_write : ∃ w : Wired, Obs.claimed 0 0 msgOssOpWrite 0 ∈ w.world.log ∧
    Obs.claimed 1 251 msgOssOpDelete 0 ∈ w.world.log ∧
    Obs.claimed 2 0 msgOssOpStat 20 ∈ w.world.log ∧ Matched w.world := by
  have hrun : (runActs (Wired.step byteHeap) (WireFits byteHeap) recycleActs (Wired.start 64)).map
      (fun w => decide (Obs.claimed 0 0 msgOssOpWrite 0 ∈ w.world.log ∧
        Obs.claimed 1 251 msgOssOpDelete 0 ∈ w.world.log ∧
        Obs.claimed 2 0 msgOssOpStat 20 ∈ w.world.log)) = some true := by
    decide +kernel
  obtain ⟨w, hw, hend⟩ := Option.map_eq_some_iff.mp hrun
  obtain ⟨h0, h1, h2⟩ := of_decide_eq_true hend
  exact ⟨w, h0, h1, h2, wired_matched byteHeap 64 w (by decide) (run_of_runActs .start hw)⟩

/-- The link when everything has been sent. -/
def flushed (l : Link) : Link :=
  { l with
    sendQ := []
    receiver := { l.receiver with
      sock := { l.receiver.sock with inbox := l.receiver.sock.inbox ++ l.sendQ.flatMap unsent } } }

section Flushing
variable {h : Heap (List Byte)} {w : Wired} {l : Link}

theorem flushed_eq (hnil : l.sendQ = []) : flushed l = l := by
  obtain ⟨q, r, pushed⟩ := l
  simp only at hnil
  subst hnil
  simp only [flushed, List.flatMap_nil, List.append_nil]

/-- A flush with a turn gets on, and loses nothing. -/
theorem flush_moves (hq : ∀ m ∈ l.sendQ, Messager.Sending m) (hne : l.sendQ ≠ []) :
    (∀ m ∈ (linkAct (.flush [.upTo 0]) l).sendQ, Messager.Sending m) ∧
    flushed (linkAct (.flush [.upTo 0]) l) = flushed l ∧
    backlog (linkAct (.flush [.upTo 0]) l).sendQ < backlog l.sendQ := by
  obtain ⟨hsend, ⟨bs, hwire, hrest⟩, hclose⟩ :=
    flushMsgOf_spec l.sendQ l.receiver.sock.inbox [.upTo 0] hq
  have hopen : (flushMsgOf l.sendQ l.receiver.sock.inbox [.upTo 0]).1 ≠ .needClose :=
    fun hc => absurd (hclose hc) (by decide)
  have hmoves := @flushMsgOf_moves _ l.receiver.sock.inbox 0 hq hne
  simp only [linkAct, if_neg hopen, flushed]
  refine ⟨hsend, ?_, hmoves⟩
  rw [hwire, List.append_assoc, hrest]

/-- The client gets rid of what it has to send. -/
theorem flushUp_run (hf : w.world.fault = none) (hq : ∀ m ∈ w.up.sendQ, Messager.Sending m) :
    Run (Wired.step h) (Usual h) w { w with up := flushed w.up } := by
  let inv (v : Wired) : Prop := ∃ up : Link, v = { w with up := up } ∧
    (∀ m ∈ up.sendQ, Messager.Sending m) ∧ flushed up = flushed w.up
  have hstep : ∀ v, inv v → backlog v.up.sendQ ≠ 0 → ∃ a v', Usual h v a ∧
      Wired.step h a v = some v' ∧ inv v' ∧ backlog v'.up.sendQ < backlog v.up.sendQ := by
    intro v hv hne
    obtain ⟨up, rfl, hup, hsame⟩ := hv
    have hcons : up.sendQ ≠ [] := fun hnil => hne (by rw [hnil]; rfl)
    obtain ⟨hsend, hkeep, hlt⟩ := flush_moves hup hcons
    have hok : Turn.error ∉ [Turn.upTo 0] := by decide
    refine ⟨.flushUp [.upTo 0], { w with up := linkAct (.flush [.upTo 0]) up }, hok, ?_,
      ⟨_, rfl, hsend, hkeep.trans hsame⟩, hlt⟩
    simp only [Wired.step, hf, Option.isSome_none, Bool.false_eq_true, if_false]
  have hstart : inv w := ⟨w.up, rfl, hq, rfl⟩
  obtain ⟨v, hrun, ⟨up, rfl, -, hsame⟩, hload⟩ :=
    Run.unload (fun v : Wired => backlog v.up.sendQ) hstep hstart
  have hnil : up.sendQ = [] := by
    cases hsq : up.sendQ with
    | nil => rfl
    | cons m q =>
      rw [hsq, backlog_cons] at hload
      omega
  rwa [← hsame, flushed_eq hnil]

end Flushing

/-- A write of `2 ^ 32 - 32` bytes, whose object id and offset read as the header of a request for
the state of the store. -/
def wideWrite : Call :=
  .write 0 (List.replicate (2 ^ 32 - 32) 0) 0x22000b (BitVec.ofNat 32 (2 ^ 32 - 32))

def wideStart : Wired :=
  { Wired.start 64 with
    world := (World.start .net [(0, 64)]).prepare 0 ⟨getIoChannel .net 0 64, 0, fun _ => 0⟩ wideWrite }

/-- The server reads the header and finds nothing more; then it reads the first 26 bytes of the
arguments. It answers both times. -/
def wideActs : List WireAct :=
  [.act (.submit 0 [0]), .act .send, .flushUp [.upTo 25], .readUp [.upTo 25] fun _ _ => 0,
    .act (.handle 0 0), .flushUp [.upTo 25], .readUp [.upTo 25] fun _ _ => 0, .act (.handle 0 0),
    .act (.complete 0 0 0), .flushDown [.upTo 99, .upTo 99, .upTo 99]]

def wideSent : Wired := (runActs (Wired.step byteHeap) (Usual byteHeap) wideActs wideStart).getD wideStart

theorem wideSent_run : Run (Wired.step byteHeap) (Usual byteHeap) (Wired.start 64) wideSent := by
  have hback : wideWrite.Backed := by
    have hlen : (List.replicate (2 ^ 32 - 32) (0 : Byte)).length = 2 ^ 32 - 32 := List.length_replicate
    have hgoal : (BitVec.ofNat 32 (2 ^ 32 - 32)).toNat ≤
        (List.replicate (2 ^ 32 - 32) (0 : Byte)).length := by
      rw [hlen]
      decide
    exact hgoal
  have hfirst : Run (Wired.step byteHeap) (Usual byteHeap) (Wired.start 64) wideStart :=
    .next (.act (.prepare 0 wideWrite)) .start hback (by with_unfolding_all rfl)
  have hsome : (runActs (Wired.step byteHeap) (Usual byteHeap) wideActs wideStart).isSome = true := by
    decide +kernel
  obtain ⟨w, hw⟩ := Option.isSome_iff_exists.mp hsome
  have hsent : wideSent = w := by
    rw [wideSent, hw]
    rfl
  rw [hsent]
  exact run_of_runActs hfirst hw

/-- What the client has still to send of it. -/
theorem wideSent_sending : ∀ m ∈ wideSent.up.sendQ, Messager.Sending m := by
  have hbuf : wideSent.up.sendQ.map (fun m => m.dataBuffer) =
      [some (List.replicate (2 ^ 32 - 32) 0)] := by
    with_unfolding_all rfl
  have hstate : ∀ m ∈ wideSent.up.sendQ, m.state.hdrRemLen.toNat ≤ sizeofHdr ∧
      m.state.metaRemLen.toNat ≤ m.header.metaLength ∧
      m.state.dataRemLen.toNat ≤ m.header.dataLength ∧
      m.header.metaLength ≤ (m.metaBuffer.getD []).length ∧
      m.header.dataLength = 2 ^ 32 - 32 := by
    decide +kernel
  intro m hm
  obtain ⟨h1, h2, h3, h4, h5⟩ := hstate m hm
  have hdata : m.dataBuffer = some (List.replicate (2 ^ 32 - 32) 0) := by
    have hmem := List.mem_map_of_mem (f := fun m : Msg => m.dataBuffer) hm
    rw [hbuf] at hmem
    exact List.mem_singleton.mp hmem
  refine ⟨⟨List.length_take_of_le h4, ?_⟩, h1, h2, h3⟩
  simp only [content, hdata, h5, Option.getD_some, List.length_take, List.length_replicate, Nat.min_self]

/-- The answer to a request that nobody has sent names a slot far beyond the array. -/
theorem wideWrite_not_matched : ∃ w : Wired,
    Run (Wired.step byteHeap) (Usual byteHeap) (Wired.start 64) w ∧ ¬ Matched w.world := by
  have hflush := flushUp_run (h := byteHeap) (w := wideSent) (by decide +kernel) wideSent_sending
  -- the submission returns, and the client waits for a response
  have hend : (runActs (Wired.step byteHeap) (Usual byteHeap) [.act .send, .act (.poll 0 1 1),
      .readDown [.upTo 99, .upTo 99, .upTo 99, .upTo 99] fun _ _ => 0]
      { wideSent with up := flushed wideSent.up }).map (fun w => w.world.fault) =
      some (some .workArray) := by
    decide +kernel
  obtain ⟨w, hw, hfault⟩ := Option.map_eq_some_iff.mp hend
  refine ⟨w, run_of_runActs (wideSent_run.trans hflush) hw, fun hm => ?_⟩
  have hnone := hm.noFault
  rw [hfault] at hnone
  cases hnone

end ZCell.Liboss
