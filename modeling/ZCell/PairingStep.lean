import ZCell.Pairing

/-! What one step does to a world with a single channel, and that it keeps the pairing of operations
and messages. -/
namespace ZCell.Liboss
open Bytes Messager Server

section Channel
variable {kind : Kind} {ch : IoChannel} {ops : List Nat} {id : Nat}

@[simp] theorem setState_self (ch : IoChannel) (id : Nat) (st : OpState) :
    (ch.setState id st).opCtxs id = { ch.opCtxs id with state := st } := setOp_self ..

theorem setState_other (ch : IoChannel) (st : OpState) {i : Nat} (h : i ≠ id) :
    (ch.setState id st).opCtxs i = ch.opCtxs i := setOp_other ch _ h

theorem submitCheck_spec (h : submitCheck ch ops = .ok true) :
    ∀ id ∈ ops, id < ch.queueDepth ∧ (ch.opCtxs id).state = .waitingSubmit := by
  induction ops with
  | nil => exact fun id hid => nomatch hid
  | cons i ops ih =>
    rw [submitCheck] at h
    split at h
    · cases h
    · split at h
      · cases h
      · split at h
        · rename_i hle hne hst
          intro id hid
          cases List.mem_cons.mp hid with
          | inl he =>
            rw [he]
            exact ⟨by omega, hst⟩
          | inr hid => exact ih h id hid
        · cases h

theorem submitCheck_ok
    (hops : ∀ id ∈ ops, id < ch.queueDepth ∧ (ch.opCtxs id).state = .waitingSubmit) :
    submitCheck ch ops = .ok true := by
  induction ops with
  | nil => rfl
  | cons id ops ih =>
    obtain ⟨hlt, hst⟩ := hops id (List.mem_cons_self ..)
    rw [submitCheck, if_neg (by omega), if_neg (by omega), if_pos hst]
    exact ih fun i hi => hops i (List.mem_cons_of_mem _ hi)

theorem markInProgress_opCtxs (ch : IoChannel) (ops : List Nat) (id : Nat) :
    (markInProgress ch ops).opCtxs id =
      if id ∈ ops then { ch.opCtxs id with state := .inProgress } else ch.opCtxs id := by
  induction ops generalizing ch with
  | nil => rfl
  | cons i ops ih =>
    have hcons : markInProgress ch (i :: ops) = markInProgress (ch.setState i .inProgress) ops := rfl
    rw [hcons, ih]
    by_cases hi : id = i
    · subst hi
      simp
    · rw [setState_other ch _ hi]
      simp [hi]

/-- Only the operations change. -/
theorem markInProgress_frame (ch : IoChannel) (ops : List Nat) :
    markInProgress ch ops = { ch with opCtxs := (markInProgress ch ops).opCtxs } := by
  induction ops generalizing ch with
  | nil => rfl
  | cons i ops ih =>
    have hcons : markInProgress ch (i :: ops) = markInProgress (ch.setState i .inProgress) ops := rfl
    rw [hcons, ih]
    rfl

theorem markInProgress_slots (hs : Slots kind ch)
    (hops : ∀ id ∈ ops, id < ch.queueDepth ∧ (ch.opCtxs id).state ≠ .new) :
    Slots kind (markInProgress ch ops) := by
  induction ops generalizing ch with
  | nil => exact hs
  | cons i ops ih =>
    obtain ⟨hlt, hne⟩ := hops i (List.mem_cons_self ..)
    have hset : Slots kind (ch.setState i .inProgress) :=
      hs.setOp hne (fun h => OpState.noConfusion h) (fun h => OpState.noConfusion h)
        fun _ => hs.slot i hlt hne
    refine ih hset fun id hid => ?_
    obtain ⟨hlt', hne'⟩ := hops id (List.mem_cons_of_mem _ hid)
    refine ⟨hlt', ?_⟩
    by_cases he : id = i
    · rw [he, setState_self]
      exact fun h => OpState.noConfusion h
    · rwa [setState_other ch _ he]

end Channel

/-- The message of operation `id` as it is sent. -/
def Chan.sent (ch : Chan) (id : Nat) : Sent := ⟨(ch.io.opCtxs id).requestAndResponse, 0, ch.op id⟩

/-- A response on its way back, and what the log has of it. -/
def World.answered (w : World) (l : Nat) (x : Sent) (m : Msg) (code : Int) : World :=
  { w with
    s2c := Function.update w.s2c l (w.s2c l ++ [⟨m, x.chan, x.op⟩])
    log := w.log ++ [.answered x.op m.header.type code m.header.dataLength] }

/-- What a step makes of a world with the one channel `ch`. -/
inductive Trans (w : World) (ch : Chan) : World → Chan → Prop
  | stay (f : Option Fault) : Trans w ch { w with fault := f } ch
  | prepared (io : IoChannel) (id : Nat) (hpc : w.pc = .idle) (h : PreparedOp w.kind ch.io io id) :
    Trans w ch { w with
      chans := [{ ch with io := io, op := Function.update ch.op id w.nextOp }]
      nextOp := w.nextOp + 1 } { ch with io := io, op := Function.update ch.op id w.nextOp }
  | submit (ops : List Nat) (hpc : w.pc = .idle) (hnd : ops.Nodup)
    (h : ∀ id ∈ ops, id < ch.io.queueDepth ∧ (ch.io.opCtxs id).state = .waitingSubmit) :
    Trans w ch { w with pc := .sending 0 ops ops } ch
  | send (id : Nat) (rest all : List Nat) (hpc : w.pc = .sending 0 (id :: rest) all) :
    Trans w ch { w with
      c2s := Function.update w.c2s ch.link (w.c2s ch.link ++ [ch.sent id])
      pc := .sending 0 rest all } ch
  | marked (all : List Nat) (hpc : w.pc = .sending 0 [] all) :
    Trans w ch { w with chans := [{ ch with io := markInProgress ch.io all }], pc := .idle }
      { ch with io := markInProgress ch.io all }
  | poll (min max : Nat) (retry : Bool) (hpc : w.pc = .idle) (hcpl : ch.io.cplNr = 0) :
    Trans w ch { w with pc := .polling 0 min max 0 retry } ch
  | ready (max : Nat) (hpc : w.pc = .idle) : Trans w ch { w with pc := .reaping 0 max } ch
  | wait (xs ys : List Sent) (min max n m : Nat) (retry retry' : Bool) (r : Chan × List Obs × Option Fault)
    (pc : Pc) (hpc : w.pc = .polling 0 min max n retry) (hs2c : w.s2c ch.link = xs ++ ys)
    (hr : r = World.recvAll w.kind 0 ch xs)
    (hpc' : pc = .polling 0 min max m retry' ∨ pc = .reaping 0 max) :
    Trans w ch { w with
      chans := [r.1]
      s2c := Function.update w.s2c ch.link ys
      log := w.log ++ r.2.1
      fault := r.2.2
      pc := pc } r.1
  | reaped (max : Nat) (hpc : w.pc = .reaping 0 max) :
    Trans w ch { w with chans := [{ ch with io := (reap ch.io max).2 }], pc := .idle }
      { ch with io := (reap ch.io max).2 }
  | claim (id : Nat) (hpc : w.pc = .idle) (hlt : id < ch.io.queueDepth)
    (hst : (ch.io.opCtxs id).state = .completed) :
    Trans w ch { w with
      chans := [{ ch with io := ch.io.setState id .ended }]
      log := w.log ++ [.claimed (ch.op id) (ch.io.opCtxs id).requestAndResponse.header.status
        (ch.io.opCtxs id).requestAndResponse.header.type
        (ch.io.opCtxs id).requestAndResponse.header.dataLength] }
      { ch with io := ch.io.setState id .ended }
  | destroyed (io : IoChannel) (id : Nat) (hpc : w.pc = .idle) (h : Destroyed w.kind ch.io io id) :
    Trans w ch { w with chans := [{ ch with io := io }] } { ch with io := io }
  | take (xs ys : List Sent) (hc2s : w.c2s ch.link = xs ++ ys) :
    Trans w ch { w with
      c2s := Function.update w.c2s ch.link ys
      batch := Function.update w.batch ch.link (w.batch ch.link ++
        xs.map fun x => { x with msg := delivered w.kind ch.link x.msg }) } ch
  | refused (x : Sent) (xs : List Sent) (m : Msg) (code : Int) (hb : w.batch ch.link = x :: xs)
    (hm : Replied x.msg m code) (hcode : code ≠ Status.success.code) :
    Trans w ch
      ({ w with batch := Function.update w.batch ch.link xs }.answered ch.link x m code) ch
  | stored (x : Sent) (xs : List Sent) (m : Msg) (hb : w.batch ch.link = x :: xs)
    (hm : Refilled x.msg m) :
    Trans w ch { w with
      batch := Function.update w.batch ch.link xs
      pending := Function.update w.pending ch.link (w.pending ch.link ++ [{ x with msg := m }]) } ch
  | complete (i : Nat) (x : Sent) (m : Msg) (code : Int) (hp : (w.pending ch.link)[i]? = some x)
    (hm : Replied x.msg m code) (hdata : x.msg.header.type ∈ dataless → m.header.dataLength = 0)
    (hcarry : Carries x.msg m) :
    Trans w ch
      ({ w with pending := Function.update w.pending ch.link ((w.pending ch.link).eraseIdx i) }.answered
        ch.link x m code) ch

section Step
variable {h : Heap (List Byte)} {w w' : World} {ch : Chan} {a : Act}

theorem call_some {c : Nat} {f : Chan → World} (hch : w.chans = [ch]) (hc : w.call c f = some w') :
    w.pc = .idle ∧ c = 0 ∧ w' = f ch := by
  unfold World.call at hc
  split at hc
  · rename_i hpc
    rw [hch] at hc
    cases c with
    | zero => exact ⟨hpc, rfl, (Option.some.inj hc).symm⟩
    | succ c => cases hc
  · cases hc

theorem setChan_one (hch : w.chans = [ch]) (ch' : Chan) :
    w.setChan 0 ch' = { w with chans := [ch'] } := by
  rw [World.setChan, hch]
  rfl

theorem setChan_same (hch : w.chans = [ch]) : w.setChan 0 ch = w := by
  rw [setChan_one hch, ← hch]

/-- The one response goes back on the link of its session. -/
theorem answer_one {x : Sent} {code : Int} {events : List (Event (List Byte))} {m : Msg} {l : Nat}
    (hev : responses events = [(w.kind, m)]) (hroom : HasRoom w.kind (w.s2c l)) (hl : m.privCtx = l) :
    World.answer w x code events = w.answered l x m code := by
  subst hl
  simp only [World.answer, hev, List.foldl_cons, List.foldl_nil, if_true, enqueue_room hroom]
  rfl

theorem refusal_oss {rc : Int} {m : Msg} (ht : m.header.type ∈ ossTypes) :
    World.refusal h rc m = if ossOpValid h m then rc else Status.invalidOp.code := by
  obtain ⟨hping, hoss⟩ := ossTypes_oss ht
  rw [World.refusal, if_neg hping, if_pos hoss]

theorem Paired.home_of_mem {kind : Kind} {pc : Pc} {xs : List Sent} {x : Sent}
    (hp : Paired kind pc ch (xs.map Sent.key)) (hx : x ∈ xs) : Home kind ch x.key :=
  hp.home _ (List.mem_map_of_mem hx)

/-- A queue of another link is empty. -/
theorem Served.of_mem {l l' : Nat} {x : Sent} (hs : Served w l) (hx : x ∈ w.flight l') : l' = l := by
  by_contra hne
  rw [hs.elsewhere l' hne] at hx
  cases hx

theorem atPc_sending {c : Nat} {rest all : List Nat} (hi : PairInv w ch)
    (hpc : w.pc = .sending c rest all) : c = 0 ∧ all.Nodup ∧ rest <:+ all ∧
      ∀ id ∈ all, id < ch.io.queueDepth ∧ (ch.io.opCtxs id).state = .waitingSubmit := by
  have hat := hi.atPc
  rw [AtPc, hpc] at hat
  exact hat

theorem atPc_polling {c min max n : Nat} {retry : Bool} (hi : PairInv w ch)
    (hpc : w.pc = .polling c min max n retry) :
    c = 0 ∧ ch.io.cplNr + (w.flight ch.link).length ≤ ch.io.queueDepth := by
  have hat := hi.atPc
  rw [AtPc, hpc] at hat
  exact hat

theorem send_trans (hi : PairInv w ch) (hroom : Room h w .send) (hs : w.act h .send = some w') :
    ∃ ch', Trans w ch w' ch' := by
  simp only [World.act] at hs
  split at hs
  · rename_i c id rest all hpc
    obtain ⟨rfl, -⟩ := atPc_sending hi hpc
    rw [hi.chans] at hs
    obtain rfl := Option.some.inj hs
    have hroom' : HasRoom w.kind (w.c2s ch.link) := by
      simp only [Room, SendRoom, hpc, hi.chans] at hroom
      exact hroom ch rfl
    simp only [World.send, enqueue_room hroom']
    exact ⟨ch, .send id rest all hpc⟩
  · rename_i c all hpc
    obtain ⟨rfl, -⟩ := atPc_sending hi hpc
    rw [hi.chans] at hs
    obtain rfl := Option.some.inj hs
    dsimp only
    rw [setChan_one hi.chans]
    exact ⟨_, .marked all hpc⟩
  · cases hs

theorem wait_trans {j : Nat} (hi : PairInv w ch) (hs : w.act h (.wait j) = some w') :
    ∃ ch', Trans w ch w' ch' := by
  simp only [World.act] at hs
  split at hs
  · rename_i c min max n retry hpc
    obtain ⟨rfl, -⟩ := atPc_polling hi hpc
    rw [hi.chans] at hs
    dsimp only [List.getElem?_cons_zero] at hs
    split at hs
    · obtain rfl := Option.some.inj hs
      simp only [World.wait, World.receive, setChan_one hi.chans]
      have hcut := (List.take_append_drop j (w.s2c ch.link)).symm
      refine ⟨_, .wait _ _ min max n (n + j) retry (if n + j < min then retry else false) _ _ hpc hcut
        rfl ?_⟩
      by_cases hmin : n + j < min
      · simp [hmin]
      · by_cases hretry : j = 0 ∧ retry = true
        · rw [if_neg hmin, if_pos hretry, if_neg hmin]
          exact Or.inl rfl
        · rw [if_neg hmin, if_neg hretry]
          exact Or.inr rfl
    · cases hs
  · cases hs

theorem reap_trans (hi : PairInv w ch) (hs : w.act h .reap = some w') :
    ∃ ch', Trans w ch w' ch' := by
  simp only [World.act] at hs
  split at hs
  · rename_i c max hpc
    have hat := hi.atPc
    rw [AtPc, hpc] at hat
    subst hat
    rw [hi.chans] at hs
    obtain rfl := Option.some.inj hs
    dsimp only
    rw [setChan_one hi.chans]
    exact ⟨_, .reaped max hpc⟩
  · cases hs

theorem take_trans {l j : Nat} (hi : PairInv w ch) (hs : w.act h (.take l j) = some w') :
    ∃ ch', Trans w ch w' ch' := by
  simp only [World.act] at hs
  split at hs
  · rename_i htakes
    obtain rfl := Option.some.inj hs
    by_cases hl : l = ch.link
    · subst hl
      exact ⟨ch, .take _ _ (List.take_append_drop j (w.c2s ch.link)).symm⟩
    · -- nothing is there to take
      have hnone := hi.served.elsewhere l hl
      simp only [World.flight, List.append_eq_nil_iff] at hnone
      have hsame : w.take l j = w := by
        have hc : Function.update w.c2s l ([] : List Sent) = w.c2s := by
          rw [← hnone.1.1.1, Function.update_eq_self]
        have hb : Function.update w.batch l ([] : List Sent) = w.batch := by
          rw [← hnone.1.1.2, Function.update_eq_self]
        simp only [World.take, World.arrive, hnone.1.1.1, hnone.1.1.2, List.take_nil, List.drop_nil, List.map_nil,
          List.append_nil, hc, hb]
      rw [hsame]
      exact ⟨ch, .stay w.fault⟩
  · cases hs

theorem handle_trans {l : Nat} {x : Sent} {xs : List Sent} {rc : Int} (hi : PairInv w ch)
    (hb : w.batch l = x :: xs) (hroom : Room h w (.handle l rc)) :
    Trans w ch (World.handle h w l x xs rc) ch := by
  have hx : x ∈ w.batch l := by rw [hb]; exact List.mem_cons_self ..
  have hfl : x ∈ w.flight l := mem_flight.mpr (Or.inr (Or.inl hx))
  have hl := hi.served.of_mem hfl
  subst hl
  have hhome := hi.paired.home_of_mem hfl
  have hk : x.msg.header.magic = w.kind.magic := hhome.magic
  have ht : x.msg.header.type ∈ ossTypes := hhome.type
  have hctx : x.msg.privCtx = ch.link := hi.served.taken x hx
  rcases onRecvMessage_served h rc x.msg w.kind ht hk with
    ⟨events, m, code, heq, hev, hm, hcode, hrc⟩ | ⟨m, heq, hm⟩
  · have hroom' : HasRoom w.kind (w.s2c ch.link) := by
      have hx' := hroom x (by rw [hb]; rfl)
      rw [heq, hev] at hx'
      exact hx'.resolve_left (fun hemp => nomatch hemp)
    have hlink : m.privCtx = ch.link := hm.privCtx.trans hctx
    have hnone : w.pending ch.link ++ (none : Option Msg).toList.map (fun m => { x with msg := m }) =
        w.pending ch.link := List.append_nil _
    rw [World.handle, heq, refusal_oss ht, ← hrc, hnone, Function.update_eq_self]
    dsimp only
    rw [answer_one (m := m) (l := ch.link)]
    · exact .refused x xs m code hb hm hcode
    · exact hev
    · exact hroom'
    · exact hlink
  · rw [World.handle, heq]
    exact .stored x xs m hb hm

theorem complete_trans {l i : Nat} {x : Sent} {code : Int} (hi : PairInv w ch)
    (hp : (w.pending l)[i]? = some x) (hroom : HasRoom w.kind (w.s2c l)) :
    Trans w ch (World.complete w l i x code) ch := by
  have hx : x ∈ w.pending l := List.mem_of_getElem? hp
  have hfl : x ∈ w.flight l := mem_flight.mpr (Or.inr (Or.inr (Or.inl hx)))
  have hl := hi.served.of_mem hfl
  subst hl
  have hhome := hi.paired.home_of_mem hfl
  obtain ⟨hctx, hre⟩ := hi.served.pending x hx
  obtain ⟨m, hev, hm, hdata, hcarry⟩ := ossOpCb_replied code x.msg w.kind hhome.magic hre
  have hlink : m.privCtx = ch.link := hm.privCtx.trans hctx
  rw [World.complete, answer_one (m := m) (l := ch.link)]
  · exact .complete i x m code hp hm hdata hcarry
  · exact hev
  · exact hroom
  · exact hlink

/-- The inversion of a step. -/
theorem step_trans (hi : PairInv w ch) (hroom : Room h w a) (hs : step h a w = some w') :
    ∃ ch', Trans w ch w' ch' := by
  have hch := hi.chans
  obtain ⟨-, hs⟩ := step_act hs
  have hstay : Trans w ch w ch := .stay w.fault
  cases a with
  | prepare c call =>
    obtain ⟨hpc, rfl, rfl⟩ := call_some hch hs
    unfold World.prepare
    cases hcall : ioCall ch.io call with
    | error f => exact ⟨ch, .stay (some f)⟩
    | ok r =>
      obtain ⟨rc, io⟩ := r
      dsimp only
      rcases ioCall_spec hi.ok.slots hcall with ⟨hrc, rfl⟩ | ⟨id, rfl, hp⟩
      · rw [if_pos hrc, setChan_same hch]
        exact ⟨ch, hstay⟩
      · rw [if_neg (by omega), setChan_one hch]
        exact ⟨_, .prepared io id hpc hp⟩
  | submit c ops =>
    obtain ⟨hpc, rfl, rfl⟩ := call_some hch hs
    unfold World.submit
    cases hcheck : submitCheck ch.io ops with
    | error f => exact ⟨ch, .stay (some f)⟩
    | ok b =>
      cases b with
      | false => exact ⟨ch, hstay⟩
      | true =>
        have hnd : ops.Nodup := hroom ch (by rw [hch]; rfl) (by rw [hcheck]; rfl)
        exact ⟨ch, .submit ops hpc hnd (submitCheck_spec hcheck)⟩
  | send => exact send_trans hi hroom hs
  | poll c min max =>
    obtain ⟨hpc, rfl, rfl⟩ := call_some hch hs
    unfold World.poll
    split
    · exact ⟨ch, hstay⟩
    · split
      · rename_i hcpl
        exact ⟨ch, .poll min max _ hpc hcpl⟩
      · exact ⟨ch, .ready max hpc⟩
  | wait j => exact wait_trans (h := h) hi hs
  | reap => exact reap_trans (h := h) hi hs
  | claim c id =>
    obtain ⟨hpc, rfl, rfl⟩ := call_some hch hs
    simp only [World.claim, opClaimResult]
    split
    · rename_i hid
      rw [setChan_one hch]
      exact ⟨_, .claim id hpc hid.1 hid.2⟩
    · rw [setChan_same hch]
      simp only [Option.toList_none, List.map_nil, List.append_nil]
      exact ⟨ch, hstay⟩
  | destroy c id =>
    obtain ⟨hpc, rfl, rfl⟩ := call_some hch hs
    unfold World.destroy
    cases hd : opDestory ch.io id with
    | error f => exact ⟨ch, .stay (some f)⟩
    | ok r =>
      obtain ⟨rc, io⟩ := r
      dsimp only
      rcases opDestory_spec hi.ok.slots hd with rfl | hd
      · rw [setChan_same hch]
        exact ⟨ch, hstay⟩
      · rw [setChan_one hch]
        exact ⟨_, .destroyed io id hpc hd⟩
  | take l j => exact take_trans (h := h) hi hs
  | handle l rc =>
    simp only [World.act] at hs
    cases hb : w.batch l with
    | nil =>
      rw [hb] at hs
      cases hs
    | cons x xs =>
      rw [hb] at hs
      obtain rfl := Option.some.inj hs
      exact ⟨ch, handle_trans hi hb hroom⟩
  | complete l i code =>
    obtain ⟨x, hx, rfl⟩ := Option.map_eq_some_iff.mp hs
    exact ⟨ch, complete_trans hi hx hroom⟩

end Step
end ZCell.Liboss
