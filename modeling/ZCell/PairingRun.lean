import ZCell.PairingStep

/-! Every run of a world with a single channel keeps the pairing. -/
namespace ZCell.Liboss
open Bytes Messager Server Runs

section Server
variable {w w' : World} {ch : Chan}

/-- The messages of the link move, and the client stays. -/
theorem PairInv.move (hi : PairInv w ch) (hch : w'.chans = w.chans) (hk : w'.kind = w.kind)
    (hpc : w'.pc = w.pc) (hn : w'.nextOp = w.nextOp)
    (hperm : ((w'.flight ch.link).map Sent.key).Perm ((w.flight ch.link).map Sent.key))
    (hserved : Served w' ch.link) : PairInv w' ch where
  chans := hch.trans hi.chans
  ok := by rw [hk, hn]; exact hi.ok
  paired := by rw [hk, hpc]; exact hi.paired.perm hperm
  served := hserved
  atPc := by
    have hlen := hperm.length_eq
    rw [List.length_map, List.length_map] at hlen
    have hat := hi.atPc
    unfold AtPc at hat ⊢
    rw [hpc, hlen]
    exact hat

variable {l : Nat} {x : Sent} {xs ys : List Sent} {m : Msg} {code : Int}

/-- Nothing goes to another link. -/
theorem flight_elsewhere (hs : Served w l) (hc : ∀ l', l' ≠ l → w'.c2s l' = w.c2s l')
    (hb : ∀ l', l' ≠ l → w'.batch l' = w.batch l') (hp : ∀ l', l' ≠ l → w'.pending l' = w.pending l')
    (hr : ∀ l', l' ≠ l → w'.s2c l' = w.s2c l') : ∀ l', l' ≠ l → w'.flight l' = [] := by
  intro l' hl
  rw [← hs.elsewhere l' hl, World.flight, World.flight, hc l' hl, hb l' hl, hp l' hl, hr l' hl]

theorem delivered_keys (kind : Kind) (l : Nat) (xs : List Sent) :
    (xs.map fun x => { x with msg := delivered kind l x.msg }).map Sent.key = xs.map Sent.key := by
  simp [Sent.key]

theorem PairInv.take (hi : PairInv w ch) (hc2s : w.c2s ch.link = xs ++ ys) : PairInv { w with
    c2s := Function.update w.c2s ch.link ys
    batch := Function.update w.batch ch.link (w.batch ch.link ++
      xs.map fun x => { x with msg := delivered w.kind ch.link x.msg }) } ch := by
  refine hi.move rfl rfl rfl rfl ?_ ⟨?_, hi.served.pending, hi.served.replied, ?_⟩
  · rw [List.perm_iff_count]
    intro k
    simp only [World.flight, Function.update_self, hc2s, List.map_append, List.count_append,
      delivered_keys]
    omega
  · intro x hx
    simp only [Function.update_self, List.mem_append, List.mem_map] at hx
    obtain hx | ⟨y, _, rfl⟩ := hx
    · exact hi.served.taken x hx
    · exact delivered_privCtx ..
  · exact flight_elsewhere hi.served (fun l' hl => Function.update_of_ne hl ..)
      (fun l' hl => Function.update_of_ne hl ..) (fun _ _ => rfl) (fun _ _ => rfl)

theorem PairInv.stored (hi : PairInv w ch) (hb : w.batch ch.link = x :: xs) (hm : Refilled x.msg m) :
    PairInv { w with
      batch := Function.update w.batch ch.link xs
      pending := Function.update w.pending ch.link (w.pending ch.link ++ [{ x with msg := m }]) } ch := by
  have hkey : Sent.key { x with msg := m } = x.key := by
    simp [Sent.key, hm.ident]
  refine hi.move rfl rfl rfl rfl ?_ ⟨?_, ?_, hi.served.replied, ?_⟩
  · rw [List.perm_iff_count]
    intro k
    simp only [World.flight, Function.update_self, hb, List.map_append, List.count_append,
      List.map_cons, List.map_nil, List.count_cons, List.count_nil, hkey]
    omega
  · intro y hy
    simp only [Function.update_self] at hy
    exact hi.served.taken y (by rw [hb]; exact List.mem_cons_of_mem _ hy)
  · intro y hy
    simp only [Function.update_self, List.mem_append, List.mem_singleton] at hy
    obtain hy | rfl := hy
    · exact hi.served.pending y hy
    · have htype : m.header.type = x.msg.header.type := MsgHdr.type_of_ident hm.ident
      refine ⟨hm.privCtx.trans (hi.served.taken x (by rw [hb]; exact List.mem_cons_self ..)), ?_⟩
      exact ⟨rfl, rfl, hm.metaLength, fun ht => hm.dataLength (htype ▸ ht)⟩
  · exact flight_elsewhere hi.served (fun _ _ => rfl) (fun l' hl => Function.update_of_ne hl ..)
      (fun l' hl => Function.update_of_ne hl ..) (fun _ _ => rfl)

/-- A response goes back. -/
theorem Served.answered (hs : Served w l) (hm : Replied x.msg m code) :
    Served (w.answered l x m code) l where
  taken := hs.taken
  pending := hs.pending
  replied y hy := by
    simp only [World.answered, Function.update_self, List.mem_append, List.mem_singleton] at hy
    obtain hy | rfl := hy
    · exact hs.replied y hy
    · exact ⟨hm.metaLength, hm.metaBuffer⟩
  elsewhere := flight_elsewhere hs (fun _ _ => rfl) (fun _ _ => rfl) (fun _ _ => rfl)
    fun l' hl => Function.update_of_ne hl ..

theorem PairInv.refused (hi : PairInv w ch) (hb : w.batch ch.link = x :: xs)
    (hm : Replied x.msg m code) :
    PairInv ({ w with batch := Function.update w.batch ch.link xs }.answered ch.link x m code) ch := by
  have hkey : Sent.key ⟨m, x.chan, x.op⟩ = x.key := by
    simp [Sent.key, hm.ident]
  refine hi.move rfl rfl rfl rfl ?_ (Served.answered ⟨?_, hi.served.pending, hi.served.replied, ?_⟩ hm)
  · rw [List.perm_iff_count]
    intro k
    simp only [World.flight, World.answered, Function.update_self, hb, List.map_append,
      List.count_append, List.map_cons, List.map_nil, List.count_cons, List.count_nil, hkey]
    omega
  · intro y hy
    simp only [Function.update_self] at hy
    exact hi.served.taken y (by rw [hb]; exact List.mem_cons_of_mem _ hy)
  · exact flight_elsewhere hi.served (fun _ _ => rfl) (fun l' hl => Function.update_of_ne hl ..)
      (fun _ _ => rfl) (fun _ _ => rfl)

theorem PairInv.complete {i : Nat} (hi : PairInv w ch) (hp : (w.pending ch.link)[i]? = some x)
    (hm : Replied x.msg m code) : PairInv ({ w with
      pending := Function.update w.pending ch.link ((w.pending ch.link).eraseIdx i) }.answered
        ch.link x m code) ch := by
  have hkey : Sent.key ⟨m, x.chan, x.op⟩ = x.key := by
    simp [Sent.key, hm.ident]
  obtain ⟨hlt, rfl⟩ := List.getElem?_eq_some_iff.mp hp
  have hperm := List.getElem_cons_eraseIdx_perm hlt
  refine hi.move rfl rfl rfl rfl ?_ (Served.answered ⟨hi.served.taken, ?_, hi.served.replied, ?_⟩ hm)
  · rw [List.perm_iff_count]
    intro k
    have hk := (List.perm_iff_count.mp (hperm.map Sent.key)) k
    simp only [List.map_cons, List.count_cons] at hk
    simp only [World.flight, World.answered, Function.update_self, List.map_append,
      List.count_append, List.map_cons, List.map_nil, List.count_cons, List.count_nil, hkey]
    omega
  · intro y hy
    simp only [Function.update_self] at hy
    exact hi.served.pending y (List.mem_of_mem_eraseIdx hy)
  · exact flight_elsewhere hi.served (fun _ _ => rfl) (fun _ _ => rfl)
      (fun l' hl => Function.update_of_ne hl ..) (fun _ _ => rfl)

end Server

section Client
variable {w : World} {ch : Chan} {id : Nat}

theorem Served.same {w' : World} {l : Nat} (hs : Served w l) (hc : w'.c2s = w.c2s)
    (hb : w'.batch = w.batch) (hp : w'.pending = w.pending) (hr : w'.s2c = w.s2c) : Served w' l where
  taken := by rw [hb]; exact hs.taken
  pending := by rw [hp]; exact hs.pending
  replied := by rw [hr]; exact hs.replied
  elsewhere l' hl := by
    rw [← hs.elsewhere l' hl, World.flight, World.flight, hc, hb, hp, hr]

/-- No operation is in the middle of a submission. -/
theorem Pc.idle_submitted : ¬ Pc.idle.Submitted id := fun h => h

theorem Pc.polling_submitted {c min max n : Nat} {retry : Bool} :
    ¬ (Pc.polling c min max n retry).Submitted id := fun h => h

theorem Pc.reaping_submitted {c max : Nat} : ¬ (Pc.reaping c max).Submitted id := fun h => h

theorem out_iff {pc : Pc} (hpc : ¬ pc.Submitted id) :
    Out pc ch id ↔ id < ch.io.queueDepth ∧ (ch.io.opCtxs id).state = .inProgress := by
  simp [Out, hpc]

/-- Between two places where nothing is half submitted. -/
theorem out_congr {pc pc' : Pc} {ch' : Chan} (hpc : ¬ pc.Submitted id) (hpc' : ¬ pc'.Submitted id)
    (hdepth : ch'.io.queueDepth = ch.io.queueDepth)
    (hst : (ch'.io.opCtxs id).state = .inProgress ↔ (ch.io.opCtxs id).state = .inProgress) :
    Out pc' ch' id ↔ Out pc ch id := by
  rw [out_iff hpc, out_iff hpc', hdepth, hst]

/-- The new operation gets a number that no other has. -/
theorem ChanOk.prepared {kind : Kind} {n : Nat} (hok : ChanOk kind ch n) {io : IoChannel}
    (h : PreparedOp kind ch.io io id) :
    ChanOk kind { ch with io := io, op := Function.update ch.op id n } (n + 1) := by
  have hself : Function.update ch.op id n id = n := Function.update_self ..
  have hold : ∀ i < ch.io.queueDepth, i ≠ id → (io.opCtxs i).state ≠ .new →
      (ch.io.opCtxs i).state ≠ .new ∧ Function.update ch.op id n i = ch.op i ∧ ch.op i < n := by
    intro i hlt hne hst
    rw [h.other i hne] at hst
    exact ⟨hst, Function.update_of_ne hne .., hok.fresh i hlt hst⟩
  refine ⟨h.slots, fun i hlt hst => ?_, fun i hilt j hjlt hist hjst heq => ?_⟩
  · dsimp only at hlt hst ⊢
    rw [h.queueDepth] at hlt
    by_cases he : i = id
    · rw [he, hself]
      exact Nat.lt_succ_self _
    · obtain ⟨_, heq, hn⟩ := hold i hlt he hst
      omega
  · dsimp only at hilt hjlt hist hjst heq
    rw [h.queueDepth] at hilt hjlt
    by_cases hi : i = id
    · by_cases hj : j = id
      · rw [hi, hj]
      · obtain ⟨_, heq', hn⟩ := hold j hjlt hj hjst
        rw [hi, hself] at heq
        omega
    · obtain ⟨hist', heq', hn⟩ := hold i hilt hi hist
      by_cases hj : j = id
      · rw [hj, hself] at heq
        omega
      · obtain ⟨hjst', heq'', _⟩ := hold j hjlt hj hjst
        exact hok.distinct i hilt j hjlt hist' hjst' (heq'.symm.trans (heq.trans heq''))

theorem PairInv.prepared (hi : PairInv w ch) {io : IoChannel} (hpc : w.pc = .idle)
    (h : PreparedOp w.kind ch.io io id) : PairInv { w with
      chans := [{ ch with io := io, op := Function.update ch.op id w.nextOp }]
      nextOp := w.nextOp + 1 } { ch with io := io, op := Function.update ch.op id w.nextOp } := by
  have hsub : ∀ i, ¬ w.pc.Submitted i := by
    rw [hpc]
    exact fun i => Pc.idle_submitted
  have hst : ∀ i, (io.opCtxs i).state = .inProgress ↔ (ch.io.opCtxs i).state = .inProgress := by
    intro i
    by_cases he : i = id
    · rw [he, h.waiting, h.isNew]
      exact iff_of_false (fun h => OpState.noConfusion h) fun h => OpState.noConfusion h
    · rw [h.other i he]
  refine ⟨rfl, hi.ok.prepared h,
    hi.paired.congr (fun i => out_congr (hsub i) (hsub i) h.queueDepth (hst i)) fun i hout => ?_,
    hi.served.same rfl rfl rfl rfl, ?_⟩
  · have he : i ≠ id := by
      intro he
      rw [he, out_iff (hsub id), h.isNew] at hout
      exact OpState.noConfusion hout.2
    exact ⟨Function.update_of_ne he .., by dsimp only; rw [h.other i he]⟩
  · dsimp only [AtPc]
    rw [hpc]
    trivial

theorem PairInv.submit (hi : PairInv w ch) {ops : List Nat} (hpc : w.pc = .idle) (hnd : ops.Nodup)
    (h : ∀ id ∈ ops, id < ch.io.queueDepth ∧ (ch.io.opCtxs id).state = .waitingSubmit) :
    PairInv { w with pc := .sending 0 ops ops } ch := by
  have hp := hi.paired
  rw [hpc] at hp
  refine ⟨hi.chans, hi.ok, hp.congr (fun i => ?_) fun i _ => ⟨rfl, rfl⟩,
    hi.served.same rfl rfl rfl rfl, rfl, hnd, List.suffix_refl _, h⟩
  have hno : ¬ (Pc.sending 0 ops ops).Submitted i := fun hc => hc.2 hc.1
  exact out_congr Pc.idle_submitted hno rfl Iff.rfl

theorem PairInv.send (hi : PairInv w ch) {rest all : List Nat}
    (hpc : w.pc = .sending 0 (id :: rest) all) : PairInv { w with
      c2s := Function.update w.c2s ch.link (w.c2s ch.link ++ [ch.sent id])
      pc := .sending 0 rest all } ch := by
  obtain ⟨-, hnd, hsuf, hall⟩ := atPc_sending hi hpc
  have hmem : id ∈ all := hsuf.subset (List.mem_cons_self ..)
  have hnot : id ∉ rest := (List.nodup_cons.mp (hnd.sublist hsuf.sublist)).1
  obtain ⟨hlt, hst⟩ := hall id hmem
  have hp := hi.paired
  rw [hpc] at hp
  have hnew : (ch.io.opCtxs id).state ≠ .new := by
    rw [hst]
    exact fun h => OpState.noConfusion h
  have hslot : (ch.sent id).key.slot = id := hi.ok.slots.slot id hlt hnew
  obtain ⟨hmagic, htype⟩ := hi.ok.slots.request id hlt hst
  have hhome : Home w.kind ch (ch.sent id).key := by
    refine ⟨rfl, ?_, ?_, hmagic, htype⟩
    · rw [hslot]
      rfl
    · rw [hslot]
      rfl
  have hsent := hp.send hlt hmem hnot hst hslot hhome
  refine ⟨hi.chans, hi.ok, hsent.perm ?_, ⟨hi.served.taken, hi.served.pending, hi.served.replied, ?_⟩,
    rfl, hnd, (List.suffix_cons _ _).trans hsuf, hall⟩
  · rw [List.perm_iff_count]
    intro k
    simp only [World.flight, Function.update_self, List.map_append, List.count_append,
      List.map_cons, List.map_nil, List.count_cons, List.count_nil]
    omega
  · exact flight_elsewhere hi.served (fun l' hl => Function.update_of_ne hl ..) (fun _ _ => rfl)
      (fun _ _ => rfl) (fun _ _ => rfl)

theorem PairInv.marked (hi : PairInv w ch) {all : List Nat} (hpc : w.pc = .sending 0 [] all) :
    PairInv { w with chans := [{ ch with io := markInProgress ch.io all }], pc := .idle }
      { ch with io := markInProgress ch.io all } := by
  obtain ⟨-, hnd, -, hall⟩ := atPc_sending hi hpc
  have hwas : ∀ i ∈ all, (ch.io.opCtxs i).state ≠ .new := by
    intro i hmem
    rw [(hall i hmem).2]
    exact fun h => OpState.noConfusion h
  have hslots := markInProgress_slots hi.ok.slots fun i hmem => ⟨(hall i hmem).1, hwas i hmem⟩
  have hdepth : (markInProgress ch.io all).queueDepth = ch.io.queueDepth := by
    rw [markInProgress_frame]
  have hp := hi.paired
  rw [hpc] at hp
  refine ⟨rfl, hi.ok.congr hslots hdepth (Nat.le_refl _) fun i _ hst => ⟨?_, rfl⟩,
    hp.congr (fun i => ?_) fun i _ => ⟨rfl, ?_⟩, hi.served.same rfl rfl rfl rfl, trivial⟩
  · rw [markInProgress_opCtxs] at hst
    by_cases hmem : i ∈ all
    · exact hwas i hmem
    · rwa [if_neg hmem] at hst
  · rw [out_iff Pc.idle_submitted]
    dsimp only
    rw [hdepth, markInProgress_opCtxs, Out]
    by_cases hmem : i ∈ all
    · simp [hmem, Pc.Submitted]
    · simp [hmem, Pc.Submitted]
  · rw [markInProgress_opCtxs]
    split <;> rfl

/-- The client moves on, and no operation changes. -/
theorem PairInv.goto (hi : PairInv w ch) {pc : Pc} (hsub : ∀ id, ¬ w.pc.Submitted id)
    (hsub' : ∀ id, ¬ pc.Submitted id) (hat : AtPc { w with pc := pc } ch) :
    PairInv { w with pc := pc } ch where
  chans := hi.chans
  ok := hi.ok
  paired := hi.paired.congr (fun i => out_congr (hsub i) (hsub' i) rfl Iff.rfl) fun _ _ => ⟨rfl, rfl⟩
  served := hi.served.same rfl rfl rfl rfl
  atPc := hat

theorem PairInv.poll (hi : PairInv w ch) {min max : Nat} {retry : Bool} (hpc : w.pc = .idle)
    (hcpl : ch.io.cplNr = 0) : PairInv { w with pc := .polling 0 min max 0 retry } ch := by
  have hlen := hi.paired.length_le
  rw [List.length_map] at hlen
  have hat : ch.io.cplNr + (w.flight ch.link).length ≤ ch.io.queueDepth := by omega
  exact hi.goto (by rw [hpc]; exact fun i => Pc.idle_submitted) (fun i => Pc.polling_submitted)
    ⟨rfl, hat⟩

theorem PairInv.ready (hi : PairInv w ch) {max : Nat} (hpc : w.pc = .idle) :
    PairInv { w with pc := .reaping 0 max } ch :=
  hi.goto (by rw [hpc]; exact fun i => Pc.idle_submitted) (fun i => Pc.reaping_submitted) rfl

theorem PairInv.reaped (hi : PairInv w ch) {max : Nat} (hpc : w.pc = .reaping 0 max) :
    PairInv { w with chans := [{ ch with io := (reap ch.io max).2 }], pc := .idle }
      { ch with io := (reap ch.io max).2 } := by
  have hs := hi.ok.slots
  have hslots : Slots w.kind (reap ch.io max).2 :=
    ⟨hs.sessionType, hs.depth_lt, hs.reapDepth, hs.words, hs.hint, hs.free, hs.slot, hs.request⟩
  have hsub : ∀ i, ¬ w.pc.Submitted i := by
    rw [hpc]
    exact fun i => Pc.reaping_submitted
  exact ⟨rfl, hi.ok.congr hslots rfl (Nat.le_refl _) fun i _ hst => ⟨hst, rfl⟩,
    hi.paired.congr (fun i => out_congr (hsub i) Pc.idle_submitted rfl Iff.rfl) fun i _ => ⟨rfl, rfl⟩,
    hi.served.same rfl rfl rfl rfl, trivial⟩

/-- A slot that is neither out before nor after. -/
theorem PairInv.slot (hi : PairInv w ch) {io : IoChannel} (log : List Obs) (hpc : w.pc = .idle)
    (hs : Slots w.kind io) (hdepth : io.queueDepth = ch.io.queueDepth)
    (hold : (ch.io.opCtxs id).state ≠ .inProgress ∧ (ch.io.opCtxs id).state ≠ .new)
    (hnew : (io.opCtxs id).state ≠ .inProgress)
    (hother : ∀ i, i ≠ id → io.opCtxs i = ch.io.opCtxs i) :
    PairInv { w with chans := [{ ch with io := io }], log := log } { ch with io := io } := by
  have hsub : ∀ i, ¬ w.pc.Submitted i := by
    rw [hpc]
    exact fun i => Pc.idle_submitted
  have hst : ∀ i, (io.opCtxs i).state = .inProgress ↔ (ch.io.opCtxs i).state = .inProgress := by
    intro i
    by_cases he : i = id
    · rw [he]
      exact iff_of_false hnew hold.1
    · rw [hother i he]
  refine ⟨rfl, hi.ok.congr hs hdepth (Nat.le_refl _) fun i _ hne => ⟨?_, rfl⟩,
    hi.paired.congr (fun i => out_congr (hsub i) (hsub i) hdepth (hst i)) fun i hout => ⟨rfl, ?_⟩,
    hi.served.same rfl rfl rfl rfl, ?_⟩
  · by_cases he : i = id
    · rw [he]
      exact hold.2
    · rwa [hother i he] at hne
  · have he : i ≠ id := by
      intro he
      rw [he, out_iff (hsub id)] at hout
      exact hold.1 hout.2
    rw [hother i he]
  · dsimp only [AtPc]
    rw [hpc]
    trivial

theorem PairInv.claim (hi : PairInv w ch) (log : List Obs) (hpc : w.pc = .idle)
    (hlt : id < ch.io.queueDepth) (hst : (ch.io.opCtxs id).state = .completed) :
    PairInv { w with chans := [{ ch with io := ch.io.setState id .ended }], log := log }
      { ch with io := ch.io.setState id .ended } := by
  have hne : (ch.io.opCtxs id).state ≠ .inProgress ∧ (ch.io.opCtxs id).state ≠ .new := by
    rw [hst]
    exact ⟨fun h => OpState.noConfusion h, fun h => OpState.noConfusion h⟩
  have hslots : Slots w.kind (ch.io.setState id .ended) :=
    hi.ok.slots.setOp hne.2 (fun h => OpState.noConfusion h) (fun h => OpState.noConfusion h)
      fun _ => hi.ok.slots.slot id hlt hne.2
  refine hi.slot log hpc hslots rfl hne ?_ fun i he => setState_other ch.io _ he
  rw [setState_self]
  exact fun h => OpState.noConfusion h

theorem PairInv.destroyed (hi : PairInv w ch) {io : IoChannel} (hpc : w.pc = .idle)
    (h : Destroyed w.kind ch.io io id) :
    PairInv { w with chans := [{ ch with io := io }] } { ch with io := io } := by
  refine hi.slot w.log hpc h.slots h.queueDepth ?_ ?_ h.other
  · rw [h.ended]
    exact ⟨fun h => OpState.noConfusion h, fun h => OpState.noConfusion h⟩
  · rw [h.isNew]
    exact fun h => OpState.noConfusion h

/-- What the poll receives. -/
theorem PairInv.received (hi : PairInv w ch) {xs ys : List Sent} {c min max n : Nat} {retry : Bool}
    (hpc : w.pc = .polling c min max n retry) (hs2c : w.s2c ch.link = xs ++ ys) :
    Received w.kind w.nextOp w.pc ch xs
      ((w.c2s ch.link ++ w.batch ch.link ++ w.pending ch.link ++ ys).map Sent.key)
      (World.recvAll w.kind 0 ch xs) := by
  obtain ⟨-, hcpl⟩ := atPc_polling hi hpc
  have hperm : (xs.map Sent.key ++
      (w.c2s ch.link ++ w.batch ch.link ++ w.pending ch.link ++ ys).map Sent.key).Perm
        ((w.flight ch.link).map Sent.key) := by
    rw [List.perm_iff_count]
    intro k
    simp only [World.flight, hs2c, List.map_append, List.count_append]
    omega
  refine recvAll_received xs hi.ok (hi.paired.perm hperm) (fun i => ?_) (fun x hx => ?_) ?_
  · rw [hpc]
    exact Pc.polling_submitted
  · exact (hi.served.replied x (by rw [hs2c]; exact List.mem_append_left _ hx)).2
  · simp only [World.flight, hs2c, List.length_append] at hcpl
    omega

theorem PairInv.wait (hi : PairInv w ch) {xs ys : List Sent} {min max n m : Nat} {retry retry' : Bool}
    {r : Chan × List Obs × Option Fault} {pc : Pc} (hpc : w.pc = .polling 0 min max n retry)
    (hs2c : w.s2c ch.link = xs ++ ys) (hr : r = World.recvAll w.kind 0 ch xs)
    (hpc' : pc = .polling 0 min max m retry' ∨ pc = .reaping 0 max) : PairInv { w with
      chans := [r.1]
      s2c := Function.update w.s2c ch.link ys
      log := w.log ++ r.2.1
      fault := r.2.2
      pc := pc } r.1 := by
  have hrecv := hi.received hpc hs2c
  rw [← hr] at hrecv
  have hlink := hrecv.link
  have hsub : ∀ i, ¬ w.pc.Submitted i := by
    rw [hpc]
    exact fun i => Pc.polling_submitted
  have hsub' : ∀ i, ¬ pc.Submitted i := by
    rcases hpc' with rfl | rfl
    · exact fun i => Pc.polling_submitted
    · exact fun i => Pc.reaping_submitted
  have hp := hrecv.paired.congr (fun i => out_congr (hsub i) (hsub' i) rfl Iff.rfl)
    fun i _ => ⟨rfl, rfl⟩
  refine ⟨rfl, hrecv.ok, ?_, ?_, ?_⟩
  · simp only [World.flight, hlink, Function.update_self]
    exact hp
  · rw [hlink]
    refine ⟨hi.served.taken, hi.served.pending, fun x hx => ?_, ?_⟩
    · simp only [Function.update_self] at hx
      exact hi.served.replied x (by rw [hs2c]; exact List.mem_append_right _ hx)
    · exact flight_elsewhere hi.served (fun _ _ => rfl) (fun _ _ => rfl) (fun _ _ => rfl)
        fun l' hl => Function.update_of_ne hl ..
  · rcases hpc' with rfl | rfl
    · obtain ⟨-, hcpl⟩ := atPc_polling hi hpc
      refine ⟨rfl, ?_⟩
      simp only [World.flight, hlink, hrecv.queueDepth, hrecv.cplNr, Function.update_self,
        List.length_append, hs2c] at hcpl ⊢
      omega
    · exact rfl

/-- Every step keeps the invariant. -/
theorem PairInv.trans (hi : PairInv w ch) {w' : World} {ch' : Chan} (ht : Trans w ch w' ch') :
    PairInv w' ch' := by
  cases ht with
  | stay f => exact ⟨hi.chans, hi.ok, hi.paired, hi.served.same rfl rfl rfl rfl, hi.atPc⟩
  | prepared io id hpc h => exact hi.prepared hpc h
  | submit ops hpc hnd h => exact hi.submit hpc hnd h
  | send id rest all hpc => exact hi.send hpc
  | marked all hpc => exact hi.marked hpc
  | poll min max retry hpc hcpl => exact hi.poll hpc hcpl
  | ready max hpc => exact hi.ready hpc
  | wait xs ys min max n m retry retry' r pc hpc hs2c hr hpc' => exact hi.wait hpc hs2c hr hpc'
  | reaped max hpc => exact hi.reaped hpc
  | claim id hpc hlt hst => exact hi.claim _ hpc hlt hst
  | destroyed io id hpc h => exact hi.destroyed hpc h
  | take xs ys hc2s => exact hi.take hc2s
  | refused x xs m code hb hm hcode => exact hi.refused hb hm
  | stored x xs m hb hm => exact hi.stored hb hm
  | complete i x m code hp hm hdata hcarry => exact hi.complete hp hm

/-- The channel keeps its link and its size. -/
theorem Trans.frame (hi : PairInv w ch) {w' : World} {ch' : Chan} (ht : Trans w ch w' ch') :
    w'.kind = w.kind ∧ ch'.link = ch.link ∧ ch'.io.queueDepth = ch.io.queueDepth ∧
      ch'.io.opCtxsBitmap.wordsLength = ch.io.opCtxsBitmap.wordsLength := by
  cases ht with
  | prepared io id hpc h => exact ⟨rfl, rfl, h.queueDepth, h.words⟩
  | marked all hpc =>
    dsimp only
    rw [markInProgress_frame]
    exact ⟨rfl, rfl, rfl, rfl⟩
  | wait xs ys min max n m retry retry' r pc hpc hs2c hr hpc' =>
    have hrecv := hi.received hpc hs2c
    rw [← hr] at hrecv
    exact ⟨rfl, hrecv.link, hrecv.queueDepth, hrecv.words⟩
  | destroyed io id hpc h => exact ⟨rfl, rfl, h.queueDepth, h.words⟩
  | _ => exact ⟨rfl, rfl, rfl, rfl⟩

end Client

/-- What is half submitted still waits. -/
theorem PairInv.submitted_waiting {w : World} {ch : Chan} {id : Nat} (hi : PairInv w ch)
    (h : w.pc.Submitted id) : (ch.io.opCtxs id).state = .waitingSubmit := by
  cases hpc : w.pc with
  | sending c rest all =>
    rw [hpc] at h
    obtain ⟨-, -, -, hall⟩ := atPc_sending hi hpc
    exact (hall id h.1).2
  | idle | polling | reaping =>
    rw [hpc] at h
    exact h.elim

section Flight
variable {w : World} {ch : Chan} {x : Sent}

theorem PairInv.slots_nodup (hi : PairInv w ch) : ((w.flight ch.link).map Sent.slot).Nodup := by
  have hnd := hi.paired.nodup
  rwa [List.map_map] at hnd

/-- A message on its way is of the operation in its slot. -/
theorem PairInv.slot_of_mem (hi : PairInv w ch) (hx : x ∈ w.flight ch.link) :
    Out w.pc ch x.slot ∧ (ch.io.opCtxs x.slot).state ≠ .new ∧ x.op = ch.op x.slot := by
  have hout : Out w.pc ch x.slot :=
    (hi.paired.out x.slot).mp (List.mem_map_of_mem (List.mem_map_of_mem hx))
  exact ⟨hout, hout.not_new fun hsub => hi.submitted_waiting hsub, (hi.paired.home_of_mem hx).op⟩

end Flight

/-- A world in which one channel has been opened. -/
theorem PairInv.start (kind : Kind) (l : Nat) (qd : BitVec 32) :
    PairInv (World.start kind [(l, qd)]) ⟨getIoChannel kind 0 qd, l, fun _ => 0⟩ where
  chans := rfl
  ok := by
    refine ⟨getIoChannel_slots kind 0 qd, fun id _ h => absurd rfl h, ?_⟩
    exact fun i _ j _ h => absurd rfl h
  paired := by
    refine ⟨List.nodup_nil, fun id => ⟨fun h => (nomatch h), fun h => ?_⟩, fun k hk => (nomatch hk)⟩
    rcases h.2 with h | h
    · exact OpState.noConfusion h
    · exact h.elim
  served := ⟨fun x hx => (nomatch hx), fun x hx => (nomatch hx), fun x hx => (nomatch hx), fun _ _ => rfl⟩
  atPc := trivial

/-- The world has one channel of the kind, link and depth that it was opened with. -/
structure Opened (kind : Kind) (l n : Nat) (w : World) (ch : Chan) : Prop where
  inv : PairInv w ch
  kind : w.kind = kind
  link : ch.link = l
  depth : ch.io.queueDepth = n
  words : ch.io.opCtxsBitmap.wordsLength = (bitmapConstructor (BitVec.ofNat 32 n)).wordsLength

/-- The depth that the channel gets. -/
def depthOf (qd : BitVec 32) : Nat := (if qd ≠ 0 then qd else ringMax).toNat

theorem Opened.start (kind : Kind) (l : Nat) (qd : BitVec 32) : Opened kind l (depthOf qd)
    (World.start kind [(l, qd)]) ⟨getIoChannel kind 0 qd, l, fun _ => 0⟩ where
  inv := PairInv.start kind l qd
  kind := rfl
  link := rfl
  depth := rfl
  words := by
    have hd : BitVec.ofNat 32 (depthOf qd) = if qd ≠ 0 then qd else ringMax := by
      rw [depthOf, BitVec.ofNat_toNat, BitVec.setWidth_eq]
    rw [hd]
    rfl

theorem Opened.step {h : Heap (List Byte)} {kind : Kind} {l depth : Nat} {w w' : World} {ch : Chan}
    {a : Act} (ho : Opened kind l depth w ch) (hroom : Room h w a) (hs : step h a w = some w') :
    ∃ ch', Trans w ch w' ch' ∧ Opened kind l depth w' ch' := by
  obtain ⟨ch', ht⟩ := step_trans ho.inv hroom hs
  obtain ⟨hk, hl, hd, hw⟩ := ht.frame ho.inv
  exact ⟨ch', ht, ho.inv.trans ht, hk.trans ho.kind, hl.trans ho.link, hd.trans ho.depth,
    hw.trans ho.words⟩

theorem run_opened {h : Heap (List Byte)} {kind : Kind} {l : Nat} {qd : BitVec 32} {w : World}
    (hrun : Run (step h) (Room h) (World.start kind [(l, qd)]) w) :
    ∃ ch, Opened kind l (depthOf qd) w ch := by
  induction hrun with
  | start => exact ⟨_, Opened.start kind l qd⟩
  | next a _ hroom hs ih =>
    obtain ⟨ch, ho⟩ := ih
    obtain ⟨ch', -, ho'⟩ := ho.step hroom hs
    exact ⟨ch', ho'⟩

end ZCell.Liboss
