import ZCell.Vdisk

/-! What a thread owes the block layer: every I/O that it has been given is completed once, or can be
found in the channel; the poller and the server between them complete all that is left. -/
namespace ZCell.Bdev
open Bytes Messager Server Liboss Runs

/-- The operations that have been completed. -/
def Group.completedOps (g : Group) : List Nat := g.completed.filterMap Completion.op

/-- The poller has completed it with the status that the server answered. -/
def AsAnswered (g : Group) (c : Completion) (op : Nat) : Prop :=
  (∃ s ∈ g.issued, s.op = op ∧ s.bio = c.bio) ∧ ∃ type code len,
    Obs.answered op type code len ∈ g.world.log ∧ (c.status = .success ↔ BitVec.ofInt 8 code = 0)

/-- What holds between the events of a group whose channel is `ch`. -/
structure Kept (core : Nat) (g : Group) (ch : Chan) : Prop where
  sound : Healthy core 512 g.world ch
  idle : g.world.pc = .idle
  none_left : ch.io.cplNr = 0
  cpls_nodup : g.cpls.Nodup
  cpls : ∀ id < 512, (ch.io.opCtxs id).state = .completed ↔ id ∈ g.cpls
  cpls_lt : ∀ id ∈ g.cpls, id < 512
  inUse : ∀ id ∈ ch.outstanding,
    (ch.io.opCtxs id).state = .inProgress ∨ (ch.io.opCtxs id).state = .completed
  account : (g.completed.map Completion.bio ++ g.waiting.map Prod.fst ++
    ch.outstanding.map g.userData).Perm g.given
  owner : ∀ id ∈ ch.outstanding, ∃ s ∈ g.issued, s.op = ch.op id ∧ s.bio = g.userData id
  known : ∀ s ∈ g.issued, s.op < g.world.nextOp
  polled : ∀ c ∈ g.completed, ∀ op ∈ c.op, AsAnswered g c op
  once : g.completedOps.Nodup
  gone : ∀ id ∈ ch.outstanding, ch.op id ∉ g.completedOps
  requests : ∀ x ∈ g.world.requests core, ∃ s ∈ g.issued, s.op = x.op ∧ Addressed s.io s.payload x.msg

/-- How far the operations are from their completions. -/
def Group.load (g : Group) (core : Nat) : Nat :=
  5 * (g.world.c2s core).length + 4 * (g.world.batch core).length + 3 * (g.world.pending core).length +
    2 * (g.world.s2c core).length + g.cpls.length

section Kept
variable {h : Heap (List Byte)} {core : Nat} {g g' : Group} {ch ch' : Chan} {w : World} {bio : BitVec 64}

theorem start_kept (core : Nat) :
    Kept core (Group.start core) ⟨getIoChannel .ipc 0 512, core, fun _ => 0⟩ := by
  have hnew : ∀ id, ((getIoChannel .ipc 0 512).opCtxs id).state = .new := fun _ => rfl
  have hnone : Chan.outstanding ⟨getIoChannel .ipc 0 512, core, fun _ => 0⟩ = [] :=
    List.filter_eq_nil_iff.mpr fun id _ hne => of_decide_eq_true hne (hnew id)
  have hempty : ∀ id ∈ Chan.outstanding ⟨getIoChannel .ipc 0 512, core, fun _ => 0⟩, False := by
    intro id hid
    rw [hnone] at hid
    exact List.not_mem_nil hid
  exact {
    sound := ⟨Opened.start .ipc core 512, Book.start .ipc core 512, rfl, by decide, by decide⟩
    idle := rfl
    none_left := rfl
    cpls_nodup := List.nodup_nil
    cpls := fun id _ => iff_of_false (fun hst => OpState.noConfusion ((hnew id).symm.trans hst))
      List.not_mem_nil
    cpls_lt := fun id hid => absurd hid List.not_mem_nil
    inUse := fun id hid => (hempty id hid).elim
    account := by
      rw [hnone]
      exact .refl _
    owner := fun id hid => (hempty id hid).elim
    known := fun s hs => absurd hs List.not_mem_nil
    polled := fun c hc => absurd hc List.not_mem_nil
    once := List.nodup_nil
    gone := fun id hid => (hempty id hid).elim
    requests := fun x hx => absurd hx List.not_mem_nil }

/-- I/Os that never reach the channel are completed at once or begin to wait. -/
theorem Kept.recount (hk : Kept core g ch) {more : List Completion} {waiting : List (BitVec 64 × Bool)}
    {given : List (BitVec 64)} (hmore : ∀ c ∈ more, c.op = none)
    (hcount : ((g.completed ++ more).map Completion.bio ++ waiting.map Prod.fst ++
      ch.outstanding.map g.userData).Perm given) :
    Kept core { g with completed := g.completed ++ more, waiting := waiting, given := given } ch := by
  have hops : Group.completedOps { g with
      completed := g.completed ++ more, waiting := waiting, given := given } = g.completedOps := by
    have hnone : more.filterMap Completion.op = [] := List.filterMap_eq_nil_iff.mpr hmore
    simp [Group.completedOps, hnone]
  exact {
    sound := hk.sound
    idle := hk.idle
    none_left := hk.none_left
    cpls_nodup := hk.cpls_nodup
    cpls := hk.cpls
    cpls_lt := hk.cpls_lt
    inUse := hk.inUse
    account := hcount
    owner := hk.owner
    known := hk.known
    polled := fun c hc op hop => by
      obtain hc | hc := List.mem_append.mp hc
      · exact hk.polled c hc op hop
      · rw [hmore c hc] at hop
        cases hop
    once := by
      rw [hops]
      exact hk.once
    gone := by
      rw [hops]
      exact hk.gone
    requests := hk.requests }

theorem Kept.submitRequest (hk : Kept core g ch) (bio : BitVec 64) (type : IoType) :
    Kept core (g.submitRequest bio type) ch := by
  have hacc := hk.account
  have hwait : ∀ b, Kept core { g with
      completed := g.completed ++ [], waiting := g.waiting ++ [(bio, b)], given := g.given ++ [bio] } ch := by
    intro b
    apply hk.recount (fun c hc => absurd hc List.not_mem_nil)
    rw [List.perm_iff_count] at hacc ⊢
    intro x
    have hx := hacc x
    simp only [List.append_nil, List.map_append, List.count_append, List.map_cons, List.map_nil] at hx ⊢
    omega
  have hdone : ∀ st, Kept core { g with
      completed := g.completed ++ [⟨bio, st, none⟩], given := g.given ++ [bio] } ch := by
    intro st
    apply hk.recount (fun c hc => by rw [List.mem_singleton.mp hc])
    rw [List.perm_iff_count] at hacc ⊢
    intro x
    have hx := hacc x
    simp only [List.map_append, List.count_append, List.map_cons, List.map_nil] at hx ⊢
    omega
  have hnil := List.append_nil g.completed
  cases type with
  | read =>
    have hw := hwait true
    rwa [hnil] at hw
  | write =>
    have hw := hwait false
    rwa [hnil] at hw
  | flush | reset => exact hdone .success
  | other => exact hdone .failed

theorem Kept.depth (hk : Kept core g ch) : ch.io.queueDepth = 512 := hk.sound.opened.depth

theorem Kept.at_zero (hk : Kept core g ch) : g.world.chans[0]? = some ch := by
  rw [hk.sound.chans]
  rfl

theorem Kept.outstanding (hk : Kept core g ch) : g.outstanding = ch.outstanding := by
  rw [Group.outstanding, hk.at_zero]
  rfl

theorem submitted_other {id i op : Nat} {m : Msg} (hi : i ≠ id) :
    (ch.submitted id m op).io.opCtxs i = ch.io.opCtxs i := by
  rw [Chan.submitted, markInProgress_opCtxs, if_neg (fun hin => hi (List.mem_singleton.mp hin))]
  exact Function.update_of_ne hi ..

theorem submitted_self {id op : Nat} {m : Msg} :
    ((ch.submitted id m op).io.opCtxs id).state = .inProgress := by
  rw [Chan.submitted, markInProgress_opCtxs, if_pos (List.mem_singleton_self id)]

theorem submitted_outstanding {id op : Nat} {m : Msg} (hlt : id < ch.io.queueDepth)
    (hnew : (ch.io.opCtxs id).state = .new) :
    (ch.submitted id m op).outstanding.Perm (id :: ch.outstanding) := by
  apply outstanding_cons _ hlt hnew _ fun i hi => submitted_other hi
  · rw [Chan.submitted, markInProgress_frame]
    rfl
  · rw [submitted_self]
    exact OpState.noConfusion

/-- An I/O that waited becomes an operation in a free slot, with its request in the ring. -/
theorem Kept.issued (hk : Kept core g ch) (disk : ZcellDisk) {io : BdevIo} {payload : List Byte} {id : Nat}
    {m : Msg} {waiting : List (BitVec 64 × Bool)} {isRead : Bool}
    (hwait : g.waiting.Perm ((bio, isRead) :: waiting)) (hlt : id < 512)
    (hnew : (ch.io.opCtxs id).state = .new) (hm : Addressed io payload m)
    (hsound : Healthy core 512 (g.world.submitted ch id m) (ch.submitted id m g.world.nextOp)) :
    Kept core { g with
      world := g.world.submitted ch id m
      userData := Function.update g.userData id bio
      waiting := waiting
      issued := g.issued ++ [⟨g.world.nextOp, bio, disk, io, payload⟩] }
      (ch.submitted id m g.world.nextOp) := by
  have hlt' : id < ch.io.queueDepth := hlt.trans_eq hk.depth.symm
  have hnot : id ∉ ch.outstanding := fun hin => (mem_outstanding.mp hin).2 hnew
  have hself : ((ch.submitted id m g.world.nextOp).io.opCtxs id).state = .inProgress := submitted_self
  have hother : ∀ i, i ≠ id → (ch.submitted id m g.world.nextOp).io.opCtxs i = ch.io.opCtxs i :=
    fun i hi => submitted_other hi
  have hperm : (ch.submitted id m g.world.nextOp).outstanding.Perm (id :: ch.outstanding) :=
    submitted_outstanding hlt' hnew
  have hops : ∀ i ∈ ch.outstanding, i ≠ id ∧ (ch.submitted id m g.world.nextOp).op i = ch.op i := by
    intro i hi
    have hne : i ≠ id := fun he => hnot (he ▸ hi)
    exact ⟨hne, Function.update_of_ne hne ..⟩
  have hop : (ch.submitted id m g.world.nextOp).op id = g.world.nextOp := Function.update_self ..
  exact {
    sound := hsound
    idle := hk.idle
    none_left := by
      rw [Chan.submitted, markInProgress_frame]
      exact hk.none_left
    cpls_nodup := hk.cpls_nodup
    cpls := fun i hi => by
      by_cases he : i = id
      · have hno : id ∉ g.cpls := fun hin => by
          have hst := (hk.cpls id hlt).mpr hin
          rw [hnew] at hst
          cases hst
        subst he
        rw [hself]
        exact iff_of_false (fun hst => OpState.noConfusion hst) hno
      · rw [hother i he]
        exact hk.cpls i hi
    cpls_lt := hk.cpls_lt
    inUse := fun i hi => by
      obtain rfl | hi := List.mem_cons.mp (hperm.mem_iff.mp hi)
      · exact Or.inl hself
      · rw [hother i (hops i hi).1]
        exact hk.inUse i hi
    account := by
      have hacc := hk.account
      have hmap : (id :: ch.outstanding).map (Function.update g.userData id bio) =
          bio :: ch.outstanding.map g.userData := by
        rw [List.map_cons, Function.update_self]
        congr 1
        exact List.map_congr_left fun i hi => Function.update_of_ne (hops i hi).1 ..
      have hnow := hperm.map (Function.update g.userData id bio)
      rw [hmap] at hnow
      have hwas := hwait.map Prod.fst
      rw [List.perm_iff_count] at hacc hnow hwas ⊢
      intro x
      have hx := hacc x
      have hx' := hnow x
      have hx'' := hwas x
      simp only [List.count_append, List.map_cons, List.count_cons] at hx hx' hx'' ⊢
      omega
    owner := fun i hi => by
      obtain rfl | hi := List.mem_cons.mp (hperm.mem_iff.mp hi)
      · exact ⟨_, List.mem_append_right _ (List.mem_singleton_self _), hop.symm,
          (Function.update_self i bio g.userData).symm⟩
      · obtain ⟨s, hs, hsop, hsbio⟩ := hk.owner i hi
        obtain ⟨hne, hiop⟩ := hops i hi
        refine ⟨s, List.mem_append_left _ hs, hsop.trans hiop.symm, hsbio.trans ?_⟩
        exact (Function.update_of_ne hne ..).symm
    known := fun s hs => by
      obtain hs | hs := List.mem_append.mp hs
      · exact Nat.lt_succ_of_lt (hk.known s hs)
      · rw [List.mem_singleton.mp hs]
        exact Nat.lt_succ_self _
    polled := fun c hc op hop' => by
      obtain ⟨⟨s, hs, hsop⟩, hans⟩ := hk.polled c hc op hop'
      exact ⟨⟨s, List.mem_append_left _ hs, hsop⟩, hans⟩
    once := hk.once
    gone := fun i hi => by
      obtain rfl | hi := List.mem_cons.mp (hperm.mem_iff.mp hi)
      · rw [hop]
        intro hin
        obtain ⟨c, hc, hcop⟩ := List.mem_filterMap.mp hin
        obtain ⟨⟨s, hs, hsop, -⟩, -⟩ := hk.polled c hc _ hcop
        have hlt := hk.known s hs
        omega
      · rw [(hops i hi).2]
        exact hk.gone i hi
    requests := fun x hx => by
      have hlink := hk.sound.opened.link
      simp only [World.requests, World.submitted, hlink, Function.update_self, List.mem_append,
        List.mem_singleton] at hx
      obtain (hx | rfl) | hx := hx
      · obtain ⟨s, hs, hrest⟩ := hk.requests x (List.mem_append_left _ hx)
        exact ⟨s, List.mem_append_left _ hs, hrest⟩
      · exact ⟨_, List.mem_append_right _ (List.mem_singleton_self _), rfl, hm⟩
      · obtain ⟨s, hs, hrest⟩ := hk.requests x (List.mem_append_right _ hx)
        exact ⟨s, List.mem_append_left _ hs, hrest⟩ }

/-- The ring is emptied, and its operations are the next to complete. -/
theorem Kept.reported (hk : Kept core g ch) (hnil : g.cpls = []) {xs : List Sent} {log : List Obs}
    (hsound : Healthy core 512 { g.world with
      chans := [ch']
      s2c := Function.update g.world.s2c ch.link []
      log := g.world.log ++ log } ch') (hr : Reported ch ch' xs) :
    Kept core { g with
      world := { g.world with
        chans := [ch']
        s2c := Function.update g.world.s2c ch.link []
        log := g.world.log ++ log }
      cpls := xs.map Sent.slot } ch' := by
  have hdepth : ch'.io.queueDepth = ch.io.queueDepth := hsound.opened.depth.trans hk.depth.symm
  have hused : ∀ id, (ch'.io.opCtxs id).state ≠ .new ↔ (ch.io.opCtxs id).state ≠ .new := by
    intro id
    by_cases hid : id ∈ xs.map Sent.slot
    · obtain ⟨-, hwas, hnow⟩ := hr.done id hid
      rw [hwas, hnow]
      exact iff_of_true (fun he => OpState.noConfusion he) fun he => OpState.noConfusion he
    · rw [hr.other id hid]
  have hout : ch'.outstanding = ch.outstanding := by
    rw [Chan.outstanding, Chan.outstanding, hdepth]
    exact List.filter_congr fun id _ => decide_eq_decide.mpr (hused id)
  have hnone : ∀ id < 512, (ch.io.opCtxs id).state ≠ .completed := by
    intro id hid hst
    have hin := (hk.cpls id hid).mp hst
    rw [hnil] at hin
    cases hin
  exact {
    sound := hsound
    idle := hk.idle
    none_left := hr.none_left
    cpls_nodup := hr.nodup
    cpls := fun id hid => by
      by_cases hin : id ∈ xs.map Sent.slot
      · exact iff_of_true (hr.done id hin).2.2 hin
      · rw [hr.other id hin]
        exact iff_of_false (hnone id hid) hin
    cpls_lt := fun id hid => (hr.done id hid).1.trans_eq hk.depth
    inUse := fun id hid => by
      rw [hout] at hid
      by_cases hin : id ∈ xs.map Sent.slot
      · exact Or.inr (hr.done id hin).2.2
      · rw [hr.other id hin]
        exact hk.inUse id hid
    account := by
      rw [hout]
      exact hk.account
    owner := by
      rw [hout, hr.op]
      exact hk.owner
    known := hk.known
    polled := fun c hc op hop => by
      obtain ⟨hs, type, code, len, hlog, hst⟩ := hk.polled c hc op hop
      exact ⟨hs, type, code, len, List.mem_append_left _ hlog, hst⟩
    once := hk.once
    gone := by
      rw [hout, hr.op]
      exact hk.gone
    requests := hk.requests }

/-- The server does something. -/
theorem Kept.beside (hk : Kept core g ch) (hb : Beside core g.world w) (hsound : Healthy core 512 w ch) :
    Kept core { g with world := w } ch where
  sound := hsound
  idle := hb.pc.trans hk.idle
  none_left := hk.none_left
  cpls_nodup := hk.cpls_nodup
  cpls := hk.cpls
  cpls_lt := hk.cpls_lt
  inUse := hk.inUse
  account := hk.account
  owner := hk.owner
  known := by
    dsimp only
    rw [hb.nextOp]
    exact hk.known
  polled c hc op hop := by
    obtain ⟨hs, type, code, len, hlog, hst⟩ := hk.polled c hc op hop
    exact ⟨hs, type, code, len, hb.log.subset hlog, hst⟩
  once := hk.once
  gone := hk.gone
  requests x hx := by
    obtain ⟨y, hy, hop, hhdr, hmeta, hdata⟩ := hb.requests x hx
    obtain ⟨s, hs, hsop, ha⟩ := hk.requests y hy
    exact ⟨s, hs, hsop.trans hop.symm, by rw [hhdr]; exact ha.type, hmeta.trans ha.args,
      hdata.trans ha.data⟩

/-- The status that the poller gives is a success exactly if the server's is. -/
theorem status_success {hdr : MsgHdr} {code : Int} (hstatus : hdr.status = (BitVec.ofInt 8 code).toNat) :
    (if hdr.status ≠ 0 then IoStatus.failed else .success) = .success ↔ BitVec.ofInt 8 code = 0 := by
  have hzero : hdr.status = 0 ↔ BitVec.ofInt 8 code = 0 := by
    rw [hstatus]
    exact BitVec.toNat_inj (y := 0)
  rw [← hzero]
  split
  · rename_i hne
    exact iff_of_false (fun he => IoStatus.noConfusion he) hne
  · rename_i hz
    exact iff_of_true rfl (not_not.mp hz)

/-- The poller completes the next operation. -/
theorem Kept.next (hk : Kept core g ch) {id : Nat} {cpls : List Nat} (hcpls : g.cpls = id :: cpls) :
    ∃ g' ch', g.pollNext h = some g' ∧ Kept core g' ch' ∧ g'.load core < g.load core ∧
      g'.waiting = g.waiting ∧ g'.given = g.given := by
  have hnodup := hk.cpls_nodup
  rw [hcpls, List.nodup_cons] at hnodup
  have hmem : id ∈ g.cpls := hcpls ▸ List.mem_cons_self ..
  have hlt : id < 512 := hk.cpls_lt id hmem
  have hst : (ch.io.opCtxs id).state = .completed := (hk.cpls id hlt).mpr hmem
  have hlt' : id < ch.io.queueDepth := hlt.trans_eq hk.depth.symm
  have hin : id ∈ ch.outstanding := mem_outstanding.mpr ⟨hlt', by
    rw [hst]
    exact fun he => OpState.noConfusion he⟩
  obtain ⟨hcalls, hsound⟩ := hk.sound.finishes (h := h) hk.idle hlt hst
  let hdr := (ch.io.opCtxs id).requestAndResponse.header
  let ch' : Chan := { ch with io := (ch.io.setState id .ended).freed id }
  let log := g.world.log ++ [.claimed (ch.op id) hdr.status hdr.type hdr.dataLength]
  let c : Completion := ⟨g.userData id, if hdr.status ≠ 0 then .failed else .success, some (ch.op id)⟩
  let g' : Group := { g with
    world := { g.world with chans := [ch'], log := log }
    cpls := cpls
    completed := g.completed ++ [c] }
  have hself : (ch'.io.opCtxs id).state = .new := by
    simp [ch', IoChannel.freed]
  have hother : ∀ i, i ≠ id → ch'.io.opCtxs i = ch.io.opCtxs i := by
    intro i hi
    simp only [ch', IoChannel.freed]
    rw [setState_other _ _ hi, setState_other _ _ hi]
  have hperm : ch.outstanding.Perm (id :: ch'.outstanding) := by
    refine outstanding_cons rfl hlt' hself ?_ fun i hi => (hother i hi).symm
    rw [hst]
    exact fun he => OpState.noConfusion he
  have hold : ∀ i ∈ ch'.outstanding, i ∈ ch.outstanding ∧ i ≠ id := by
    intro i hi
    refine ⟨hperm.mem_iff.mpr (List.mem_cons_of_mem _ hi), fun he => ?_⟩
    exact (mem_outstanding.mp hi).2 (he ▸ hself)
  have hops : g'.completedOps = g.completedOps ++ [ch.op id] := by
    simp [g', Group.completedOps, c]
  have hpolled : AsAnswered g' c (ch.op id) := by
    obtain ⟨s, hs, hsop, hsbio⟩ := hk.owner id hin
    obtain ⟨code, hans, hstatus⟩ := hsound.book.claimed (ch.op id) hdr.status hdr.type hdr.dataLength
      (List.mem_append_right _ (List.mem_singleton_self _))
    exact ⟨⟨s, hs, hsop, hsbio⟩, hdr.type, code, hdr.dataLength, hans, status_success hstatus⟩
  have hload : g'.load core < g.load core := by
    simp only [g', Group.load, hcpls, List.length_cons]
    omega
  refine ⟨g', ch', ?_, ?_, hload, rfl, rfl⟩
  · have hclaim : opClaimResult ch.io id = (0, ch.io.setState id .ended, some
        ⟨hdr.status, hdr.type, (ch.io.opCtxs id).requestAndResponse.dataBuffer, hdr.dataLength⟩) := by
      rw [opClaimResult, if_pos ⟨hlt', hst⟩]
    simp only [Group.pollNext, hcpls, hk.at_zero, Option.bind_some, hclaim, hcalls, Option.map_some]
    rfl
  · exact {
      sound := hsound
      idle := hk.idle
      none_left := hk.none_left
      cpls_nodup := hnodup.2
      cpls := fun i hi => by
        by_cases he : i = id
        · subst he
          rw [hself]
          exact iff_of_false (fun hst => OpState.noConfusion hst) hnodup.1
        · rw [hother i he, hk.cpls i hi, hcpls, List.mem_cons]
          exact or_iff_right he
      cpls_lt := fun i hi => hk.cpls_lt i (hcpls ▸ List.mem_cons_of_mem _ hi)
      inUse := fun i hi => by
        obtain ⟨hi, he⟩ := hold i hi
        rw [hother i he]
        exact hk.inUse i hi
      account := by
        have hacc := hk.account
        have hnow := hperm.map g.userData
        rw [List.perm_iff_count] at hacc hnow ⊢
        intro x
        have hx := hacc x
        have hx' := hnow x
        simp only [g', c, List.count_append, List.map_append, List.map_cons, List.map_nil,
          List.count_cons, List.count_nil] at hx hx' ⊢
        omega
      owner := fun i hi => hk.owner i (hold i hi).1
      known := hk.known
      polled := fun c' hc' op hop => by
        obtain hc' | hc' := List.mem_append.mp hc'
        · obtain ⟨hs, type, code, len, hlog, hst⟩ := hk.polled c' hc' op hop
          exact ⟨hs, type, code, len, List.mem_append_left _ hlog, hst⟩
        · obtain rfl := List.mem_singleton.mp hc'
          obtain rfl := Option.some.inj hop
          exact hpolled
      once := by
        rw [hops]
        refine List.nodup_append.mpr ⟨hk.once, List.nodup_singleton _, fun a ha b hb he => ?_⟩
        rw [List.mem_singleton.mp hb] at he
        exact hk.gone id hin (he ▸ ha)
      gone := fun i hi => by
        obtain ⟨hi, he⟩ := hold i hi
        rw [hops, List.mem_append, not_or, List.mem_singleton]
        refine ⟨hk.gone i hi, fun hop => he ?_⟩
        -- operations in use have numbers of their own
        have hi' := mem_outstanding.mp hi
        have hid' := mem_outstanding.mp hin
        exact hk.sound.opened.inv.ok.distinct i hi'.1 id hid'.1 hi'.2 hid'.2 hop
      requests := hk.requests }

theorem groupStep_act {a : BdevAct} (hs : groupStep h a g = some g') : g.act h a = some g' := by
  unfold groupStep at hs
  split at hs
  · cases hs
  · exact hs

theorem groupStep_of_act {a : BdevAct} (hk : Kept core g ch) (ha : g.act h a = some g') :
    groupStep h a g = some g' := by
  rw [groupStep, hk.sound.fault]
  exact ha

/-- An I/O that waits gets no buffer. -/
theorem Kept.noBuffer {disk : ZcellDisk} {io : BdevIo} {payload : List Byte} (hk : Kept core g ch)
    (hs : g.getBufCb h bio disk io payload false = some g') : Kept core g' ch := by
  unfold Group.getBufCb at hs
  split at hs
  · rename_i hmem
    have hwait := List.perm_cons_erase hmem
    obtain rfl := Option.some.inj hs
    apply hk.recount (fun c hc => by rw [List.mem_singleton.mp hc])
    have hacc := hk.account
    have hwas := hwait.map Prod.fst
    rw [List.perm_iff_count] at hacc hwas ⊢
    intro x
    have hx := hacc x
    have hx' := hwas x
    simp only [List.map_append, List.count_append, List.map_cons, List.map_nil, List.count_cons,
      List.count_nil] at hx hx' ⊢
    omega
  · cases hs

section Buffer
variable {cs : List (Bool × BitVec 32)} {disk : ZcellDisk} {io : BdevIo} {payload : List Byte}

/-- A buffer in several pieces. -/
theorem scattered_faults (hmany : 1 < io.iovcnt) (hmem : (bio, io.isRead) ∈ g.waiting) :
    ∃ g', g.getBufCb h bio disk io payload true = some g' ∧ g'.world.fault = some .assertion := by
  rw [Group.getBufCb, if_pos hmem]
  dsimp only
  rw [getBufCb_scattered hmany]
  exact ⟨_, rfl, rfl⟩

/-- A buffer in one piece, and no slot. -/
theorem Kept.full_faults (hk : Kept core g ch) (hd : disk ∈ (created cs).disks) (hin : Inside disk io)
    (hone : io.iovcnt ≤ 1) (hbase : io.iovBase ≠ 0) (hfull : ch.outstanding.length = 512)
    (hmem : (bio, io.isRead) ∈ g.waiting) :
    ∃ g', g.getBufCb h bio disk io payload true = some g' ∧ g'.world.fault = some .assertion := by
  obtain ⟨c, hcb, -, hstripe, -⟩ := getBufCb_submits hd hin hone hbase
  have hslots := hk.sound.opened.inv.ok.slots
  rw [Group.getBufCb, if_pos hmem]
  dsimp only
  rw [hcb]
  dsimp only [Group.issue]
  rw [hstripe, hk.at_zero, Option.bind_some]
  obtain ⟨hn, -⟩ | ⟨id, -, -, -, hroom⟩ := hk.sound.search
  · rw [call_none hslots.words hslots.hint hn]
    exact ⟨_, rfl, rfl⟩
  · omega

/-- A buffer in one piece, and a slot for it. -/
theorem Kept.fits (hk : Kept core g ch) (hd : disk ∈ (created cs).disks) (hin : Inside disk io)
    (hone : io.iovcnt ≤ 1) (hbase : io.iovBase ≠ 0) (hroom : ch.outstanding.length ≠ 512)
    (hmem : (bio, io.isRead) ∈ g.waiting) :
    ∃ g' ch', g.getBufCb h bio disk io payload true = some g' ∧ Kept core g' ch' ∧
      ch'.outstanding.length = ch.outstanding.length + 1 := by
  have hwait := List.perm_cons_erase hmem
  obtain ⟨c, hcb, hread, hstripe, hobj, hoff, hlen, hbuf⟩ := getBufCb_submits hd hin hone hbase
  have hslots := hk.sound.opened.inv.ok.slots
  obtain ⟨-, hfull⟩ | ⟨id, hn, hlt, hnew, -⟩ := hk.sound.search
  · exact absurd hfull hroom
  · have hlt' : id < ch.io.queueDepth := hlt.trans_eq hk.depth.symm
    obtain ⟨m, hcall, hm⟩ : ∃ m, ioCall ch.io (c.call payload) = .ok ((id : Int), ch.io.prepared id m) ∧
        Addressed io payload m :=
      call_addressed hread hobj hoff hlen hbuf hslots.words hslots.hint hn (by omega) hlt'
    obtain ⟨w1, hcalls, hpc, hsend, hsound⟩ := hk.sound.submits (h := h) hk.idle hlt hcall
    have hneg : ¬ (id : Int) < 0 := by omega
    refine ⟨_, _, ?_, hk.issued disk hwait hlt hnew hm hsound, ?_⟩
    · rw [Group.getBufCb, if_pos hmem]
      dsimp only
      rw [hcb]
      dsimp only [Group.issue]
      rw [hstripe, hk.at_zero, Option.bind_some]
      simp only [hcall, if_neg hneg, Int.toNat_natCast, hcalls, Option.bind_some, if_neg hpc, hsend,
        Option.map_some]
    · exact (submitted_outstanding hlt' hnew).length_eq

/-- The callback for an I/O that waits. -/
theorem Kept.getBuf {success : Bool} (hk : Kept core g ch) (hd : disk ∈ (created cs).disks)
    (hin : Inside disk io) (hbase : success = true → io.iovBase ≠ 0)
    (hs : g.getBufCb h bio disk io payload success = some g') :
    ¬ (success = true ∧ (1 < io.iovcnt ∨ ch.outstanding.length = 512)) ∧ (∃ ch', Kept core g' ch') ∨
      (success = true ∧ (1 < io.iovcnt ∨ ch.outstanding.length = 512)) ∧
        g'.world.fault = some .assertion := by
  cases success with
  | false => exact Or.inl ⟨fun hno => Bool.noConfusion hno.1, ch, hk.noBuffer hs⟩
  | true =>
    have hmem : (bio, io.isRead) ∈ g.waiting := by
      by_contra hno
      rw [Group.getBufCb, if_neg hno] at hs
      cases hs
    obtain hmany | hone := Nat.lt_or_ge 1 io.iovcnt
    · obtain ⟨g1, hs', hf⟩ := scattered_faults hmany hmem
      obtain rfl := Option.some.inj (hs'.symm.trans hs)
      exact Or.inr ⟨⟨rfl, Or.inl hmany⟩, hf⟩
    · by_cases hfull : ch.outstanding.length = 512
      · obtain ⟨g1, hs', hf⟩ := hk.full_faults hd hin hone (hbase rfl) hfull hmem
        obtain rfl := Option.some.inj (hs'.symm.trans hs)
        exact Or.inr ⟨⟨rfl, Or.inr hfull⟩, hf⟩
      · obtain ⟨g1, ch', hs', hk', -⟩ := hk.fits hd hin hone (hbase rfl) hfull hmem
        obtain rfl := Option.some.inj (hs'.symm.trans hs)
        exact Or.inl ⟨fun hno => hno.2.elim (Nat.not_lt_of_le hone) hfull, ch', hk'⟩

end Buffer

/-- A buffer comes in several pieces, or for one I/O more than the channel has slots. -/
def Overruns (g : Group) : BdevAct → Prop
  | .getBuf _ _ io _ success => success = true ∧ (1 < io.iovcnt ∨ g.outstanding.length = 512)
  | _ => False

instance (g : Group) (a : BdevAct) : Decidable (Overruns g a) :=
  match a with
  | .getBuf .. => inferInstanceAs (Decidable (_ ∧ _))
  | .submit .. | .poll .. | .next | .take .. | .handle .. | .answer .. => isFalse id

theorem Kept.event {cs : List (Bool × BitVec 32)} {a : BdevAct} (hk : Kept core g ch)
    (hb : Buffered (created cs).disks g a) (hs : groupStep h a g = some g') :
    ¬ Overruns g a ∧ (∃ ch', Kept core g' ch') ∨ Overruns g a ∧ g'.world.fault = some .assertion := by
  have ha := groupStep_act hs
  cases a with
  | submit bio type =>
    obtain rfl := Option.some.inj ha
    exact Or.inl ⟨id, ch, hk.submitRequest bio type⟩
  | getBuf bio disk io payload success =>
    obtain ⟨hd, hin, hbase⟩ := hb
    simp only [Overruns, hk.outstanding]
    exact hk.getBuf hd hin hbase ha
  | poll j =>
    simp only [Group.act, Group.groupPoll] at ha
    split at ha
    · rename_i hnil
      obtain ⟨ch', log, hpolls, hsound, hr⟩ := hk.sound.polls (h := h) hk.idle hk.none_left
        (show _ ≤ maxEventsPerPoll by decide)
      rw [hpolls] at ha
      split at ha
      · obtain rfl := Option.some.inj ha
        exact Or.inl ⟨id, ch', hk.reported hnil hsound hr⟩
      · cases ha
    · cases ha
  | next =>
    simp only [Group.act] at ha
    cases hcpls : g.cpls with
    | nil =>
      rw [Group.pollNext, hcpls] at ha
      cases ha
    | cons id cpls =>
      obtain ⟨g1, ch', hnext, hk', -⟩ := hk.next (h := h) hcpls
      obtain rfl := Option.some.inj (hnext.symm.trans ha)
      exact Or.inl ⟨fun hno => hno, ch', hk'⟩
  | take l j =>
    obtain ⟨w, hw, rfl⟩ := Option.map_eq_some_iff.mp ha
    have hbeside := take_beside (l := core) hk.sound.opened.kind hw
    exact Or.inl ⟨id, ch, hk.beside hbeside (hbeside.sound (a := .take l j) hk.sound trivial hw)⟩
  | handle l rc =>
    obtain ⟨w, hw, rfl⟩ := Option.map_eq_some_iff.mp ha
    have hbeside := handle_beside (l := core) hw
    exact Or.inl ⟨id, ch, hk.beside hbeside (hbeside.sound (a := .handle l rc) hk.sound trivial hw)⟩
  | answer l i code =>
    obtain ⟨w, hw, rfl⟩ := Option.map_eq_some_iff.mp ha
    have hbeside := complete_beside (l := core) hw
    have hsound := hbeside.sound (a := .complete l i code) hk.sound trivial hw
    exact Or.inl ⟨id, ch, hk.beside hbeside hsound⟩

end Kept

/-- Every I/O of the group has been completed once, waits for a buffer, or is an operation of the
channel; no assertion has failed; a completion by the poller has the status that the server answered
for its operation; and every request that is on its way to the server, or that the server has taken
and not looked at yet, is of an I/O, at its address. -/
structure Accounted (core : Nat) (g : Group) : Prop where
  noFault : g.world.fault = none
  account : (g.completed.map Completion.bio ++ g.waiting.map Prod.fst ++
    g.outstanding.map g.userData).Perm g.given
  polled : ∀ c ∈ g.completed, ∀ op ∈ c.op, AsAnswered g c op
  once : g.completedOps.Nodup
  requests : ∀ x ∈ g.world.requests core, ∃ s ∈ g.issued, s.op = x.op ∧ Addressed s.io s.payload x.msg

section Runs
variable {h : Heap (List Byte)} {core : Nat} {cs : List (Bool × BitVec 32)} {g g' : Group} {a : BdevAct}

theorem run_kept (hrun : Run (groupStep h) (Buffered (created cs).disks) (Group.start core) g) :
    (∃ ch, Kept core g ch) ∨ g.world.fault = some .assertion := by
  induction hrun with
  | start => exact Or.inl ⟨_, start_kept core⟩
  | next a _ hb hs ih =>
    obtain ⟨ch, hk⟩ | hf := ih
    · obtain ⟨-, hk'⟩ | ⟨-, hf⟩ := hk.event hb hs
      · exact Or.inl hk'
      · exact Or.inr hf
    · rw [groupStep, hf] at hs
      cases hs

/-- An event fails an assertion exactly if it gives the channel its 513th I/O, or one whose buffer
is in several pieces. -/
theorem run_faults_iff (h : Heap (List Byte)) (core : Nat) (cs : List (Bool × BitVec 32)) (g g' : Group)
    (a : BdevAct) (hrun : Run (groupStep h) (Buffered (created cs).disks) (Group.start core) g)
    (hb : Buffered (created cs).disks g a) (hs : groupStep h a g = some g') :
    g'.world.fault.isSome ↔ Overruns g a := by
  obtain ⟨ch, hk⟩ | hf := run_kept hrun
  · obtain ⟨hno, ch', hk'⟩ | ⟨hover, hf⟩ := hk.event hb hs
    · rw [hk'.sound.fault]
      exact iff_of_false (by decide) hno
    · rw [hf]
      exact iff_of_true rfl hover
  · rw [groupStep, hf] at hs
    cases hs

/-- A disk of 1 GiB, and I/Os of one block there. -/
def gibDisk : ZcellDisk := .ofSize 0 1
def oneRead : BdevIo := ⟨true, 1025, 1, 1, 0x1000⟩
def oneWrite : BdevIo := ⟨false, 3, 1, 1, 0x2000⟩

/-- Reads that the server has not looked at yet: each takes a slot while there is one. -/
theorem oneReads_kept (n : Nat) (hn : n ≤ 512) :
    ∃ g ch, Run (groupStep byteHeap) (Buffered (created [(true, 1)]).disks) (Group.start 0) g ∧
      Kept 0 g ch ∧ ch.outstanding.length = n := by
  induction n with
  | zero =>
    refine ⟨_, _, .start, start_kept 0, List.length_eq_zero_iff.mpr ?_⟩
    exact List.filter_eq_nil_iff.mpr fun id _ hne => of_decide_eq_true hne rfl
  | succ n ih =>
    obtain ⟨g, ch, hrun, hk, hlen⟩ := ih (by omega)
    have hs : groupStep byteHeap (.submit 0x20 .read) g = some (g.submitRequest 0x20 .read) :=
      groupStep_of_act hk rfl
    have hk1 := hk.submitRequest 0x20 .read
    have hd : gibDisk ∈ (created [(true, 1)]).disks := by decide
    have hin : Inside gibDisk oneRead := by decide
    have hmem : (0x20, oneRead.isRead) ∈ (g.submitRequest 0x20 .read).waiting :=
      List.mem_append_right _ (List.mem_singleton_self _)
    obtain ⟨g2, ch2, hs2, hk2, hlen2⟩ : ∃ g' ch', (g.submitRequest 0x20 .read).getBufCb byteHeap 0x20
        gibDisk oneRead [] true = some g' ∧ Kept 0 g' ch' ∧
        ch'.outstanding.length = ch.outstanding.length + 1 :=
      hk1.fits hd hin (by decide) (by decide) (by omega) hmem
    have hb : Buffered (created [(true, 1)]).disks (g.submitRequest 0x20 .read)
        (.getBuf 0x20 gibDisk oneRead [] true) := ⟨hd, hin, fun _ => by decide⟩
    refine ⟨g2, ch2, ?_, hk2, by omega⟩
    exact (hrun.next (BdevAct.submit 0x20 .read) trivial hs).next _ hb (groupStep_of_act hk1 hs2)

/-- The channel takes 512 reads, and the 513th fails the assertion. -/
theorem fullChannel_faults : ∃ g g', g.outstanding.length = 512 ∧
    groupStep byteHeap (.getBuf 0x20 gibDisk oneRead [] true) g = some g' ∧
    g'.world.fault.isSome := by
  obtain ⟨g, ch, hrun, hk, hlen⟩ := oneReads_kept 512 (by decide)
  have hs : groupStep byteHeap (.submit 0x20 .read) g = some (g.submitRequest 0x20 .read) :=
    groupStep_of_act hk rfl
  have hk1 := hk.submitRequest 0x20 .read
  have hd : gibDisk ∈ (created [(true, 1)]).disks := by decide
  have hin : Inside gibDisk oneRead := by decide
  have hmem : (0x20, oneRead.isRead) ∈ (g.submitRequest 0x20 .read).waiting :=
    List.mem_append_right _ (List.mem_singleton_self _)
  obtain ⟨g', hs', -⟩ : ∃ g', (g.submitRequest 0x20 .read).getBufCb byteHeap 0x20 gibDisk oneRead [] true =
      some g' ∧ g'.world.fault = some .assertion :=
    hk1.full_faults hd hin (by decide) (by decide) hlen hmem
  have hstep : groupStep byteHeap (.getBuf 0x20 gibDisk oneRead [] true) (g.submitRequest 0x20 .read) =
      some g' := groupStep_of_act hk1 hs'
  have hfull : (g.submitRequest 0x20 .read).outstanding.length = 512 := by
    rw [hk1.outstanding]
    exact hlen
  have hb : Buffered (created [(true, 1)]).disks (g.submitRequest 0x20 .read)
      (.getBuf 0x20 gibDisk oneRead [] true) := ⟨hd, hin, fun _ => by decide⟩
  have hiff := run_faults_iff byteHeap 0 [(true, 1)] _ g' _ (hrun.next (BdevAct.submit 0x20 .read) trivial hs) hb hstep
  exact ⟨_, g', hfull, hstep, hiff.mpr ⟨rfl, Or.inr hfull⟩⟩

/-- Where the block layer never has more than 512 I/Os at the channel, and no buffer is scattered. -/
theorem run_accounted (h : Heap (List Byte)) (core : Nat) (cs : List (Bool × BitVec 32)) (g : Group)
    (hrun : Run (groupStep h) (fun g a => Buffered (created cs).disks g a ∧ ¬ Overruns g a)
      (Group.start core) g) : Accounted core g := by
  have hkept : ∃ ch, Kept core g ch := by
    induction hrun with
    | start => exact ⟨_, start_kept core⟩
    | next a _ hb hs ih =>
      obtain ⟨ch, hk⟩ := ih
      obtain ⟨-, hk'⟩ | ⟨hover, -⟩ := hk.event hb.1 hs
      · exact hk'
      · exact absurd hover hb.2
  obtain ⟨ch, hk⟩ := hkept
  refine ⟨hk.sound.fault, ?_, hk.polled, hk.once, hk.requests⟩
  rw [hk.outstanding]
  exact hk.account

/-- A flush is completed at once, a read fails at the server, and a write is still with it. -/
theorem threeIos_accounted : ∃ g, g.completed = [⟨0x30, .success, none⟩, ⟨0x20, .failed, some 0⟩] ∧
    g.outstanding = [1] ∧ Accounted 0 g := by
  have hsteps : (runActs (groupStep byteHeap)
      (fun g a => Buffered (created [(true, 1)]).disks g a ∧ ¬ Overruns g a)
      [.submit 0x10 .write, .submit 0x20 .read, .submit 0x30 .flush,
        .getBuf 0x20 gibDisk oneRead [] true,
        .getBuf 0x10 gibDisk oneWrite [1, 2, 3] true,
        .take 0 2, .handle 0 0, .answer 0 0 (-2), .poll 1, .next] (Group.start 0)).map
      (fun g => decide (g.completed = [⟨0x30, .success, none⟩, ⟨0x20, .failed, some 0⟩] ∧
        g.outstanding = [1])) = some true := by
    decide +kernel
  obtain ⟨g, hg, hend⟩ := Option.map_eq_some_iff.mp hsteps
  obtain ⟨h1, h2⟩ := of_decide_eq_true hend
  exact ⟨g, h1, h2, run_accounted byteHeap 0 [(true, 1)] g (run_of_runActs .start hg)⟩

end Runs

/-- What the poller and the server do of themselves. -/
def BdevAct.Drains : BdevAct → Prop
  | .submit .. | .getBuf .. => False
  | _ => True

instance (a : BdevAct) : Decidable a.Drains :=
  match a with
  | .submit .. | .getBuf .. => isFalse id
  | .poll .. | .next | .take .. | .handle .. | .answer .. => isTrue trivial

section Drain
variable {h : Heap (List Byte)} {core : Nat} {g : Group} {ch : Chan} {w : World}

/-- The operations in progress say how many messages there are. -/
theorem flight_length {l depth : Nat} {w' : World} (hs : Healthy l depth w ch) (hs' : Healthy l depth w' ch)
    (hpc : w'.pc = w.pc) : (w'.flight l).length = (w.flight l).length := by
  have hp := hs.opened.inv.paired
  have hp' := hs'.opened.inv.paired
  rw [hs.opened.link] at hp
  rw [hs'.opened.link, hpc] at hp'
  have hperm := (List.perm_ext_iff_of_nodup hp'.nodup hp.nodup).mpr fun id =>
    (hp'.out id).trans (hp.out id).symm
  have hlen := hperm.length_eq
  simpa only [List.length_map] using hlen

/-- An operation of the channel has a message, or is about to complete. -/
theorem Kept.idle_empty (hk : Kept core g ch) (hload : g.load core = 0) : ch.outstanding = [] := by
  have hfl : g.world.flight core = [] := by
    simp only [Group.load] at hload
    simp only [World.flight, List.append_eq_nil_iff]
    refine ⟨⟨⟨?_, ?_⟩, ?_⟩, ?_⟩ <;> apply List.eq_nil_of_length_eq_zero <;> omega
  have hcpls : g.cpls = [] := by
    apply List.eq_nil_of_length_eq_zero
    simp only [Group.load] at hload
    omega
  refine List.eq_nil_iff_forall_not_mem.mpr fun id hid => ?_
  have hlt := (mem_outstanding.mp hid).1
  obtain hst | hst := hk.inUse id hid
  · have hout := (hk.sound.opened.inv.paired.out id).mpr ⟨hlt, Or.inl hst⟩
    rw [hk.sound.opened.link, hfl] at hout
    exact List.not_mem_nil hout
  · have hin := (hk.cpls id (hlt.trans_eq hk.depth)).mp hst
    rw [hcpls] at hin
    exact List.not_mem_nil hin

/-- Of the group, the load alone has become less. -/
structure Less (core : Nat) (g g' : Group) : Prop where
  load : g'.load core < g.load core
  waiting : g'.waiting = g.waiting
  given : g'.given = g.given

/-- The poller finds messages. -/
theorem Kept.pollSome (hk : Kept core g ch) (hnil : g.cpls = []) (hmore : g.world.s2c core ≠ []) :
    ∃ g' ch', groupStep h (.poll (g.world.s2c core).length) g = some g' ∧ Kept core g' ch' ∧
      Less core g g' := by
  have hlink := hk.sound.opened.link
  obtain ⟨ch', log, hpolls, hsound, hr⟩ := hk.sound.polls (h := h) hk.idle hk.none_left
    (show _ ≤ maxEventsPerPoll by decide)
  have hpos := List.length_pos_of_ne_nil hmore
  refine ⟨_, ch', groupStep_of_act hk ?_, hk.reported hnil hsound hr, ?_, rfl, rfl⟩
  · rw [Group.act, Group.groupPoll, if_pos hnil, hpolls, hlink, if_pos rfl]
    rfl
  · simp only [Group.load, hlink, Function.update_self, List.length_map, hnil, List.length_nil]
    omega

/-- The server answers what its store has worked on. -/
theorem Kept.answerOne (hk : Kept core g ch) (hnil : g.cpls = []) (hs2c : g.world.s2c core = [])
    (hmore : g.world.pending core ≠ []) :
    ∃ g', groupStep h (.answer core 0 0) g = some g' ∧ Kept core g' ch ∧ Less core g g' := by
  cases hp : g.world.pending core with
  | nil => exact absurd hp hmore
  | cons x xs =>
    have hstep : step h (.complete core 0 0) g.world = some (World.complete g.world core 0 x 0) := by
      apply step_of_act hk.sound.fault
      simp only [World.act, hp, List.getElem?_cons_zero, Option.map_some]
    have hbeside := complete_beside (l := core) hstep
    have hsound := hbeside.sound (a := .complete core 0 0) hk.sound trivial hstep
    have hlen := flight_length hk.sound hsound hbeside.pc
    refine ⟨_, groupStep_of_act hk ?_, hk.beside hbeside hsound, ?_, rfl, rfl⟩
    · rw [Group.act, hstep]
      rfl
    · obtain ⟨s2c, log, he, -⟩ := answer_frame { g.world with
        pending := Function.update g.world.pending core ((g.world.pending core).eraseIdx 0) } x 0
          (ossOpCb x.msg 0)
      rw [World.complete, he] at hlen ⊢
      simp only [World.flight, List.length_append, Function.update_self, hp, hs2c, List.eraseIdx_cons_zero,
        List.length_cons, List.length_nil] at hlen
      simp only [Group.load, Function.update_self, hp, hs2c, hnil, List.eraseIdx_cons_zero,
        List.length_cons, List.length_nil]
      omega

/-- The server handles a request. -/
theorem Kept.handleOne (hk : Kept core g ch) (hnil : g.cpls = []) (hs2c : g.world.s2c core = [])
    (hp : g.world.pending core = []) (hmore : g.world.batch core ≠ []) :
    ∃ g', groupStep h (.handle core 0) g = some g' ∧ Kept core g' ch ∧ Less core g g' := by
  cases hb : g.world.batch core with
  | nil => exact absurd hb hmore
  | cons x xs =>
    have hstep : step h (.handle core 0) g.world = some (World.handle h g.world core x xs 0) := by
      apply step_of_act hk.sound.fault
      simp only [World.act, hb]
    have hbeside := handle_beside (l := core) hstep
    have hsound := hbeside.sound (a := .handle core 0) hk.sound trivial hstep
    have hlen := flight_length hk.sound hsound hbeside.pc
    refine ⟨_, groupStep_of_act hk ?_, hk.beside hbeside hsound, ?_, rfl, rfl⟩
    · rw [Group.act, hstep]
      rfl
    · unfold World.handle at hlen ⊢
      dsimp only at hlen ⊢
      generalize onRecvMessage h 0 x.msg = r at hlen ⊢
      obtain ⟨s2c, log, he, -⟩ := answer_frame { g.world with
        batch := Function.update g.world.batch core xs
        pending := Function.update g.world.pending core
          (g.world.pending core ++ r.2.toList.map fun m => { x with msg := m }) } x
            (World.refusal h 0 x.msg) r.1
      rw [he] at hlen ⊢
      simp only [World.flight, List.length_append, Function.update_self, hp, hb, hs2c,
        List.length_cons, List.length_nil] at hlen
      simp only [Group.load, Function.update_self, hp, hb, hs2c, hnil, List.length_append,
        List.length_cons, List.length_nil]
      omega

/-- The server takes what is in the ring. -/
theorem Kept.takeAll (hk : Kept core g ch) (hmore : g.world.c2s core ≠ []) :
    ∃ g', groupStep h (.take core (g.world.c2s core).length) g = some g' ∧ Kept core g' ch ∧
      Less core g g' := by
  have hkind := hk.sound.opened.kind
  have hpos := List.length_pos_of_ne_nil hmore
  have hstep : step h (.take core (g.world.c2s core).length) g.world =
      some (g.world.take core (g.world.c2s core).length) := by
    apply step_of_act hk.sound.fault
    have htakes : Takes g.world.kind (g.world.c2s core) (g.world.c2s core).length :=
      ⟨Nat.le_refl _, fun _ => rfl⟩
    simp only [World.act, if_pos htakes]
  have hbeside := take_beside (l := core) hkind hstep
  have hsound := hbeside.sound (a := .take core _) hk.sound trivial hstep
  refine ⟨_, groupStep_of_act hk ?_, hk.beside hbeside hsound, ?_, rfl, rfl⟩
  · rw [Group.act, hstep]
    rfl
  · simp only [Group.load, World.take, World.arrive, Function.update_self, List.take_length, List.drop_length,
      List.length_append, List.length_map, List.length_nil]
    omega

/-- Something is left to do: the poller completes or polls, or the server answers, handles or takes. -/
theorem Kept.progress (hk : Kept core g ch) (hload : g.load core ≠ 0) :
    ∃ a g' ch', a.Drains ∧ groupStep h a g = some g' ∧ Kept core g' ch' ∧ Less core g g' := by
  by_cases hnil : g.cpls = []
  · by_cases hs2c : g.world.s2c core = []
    · by_cases hp : g.world.pending core = []
      · by_cases hb : g.world.batch core = []
        · have hmore : g.world.c2s core ≠ [] := by
            intro hc
            apply hload
            simp only [Group.load, hnil, hs2c, hp, hb, hc, List.length_nil]
          obtain ⟨g', hs, hk', hless⟩ := hk.takeAll (h := h) hmore
          exact ⟨.take _ _, g', ch, trivial, hs, hk', hless⟩
        · obtain ⟨g', hs, hk', hless⟩ := hk.handleOne (h := h) hnil hs2c hp hb
          exact ⟨.handle _ _, g', ch, trivial, hs, hk', hless⟩
      · obtain ⟨g', hs, hk', hless⟩ := hk.answerOne (h := h) hnil hs2c hp
        exact ⟨.answer _ _ _, g', ch, trivial, hs, hk', hless⟩
    · obtain ⟨g', ch', hs, hk', hless⟩ := hk.pollSome (h := h) hnil hs2c
      exact ⟨.poll _, g', ch', trivial, hs, hk', hless⟩
  · obtain ⟨id, cpls, hcpls⟩ := List.exists_cons_of_ne_nil hnil
    obtain ⟨g', ch', hs, hk', hless, hwait, hgiven⟩ := hk.next (h := h) hcpls
    exact ⟨.next, g', ch', trivial, groupStep_of_act hk hs, hk', hless, hwait, hgiven⟩

/-- Until nothing is left. -/
theorem Kept.drained (hk : Kept core g ch) : ∃ g' ch', Run (groupStep h) (fun _ a => a.Drains) g g' ∧
    Kept core g' ch' ∧ g'.load core = 0 ∧ g'.waiting = g.waiting ∧ g'.given = g.given := by
  have hstep : ∀ g', (∃ ch', Kept core g' ch') ∧ g'.waiting = g.waiting ∧ g'.given = g.given →
      g'.load core ≠ 0 → ∃ a g'', a.Drains ∧ groupStep h a g' = some g'' ∧
        ((∃ ch', Kept core g'' ch') ∧ g''.waiting = g.waiting ∧ g''.given = g.given) ∧
        g''.load core < g'.load core := by
    intro g' hg' hne
    obtain ⟨⟨ch', hk'⟩, hwait, hgiven⟩ := hg'
    obtain ⟨a, g'', ch'', ha, hs, hk'', hless⟩ := hk'.progress (h := h) hne
    exact ⟨a, g'', ha, hs, ⟨⟨ch'', hk''⟩, hless.waiting.trans hwait, hless.given.trans hgiven⟩,
      hless.load⟩
  obtain ⟨g', hrun, ⟨⟨ch', hk'⟩, hwait, hgiven⟩, hload⟩ :=
    Run.unload (fun g : Group => g.load core) hstep ⟨⟨ch, hk⟩, rfl, rfl⟩
  exact ⟨g', ch', hrun, hk', hload, hwait, hgiven⟩

end Drain

/-- From wherever a thread has come to without a failed assertion, its poller and the server can go
on until no operation is left: then each I/O has been completed once, or still waits for a buffer. -/
theorem run_drains (h : Heap (List Byte)) (core : Nat) (cs : List (Bool × BitVec 32)) (g : Group)
    (hrun : Run (groupStep h) (Buffered (created cs).disks) (Group.start core) g)
    (hf : g.world.fault = none) :
    ∃ g', Run (groupStep h) (fun _ a => a.Drains) g g' ∧ g'.outstanding = [] ∧
      (g'.completed.map Completion.bio ++ g.waiting.map Prod.fst).Perm g.given := by
  obtain ⟨ch, hk⟩ | hfault := run_kept hrun
  · obtain ⟨g', ch', hrun', hk', hload, hwait, hgiven⟩ := hk.drained (h := h)
    have hempty := hk'.idle_empty hload
    refine ⟨g', hrun', hk'.outstanding.trans hempty, ?_⟩
    have hacc := hk'.account
    rwa [hempty, List.map_nil, List.append_nil, hwait, hgiven] at hacc
  · rw [hf] at hfault
    cases hfault

/-- A read and a write whose requests are in the ring. -/
theorem twoIos_drain : ∃ g g', g.outstanding = [0, 1] ∧ g'.outstanding = [] ∧
    Run (groupStep byteHeap) (fun _ a => a.Drains) g g' := by
  have hsteps : (runActs (groupStep byteHeap) (Buffered (created [(true, 1)]).disks)
      [.submit 0x10 .write, .submit 0x20 .read,
        .getBuf 0x20 gibDisk oneRead [] true,
        .getBuf 0x10 gibDisk oneWrite [1, 2, 3] true] (Group.start 0)).map
      (fun g => decide (g.outstanding = [0, 1] ∧ g.world.fault = none)) = some true := by
    decide +kernel
  obtain ⟨g, hg, hend⟩ := Option.map_eq_some_iff.mp hsteps
  obtain ⟨h1, hf⟩ := of_decide_eq_true hend
  obtain ⟨g', hrun, hnone, -⟩ := run_drains byteHeap 0 [(true, 1)] g (run_of_runActs .start hg) hf
  exact ⟨g, g', h1, hnone, hrun⟩

end ZCell.Bdev
