import ZCell.Placement

/-! Read after write: a request that finds the store idle enters with its data where it belongs, and
a read brings back what was last written. -/
namespace ZCell.Store
open Bytes Persist Pm Allocator Runs

section Enter
variable {env : Env} {h : Host} {w w' : World} {a : Act} {r : Request} {zs : ZstoreContext}
  {tx : ZstoreTransaction}

theorem Accepts.onode (hf : Formatted w.zs) (ha : Accepts r w w' zs tx) :
    w'.zs.onode = w.zs.onode := by
  have hmem : w'.zs.mem = w.zs.mem ∧ w'.zs.otable = w.zs.otable := by
    obtain ⟨_, hr, n, l, hzs⟩ | ⟨hacc, n, hzs⟩ := ha.kind
    · rw [hzs, hr.store]
      exact ⟨rfl, rfl⟩
    · obtain ⟨_, _, hot, _, _, hmem⟩ := hacc.formatted hf
      rw [hzs]
      exact ⟨hmem, hot⟩
  exact funext (onode_congr hmem.1 hmem.2)

/-- The new transaction is the only one, and all bios in flight are its own. -/
structure Enters (env : Env) (h : Host) (a : Act) (r : Request) (w' : World)
    (tx : ZstoreTransaction) : Prop where
  self : w'.tx h.w.zs.tidMax = tx
  request : tx.request = r
  before : w'.before h.w.zs.tidMax = h.w.zs
  accepted : h.w.zs.tidMax ∈ w'.accepted
  alone : ∀ u, w'.Live u → u = h.w.zs.tidMax
  still : h.moved a = (h.disk, h.ram)
  flight : w'.flight =
    submitBios (env.submit h.w.zs.tidMax) h.w.zs.tidMax 0 tx.dataBuffer tx.bios
  buffer : r.op = .read ∨ r.op = .write → tx.dataBuffer = r.dataBuffer
  waits : tx.bioOutstanding = tx.bios.length

theorem HostInv.enters (hi : HostInv env h) (hstep : step env a h.w = some w')
    (ha : Accepts r h.w w' zs tx) (hidle : h.w.zs.txList = [] ∧ h.w.zs.txRdonlyList = []) :
    Enters env h a r w' tx := by
  have hw := hi.flights.fifo.wf
  have hself : w'.tx h.w.zs.tidMax = tx := ha.tx_self
  have hreq : tx.request = r := ha.request
  have hnone : ∀ u, ¬ h.w.Live u := by
    intro u hu
    rw [World.Live, hidle.1, hidle.2] at hu
    exact hu.elim List.not_mem_nil List.not_mem_nil
  have hnil : h.w.flight = [] := by
    rw [List.eq_nil_iff_forall_not_mem]
    exact fun f hf => hnone f.tid (hi.flights.flight_live hf)
  have hin := ha.mem_accepted
  have hwaits : tx.bioOutstanding = tx.bios.length := by
    obtain ⟨_, hr, _⟩ | ⟨hacc, _⟩ := ha.kind
    · exact hr.outstanding
    · cases hacc with
      | write _ h => exact h.bios_length
      | create _ h => rw [h.tx.outstanding, h.tx.bios, List.length_nil]
      | delete _ h => rw [h.tx.outstanding, h.tx.bios, List.length_nil]
  obtain ⟨k, f, _, hk, _⟩ | ⟨hdone, ⟨_, hacc⟩ | hs⟩ := step_flight hw hstep
  · rw [hnil] at hk
    cases hk
  · rw [hacc] at hin
    exact absurd (hi.flights.fifo.logged.1 _ hin) (Nat.lt_irrefl _)
  · have hfl := hs.flight
    have hbuf := hs.dataBuffer
    rw [hself, hnil, List.nil_append] at hfl
    rw [hself, hreq] at hbuf
    refine ⟨hself, hreq, ha.before_self, hin, fun u hu => ?_, ?_, hfl, hbuf,
      hwaits⟩
    · obtain hu | ⟨hu, _⟩ := hi.flights.live_step hstep hu
      · exact absurd hu (hnone u)
      · exact hu
    · rw [Host.moved, hdone]

/-- The bios are pieces of the buffer, and unless one was refused they are all of it. -/
theorem Enters.submitted (he : Enters env h a r w' tx) {l : List Extent} {ty : IoType}
    (hop : r.op = .read ∨ r.op = .write) (hbios : tx.bios = l.map (Bio.ofExtent ty))
    (hmoved : w'.movedBlocks h.w.zs.tidMax = blocks l)
    (hlba : ∀ e ∈ l, e.lba < 2 ^ 32 ∧ e.len < 2 ^ 32)
    (hend : r.dataBuffer.toNat + zstorePageSize * (blocks l).length < 2 ^ 64) :
    (∀ f ∈ w'.flight, f.tid = h.w.zs.tidMax ∧ f.bio.ioType = ty ∧
      ∃ s, f.Moves (w'.movedBlocks h.w.zs.tidMax) (w'.base h.w.zs.tidMax) s) ∧
    ∀ disk ram, w'.queue.Whole h.w.zs.tidMax → Synced (w'.movedBlocks h.w.zs.tidMax)
      (w'.base h.w.zs.tidMax) w'.flight disk ram := by
  have hbase : w'.base h.w.zs.tidMax = r.dataBuffer.toNat := by
    rw [World.base, he.self, he.request]
  have hfl := he.flight
  rw [he.buffer hop, hbios] at hfl
  obtain ⟨h1, h2⟩ := @submit_moves (blocks l) r.dataBuffer.toNat (env.submit h.w.zs.tidMax)
    h.w.zs.tidMax ty l hlba 0 0 r.dataBuffer (fun i _ => by rw [Nat.zero_add]) rfl hend
  rw [hmoved, hbase]
  constructor
  · intro f hf
    rw [hfl] at hf
    exact ⟨(mem_submitBios hf).1, h1 f hf⟩
  · intro disk ram hw p b hp
    obtain ⟨m, htids, _, _⟩ := submitBios_tids (env.submit h.w.zs.tidMax) h.w.zs.tidMax
      (l.map (Bio.ofExtent ty)) 0 r.dataBuffer
    rw [← hfl] at htids h2
    have hcount : w'.flight.length = l.length := by
      have hm : w'.flight.length = m := by
        have hlen := congrArg List.length htids
        rwa [List.length_map, List.length_replicate] at hlen
      have hout : (w'.queue.item h.w.zs.tidMax).bios = l.length := by
        simp only [World.queue, ZstoreTransaction.item, he.self, he.waits, hbios, List.length_map]
      have hq : w'.queue.flight.count h.w.zs.tidMax = m := by
        have htids' : w'.queue.flight = List.replicate m h.w.zs.tidMax := htids
        rw [htids', List.count_replicate_self]
      unfold TxQueue.Whole at hw
      omega
    obtain ⟨hlt, _⟩ := List.getElem?_eq_some_iff.mp hp
    have hpend := h2 hcount p hlt
    rw [Nat.zero_add] at hpend
    exact Or.inl hpend

/-- The host when the request has been accepted. -/
def Host.enter (h : Host) (w' : World) (r : Request) (got : Nat → Image) : Host where
  w := w'
  disk := h.disk
  ram := h.ram
  last := h.record r
  want := Function.update h.want h.w.zs.tidMax fun j => h.last r.object (r.bofst + j)
  got := got

/-- With nothing queued the history is on the device. -/
theorem HostInv.recorded (hi : HostInv env h) (hnil : h.w.zs.txList = []) {o j : Nat} {v : List Byte}
    (hv : h.last o j = some v) : ∃ b, MapsTo h.w.zs (o, j) b ∧ blockAt h.disk b = v := by
  refine hi.data.kept o j v hv fun t ht => ?_
  rw [hnil] at ht
  cases ht

/-- A read expects the history of its range, which is on the device. -/
theorem HostInv.dataRead (hi : HostInv env h) (ha : Accepts r h.w w' zs tx)
    (he : Enters env h a r w' tx) (hfit : CallFits h.w r) (hop : r.op = .read)
    (hr : ReadOk h.w.zs r zs tx) (got : Nat → Image) :
    (∀ f ∈ w'.flight, Serves w' f) ∧ DataInv (h.enter w' r got) w'.flight := by
  have hf := hi.flights.fifo.wf.formatted
  have hreq : (w'.tx h.w.zs.tidMax).request = r := by rw [he.self, he.request]
  have hmoved : w'.movedBlocks h.w.zs.tidMax = blocks (objectLbaMergeTo (readRange h.w.zs r)).1 := by
    rw [World.movedBlocks, hreq, hop, he.before, blocks_merge]
    rfl
  have hlen : (blocks (objectLbaMergeTo (readRange h.w.zs r)).1).length ≤ r.blen := by
    rw [blocks_merge]
    exact fetched_length_le ..
  have hmax := hr.blen_le
  have hsize : zstorePageSize * r.blen ≤ r.len.toNat := Nat.mul_div_le ..
  have hroom := hfit.buffer (Or.inl hop)
  obtain ⟨hmoves, hsync⟩ := he.submitted (Or.inl hop) hr.bios hmoved (fun e hmem => by
      obtain ⟨v, _, _, hv⟩ := mem_mapped.mp (merge_lba _ e hmem)
      have hle := extent_len_le hmem
      have hlt := v.isLt
      exact ⟨by omega, by omega⟩) (by
      unfold zstorePageSize at *
      omega)
  have hzs : w'.zs.pm = h.w.zs.pm ∧ w'.zs.txList = [] := by
    obtain ⟨_, _, n, l, hzs⟩ | ⟨hacc, _⟩ := ha.kind
    · rw [hzs, hr.store]
      exact ⟨rfl, hfit.idle.1⟩
    · exact absurd hop hacc.request.2
  have hnone : ∀ u, u ∉ w'.zs.txList := by
    intro u hu
    rw [hzs.2] at hu
    cases hu
  have hoid := object_of_lt (hr.oid_lt hf)
  refine ⟨fun f hmem => ?_, fun u hu hw => ?_, fun u hu => absurd hu (hnone u),
    fun u hu => absurd hu (hnone u), fun o j v hv _ => ?_, fun u hu j hj v hv => ?_⟩
  · obtain ⟨htid, hty, hm⟩ := hmoves f hmem
    rw [← htid] at hm hreq
    exact ⟨Or.inl ⟨hty, by rw [hreq, hop]⟩, hm⟩
  · obtain rfl := he.alone u hu
    exact hsync _ _ hw
  · have hlast : h.last o j = some v := by
      simpa only [Host.enter, Host.record, hop] using hv
    obtain ⟨b, hm, hb⟩ := hi.recorded hfit.idle.1 hlast
    exact ⟨b, (mapsTo_congr (ha.onode hf) hzs.1 (o, j) b).mpr hm, hb⟩
  · obtain rfl := he.alone u (Or.inr hu)
    have hj' : j < r.blen := by
      have hj2 : j < (w'.tx h.w.zs.tidMax).request.blen := hj
      rwa [hreq] at hj2
    have hlast : h.last r.object (r.bofst + j) = some v := by
      simpa only [Host.enter, Function.update_self] using hv
    obtain ⟨b, hm, hb⟩ := hi.recorded hfit.idle.1 hlast
    refine ⟨b, ?_, hb⟩
    obtain ⟨_, _, h1, h2⟩ := hm
    simp only [hoid] at h1 h2
    have hget := fetched_word hf hj' h1
    rw [h2] at hget
    simpa only [Host.enter, hreq, he.before] using hget

/-- A write has its buffer in the history from now on, and takes blocks that nothing else is on. -/
theorem HostInv.dataWrite (hi : HostInv env h) (ha : Accepts r h.w w' zs tx)
    (he : Enters env h a r w' tx) (hfit : CallFits h.w r) (hop : r.op = .write)
    (hr : Written h.w.zs r zs tx) (got : Nat → Image) :
    (∀ f ∈ w'.flight, Serves w' f) ∧ DataInv (h.enter w' r got) w'.flight := by
  have hf := hi.flights.fifo.wf.formatted
  have hreq : (w'.tx h.w.zs.tidMax).request = r := by rw [he.self, he.request]
  have hbefore := he.before
  have hbios : tx.bios = (newExtents h.w.zs r).map (Bio.ofExtent .write) := by
    obtain ⟨u, hbios⟩ := hr.bios
    rw [hbios, writeBios, trimmed, if_neg (not_not.mpr hi.noTrim), List.map_nil, List.append_nil]
  have hmoved : w'.movedBlocks h.w.zs.tidMax = newBlocks h.w.zs r := by
    rw [World.movedBlocks, hreq, hop, hbefore]
  have hlen := newBlocks_length hr
  have hsize : zstorePageSize * r.blen ≤ r.len.toNat := Nat.mul_div_le ..
  have hroom := hfit.buffer (Or.inr hop)
  obtain ⟨hmoves, hsync⟩ := he.submitted (Or.inr hop) hbios hmoved (fun e hmem => by
      obtain ⟨h1, h2⟩ := hr.newBlock_lt hf e hmem
      exact ⟨by omega, by omega⟩) (by
      rw [newBlocks] at hlen
      rw [hlen]
      omega)
  have hpm : w'.zs.pm = h.w.zs.pm ∧ w'.zs.txRdonlyList = [] ∧ w'.zs.txList = [h.w.zs.tidMax] := by
    obtain ⟨hrd, _⟩ | ⟨_, n, hzs⟩ := ha.kind
    · rw [hop] at hrd
      cases hrd
    · rw [hzs, hr.store]
      exact ⟨rfl, hfit.idle.2, by simp [hfit.idle.1]⟩
  have hmaps := mapsTo_congr (ha.onode hf) hpm.1
  have hpass : ¬ Fails h.w.zs r := by
    rintro (hbad | hbad)
    · exact hr.checked hbad
    · exact hbad hr.room
  refine ⟨fun f hmem => ?_, fun u hu hw => ?_, fun u hu _ => ?_, fun u hu hne => ?_,
    fun o j v hv hcov => ?_, fun u hu => ?_⟩
  · obtain ⟨htid, hty, hm⟩ := hmoves f hmem
    rw [← htid] at hm hreq
    exact ⟨Or.inr ⟨hty, by rw [hreq, hop]⟩, hm⟩
  · obtain rfl := he.alone u hu
    exact hsync _ _ hw
  · obtain rfl := he.alone u (Or.inl hu)
    obtain ⟨hnd, hfree⟩ := hfit.fresh hop hpass
    constructor
    · simp only [Host.enter, hreq, ha.onode hf]
      exact hfit.created hop hpass
    · simp only [Host.enter, hbefore, ha.onode hf]
    · simp only [Host.enter, hreq, hbefore]
      exact hnd
    · simp only [Host.enter, hreq, hbefore, hmaps]
      exact hfree
    · simp only [Host.enter, hreq, World.base]
      intro p hp
      have hcov : r.Covers r.object (r.bofst + p) := ⟨hop, rfl, by omega, by omega⟩
      simp only [Host.record, hop, if_pos hcov, Nat.add_sub_cancel_left]
  · obtain rfl := he.alone u (Or.inl hu)
    simp only [Host.enter, hreq] at hne
    exact absurd hop hne
  · have hno : ¬ r.Covers o j := by
      have hc := hcov h.w.zs.tidMax (by
        simp only [Host.enter, hpm.2.2]
        exact List.mem_singleton_self _)
      simpa only [Host.enter, hreq] using hc
    have hlast : h.last o j = some v := by
      simpa only [Host.enter, Host.record, hop, if_neg hno] using hv
    obtain ⟨b, hm, hb⟩ := hi.recorded hfit.idle.1 hlast
    exact ⟨b, (hmaps (o, j) b).mpr hm, hb⟩
  · simp only [Host.enter, hpm.2.1] at hu
    cases hu

/-- The index block that a create initialises is not that of an object. -/
theorem HostInv.maps_changed (hi : HostInv env h) (hacc : Accepted h.w.zs r zs tx)
    (hfit : CallFits h.w r) (hop : r.op ≠ .write) {s : Nat × Nat} {b : Nat}
    (hm : MapsTo h.w.zs s b) :
    indexWord zs.pm (1024 * (h.w.zs.onode s.1).dataIdxId + s.2) =
      indexWord h.w.zs.pm (1024 * (h.w.zs.onode s.1).dataIdxId + s.2) := by
  cases hacc with
  | write hw _ => exact absurd hw hop
  | create hcr hc =>
    have hne := hfit.index hcr hc.invalid hc.room s.1 hm.1
    have hlt := hm.2.1
    rw [hc.indexWord_eq hi.flights.fifo.wf.formatted, if_neg (by omega)]
  | delete _ hd => rw [hd.store]

/-- A create or delete has nothing in the history of its object. -/
theorem HostInv.dataChange (hi : HostInv env h) (ha : Accepts r h.w w' zs tx)
    (he : Enters env h a r w' tx) (hfit : CallFits h.w r) (hop : r.op ≠ .write)
    (hacc : Accepted h.w.zs r zs tx) (hzs : ∃ n, w'.zs =
      { zs with txOutstanding := n, txList := zs.txList ++ [h.w.zs.tidMax] }) (got : Nat → Image) :
    (∀ f ∈ w'.flight, Serves w' f) ∧ DataInv (h.enter w' r got) w'.flight := by
  have hf := hi.flights.fifo.wf.formatted
  have hreq : (w'.tx h.w.zs.tidMax).request = r := by rw [he.self, he.request]
  have hkind : r.op = .create ∨ r.op = .delete := by
    cases hacc with
    | write h _ => exact absurd h hop
    | create h _ => exact Or.inl h
    | delete h _ => exact Or.inr h
  have hbios : tx.bios = [] := by
    cases hacc with
    | write h _ => exact absurd h hop
    | create _ h => exact h.tx.bios
    | delete _ h => exact h.tx.bios
  have hnil : w'.flight = [] := by rw [he.flight, hbios, submitBios]
  have hrecord : h.record r = Function.update h.last r.object fun _ => none := by
    obtain hk | hk := hkind
    · simp only [Host.record, hk]
    · simp only [Host.record, hk]
  have hreads : w'.zs.txRdonlyList = [] := by
    obtain ⟨n, hzs⟩ := hzs
    rw [hzs]
    exact hacc.entering.txRdonlyList.trans hfit.idle.2
  have hpm : w'.zs.pm = zs.pm := by
    obtain ⟨n, hzs⟩ := hzs
    rw [hzs]
  refine ⟨fun f hmem => ?_, fun u hu _ => ?_, fun u hu hw => ?_, fun u hu _ => ?_,
    fun o j v hv _ => ?_, fun u hu => ?_⟩
  · rw [hnil] at hmem
    cases hmem
  · obtain rfl := he.alone u hu
    have hmoved : w'.movedBlocks h.w.zs.tidMax = [] := by
      rw [World.movedBlocks, hreq]
      obtain hk | hk := hkind
      · rw [hk]
      · rw [hk]
    simp only [Host.enter, hmoved]
    intro p b hp
    cases hp
  · obtain rfl := he.alone u (Or.inl hu)
    simp only [Host.enter, hreq] at hw
    exact absurd hw hop
  · obtain rfl := he.alone u (Or.inl hu)
    constructor
    · intro j
      simp only [Host.enter, hreq, hrecord, Function.update_self]
    · simp only [Host.enter, hreq, he.before, ha.onode hf]
      intro hcr
      cases hacc with
      | write h _ => exact absurd h hop
      | create _ h => exact hfit.index hcr h.invalid h.room
      | delete h _ =>
        rw [hcr] at h
        cases h
  · have hne : o ≠ r.object := by
      rintro rfl
      simp only [Host.enter, hrecord, Function.update_self, reduceCtorEq] at hv
    have hlast : h.last o j = some v := by
      simpa only [Host.enter, hrecord, Function.update_of_ne hne] using hv
    obtain ⟨b, hm, hb⟩ := hi.recorded hfit.idle.1 hlast
    have hsame := hi.maps_changed hacc hfit hop hm
    rw [← hpm] at hsame
    exact ⟨b, hm.congr (congrFun (ha.onode hf) o) hsame, hb⟩
  · simp only [Host.enter, hreads] at hu
    cases hu

theorem HostInv.dataEnter (hi : HostInv env h) (ha : Accepts r h.w w' zs tx)
    (he : Enters env h a r w' tx) (hfit : CallFits h.w r) (got : Nat → Image) :
    (∀ f ∈ w'.flight, Serves w' f) ∧ DataInv (h.enter w' r got) w'.flight := by
  obtain ⟨hop, hr, _⟩ | ⟨hacc, hzs⟩ := ha.kind
  · exact hi.dataRead ha he hfit hop hr got
  · by_cases hop : r.op = .write
    · cases hacc with
      | write _ hr => exact hi.dataWrite ha he hfit hop hr got
      | create h _ =>
        rw [hop] at h
        cases h
      | delete h _ =>
        rw [hop] at h
        cases h
    · exact hi.dataChange ha he hfit hop hacc hzs got

end Enter

section Run
variable {env : Env} {h h' : Host} {w w' : World} {a : Act} {t : Nat}

theorem step_mntFlag (hw : WF w) (hstep : step env a w = some w') :
    w'.zs.mntFlag = w.zs.mntFlag := by
  obtain hq | ⟨r, _, ⟨rc, tx, hr⟩ | ⟨zs, tx, ha⟩⟩ | ⟨tid, p, hc⟩ := step_cases hw hstep
  · exact hq.zs.mntFlag
  · rw [(prepare_rejected hw.formatted.shift hr.rc_ne hr.prepare).frame]
  · obtain ⟨_, hr, n, l, hzs⟩ | ⟨hacc, n, hzs⟩ := ha.kind
    · rw [hzs, hr.store]
    · rw [hzs]
      cases hacc with
      | write _ h => rw [h.store]
      | create _ h => rw [h.store]
      | delete _ h => rw [h.store]
  · obtain ⟨n, hzs⟩ := hc.zs
    rw [hzs]

theorem IndexApart.congr {zs zs' : ZstoreContext} (hi : IndexApart zs)
    (hon : zs'.onode = zs.onode) : IndexApart zs' := by
  rw [IndexApart, hon]
  exact hi

theorem HostInv.index_step (hi : HostInv env h) (hstep : step env a h.w = some w') :
    IndexApart w'.zs := by
  have hw := hi.flights.fifo.wf
  obtain hq | ⟨r, _, ⟨rc, tx, hr⟩ | ⟨zs, tx, ha⟩⟩ | ⟨tid, p, hc⟩ := step_cases hw hstep
  · exact hi.index.congr (funext (onode_congr hq.zs.mem hq.zs.otable))
  · refine hi.index.congr ?_
    rw [(prepare_rejected hw.formatted.shift hr.rc_ne hr.prepare).frame]
    rfl
  · exact hi.index.congr (ha.onode hw.formatted)
  · exact hi.index_commit hc

/-- The read whose callback is new has got all of its blocks. -/
theorem HostInv.serve (hi : HostInv env h) (hstep : step env a h.w = some w')
    (hno : h.w.zs.tidMax ∉ w'.accepted)
    (hd : DataInv { h with disk := (h.moved a).1, ram := (h.moved a).2 } w'.flight)
    (hnew : .callback t ∈ w'.log) (hold : .callback t ∉ h.w.log)
    (hop : (h.w.tx t).request.op = .read) {j : Nat} (hj : j < (h.w.tx t).request.blen)
    {v : List Byte} (hv : h.want t j = some v) : pageAt (h.moved a).2 (h.w.base t) j = v := by
  have hq : TxQueue.Step env.Accepting h.w.queue w'.queue := by
    obtain hq | hq := step_transition hi.flights.fifo.wf hi.flights.fifo.queue hstep
    · have hlog : w'.log = h.w.log := congrArg TxQueue.log hq
      rw [hlog] at hnew
      exact absurd hnew hold
    · exact hq
  obtain ht | ⟨ht, hwhole, hout⟩ :=
    TxQueue.callback_step hi.flights.fifo.queue hq hnew hold
  · exact absurd hop (hi.flights.queued_op ht)
  · obtain ⟨b, hget, hb⟩ := hd.fetching t ht j hj v hv
    have hmoved : h.w.movedBlocks t = fetched (h.w.before t) (h.w.tx t).request := by
      rw [World.movedBlocks, hop]
    obtain ⟨f, hf, _⟩ | hsame := hd.synced t (Or.inr ht) hwhole j b (by rw [hmoved]; exact hget)
    · -- a bio still in flight would be one of this read
      have hflive := (hi.flights.step hstep).flight_live hf
      obtain hl | ⟨heq, hin⟩ := hi.flights.live_step hstep hflive
      · obtain rfl := hi.single t f.tid (Or.inr ht) hl
        exact absurd (List.mem_map_of_mem hf) hout
      · rw [heq] at hin
        exact absurd hin hno
    · exact hsame.trans hb

theorem HostInv.log_lt (hi : HostInv env h) (ht : .callback t ∈ h.w.log) : t < h.w.zs.tidMax :=
  hi.flights.fifo.queue.ledger.known _ ht

/-- A step that accepts nothing. -/
theorem HostInv.onward (hi : HostInv env h) (hstep : step env a h.w = some w')
    (hno : h.w.zs.tidMax ∉ w'.accepted) : HostInv env { h with
      w := w'
      disk := (h.moved a).1
      ram := (h.moved a).2
      got := fun t =>
        if .callback t ∈ w'.log ∧ .callback t ∉ h.w.log then (h.moved a).2 else h.got t } := by
  have hw := hi.flights.fifo.wf
  obtain ⟨hd, hd'⟩ := hi.dataStep hstep hno
  have hkeep := (step_keeps hw hstep).2
  have hlive : ∀ u, w'.Live u → h.w.Live u := by
    intro u hu
    obtain hu | ⟨rfl, hin⟩ := hi.flights.live_step hstep hu
    · exact hu
    · exact absurd hin hno
  refine ⟨hi.flights.step hstep, ?_, hi.index_step hstep,
    fun t u ht hu => hi.single t u (hlive t ht) (hlive u hu), fun f hf => ?_, ?_,
    fun t ht hop j hj v hv => ?_⟩
  · rw [step_mntFlag hw hstep]
    exact hi.noTrim
  · have hold : f ∈ h.w.flight := by
      obtain ⟨k, _, _, _, hfl⟩ | ⟨_, ⟨hfl, _⟩ | hs⟩ := step_flight hw hstep
      · rw [hfl] at hf
        exact List.mem_of_mem_eraseIdx hf
      · exact hfl ▸ hf
      · exact absurd hs.accepted hno
    obtain ⟨⟨h1, _⟩, h2, _⟩ := hkeep f.tid (hi.flights.flight_lt hold)
    obtain ⟨hk, hm⟩ := hi.serves f hold
    constructor
    · rw [h1]
      exact hk
    · simp only [World.movedBlocks, World.base, h1, h2] at hm ⊢
      exact hm
  · obtain ⟨d1, d2, d3, d4, d5⟩ := hd'
    refine ⟨d1, fun u hu hop => ?_, fun u hu hop => ?_, d4, d5⟩
    · obtain ⟨g1, g2, g3, g4, g5⟩ := d2 u hu hop
      exact ⟨g1, g2, g3, g4, g5⟩
    · obtain ⟨g1, g2⟩ := d3 u hu hop
      exact ⟨g1, g2⟩
  · have hlt : t < h.w.zs.tidMax := by
      by_cases hold : .callback t ∈ h.w.log
      · exact hi.log_lt hold
      · obtain hq | hq := step_transition hw hi.flights.fifo.queue hstep
        · have hlog : w'.log = h.w.log := congrArg TxQueue.log hq
          exact absurd (hlog ▸ ht) hold
        · obtain hm | ⟨hm, _⟩ := TxQueue.callback_step hi.flights.fifo.queue hq ht hold
          · exact hi.flights.live_lt (Or.inl hm)
          · exact hi.flights.live_lt (Or.inr hm)
    obtain ⟨⟨h1, _⟩, _⟩ := hkeep t hlt
    simp only [World.base, h1] at hop hj ⊢
    by_cases hold : .callback t ∈ h.w.log
    · rw [if_neg (fun hc => hc.2 hold)]
      exact hi.served t hold hop j hj v hv
    · rw [if_pos ⟨ht, hold⟩]
      exact hi.serve hstep hno hd ht hold hop hj hv

/-- A step that accepts a request. -/
theorem HostInv.entering (hi : HostInv env h) (hok : HostFits h (.act a))
    (hstep : step env a h.w = some w') (hin : h.w.zs.tidMax ∈ w'.accepted) : HostInv env
      (h.enter w' (w'.tx h.w.zs.tidMax).request fun t =>
        if .callback t ∈ w'.log ∧ .callback t ∉ h.w.log then h.ram else h.got t) ∧
    h.moved a = (h.disk, h.ram) := by
  have hw := hi.flights.fifo.wf
  have hold : w'.accepted ≠ h.w.accepted := by
    intro heq
    rw [heq] at hin
    exact Nat.lt_irrefl _ (hi.flights.fifo.logged.1 _ hin)
  obtain hq | ⟨r, hr, ⟨rc, tx, hrej⟩ | ⟨zs, tx, ha⟩⟩ | ⟨tid, p, hc⟩ := step_cases hw hstep
  · exact absurd hq.accepted hold
  · exact absurd hrej.accepted hold
  · have hfit := hok r hr
    have he := hi.enters hstep ha hfit.idle
    have hreq : (w'.tx h.w.zs.tidMax).request = r := by rw [he.self, he.request]
    rw [hreq]
    generalize hgot : (fun t => if Obs.callback t ∈ w'.log ∧ Obs.callback t ∉ h.w.log then h.ram
      else h.got t) = got
    obtain ⟨hserves, hdata⟩ := hi.dataEnter ha he hfit got
    refine ⟨⟨hi.flights.step hstep, ?_, hi.index_step hstep, fun t u ht hu => ?_, hserves, hdata,
      fun t ht hop j hj v hv => ?_⟩, he.still⟩
    · simp only [Host.enter]
      rw [step_mntFlag hw hstep]
      exact hi.noTrim
    · exact (he.alone t ht).trans (he.alone u hu).symm
    · -- nothing was live, so the callback is an old one
      simp only [Host.enter, World.base] at ht hop hj hv ⊢
      have hlog : .callback t ∈ h.w.log := by
        by_contra hnew
        obtain hq | hq := step_transition hw hi.flights.fifo.queue hstep
        · have hsame : w'.log = h.w.log := congrArg TxQueue.log hq
          exact hnew (hsame ▸ ht)
        · obtain hm | ⟨hm, _⟩ := TxQueue.callback_step hi.flights.fifo.queue hq ht hnew
          · have hm : t ∈ h.w.zs.txList := hm
            rw [hfit.idle.1] at hm
            cases hm
          · have hm : t ∈ h.w.zs.txRdonlyList := hm
            rw [hfit.idle.2] at hm
            cases hm
      have hlt := hi.log_lt hlog
      obtain ⟨⟨h1, _⟩, _⟩ := (step_keeps hw hstep).2 t hlt
      rw [h1] at hop hj ⊢
      rw [Function.update_of_ne (Nat.ne_of_lt hlt)] at hv
      rw [← hgot]
      simp only [hlog, not_true_eq_false, and_false, if_false]
      exact hi.served t hlog hop j hj v hv
  · exact absurd hc.accepted hold

theorem HostInv.step {d : HostAct} (hi : HostInv env h) (hok : HostFits h d)
    (hs : hostStep env d h = some h') : HostInv env h' := by
  cases d with
  | act a =>
    obtain ⟨w', hstep, rfl⟩ := Option.map_eq_some_iff.mp hs
    by_cases hin : h.w.zs.tidMax ∈ w'.accepted
    · obtain ⟨hi', hstill⟩ := hi.entering hok hstep hin
      simp only [hin, if_true, hstill]
      exact hi'
    · simp only [hin, if_false]
      exact hi.onward hstep hin
  | media k i v =>
    simp only [hostStep] at hs
    split at hs
    · cases hs
    · rename_i f hk
      split at hs
      · rename_i hsize
        obtain rfl := Option.some.inj hs
        exact hi.media hk hsize
      · cases hs
  | user a v =>
    obtain rfl := Option.some.inj hs
    exact hi.user hok

theorem Mounted.hostInv (hm : Mounted h.w) (htrim : h.w.zs.mntFlag &&& zstoreEnableTrim = 0)
    (hindex : IndexApart h.w.zs) (hlast : ∀ o j, h.last o j = none) : HostInv env h := by
  have hnone : ∀ t, ¬ h.w.Live t := by
    intro t ht
    rw [World.Live, hm.txList, hm.txRdonlyList] at ht
    exact ht.elim List.not_mem_nil List.not_mem_nil
  have hflight : ∀ f, f ∉ h.w.flight := by
    intro f hf
    rw [hm.flight] at hf
    cases hf
  refine ⟨⟨hm.fifoInv, fun f hf => absurd hf (hflight f)⟩, htrim, hindex,
    fun t _ ht => absurd ht (hnone t), fun f hf => absurd hf (hflight f), ?_, fun t ht => ?_⟩
  · refine ⟨fun t ht => absurd ht (hnone t), fun t ht => absurd (Or.inl ht) (hnone t),
      fun t ht => absurd (Or.inl ht) (hnone t), fun o j v hv => ?_,
      fun t ht => absurd (Or.inr ht) (hnone t)⟩
    rw [hlast] at hv
    cases hv
  · rw [hm.log] at ht
    cases ht

end Run

section Orderly
variable {env : Env} {h h' : Host} {w : World} {a : Act} {r : Request}

/-- The request comes when the store is idle, with a buffer that does not wrap around, and a write
that passes its checks ends within its object. -/
def Unhurried (w : World) (r : Request) : Prop :=
  (w.zs.txList = [] ∧ w.zs.txRdonlyList = []) ∧
    (r.op = .read ∨ r.op = .write → r.dataBuffer.toNat + r.len.toNat < 2 ^ 64) ∧
    (r.op = .write → ¬ Refused w.zs r → r.bofst + r.blen ≤ 1024)

/-- The conditions under which every block has one owner, for requests one after the other. -/
def HostOrderly (h : Host) : HostAct → Prop
  | .act a => Orderly false h.w a ∧ ∀ r ∈ callOf h.w a, Unhurried h.w r
  | .media .. => True
  | .user .. => h.w.zs.txList = [] ∧ h.w.zs.txRdonlyList = []

instance (w : World) (r : Request) : Decidable (Unhurried w r) :=
  inferInstanceAs (Decidable (_ ∧ _ ∧ _))

instance (h : Host) (d : HostAct) : Decidable (HostOrderly h d) := by
  cases d with
  | act a => exact inferInstanceAs (Decidable (_ ∧ ∀ r ∈ callOf h.w a, _))
  | media k i v => exact inferInstanceAs (Decidable True)
  | user a v => exact inferInstanceAs (Decidable (_ ∧ _))

/-- Blocks that the allocator has marked free are mapped by nobody, and those that the write itself
has released only by the entries of its range. -/
theorem Owned.blocksFree (ho : Owned false w) (hu : Unhurried w r) (hfit : WriteFits w r)
    (hop : r.op = .write) (hpass : ¬ Fails w.zs r) : BlocksFree w.zs r := by
  have hf := ho.wf.formatted
  obtain ⟨hidle, _, hrange⟩ := hu
  obtain ⟨hchk, hroom⟩ := not_or.mp hpass
  have hroom := not_not.mp hroom
  have hrange := hrange hop hchk
  obtain ⟨hval, _, hn⟩ := hfit
  rw [if_pos hroom] at hn
  have hoid : r.oid.toNat < 2 ^ 20 ∧ 1 ≤ r.blen := by
    simp only [Refused, not_or, not_not, Nat.not_le, hf.onodesRsv] at hchk
    exact ⟨hchk.2.2.2.1, blen_pos hchk.1 hchk.2.1⟩
  have hobj := object_of_lt hoid.1
  have hblocks : newBlocks w.zs r = takes (released w.zs r) r.blen := by
    obtain ⟨i, _, hi⟩ := alloc_of_room hoid.2 hroom
    rw [newBlocks, newExtents, hi]
    exact blocks_of_neighbours hn
  have hholds : ∀ s b, (holding w).holds s = some b ↔ MapsTo w.zs s b :=
    holding_idle fun t ht => by
      rw [hidle.1] at ht
      cases ht
  rw [BlocksFree, hblocks]
  refine ⟨takes_nodup _ _, fun b hb s hs => ?_⟩
  have hmark := (ho.sound.marked s b ((hholds s b).mpr hs)).2
  have hfree := (takes_free hb).2
  rw [bit_released, hmark, Bool.true_and, decide_eq_false_iff_not, not_not] at hfree
  obtain ⟨j, h1, h2, h3, h4⟩ := (mem_mapped_range hf).mp hfree
  have hown : MapsTo w.zs (r.object, j) b := by
    rw [MapsTo, hobj]
    exact ⟨⟨hoid.1, hobj ▸ hval⟩, by omega, h3, h4⟩
  obtain rfl := ho.sound.unique s (r.object, j) b ((hholds _ b).mpr hs) ((hholds _ b).mpr hown)
  exact ⟨hop, rfl, h1, h2⟩

theorem Owned.callFits (ho : Owned false w) (hok : Orderly false w a)
    (hu : ∀ r ∈ callOf w a, Unhurried w r) : ∀ r ∈ callOf w a, CallFits w r := by
  intro r hr
  obtain ⟨hwrite, hcreate, _⟩ := hok r hr
  have hur := hu r hr
  refine ⟨hur.1, hur.2.1, fun hop hpass => (hwrite hop fun hc => hpass (Or.inl hc)).1,
    fun hop hpass => ?_, fun hop hinv hroom o hv => ?_⟩
  · exact ho.blocksFree hur (hwrite hop fun hc => hpass (Or.inl hc)) hop hpass
  · exact ho.newIndex_own hroom (hcreate hop hinv hroom).2 hv

theorem Owned.hostFits (ho : Owned false h.w) {d : HostAct} (hok : HostOrderly h d) :
    HostFits h d := by
  cases d with
  | act a => exact ho.callFits hok.1 hok.2
  | media k i v => trivial
  | user a v =>
    intro t ht
    rw [World.Live, hok.1, hok.2] at ht
    exact ht.elim (absurd · List.not_mem_nil) (absurd · List.not_mem_nil)

theorem Owned.host {d : HostAct} (ho : Owned false h.w) (hok : HostOrderly h d)
    (hs : hostStep env d h = some h') : Owned false h'.w := by
  cases d with
  | act a =>
    obtain ⟨w', hstep, rfl⟩ := Option.map_eq_some_iff.mp hs
    exact (ho.step hok.1 hstep).1
  | media k i v =>
    simp only [hostStep] at hs
    split at hs
    · cases hs
    · split at hs
      · obtain rfl := Option.some.inj hs
        exact ho
      · cases hs
  | user a v =>
    obtain rfl := Option.some.inj hs
    exact ho

end Orderly

section ReadsBack

/-- On a store without TRIM, when each request is made after the one before is done, writes are to
valid objects, and the allocator gives out distinct blocks that no object uses, a read brings back
of each block what was last written to it. -/
theorem reads_back (env : Env) (h0 h : Host) (hm : Mounted h0.w)
    (htrim : h0.w.zs.mntFlag &&& zstoreEnableTrim = 0) (hindex : IndexApart h0.w.zs)
    (hlast : ∀ o j, h0.last o j = none) (hrun : Run (hostStep env) HostFits h0 h) (t : Nat)
    (ht : .callback t ∈ h.w.log) (hop : (h.w.tx t).request.op = .read) :
    ∀ j < (h.w.tx t).request.blen, ∀ v, h.want t j = some v →
      pageAt (h.got t) (h.w.base t) j = v := by
  have hi : HostInv env h := hrun.invariant (hm.hostInv htrim hindex hlast)
    fun _ _ _ hi hok hs => hi.step hok hs
  exact hi.served t ht hop

/-- A store without objects, and memory whose second page is different from the others. -/
def freshHost : Host :=
  ⟨smallWorld, fun _ => 0, fun a => if a / 4096 = 1 then 7 else 9, fun _ _ => none,
    fun _ _ => none, fun _ _ => 0⟩

/-- Two blocks are written, the second one is written again, and both are read, the second one
first. -/
theorem rewritten_reads_back : ∃ (h : Host) (v : List Byte), .callback 3 ∈ h.w.log ∧ h.want 3 1 = some v ∧
    v.head? = some 7 ∧ h.w.base 3 = 65536 ∧ pageAt (h.got 3) 65536 1 = v := by
  have hrun : (runActs (hostStep smallEnv) HostOrderly
      [.act (.request ⟨.create, 1, 0, 0, 0⟩), .act .resume, .act .resume,
        .act (.request ⟨.write, 1, 0, 2 * 4096, 8192⟩), .media 0 5 1, .act (.bioDone 0 true),
        .act .resume, .act .resume, .act .resume, .user 8192 3,
        .act (.request ⟨.write, 1, 4096, 4096, 4096⟩), .act (.bioDone 0 true),
        .act .resume, .act .resume, .act .resume,
        .act (.request ⟨.read, 1, 0, 2 * 4096, 65536⟩), .media 1 0 1, .act (.bioDone 1 true),
        .act (.bioDone 0 true)] freshHost).map
      (fun h => decide (.callback 3 ∈ h.w.log ∧ (h.want 3 1).map List.head? = some (some 7) ∧
        (h.w.tx 3).request = ⟨.read, 1, 0, 2 * 4096, 65536⟩)) = some true := by
    decide +kernel
  obtain ⟨h, hh, hval⟩ := Option.map_eq_some_iff.mp hrun
  obtain ⟨hlog, hwant, hreq⟩ := of_decide_eq_true hval
  obtain ⟨v, hv, hhead⟩ := Option.map_eq_some_iff.mp hwant
  obtain ⟨hm, hnone, hclear, hcount⟩ := @mkfs_mounted _ _ 512 0 0 0 _ _ smallStore (by decide)
    (by decide) ⟨by decide, by decide⟩ smallStore_mount smallWorld.tx
  have howned : Owned false freshHost.w := (hm.accounted hnone hclear hcount).owned
  have hfits : Run (hostStep smallEnv) HostFits freshHost h :=
    @Run.mono_of_invariant _ _ _ HostOrderly freshHost (fun h => Owned false h.w) _ howned
      (fun _ _ _ ho hok hs => ho.host hok hs) (fun _ _ ho hok => ho.hostFits hok) _
      (run_of_runActs .start hh)
  have hbase : h.w.base 3 = 65536 := by
    rw [World.base, hreq]
    rfl
  have hread := reads_back smallEnv freshHost h hm (by decide) (fun o u ho => absurd ho (hnone o))
    (fun _ _ => rfl) hfits 3 hlog (by rw [hreq]) 1 (by rw [hreq]; decide) v hv
  rw [hbase] at hread
  exact ⟨h, v, hlog, hv, hhead, hbase, hread⟩

end ReadsBack
end ZCell.Store
