import ZCell.Clients

/-! Where the data of an object is: in the buffer of the write that is queued, and with the commit in
the blocks that the index maps from then on. -/
namespace ZCell.Store
open Bytes Persist Pm Allocator Runs

section Blocks
variable {zs zs' : ZstoreContext} {r : Request} {tx : ZstoreTransaction}

/-- New blocks are ordinary index words, even where the allocator has stitched an extent wrongly. -/
theorem Written.newBlock_lt (hf : Formatted zs) (h : Written zs r zs' tx) :
    ∀ e ∈ newExtents zs r, e.lba < 2 ^ 28 ∧ e.len ≤ 32 := by
  intro e he
  have hlba := (takes_free (alloc_lba h.blen_pos h.room e he)).1
  have htot := hf.ssdTotal
  have hlen : (blocks (newExtents zs r)).length = r.blen := newBlocks_length h
  have hle := extent_len_le he
  have hmax := h.blen_le
  rw [released_total] at hlba
  exact ⟨by omega, by omega⟩

theorem Written.newWord_at (hf : Formatted zs) (h : Written zs r zs' tx) {p b : Nat}
    (hp : (newBlocks zs r)[p]? = some b) :
    (newWords zs r).getD p 0 ≠ unmapped ∧ ((newWords zs r).getD p 0).toNat = b := by
  have hget : (newWords zs r).getD p 0 = BitVec.ofNat 32 b := by
    rw [newBlocks] at hp
    rw [newWords, List.getD_eq_getElem?_getD, List.getElem?_map, hp]
    rfl
  have hlt : b < 2 ^ 28 + 32 := by
    obtain ⟨e, he, hb⟩ := List.mem_flatMap.mp (List.mem_of_getElem? hp)
    obtain ⟨h1, h2⟩ := h.newBlock_lt hf e he
    rw [Extent.blocks, List.mem_range'_1] at hb
    omega
  have hval : (BitVec.ofNat 32 b).toNat = b := by
    rw [BitVec.toNat_ofNat, Nat.mod_eq_of_lt (by omega)]
  rw [hget]
  refine ⟨fun hun => ?_, hval⟩
  rw [hun] at hval
  have hbig : unmapped.toNat = 2 ^ 32 - 1 := by decide
  omega

theorem MapsTo.congr {s : Nat × Nat} {b : Nat} (h : MapsTo zs s b)
    (hon : zs'.onode s.1 = zs.onode s.1)
    (hw : indexWord zs'.pm (1024 * (zs.onode s.1).dataIdxId + s.2) =
      indexWord zs.pm (1024 * (zs.onode s.1).dataIdxId + s.2)) : MapsTo zs' s b := by
  obtain ⟨⟨h1, h2⟩, h3, h4, h5⟩ := h
  rw [MapsTo, Valid, hon, hw]
  exact ⟨⟨h1, h2⟩, h3, h4, h5⟩

end Blocks

section Commit
variable {env : Env} {h : Host} {w' : World} {a : Act} {t : Nat} {disk ram : Image}

/-- A transaction that can be committed has no bio at the device, and none that was refused. -/
theorem HostInv.landed (hi : HostInv env h) (ht : h.w.Live t) (hst : (h.w.tx t).state = .pmTx) :
    h.w.queue.Whole t ∧ h.w.flight = [] := by
  have hready : (h.w.queue.item t).ready = true := decide_eq_true hst
  have hbios := (hi.flights.fifo.queue.live.ready t ht).mp hready
  have hcount := (hi.flights.fifo.queue.live.count t ht).1
  refine ⟨by unfold TxQueue.Whole; omega, ?_⟩
  rw [List.eq_nil_iff_forall_not_mem]
  intro f hf
  obtain rfl := hi.single t f.tid ht (hi.flights.flight_live hf)
  have hmem : f.tid ∈ h.w.queue.flight := List.mem_map_of_mem hf
  have hpos := List.count_pos_iff.mpr hmem
  omega

variable {p : PmemTransaction}

theorem Commits.queued_head {w : World} (hc : Commits w w' t p) : t ∈ w.zs.txList := by
  rw [hc.head]
  exact List.mem_cons_self ..

/-- After a commit nothing is left to be done. -/
theorem HostInv.drained (hi : HostInv env h) (hc : Commits h.w w' t p)
    (hstep : step env a h.w = some w') : w'.zs.txList = [] ∧ ∀ u, ¬ w'.Live u := by
  have ht := hc.queued_head
  have hnil : w'.zs.txList = [] := by
    rw [List.eq_nil_iff_forall_not_mem]
    intro u hu
    have hnd : h.w.zs.txList.Nodup := hi.flights.fifo.queue.ledger.writes_nodup
    have hmem : u ∈ h.w.zs.txList := by
      rw [hc.head]
      exact List.mem_cons_of_mem t hu
    obtain rfl := hi.single t u (Or.inl ht) (Or.inl hmem)
    rw [hc.head] at hnd
    exact (List.nodup_cons.mp hnd).1 hu
  refine ⟨hnil, fun u hu => ?_⟩
  obtain hu | hu := hu
  · rw [hnil] at hu
    cases hu
  · obtain hold | ⟨rfl, hin⟩ := hi.flights.reads hstep hu
    · obtain rfl := hi.single t u (Or.inl ht) (Or.inr hold)
      exact hi.flights.queued_op ht (hi.flights.read_op hold)
    · rw [hc.accepted] at hin
      exact Nat.lt_irrefl _ (hi.flights.fifo.logged.1 _ hin)

section Write
variable (hi : HostInv env h) (hc : Commits h.w w' t p) (hop : (h.w.tx t).request.op = .write)
include hi hc hop

theorem HostInv.onode_written : ∀ o < 2 ^ 20, w'.zs.onode o = h.w.zs.onode o := by
  intro o ho
  rw [(hc.effect hi.flights.fifo.wf).onode o ho]
  split
  · rename_i heq
    rw [heq]
    simp only [loggedOnode, hop]
    exact (hi.data.writing t hc.queued_head hop).snapshot
  · rfl

theorem HostInv.index_written (n : Nat) : indexWord w'.zs.pm n =
    if 1024 * (h.w.zs.onode (h.w.tx t).request.object).dataIdxId + (h.w.tx t).request.bofst ≤ n ∧
      n < 1024 * (h.w.zs.onode (h.w.tx t).request.object).dataIdxId + (h.w.tx t).request.bofst +
        (h.w.tx t).request.blen then
      (newWords (h.w.before t) (h.w.tx t).request).getD
        (n - (1024 * (h.w.zs.onode (h.w.tx t).request.object).dataIdxId +
          (h.w.tx t).request.bofst)) 0
    else indexWord h.w.zs.pm n := by
  have ht := hc.queued_head
  obtain ⟨tx, hwr⟩ := hi.flights.written ht hop
  have hobj := hwr.object_eq (hi.flights.fifo.wf.queued t ht).formatted
  have hfirst : firstWord (h.w.before t) (h.w.tx t).request =
      1024 * (h.w.zs.onode (h.w.tx t).request.object).dataIdxId + (h.w.tx t).request.bofst := by
    rw [firstWord, ← hobj, (hi.data.writing t ht hop).snapshot]
  rw [(hc.effect hi.flights.fifo.wf).index n, hfirst]
  simp only [hop, true_and]

/-- The entries of the range map the blocks that the data has gone to, in the order of the pages. -/
theorem HostInv.maps_written {j b : Nat} (hj : j < (h.w.tx t).request.blen)
    (hb : (newBlocks (h.w.before t) (h.w.tx t).request)[j]? = some b) :
    MapsTo w'.zs ((h.w.tx t).request.object, (h.w.tx t).request.bofst + j) b := by
  have ht := hc.queued_head
  have hf := (hi.flights.fifo.wf.queued t ht).formatted
  obtain ⟨tx, hwr⟩ := hi.flights.written ht hop
  have hobj : (h.w.tx t).request.object < 2 ^ 20 := by
    rw [hwr.object_eq hf]
    exact hwr.oid_lt hf
  have hrange := hwr.range_le hf
  have hon := hi.onode_written hc hop _ hobj
  have hsub : ∀ x : Nat, x + ((h.w.tx t).request.bofst + j) -
      (x + (h.w.tx t).request.bofst) = j := by
    intro x
    omega
  have hword := hi.index_written hc hop
    (1024 * (h.w.zs.onode (h.w.tx t).request.object).dataIdxId + ((h.w.tx t).request.bofst + j))
  rw [if_pos ⟨by omega, by omega⟩, hsub] at hword
  obtain ⟨h1, h2⟩ := hwr.newWord_at hf hb
  simp only [MapsTo, Valid, hon, hword]
  exact ⟨⟨hobj, (hi.data.writing t ht hop).valid⟩, by omega, h1, h2⟩

/-- All other entries are as before, since no other object has this index block. -/
theorem HostInv.maps_beside {s : Nat × Nat} {b : Nat} (hm : MapsTo h.w.zs s b)
    (hcov : ¬ (h.w.tx t).request.Covers s.1 s.2) : MapsTo w'.zs s b := by
  have ht := hc.queued_head
  have hf := (hi.flights.fifo.wf.queued t ht).formatted
  obtain ⟨tx, hwr⟩ := hi.flights.written ht hop
  have hobj : (h.w.tx t).request.object < 2 ^ 20 := by
    rw [hwr.object_eq hf]
    exact hwr.oid_lt hf
  have hrange := hwr.range_le hf
  have hlt := hm.2.1
  refine hm.congr (hi.onode_written hc hop s.1 hm.1.1) ?_
  rw [hi.index_written hc hop, if_neg]
  rintro ⟨h1, h2⟩
  have heq : (h.w.zs.onode s.1).dataIdxId =
      (h.w.zs.onode (h.w.tx t).request.object).dataIdxId := by omega
  have hsame := hi.index s.1 _ hm.1 ⟨hobj, (hi.data.writing t ht hop).valid⟩ heq
  exact hcov ⟨hop, hsame.symm, by omega, by omega⟩

end Write

/-- A create or delete leaves the entries of the other objects alone. -/
theorem HostInv.maps_others (hi : HostInv env h) (hc : Commits h.w w' t p)
    (hop : (h.w.tx t).request.op ≠ .write) {s : Nat × Nat} {b : Nat} (hm : MapsTo h.w.zs s b)
    (ho : s.1 ≠ (h.w.tx t).request.object) : MapsTo w'.zs s b := by
  have he := hc.effect hi.flights.fifo.wf
  refine hm.congr ?_ ?_
  · rw [he.onode s.1 hm.1.1, if_neg ho]
  · rw [he.index, if_neg (fun hr => hop hr.1)]

theorem HostInv.index_commit (hi : HostInv env h) (hc : Commits h.w w' t p) :
    IndexApart w'.zs := by
  have ht := hc.queued_head
  have hq := hi.flights.fifo.wf.queued t ht
  by_cases hop : (h.w.tx t).request.op = .write
  · have hon := hi.onode_written hc hop
    intro o u ho hu heq
    have ho' := (valid_congr hon o).mp ho
    have hu' := (valid_congr hon u).mp hu
    rw [hon o ho.1, hon u hu.1] at heq
    exact hi.index o u ho' hu' heq
  · have he := hc.effect hi.flights.fifo.wf
    have hch := hi.data.changing t ht hop
    obtain ⟨tx, hacc, _⟩ := hq.accepted
    -- a valid object was valid before, or it is the one that is created
    have hcase : ∀ o, Valid w'.zs.onode o → (o ≠ (h.w.tx t).request.object ∧
        Valid h.w.zs.onode o ∧ w'.zs.onode o = h.w.zs.onode o) ∨
        (o = (h.w.tx t).request.object ∧ (h.w.tx t).request.op = .create ∧
          (w'.zs.onode o).dataIdxId = newIndex (h.w.before t)) := by
      intro o ho
      have hon := he.onode o ho.1
      by_cases heq : o = (h.w.tx t).request.object
      · rw [if_pos heq] at hon
        refine Or.inr ⟨heq, ?_⟩
        cases hacc with
        | write hw _ => exact absurd hw hop
        | create hcr hcreated =>
          have hle := hcreated.index_le hq.formatted
          rw [hon, loggedOnode, hcr]
          exact ⟨rfl, otableEntry_index _ (by omega)⟩
        | delete hdel _ =>
          have hv := ho.2
          rw [hon, loggedOnode, hdel, zero_valid] at hv
          cases hv
      · rw [if_neg heq] at hon
        exact Or.inl ⟨heq, ⟨ho.1, hon ▸ ho.2⟩, hon⟩
    intro o u ho hu heq
    obtain ⟨_, hvo, hno⟩ | ⟨ho', hcr, hio⟩ := hcase o ho
    · obtain ⟨_, hvu, hnu⟩ | ⟨hu', hcr, hiu⟩ := hcase u hu
      · rw [hno, hnu] at heq
        exact hi.index o u hvo hvu heq
      · rw [hno, hiu] at heq
        exact absurd heq (hch.index hcr o hvo)
    · obtain ⟨_, hvu, hnu⟩ | ⟨hu', _, _⟩ := hcase u hu
      · rw [hio, hnu] at heq
        exact absurd heq.symm (hch.index hcr u hvu)
      · rw [ho', hu']

/-- The commit of a write turns the data in flight into the contents of the object. -/
theorem HostInv.dataCommit (hi : HostInv env h) (hc : Commits h.w w' t p)
    (hstep : step env a h.w = some w') : DataInv { h with w := w' } w'.flight := by
  have ht := hc.queued_head
  obtain ⟨hnil, hno⟩ := hi.drained hc hstep
  obtain ⟨hwhole, hflight⟩ := hi.landed (Or.inl ht) hc.state
  refine ⟨fun u hu => absurd hu (hno u), fun u hu => absurd (Or.inl hu) (hno u),
    fun u hu => absurd (Or.inl hu) (hno u), fun o j v hv _ => ?_,
    fun u hu => absurd (Or.inr hu) (hno u)⟩
  by_cases hcov : (h.w.tx t).request.Covers o j
  · have hop := hcov.1
    obtain ⟨_, rfl, h1, h2⟩ := hcov
    obtain ⟨i, rfl⟩ := Nat.exists_eq_add_of_le h1
    have hj : i < (h.w.tx t).request.blen := by omega
    obtain ⟨tx, hwr⟩ := hi.flights.written ht hop
    have hlen := newBlocks_length hwr
    have hmoved : h.w.movedBlocks t = newBlocks (h.w.before t) (h.w.tx t).request := by
      rw [World.movedBlocks, hop]
    have hlast := (hi.data.writing t ht hop).last i hj
    obtain rfl : pageAt h.ram (h.w.base t) i = v := Option.some.inj (hlast.symm.trans hv)
    obtain ⟨b, hb⟩ : ∃ b, (newBlocks (h.w.before t) (h.w.tx t).request)[i]? = some b :=
      ⟨_, List.getElem?_eq_getElem (by omega)⟩
    refine ⟨b, hi.maps_written hc hop hj hb, ?_⟩
    obtain ⟨f, hf, _⟩ | hsame := hi.data.synced t (Or.inl ht) hwhole i b (by rw [hmoved]; exact hb)
    · rw [hflight] at hf
      cases hf
    · exact hsame.symm
  · obtain ⟨b, hm, hb⟩ := hi.data.kept o j v hv fun u hu => by
      obtain rfl := hi.single t u (Or.inl ht) (Or.inl hu)
      exact hcov
    refine ⟨b, ?_, hb⟩
    by_cases hop : (h.w.tx t).request.op = .write
    · exact hi.maps_beside hc hop hm hcov
    · refine hi.maps_others hc hop hm ?_
      rintro rfl
      rw [(hi.data.changing t ht hop).last j] at hv
      cases hv

end Commit

section Keep
variable {env : Env} {h : Host} {w w' : World} {a : Act} {t : Nat} {disk ram : Image}
  {fs : List Flight}

theorem FlightInv.live_step (hi : FlightInv env w) (hstep : Store.step env a w = some w')
    (ht : w'.Live t) : w.Live t ∨ t = w.zs.tidMax ∧ t ∈ w'.accepted := by
  obtain ht | ht := ht
  · obtain hq | ⟨r, _, ⟨rc, tx, hr⟩ | ⟨zs, tx, ha⟩⟩ | ⟨tid, p, hc⟩ := step_cases hi.fifo.wf hstep
    · rw [hq.zs.txList] at ht
      exact Or.inl (Or.inl ht)
    · rw [(prepare_rejected hi.fifo.wf.formatted.shift hr.rc_ne hr.prepare).frame] at ht
      exact Or.inl (Or.inl ht)
    · obtain ⟨_, hr, n, l, hzs⟩ | ⟨hacc, n, hzs⟩ := ha.kind
      · rw [hzs, hr.store] at ht
        exact Or.inl (Or.inl ht)
      · rw [hzs, hacc.entering.txList] at ht
        obtain ht | ht := List.mem_append.mp ht
        · exact Or.inl (Or.inl ht)
        · obtain rfl := List.mem_singleton.mp ht
          exact Or.inr ⟨rfl, ha.mem_accepted⟩
    · refine Or.inl (Or.inl ?_)
      rw [hc.head]
      exact List.mem_cons_of_mem tid ht
  · obtain ht | ht := hi.reads hstep ht
    · exact Or.inl (Or.inr ht)
    · exact Or.inr ht

theorem FlightInv.whole_step (hi : FlightInv env w) (hstep : Store.step env a w = some w')
    (ht : w.Live t) (hw : w'.queue.Whole t) : w.queue.Whole t := by
  obtain hq | hq := step_transition hi.fifo.wf hi.fifo.queue hstep
  · rwa [hq] at hw
  · exact hw.of_step hi.fifo.queue hq ht

theorem mapsTo_congr {zs zs' : ZstoreContext} (hon : zs'.onode = zs.onode) (hpm : zs'.pm = zs.pm)
    (s : Nat × Nat) (b : Nat) : MapsTo zs' s b ↔ MapsTo zs s b := by
  rw [MapsTo, MapsTo, hon, hpm]

/-- A step that accepts and commits nothing keeps the place of the data. -/
theorem HostInv.dataKeep (hi : HostInv env h) (hstep : step env a h.w = some w')
    (hno : h.w.zs.tidMax ∉ w'.accepted) (hon : w'.zs.onode = h.w.zs.onode)
    (hpm : w'.zs.pm = h.w.zs.pm) (hlist : w'.zs.txList = h.w.zs.txList)
    (hd : DataInv { h with disk := disk, ram := ram } fs) :
    DataInv { h with w := w', disk := disk, ram := ram } fs := by
  have hlive : ∀ u, w'.Live u → h.w.Live u := by
    intro u hu
    obtain hu | ⟨rfl, hin⟩ := hi.flights.live_step hstep hu
    · exact hu
    · exact absurd hin hno
  have hkeep : ∀ u, h.w.Live u → (w'.tx u).request = (h.w.tx u).request ∧
      w'.before u = h.w.before u := by
    intro u hu
    obtain ⟨⟨h1, _⟩, h2, _⟩ := (step_keeps hi.flights.fifo.wf hstep).2 u (hi.flights.live_lt hu)
    exact ⟨h1, h2⟩
  obtain ⟨hsync, hwr, hch, hkept, hfetch⟩ := hd
  refine ⟨fun u hu hw => ?_, fun u hu hop => ?_, fun u hu hop => ?_, fun o j v hv hcov => ?_,
    fun u hu j hj v hv => ?_⟩
  · have hold := hlive u hu
    obtain ⟨h1, h2⟩ := hkeep u hold
    have hs := hsync u hold (hi.flights.whole_step hstep hold hw)
    simp only [World.movedBlocks, World.base] at hs ⊢
    rw [h1, h2]
    exact hs
  · have hold := hlive u (Or.inl hu)
    obtain ⟨h1, h2⟩ := hkeep u hold
    rw [hlist] at hu
    rw [h1] at hop
    obtain ⟨g1, g2, g3, g4, g5⟩ := hwr u hu hop
    simp only [World.base] at g1 g2 g3 g4 g5
    constructor
    all_goals
      simp only [World.base, h1, h2, hon, mapsTo_congr hon hpm]
      assumption
  · have hold := hlive u (Or.inl hu)
    obtain ⟨h1, h2⟩ := hkeep u hold
    rw [hlist] at hu
    rw [h1] at hop
    obtain ⟨g1, g2⟩ := hch u hu hop
    constructor
    all_goals
      simp only [h1, h2, hon]
      assumption
  · obtain ⟨b, hm, hb⟩ := hkept o j v hv fun u hu => by
      have hcu := hcov u (hlist ▸ hu)
      rwa [(hkeep u (Or.inl hu)).1] at hcu
    exact ⟨b, (mapsTo_congr hon hpm (o, j) b).mpr hm, hb⟩
  · obtain hold | ⟨rfl, hin⟩ := hi.flights.reads hstep hu
    · obtain ⟨h1, h2⟩ := hkeep u (Or.inr hold)
      simp only [h1, h2] at hj ⊢
      exact hfetch u hold j hj v hv
    · exact absurd hin hno

/-- A step that accepts nothing: the device may have carried out a bio. -/
theorem HostInv.dataStep (hi : HostInv env h) (hstep : step env a h.w = some w')
    (hno : h.w.zs.tidMax ∉ w'.accepted) :
    DataInv { h with disk := (h.moved a).1, ram := (h.moved a).2 } w'.flight ∧
    DataInv { h with w := w', disk := (h.moved a).1, ram := (h.moved a).2 } w'.flight := by
  have hw := hi.flights.fifo.wf
  have hd : DataInv { h with disk := (h.moved a).1, ram := (h.moved a).2 } w'.flight := by
    obtain ⟨k, f, hdone, hk, hfl⟩ | ⟨hdone, ⟨hfl, _⟩ | hs⟩ := step_flight hw hstep
    · rw [hfl, Host.moved, hdone]
      exact hi.carried hk
    · rw [hfl, Host.moved, hdone]
      exact hi.data
    · exact absurd hs.accepted hno
  refine ⟨hd, ?_⟩
  obtain hq | ⟨r, _, ⟨rc, tx, hr⟩ | ⟨zs, tx, ha⟩⟩ | ⟨tid, p, hc⟩ := step_cases hw hstep
  · exact hi.dataKeep hstep hno (funext (onode_congr hq.zs.mem hq.zs.otable)) hq.zs.pm hq.zs.txList hd
  · have hfr := (prepare_rejected hw.formatted.shift hr.rc_ne hr.prepare).frame
    refine hi.dataKeep hstep hno ?_ ?_ ?_ hd
    · rw [hfr]
      rfl
    · rw [hfr]
    · rw [hfr]
  · exact absurd ha.mem_accepted hno
  · -- the bios of the transaction have all been carried out before
    obtain ⟨_, hnil⟩ := hi.landed (Or.inl hc.queued_head) hc.state
    obtain ⟨k, f, _, hk, _⟩ | ⟨hdone, _⟩ := step_flight hw hstep
    · rw [hnil] at hk
      cases hk
    · rw [Host.moved, hdone]
      exact hi.dataCommit hc hstep

end Keep
end ZCell.Store
