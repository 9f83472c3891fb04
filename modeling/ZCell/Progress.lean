import ZCell.Commit
import ZCell.WorkArrays

/-! Calls that succeed, and the rounds of the loop that commit them. -/
namespace ZCell.Store
open Bytes Persist Pm Allocator Runs

section Writes
variable {g : Uninit} {zs : ZstoreContext} {r : Request} {tx : ZstoreTransaction}

/-- The log of a write always has room for its entries. -/
theorem txPrepWrite_accepts {oe : OtableEntry} {e : List Extent} {blen : Nat} (hpos : 1 ≤ blen)
    (hblen : blen ≤ 32) (he : e.length ≤ 32)
    (hsmall : ¬ zstoreObjMaxSizeBytes < (r.ofst + r.len).toNat)
    (hbm : ∀ b ∈ blocks e, b / 512 < zs.ssdAllocator.nrEntrys)
    (hroom : HasRoom (stupidFreeSpace zs.ssdAllocator e) blen)
    (htrim : zs.mntFlag &&& zstoreEnableTrim = 0) :
    ∃ zs' tx', txPrepWrite g zs r tx oe e blen = .ok (0, zs', tx') ∧ tx'.state = .dataIo := by
  have hfree : (if e = [] then zs.ssdAllocator else stupidFreeSpace zs.ssdAllocator e) =
      stupidFreeSpace zs.ssdAllocator e := by
    split
    · rename_i hnil
      rw [hnil, stupidFreeSpace_nil]
    · rfl
  have hbid : (if e = [] then [] else lbaToBitmapId e) = lbaToBitmapId e := by
    split
    · rename_i hnil
      rw [hnil]
      rfl
    · rfl
  have hany : (blocks e).any (fun b => decide (zs.ssdAllocator.nrEntrys ≤ b / 512)) = false := by
    simpa using hbm
  obtain ⟨hcount, hlen, _⟩ := alloc_extents hpos hroom
  have hz := (alloc_zero_iff hpos).mpr hroom
  generalize hres : stupidAllocSpace (stupidFreeSpace zs.ssdAllocator e) blen = res at hcount hlen hz
  obtain ⟨rc, a, enew⟩ := res
  simp only at hcount hlen hz
  have hsize := logSize_bitmapLogs zs.zsb.pmSsdBitmapOfst a.bs (lbaToBitmapId e ++ lbaToBitmapId enew)
  have h1 := lbaToBitmapId_length e
  have h2 := lbaToBitmapId_length enew
  rw [List.length_append] at hsize
  obtain ⟨t, ht, _⟩ := (built_alloc g.log).addAll ((lbaToBitmapId e ++ lbaToBitmapId enew).map
    (bitmapLog zs.zsb.pmSsdBitmapOfst a.bs)) (by
      rw [List.nil_append, hsize]
      unfold pmLogRegionSize
      omega)
  have hnotrim : ¬ zs.mntFlag &&& zstoreEnableTrim ≠ 0 := not_not.mpr htrim
  simp only [txPrepWrite, if_neg hsmall, hany, Bool.false_eq_true, if_false, hfree, hbid, hres, hz,
    ne_eq, not_true_eq_false, htrim, false_and, ht, List.length_map, hcount]
  exact ⟨_, _, rfl, rfl⟩

/-- A write that passes its checks and finds room is accepted, if nothing is trimmed. -/
theorem prepare_write_accepts (hshift : zs.zsb.ssdMinAllocSizeShift = 12) (hop : r.op = .write)
    (hchk : ¬ Refused zs r) (hle : r.blen ≤ 32)
    (hpm : objectDataIndexBlock zs (zs.onode r.oid.toNat) + 4 * r.bofst + 4 * r.blen ≤ zs.pmem.size)
    (hbm : ∀ b ∈ mapped (rangeWords zs r), b / 512 < zs.ssdAllocator.nrEntrys)
    (hroom : HasRoom (released zs r) r.blen) (htrim : zs.mntFlag &&& zstoreEnableTrim = 0) :
    ∃ zs' tx', zstoreTxPrepare g zs r tx = .ok (0, zs', tx') := by
  have hread : ¬ ReadRefused zs r := readChecked hchk
  have hold : (oldExtents zs r).length ≤ 32 := by
    refine (merge_length _).trans ?_
    rw [rangeWords, readWords_length]
    exact hle
  simp only [Refused, not_or] at hchk
  obtain ⟨zs', tx', hw, hst⟩ := @txPrepWrite_accepts g { zs with tidMax := zs.tidMax + 1 } r
    { tx with
      request := r
      err := 0
      state := .prepare
      bios := []
      bioOutstanding := 0
      pmTx := none
      sync := false
      tid := zs.tidMax
      dataBuffer := r.dataBuffer } (zs.onode r.oid.toNat) (oldExtents zs r) r.blen
    (checked_blen hread) hle hold hchk.2.2.2.2
    (fun b hb => hbm b (by rwa [oldExtents, blocks_merge] at hb)) hroom htrim
  refine ⟨zs', tx', ?_⟩
  simp only [zstoreTxPrepare, hop]
  rw [@txPrepRwCommon_write g { zs with tidMax := zs.tidMax + 1 } r _ hshift hop hread hle hpm]
  exact (congrArg (assertState .dataIo) hw).trans (by simp [assertState, hst])

end Writes

section Calls
variable {env : Env} {r : Request} {w w' : World} {tid : Nat}

theorem step_call {rc : Int} (hs : w.stack = []) (h : zstoreObjAsyncOpCall env r w = .ok (rc, w')) :
    step env (.request r) w = some w' := by
  simp [step, enabled, hs, act, h, Except.toOption]

theorem step_drain {s : List Frame} (hs : w.stack = .drain :: s) (h : drainRound env s w = .ok w') :
    step env .resume w = some w' := by
  simp [step, enabled, hs, act, resume, h, Except.toOption]

theorem metadata_ready (hst : (w.tx tid).state = .pmTx) (htype : (w.tx tid).txType = .write)
    (hbio : (w.tx tid).bioOutstanding = 0) : zstoreTxMetadata env tid w =
      .ok (if w.zs.txList.head? = some tid then w.push .drain else w) := by
  have hself : { w.tx tid with state := TxState.pmTx } = w.tx tid := by rw [← hst]
  have htype' : (w.tx tid).txType ≠ .rdonly := by
    rw [htype]
    decide
  simp only [zstoreTxMetadata, if_neg (not_not.mpr hbio), if_neg htype', hself, setTx_self rfl]

/-- A write that is prepared sends its bios. -/
theorem write_sent {zs : ZstoreContext} {tx : ZstoreTransaction} (hop : r.op = .write)
    (hf : Formatted w.zs)
    (hprep : zstoreTxPrepare (env.uninit w.zs.tidMax) w.zs r (w.tx w.zs.tidMax) = .ok (0, zs, tx)) :
    ∃ w', zstoreObjAsyncOpCall env r w = .ok (0, w') ∧ Written w.zs r zs tx ∧ Accepts r w w' zs tx ∧
      w'.stack = w.stack ∧
      w'.flight = w.flight ++ submitBios (env.submit w.zs.tidMax) w.zs.tidMax 0 tx.dataBuffer tx.bios := by
  obtain ⟨hne, _⟩ | ⟨hne, _⟩ | ⟨_, hw⟩ := prepare_write hf.shift hop hprep
  · exact absurd rfl hne
  · exact absurd rfl hne
  generalize hw0 : ({ { w with zs := zs }.setTx w.zs.tidMax tx with
    before := Function.update w.before w.zs.tidMax w.zs
    after := Function.update w.after w.zs.tidMax zs } : World) = w0
  have htx : (zstoreTxEnqueue w.zs.tidMax w0).tx w.zs.tidMax = tx := by
    rw [← hw0]
    exact Function.update_self ..
  have hex : zstoreTxExecute env w.zs.tidMax (zstoreTxEnqueue w.zs.tidMax w0) =
      .ok (zstoreTxDataBio env w.zs.tidMax (zstoreTxEnqueue w.zs.tidMax w0)) := by
    simp only [zstoreTxExecute, htx, hw.state]
  have hcall : zstoreObjAsyncOpCall env r w =
      .ok (0, zstoreTxDataBio env w.zs.tidMax (zstoreTxEnqueue w.zs.tidMax w0)) := by
    simp only [zstoreObjAsyncOpCall, hprep, ne_eq, not_true_eq_false, if_false, hw0, hex]
  refine ⟨_, hcall, hw, accepts_of_execute (Or.inr (.write hop hw)) hw0.symm hex, ?_, ?_⟩
  · rw [← hw0]
    rfl
  · simp only [zstoreTxDataBio, htx]
    rw [← hw0]
    rfl

/-- A create or delete that is prepared while nothing is queued starts the loop. -/
theorem creDel_started {zs : ZstoreContext} {tx : ZstoreTransaction} {log : List PmLogEntry}
    (hprep : zstoreTxPrepare (env.uninit w.zs.tidMax) w.zs r (w.tx w.zs.tidMax) = .ok (0, zs, tx))
    (hacc : Accepted w.zs r zs tx) (hc : CreDel w.zs r log tx) (hlist : zs.txList = []) :
    ∃ w', zstoreObjAsyncOpCall env r w = .ok (0, w') ∧ Accepts r w w' zs tx ∧
      w'.stack = .drain :: w.stack := by
  generalize hw0 : ({ { w with zs := zs }.setTx w.zs.tidMax tx with
    before := Function.update w.before w.zs.tidMax w.zs
    after := Function.update w.after w.zs.tidMax zs } : World) = w0
  have htx : (zstoreTxEnqueue w.zs.tidMax w0).tx w.zs.tidMax = tx := by
    rw [← hw0]
    exact Function.update_self ..
  have hhead : (zstoreTxEnqueue w.zs.tidMax w0).zs.txList.head? = some w.zs.tidMax := by
    rw [← hw0]
    simp [zstoreTxEnqueue, World.note, World.setTx, hc.txType, hlist]
  have hex : zstoreTxExecute env w.zs.tidMax (zstoreTxEnqueue w.zs.tidMax w0) =
      .ok ((zstoreTxEnqueue w.zs.tidMax w0).push .drain) := by
    have hmeta := @metadata_ready env (zstoreTxEnqueue w.zs.tidMax w0) w.zs.tidMax
      (by rw [htx]; exact hc.state) (by rw [htx]; exact hc.txType) (by rw [htx]; exact hc.outstanding)
    rw [if_pos hhead] at hmeta
    simp only [zstoreTxExecute, htx, hc.state]
    exact hmeta
  have hcall : zstoreObjAsyncOpCall env r w = .ok (0, (zstoreTxEnqueue w.zs.tidMax w0).push .drain) := by
    simp only [zstoreObjAsyncOpCall, hprep, ne_eq, not_true_eq_false, if_false, hw0, hex]
  refine ⟨_, hcall, accepts_of_execute (Or.inr hacc) hw0.symm hex, ?_⟩
  rw [← hw0]
  rfl

/-- The loop commits the only transaction, whose callback is posted. -/
theorem drain_single (hlist : w.zs.txList = [tid]) (hst : (w.tx tid).state = .pmTx)
    (htype : (w.tx tid).txType = .write) (hsync : (w.tx tid).sync = true) {t : PmemTransaction}
    (ht : (w.tx tid).pmTx = some t) (s : List Frame) :
    ∃ w', drainRound env s w = .ok w' ∧ w'.stack = w.stack ∧ w'.zs.txList = [] := by
  have hno : ¬ (w.tx tid).state ≠ .pmTx := not_not.mpr hst
  simp only [drainRound, hlist, if_neg hno, ht]
  refine ⟨_, rfl, ?_, ?_⟩
  · simp [zstoreTxEnd, World.note, World.setTx, hsync]
  · rw [(end_write (by simp [World.note, World.setTx, htype])).1]
    simp [World.note, World.setTx]

/-- From `w`, request `r` brings the idle store to the idle store `w'`; its prepare function
left `zs`. -/
structure Settles (env : Env) (r : Request) (zs : ZstoreContext) (w w' : World) : Prop where
  steps : ∃ w1 w2, step env (.request r) w = some w1 ∧ step env .resume w1 = some w2 ∧
    step env .resume w2 = some w' ∧ callOf w1 .resume = none ∧ callOf w2 .resume = none
  stack : w'.stack = []
  txList : w'.zs.txList = []
  pmAllocator : w'.zs.pmAllocator = zs.pmAllocator
  onode : ∀ oid < 2 ^ 20, w'.zs.onode oid =
    if oid = r.object then loggedOnode w.zs r else w.zs.onode oid
  accepted : w'.accepted = w.accepted ++ [w.zs.tidMax]
  request : (w'.tx w.zs.tidMax).request = r
  older : ∀ t < w.zs.tidMax, (w'.tx t).request = (w.tx t).request

theorem Settles.run {zs : ZstoreContext} {w0 : World} {ok : World → Act → Prop}
    (h : Settles env r zs w w') (hrun : Run (step env) ok w0 w) (hok : ok w (.request r))
    (hresume : ∀ w, callOf w .resume = none → ok w .resume) : Run (step env) ok w0 w' := by
  obtain ⟨w1, w2, h1, h2, h3, hc1, hc2⟩ := h.steps
  exact ((hrun.next _ hok h1).next _ (hresume w1 hc1) h2).next _ (hresume w2 hc2) h3

/-- A create or delete on an idle store is accepted, committed, and leaves the store idle. -/
theorem creDel_settles {zs : ZstoreContext} {tx : ZstoreTransaction} {log : List PmLogEntry}
    (hw : WF w) (hs : w.stack = []) (hlist : w.zs.txList = []) (hop : r.op ≠ .read)
    (hprep : zstoreTxPrepare (env.uninit w.zs.tidMax) w.zs r (w.tx w.zs.tidMax) = .ok (0, zs, tx))
    (hacc : Accepted w.zs r zs tx) (hc : CreDel w.zs r log tx) (hzl : zs.txList = w.zs.txList)
    (hmem : zs.mem = w.zs.mem) (hot : zs.otable = w.zs.otable) : ∃ w', Settles env r zs w w' := by
  obtain ⟨w1, hcall, ha, hs1⟩ := creDel_started hprep hacc hc (hzl.trans hlist)
  have hstep1 := step_call hs hcall
  have hw1 := step_wf hw hstep1
  have hself : w1.tx w.zs.tidMax = tx := ha.tx_self
  have hbefore : w1.before w.zs.tidMax = w.zs := ha.before_self
  obtain ⟨hrd, _⟩ | ⟨_, n, hzs1⟩ := ha.kind
  · exact absurd hrd hop
  have hlist1 : w1.zs.txList = [w.zs.tidMax] := by
    rw [hzs1, hzl, hlist]
    rfl
  obtain ⟨p, hp, _⟩ := hc.log
  obtain ⟨w2, hdrain, hs2, hlist2⟩ := @drain_single env w1 w.zs.tidMax hlist1
    (by rw [hself]; exact hc.state) (by rw [hself]; exact hc.txType) (by rw [hself]; exact hc.sync) p
    (by rw [hself]; exact hp) []
  rw [hs] at hs1
  obtain hq | ⟨tid, t, hcom⟩ := drainRound_cases hw1 hdrain
  · have hbad := hq.zs.txList
    rw [hlist1, hlist2] at hbad
    cases hbad
  obtain rfl : w.zs.tidMax = tid := by
    have hhead := hcom.head
    rw [hlist1] at hhead
    exact (List.cons.inj hhead).1
  have hlast : step env .resume w2 = some { w2 with stack := [] } :=
    step_drain (hs2.trans hs1) (by simp [drainRound, hlist2])
  obtain ⟨m, hzs2⟩ := hcom.zs
  refine ⟨{ w2 with stack := [] }, ⟨w1, w2, hstep1, step_drain hs1 hdrain, hlast, by simp [callOf, hs1],
    by simp [callOf, hs2, hs1]⟩, rfl, hlist2, ?_, fun oid ho => ?_, ?_, ?_, fun t ht => ?_⟩
  · rw [hzs2, hzs1]
  · have hon := (hcom.effect hw1).onode oid ho
    have hreq : (w1.tx w.zs.tidMax).request = r := ha.request_self
    have hon1 : w1.zs.onode oid = w.zs.onode oid :=
      onode_congr (by rw [hzs1, hmem]) (by rw [hzs1, hot]) oid
    rw [hreq, hbefore, hon1] at hon
    exact hon
  · exact hcom.accepted.trans ha.accepted
  · exact (hcom.heap _).1.trans ha.request_self
  · have hold := (ha.older ht).1
    exact (hcom.heap t).1.trans (by rw [hold])

/-- A delete of an object whose index block is in the bitmap. -/
theorem delete_settles (hw : WF w) (hs : w.stack = []) (hlist : w.zs.txList = []) (hop : r.op = .delete)
    (hoid : r.object < w.zs.zsb.onodesRsv) (hval : (w.zs.onode r.object).valid = true)
    (hbm : (w.zs.onode r.object).dataIdxId / 512 < w.zs.pmAllocator.nrEntrys) :
    ∃ zs tx w', Deleted w.zs r zs tx ∧ Settles env r zs w w' := by
  have hobj : r.oid.toNat % 2 ^ 48 = r.object := rfl
  have hon : { w.zs with tidMax := w.zs.tidMax + 1 }.onode r.object = w.zs.onode r.object := rfl
  have hprep : ∃ zs tx, zstoreTxPrepare (env.uninit w.zs.tidMax) w.zs r (w.tx w.zs.tidMax) =
      .ok (0, zs, tx) := by
    simp only [zstoreTxPrepare, hop, txPrepCreDelCommon, hobj, if_neg (Nat.not_le_of_lt hoid), hon, hval,
      Bool.not_true, Bool.false_and, Bool.false_eq_true, if_false, reduceCtorEq, ne_eq, not_false_eq_true,
      decide_true, Bool.and_self, if_true, if_neg (Nat.not_le_of_lt hbm)]
    exact ⟨_, _, rfl⟩
  obtain ⟨zs, tx, hprep⟩ := hprep
  obtain ⟨hne, _⟩ | ⟨_, hd⟩ := prepare_delete hop hprep
  · exact absurd rfl hne
  obtain ⟨w', h⟩ := creDel_settles hw hs hlist (by simp [hop]) hprep (.delete hop hd) hd.tx
    (by rw [hd.store]) (by rw [hd.store]) (by rw [hd.store])
  exact ⟨zs, tx, w', hd, h⟩

end Calls

end ZCell.Store
