import ZCell.TxQueue
import ZCell.OnodeHistory

/-! The queue of the store is the abstract one: every step of the store is one of its
transitions, or leaves it alone. -/
namespace ZCell.Store
open Bytes Persist Pm Runs

def ZstoreTransaction.item (tx : ZstoreTransaction) : Item where
  rdonly := decide (tx.txType = .rdonly)
  sync := tx.sync
  ready := decide (tx.state = .pmTx)
  bios := tx.bioOutstanding

def World.queue (w : World) : TxQueue where
  next := w.zs.tidMax
  item t := (w.tx t).item
  writes := w.zs.txList
  writesOut := w.zs.txOutstanding
  reads := w.zs.txRdonlyList
  readsOut := w.zs.txRdonlyOutstanding
  flight := w.flight.map Flight.tid
  posted := w.posted
  draining := decide (Frame.drain ∈ w.stack)
  log := w.log

/-- The device refuses no bio. -/
def Env.Accepting (env : Env) : Prop := ∀ t i, env.submit t i = true

section Simulation
variable {env : Env} {w w' : World} {r : Request} {t : Nat} {a : Act}

theorem queue_setTx (w : World) (t : Nat) (tx : ZstoreTransaction) :
    (w.setTx t tx).queue = { w.queue with item := Function.update w.queue.item t tx.item } := by
  have hitem : (fun i => (Function.update w.tx t tx i).item) =
      Function.update w.queue.item t tx.item := by
    funext i
    by_cases hi : i = t
    · subst hi
      rw [Function.update_self, Function.update_self]
    · rw [Function.update_of_ne hi, Function.update_of_ne hi]
      rfl
  rw [← hitem]
  rfl

theorem queue_setTx_same (w : World) {tx : ZstoreTransaction} (h : tx.item = (w.tx t).item) :
    (w.setTx t tx).queue = w.queue := by
  have hself : tx.item = w.queue.item t := h
  rw [queue_setTx, hself, Function.update_eq_self]

theorem queue_userCb (w : World) (calls : List Request) :
    (w.push (.userCb calls)).queue = w.queue := by
  simp [World.queue, World.push]

theorem queue_drain (w : World) : (w.push .drain).queue = { w.queue with draining := true } := by
  simp [World.queue, World.push]

theorem queue_end (env : Env) (t : Nat) (w : World) :
    (zstoreTxEnd env t w).queue = w.queue.leave t := by
  have hrd : (w.queue.item t).rdonly = decide ((w.tx t).txType = .rdonly) := rfl
  have hsync : (w.queue.item t).sync = (w.tx t).sync := rfl
  rw [zstoreTxEnd, TxQueue.leave, hrd, hsync]
  cases (w.tx t).sync with
  | true =>
    by_cases h : (w.tx t).txType = .rdonly
    · simp [h, World.queue, World.note]
    · simp [h, World.queue, World.note]
  | false =>
    simp only [Bool.false_eq_true, if_false, queue_userCb]
    by_cases h : (w.tx t).txType = .rdonly
    · simp [h, World.queue, World.note]
    · simp [h, World.queue, World.note]

/-- The callback of the last bio of a write, or the end of a create or delete that came in. -/
theorem queue_metadata (hb : (w.tx t).bioOutstanding = 0) (htype : (w.tx t).txType ≠ .rdonly)
    (h : zstoreTxMetadata env t w = .ok w') : w'.queue = { w.queue with
      item := Function.update w.queue.item t { w.queue.item t with ready := true }
      draining := w.queue.draining || w.queue.writes.head? == some t } := by
  have hb' : ¬ (w.tx t).bioOutstanding ≠ 0 := not_not.mpr hb
  simp only [zstoreTxMetadata, if_neg hb', if_neg htype] at h
  obtain rfl := Except.ok.inj h
  have hitem : ({ w.tx t with state := .pmTx } : ZstoreTransaction).item =
      { w.queue.item t with ready := true } := by
    simp [ZstoreTransaction.item, World.queue]
  have hhead : w.queue.writes.head? = (w.setTx t { w.tx t with state := .pmTx }).zs.txList.head? := rfl
  have hset := queue_setTx w t { w.tx t with state := .pmTx }
  rw [hitem] at hset
  rw [hhead]
  split
  · rename_i hd
    rw [queue_drain, hset, hd]
    simp
  · rename_i hd
    rw [hset]
    simp [hd]

/-- What an accepted request leaves of the store's part of the queue. -/
structure Entering (zs zs' : ZstoreContext) (tx : ZstoreTransaction) : Prop where
  tidMax : zs'.tidMax = zs.tidMax + 1
  txList : zs'.txList = zs.txList
  txOutstanding : zs'.txOutstanding = zs.txOutstanding
  txRdonlyList : zs'.txRdonlyList = zs.txRdonlyList
  txRdonlyOutstanding : zs'.txRdonlyOutstanding = zs.txRdonlyOutstanding
  kind : tx.state = .dataIo ∧ tx.sync = false ∧ tx.bios ≠ [] ∧ tx.bioOutstanding = tx.bios.length ∨
    tx.state = .pmTx ∧ tx.sync = true ∧ tx.txType = .write ∧ tx.bioOutstanding = 0

theorem Written.bios_ne {zs zs' : ZstoreContext} {tx : ZstoreTransaction}
    (h : Written zs r zs' tx) : tx.bios ≠ [] := by
  obtain ⟨hcount, _⟩ := Allocator.alloc_extents h.blen_pos h.room
  obtain ⟨u, hbios⟩ := h.bios
  rw [hbios]
  intro hnil
  obtain ⟨hmap, _⟩ := List.append_eq_nil_iff.mp hnil
  have hext : newExtents zs r = [] := List.map_eq_nil_iff.mp hmap
  rw [newExtents] at hext
  rw [hext] at hcount
  have hpos := h.blen_pos
  simp [Allocator.blocks] at hcount
  omega

theorem Written.bios_length {zs zs' : ZstoreContext} {tx : ZstoreTransaction}
    (h : Written zs r zs' tx) : tx.bioOutstanding = tx.bios.length := by
  obtain ⟨u, hbios⟩ := h.bios
  rw [h.outstanding, hbios, writeBios_length]

theorem ReadOk.entering {zs zs' : ZstoreContext} {tx : ZstoreTransaction} (h : ReadOk zs r zs' tx) :
    Entering zs zs' tx := by
  rw [h.store]
  exact ⟨rfl, rfl, rfl, rfl, rfl, Or.inl ⟨h.state, h.sync, h.bios_ne, h.outstanding⟩⟩

theorem Accepted.entering {zs zs' : ZstoreContext} {tx : ZstoreTransaction}
    (h : Accepted zs r zs' tx) : Entering zs zs' tx := by
  cases h with
  | write _ h =>
    rw [h.store]
    exact ⟨rfl, rfl, rfl, rfl, rfl, Or.inl ⟨h.state, h.sync, h.bios_ne, h.bios_length⟩⟩
  | create _ h =>
    rw [h.store]
    exact ⟨rfl, rfl, rfl, rfl, rfl, Or.inr ⟨h.tx.state, h.tx.sync, h.tx.txType, h.tx.outstanding⟩⟩
  | delete _ h =>
    rw [h.store]
    exact ⟨rfl, rfl, rfl, rfl, rfl, Or.inr ⟨h.tx.state, h.tx.sync, h.tx.txType, h.tx.outstanding⟩⟩

theorem prepare_entering (hf : Formatted w.zs) {g : Uninit} {zs : ZstoreContext}
    {tx0 tx : ZstoreTransaction} (h : zstoreTxPrepare g w.zs r tx0 = .ok (0, zs, tx)) :
    Entering w.zs zs tx := by
  obtain ⟨_, hr⟩ | ha := prepare_accepted hf h
  · exact hr.entering
  · exact ha.entering

theorem queue_enqueue (t : Nat) (w : World) : (zstoreTxEnqueue t w).queue =
    let rd := (w.queue.item t).rdonly
    { w.queue with
      writes := if rd then w.queue.writes else w.queue.writes ++ [t]
      writesOut := if rd then w.queue.writesOut else w.queue.writesOut + 1
      reads := if rd then w.queue.reads ++ [t] else w.queue.reads
      readsOut := if rd then w.queue.readsOut + 1 else w.queue.readsOut
      log := w.queue.log ++ [.accept t] } := by
  have hrd : (w.queue.item t).rdonly = decide ((w.tx t).txType = .rdonly) := rfl
  rw [hrd, zstoreTxEnqueue]
  by_cases h : (w.tx t).txType = .rdonly
  · simp [h, World.queue, World.note]
  · simp [h, World.queue, World.note]

theorem submitBios_tids (submit : Nat → Bool) (t : Nat) (bs : List Bio) (i : Nat) (buf : BitVec 64) :
    ∃ m, (submitBios submit t i buf bs).map Flight.tid = List.replicate m t ∧
      m ≤ bs.length ∧ ((∀ j, submit j = true) → m = bs.length) := by
  induction bs generalizing i buf with
  | nil => exact ⟨0, rfl, Nat.le_refl _, fun _ => rfl⟩
  | cons b bs ih =>
    unfold submitBios
    by_cases hs : submit i = true
    · obtain ⟨m, h1, h2, h3⟩ := ih (i + 1) (buf + BitVec.ofNat 64 (b.blkLen.toNat * zstorePageSize))
      refine ⟨m + 1, ?_, Nat.succ_le_succ h2, fun hall => by rw [h3 hall, List.length_cons]⟩
      rw [if_pos hs, List.map_cons, h1, List.replicate_succ]
    · exact ⟨0, by rw [if_neg hs]; rfl, Nat.zero_le _, fun hall => absurd (hall i) hs⟩

theorem queue_dataBio (env : Env) (t : Nat) (w : World) : ∃ m,
    TxQueue.InFlight env.Accepting m (w.tx t).bios.length ∧ (zstoreTxDataBio env t w).queue =
      { w.queue with
        flight := w.queue.flight ++ List.replicate m t
        log := w.queue.log ++ List.replicate m (.submit t) } := by
  obtain ⟨m, h1, h2, h3⟩ := submitBios_tids (env.submit t) t (w.tx t).bios 0 (w.tx t).dataBuffer
  have hlog : (submitBios (env.submit t) t 0 (w.tx t).dataBuffer (w.tx t).bios).map
      (fun f => Obs.submit f.tid) = List.replicate m (.submit t) := by
    have hcomp : (fun f : Flight => Obs.submit f.tid) = Obs.submit ∘ Flight.tid := rfl
    rw [hcomp, ← List.map_map, h1, List.map_replicate]
  refine ⟨m, ⟨h2, fun hall => h3 (hall t)⟩, ?_⟩
  simp only [World.queue, zstoreTxDataBio, List.map_append, h1, hlog]

/-- An accepted call, from the world in which the transaction has been prepared. -/
theorem queue_accept {w1 : World} {tx : ZstoreTransaction}
    (htx : w1.tx w.zs.tidMax = tx) (he : Entering w.zs w1.zs tx)
    (hq : w1.queue = { w.queue with
      next := w.zs.tidMax + 1, item := Function.update w.queue.item w.zs.tidMax tx.item })
    (h : zstoreTxExecute env w.zs.tidMax (zstoreTxEnqueue w.zs.tidMax w1) = .ok w')
    (hfresh : w.zs.tidMax ∉ w.zs.txList) :
    TxQueue.Step env.Accepting w.queue w'.queue := by
  have hself : (w1.queue.item w.zs.tidMax) = tx.item := by
    rw [hq]
    exact Function.update_self ..
  have htx2 : (zstoreTxEnqueue w.zs.tidMax w1).tx w.zs.tidMax = tx := htx
  have hen := queue_enqueue w.zs.tidMax w1
  rw [hself, hq] at hen
  obtain ⟨hst, hsync, hne, hout⟩ | ⟨hst, hsync, htype, hout⟩ := he.kind
  · simp only [zstoreTxExecute, htx2, hst, Except.ok.injEq] at h
    subst h
    obtain ⟨m, hm, hdata⟩ := queue_dataBio env w.zs.tidMax (zstoreTxEnqueue w.zs.tidMax w1)
    rw [htx2] at hm
    have hitem : tx.item = ⟨tx.item.rdonly, false, false, tx.bios.length⟩ := by
      simp [ZstoreTransaction.item, hst, hsync, hout]
    have hstep := @TxQueue.Step.data _ w.queue tx.item.rdonly tx.bios.length m
      (List.length_pos_of_ne_nil hne) hm
    rw [← hitem] at hstep
    rw [hdata, hen]
    simpa [TxQueue.enter, World.queue] using hstep
  · have hitem : tx.item = ⟨false, true, true, 0⟩ := by
      simp [ZstoreTransaction.item, hst, hsync, hout, htype]
    simp only [zstoreTxExecute, htx2, hst] at h
    have hmeta := queue_metadata (by rw [htx2]; exact hout) (by rw [htx2, htype]; decide) h
    rw [hen, hitem] at hmeta
    have hhead : ((w.zs.txList ++ [w.zs.tidMax]).head? == some w.zs.tidMax) =
        w.zs.txList.isEmpty := by
      cases hl : w.zs.txList with
      | nil => simp
      | cons x xs =>
        have hx : x ≠ w.zs.tidMax := by
          rintro rfl
          exact hfresh (by rw [hl]; exact List.mem_cons_self ..)
        simp [hx]
    have hstep := @TxQueue.Step.change env.Accepting w.queue
    rw [hmeta]
    simpa [TxQueue.enter, World.queue, -List.head?_append, hhead] using hstep

theorem WF.tidMax_fresh (hw : WF w) : w.zs.tidMax ∉ w.zs.txList :=
  fun hm => Nat.lt_irrefl _ (hw.queued w.zs.tidMax hm).tid_lt

theorem call_transition {rc : Int} (hf : Formatted w.zs) (hfresh : w.zs.tidMax ∉ w.zs.txList)
    (h : zstoreObjAsyncOpCall env r w = .ok (rc, w')) :
    TxQueue.Step env.Accepting w.queue w'.queue := by
  simp only [zstoreObjAsyncOpCall] at h
  split at h
  · cases h
  · rename_i rc0 zs tx hp
    split at h
    · rename_i hrc
      simp only [Except.ok.injEq, Prod.mk.injEq] at h
      obtain ⟨rfl, rfl⟩ := h
      have hfr := (prepare_rejected hf.shift hrc hp).frame
      have hset := queue_setTx { w with zs := zs } w.zs.tidMax tx
      have hstep := @TxQueue.Step.reject env.Accepting w.queue tx.item rc0
      have hqueue : ({ w with zs := zs } : World).queue = { w.queue with next := w.zs.tidMax + 1 } := by
        rw [hfr]
        rfl
      have hnote : ((World.setTx { w with zs := zs } w.zs.tidMax tx).note
          (.reject w.zs.tidMax rc0)).queue =
          { (World.setTx { w with zs := zs } w.zs.tidMax tx).queue with
            log := w.log ++ [.reject w.zs.tidMax rc0] } := rfl
      rw [hnote, hset, hqueue]
      exact hstep
    · rename_i hz
      obtain rfl := not_not.mp hz
      split at h
      · cases h
      · rename_i w2 hex
        simp only [Except.ok.injEq, Prod.mk.injEq] at h
        obtain ⟨_, rfl⟩ := h
        have he := prepare_entering hf hp
        refine queue_accept (Function.update_self ..) he ?_ hex hfresh
        have hset := queue_setTx { w with zs := zs } w.zs.tidMax tx
        have hqueue : ({ w with zs := zs } : World).queue =
            { w.queue with next := w.zs.tidMax + 1 } := by
          simp only [World.queue, he.tidMax, he.txList, he.txOutstanding, he.txRdonlyList,
            he.txRdonlyOutstanding]
        rw [hqueue] at hset
        exact hset

theorem bio_transition {success : Bool} {k : Nat} {f : Flight} {full : Prop}
    (hi : TxQueue.Inv full w.queue) (hk : w.flight[k]? = some f)
    (h : zstoreBioCb env success f.tid
      ({ w with flight := w.flight.eraseIdx k }.note (.done f.tid)) = .ok w') :
    TxQueue.Step full w.queue w'.queue := by
  have hk' : w.queue.flight[k]? = some f.tid := by
    simp only [World.queue, List.getElem?_map, hk, Option.map_some]
  generalize ht : f.tid = t at h hk'
  generalize hw1 : World.note _ (Obs.done t) = w1 at h
  have hq1 : ∀ tx : ZstoreTransaction, (w1.setTx t tx).queue = w.queue.complete k t tx.item := by
    intro tx
    rw [queue_setTx, ← hw1]
    simp only [World.queue, World.note, TxQueue.complete, List.eraseIdx_map]
    rfl
  have htx : w1.tx t = w.tx t := by
    rw [← hw1]
    rfl
  -- a transaction with a bio in flight waits for one
  have hmem := hi.live.flight t (List.mem_of_getElem? hk')
  have hle := (hi.live.count t hmem).1
  have hpos := List.count_pos_iff.mpr (List.mem_of_getElem? hk')
  have hout : (w.queue.item t).bios = (w.tx t).bioOutstanding := rfl
  have hrd : (w.queue.item t).rdonly = decide ((w.tx t).txType = .rdonly) := rfl
  unfold zstoreBioCb at h
  split at h
  · cases h
  · simp only [htx] at h
    split at h
    · rename_i hzero
      have hone : (w.queue.item t).bios = 1 := by omega
      generalize htx2 : ({ w.tx t with
        bioOutstanding := (w.tx t).bioOutstanding - 1, state := .pmTx, bios := [] } :
          ZstoreTransaction) = tx2 at h
      have hitem : tx2.item = { w.queue.item t with ready := true, bios := 0 } := by
        rw [← htx2]
        simp [ZstoreTransaction.item, World.queue, hzero]
      have hself : (w1.setTx t tx2).tx t = tx2 := Function.update_self ..
      have hset := hq1 tx2
      rw [hitem] at hset
      have hst : tx2.state = .pmTx := by rw [← htx2]
      have hb2 : tx2.bioOutstanding = 0 := by rw [← htx2]; exact hzero
      have htype : tx2.txType = (w.tx t).txType := by rw [← htx2]
      simp only [zstoreTxExecute, hself, hst] at h
      by_cases hr : (w.tx t).txType = .rdonly
      · have hb' : ¬ ((w1.setTx t tx2).tx t).bioOutstanding ≠ 0 := by
          rw [hself]
          exact not_not.mpr hb2
        have hr' : ((w1.setTx t tx2).tx t).txType = .rdonly := by rw [hself, htype, hr]
        simp only [zstoreTxMetadata, if_neg hb', if_pos hr'] at h
        obtain rfl := Except.ok.inj h
        rw [queue_end, hset]
        exact .lastRead k t hk' hone (by rw [hrd, hr]; rfl)
      · have hm := queue_metadata (by rw [hself]; exact hb2) (by rw [hself, htype]; exact hr) h
        rw [hm, hset]
        have hstep := @TxQueue.Step.lastWrite full w.queue k t hk' hone (by rw [hrd]; simpa using hr)
        have hupd : Function.update (w.queue.complete k t
            { w.queue.item t with ready := true, bios := 0 }).item t
            { (w.queue.complete k t { w.queue.item t with ready := true, bios := 0 }).item t with
              ready := true } =
            (w.queue.complete k t { w.queue.item t with ready := true, bios := 0 }).item := by
          simp [TxQueue.complete]
        rw [hupd]
        exact hstep
    · rename_i hmore
      obtain rfl := Except.ok.inj h
      have hset := hq1 { w.tx t with bioOutstanding := (w.tx t).bioOutstanding - 1 }
      rw [hset]
      exact .bio k t hk' (by omega)

theorem drain_transition {s : List Frame} {full : Prop} (h : drainRound env s w = .ok w') :
    TxQueue.Step full w.queue w'.queue := by
  have hpause : ∀ d, ((∀ t, w.queue.writes.head? = some t → (w.queue.item t).ready = false) →
      TxQueue.Step full w.queue { w.queue with draining := d }) :=
    fun d hno => .pause d (Or.inr hno)
  have hleave : ({ w with stack := s } : World).queue =
      { w.queue with draining := decide (Frame.drain ∈ s) } := rfl
  unfold drainRound at h
  split at h
  · rename_i hnil
    obtain rfl := Except.ok.inj h
    rw [hleave]
    refine hpause _ fun t ht => ?_
    simp [World.queue, hnil] at ht
  · rename_i t rest hlist
    have hhead : w.queue.writes.head? = some t := by simp [World.queue, hlist]
    split at h
    · rename_i hst
      obtain rfl := Except.ok.inj h
      rw [hleave]
      refine hpause _ fun u hu => ?_
      rw [hhead] at hu
      obtain rfl := Option.some.inj hu
      exact decide_eq_false hst
    · rename_i hst
      split at h
      · cases h
      · have hready : (w.queue.item t).ready = true := decide_eq_true (not_not.mp hst)
        simp only [pmemTransactionApply, if_true, Except.ok.injEq] at h
        generalize hw1 : (World.setTx _ t _).note (.apply t) = w1 at h
        have hq1 : w1.queue = { w.queue with log := w.queue.log ++ [.apply t] } := by
          have hitem := @queue_setTx_same t w { w.tx t with err := Status.success.code } rfl
          rw [← hw1, ← hitem]
          rfl
        rw [← h, queue_end, hq1]
        exact .commit t hhead hready

/-- Every step of the store is a transition of the queue, or none. -/
theorem step_transition (hw : WF w) (hi : TxQueue.Inv env.Accepting w.queue)
    (h : step env a w = some w') :
    w'.queue = w.queue ∨ TxQueue.Step env.Accepting w.queue w'.queue := by
  unfold step at h
  split at h
  · replace h := toOption_eq_some h
    cases a with
    | request r =>
      simp only [act] at h
      split at h
      · cases h
      · rename_i rc w2 hc
        obtain rfl := Except.ok.inj h
        exact Or.inr (call_transition hw.formatted hw.tidMax_fresh hc)
    | bioDone k success =>
      simp only [act] at h
      split at h
      · obtain rfl := Except.ok.inj h
        exact Or.inl rfl
      · rename_i f hk
        exact Or.inr (bio_transition hi hk h)
    | message k =>
      simp only [act] at h
      split at h
      · obtain rfl := Except.ok.inj h
        exact Or.inl rfl
      · rename_i t hk
        obtain rfl := Except.ok.inj h
        rw [queue_userCb]
        exact Or.inr (.deliver k t hk)
    | resume =>
      simp only [act, resume] at h
      split at h
      · obtain rfl := Except.ok.inj h
        exact Or.inl rfl
      · rename_i s hstack
        obtain rfl := Except.ok.inj h
        left
        simp [World.queue, hstack]
      · rename_i r rs s hstack
        split at h
        · cases h
        · rename_i rc w2 hc
          obtain rfl := Except.ok.inj h
          have hqueue : ({ w with stack := .userCb rs :: s } : World).queue = w.queue := by
            simp [World.queue, hstack]
          have hstep := @call_transition env { w with stack := .userCb rs :: s } w2 r rc
            hw.formatted hw.tidMax_fresh hc
          rw [hqueue] at hstep
          exact Or.inr hstep
      · rename_i s hstack
        exact Or.inr (drain_transition h)
  · cases h

theorem Mounted.queue (h : Mounted w) : TxQueue.Inv env.Accepting w.queue := by
  have hlog : w.queue.log = [] := h.log
  have hw : w.queue.writes = [] := h.txList
  have hr : w.queue.reads = [] := h.txRdonlyList
  have hf : w.queue.flight = [] := by simp [World.queue, h.flight]
  have hp : w.queue.posted = [] := h.posted
  have ho : w.queue.writesOut = 0 := h.txOutstanding
  have hro : w.queue.readsOut = 0 := h.txRdonlyOutstanding
  have hacc : w.queue.accepted = [] := by rw [TxQueue.accepted, hlog, List.filterMap_nil]
  have happ : w.queue.applied = [] := by rw [TxQueue.applied, hlog, List.filterMap_nil]
  have hend : w.queue.ended = [] := by rw [TxQueue.ended, hlog, List.filterMap_nil]
  constructor
  · constructor
    all_goals simp [hlog, hw, hr, hf, hp, ho, hro, hacc, happ, hend, TxQueue.Ordered.nil]
  · constructor
    all_goals simp [hw, hr, hf]

end Simulation

section Submits
variable {full : Prop} {q q' : TxQueue} {t : Nat}

/-- Bios are submitted with the request, and not later. -/
theorem submits_step (hl : TxQueue.Ledger q) (hs : TxQueue.Step full q q') :
    (∀ t < q.next, q'.log.count (.submit t) = q.log.count (.submit t)) ∧
    (.accept q.next ∈ q'.log →
      TxQueue.InFlight full (q'.log.count (.submit q.next)) (q'.item q.next).bios) := by
  have hacc : .accept q.next ∉ q.log := fun hm => Nat.lt_irrefl _ (hl.known _ hm)
  have hsub : q.log.count (.submit q.next) = 0 := hl.fresh (Nat.le_refl _)
  -- what is neither an accept nor a submit can be appended
  have hother : ∀ os : List Obs, (∀ o ∈ os, (∀ t, o ≠ .submit t) ∧ ∀ t, o ≠ .accept t) →
      q'.log = q.log ++ os →
      (∀ t < q.next, q'.log.count (.submit t) = q.log.count (.submit t)) ∧
      (.accept q.next ∈ q'.log →
        TxQueue.InFlight full (q'.log.count (.submit q.next)) (q'.item q.next).bios) := by
    intro os hos hlog
    rw [hlog]
    constructor
    · intro t _
      have hz : os.count (.submit t) = 0 :=
        List.count_eq_zero.mpr fun hm => (hos _ hm).1 t rfl
      rw [List.count_append, hz, Nat.add_zero]
    · intro hm
      obtain hm | hm := List.mem_append.mp hm
      · exact absurd hm hacc
      · exact absurd rfl ((hos _ hm).2 q.next)
  have hend : ∀ (b : Bool) (t : Nat), (∀ u, (if b then Obs.post t else .callback t) ≠ .submit u) ∧
      ∀ u, (if b then Obs.post t else .callback t) ≠ .accept u := by
    intro b t
    cases b <;> simp
  have henter : ∀ (it : Item) (m : Nat), ∀ t, (q.enter it m).log.count (.submit t) =
      q.log.count (.submit t) + if q.next = t then m else 0 := by
    intro it m t
    simp [TxQueue.enter, List.count_append, List.count_replicate]
  cases hs with
  | reject it rc => exact hother [.reject q.next rc] (by simp) rfl
  | data rdonly n m hn hm =>
    refine ⟨fun t ht => ?_, fun _ => ?_⟩
    · rw [henter, if_neg (Nat.ne_of_gt ht), Nat.add_zero]
    · rw [henter, if_pos rfl, hsub, Nat.zero_add]
      simpa [TxQueue.enter] using hm
  | change =>
    refine ⟨fun t ht => ?_, fun _ => ?_⟩
    · exact (henter ⟨false, true, true, 0⟩ 0 t).trans
        (by rw [if_neg (Nat.ne_of_gt ht), Nat.add_zero])
    · have hc : (q.enter ⟨false, true, true, 0⟩ 0).log.count (.submit q.next) = 0 := by
        rw [henter, if_pos rfl, hsub]
      simp only [hc]
      exact ⟨Nat.zero_le _, fun _ => by simp [TxQueue.enter]⟩
  | bio k t hk hb => exact hother [.done t] (by simp) rfl
  | lastWrite k t hk hb hw => exact hother [.done t] (by simp) rfl
  | lastRead k t hk hb hr =>
    have hlog : ((q.complete k t { q.item t with ready := true, bios := 0 }).leave t).log =
        q.log ++ [.done t, if (q.item t).sync then .post t else .callback t] := by
      simp [TxQueue.leave, TxQueue.complete]
    refine hother _ (fun o ho => ?_) hlog
    obtain rfl | ho := List.mem_cons.mp ho
    · simp
    · obtain rfl := List.mem_singleton.mp ho
      exact hend _ t
  | deliver k t hk => exact hother [.deliver t] (by simp) rfl
  | pause d hd => exact hother [] (by simp) (List.append_nil _).symm
  | commit t ht hr =>
    have hlog : (TxQueue.leave { q with log := q.log ++ [.apply t] } t).log =
        q.log ++ [.apply t, if (q.item t).sync then .post t else .callback t] := by
      simp [TxQueue.leave]
    refine hother _ (fun o ho => ?_) hlog
    obtain rfl | ho := List.mem_cons.mp ho
    · simp
    · obtain rfl := List.mem_singleton.mp ho
      exact hend _ t

end Submits

section Entries
variable {env : Env} {w w' : World} {a : Act} {t : Nat}

/-- The bios of a create, delete or write. -/
def bioCount (zs : ZstoreContext) (r : Request) : Nat :=
  if r.op = .write then bioNr zs r else 0

/-- What kind of transaction an accepted request has become, and how many bios were submitted. -/
structure Entered (full : Prop) (w : World) (t : Nat) : Prop where
  known : (w.tx t).request.op ≠ .other
  rdonly : (w.tx t).txType = .rdonly ↔ (w.tx t).request.op = .read
  sync : (w.tx t).sync = true ↔ (w.tx t).request.op = .create ∨ (w.tx t).request.op = .delete
  submits : full → (w.tx t).request.op ≠ .read →
    w.log.count (.submit t) = bioCount (w.before t) (w.tx t).request

theorem Accepts.entered {r : Request} {zs : ZstoreContext} {tx : ZstoreTransaction}
    (ha : Accepts r w w' zs tx) (hcount : TxQueue.InFlight env.Accepting
      (w'.log.count (.submit w.zs.tidMax)) tx.bioOutstanding) :
    Entered env.Accepting w' w.zs.tidMax := by
  have hself : w'.tx w.zs.tidMax = tx := ha.tx_self
  have hbefore : w'.before w.zs.tidMax = w.zs := ha.before_self
  obtain ⟨hop, hr, _⟩ | ⟨hacc, _⟩ := ha.kind
  · refine ⟨?_, ?_, ?_, ?_⟩
    · simp [hself, hr.request, hop]
    · simp [hself, hr.txType, hr.request, hop]
    · simp [hself, hr.sync, hr.request, hop]
    · intro _ hne
      rw [hself, hr.request] at hne
      exact absurd hop hne
  · have hreq := hacc.request.1
    have htype := hacc.txType
    refine ⟨?_, ?_, ?_, fun hf _ => ?_⟩
    · rw [hself, hreq]
      cases hacc with
      | write hop h => simp [hop]
      | create hop h => simp [hop]
      | delete hop h => simp [hop]
    · simp [hself, htype, hreq, hacc.request.2]
    · rw [hself, hreq]
      cases hacc with
      | write hop h => simp [h.sync, hop]
      | create hop h => simp [h.tx.sync, hop]
      | delete hop h => simp [h.tx.sync, hop]
    · rw [hcount.2 hf, hself, hbefore, hreq, bioCount]
      cases hacc with
      | write hop h => rw [if_pos hop, h.outstanding]
      | create hop h => rw [if_neg (by rw [hop]; decide), h.tx.outstanding]
      | delete hop h => rw [if_neg (by rw [hop]; decide), h.tx.outstanding]

/-- Everything that is kept of the accepted requests along a run. -/
structure FifoInv (env : Env) (w : World) : Prop where
  wf : WF w
  logged : Logged w
  order : InOrder w
  queue : TxQueue.Inv env.Accepting w.queue
  entered : ∀ t ∈ w.accepted, Entered env.Accepting w t

/-- What a step submits of older transactions and of the one it accepts. -/
theorem FifoInv.submits (hi : FifoInv env w) (h : step env a w = some w') :
    (∀ t < w.zs.tidMax, w'.log.count (.submit t) = w.log.count (.submit t)) ∧
    (.accept w.zs.tidMax ∈ w'.log → TxQueue.InFlight env.Accepting
      (w'.log.count (.submit w.zs.tidMax)) (w'.tx w.zs.tidMax).bioOutstanding) := by
  obtain hq | hq := step_transition hi.wf hi.queue h
  · have hlog : w'.log = w.log := congrArg TxQueue.log hq
    rw [hlog]
    refine ⟨fun _ _ => rfl, fun hm => ?_⟩
    exact absurd (hi.queue.ledger.known _ hm) (Nat.lt_irrefl _)
  · exact submits_step hi.queue.ledger hq

theorem Accepts.logged {r : Request} {zs : ZstoreContext} {tx : ZstoreTransaction}
    (ha : Accepts r w w' zs tx) : .accept w.zs.tidMax ∈ w'.log := by
  have hlast : w.zs.tidMax ∈ w'.queue.accepted := ha.mem_accepted
  exact TxQueue.mem_accepted.mp hlast

theorem FifoInv.step (hi : FifoInv env w) (h : step env a w = some w') : FifoInv env w' := by
  have hqueue : TxQueue.Inv env.Accepting w'.queue := by
    obtain hq | hq := step_transition hi.wf hi.queue h
    · rw [hq]
      exact hi.queue
    · exact hi.queue.step hq
  have hsub := hi.submits h
  have hold : ∀ t ∈ w.accepted, Entered env.Accepting w' t := by
    intro t ht
    have hlt := hi.logged.1 t ht
    obtain ⟨h0, h1, h2, h3⟩ := hi.entered t ht
    obtain ⟨⟨k1, _, k3, k4⟩, k5, _⟩ := (step_keeps hi.wf h).2 t hlt
    refine ⟨?_, ?_, ?_, fun hf hne => ?_⟩
    · rw [k1]
      exact h0
    · rw [k3, k1]
      exact h1
    · rw [k4, k1]
      exact h2
    · rw [k1] at hne
      rw [hsub.1 t hlt, k5, k1]
      exact h3 hf hne
  refine ⟨step_wf hi.wf h, step_logged hi.wf hi.logged h, step_inOrder hi.wf hi.logged hi.order h,
    hqueue, fun t ht => ?_⟩
  obtain hq | ⟨r, _, ⟨rc, tx, hr⟩ | ⟨zs, tx, ha⟩⟩ | ⟨tid, p, hc⟩ := step_cases hi.wf h
  · exact hold t (hq.accepted ▸ ht)
  · exact hold t (hr.accepted ▸ ht)
  · rw [ha.accepted] at ht
    obtain ht | ht := List.mem_append.mp ht
    · exact hold t ht
    · obtain rfl := List.mem_singleton.mp ht
      have hself : w'.tx w.zs.tidMax = tx := ha.tx_self
      have hin := hsub.2 ha.logged
      rw [hself] at hin
      exact ha.entered hin
  · exact hold t (hc.accepted ▸ ht)

/-- The transactions whose callback was invoked or posted. -/
def World.ended (w : World) : List Nat := w.log.filterMap Obs.endedTid

/-- Commits and callbacks of the accepted requests, as the log shows them and as the lists of the
store hold the rest. -/
structure Fifo (w : World) : Prop where
  /-- In the order in which they were accepted, and once. -/
  order : w.accepted.filter (fun t => decide ((w.tx t).request.op ≠ .read)) =
    w.applied ++ w.zs.txList
  once : w.accepted.Nodup
  applied : ∀ pre t suf, w.log = pre ++ .apply t :: suf →
    pre.count (.done t) = bioCount (w.before t) (w.tx t).request
  ended : ∀ t ∈ w.accepted,
    w.ended.count t + w.zs.txList.count t + w.zs.txRdonlyList.count t = 1
  callback : ∀ pre t suf, w.log = pre ++ .callback t :: suf →
    ((w.tx t).request.op = .read ∨ (w.tx t).request.op = .write) ∧
    ((w.tx t).request.op ≠ .read → .apply t ∈ pre)
  post : ∀ pre t suf, w.log = pre ++ .post t :: suf →
    ((w.tx t).request.op = .create ∨ (w.tx t).request.op = .delete) ∧ .apply t ∈ pre
  head : w.stack = [] → ∀ t, w.zs.txList.head? = some t → (w.tx t).state ≠ .pmTx
  txOutstanding : w.zs.txOutstanding = w.zs.txList.length
  txRdonlyOutstanding : w.zs.txRdonlyOutstanding = w.zs.txRdonlyList.length
  settled : w.stack = [] → w.flight = [] → w.zs.txList = [] ∧ w.zs.txRdonlyList = []

theorem Mounted.fifoInv (h : Mounted w) : FifoInv env w := by
  refine ⟨h.wf, h.logged, h.inOrder, h.queue, fun t ht => ?_⟩
  simp [World.accepted, h.log] at ht

theorem FifoInv.settled (hi : FifoInv env w) (hacc : env.Accepting) (hs : w.stack = [])
    (hf : w.flight = []) : w.zs.txList = [] ∧ w.zs.txRdonlyList = [] := by
  -- a transaction with nothing in flight is ready
  have hready : ∀ t, t ∈ w.queue.writes ∨ t ∈ w.queue.reads → (w.queue.item t).ready = true := by
    intro t ht
    have hc := (hi.queue.live.count t ht).2 hacc
    have hnil : w.queue.flight = [] := by simp [World.queue, hf]
    rw [hnil, List.count_nil] at hc
    exact (hi.queue.live.ready t ht).mpr hc.symm
  have hidle : w.queue.draining = false := by simp [World.queue, hs]
  constructor
  · cases hl : w.zs.txList with
    | nil => rfl
    | cons t ts =>
      have hhead : w.queue.writes.head? = some t := by simp [World.queue, hl]
      have hd := hi.queue.live.head t hhead (hready t (Or.inl (List.mem_of_mem_head? hhead)))
      rw [hidle] at hd
      cases hd
  · cases hl : w.zs.txRdonlyList with
    | nil => rfl
    | cons t ts =>
      have hmem : t ∈ w.queue.reads := by simp [World.queue, hl]
      have hw := hi.queue.live.waiting t hmem
      rw [hready t (Or.inr hmem)] at hw
      cases hw

/-- No bio of a transaction is submitted after its commit. -/
theorem count_submit_applied {item : Nat → Item} {l pre suf : List Obs}
    (h : TxQueue.Ordered item l) (hl : l = pre ++ .apply t :: suf) :
    l.count (.submit t) = pre.count (.submit t) := by
  have hno : .submit t ∉ Obs.apply t :: suf := by
    intro hm
    obtain hm | hm := List.mem_cons.mp hm
    · cases hm
    · obtain ⟨s1, s2, rfl⟩ := List.append_of_mem hm
      have hcut : l = (pre ++ .apply t :: s1) ++ .submit t :: s2 := by simp [hl]
      have hok : TxQueue.Okay item (pre ++ .apply t :: s1) (.submit t) := h.at hcut
      exact hok.2 (by simp)
  rw [hl, List.count_append, List.count_eq_zero.mpr hno, Nat.add_zero]

theorem FifoInv.of_ended (hi : FifoInv env w) (h : t ∈ w.ended) : t ∈ w.accepted := by
  have hb : w.accepted.count t = w.ended.count t + w.zs.txList.count t + w.zs.txRdonlyList.count t :=
    hi.queue.ledger.balance t
  have hpos := List.count_pos_iff.mpr h
  exact List.count_pos_iff.mp (by omega)

/-- With a device that accepts and completes every bio, transactions commit exactly once and in
the order in which they were accepted, each after its bios and before its callback. -/
theorem commits_fifo (env : Env) (w0 w : World) (hacc : env.Accepting) (hm : Mounted w0)
    (hrun : Run (step env) (fun _ _ => True) w0 w) : Fifo w := by
  have hi : FifoInv env w := hrun.invariant hm.fifoInv fun _ _ _ hi _ hs => hi.step hs
  have hl := hi.queue.ledger
  have hend : ∀ pre o suf, w.log = pre ++ o :: suf → ∀ t, o = .callback t ∨ o = .post t →
      Entered env.Accepting w t := by
    intro pre o suf hlog t ho
    have hmem : o ∈ w.log := by simp [hlog]
    refine hi.entered t (hi.of_ended ((@TxQueue.mem_ended w.queue t).mpr ?_))
    obtain rfl | rfl := ho
    · exact Or.inl hmem
    · exact Or.inr hmem
  have happly : ∀ t, Entered env.Accepting w t → (w.tx t).request.op ≠ .read →
      (w.queue.item t).rdonly = false :=
    fun t he hne => decide_eq_false fun h => hne (he.rdonly.mp h)
  constructor
  · exact hi.order
  · exact hl.once
  · intro pre t suf hlog
    obtain ⟨_, _, hdone⟩ := hl.ordered.at hlog
    have happ : t ∈ w.applied := (@TxQueue.mem_applied w.queue t).mpr (by simp [World.queue, hlog])
    have hmem : t ∈ w.accepted.filter fun t => decide ((w.tx t).request.op ≠ .read) := by
      rw [hi.order]
      exact List.mem_append_left _ happ
    obtain ⟨hin, hop⟩ := List.mem_filter.mp hmem
    rw [hdone, ← count_submit_applied hl.ordered hlog]
    exact (hi.entered t hin).submits hacc (of_decide_eq_true hop)
  · intro t ht
    have hb := hl.balance t
    have hone : w.queue.accepted.count t = 1 := by
      have hle := List.nodup_iff_count.mp hl.once t
      have hpos := List.count_pos_iff.mpr (show t ∈ w.queue.accepted from ht)
      omega
    exact hb.symm.trans hone
  · intro pre t suf hlog
    obtain ⟨hsync, _, happ, _⟩ := hl.ordered.at hlog
    have he := hend pre _ suf hlog t (Or.inl rfl)
    refine ⟨?_, fun hne => happ (happly t he hne)⟩
    have hno : ¬ ((w.tx t).request.op = .create ∨ (w.tx t).request.op = .delete) := by
      rw [← he.sync]
      exact Bool.eq_false_iff.mp hsync
    have hk := he.known
    cases hop : (w.tx t).request.op with
    | read => exact Or.inl rfl
    | write => exact Or.inr rfl
    | create => exact absurd (Or.inl hop) hno
    | delete => exact absurd (Or.inr hop) hno
    | other => exact absurd hop hk
  · intro pre t suf hlog
    obtain ⟨hsync, _, happ, _⟩ := hl.ordered.at hlog
    have he := hend pre _ suf hlog t (Or.inr rfl)
    have hop := he.sync.mp hsync
    refine ⟨hop, happ (happly t he ?_)⟩
    obtain hop | hop := hop
    · rw [hop]
      decide
    · rw [hop]
      decide
  · intro hs t hh hst
    have hd := hi.queue.live.head t hh (decide_eq_true hst)
    simp [World.queue, hs] at hd
  · exact hl.writesOut
  · exact hl.readsOut
  · exact hi.settled hacc

/-- Two writes whose bios come back in the other order; the callback of the first one runs between
the commits. -/
theorem swappedBios_fifo : ∃ w, w.applied = [0, 1, 2, 3] ∧ Fifo w := by
  have hrun : (runActs (step smallEnv) (fun _ _ => True)
      [createObject 1, .resume, .resume, createObject 2, .resume, .resume, writeBlock 1,
        writeBlock 2, .bioDone 1 true, .bioDone 0 true, .resume, .resume, .resume, .resume]
      smallWorld).map World.applied = some [0, 1, 2, 3] := by decide +kernel
  obtain ⟨w, hw, happ⟩ := Option.map_eq_some_iff.mp hrun
  exact ⟨w, happ, commits_fifo smallEnv smallWorld w (fun _ _ => rfl) smallWorld_mounted
    (run_of_runActs .start hw)⟩

end Entries
end ZCell.Store
