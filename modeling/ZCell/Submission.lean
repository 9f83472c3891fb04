import ZCell.Device

/-! What a step does to the bios in flight: the device carries one out, the bios of a new
transaction are submitted, or they stay as they are. -/
namespace ZCell.Store
open Bytes Persist Pm Allocator

/-- The bio that the device has carried out. -/
def doneBio (w : World) : Act → Option Flight
  | .bioDone k true => w.flight[k]?
  | _ => none

/-- The bios of the new transaction are submitted, with the buffer of its request. -/
structure Submitting (env : Env) (w w' : World) : Prop where
  accepted : w.zs.tidMax ∈ w'.accepted
  flight : w'.flight = w.flight ++ submitBios (env.submit w.zs.tidMax) w.zs.tidMax 0
    (w'.tx w.zs.tidMax).dataBuffer (w'.tx w.zs.tidMax).bios
  dataBuffer : (w'.tx w.zs.tidMax).request.op = .read ∨ (w'.tx w.zs.tidMax).request.op = .write →
    (w'.tx w.zs.tidMax).dataBuffer = (w'.tx w.zs.tidMax).request.dataBuffer

section Buffers
variable {g : Uninit} {zs zs' : ZstoreContext} {r : Request} {tx tx' : ZstoreTransaction} {rc : Int}

theorem txPrepWrite_buffer {oe : OtableEntry} {e : List Extent} {blen : Nat}
    (h : txPrepWrite g zs r tx oe e blen = .ok (rc, zs', tx')) : tx'.dataBuffer = tx.dataBuffer := by
  simp only [txPrepWrite] at h
  split at h
  · simp only [Except.ok.injEq, Prod.mk.injEq] at h
    exact h.2.2 ▸ rfl
  · split at h
    · cases h
    · generalize stupidAllocSpace _ blen = res at h
      split at h
      · simp only [Except.ok.injEq, Prod.mk.injEq] at h
        exact h.2.2 ▸ rfl
      · split at h
        · cases h
        · generalize addAll _ _ = o at h
          split at h
          · simp only [Except.ok.injEq, Prod.mk.injEq] at h
            exact h.2.2 ▸ rfl
          · split at h
            · cases h
            · simp only [Except.ok.injEq, Prod.mk.injEq] at h
              exact h.2.2 ▸ rfl

/-- An accepted read or write uses the buffer of its request. -/
theorem prepare_buffer (hop : r.op = .read ∨ r.op = .write)
    (h : zstoreTxPrepare g zs r tx = .ok (0, zs', tx')) : tx'.dataBuffer = r.dataBuffer := by
  have hcommon : ∀ {zs : ZstoreContext} {tx : ZstoreTransaction},
      txPrepRwCommon g zs r tx = .ok (0, zs', tx') → tx'.dataBuffer = r.dataBuffer := by
    intro zs tx h
    have hcode : ∀ s : Status, s.code = 0 → s = .success := by
      intro s
      cases s <;> decide
    simp only [txPrepRwCommon] at h
    split at h
    · simp only [Except.ok.injEq, Prod.mk.injEq] at h
      cases hcode _ h.1
    · split at h
      · simp only [Except.ok.injEq, Prod.mk.injEq] at h
        cases hcode _ h.1
      · split at h
        · simp only [Except.ok.injEq, Prod.mk.injEq] at h
          cases hcode _ h.1
        · split at h
          · simp only [Except.ok.injEq, Prod.mk.injEq] at h
            cases hcode _ h.1
          · split at h
            · cases h
            · split at h
              · split at h
                · simp only [Except.ok.injEq, Prod.mk.injEq] at h
                  cases hcode _ h.1
                · simp only [Except.ok.injEq, Prod.mk.injEq] at h
                  exact h.2.2 ▸ rfl
              · exact txPrepWrite_buffer h
  unfold zstoreTxPrepare at h
  obtain hop | hop := hop
  · simp only [hop] at h
    exact hcommon (assertState_ok h).1
  · simp only [hop] at h
    exact hcommon (assertState_ok h).1

end Buffers

section Steps
variable {env : Env} {w w' : World} {r : Request} {t : Nat} {a : Act} {rc : Int}

theorem end_flight (env : Env) (t : Nat) (w : World) : (zstoreTxEnd env t w).flight = w.flight := by
  simp only [zstoreTxEnd]
  split
  · rfl
  · rfl

theorem metadata_flight (h : zstoreTxMetadata env t w = .ok w') : w'.flight = w.flight := by
  simp only [zstoreTxMetadata] at h
  split at h
  · cases h
  · split at h
    · obtain rfl := Except.ok.inj h
      exact end_flight env t w
    · obtain rfl := Except.ok.inj h
      split
      · rfl
      · rfl

theorem bioCb_flight {success : Bool} (h : zstoreBioCb env success t w = .ok w') :
    success = true ∧ w'.flight = w.flight := by
  unfold zstoreBioCb at h
  split at h
  · cases h
  · rename_i hs
    refine ⟨by simpa using hs, ?_⟩
    simp only at h
    split at h
    · simp only [zstoreTxExecute, World.setTx, Function.update_self] at h
      exact (metadata_flight h :)
    · obtain rfl := Except.ok.inj h
      rfl

theorem drain_flight {s : List Frame} (h : drainRound env s w = .ok w') : w'.flight = w.flight := by
  unfold drainRound at h
  split at h
  · obtain rfl := Except.ok.inj h
    rfl
  · split at h
    · obtain rfl := Except.ok.inj h
      rfl
    · split at h
      · cases h
      · simp only [pmemTransactionApply, Except.ok.injEq] at h
        obtain rfl := h
        exact end_flight ..

/-- The bios of the transaction, in whichever state it is executed. -/
theorem execute_flight (hst : (w.tx t).state = .dataIo ∨ (w.tx t).bios = [])
    (hid : zstoreTxExecute env t w = .ok w') : w'.flight = w.flight ++
      submitBios (env.submit t) t 0 (w.tx t).dataBuffer (w.tx t).bios := by
  obtain hst | hnil := hst
  · simp only [zstoreTxExecute, hst, Except.ok.injEq] at hid
    obtain rfl := hid
    rfl
  · rw [hnil, submitBios, List.append_nil]
    unfold zstoreTxExecute at hid
    split at hid
    · obtain rfl := Except.ok.inj hid
      simp only [zstoreTxDataBio, hnil, submitBios, List.append_nil]
    · exact metadata_flight hid
    · obtain rfl := Except.ok.inj hid
      rfl

theorem call_submitting (hf : Formatted w.zs) (h : zstoreObjAsyncOpCall env r w = .ok (0, w')) :
    Submitting env w w' := by
  simp only [zstoreObjAsyncOpCall] at h
  split at h
  · cases h
  · rename_i rc zs tx hp
    split at h
    · rename_i hne
      simp only [Except.ok.injEq, Prod.mk.injEq] at h
      exact absurd h.1 hne
    · rename_i hz
      obtain rfl := not_not.mp hz
      split at h
      · cases h
      · rename_i w2 hex
        simp only [Except.ok.injEq, Prod.mk.injEq, true_and] at h
        obtain rfl := h
        have hkind := prepare_accepted hf hp
        have ha := accepts_of_execute hkind rfl hex
        have hself : w2.tx w.zs.tidMax = tx := ha.tx_self
        have hst : tx.state = .dataIo ∨ tx.bios = [] := by
          obtain ⟨_, hr⟩ | hacc := hkind
          · exact Or.inl hr.state
          · cases hacc with
            | write _ h => exact Or.inl h.state
            | create _ h => exact Or.inr h.tx.bios
            | delete _ h => exact Or.inr h.tx.bios
        constructor
        · exact ha.mem_accepted
        · rw [hself]
          have hfl := execute_flight (t := w.zs.tidMax) (by
            simpa only [zstoreTxEnqueue, World.note, World.setTx, Function.update_self] using hst) hex
          simpa only [zstoreTxEnqueue, World.note, World.setTx, Function.update_self] using hfl
        · rw [hself, ha.request]
          exact fun hop => prepare_buffer hop hp

theorem call_flight (hf : Formatted w.zs) (h : zstoreObjAsyncOpCall env r w = .ok (rc, w')) :
    w'.flight = w.flight ∧ w'.accepted = w.accepted ∨ Submitting env w w' := by
  by_cases hrc : rc = 0
  · subst hrc
    exact Or.inr (call_submitting hf h)
  · left
    simp only [zstoreObjAsyncOpCall] at h
    split at h
    · cases h
    · split at h
      · simp only [Except.ok.injEq, Prod.mk.injEq] at h
        obtain ⟨_, rfl⟩ := h
        exact ⟨rfl, accepted_silent _ rfl⟩
      · split at h
        · cases h
        · simp only [Except.ok.injEq, Prod.mk.injEq] at h
          exact absurd h.1.symm hrc

/-- One bio is carried out, or those of a new transaction are submitted, or nothing happens. -/
theorem step_flight (hw : WF w) (h : step env a w = some w') :
    (∃ k f, doneBio w a = some f ∧ w.flight[k]? = some f ∧ w'.flight = w.flight.eraseIdx k) ∨
    doneBio w a = none ∧
      (w'.flight = w.flight ∧ w'.accepted = w.accepted ∨ Submitting env w w') := by
  unfold step at h
  split at h
  · replace h := toOption_eq_some h
    cases a with
    | request r =>
      simp only [act] at h
      split at h
      · cases h
      · rename_i hc
        obtain rfl := Except.ok.inj h
        exact Or.inr ⟨rfl, call_flight hw.formatted hc⟩
    | bioDone k success =>
      simp only [act] at h
      split at h
      · rename_i hk
        obtain rfl := Except.ok.inj h
        refine Or.inr ⟨?_, Or.inl ⟨rfl, rfl⟩⟩
        cases success
        · rfl
        · exact hk
      · rename_i f hk
        obtain ⟨rfl, hfl⟩ := bioCb_flight h
        exact Or.inl ⟨k, f, hk, hk, hfl⟩
    | message k =>
      simp only [act] at h
      split at h
      · obtain rfl := Except.ok.inj h
        exact Or.inr ⟨rfl, Or.inl ⟨rfl, rfl⟩⟩
      · obtain rfl := Except.ok.inj h
        exact Or.inr ⟨rfl, Or.inl ⟨rfl, accepted_silent _ rfl⟩⟩
    | resume =>
      refine Or.inr ⟨rfl, ?_⟩
      simp only [act, resume] at h
      split at h
      · obtain rfl := Except.ok.inj h
        exact Or.inl ⟨rfl, rfl⟩
      · obtain rfl := Except.ok.inj h
        exact Or.inl ⟨rfl, rfl⟩
      · rename_i r rs s hstack
        split at h
        · cases h
        · rename_i rc w2 hc
          obtain rfl := Except.ok.inj h
          obtain hs | hs := call_flight (w := { w with stack := .userCb rs :: s }) hw.formatted hc
          · exact Or.inl hs
          · exact Or.inr ⟨hs.accepted, hs.flight, hs.dataBuffer⟩
      · refine Or.inl ⟨drain_flight h, ?_⟩
        obtain hq | ⟨t, p, hc⟩ := drainRound_cases hw h
        · exact hq.accepted
        · exact hc.accepted
  · cases h

end Steps

namespace TxQueue
variable {full : Prop} {q q' : TxQueue} {t : Nat}

/-- All bios that the transaction waits for are in flight. -/
def Whole (q : TxQueue) (t : Nat) : Prop := q.flight.count t = (q.item t).bios

/-- A bio that was refused stays missing. -/
theorem Whole.of_step (hi : Inv full q) (hs : Step full q q') (hlive : t ∈ q.writes ∨ t ∈ q.reads)
    (h : Whole q' t) : Whole q t := by
  have hne : t ≠ q.next := Nat.ne_of_lt (hi.ledger.live_lt hlive)
  have henter : ∀ it m, Whole (q.enter it m) t → Whole q t := by
    intro it m h
    simpa [Whole, TxQueue.enter, List.count_append, List.count_replicate, hne, hne.symm] using h
  have hcomplete : ∀ k u it, q.flight[k]? = some u → it.bios = (q.item u).bios - 1 →
      Whole (q.complete k u it) t → Whole q t := by
    intro k u it hk hit h
    have hc := count_eraseIdx hk t
    have hle := (hi.live.count t hlive).1
    by_cases htu : t = u
    · subst htu
      simp only [Whole, TxQueue.complete, Function.update_self, if_true] at h hc ⊢
      omega
    · simp only [Whole, TxQueue.complete, Function.update_of_ne htu, if_neg (Ne.symm htu)] at h hc ⊢
      omega
  cases hs with
  | reject it rc =>
    simpa only [Whole, Function.update_of_ne hne] using h
  | data rdonly n m hn hm => exact henter _ m h
  | change => exact henter ⟨false, true, true, 0⟩ 0 h
  | bio k u hk hb => exact hcomplete k u _ hk rfl h
  | lastWrite k u hk hb hw =>
    exact hcomplete k u { q.item u with ready := true, bios := 0 } hk (by simp [hb]) h
  | lastRead k u hk hb hr =>
    exact hcomplete k u { q.item u with ready := true, bios := 0 } hk (by simp [hb]) h
  | deliver k u hk => exact h
  | pause d hd => exact h
  | commit u hu hr => exact h

/-- A callback is that of a write that leaves its list, or of a read with its last bio. -/
theorem callback_step (hi : Inv full q) (hs : Step full q q') (hnew : .callback t ∈ q'.log)
    (hold : .callback t ∉ q.log) :
    t ∈ q.writes ∨ t ∈ q.reads ∧ Whole q t ∧ t ∉ q'.flight := by
  have hother : ∀ o : Obs, o ≠ .callback t → .callback t ∉ q.log ++ [o] := by
    intro o ho hm
    obtain hm | hm := List.mem_append.mp hm
    · exact hold hm
    · exact ho (List.mem_singleton.mp hm).symm
  have henter : ∀ it m, .callback t ∉ (q.enter it m).log := by
    intro it m hm
    simp [TxQueue.enter, hold] at hm
  have hend : ∀ (u : Nat) (o : Obs), o ≠ .callback t →
      .callback t ∈ q.log ++ [o] ++ [if (q.item u).sync then Obs.post u else .callback u] →
      t = u := by
    intro u o ho hm
    obtain hm | hm := List.mem_append.mp hm
    · exact absurd hm (hother o ho)
    · have heq := List.mem_singleton.mp hm
      split at heq
      · cases heq
      · exact Obs.callback.inj heq
  cases hs with
  | reject it rc => exact absurd hnew (hother _ (by simp))
  | data rdonly n m hn hm => exact absurd hnew (henter _ m)
  | change => exact absurd hnew (henter ⟨false, true, true, 0⟩ 0)
  | bio k u hk hb => exact absurd hnew (hother _ (by simp))
  | lastWrite k u hk hb hw => exact absurd hnew (hother (.done u) (by simp))
  | lastRead k u hk hb hr =>
    have hself : ((q.complete k u { q.item u with ready := true, bios := 0 }).item u).sync =
        (q.item u).sync := by simp [TxQueue.complete]
    have hlog : ((q.complete k u { q.item u with ready := true, bios := 0 }).leave u).log =
        q.log ++ [.done u] ++ [if (q.item u).sync then Obs.post u else .callback u] := by
      rw [← hself]
      rfl
    obtain rfl := hend u (.done u) (by simp) (hlog ▸ hnew)
    have hmem := List.mem_of_getElem? hk
    have hlive := hi.live.flight t hmem
    have hle := (hi.live.count t hlive).1
    have hpos := List.count_pos_iff.mpr hmem
    have hc := count_eraseIdx hk t
    rw [if_pos rfl] at hc
    refine Or.inr ⟨hlive.resolve_left fun hw => ?_, by unfold Whole; omega, ?_⟩
    · rw [hi.ledger.writes t hw] at hr
      cases hr
    · have hzero : (q.flight.eraseIdx k).count t = 0 := by omega
      exact List.count_eq_zero.mp hzero
  | deliver k u hk => exact absurd hnew (hother _ (by simp))
  | pause d hd => exact absurd hnew hold
  | commit u hu hr =>
    obtain rfl := hend u (.apply u) (by simp) hnew
    exact Or.inl (List.mem_of_mem_head? hu)

end TxQueue
end ZCell.Store
