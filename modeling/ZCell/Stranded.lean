import ZCell.Fifo

/-! What becomes of a request when the device refuses some of its bios. -/
namespace ZCell.Store
open Bytes Persist Pm Runs

/-- The bios that a call would submit; none if it is rejected. -/
def preparedBios (env : Env) (w : World) (r : Request) : List Bio :=
  match zstoreTxPrepare (env.uninit w.zs.tidMax) w.zs r (w.tx w.zs.tidMax) with
  | .ok (rc, _, tx) => if rc = 0 then tx.bios else []
  | .error _ => []

/-- The device accepts every bio of the call that the step makes. -/
def Submits (env : Env) (w : World) (a : Act) : Prop :=
  ∀ r ∈ callOf w a, ∀ i < (preparedBios env w r).length, env.submit w.zs.tidMax i = true

instance (env : Env) (w : World) (a : Act) : Decidable (Submits env w a) :=
  inferInstanceAs (Decidable (∀ r ∈ callOf w a, _))

/-- The same environment with a device that refuses nothing. -/
def Env.full (env : Env) : Env := { env with submit := fun _ _ => true }

theorem Env.full_accepting (env : Env) : env.full.Accepting := fun _ _ => rfl

section Full
variable {env : Env} {w w' : World} {r : Request} {t : Nat} {a : Act}

theorem submitBios_full {submit : Nat → Bool} (bs : List Bio) (i : Nat) (buf : BitVec 64)
    (h : ∀ j < bs.length, submit (i + j) = true) :
    submitBios submit t i buf bs = submitBios (fun _ => true) t i buf bs := by
  induction bs generalizing i buf with
  | nil => rfl
  | cons b bs ih =>
    have h0 : submit i = true := h 0 (Nat.succ_pos _)
    have hrest := ih (i + 1) (buf + BitVec.ofNat 64 (b.blkLen.toNat * zstorePageSize)) fun j hj => by
      have hnext := h (j + 1) (Nat.succ_lt_succ hj)
      rwa [Nat.add_comm j 1, ← Nat.add_assoc] at hnext
    simp only [submitBios, h0, if_true]
    rw [hrest]

theorem dataBio_full (h : ∀ i < (w.tx t).bios.length, env.submit t i = true) :
    zstoreTxDataBio env t w = zstoreTxDataBio env.full t w := by
  have hbios := @submitBios_full t (env.submit t) (w.tx t).bios 0 (w.tx t).dataBuffer fun j hj => by
    rw [Nat.zero_add]
    exact h j hj
  rw [zstoreTxDataBio, zstoreTxDataBio, hbios]
  rfl

theorem execute_full (h : (w.tx t).state = .dataIo → ∀ i < (w.tx t).bios.length,
    env.submit t i = true) : zstoreTxExecute env t w = zstoreTxExecute env.full t w := by
  unfold zstoreTxExecute
  cases hst : (w.tx t).state with
  | dataIo => exact congrArg Except.ok (dataBio_full (h hst))
  | pmTx => rfl
  | prepare => rfl

theorem bioCb_full (success : Bool) :
    zstoreBioCb env success t w = zstoreBioCb env.full success t w := by
  unfold zstoreBioCb
  split
  · rfl
  · dsimp only
    split
    · refine execute_full fun hst => ?_
      simp only [World.setTx, Function.update_self] at hst
      cases hst
    · rfl

theorem call_full (h : ∀ i < (preparedBios env w r).length, env.submit w.zs.tidMax i = true) :
    zstoreObjAsyncOpCall env r w = zstoreObjAsyncOpCall env.full r w := by
  have huninit : env.full.uninit = env.uninit := rfl
  simp only [zstoreObjAsyncOpCall, huninit]
  cases hp : zstoreTxPrepare (env.uninit w.zs.tidMax) w.zs r (w.tx w.zs.tidMax) with
  | error f => rfl
  | ok p =>
    obtain ⟨rc, zs, tx⟩ := p
    simp only [preparedBios, hp] at h
    dsimp only
    split
    · rfl
    · rename_i hrc
      rw [if_pos (not_not.mp hrc)] at h
      rw [execute_full fun _ i hi => h i ?_]
      have htx : (zstoreTxEnqueue w.zs.tidMax { World.setTx { w with zs := zs } w.zs.tidMax tx with
        before := Function.update w.before w.zs.tidMax w.zs
        after := Function.update w.after w.zs.tidMax zs }).tx w.zs.tidMax = tx :=
          Function.update_self ..
      rwa [htx] at hi

/-- Such a step is one of the store over a device that refuses nothing. -/
theorem step_full (h : Submits env w a) : step env a w = step env.full a w := by
  unfold step
  split
  · congr 1
    cases a with
    | request r =>
      simp only [act]
      rw [call_full (h r rfl)]
    | bioDone k success =>
      simp only [act]
      cases w.flight[k]? with
      | none => rfl
      | some f => exact bioCb_full success
    | message k => rfl
    | resume =>
      simp only [act, resume]
      cases hstack : w.stack with
      | nil => rfl
      | cons f s =>
        cases f with
        | drain => rfl
        | userCb calls =>
          cases calls with
          | nil => rfl
          | cons r rs =>
            have hr : r ∈ callOf w .resume := by simp [callOf, hstack]
            have hcall := @call_full env { w with stack := .userCb rs :: s } r (h r hr)
            simp only
            rw [hcall]
  · rfl

theorem run_full {w0 : World} (h : Run (step env) (Submits env) w0 w) :
    Run (step env.full) (fun _ _ => True) w0 w := by
  induction h with
  | start => exact .start
  | next a _ hok hs ih => exact .next a ih trivial (step_full hok ▸ hs)

end Full

/-- How many bios an accepted request has. -/
def requestBioNr (zs : ZstoreContext) (r : Request) : Nat :=
  match r.op with
  | .write => bioNr zs r
  | .read => (readBios zs r).length
  | _ => 0

/-- Committed, but for an earlier transaction that still waits for its bios. -/
def WaitsBehind (w : World) (t : Nat) : Prop :=
  (w.tx t).state = .pmTx ∧ ∃ pre suf, w.zs.txList = pre ++ t :: suf ∧
    ∃ u ∈ pre, (w.tx u).state ≠ .pmTx

/-- Some of its bios are still to come back, and these are the ones it counts. -/
def WaitsForBios (w : World) (t : Nat) : Prop :=
  0 < (w.tx t).bioOutstanding ∧ (w.tx t).bioOutstanding = (w.flight.map Flight.tid).count t

structure NotStranded (w : World) : Prop where
  waiting : w.stack = [] → ∀ t, t ∈ w.zs.txList ∨ t ∈ w.zs.txRdonlyList →
    WaitsBehind w t ∨ WaitsForBios w t
  /-- A call has returned zero only for a request whose bios were all submitted, unless its
  callback has told otherwise. -/
  reported : ∀ t ∈ w.accepted,
    w.log.count (.submit t) = requestBioNr (w.before t) (w.tx t).request ∨
    .callback t ∈ w.log ∧ (w.tx t).err ≠ 0

section Submitting
variable {env : Env} {w w' : World} {a : Act} {t : Nat}

theorem Accepts.bios {r : Request} {zs : ZstoreContext} {tx : ZstoreTransaction}
    (ha : Accepts r w w' zs tx) : tx.bioOutstanding = requestBioNr w.zs r := by
  obtain ⟨hop, hr, _⟩ | ⟨hacc, _⟩ := ha.kind
  · rw [hr.outstanding, hr.bios, requestBioNr, hop]
  · cases hacc with
    | write hop h => rw [h.outstanding, requestBioNr, hop]
    | create hop h => rw [h.tx.outstanding, requestBioNr, hop]
    | delete hop h => rw [h.tx.outstanding, requestBioNr, hop]

/-- All bios of every accepted request were submitted. -/
structure SubmitInv (env : Env) (w : World) : Prop where
  fifo : FifoInv env w
  submitted : ∀ t ∈ w.accepted,
    w.log.count (.submit t) = requestBioNr (w.before t) (w.tx t).request

theorem Mounted.submitInv (h : Mounted w) : SubmitInv env w := by
  refine ⟨h.fifoInv, fun t ht => ?_⟩
  simp [World.accepted, h.log] at ht

theorem SubmitInv.step (hall : SubmitInv env w) (hacc : env.Accepting)
    (h : step env a w = some w') : SubmitInv env w' := by
  have hi := hall.fifo
  obtain ⟨hkeep, hnew⟩ := hi.submits h
  have hold : ∀ t ∈ w.accepted,
      w'.log.count (.submit t) = requestBioNr (w'.before t) (w'.tx t).request := by
    intro t ht
    have hlt := hi.logged.1 t ht
    obtain ⟨hsame, hbefore, _⟩ := (step_keeps hi.wf h).2 t hlt
    rw [hkeep t hlt, hbefore, hsame.1]
    exact hall.submitted t ht
  refine ⟨hi.step h, fun t ht => ?_⟩
  obtain hq | ⟨r, _, ⟨rc, tx, hr⟩ | ⟨zs, tx, ha⟩⟩ | ⟨tid, p, hc⟩ := step_cases hi.wf h
  · exact hold t (hq.accepted ▸ ht)
  · exact hold t (hr.accepted ▸ ht)
  · rw [ha.accepted] at ht
    obtain ht | ht := List.mem_append.mp ht
    · exact hold t ht
    · obtain rfl := List.mem_singleton.mp ht
      have hself : w'.tx w.zs.tidMax = tx := ha.tx_self
      have hbefore : w'.before w.zs.tidMax = w.zs := ha.before_self
      rw [(hnew ha.logged).2 hacc, hself, hbefore, ha.request]
      exact ha.bios
  · exact hold t (hc.accepted ▸ ht)

/-- The head of the queue waits for its bios, so whatever is ready is behind it. -/
theorem FifoInv.waitsBehind (hi : FifoInv env w) (hs : w.stack = []) (ht : t ∈ w.zs.txList)
    (hst : (w.tx t).state = .pmTx) : WaitsBehind w t := by
  have hidle : w.queue.draining = false := by simp [World.queue, hs]
  cases hl : w.zs.txList with
  | nil =>
    rw [hl] at ht
    cases ht
  | cons u us =>
    have hu : (w.tx u).state ≠ .pmTx := by
      intro hready
      have hhead : w.queue.writes.head? = some u := by simp [World.queue, hl]
      have hd := hi.queue.live.head u hhead (decide_eq_true hready)
      rw [hidle] at hd
      cases hd
    rw [hl] at ht
    obtain rfl | ht := List.mem_cons.mp ht
    · exact absurd hst hu
    · obtain ⟨pre, suf, rfl⟩ := List.append_of_mem ht
      exact ⟨hst, u :: pre, suf, hl, u, List.mem_cons_self .., hu⟩

theorem FifoInv.waits (hi : FifoInv env w) (hacc : env.Accepting) (hs : w.stack = [])
    (ht : t ∈ w.zs.txList ∨ t ∈ w.zs.txRdonlyList) : WaitsBehind w t ∨ WaitsForBios w t := by
  have hcount : (w.flight.map Flight.tid).count t = (w.tx t).bioOutstanding :=
    (hi.queue.live.count t ht).2 hacc
  have hready : decide ((w.tx t).state = .pmTx) = true ↔ (w.tx t).bioOutstanding = 0 :=
    hi.queue.live.ready t ht
  by_cases hst : (w.tx t).state = .pmTx
  · obtain ht | ht := ht
    · exact Or.inl (hi.waitsBehind hs ht hst)
    · have hw : decide ((w.tx t).state = .pmTx) = false := hi.queue.live.waiting t ht
      exact absurd hst (of_decide_eq_false hw)
  · refine Or.inr ⟨Nat.pos_of_ne_zero fun hz => hst ?_, hcount.symm⟩
    exact of_decide_eq_true (hready.mpr hz)

/-- As long as the device accepts the bios of every accepted request, each transaction in the
lists waits for a bio or behind one that does. -/
theorem run_not_stranded (env : Env) (w0 w : World) (hm : Mounted w0)
    (hrun : Run (step env) (Submits env) w0 w) : NotStranded w := by
  have hinv : SubmitInv env.full w := (run_full hrun).invariant hm.submitInv
    fun _ _ _ hi _ hs => hi.step env.full_accepting hs
  exact ⟨fun hs t ht => hinv.fifo.waits env.full_accepting hs ht,
    fun t ht => Or.inl (hinv.submitted t ht)⟩

end Submitting

/-- The second write waits behind the first one. -/
def waitingActs : List Act := [createObject 1, .resume, .resume, createObject 2, .resume, .resume,
  writeBlock 1, writeBlock 2, .bioDone 1 true]

theorem waiting_not_stranded : ∃ w, (w.zs.txList = [2, 3] ∧ (w.tx 3).state = .pmTx) ∧
    NotStranded w := by
  have hrun : (runActs (step smallEnv) (Submits smallEnv) waitingActs smallWorld).map
      (fun w => decide (w.zs.txList = [2, 3] ∧ (w.tx 3).state = .pmTx)) = some true := by
    decide +kernel
  obtain ⟨w, hw, hlist⟩ := Option.map_eq_some_iff.mp hrun
  exact ⟨w, of_decide_eq_true hlist, run_not_stranded smallEnv smallWorld w smallWorld_mounted
    (run_of_runActs .start hw)⟩

/-- A device that refuses the bio of transaction 2. -/
def refusingEnv : Env := { smallEnv with submit := fun t _ => t != 2 }

/-- The call of the first write returns zero, nothing is in flight for it, and the second write,
whose bio has come back, waits behind it forever. -/
theorem refused_stranded : ∃ w, Run (step refusingEnv) (fun _ _ => True) smallWorld w ∧
    (w.stack = [] ∧ w.flight = [] ∧ w.zs.txList = [2, 3] ∧ (w.tx 2).state = .dataIo) ∧
    ¬ NotStranded w := by
  have hrun : (runActs (step refusingEnv) (fun _ _ => True)
      [createObject 1, .resume, .resume, createObject 2, .resume, .resume, writeBlock 1,
        writeBlock 2, .bioDone 0 true] smallWorld).map
      (fun w => decide (w.stack = [] ∧ w.flight = [] ∧ w.zs.txList = [2, 3] ∧
        (w.tx 2).state = .dataIo)) = some true := by decide +kernel
  obtain ⟨w, hw, hend⟩ := Option.map_eq_some_iff.mp hrun
  have hend := of_decide_eq_true hend
  obtain ⟨hs, hf, hl, hst⟩ := hend
  refine ⟨w, run_of_runActs .start hw, ⟨hs, hf, hl, hst⟩, fun h => ?_⟩
  obtain ⟨hready, _⟩ | ⟨hpos, hcount⟩ := h.waiting hs 2 (Or.inl (by simp [hl]))
  · rw [hst] at hready
    cases hready
  · rw [hcount, hf] at hpos
    exact absurd hpos (by decide)

end ZCell.Store
