import ZCell.Commit
import ZCell.Stranded

/-! The store comes to rest. From every state that a run reaches, the bios of a device that takes all
of them, the posted messages and the frames on the stack lead to one in which nothing is in progress. -/
namespace ZCell.Store
open Bytes Persist Pm Runs

/-- No callback calls the store. -/
def Env.Silent (env : Env) : Prop := ∀ t, env.calls t = []

/-- A bio succeeds, a message is run, or a frame goes on: no request comes. -/
def Act.Winds : Act → Prop
  | .request _ => False
  | .bioDone _ success => success = true
  | .message _ | .resume => True

structure World.Idle (w : World) : Prop where
  stack : w.stack = []
  flight : w.flight = []
  posted : w.posted = []
  txList : w.zs.txList = []
  txRdonlyList : w.zs.txRdonlyList = []

/-- The frames make no calls. -/
def Plain (w : World) : Prop := ∀ f ∈ w.stack, f = .drain ∨ f = .userCb []

/-- A bound for the steps that are left: a commit takes a transaction from the list and may post, a
post takes a frame. -/
def World.load (w : World) : Nat :=
  w.stack.length + 2 * w.posted.length + 3 * w.flight.length + 4 * w.zs.txList.length

section Frames
variable {env : Env} {w w' : World} {t : Nat} {a : Act} {r : Request}

theorem Plain.push (hp : Plain w) {f : Frame} (hf : f = .drain ∨ f = .userCb []) : Plain (w.push f) := by
  intro g hg
  obtain rfl | hg := List.mem_cons.mp hg
  · exact hf
  · exact hp g hg

theorem end_plain (hsil : env.Silent) (hp : Plain w) : Plain (zstoreTxEnd env t w) := by
  unfold zstoreTxEnd
  dsimp only
  split
  · exact hp
  · refine Plain.push ?_ (Or.inr (congrArg Frame.userCb (hsil t)))
    exact hp

theorem metadata_plain (hsil : env.Silent) (hp : Plain w) (h : zstoreTxMetadata env t w = .ok w') :
    Plain w' := by
  unfold zstoreTxMetadata at h
  split at h
  · cases h
  · split at h
    · obtain rfl := Except.ok.inj h
      exact end_plain hsil hp
    · obtain rfl := Except.ok.inj h
      dsimp only
      split
      · refine Plain.push ?_ (Or.inl rfl)
        exact hp
      · exact hp

theorem execute_plain (hsil : env.Silent) (hp : Plain w) (h : zstoreTxExecute env t w = .ok w') :
    Plain w' := by
  unfold zstoreTxExecute at h
  split at h
  · obtain rfl := Except.ok.inj h
    exact hp
  · exact metadata_plain hsil hp h
  · obtain rfl := Except.ok.inj h
    exact hp

theorem call_plain {rc : Int} (hsil : env.Silent) (hp : Plain w)
    (h : zstoreObjAsyncOpCall env r w = .ok (rc, w')) : Plain w' := by
  unfold zstoreObjAsyncOpCall at h
  dsimp only at h
  split at h
  · cases h
  · split at h
    · cases h
      exact hp
    · split at h
      · cases h
      · rename_i hexec
        cases h
        refine execute_plain hsil ?_ hexec
        exact hp

theorem bioCb_plain {success : Bool} (hsil : env.Silent) (hp : Plain w)
    (h : zstoreBioCb env success t w = .ok w') : Plain w' := by
  unfold zstoreBioCb at h
  dsimp only at h
  split at h
  · cases h
  · split at h
    · refine execute_plain hsil ?_ h
      exact hp
    · obtain rfl := Except.ok.inj h
      exact hp

theorem step_plain (hsil : env.Silent) (hp : Plain w) (h : step env a w = some w') : Plain w' := by
  unfold step at h
  split at h
  · replace h := toOption_eq_some h
    unfold act at h
    split at h
    · split at h
      · cases h
      · rename_i hcall
        obtain rfl := Except.ok.inj h
        exact call_plain hsil hp hcall
    · split at h
      · obtain rfl := Except.ok.inj h
        exact hp
      · refine bioCb_plain hsil ?_ h
        exact hp
    · split at h
      · obtain rfl := Except.ok.inj h
        exact hp
      · rename_i t _
        obtain rfl := Except.ok.inj h
        refine Plain.push ?_ (Or.inr (congrArg Frame.userCb (hsil t)))
        exact hp
    · unfold resume at h
      split at h
      · obtain rfl := Except.ok.inj h
        exact hp
      · rename_i s hs
        obtain rfl := Except.ok.inj h
        exact fun f hf => hp f (hs ▸ List.mem_cons_of_mem _ hf)
      · rename_i r rs s hs
        obtain hcb | hcb := hp (.userCb (r :: rs)) (hs ▸ List.mem_cons_self)
        · cases hcb
        · cases hcb
      · rename_i s hs
        have hrest : ∀ f ∈ s, f = .drain ∨ f = .userCb [] :=
          fun f hf => hp f (hs ▸ List.mem_cons_of_mem _ hf)
        unfold drainRound at h
        split at h
        · obtain rfl := Except.ok.inj h
          exact hrest
        · split at h
          · obtain rfl := Except.ok.inj h
            exact hrest
          · split at h
            · cases h
            · obtain rfl := Except.ok.inj h
              refine end_plain hsil ?_
              exact hp
  · cases h

end Frames

section Load
variable {env : Env} {w w' : World} {t : Nat}

theorem end_load (env : Env) (t : Nat) (w : World) :
    (zstoreTxEnd env t w).accepted = w.accepted ∧
      ((w.tx t).txType = .rdonly → (zstoreTxEnd env t w).load ≤ w.load + 2) ∧
      ((w.tx t).txType ≠ .rdonly → w.zs.txList.head? = some t →
        (zstoreTxEnd env t w).load + 2 ≤ w.load) := by
  by_cases htype : (w.tx t).txType = .rdonly
  · refine ⟨?_, fun _ => ?_, fun hne => absurd htype hne⟩
    all_goals
      unfold zstoreTxEnd
      simp only [if_pos htype]
      split
    · exact accepted_silent _ rfl
    · exact accepted_silent _ rfl
    · simp only [World.load, World.note, List.length_append, List.length_singleton]
      omega
    · simp only [World.load, World.note, World.push, List.length_cons]
      omega
  · refine ⟨?_, fun h => absurd h htype, fun _ hhead => ?_⟩
    · unfold zstoreTxEnd
      simp only [if_neg htype]
      split
      · exact accepted_silent _ rfl
      · exact accepted_silent _ rfl
    · obtain ⟨ts, hts⟩ := List.head?_eq_some_iff.mp hhead
      unfold zstoreTxEnd
      simp only [if_neg htype, hts, List.erase_cons_head]
      split
      · simp only [World.load, World.note, hts, List.length_append, List.length_cons, List.length_nil]
        omega
      · simp only [World.load, World.note, World.push, hts, List.length_cons]
        omega

theorem step_resume {f : Frame} {s : List Frame} (hs : w.stack = f :: s) :
    step env .resume w = (resume env w).toOption := by
  simp [step, enabled, hs, act]

theorem step_event {a : Act} (hs : w.stack = []) (ha : a ≠ .resume) :
    step env a w = (act env a w).toOption := by
  simp [step, enabled, hs, ha]

theorem metadata_ends (env : Env) (hb : (w.tx t).bioOutstanding = 0) :
    ∃ w', zstoreTxMetadata env t w = .ok w' ∧ w'.load ≤ w.load + 2 ∧ w'.accepted = w.accepted := by
  unfold zstoreTxMetadata
  rw [if_neg (not_not.mpr hb)]
  by_cases htype : (w.tx t).txType = .rdonly
  · rw [if_pos htype]
    obtain ⟨hacc, hload, _⟩ := end_load env t w
    exact ⟨_, rfl, hload htype, hacc⟩
  · rw [if_neg htype]
    refine ⟨_, rfl, ?_, ?_⟩
    · dsimp only
      split
      · simp only [World.load, World.push, World.setTx, List.length_cons]
        omega
      · exact Nat.le_add_right _ 2
    · dsimp only
      split
      · rfl
      · rfl

/-- The head of the queue is committed. -/
theorem drainRound_commits {s : List Frame} {ts : List Nat} {p : PmemTransaction}
    (hl : w.zs.txList = t :: ts) (hst : (w.tx t).state = .pmTx) (hpm : (w.tx t).pmTx = some p) :
    ∃ w1, drainRound env s w = .ok (zstoreTxEnd env t w1) ∧ w1.load = w.load ∧
      w1.accepted = w.accepted ∧ (w1.tx t).txType = (w.tx t).txType ∧ w1.zs.txList = w.zs.txList := by
  refine ⟨({ w with zs := { w.zs with
      pm := (pmemTransactionApply w.zs.pmem p w.zs.pm w.zs.mem).1
      mem := (pmemTransactionApply w.zs.pmem p w.zs.pm w.zs.mem).2.1 } }.setTx t { w.tx t with
        err := if (pmemTransactionApply w.zs.pmem p w.zs.pm w.zs.mem).2.2 then Status.success.code
          else Status.ostoreIoError.code }).note (.apply t), ?_, rfl, accepted_silent _ rfl, ?_, rfl⟩
  · unfold drainRound
    rw [hl]
    dsimp only
    rw [if_neg (not_not.mpr hst), hpm]
  · simp only [World.setTx, World.note, Function.update_self]

/-- A frame goes on. -/
theorem frame_resumes (hi : FifoInv env w) (hp : Plain w) {f : Frame} {s : List Frame}
    (hs : w.stack = f :: s) :
    ∃ w', step env .resume w = some w' ∧ w'.load < w.load ∧ w'.accepted = w.accepted := by
  have hpop : ({ w with stack := s } : World).load < w.load := by
    simp only [World.load, hs, List.length_cons]
    omega
  rw [step_resume hs]
  obtain rfl | rfl := hp f (hs ▸ List.mem_cons_self)
  · have hresume : resume env w = drainRound env s w := by simp only [resume, hs]
    rw [hresume]
    cases hl : w.zs.txList with
    | nil => exact ⟨{ w with stack := s }, by simp only [drainRound, hl]; rfl, hpop, rfl⟩
    | cons t ts =>
      by_cases hst : (w.tx t).state = .pmTx
      · have hq := hi.wf.queued t (hl ▸ List.mem_cons_self)
        obtain ⟨tx, hacc, hpm⟩ := hq.accepted
        obtain ⟨⟨p, hpt, _⟩, _⟩ := hacc.built
        obtain ⟨w1, hround, hload, hacc1, htype, hlist⟩ := @drainRound_commits env w t s ts p hl hst
          (hpm.trans hpt)
        obtain ⟨hacc2, _, hend⟩ := end_load env t w1
        have hwrite : (w1.tx t).txType ≠ .rdonly := by
          rw [htype, hq.txType]
          decide
        have hless := hend hwrite (by rw [hlist, hl, List.head?_cons])
        rw [hround]
        exact ⟨_, rfl, by omega, hacc2.trans hacc1⟩
      · refine ⟨{ w with stack := s }, ?_, hpop, rfl⟩
        simp only [drainRound, hl, ne_eq, hst, not_false_eq_true, if_true]
        rfl
  · refine ⟨{ w with stack := s }, ?_, hpop, rfl⟩
    simp only [resume, hs]
    rfl

/-- A bio succeeds. -/
theorem bio_succeeds (hs : w.stack = []) {f : Flight} {fs : List Flight} (hf : w.flight = f :: fs) :
    ∃ w', step env (.bioDone 0 true) w = some w' ∧ w'.load < w.load ∧ w'.accepted = w.accepted := by
  rw [step_event hs (by simp)]
  simp only [act, hf, List.getElem?_cons_zero, List.eraseIdx_cons_zero]
  have hacc : ({ w with flight := fs }.note (.done f.tid)).accepted = w.accepted :=
    accepted_silent ({ w with flight := fs } : World) rfl
  have hload : ({ w with flight := fs }.note (.done f.tid)).load + 3 = w.load := by
    simp only [World.load, World.note, hf, List.length_cons]
    omega
  generalize ({ w with flight := fs }.note (.done f.tid)) = w1 at hacc hload
  unfold zstoreBioCb
  simp only [Bool.not_true, Bool.false_eq_true, if_false]
  split
  · rename_i hzero
    have hself : (w1.setTx f.tid { w1.tx f.tid with
        bioOutstanding := (w1.tx f.tid).bioOutstanding - 1, state := .pmTx, bios := [] }).tx f.tid =
          { w1.tx f.tid with
            bioOutstanding := (w1.tx f.tid).bioOutstanding - 1, state := .pmTx, bios := [] } :=
      Function.update_self ..
    obtain ⟨w', hmeta, hle, hacc'⟩ := metadata_ends env (by rw [hself]; exact hzero)
    have hexec : zstoreTxExecute env f.tid (w1.setTx f.tid { w1.tx f.tid with
        bioOutstanding := (w1.tx f.tid).bioOutstanding - 1, state := .pmTx, bios := [] }) = .ok w' := by
      unfold zstoreTxExecute
      rw [hself]
      exact hmeta
    rw [hexec]
    have hset : (w1.setTx f.tid { w1.tx f.tid with
      bioOutstanding := (w1.tx f.tid).bioOutstanding - 1, state := .pmTx, bios := [] }).load =
        w1.load := rfl
    exact ⟨w', rfl, by omega, hacc'.trans hacc⟩
  · refine ⟨_, rfl, ?_, hacc⟩
    have hset : (w1.setTx f.tid { w1.tx f.tid with
      bioOutstanding := (w1.tx f.tid).bioOutstanding - 1 }).load = w1.load := rfl
    exact hset.trans_lt (by omega)

theorem message_runs (hs : w.stack = []) {ps : List Nat} (hpost : w.posted = t :: ps) :
    ∃ w', step env (.message 0) w = some w' ∧ w'.load < w.load ∧ w'.accepted = w.accepted := by
  rw [step_event hs (by simp)]
  simp only [act, hpost, List.getElem?_cons_zero, List.eraseIdx_cons_zero]
  refine ⟨_, rfl, ?_, ?_⟩
  · simp only [World.load, World.note, World.push, hpost, List.length_cons]
    omega
  · exact accepted_silent ({ w with posted := ps } : World) rfl

/-- Something can be done as long as anything is left to do. -/
theorem wind (hi : FifoInv env w) (hacc : env.Accepting) (hp : Plain w) (hne : w.load ≠ 0) :
    ∃ a w', a.Winds ∧ step env a w = some w' ∧ w'.load < w.load ∧ w'.accepted = w.accepted := by
  cases hs : w.stack with
  | cons f s =>
    obtain ⟨w', h⟩ := frame_resumes hi hp hs
    exact ⟨.resume, w', trivial, h⟩
  | nil =>
    cases hf : w.flight with
    | cons f fs =>
      obtain ⟨w', h⟩ := @bio_succeeds env w hs f fs hf
      exact ⟨.bioDone 0 true, w', rfl, h⟩
    | nil =>
      cases hpost : w.posted with
      | cons t ps =>
        obtain ⟨w', h⟩ := @message_runs env w t hs ps hpost
        exact ⟨.message 0, w', trivial, h⟩
      | nil =>
        have hlist := (hi.settled hacc hs hf).1
        exact absurd (by simp [World.load, hs, hf, hpost, hlist]) hne

theorem winds_down (hi : FifoInv env w) (hacc : env.Accepting) (hsil : env.Silent) (hp : Plain w) :
    ∃ w', Run (step env) (fun _ a => a.Winds) w w' ∧ FifoInv env w' ∧ w'.load = 0 ∧
      w'.accepted = w.accepted := by
  have hstep : ∀ w', FifoInv env w' ∧ Plain w' ∧ w'.accepted = w.accepted → w'.load ≠ 0 →
      ∃ a w'', a.Winds ∧ step env a w' = some w'' ∧
        (FifoInv env w'' ∧ Plain w'' ∧ w''.accepted = w.accepted) ∧ w''.load < w'.load := by
    intro w' hw' hne
    obtain ⟨hi', hp', hsame⟩ := hw'
    obtain ⟨a, w'', ha, hs, hlt, hsame'⟩ := wind hi' hacc hp' hne
    exact ⟨a, w'', ha, hs, ⟨hi'.step hs, step_plain hsil hp' hs, hsame'.trans hsame⟩, hlt⟩
  obtain ⟨w', hrun, ⟨hi', _, hsame⟩, hload⟩ := Run.unload World.load hstep ⟨hi, hp, rfl⟩
  exact ⟨w', hrun, hi', hload, hsame⟩

theorem FifoInv.idle (hi : FifoInv env w) (hacc : env.Accepting) (hload : w.load = 0) : w.Idle := by
  have hs : w.stack = [] := List.eq_nil_of_length_eq_zero (by unfold World.load at hload; omega)
  have hf : w.flight = [] := List.eq_nil_of_length_eq_zero (by unfold World.load at hload; omega)
  have hp : w.posted = [] := List.eq_nil_of_length_eq_zero (by unfold World.load at hload; omega)
  obtain ⟨hw, hr⟩ := hi.settled hacc hs hf
  exact ⟨hs, hf, hp, hw, hr⟩

theorem count_ended (l : List Obs) (t : Nat) :
    (l.filterMap Obs.endedTid).count t = l.count (.callback t) + l.count (.post t) := by
  induction l with
  | nil => rfl
  | cons o l ih =>
    have hquiet : o.endedTid = none → o ≠ .callback t → o ≠ .post t →
        ((o :: l).filterMap Obs.endedTid).count t =
          (o :: l).count (.callback t) + (o :: l).count (.post t) := by
      intro hnone hcb hpost
      rw [List.filterMap_cons_none hnone, List.count_cons_of_ne hcb, List.count_cons_of_ne hpost, ih]
    cases o with
    | callback x =>
      have hend : (Obs.callback x).endedTid = some x := rfl
      rw [List.filterMap_cons_some hend, @List.count_cons_of_ne _ _ _ (.callback x) (.post t) (by simp) l]
      by_cases hx : x = t
      · subst hx
        rw [List.count_cons_self, List.count_cons_self, ih]
        omega
      · rw [List.count_cons_of_ne hx, List.count_cons_of_ne (by simpa using hx), ih]
    | post x =>
      have hend : (Obs.post x).endedTid = some x := rfl
      rw [List.filterMap_cons_some hend]
      by_cases hx : x = t
      · subst hx
        rw [List.count_cons_self, List.count_cons_self, List.count_cons_of_ne (by simp), ih]
        omega
      · rw [List.count_cons_of_ne hx, List.count_cons_of_ne (by simp),
          List.count_cons_of_ne (by simpa using hx), ih]
    | accept | reject | submit | done | apply | deliver =>
      exact hquiet rfl (by simp) (by simp)

/-- The callback of a transaction runs where it ends, or as the message posted there. -/
theorem idle_called_back (hi : FifoInv env w) (hidle : w.Idle) (ht : t ∈ w.accepted) :
    w.log.count (.callback t) + w.log.count (.deliver t) = 1 := by
  have hl := hi.queue.ledger
  have hbalance : w.accepted.count t = w.ended.count t + w.zs.txList.count t +
      w.zs.txRdonlyList.count t := hl.balance t
  have hposts : w.log.count (.post t) = w.log.count (.deliver t) + w.posted.count t := hl.posts t
  have hone : w.accepted.count t ≤ 1 := List.nodup_iff_count.mp hl.once t
  have hpos := List.count_pos_iff.mpr ht
  have hended : w.ended.count t = w.log.count (.callback t) + w.log.count (.post t) :=
    count_ended w.log t
  rw [hidle.txList, hidle.txRdonlyList, List.count_nil] at hbalance
  rw [hidle.posted, List.count_nil] at hposts
  omega

end Load

/-- The store always comes to rest, and then the callback of each accepted request has run once. -/
theorem store_drains (env : Env) (w0 w : World) (hacc : env.Accepting) (hsil : env.Silent)
    (hm : Mounted w0) (hrun : Run (step env) (fun _ _ => True) w0 w) :
    ∃ w', Run (step env) (fun _ a => a.Winds) w w' ∧ w'.Idle ∧ w'.accepted = w.accepted ∧
      ∀ t ∈ w.accepted, w'.log.count (.callback t) + w'.log.count (.deliver t) = 1 := by
  have hi : FifoInv env w := hrun.invariant hm.fifoInv fun _ _ _ hi _ hs => hi.step hs
  have hp : Plain w := by
    refine hrun.invariant ?_ fun _ _ _ hp _ hs => step_plain hsil hp hs
    intro f hf
    rw [hm.stack] at hf
    exact absurd hf List.not_mem_nil
  obtain ⟨w', hrun', hi', hload, hsame⟩ := winds_down hi hacc hsil hp
  have hidle := hi'.idle hacc hload
  refine ⟨w', hrun', hidle, hsame, fun t ht => ?_⟩
  exact idle_called_back hi' hidle (hsame.symm ▸ ht)

/-- Two creates, whose callbacks have run, and two writes, one behind the other. -/
theorem waitingWrites_drain : ∃ w w', w.zs.txList = [2, 3] ∧ w.accepted = [0, 1, 2, 3] ∧
    Run (step smallEnv) (fun _ a => a.Winds) w w' ∧ w'.Idle ∧ w'.accepted = w.accepted ∧
    ∀ t ∈ w.accepted, w'.log.count (.callback t) + w'.log.count (.deliver t) = 1 := by
  have hrun : (runActs (step smallEnv) (fun _ _ => True) waitingActs smallWorld).map
      (fun w => decide (w.zs.txList = [2, 3] ∧ w.accepted = [0, 1, 2, 3])) = some true := by
    decide +kernel
  obtain ⟨w, hw, hlist⟩ := Option.map_eq_some_iff.mp hrun
  obtain ⟨hwrites, haccepted⟩ := of_decide_eq_true hlist
  obtain ⟨w', h⟩ := store_drains smallEnv smallWorld w (fun _ _ => rfl) (fun _ => rfl) smallWorld_mounted
    (run_of_runActs .start hw)
  exact ⟨w, w', hwrites, haccepted, h⟩

end ZCell.Store
