import ZCell.RingLoss

/-! A network channel: what a claim returns is what the server answered to the operation. -/
namespace ZCell.Liboss
open Bytes Messager Server Runs

def Obs.answeredOp : Obs → Option Nat
  | .answered op _ _ _ => some op
  | _ => none

/-- The operations that have been answered. -/
def World.answeredOps (w : World) : List Nat := w.log.filterMap Obs.answeredOp

/-- The log has the answer that the header shows. -/
def Answered (log : List Obs) (op : Nat) (hdr : MsgHdr) : Prop :=
  ∃ code, Obs.answered op hdr.type code hdr.dataLength ∈ log ∧ hdr.status = (BitVec.ofInt 8 code).toNat

/-- Every response meets its own operation, still in progress, without a fault; every operation is
answered once; and a claim returns that answer, with no data if it is an error or there is none. -/
structure Matched (w : World) : Prop where
  noFault : w.fault = none
  received : ∀ chan sender op holder state, Obs.received chan sender op holder state ∈ w.log →
    chan = sender ∧ op = holder ∧ state = .inProgress
  once : w.answeredOps.Nodup
  claimed : ∀ op status type len, Obs.claimed op status type len ∈ w.log →
    ∃ code, Obs.answered op type code len ∈ w.log ∧ status = (BitVec.ofInt 8 code).toNat ∧
      (code ≠ Status.success.code → len = 0) ∧ (type ∈ dataless → len = 0)

/-- How a client uses a channel: it submits distinct operations that it has prepared, and destroys
those that it has claimed. -/
def Proper (w : World) : Act → Prop
  | .submit c ops => ops.Nodup ∧ ∀ ch ∈ w.chans[c]?, ∀ id ∈ ops,
      id < ch.io.queueDepth ∧ (ch.io.opCtxs id).state = .waitingSubmit
  | .destroy c id => ∀ ch ∈ w.chans[c]?, id < ch.io.queueDepth → (ch.io.opCtxs id).state = .ended
  | _ => True

instance (w : World) (a : Act) : Decidable (Proper w a) :=
  match a with
  | .submit c ops => inferInstanceAs (Decidable (ops.Nodup ∧ ∀ ch ∈ w.chans[c]?, ∀ id ∈ ops, _))
  | .destroy c id => inferInstanceAs (Decidable (∀ ch ∈ w.chans[c]?, id < ch.io.queueDepth → _))
  | .prepare .. | .send | .poll .. | .wait .. | .reap | .claim .. | .take .. | .handle ..
  | .complete .. => isTrue trivial

/-- The messages that the server has still to answer. -/
def World.unanswered (w : World) (l : Nat) : List Sent := w.c2s l ++ w.batch l ++ w.pending l

/-- What the log has of the operations that are in slots and of those under way. -/
structure Book (w : World) (ch : Chan) : Prop where
  once : w.answeredOps.Nodup
  known : ∀ op ∈ w.answeredOps, op < w.nextOp
  waiting : ∀ id < ch.io.queueDepth, (ch.io.opCtxs id).state = .waitingSubmit →
    ¬ w.pc.Submitted id → ch.op id ∉ w.answeredOps
  unanswered : ∀ x ∈ w.unanswered ch.link, x.op ∉ w.answeredOps
  done : ∀ x ∈ w.s2c ch.link, Answered w.log x.op x.msg.header
  completed : ∀ id < ch.io.queueDepth, (ch.io.opCtxs id).state = .completed →
    Answered w.log (ch.op id) (ch.io.opCtxs id).requestAndResponse.header
  empty : ∀ op type code len, Obs.answered op type code len ∈ w.log →
    (code ≠ Status.success.code → len = 0) ∧ (type ∈ dataless → len = 0)
  received : ∀ chan sender op holder state, Obs.received chan sender op holder state ∈ w.log →
    chan = sender ∧ op = holder ∧ state = .inProgress
  claimed : ∀ op status type len, Obs.claimed op status type len ∈ w.log →
    ∃ code, Obs.answered op type code len ∈ w.log ∧ status = (BitVec.ofInt 8 code).toNat

section Operations
variable {w : World} {ch : Chan}

/-- No two messages are of one operation. -/
theorem PairInv.ops_nodup (hi : PairInv w ch) : ((w.flight ch.link).map Sent.op).Nodup := by
  refine List.Nodup.map_on ?_ (List.Nodup.of_map _ hi.slots_nodup)
  intro x hx y hy hop
  obtain ⟨hxout, hxnew, hxop⟩ := hi.slot_of_mem hx
  obtain ⟨hyout, hynew, hyop⟩ := hi.slot_of_mem hy
  have hslot := hi.ok.distinct _ hxout.1 _ hyout.1 hxnew hynew (hxop.symm.trans (hop.trans hyop))
  exact List.inj_on_of_nodup_map hi.slots_nodup hx hy hslot

theorem answeredOps_append {log : List Obs} (hlog : ∀ o ∈ log, o.answeredOp = none) :
    (w.log ++ log).filterMap Obs.answeredOp = w.answeredOps := by
  rw [List.filterMap_append, List.filterMap_eq_nil_iff.mpr hlog, List.append_nil]
  rfl

theorem Answered.append {log : List Obs} {op : Nat} {hdr : MsgHdr} (h : Answered log op hdr)
    (log' : List Obs) : Answered (log ++ log') op hdr := by
  obtain ⟨code, hlog, hst⟩ := h
  exact ⟨code, List.mem_append_left _ hlog, hst⟩

end Operations

section Book
variable {w : World} {ch : Chan}

theorem Book.start (kind : Kind) (l : Nat) (qd : BitVec 32) :
    Book (World.start kind [(l, qd)]) ⟨getIoChannel kind 0 qd, l, fun _ => 0⟩ where
  once := List.nodup_nil
  known _ h := nomatch h
  waiting _ _ h := nomatch h
  unanswered _ h := nomatch h
  done _ h := nomatch h
  completed _ _ h := nomatch h
  empty _ _ _ _ h := nomatch h
  received _ _ _ _ _ h := nomatch h
  claimed _ _ _ _ h := nomatch h

/-- A step in which the server answers nothing. -/
theorem Book.extend (hb : Book w ch) {w' : World} {ch' : Chan} {log : List Obs}
    (hlog : w'.log = w.log ++ log) (hnone : ∀ o ∈ log, o.answeredOp = none)
    (hnext : w.nextOp ≤ w'.nextOp) (hlink : ch'.link = ch.link)
    (hdepth : ch'.io.queueDepth = ch.io.queueDepth)
    (hwaiting : ∀ id < ch.io.queueDepth, (ch'.io.opCtxs id).state = .waitingSubmit →
      ¬ w'.pc.Submitted id → w.nextOp ≤ ch'.op id ∨ ch'.op id = ch.op id ∧
        (ch.io.opCtxs id).state = .waitingSubmit ∧ ¬ w.pc.Submitted id)
    (hun : ∀ x ∈ w'.unanswered ch.link, x.op ∉ w.answeredOps)
    (hdone : ∀ x ∈ w'.s2c ch.link, x ∈ w.s2c ch.link)
    (hcompleted : ∀ id < ch.io.queueDepth, (ch'.io.opCtxs id).state = .completed →
      Answered w.log (ch'.op id) (ch'.io.opCtxs id).requestAndResponse.header)
    (hreceived : ∀ chan sender op holder state, Obs.received chan sender op holder state ∈ log →
      chan = sender ∧ op = holder ∧ state = .inProgress)
    (hclaimed : ∀ op status type len, Obs.claimed op status type len ∈ log →
      ∃ code, Obs.answered op type code len ∈ w.log ∧ status = (BitVec.ofInt 8 code).toNat) :
    Book w' ch' := by
  have hops : w'.answeredOps = w.answeredOps := by
    rw [World.answeredOps, hlog]
    exact answeredOps_append hnone
  have hold : ∀ op type code len, Obs.answered op type code len ∈ w'.log →
      Obs.answered op type code len ∈ w.log := by
    intro op type code len h
    rw [hlog] at h
    refine (List.mem_append.mp h).resolve_right fun hnew => ?_
    cases hnone _ hnew
  refine ⟨by rw [hops]; exact hb.once, fun op hop => ?_, fun id hlt hst hsub => ?_, fun x hx => ?_,
    fun x hx => ?_, fun id hlt hst => ?_, fun op type code len h => hb.empty _ _ _ _ (hold _ _ _ _ h),
    fun chan sender op holder state h => ?_, fun op status type len h => ?_⟩
  · rw [hops] at hop
    exact (hb.known op hop).trans_le hnext
  · rw [hdepth] at hlt
    rw [hops]
    rcases hwaiting id hlt hst hsub with hnew | ⟨h1, h2, h3⟩
    · exact fun hmem => Nat.not_lt_of_le hnew (hb.known _ hmem)
    · rw [h1]
      exact hb.waiting id hlt h2 h3
  · rw [hlink] at hx
    rw [hops]
    exact hun x hx
  · rw [hlink] at hx
    rw [hlog]
    exact (hb.done x (hdone x hx)).append log
  · rw [hdepth] at hlt
    rw [hlog]
    exact (hcompleted id hlt hst).append log
  · rw [hlog] at h
    cases List.mem_append.mp h with
    | inl h => exact hb.received _ _ _ _ _ h
    | inr h => exact hreceived _ _ _ _ _ h
  · rw [hlog] at h ⊢
    have hcl : ∃ code, Obs.answered op type code len ∈ w.log ∧ status = (BitVec.ofInt 8 code).toNat := by
      cases List.mem_append.mp h with
      | inl h => exact hb.claimed _ _ _ _ h
      | inr h => exact hclaimed _ _ _ _ h
    obtain ⟨code, hans, hst⟩ := hcl
    exact ⟨code, List.mem_append_left _ hans, hst⟩

/-- Nothing is observed. -/
theorem Book.quiet (hb : Book w ch) {w' : World} {ch' : Chan} (hlog : w'.log = w.log)
    (hnext : w.nextOp ≤ w'.nextOp) (hlink : ch'.link = ch.link)
    (hdepth : ch'.io.queueDepth = ch.io.queueDepth)
    (hwaiting : ∀ id < ch.io.queueDepth, (ch'.io.opCtxs id).state = .waitingSubmit →
      ¬ w'.pc.Submitted id → w.nextOp ≤ ch'.op id ∨ ch'.op id = ch.op id ∧
        (ch.io.opCtxs id).state = .waitingSubmit ∧ ¬ w.pc.Submitted id)
    (hun : ∀ x ∈ w'.unanswered ch.link, x.op ∉ w.answeredOps)
    (hdone : w'.s2c = w.s2c)
    (hcompleted : ∀ id < ch.io.queueDepth, (ch'.io.opCtxs id).state = .completed →
      ch'.io.opCtxs id = ch.io.opCtxs id ∧ ch'.op id = ch.op id) : Book w' ch' := by
  refine hb.extend (hlog.trans (List.append_nil _).symm) (fun _ h => nomatch h) hnext hlink hdepth
    hwaiting hun (fun x hx => ?_) (fun id hlt hst => ?_) (fun _ _ _ _ _ h => nomatch h)
    fun _ _ _ _ h => nomatch h
  · rwa [hdone] at hx
  · obtain ⟨h1, h2⟩ := hcompleted id hlt hst
    rw [h1] at hst
    rw [h1, h2]
    exact hb.completed id hlt hst

/-- A message `x` is answered; `w'` is the world without it. -/
theorem Book.answered (hb : Book w ch) (hi : PairInv w ch) {w' : World} {x : Sent} {m : Msg} {code : Int}
    (hlog : w'.log = w.log) (hnext : w'.nextOp = w.nextOp) (hpc : w'.pc = w.pc) (hs2c : w'.s2c = w.s2c)
    (hperm : (x :: w'.unanswered ch.link).Perm (w.unanswered ch.link)) (hm : Replied x.msg m code)
    (hempty : (code ≠ Status.success.code → m.header.dataLength = 0) ∧
      (m.header.type ∈ dataless → m.header.dataLength = 0)) :
    Book (w'.answered ch.link x m code) ch := by
  have hlog' : (w'.answered ch.link x m code).log =
      w.log ++ [.answered x.op m.header.type code m.header.dataLength] := by
    rw [World.answered, hlog]
  have hops : (w'.answered ch.link x m code).answeredOps = w.answeredOps ++ [x.op] := by
    rw [World.answeredOps, hlog', List.filterMap_append]
    rfl
  have hx : x ∈ w.unanswered ch.link := hperm.mem_iff.mp (List.mem_cons_self ..)
  have hfl : x ∈ w.flight ch.link := List.mem_append_left _ hx
  obtain ⟨hout, hnew, hop⟩ := hi.slot_of_mem hfl
  have hnot : x.op ∉ w.answeredOps := hb.unanswered x hx
  have hans : Answered (w'.answered ch.link x m code).log x.op m.header := by
    refine ⟨code, ?_, hm.status⟩
    rw [hlog']
    exact List.mem_append_right _ (List.mem_singleton_self _)
  refine ⟨?_, fun op hmem => ?_, fun id hlt hst hsub => ?_, fun y hy => ?_, fun y hy => ?_,
    fun id hlt hst => ?_, fun op type code' len h => ?_, fun chan sender op holder state h => ?_,
    fun op status type len h => ?_⟩
  · rw [hops]
    exact List.nodup_append.mpr ⟨hb.once, List.nodup_singleton _, fun a ha b hb => by
      rw [List.mem_singleton.mp hb]
      exact fun he => hnot (he ▸ ha)⟩
  · rw [hops] at hmem
    have hn : (w'.answered ch.link x m code).nextOp = w.nextOp := hnext
    rw [hn]
    cases List.mem_append.mp hmem with
    | inl hmem => exact hb.known op hmem
    | inr hmem =>
      rw [List.mem_singleton.mp hmem, hop]
      exact hi.ok.fresh _ hout.1 hnew
  · have hp : (w'.answered ch.link x m code).pc = w.pc := hpc
    rw [hp] at hsub
    rw [hops, List.mem_append, not_or, List.mem_singleton]
    refine ⟨hb.waiting id hlt hst hsub, fun he => ?_⟩
    have hidnew : (ch.io.opCtxs id).state ≠ .new := by
      rw [hst]
      exact fun h => OpState.noConfusion h
    have hid := hi.ok.distinct id hlt _ hout.1 hidnew hnew (he.trans hop)
    subst hid
    rcases hout.2 with hprog | hsub'
    · rw [hst] at hprog
      exact OpState.noConfusion hprog
    · exact hsub hsub'
  · have hy : y ∈ w'.unanswered ch.link := hy
    rw [hops, List.mem_append, not_or, List.mem_singleton]
    refine ⟨hb.unanswered y (hperm.mem_iff.mp (List.mem_cons_of_mem _ hy)), ?_⟩
    have hnd : ((w.unanswered ch.link).map Sent.op).Nodup := by
      have hnd := hi.ops_nodup
      rw [World.flight, List.map_append] at hnd
      exact (List.nodup_append.mp hnd).1
    have hnd' := ((hperm.map Sent.op).nodup_iff).mpr hnd
    rw [List.map_cons, List.nodup_cons] at hnd'
    exact fun he => hnd'.1 (he ▸ List.mem_map_of_mem hy)
  · simp only [World.answered, Function.update_self, List.mem_append, List.mem_singleton] at hy
    rcases hy with hy | rfl
    · rw [hs2c] at hy
      rw [hlog']
      exact (hb.done y hy).append _
    · exact hans
  · rw [hlog']
    exact (hb.completed id hlt hst).append _
  · rw [hlog', List.mem_append, List.mem_singleton] at h
    rcases h with h | h
    · exact hb.empty _ _ _ _ h
    · injection h with h1 h2 h3 h4
      subst h2 h3 h4
      exact hempty
  · rw [hlog', List.mem_append, List.mem_singleton] at h
    exact hb.received _ _ _ _ _ (h.resolve_right fun he => Obs.noConfusion he)
  · rw [hlog', List.mem_append, List.mem_singleton] at h
    obtain ⟨code', hans, hst⟩ := hb.claimed _ _ _ _ (h.resolve_right fun he => Obs.noConfusion he)
    rw [hlog']
    exact ⟨code', List.mem_append_left _ hans, hst⟩

/-- Every step keeps the book. -/
theorem Book.trans (hb : Book w ch) (hi : PairInv w ch) {w' : World} {ch' : Chan}
    (ht : Trans w ch w' ch') : Book w' ch' := by
  cases ht with
  | stay f =>
    exact hb.quiet rfl (Nat.le_refl _) rfl rfl (fun id _ hst hsub => Or.inr ⟨rfl, hst, hsub⟩)
      hb.unanswered rfl fun id _ _ => ⟨rfl, rfl⟩
  | prepared io id hpc h =>
    refine hb.quiet rfl (Nat.le_succ _) rfl h.queueDepth (fun i _ hst hsub => ?_) hb.unanswered rfl
      fun i _ hst => ?_
    · by_cases he : i = id
      · rw [he]
        exact Or.inl (Function.update_self id w.nextOp ch.op).ge
      · rw [h.other i he] at hst
        exact Or.inr ⟨Function.update_of_ne he .., hst, hsub⟩
    · have he : i ≠ id := by
        rintro rfl
        rw [h.waiting] at hst
        exact OpState.noConfusion hst
      exact ⟨h.other i he, Function.update_of_ne he ..⟩
  | submit ops hpc hnd h =>
    refine hb.quiet rfl (Nat.le_refl _) rfl rfl (fun id _ hst _ => Or.inr ⟨rfl, hst, ?_⟩)
      hb.unanswered rfl fun id _ _ => ⟨rfl, rfl⟩
    rw [hpc]
    exact Pc.idle_submitted
  | send id rest all hpc =>
    obtain ⟨-, -, hsuf, hall⟩ := atPc_sending hi hpc
    obtain ⟨hlt, hst⟩ := hall id (hsuf.subset (List.mem_cons_self ..))
    refine hb.quiet rfl (Nat.le_refl _) rfl rfl (fun i _ hst' hsub => Or.inr ⟨rfl, hst', ?_⟩)
      (fun x hx => ?_) rfl fun id _ _ => ⟨rfl, rfl⟩
    · rw [hpc]
      exact fun hc => hsub ⟨hc.1, fun hmem => hc.2 (List.mem_cons_of_mem _ hmem)⟩
    · simp only [World.unanswered, Function.update_self, List.mem_append, List.mem_singleton] at hx
      have hwas : ∀ y, (y ∈ w.c2s ch.link ∨ y ∈ w.batch ch.link) ∨ y ∈ w.pending ch.link →
          y.op ∉ w.answeredOps := by
        intro y hy
        exact hb.unanswered y (by simpa only [World.unanswered, List.mem_append] using hy)
      rcases hx with ((hx | rfl) | hx) | hx
      · exact hwas x (Or.inl (Or.inl hx))
      · refine hb.waiting id hlt hst ?_
        rw [hpc]
        exact fun hc => hc.2 (List.mem_cons_self ..)
      · exact hwas x (Or.inl (Or.inr hx))
      · exact hwas x (Or.inr hx)
  | marked all hpc =>
    have hdepth : (markInProgress ch.io all).queueDepth = ch.io.queueDepth := by
      rw [markInProgress_frame]
    have hkeep : ∀ i, ((markInProgress ch.io all).opCtxs i).state ≠ .inProgress →
        i ∉ all ∧ (markInProgress ch.io all).opCtxs i = ch.io.opCtxs i := by
      intro i hne
      rw [markInProgress_opCtxs] at hne ⊢
      by_cases hmem : i ∈ all
      · rw [if_pos hmem] at hne
        exact absurd rfl hne
      · exact ⟨hmem, if_neg hmem⟩
    refine hb.quiet rfl (Nat.le_refl _) rfl hdepth (fun i _ hst _ => ?_) hb.unanswered rfl
      fun i _ hst => ?_
    · obtain ⟨hmem, heq⟩ := hkeep i (by rw [hst]; exact fun h => OpState.noConfusion h)
      rw [heq] at hst
      refine Or.inr ⟨rfl, hst, ?_⟩
      rw [hpc]
      exact fun hc => hmem hc.1
    · exact ⟨(hkeep i (by rw [hst]; exact fun h => OpState.noConfusion h)).2, rfl⟩
  | poll min max retry hpc hcpl =>
    refine hb.quiet rfl (Nat.le_refl _) rfl rfl (fun id _ hst _ => Or.inr ⟨rfl, hst, ?_⟩)
      hb.unanswered rfl fun id _ _ => ⟨rfl, rfl⟩
    rw [hpc]
    exact Pc.idle_submitted
  | ready max hpc =>
    refine hb.quiet rfl (Nat.le_refl _) rfl rfl (fun id _ hst _ => Or.inr ⟨rfl, hst, ?_⟩)
      hb.unanswered rfl fun id _ _ => ⟨rfl, rfl⟩
    rw [hpc]
    exact Pc.idle_submitted
  | wait xs ys min max n m retry retry' r pc hpc hs2c hr hpc' =>
    have hrecv := hi.received hpc hs2c
    rw [← hr] at hrecv
    -- a slot is as it was, or its operation's response has come
    have hslot : ∀ id, (r.1.io.opCtxs id).state ≠ .completed → r.1.io.opCtxs id = ch.io.opCtxs id :=
      fun id hne => (hrecv.slots id).resolve_right fun h => hne h.1
    have hnone : ∀ o ∈ r.2.1, o.answeredOp = none := by
      intro o ho
      obtain ⟨op, rfl⟩ := hrecv.found o ho
      rfl
    refine hb.extend rfl hnone (Nat.le_refl _) hrecv.link hrecv.queueDepth (fun id _ hst _ => ?_)
      hb.unanswered (fun x hx => ?_) (fun id hid hst => ?_) (fun chan sender op holder state h => ?_)
      fun op status type len h => ?_
    · rw [hslot id (by rw [hst]; exact fun h => OpState.noConfusion h)] at hst
      refine Or.inr ⟨congrFun hrecv.op id, hst, ?_⟩
      rw [hpc]
      exact Pc.polling_submitted
    · simp only [Function.update_self] at hx
      rw [hs2c]
      exact List.mem_append_right _ hx
    · rw [hrecv.op]
      rcases hrecv.slots id with heq | ⟨_, x, hx, hop, hhdr⟩
      · rw [heq] at hst ⊢
        exact hb.completed id hid hst
      · rw [← hop, hhdr]
        exact hb.done x (by rw [hs2c]; exact List.mem_append_left _ hx)
    · obtain ⟨op', heq⟩ := hrecv.found _ h
      injection heq with h1 h2 h3 h4 h5
      exact ⟨h1.trans h2.symm, h3.trans h4.symm, h5⟩
    · obtain ⟨op', heq⟩ := hrecv.found _ h
      exact Obs.noConfusion heq
  | reaped max hpc =>
    refine hb.quiet rfl (Nat.le_refl _) rfl rfl (fun id _ hst _ => Or.inr ⟨rfl, hst, ?_⟩)
      hb.unanswered rfl fun id _ _ => ⟨rfl, rfl⟩
    rw [hpc]
    exact Pc.reaping_submitted
  | claim id hpc hlt hst =>
    obtain ⟨code, hans, hstatus⟩ := hb.completed id hlt hst
    refine hb.extend rfl (fun o ho => ?_) (Nat.le_refl _) rfl rfl (fun i _ hst' hsub => Or.inr ?_) hb.unanswered (fun x hx => hx)
      (fun i hi hst' => ?_) (fun _ _ _ _ _ h => ?_) fun op status type len h => ?_
    · rw [List.mem_singleton.mp ho]
      rfl
    · have he : i ≠ id := by
        rintro rfl
        rw [setState_self] at hst'
        exact OpState.noConfusion hst'
      rw [setState_other ch.io _ he] at hst'
      exact ⟨rfl, hst', hsub⟩
    · have he : i ≠ id := by
        rintro rfl
        rw [setState_self] at hst'
        exact OpState.noConfusion hst'
      rw [setState_other ch.io _ he] at hst' ⊢
      exact hb.completed i hi hst'
    · exact Obs.noConfusion (List.mem_singleton.mp h)
    · injection List.mem_singleton.mp h with h1 h2 h3 h4
      subst h1 h2 h3 h4
      exact ⟨code, hans, hstatus⟩
  | destroyed io id hpc h =>
    refine hb.quiet rfl (Nat.le_refl _) rfl h.queueDepth (fun i _ hst hsub => Or.inr ?_) hb.unanswered rfl
      fun i _ hst => ?_
    · have he : i ≠ id := by
        rintro rfl
        rw [h.isNew] at hst
        exact OpState.noConfusion hst
      rw [h.other i he] at hst
      exact ⟨rfl, hst, hsub⟩
    · have he : i ≠ id := by
        rintro rfl
        rw [h.isNew] at hst
        exact OpState.noConfusion hst
      exact ⟨h.other i he, rfl⟩
  | take xs ys hc2s =>
    refine hb.quiet rfl (Nat.le_refl _) rfl rfl (fun id _ hst hsub => Or.inr ⟨rfl, hst, hsub⟩)
      (fun x hx => ?_) rfl fun id _ _ => ⟨rfl, rfl⟩
    have hwas : ∀ y, y ∈ xs ∨ y ∈ ys ∨ y ∈ w.batch ch.link ∨ y ∈ w.pending ch.link →
        y.op ∉ w.answeredOps := by
      intro y hy
      refine hb.unanswered y ?_
      simp only [World.unanswered, hc2s, List.mem_append]
      tauto
    simp only [World.unanswered, Function.update_self, List.mem_append, List.mem_map] at hx
    rcases hx with (hx | hx | ⟨y, hy, rfl⟩) | hx
    · exact hwas x (Or.inr (Or.inl hx))
    · exact hwas x (Or.inr (Or.inr (Or.inl hx)))
    · exact hwas y (Or.inl hy)
    · exact hwas x (Or.inr (Or.inr (Or.inr hx)))
  | refused x xs m code hbatch hm hcode =>
    refine hb.answered hi rfl rfl rfl rfl ?_ hm ⟨hm.error, fun _ => hm.error hcode⟩
    simp only [World.unanswered, Function.update_self, hbatch, List.append_assoc, List.cons_append]
    exact List.perm_middle.symm
  | stored x xs m hbatch hm =>
    refine hb.quiet rfl (Nat.le_refl _) rfl rfl (fun id _ hst hsub => Or.inr ⟨rfl, hst, hsub⟩)
      (fun y hy => ?_) rfl fun id _ _ => ⟨rfl, rfl⟩
    have hwas : ∀ y, y ∈ w.c2s ch.link ∨ (y = x ∨ y ∈ xs) ∨ y ∈ w.pending ch.link →
        y.op ∉ w.answeredOps := by
      intro y hy
      refine hb.unanswered y ?_
      simp only [World.unanswered, hbatch, List.mem_append, List.mem_cons]
      tauto
    simp only [World.unanswered, Function.update_self, List.mem_append, List.mem_singleton] at hy
    rcases hy with (hy | hy) | hy | rfl
    · exact hwas y (Or.inl hy)
    · exact hwas y (Or.inr (Or.inl (Or.inr hy)))
    · exact hwas y (Or.inr (Or.inr hy))
    · exact hwas x (Or.inr (Or.inl (Or.inl rfl)))
  | complete i x m code hp hm hdata hcarry =>
    have htype : m.header.type = x.msg.header.type := MsgHdr.type_of_ident hm.ident
    refine hb.answered hi rfl rfl rfl rfl ?_ hm ⟨hm.error, fun ht => hdata (htype ▸ ht)⟩
    obtain ⟨hlt, rfl⟩ := List.getElem?_eq_some_iff.mp hp
    simp only [World.unanswered, Function.update_self]
    exact List.perm_middle.symm.trans ((List.getElem_cons_eraseIdx_perm hlt).append_left _)

end Book

section Client
variable {h : Heap (List Byte)} {w w' : World} {ch : Chan} {a : Act}

/-- A connection has room for everything. -/
theorem room_of_proper (hk : w.kind = .net) (hp : Proper w a) : Room h w a := by
  have hroom : ∀ q, HasRoom w.kind q := by
    intro q hipc
    rw [hk] at hipc
    cases hipc
  cases a with
  | submit c ops => exact fun _ _ _ => hp.1
  | send =>
    simp only [Room, SendRoom]
    split
    · exact fun _ _ => hroom _
    · trivial
  | handle l rc => exact fun _ _ => Or.inr (hroom _)
  | complete l i code => exact hroom _
  | _ => trivial

theorem answer_fault (w : World) (x : Sent) (code : Int) (events : List (Event (List Byte))) :
    (World.answer w x code events).fault = w.fault := by
  obtain ⟨s2c, log, he, -⟩ := answer_frame w x code events
  rw [he]

/-- No assertion fails, when the bitmap has no slot beyond the depth. -/
theorem step_noFault (hi : PairInv w ch)
    (hwords : 64 * ch.io.opCtxsBitmap.wordsLength ≤ ch.io.queueDepth) (hp : Proper w a)
    (hs : step h a w = some w') : w'.fault = none := by
  have hch := hi.chans
  obtain ⟨hf, hs⟩ := step_act hs
  cases a with
  | prepare c call =>
    obtain ⟨-, rfl, rfl⟩ := call_some hch hs
    obtain ⟨r, hr⟩ := ioCall_ok hi.ok.slots hwords call
    unfold World.prepare
    rw [hr]
    dsimp only
    split <;> exact hf
  | submit c ops =>
    obtain ⟨-, rfl, rfl⟩ := call_some hch hs
    have hcheck := submitCheck_ok (hp.2 ch (by rw [hch]; rfl))
    unfold World.submit
    rw [hcheck]
    exact hf
  | send =>
    simp only [World.act] at hs
    split at hs
    · obtain ⟨_, _, rfl⟩ := Option.map_eq_some_iff.mp hs
      exact hf
    · obtain ⟨_, _, rfl⟩ := Option.map_eq_some_iff.mp hs
      exact hf
    · cases hs
  | poll c min max =>
    obtain ⟨-, rfl, rfl⟩ := call_some hch hs
    unfold World.poll
    split
    · exact hf
    · split <;> exact hf
  | wait j =>
    simp only [World.act] at hs
    split at hs
    · rename_i c min max n retry hpc
      obtain ⟨rfl, -⟩ := atPc_polling hi hpc
      rw [hch] at hs
      dsimp only [List.getElem?_cons_zero] at hs
      split at hs
      · obtain rfl := Option.some.inj hs
        exact (hi.received hpc (List.take_append_drop j (w.s2c ch.link)).symm).noFault
      · cases hs
    · cases hs
  | reap =>
    simp only [World.act] at hs
    split at hs
    · obtain ⟨_, _, rfl⟩ := Option.map_eq_some_iff.mp hs
      exact hf
    · cases hs
  | claim c id =>
    obtain ⟨-, rfl, rfl⟩ := call_some hch hs
    exact hf
  | destroy c id =>
    obtain ⟨-, rfl, rfl⟩ := call_some hch hs
    unfold World.destroy
    by_cases hlt : id < ch.io.queueDepth
    · have hended := hp ch (by rw [hch]; rfl) hlt
      obtain ⟨io, hfree, -⟩ := freeOp_ended hi.ok.slots hlt hended
      simp only [opDestory, if_pos hlt, hended, hfree]
      exact hf
    · simp only [opDestory, if_neg hlt]
      exact hf
  | take l j =>
    simp only [World.act] at hs
    split at hs
    · obtain rfl := Option.some.inj hs
      exact hf
    · cases hs
  | handle l rc =>
    simp only [World.act] at hs
    split at hs
    · obtain rfl := Option.some.inj hs
      exact (answer_fault ..).trans hf
    · cases hs
  | complete l i code =>
    obtain ⟨x, -, rfl⟩ := Option.map_eq_some_iff.mp hs
    exact (answer_fault ..).trans hf

end Client

/-- A channel of whole messages with a depth that is a multiple of 64. -/
theorem run_matched (h : Heap (List Byte)) (l : Nat) (qd : BitVec 32) (w : World)
    (hqd : depthOf qd % 64 = 0) (hrun : Run (step h) Proper (World.start .net [(l, qd)]) w) :
    Matched w := by
  have hbook : ∃ ch, Opened .net l (depthOf qd) w ch ∧ Book w ch ∧ w.fault = none := by
    induction hrun with
    | start => exact ⟨_, Opened.start .net l qd, Book.start .net l qd, rfl⟩
    | next a _ hp hs ih =>
      obtain ⟨ch, ho, hb, -⟩ := ih
      obtain ⟨ch', ht, ho'⟩ := ho.step (room_of_proper ho.kind hp) hs
      have hwords : 64 * ch.io.opCtxsBitmap.wordsLength ≤ ch.io.queueDepth := by
        have hlt : depthOf qd < 2 ^ 32 := BitVec.isLt _
        rw [ho.words, ho.depth]
        have h63 : (63 : BitVec 32).toNat = 63 := rfl
        simp only [bitmapConstructor, BitVec.toNat_add, BitVec.toNat_ofNat, h63]
        omega
      exact ⟨ch', ho', hb.trans ho.inv ht, step_noFault ho.inv hwords hp hs⟩
  obtain ⟨ch, -, hb, hf⟩ := hbook
  refine ⟨hf, hb.received, hb.once, fun op status type len hclaim => ?_⟩
  obtain ⟨code, hans, hst⟩ := hb.claimed op status type len hclaim
  obtain ⟨herr, hdata⟩ := hb.empty op type code len hans
  exact ⟨code, hans, hst, herr, hdata⟩

end ZCell.Liboss
