import ZCell.Commit
import ZCell.Mkfs

/-! The onode of one object along a run. A write logs the onode that its prepare function found,
so it undoes a create or delete that was queued then; a create or delete is checked against the
onode in memory, so it does not see the ones that are queued. -/
namespace ZCell.Store
open Bytes Persist Pm Allocator Runs

def CreDelOf (r : Request) (oid : Nat) : Prop := r.object = oid ∧ (r.op = .create ∨ r.op = .delete)

def WriteOf (r : Request) (oid : Nat) : Prop := r.object = oid ∧ r.op = .write

instance (r : Request) (oid : Nat) : Decidable (CreDelOf r oid) :=
  inferInstanceAs (Decidable (_ ∧ _))

instance (r : Request) (oid : Nat) : Decidable (WriteOf r oid) :=
  inferInstanceAs (Decidable (_ ∧ _))

/-- No create or delete of the object is queued. -/
def NoCreDel (oid : Nat) (w : World) : Prop :=
  ∀ t ∈ w.zs.txList, ¬ CreDelOf (w.tx t).request oid

instance (oid : Nat) (w : World) : Decidable (NoCreDel oid w) :=
  inferInstanceAs (Decidable (∀ t ∈ w.zs.txList, _))

/-- No write of the object is accepted while a create or delete of it is queued. -/
def WritesAlone (oid : Nat) (w : World) (a : Act) : Prop :=
  ∀ r ∈ callOf w a, WriteOf r oid → Fails w.zs r ∨ NoCreDel oid w

/-- In addition no create of the object is called while a create of it is queued, unless no index
block is free, and no delete while a delete is. -/
def ChangesAlone (oid : Nat) (w : World) (a : Act) : Prop :=
  WritesAlone oid w a ∧ ∀ r ∈ callOf w a, CreDelOf r oid →
    (r.op = .create ∧ ¬ HasRoom w.zs.pmAllocator 1) ∨
    ∀ t ∈ w.zs.txList, CreDelOf (w.tx t).request oid → (w.tx t).request.op ≠ r.op

instance (oid : Nat) (w : World) (a : Act) : Decidable (WritesAlone oid w a) :=
  inferInstanceAs (Decidable (∀ r ∈ callOf w a, _))

instance (oid : Nat) (w : World) (a : Act) : Decidable (ChangesAlone oid w a) :=
  inferInstanceAs (Decidable (_ ∧ ∀ r ∈ callOf w a, _))

/-- The onode set by the last create or delete of the object that was committed; `init` before
the first one. -/
def lastOnode (init : OtableEntry) (oid : Nat) (w : World) : OtableEntry :=
  ((w.applied.filter fun t => decide (CreDelOf (w.tx t).request oid)).getLast?.map
    fun t => loggedOnode (w.before t) (w.tx t).request).getD init

/-- The accepted creates (true) and deletes (false) of the object, in order. -/
def creDels (oid : Nat) (w : World) : List Bool :=
  (w.accepted.filter fun t => decide (CreDelOf (w.tx t).request oid)).map
    fun t => (w.tx t).request.op = .create

/-- Writes in the queue carry the onode of today, and no create or delete is ahead of them. -/
structure Snapshots (oid : Nat) (w : World) : Prop where
  order : w.zs.txList.Pairwise fun t u =>
    WriteOf (w.tx u).request oid → ¬ CreDelOf (w.tx t).request oid
  snapshot : ∀ t ∈ w.zs.txList, WriteOf (w.tx t).request oid →
    (w.before t).onode oid = w.zs.onode oid
  coherent : onodeLine w.zs.pm oid = w.zs.onode oid

section Steps
variable {env : Env} {w w' : World} {a : Act} {oid : Nat}

/-- The queue and its requests stay, and so do the onodes. -/
theorem Snapshots.keep (hs : Snapshots oid w) (hlist : w'.zs.txList = w.zs.txList)
    (hreq : ∀ t ∈ w.zs.txList, (w'.tx t).request = (w.tx t).request ∧ w'.before t = w.before t)
    (hmem : w'.zs.onode oid = w.zs.onode oid)
    (hpm : onodeLine w'.zs.pm oid = onodeLine w.zs.pm oid) : Snapshots oid w' := by
  refine ⟨?_, fun t ht hwr => ?_, by rw [hpm, hmem, hs.coherent]⟩
  · rw [hlist]
    refine hs.order.imp_of_mem fun ht hu hrel => ?_
    rw [(hreq _ ht).1, (hreq _ hu).1]
    exact hrel
  · rw [hlist] at ht
    rw [(hreq t ht).1] at hwr
    rw [(hreq t ht).2, hmem]
    exact hs.snapshot t ht hwr

theorem WF.keeps (hw : WF w) (h : step env a w = some w') : ∀ t ∈ w.zs.txList,
    (w'.tx t).request = (w.tx t).request ∧ w'.before t = w.before t := by
  intro t ht
  obtain ⟨h1, h2, _⟩ := (step_keeps hw h).2 t (hw.queued t ht).tid_lt
  exact ⟨h1.1, h2⟩

/-- A commit sets the onode of the object when it commits a create or delete of it. -/
theorem Snapshots.commit {tid : Nat} {t : PmemTransaction} (hw : WF w) (ho : oid < 2 ^ 20)
    (hs : Snapshots oid w) (hc : Commits w w' tid t) : Snapshots oid w' ∧
      w'.zs.onode oid = if CreDelOf (w.tx tid).request oid then
        loggedOnode (w.before tid) (w.tx tid).request else w.zs.onode oid := by
  have heff := hc.effect hw
  have hmem : tid ∈ w.zs.txList := by
    rw [hc.head]
    exact List.mem_cons_self ..
  have hval : (if oid = (w.tx tid).request.object then
        loggedOnode (w.before tid) (w.tx tid).request else w.zs.onode oid) =
      if CreDelOf (w.tx tid).request oid then
        loggedOnode (w.before tid) (w.tx tid).request else w.zs.onode oid := by
    by_cases hobj : oid = (w.tx tid).request.object
    · rw [if_pos hobj]
      split
      · rfl
      · rename_i hno
        obtain ⟨tx, hacc, _⟩ := (hw.queued tid hmem).accepted
        have hop : (w.tx tid).request.op = .write := by
          cases hacc with
          | write hop _ => exact hop
          | create hop _ => exact absurd ⟨hobj.symm, Or.inl hop⟩ hno
          | delete hop _ => exact absurd ⟨hobj.symm, Or.inr hop⟩ hno
        rw [← hs.snapshot tid hmem ⟨hobj.symm, hop⟩]
        simp only [loggedOnode, hop, ← hobj]
    · have hno : ¬ CreDelOf (w.tx tid).request oid := fun h => hobj h.1.symm
      rw [if_neg hobj, if_neg hno]
  have honode := heff.onode oid ho
  have hline := heff.onodePm oid ho
  rw [hs.coherent, hval] at hline
  rw [hval] at honode
  refine ⟨?_, honode⟩
  have hord := hs.order
  rw [hc.head] at hord
  obtain ⟨hhead, hrest⟩ := List.pairwise_cons.mp hord
  refine ⟨?_, fun u hu hwr => ?_, by rw [hline, honode]⟩
  · refine hrest.imp fun {u v} hrel => ?_
    rw [(hc.heap u).1, (hc.heap v).1]
    exact hrel
  · rw [(hc.heap u).1] at hwr
    have hin : u ∈ w.zs.txList := by
      rw [hc.head]
      exact List.mem_cons_of_mem tid hu
    rw [hc.before, honode, if_neg (hhead u hu hwr)]
    exact hs.snapshot u hin hwr

/-- Appending the request of an accepted call to the queue. -/
theorem Snapshots.accept {r : Request} {zs : ZstoreContext} {tx : ZstoreTransaction} (hw : WF w)
    (ho : oid < 2 ^ 20) (hs : Snapshots oid w) (hstep : step env a w = some w')
    (ha : Accepts r w w' zs tx) (hok : WriteOf r oid → Fails w.zs r ∨ NoCreDel oid w) :
    Snapshots oid w' ∧ w'.zs.onode oid = w.zs.onode oid := by
  have hkeep := hw.keeps hstep
  obtain ⟨_, hr, n, l, hzs⟩ | ⟨hacc, n, hzs⟩ := ha.kind
  · rw [hr.store] at hzs
    have hmem := @onode_congr w.zs w'.zs (by rw [hzs]) (by rw [hzs]) oid
    exact ⟨hs.keep (by rw [hzs]) hkeep hmem (by rw [hzs]), hmem⟩
  · obtain ⟨_, _, hot, _, hlist, hmem⟩ := hacc.formatted hw.formatted
    have honode : w'.zs.onode oid = w.zs.onode oid :=
      onode_congr (by rw [hzs, hmem]) (by rw [hzs, hot]) oid
    have hline : onodeLine w'.zs.pm oid = onodeLine w.zs.pm oid := by
      rw [hzs]
      exact hacc.onodeLine_eq hw.formatted ho
    have hreq : (w'.tx w.zs.tidMax).request = r := ha.request_self
    have hlist' : w'.zs.txList = w.zs.txList ++ [w.zs.tidMax] := by rw [hzs, hlist]
    refine ⟨⟨?_, fun t ht hwr => ?_, by rw [hline, honode, hs.coherent]⟩, honode⟩
    · rw [hlist', List.pairwise_append]
      refine ⟨?_, List.pairwise_singleton _ _, fun t ht u hu => ?_⟩
      · refine hs.order.imp_of_mem fun ht hu hrel => ?_
        rw [(hkeep _ ht).1, (hkeep _ hu).1]
        exact hrel
      · obtain rfl := List.mem_singleton.mp hu
        rw [hreq, (hkeep t ht).1]
        intro hwr
        obtain hfail | hnone := hok hwr
        · cases hacc with
          | write _ h => exact absurd hfail h.succeeds
          | create hop _ => exact absurd (hwr.2.symm.trans hop) (by decide)
          | delete hop _ => exact absurd (hwr.2.symm.trans hop) (by decide)
        · exact hnone t ht
    · rw [hlist'] at ht
      rw [honode]
      obtain ht | ht := List.mem_append.mp ht
      · rw [(hkeep t ht).1] at hwr
        rw [(hkeep t ht).2]
        exact hs.snapshot t ht hwr
      · obtain rfl := List.mem_singleton.mp ht
        rw [ha.before_self]

theorem Snapshots.quiet (hw : WF w) (hs : Snapshots oid w) (hstep : step env a w = some w')
    (hq : Quiet w w') : Snapshots oid w' ∧ w'.zs.onode oid = w.zs.onode oid := by
  have hmem := onode_congr hq.zs.mem hq.zs.otable oid
  exact ⟨hs.keep hq.zs.txList (hw.keeps hstep) hmem (by rw [hq.zs.pm]), hmem⟩

theorem Snapshots.reject {env' : Env} {r : Request} {rc : Int} {tx : ZstoreTransaction} (hw : WF w)
    (hs : Snapshots oid w) (hstep : step env a w = some w') (hr : Rejects env' r w w' rc tx) :
    Snapshots oid w' ∧ w'.zs.onode oid = w.zs.onode oid := by
  have hfr := (prepare_rejected hw.formatted.shift hr.rc_ne hr.prepare).frame
  have hmem := @onode_congr w.zs w'.zs (by rw [hfr]) (by rw [hfr]) oid
  exact ⟨hs.keep (by rw [hfr]) (hw.keeps hstep) hmem (by rw [hfr]), hmem⟩

end Steps

section Last
variable {env : Env} {w w' : World} {a : Act} {oid : Nat} {init : OtableEntry}

/-- While no transaction is committed the last committed onode stays. -/
theorem lastOnode_keep (hw : WF w) (hl : Logged w) (hstep : step env a w = some w')
    (happ : w'.applied = w.applied) : lastOnode init oid w' = lastOnode init oid w := by
  have hkeep := (hl.keeps hw hstep).2
  rw [lastOnode, lastOnode, happ]
  refine latest_congr init (fun t ht => ?_) fun t ht => ?_
  · rw [(hkeep t ht).1]
  · rw [(hkeep t ht).1, (hkeep t ht).2]

theorem lastOnode_commit {tid : Nat} {t : PmemTransaction} (hc : Commits w w' tid t) :
    lastOnode init oid w' = if CreDelOf (w.tx tid).request oid then
      loggedOnode (w.before tid) (w.tx tid).request else lastOnode init oid w := by
  have hreq : ∀ i, (w'.tx i).request = (w.tx i).request := fun i => (hc.heap i).1
  simp only [lastOnode, hreq, hc.before, hc.applied]
  exact latest_snoc (fun t => CreDelOf (w.tx t).request oid) _ init w.applied tid

/-- What holds in every state when writes keep clear of queued creates and deletes. -/
structure OnodeInv (init : OtableEntry) (oid : Nat) (w : World) : Prop where
  wf : WF w
  logged : Logged w
  snapshots : Snapshots oid w
  current : w.zs.onode oid = lastOnode init oid w

theorem OnodeInv.step (ho : oid < 2 ^ 20) (hi : OnodeInv init oid w) (hok : WritesAlone oid w a)
    (hstep : step env a w = some w') : OnodeInv init oid w' := by
  have hw := hi.wf
  obtain hq | ⟨r, hr, ⟨rc, tx, hrej⟩ | ⟨zs, tx, ha⟩⟩ | ⟨tid, t, hc⟩ := step_cases hw hstep
  · obtain ⟨hs, hmem⟩ := hi.snapshots.quiet hw hstep hq
    exact ⟨step_wf hw hstep, step_logged hw hi.logged hstep, hs,
      by rw [hmem, hi.current, lastOnode_keep hw hi.logged hstep hq.applied]⟩
  · obtain ⟨hs, hmem⟩ := hi.snapshots.reject hw hstep hrej
    exact ⟨step_wf hw hstep, step_logged hw hi.logged hstep, hs,
      by rw [hmem, hi.current, lastOnode_keep hw hi.logged hstep hrej.applied]⟩
  · obtain ⟨hs, hmem⟩ := hi.snapshots.accept hw ho hstep ha (hok r hr)
    exact ⟨step_wf hw hstep, step_logged hw hi.logged hstep, hs,
      by rw [hmem, hi.current, lastOnode_keep hw hi.logged hstep ha.applied]⟩
  · obtain ⟨hs, hmem⟩ := hi.snapshots.commit hw ho hc
    refine ⟨step_wf hw hstep, step_logged hw hi.logged hstep, hs, ?_⟩
    rw [hmem, lastOnode_commit hc, hi.current]

theorem Mounted.snapshots {w0 : World} (hm : Mounted w0) (ho : oid < 2 ^ 20) :
    Snapshots oid w0 :=
  ⟨by rw [hm.txList]; exact List.Pairwise.nil,
    fun t ht => by rw [hm.txList] at ht; exact absurd ht List.not_mem_nil, hm.coherent oid ho⟩

theorem Mounted.onodeInv {w0 : World} (hm : Mounted w0) (ho : oid < 2 ^ 20) :
    OnodeInv (w0.zs.onode oid) oid w0 :=
  ⟨hm.wf, hm.logged, hm.snapshots ho, by simp [lastOnode, World.applied, hm.log]⟩

/-- While only other objects have been created or deleted, the onode is the first one. -/
theorem OnodeInv.unchanged (hi : OnodeInv init oid w)
    (h : ∀ t ∈ w.applied, ¬ CreDelOf (w.tx t).request oid) : w.zs.onode oid = init := by
  have hnil : w.applied.filter (fun t => decide (CreDelOf (w.tx t).request oid)) = [] :=
    List.filter_eq_nil_iff.mpr fun t ht => by simpa using h t ht
  rw [hi.current, lastOnode, hnil]
  rfl

/-- When each request waits until no other is queued, an object that is neither created nor deleted
keeps its onode. -/
theorem onode_kept {w0 : World} (hm : Mounted w0) (ho : oid < 2 ^ 20)
    (hrun : Run (Store.step env) (fun w a => ∀ r ∈ callOf w a, w.zs.txList = []) w0 w)
    (h : ∀ t ∈ w.applied, ¬ CreDelOf (w.tx t).request oid) : w.zs.onode oid = w0.zs.onode oid := by
  have hi : OnodeInv (w0.zs.onode oid) oid w := hrun.invariant (hm.onodeInv ho)
    fun w a _ hi hok hstep => hi.step ho (fun r hr _ => Or.inr fun t ht => by
      rw [hok r hr] at ht
      exact absurd ht List.not_mem_nil) hstep
  exact hi.unchanged h

/-- When no write of an object is accepted while a create or delete of it is queued, its onode is,
in memory and in persistent memory, always the one set by the last create or delete of it that
was committed, and no commit of a write changes it. -/
theorem onode_eq_lastOnode (env : Env) (w0 w : World) (oid : Nat) (ho : oid < 2 ^ 20)
    (hm : Mounted w0) (hrun : Run (Store.step env) (WritesAlone oid) w0 w) :
    w.zs.onode oid = lastOnode (w0.zs.onode oid) oid w ∧
    onodeLine w.zs.pm oid = lastOnode (w0.zs.onode oid) oid w ∧
    ∀ a w' tid, Store.step env a w = some w' → w'.applied = w.applied ++ [tid] →
      (w.tx tid).request.op = .write →
      w'.zs.onode oid = w.zs.onode oid ∧ onodeLine w'.zs.pm oid = onodeLine w.zs.pm oid := by
  have hi : OnodeInv (w0.zs.onode oid) oid w := hrun.invariant (hm.onodeInv ho)
    fun _ _ _ hi hok hstep => hi.step ho hok hstep
  refine ⟨hi.current, hi.snapshots.coherent.trans hi.current, fun a w' tid hstep happ hop => ?_⟩
  have hsilent : w'.applied ≠ w.applied := by
    intro h
    have hlen := congrArg List.length (h.symm.trans happ)
    simp at hlen
  obtain hq | ⟨r, _, ⟨rc, tx, hrej⟩ | ⟨zs, tx, ha⟩⟩ | ⟨i, t, hc⟩ := step_cases hi.wf hstep
  · exact absurd hq.applied hsilent
  · exact absurd hrej.applied hsilent
  · exact absurd ha.applied hsilent
  · obtain ⟨hs, hval⟩ := hi.snapshots.commit hi.wf ho hc
    have hi' : i = tid := by
      have happ' := hc.applied.symm.trans happ
      simpa using happ'
    subst hi'
    have hno : ¬ CreDelOf (w.tx i).request oid := by
      intro h
      rw [CreDelOf, hop] at h
      simp at h
    rw [if_neg hno] at hval
    exact ⟨hval, by rw [hs.coherent, hval, hi.snapshots.coherent]⟩

def createObject (oid : Nat) : Act := .request ⟨.create, BitVec.ofNat 64 oid, 0, 0, 0⟩

def deleteObject (oid : Nat) : Act := .request ⟨.delete, BitVec.ofNat 64 oid, 0, 0, 0⟩

/-- A write of the first block of an object. -/
def writeBlock (oid : Nat) : Act := .request ⟨.write, BitVec.ofNat 64 oid, 0, 4096, 0⟩

/-- A create that has been committed, and then a write of the object. -/
def earlyWrite : List Act :=
  [createObject 1, .resume, .resume, writeBlock 1, .bioDone 0 true, .resume]

theorem earlyWrite_onode : ∃ w, w.applied = [0, 1] ∧
    w.zs.onode 1 = lastOnode (smallWorld.zs.onode 1) 1 w := by
  have hrun : (runActs (Store.step smallEnv) (WritesAlone 1) earlyWrite smallWorld).map
      World.applied = some [0, 1] := by decide +kernel
  obtain ⟨w, hw, happ⟩ := Option.map_eq_some_iff.mp hrun
  exact ⟨w, happ, (onode_eq_lastOnode smallEnv smallWorld w 1 (by decide) smallWorld_mounted
    (run_of_runActs .start hw)).1⟩

/-- Object 2 is deleted and written while the data of object 1 is on its way to the device; the
commit of the write comes behind the one of the delete. -/
def lateWrite : List Act :=
  [createObject 1, .resume, .resume, createObject 2, .resume, .resume, writeBlock 1,
    deleteObject 2, writeBlock 2, .bioDone 1 true, .bioDone 0 true, .resume, .resume, .resume,
    .resume]

/-- The write brings the deleted object back. -/
theorem lateWrite_onode : ∃ w, Run (Store.step smallEnv) (fun _ _ => True) smallWorld w ∧
    w.applied = [0, 1, 2, 3, 4] ∧ lastOnode (smallWorld.zs.onode 2) 2 w = 0 ∧
    (w.zs.onode 2).valid = true ∧ (onodeLine w.zs.pm 2).valid = true := by
  have hrun : (runActs (Store.step smallEnv) (fun _ _ => True) lateWrite smallWorld).map
      (fun w => decide (w.applied = [0, 1, 2, 3, 4] ∧
        lastOnode (smallWorld.zs.onode 2) 2 w = 0 ∧
        (w.zs.onode 2).valid = true ∧ (onodeLine w.zs.pm 2).valid = true)) = some true := by
    decide +kernel
  obtain ⟨w, hw, hval⟩ := Option.map_eq_some_iff.mp hrun
  exact ⟨w, run_of_runActs .start hw, of_decide_eq_true hval⟩

end Last

section Alternate
variable {env : Env} {w w' : World} {a : Act} {oid : Nat}

/-- `n` entries that alternate, the first one true. -/
def alternating (n : Nat) : List Bool := (List.range n).map fun i => i % 2 == 0

theorem alternating_succ (n : Nat) : alternating (n + 1) = alternating n ++ [n % 2 == 0] := by
  simp [alternating, List.range_succ]

theorem otableEntry_valid (oid idx : Nat) : (otableEntry oid idx).valid = true := by
  have hodd : (1 + 2 ^ 16 * (oid % 2 ^ 48) + 2 ^ 96 * (idx % 2 ^ 32)) % 2 = 1 := by omega
  simp only [otableEntry, OtableEntry.valid, BitVec.getLsbD_ofNat, Nat.testBit_zero, hodd]
  rfl

theorem zero_valid : OtableEntry.valid 0 = false := by
  simp [OtableEntry.valid]

theorem loggedOnode_valid {zs : ZstoreContext} {r : Request} (h : CreDelOf r oid) :
    (loggedOnode zs r).valid = decide (r.op = .create) := by
  obtain ⟨_, hop | hop⟩ := h
  · simp [loggedOnode, hop, otableEntry_valid]
  · simp only [loggedOnode, hop, zero_valid]
    rfl

/-- The creates and deletes of the object that are queued. -/
def pending (oid : Nat) (w : World) : List Nat :=
  w.zs.txList.filter fun t => decide (CreDelOf (w.tx t).request oid)

/-- The accepted creates and deletes alternate; at most one of them is queued, the last one, and
the last one that is not has determined whether the onode is valid. -/
structure AlternateInv (oid : Nat) (w : World) : Prop where
  wf : WF w
  logged : Logged w
  snapshots : Snapshots oid w
  alternate : creDels oid w = alternating (creDels oid w).length
  last : (pending oid w = [] ∧
      (w.zs.onode oid).valid = ((creDels oid w).length % 2 == 1)) ∨
    ∃ t, pending oid w = [t] ∧
      decide ((w.tx t).request.op = .create) = ((creDels oid w).length % 2 == 1) ∧
      (w.zs.onode oid).valid = ((creDels oid w).length % 2 == 0)

theorem pending_keep (hkeep : ∀ t ∈ w.zs.txList, (w'.tx t).request = (w.tx t).request ∧
    w'.before t = w.before t) (hlist : w'.zs.txList = w.zs.txList) :
    pending oid w' = pending oid w := by
  rw [pending, pending, hlist]
  apply List.filter_congr
  intro t ht
  rw [(hkeep t ht).1]

theorem creDels_keep (hl : Logged w) (hkeep : ∀ t < w.zs.tidMax, (w'.tx t).request =
    (w.tx t).request) {l : List Nat} (hacc : w'.accepted = w.accepted ++ l) :
    creDels oid w' = creDels oid w ++ (l.filter fun t =>
      decide (CreDelOf (w'.tx t).request oid)).map fun t => decide ((w'.tx t).request.op = .create) := by
  rw [creDels, hacc, List.filter_append, List.map_append]
  congr 1
  have hfilter : w.accepted.filter (fun t => decide (CreDelOf (w'.tx t).request oid)) =
      w.accepted.filter (fun t => decide (CreDelOf (w.tx t).request oid)) := by
    apply List.filter_congr
    intro t ht
    rw [hkeep t (hl.1 t ht)]
  rw [hfilter, creDels]
  apply List.map_congr_left
  intro t ht
  rw [hkeep t (hl.1 t (List.mem_of_mem_filter ht))]

theorem AlternateInv.keep (hi : AlternateInv oid w) (hstep : step env a w = some w')
    (hs : Snapshots oid w') (hmem : w'.zs.onode oid = w.zs.onode oid)
    (hlist : w'.zs.txList = w.zs.txList) (hacc : creDels oid w' = creDels oid w) :
    AlternateInv oid w' := by
  have hkeep := hi.wf.keeps hstep
  refine ⟨step_wf hi.wf hstep, step_logged hi.wf hi.logged hstep, hs, ?_, ?_⟩
  · rw [hacc]
    exact hi.alternate
  · rw [hacc, hmem, pending_keep hkeep hlist]
    obtain h | ⟨t, ht, hkind, hval⟩ := hi.last
    · exact Or.inl h
    · refine Or.inr ⟨t, ht, ?_, hval⟩
      have hin : t ∈ w.zs.txList := List.mem_of_mem_filter (ht ▸ List.mem_singleton_self t)
      rw [(hkeep t hin).1]
      exact hkind

/-- An accepted create or delete is of the kind that is due. -/
theorem AlternateInv.accept {r : Request} {zs : ZstoreContext} {tx : ZstoreTransaction}
    (hi : AlternateInv oid w) (ho : oid < 2 ^ 20) (hstep : step env a w = some w')
    (ha : Accepts r w w' zs tx) (hwr : WriteOf r oid → Fails w.zs r ∨ NoCreDel oid w)
    (hok : CreDelOf r oid → (r.op = .create ∧ ¬ HasRoom w.zs.pmAllocator 1) ∨
      ∀ t ∈ w.zs.txList, CreDelOf (w.tx t).request oid → (w.tx t).request.op ≠ r.op) :
    AlternateInv oid w' := by
  have hw := hi.wf
  obtain ⟨hs, hmem⟩ := hi.snapshots.accept hw ho hstep ha hwr
  have hkeep := hw.keeps hstep
  have hreqs : ∀ t < w.zs.tidMax, (w'.tx t).request = (w.tx t).request :=
    fun t ht => ((step_keeps hw hstep).2 t ht).1.1
  have hacc := @creDels_keep w w' oid hi.logged hreqs _ ha.accepted
  have hnew : (w'.tx w.zs.tidMax).request = r := ha.request_self
  simp only [List.filter_cons, List.filter_nil, hnew] at hacc
  obtain ⟨hop, hr, n, l, hzs⟩ | ⟨hkind, n, hzs⟩ := ha.kind
  · have hno : ¬ CreDelOf r oid := by simp [CreDelOf, hop]
    rw [hr.store] at hzs
    refine hi.keep hstep hs hmem (by rw [hzs]) ?_
    simpa [hno] using hacc
  · have hlist : w'.zs.txList = w.zs.txList ++ [w.zs.tidMax] := by
      rw [hzs, (hkind.formatted hw.formatted).2.2.2.2.1]
    have hpend : pending oid w' = pending oid w ++ if CreDelOf r oid then [w.zs.tidMax] else [] := by
      have hold : w.zs.txList.filter (fun t => decide (CreDelOf (w'.tx t).request oid)) =
          pending oid w := by
        apply List.filter_congr
        intro t ht
        rw [(hkeep t ht).1]
      rw [pending, hlist, List.filter_append, hold, List.filter_cons, hnew, List.filter_nil]
      simp only [decide_eq_true_eq]
    by_cases hcd : CreDelOf r oid
    · have hinv : decide (r.op = .create) = !(w.zs.onode oid).valid := by
        rw [← hcd.1]
        cases hkind with
        | write hop _ => simp [CreDelOf, hop] at hcd
        | create hop h => simp [hop, h.invalid]
        | delete hop h => simp [hop, h.valid]
      have hnone : pending oid w = [] := by
        obtain h | ⟨t, ht, hk, hval⟩ := hi.last
        · exact h.1
        · -- the queued one would be of the same kind
          have hin : t ∈ pending oid w := ht ▸ List.mem_singleton_self t
          obtain ⟨hlist, hcdt⟩ := List.mem_filter.mp hin
          have hcdt := of_decide_eq_true hcdt
          have hsame : decide ((w.tx t).request.op = .create) = decide (r.op = .create) := by
            rw [hinv, hval, hk]
            obtain h | h := Nat.mod_two_eq_zero_or_one (creDels oid w).length <;> simp [h]
          have hop : (w.tx t).request.op = r.op := by
            rw [decide_eq_decide] at hsame
            obtain h1 | h1 := hcdt.2
            · rw [h1, hsame.mp h1]
            · obtain h2 | h2 := hcd.2
              · rw [hsame.mpr h2, h2]
              · rw [h1, h2]
          obtain ⟨hcre, hfull⟩ | hok := hok hcd
          · cases hkind with
            | create _ h => exact absurd h.room hfull
            | write hop _ => simp [hop] at hcre
            | delete hop _ => simp [hop] at hcre
          · exact absurd hop (hok t hlist hcdt)
      have hcur : (w.zs.onode oid).valid = ((creDels oid w).length % 2 == 1) := by
        obtain h | ⟨t, ht, _⟩ := hi.last
        · exact h.2
        · rw [hnone] at ht
          simp at ht
      -- the accepted kind is the one that the onode asks for
      have hdue : decide (r.op = .create) = ((creDels oid w).length % 2 == 0) := by
        rw [hinv, hcur]
        obtain h | h := Nat.mod_two_eq_zero_or_one (creDels oid w).length <;> simp [h]
      simp only [hcd, decide_true, if_true, List.map_cons, List.map_nil, hnew] at hacc
      have hlen : (creDels oid w').length = (creDels oid w).length + 1 := by
        rw [hacc, List.length_append]
        rfl
      refine ⟨step_wf hw hstep, step_logged hw hi.logged hstep, hs, ?_,
        Or.inr ⟨w.zs.tidMax, ?_, ?_, ?_⟩⟩
      · rw [hlen, alternating_succ, ← hi.alternate, hacc, hdue]
      · rw [hpend, hnone, if_pos hcd]
        rfl
      · rw [hnew, hdue, hlen, Bool.eq_iff_iff, beq_iff_eq, beq_iff_eq]
        omega
      · rw [hmem, hcur, hlen, Bool.eq_iff_iff, beq_iff_eq, beq_iff_eq]
        omega
    · simp only [hcd, decide_false, Bool.false_eq_true, if_false, List.map_nil,
        List.append_nil] at hacc
      rw [if_neg hcd, List.append_nil] at hpend
      refine ⟨step_wf hw hstep, step_logged hw hi.logged hstep, hs, by rw [hacc]; exact hi.alternate,
        ?_⟩
      rw [hpend, hacc, hmem]
      obtain h | ⟨t, ht, hk, hval⟩ := hi.last
      · exact Or.inl h
      · refine Or.inr ⟨t, ht, ?_, hval⟩
        have hin : t ∈ w.zs.txList := List.mem_of_mem_filter (ht ▸ List.mem_singleton_self t)
        rw [(hkeep t hin).1]
        exact hk

theorem AlternateInv.commit {tid : Nat} {t : PmemTransaction} (hi : AlternateInv oid w)
    (ho : oid < 2 ^ 20) (hstep : step env a w = some w') (hc : Commits w w' tid t) :
    AlternateInv oid w' := by
  have hw := hi.wf
  obtain ⟨hs, hval⟩ := hi.snapshots.commit hw ho hc
  have hreq : ∀ i, (w'.tx i).request = (w.tx i).request := fun i => (hc.heap i).1
  have hacc : creDels oid w' = creDels oid w := by
    have h := @creDels_keep w w' oid hi.logged (fun t _ => hreq t) [] (by simp [hc.accepted])
    simpa using h
  have hpend : pending oid w =
      if CreDelOf (w.tx tid).request oid then tid :: pending oid w' else pending oid w' := by
    simp only [pending, hc.head, List.filter_cons, hreq, decide_eq_true_eq]
  refine ⟨step_wf hw hstep, step_logged hw hi.logged hstep, hs, by rw [hacc]; exact hi.alternate, ?_⟩
  rw [hacc, hval]
  by_cases hcd : CreDelOf (w.tx tid).request oid
  · rw [if_pos hcd] at hpend
    rw [if_pos hcd, loggedOnode_valid hcd]
    obtain ⟨hnil, _⟩ | ⟨t, ht, hk, _⟩ := hi.last
    · rw [hnil] at hpend
      simp at hpend
    · rw [ht] at hpend
      simp only [List.cons.injEq] at hpend
      obtain ⟨rfl, hnil⟩ := hpend
      exact Or.inl ⟨hnil.symm, hk⟩
  · rw [if_neg hcd] at hpend
    rw [if_neg hcd, ← hpend]
    obtain h | ⟨t, ht, hk, hv⟩ := hi.last
    · exact Or.inl h
    · exact Or.inr ⟨t, ht, by rw [hreq]; exact hk, hv⟩

theorem AlternateInv.step (ho : oid < 2 ^ 20) (hi : AlternateInv oid w)
    (hok : ChangesAlone oid w a) (hstep : step env a w = some w') : AlternateInv oid w' := by
  have hw := hi.wf
  have hreqs : ∀ t < w.zs.tidMax, (w'.tx t).request = (w.tx t).request :=
    fun t ht => ((step_keeps hw hstep).2 t ht).1.1
  have hsame : w'.accepted = w.accepted → creDels oid w' = creDels oid w := by
    intro h
    have hk := @creDels_keep w w' oid hi.logged hreqs [] (by simp [h])
    simpa using hk
  obtain hq | ⟨r, hr, ⟨rc, tx, hrej⟩ | ⟨zs, tx, ha⟩⟩ | ⟨tid, t, hc⟩ := step_cases hw hstep
  · obtain ⟨hs, hmem⟩ := hi.snapshots.quiet hw hstep hq
    exact hi.keep hstep hs hmem hq.zs.txList (hsame hq.accepted)
  · obtain ⟨hs, hmem⟩ := hi.snapshots.reject hw hstep hrej
    have hfr := (prepare_rejected hw.formatted.shift hrej.rc_ne hrej.prepare).frame
    exact hi.keep hstep hs hmem (by rw [hfr]) (hsame hrej.accepted)
  · exact hi.accept ho hstep ha (hok.1 r hr) (hok.2 r hr)
  · exact hi.commit ho hstep hc

/-- From a store without the object, its accepted creates and deletes alternate, a create
first, when no create is accepted while a create is queued, no delete while a delete is, and no
write while either is. -/
theorem creDels_alternating (env : Env) (w0 w : World) (oid : Nat) (ho : oid < 2 ^ 20)
    (hm : Mounted w0) (hno : (w0.zs.onode oid).valid = false)
    (hrun : Run (Store.step env) (ChangesAlone oid) w0 w) :
    creDels oid w = alternating (creDels oid w).length := by
  have hnil : creDels oid w0 = [] := by simp [creDels, World.accepted, hm.log]
  have h0 : AlternateInv oid w0 := by
    refine ⟨hm.wf, hm.logged, hm.snapshots ho, by rw [hnil]; rfl, Or.inl ⟨?_, ?_⟩⟩
    · simp [pending, hm.txList]
    · rw [hno, hnil]
      rfl
  have hi : AlternateInv oid w := hrun.invariant h0 fun _ _ _ hi hok hstep => hi.step ho hok hstep
  exact hi.alternate

/-- A create, and a delete once it has been committed. -/
theorem createDelete_alternating :
    ∃ w, w.accepted = [0, 1] ∧ creDels 1 w = alternating (creDels 1 w).length := by
  have hrun : (runActs (Store.step smallEnv) (ChangesAlone 1)
      [createObject 1, .resume, .resume, deleteObject 1] smallWorld).map
      World.accepted = some [0, 1] := by decide +kernel
  obtain ⟨w, hw, hacc⟩ := Option.map_eq_some_iff.mp hrun
  exact ⟨w, hacc, creDels_alternating smallEnv smallWorld w 1 (by decide) smallWorld_mounted
    (by decide +kernel) (run_of_runActs .start hw)⟩

/-- While the data of object 1 is on its way to the device, object 2 is created twice. -/
theorem twoCreates_accepted : ∃ w, Run (Store.step smallEnv) (fun _ _ => True) smallWorld w ∧
    (smallWorld.zs.onode 2).valid = false ∧ creDels 2 w = [true, true] := by
  have hrun : (runActs (Store.step smallEnv) (fun _ _ => True)
      [createObject 1, .resume, .resume, writeBlock 1, createObject 2, createObject 2]
      smallWorld).map (creDels 2) = some [true, true] := by decide +kernel
  obtain ⟨w, hw, hcre⟩ := Option.map_eq_some_iff.mp hrun
  exact ⟨w, run_of_runActs .start hw, by decide +kernel, hcre⟩

end Alternate
end ZCell.Store
