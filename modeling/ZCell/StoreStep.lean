import ZCell.Layout
import ZCell.StoreRun

/-! What one step of the store can do: it answers a call with an error, accepts one, commits the
transaction at the head of the queue, or leaves all of the metadata alone. -/
namespace ZCell.Store
open Bytes Persist Pm Allocator

/-- The call of the store that a step makes, if any. -/
def callOf (w : World) : Act → Option Request
  | .request r => some r
  | .resume =>
    match w.stack with
    | .userCb (r::_) :: _ => some r
    | _ => none
  | _ => none

def Obs.acceptedTid : Obs → Option Nat
  | .accept tid => some tid
  | _ => none

def Obs.appliedTid : Obs → Option Nat
  | .apply tid => some tid
  | _ => none

/-- The transactions accepted so far, and those committed, in order of time. -/
def World.accepted (w : World) : List Nat := w.log.filterMap Obs.acceptedTid

def World.applied (w : World) : List Nat := w.log.filterMap Obs.appliedTid

/-- The parts of a transaction that are fixed when it is accepted. -/
def SameTx (a b : ZstoreTransaction) : Prop :=
  b.request = a.request ∧ b.pmTx = a.pmTx ∧ b.txType = a.txType ∧ b.sync = a.sync

/-- An accepted create, delete or write. -/
inductive Accepted (zs : ZstoreContext) (r : Request) (zs' : ZstoreContext)
    (tx : ZstoreTransaction) : Prop
  | write (hop : r.op = .write) (h : Written zs r zs' tx)
  | create (hop : r.op = .create) (h : Created zs r zs' tx)
  | delete (hop : r.op = .delete) (h : Deleted zs r zs' tx)

/-- The queue, the metadata and the allocators of two stores are the same. -/
structure SameMeta (zs zs' : ZstoreContext) : Prop where
  mntFlag : zs'.mntFlag = zs.mntFlag
  zsb : zs'.zsb = zs.zsb
  pmem : zs'.pmem = zs.pmem
  pm : zs'.pm = zs.pm
  mem : zs'.mem = zs.mem
  otable : zs'.otable = zs.otable
  ssdAllocator : zs'.ssdAllocator = zs.ssdAllocator
  pmAllocator : zs'.pmAllocator = zs.pmAllocator
  tidMax : zs'.tidMax = zs.tidMax
  txList : zs'.txList = zs.txList

structure Quiet (w w' : World) : Prop where
  zs : SameMeta w.zs w'.zs
  heap : ∀ tid, SameTx (w.tx tid) (w'.tx tid)
  before : w'.before = w.before
  after : w'.after = w.after
  flight : ∀ f ∈ w'.flight, f ∈ w.flight
  accepted : w'.accepted = w.accepted
  applied : w'.applied = w.applied

structure Rejects (env : Env) (r : Request) (w w' : World) (rc : Int)
    (tx : ZstoreTransaction) : Prop where
  rc_ne : rc ≠ 0
  prepare : zstoreTxPrepare (env.uninit w.zs.tidMax) w.zs r (w.tx w.zs.tidMax) =
    .ok (rc, w'.zs, tx)
  heap : w'.tx = Function.update w.tx w.zs.tidMax tx
  before : w'.before = w.before
  after : w'.after = w.after
  flight : w'.flight = w.flight
  accepted : w'.accepted = w.accepted
  applied : w'.applied = w.applied

structure Accepts (r : Request) (w w' : World) (zs : ZstoreContext)
    (tx : ZstoreTransaction) : Prop where
  kind : (r.op = .read ∧ ReadOk w.zs r zs tx ∧ ∃ n l, w'.zs =
      { zs with txRdonlyOutstanding := n, txRdonlyList := l }) ∨
    (Accepted w.zs r zs tx ∧ ∃ n, w'.zs =
      { zs with txOutstanding := n, txList := zs.txList ++ [w.zs.tidMax] })
  heap : w'.tx = Function.update w.tx w.zs.tidMax tx
  before : w'.before = Function.update w.before w.zs.tidMax w.zs
  after : w'.after = Function.update w.after w.zs.tidMax zs
  flight : ∀ f ∈ w'.flight, f ∈ w.flight ∨ f.tid = w.zs.tidMax ∧ f.bio ∈ tx.bios
  accepted : w'.accepted = w.accepted ++ [w.zs.tidMax]
  applied : w'.applied = w.applied

structure Commits (w w' : World) (tid : Nat) (t : PmemTransaction) : Prop where
  head : w.zs.txList = tid :: w'.zs.txList
  state : (w.tx tid).state = .pmTx
  pmTx : (w.tx tid).pmTx = some t
  zs : ∃ n, w'.zs = { w.zs with
    pm := finish w.zs.pm (applyOps w.zs.pmem t)
    mem := applyMem t.entries w.zs.mem
    txOutstanding := n
    txList := w'.zs.txList }
  heap : ∀ tid, SameTx (w.tx tid) (w'.tx tid)
  before : w'.before = w.before
  after : w'.after = w.after
  flight : w'.flight = w.flight
  accepted : w'.accepted = w.accepted
  applied : w'.applied = w.applied ++ [tid]

/-- A queued transaction is the one its request was accepted with. -/
structure Queued (w : World) (tid : Nat) : Prop where
  tid_lt : tid < w.zs.tidMax
  formatted : Formatted (w.before tid)
  zsb : (w.before tid).zsb = w.zs.zsb
  otable : (w.before tid).otable = w.zs.otable
  txType : (w.tx tid).txType = .write
  accepted : ∃ tx, Accepted (w.before tid) (w.tx tid).request (w.after tid) tx ∧
    (w.tx tid).pmTx = tx.pmTx

structure WF (w : World) : Prop where
  formatted : Formatted w.zs
  queued : ∀ tid ∈ w.zs.txList, Queued w tid

theorem SameTx.refl (a : ZstoreTransaction) : SameTx a a := ⟨rfl, rfl, rfl, rfl⟩

theorem SameMeta.refl (zs : ZstoreContext) : SameMeta zs zs :=
  ⟨rfl, rfl, rfl, rfl, rfl, rfl, rfl, rfl, rfl, rfl⟩

section Inversion
variable {env : Env} {r : Request} {w w' : World} {rc : Int} {tid : Nat}

theorem sameTx_update (f : Nat → ZstoreTransaction) (tid : Nat) {tx : ZstoreTransaction}
    (h : SameTx (f tid) tx) (t : Nat) : SameTx (f t) (Function.update f tid tx t) := by
  by_cases ht : t = tid
  · subst ht
    rwa [Function.update_self]
  · rw [Function.update_of_ne ht]
    exact SameTx.refl _

theorem accepted_note (w : World) (o : Obs) :
    (w.note o).accepted = w.accepted ++ o.acceptedTid.toList := by
  cases o <;> simp [World.accepted, World.note, Obs.acceptedTid]

theorem applied_note (w : World) (o : Obs) :
    (w.note o).applied = w.applied ++ o.appliedTid.toList := by
  cases o <;> simp [World.applied, World.note, Obs.appliedTid]

theorem accepted_silent (w : World) {o : Obs} (h : o.acceptedTid = none) :
    (w.note o).accepted = w.accepted := by
  rw [accepted_note, h]
  exact List.append_nil _

theorem applied_silent (w : World) {o : Obs} (h : o.appliedTid = none) :
    (w.note o).applied = w.applied := by
  rw [applied_note, h]
  exact List.append_nil _

theorem mem_submitBios {submit : Nat → Bool} {i : Nat} {buf : BitVec 64} {bs : List Bio}
    {f : Flight} (h : f ∈ submitBios submit tid i buf bs) : f.tid = tid ∧ f.bio ∈ bs := by
  induction bs generalizing i buf with
  | nil => simp [submitBios] at h
  | cons b bs ih =>
    unfold submitBios at h
    split at h
    · obtain rfl | h := List.mem_cons.mp h
      · exact ⟨rfl, List.mem_cons_self ..⟩
      · obtain ⟨h1, h2⟩ := ih h
        exact ⟨h1, List.mem_cons_of_mem b h2⟩
    · simp at h

/-- Accepted requests of a formatted store. -/
theorem prepare_accepted (hf : Formatted w.zs) {g : Uninit} {zs : ZstoreContext}
    {tx0 tx : ZstoreTransaction} (h : zstoreTxPrepare g w.zs r tx0 = .ok (0, zs, tx)) :
    (r.op = .read ∧ ReadOk w.zs r zs tx) ∨ Accepted w.zs r zs tx := by
  cases hop : r.op with
  | create =>
    obtain ⟨h0, _⟩ | ⟨_, h1⟩ := prepare_create hop h
    · exact absurd rfl h0
    · exact Or.inr (.create hop h1)
  | delete =>
    obtain ⟨h0, _⟩ | ⟨_, h1⟩ := prepare_delete hop h
    · exact absurd rfl h0
    · exact Or.inr (.delete hop h1)
  | read =>
    obtain ⟨h0, _⟩ | ⟨_, h1⟩ := prepare_read hf.shift hop h
    · exact absurd rfl h0
    · exact Or.inl ⟨rfl, h1⟩
  | write =>
    obtain ⟨h0, _⟩ | ⟨h0, _⟩ | ⟨_, h1⟩ := prepare_write hf.shift hop h
    · exact absurd rfl h0
    · exact absurd rfl h0
    · exact Or.inr (.write hop h1)
  | other => exact absurd rfl (prepare_other hop h).1

theorem Accepted.txType {zs zs' : ZstoreContext} {tx : ZstoreTransaction}
    (h : Accepted zs r zs' tx) : tx.txType = .write := by
  cases h with
  | write _ h => exact h.txType
  | create _ h => exact h.tx.txType
  | delete _ h => exact h.tx.txType

theorem Accepted.request {zs zs' : ZstoreContext} {tx : ZstoreTransaction}
    (h : Accepted zs r zs' tx) : tx.request = r ∧ r.op ≠ .read := by
  cases h with
  | write hop h => exact ⟨h.request, by simp [hop]⟩
  | create hop h => exact ⟨h.tx.request, by simp [hop]⟩
  | delete hop h => exact ⟨h.tx.request, by simp [hop]⟩

theorem setTx_self {tx : ZstoreTransaction} (h : tx = w.tx tid) : w.setTx tid tx = w := by
  rw [World.setTx, h, Function.update_eq_self]

/-- A transaction that is in its last state already only waits for the loop. -/
theorem metadata_pmTx {w2 : World} (hst : (w.tx tid).state = .pmTx)
    (htype : (w.tx tid).txType = .write) (h : zstoreTxMetadata env tid w = .ok w2) :
    w2 = if w.zs.txList.head? = some tid then w.push .drain else w := by
  have hself : { w.tx tid with state := TxState.pmTx } = w.tx tid := by rw [← hst]
  have htype' : (w.tx tid).txType ≠ .rdonly := by
    rw [htype]
    decide
  simp only [zstoreTxMetadata, if_neg htype', hself, setTx_self rfl] at h
  split at h
  · cases h
  · exact (Except.ok.inj h).symm

/-- What is left to do for an accepted request is to submit its bios, or to start the loop. -/
theorem execute_cases {w2 : World} (hst : (w.tx tid).state = .dataIo ∨
      ((w.tx tid).state = .pmTx ∧ (w.tx tid).txType = .write))
    (h : zstoreTxExecute env tid w = .ok w2) :
    w2.zs = w.zs ∧ w2.tx = w.tx ∧ w2.before = w.before ∧ w2.after = w.after ∧
    (∀ f ∈ w2.flight, f ∈ w.flight ∨ f.tid = tid ∧ f.bio ∈ (w.tx tid).bios) ∧
    w2.accepted = w.accepted ∧ w2.applied = w.applied := by
  obtain hst | ⟨hst, htype⟩ := hst
  · simp only [zstoreTxExecute, hst, Except.ok.injEq] at h
    subst h
    refine ⟨rfl, rfl, rfl, rfl, fun f hf => ?_, ?_, ?_⟩
    · obtain hf | hf := List.mem_append.mp hf
      · exact Or.inl hf
      · exact Or.inr (mem_submitBios hf)
    · simp [World.accepted, zstoreTxDataBio, List.filterMap_map, Function.comp_def, Obs.acceptedTid]
    · simp [World.applied, zstoreTxDataBio, List.filterMap_map, Function.comp_def, Obs.appliedTid]
  · simp only [zstoreTxExecute, hst] at h
    rw [metadata_pmTx hst htype h]
    split
    · exact ⟨rfl, rfl, rfl, rfl, fun f hf => Or.inl hf, rfl, rfl⟩
    · exact ⟨rfl, rfl, rfl, rfl, fun f hf => Or.inl hf, rfl, rfl⟩

theorem Accepted.execute {zs zs' : ZstoreContext} {tx : ZstoreTransaction}
    (h : Accepted zs r zs' tx) : tx.state = .dataIo ∨ tx.state = .pmTx ∧ tx.txType = .write := by
  cases h with
  | write _ h => exact Or.inl h.state
  | create _ h => exact Or.inr ⟨h.tx.state, h.tx.txType⟩
  | delete _ h => exact Or.inr ⟨h.tx.state, h.tx.txType⟩

theorem accepts_of_execute {w1 w2 : World} {zs : ZstoreContext} {tx : ZstoreTransaction}
    (hkind : (r.op = .read ∧ ReadOk w.zs r zs tx) ∨ Accepted w.zs r zs tx)
    (hw1 : w1 = { { w with zs := zs }.setTx w.zs.tidMax tx with
      before := Function.update w.before w.zs.tidMax w.zs
      after := Function.update w.after w.zs.tidMax zs })
    (h : zstoreTxExecute env w.zs.tidMax (zstoreTxEnqueue w.zs.tidMax w1) = .ok w2) :
    Accepts r w w2 zs tx := by
  have htx : (zstoreTxEnqueue w.zs.tidMax w1).tx = Function.update w.tx w.zs.tidMax tx := by
    rw [hw1]
    rfl
  have hself : (zstoreTxEnqueue w.zs.tidMax w1).tx w.zs.tidMax = tx := by
    rw [htx, Function.update_self]
  have hst : tx.state = .dataIo ∨ tx.state = .pmTx ∧ tx.txType = .write := by
    obtain ⟨_, hr⟩ | ha := hkind
    · exact Or.inl hr.state
    · exact ha.execute
  obtain ⟨h1, h2, h3, h4, h5, h6, h7⟩ := execute_cases (by rwa [hself]) h
  refine ⟨?_, h2.trans htx, h3.trans (by rw [hw1]; rfl), h4.trans (by rw [hw1]; rfl), ?_, ?_, ?_⟩
  · have hself1 : (w1.tx w.zs.tidMax).txType = tx.txType := by
      rw [hw1]
      simp [World.setTx]
    have hzs1 : w1.zs = zs := by
      rw [hw1]
      rfl
    obtain ⟨hop, hr⟩ | ha := hkind
    · refine Or.inl ⟨hop, hr, zs.txRdonlyOutstanding + 1, zs.txRdonlyList ++ [w.zs.tidMax],
        h1.trans ?_⟩
      simp only [zstoreTxEnqueue, hself1, hr.txType, if_true, hzs1]
      rfl
    · refine Or.inr ⟨ha, zs.txOutstanding + 1, h1.trans ?_⟩
      simp only [zstoreTxEnqueue, hself1, ha.txType, reduceCtorEq, if_false, hzs1]
      rfl
  · intro f hf
    have hf' := h5 f hf
    rw [hself] at hf'
    rw [hw1] at hf'
    exact hf'
  · rw [h6, zstoreTxEnqueue, accepted_note, hw1]
    rfl
  · rw [h7, zstoreTxEnqueue, applied_note, hw1]
    simp [Obs.appliedTid, World.applied, World.setTx]

theorem Accepts.tx_self {zs : ZstoreContext} {tx : ZstoreTransaction} (h : Accepts r w w' zs tx) :
    w'.tx w.zs.tidMax = tx := by rw [h.heap, Function.update_self]

theorem Accepts.before_self {zs : ZstoreContext} {tx : ZstoreTransaction} (h : Accepts r w w' zs tx) :
    w'.before w.zs.tidMax = w.zs := by rw [h.before, Function.update_self]

theorem Accepts.request {zs : ZstoreContext} {tx : ZstoreTransaction} (h : Accepts r w w' zs tx) :
    tx.request = r := by
  obtain ⟨_, hr, _⟩ | ⟨hacc, _⟩ := h.kind
  · exact hr.request
  · exact hacc.request.1

theorem Accepts.request_self {zs : ZstoreContext} {tx : ZstoreTransaction} (h : Accepts r w w' zs tx) :
    (w'.tx w.zs.tidMax).request = r := by rw [h.tx_self, h.request]

/-- The transactions before it stay as they were. -/
theorem Accepts.older {zs : ZstoreContext} {tx : ZstoreTransaction} {t : Nat}
    (h : Accepts r w w' zs tx) (ht : t < w.zs.tidMax) :
    w'.tx t = w.tx t ∧ w'.before t = w.before t ∧ w'.after t = w.after t := by
  have hne : t ≠ w.zs.tidMax := Nat.ne_of_lt ht
  rw [h.heap, h.before, h.after]
  exact ⟨Function.update_of_ne hne .., Function.update_of_ne hne .., Function.update_of_ne hne ..⟩

/-- An accepted call prepares a transaction and starts it. -/
theorem accepted_call (hf : Formatted w.zs) (h : zstoreObjAsyncOpCall env r w = .ok (0, w')) :
    ∃ zs tx, zstoreTxPrepare (env.uninit w.zs.tidMax) w.zs r (w.tx w.zs.tidMax) = .ok (0, zs, tx) ∧
      Accepts r w w' zs tx := by
  simp only [zstoreObjAsyncOpCall] at h
  split at h
  · cases h
  · rename_i rc0 zs tx hp
    split at h
    · rename_i hne
      simp only [Except.ok.injEq, Prod.mk.injEq] at h
      exact absurd h.1 hne
    · rename_i hz
      obtain rfl := not_not.mp hz
      split at h
      · cases h
      · rename_i w2 hex
        simp only [Except.ok.injEq, Prod.mk.injEq, true_and] at h
        subst h
        exact ⟨zs, tx, hp, accepts_of_execute (prepare_accepted hf hp) rfl hex⟩

theorem call_cases (hf : Formatted w.zs) (h : zstoreObjAsyncOpCall env r w = .ok (rc, w')) :
    (∃ tx, Rejects env r w w' rc tx) ∨ (∃ zs tx, Accepts r w w' zs tx) := by
  by_cases hrc : rc ≠ 0
  · left
    simp only [zstoreObjAsyncOpCall] at h
    split at h
    · cases h
    · rename_i rc0 zs tx hp
      split at h
      · simp only [Except.ok.injEq, Prod.mk.injEq] at h
        obtain ⟨rfl, rfl⟩ := h
        refine ⟨tx, hrc, hp, rfl, rfl, rfl, rfl, ?_, ?_⟩
        · rw [accepted_note]
          simp [Obs.acceptedTid, World.accepted, World.setTx]
        · rw [applied_note]
          simp [Obs.appliedTid, World.applied, World.setTx]
      · split at h
        · cases h
        · simp only [Except.ok.injEq, Prod.mk.injEq] at h
          exact absurd h.1.symm hrc
  · right
    obtain rfl := not_not.mp hrc
    obtain ⟨zs, tx, _, ha⟩ := accepted_call hf h
    exact ⟨zs, tx, ha⟩

theorem toOption_eq_some {α : Type} {x : Except Fault α} {a : α} (h : x.toOption = some a) :
    x = .ok a := by
  cases x with
  | error f => cases h
  | ok b => exact congrArg Except.ok (Option.some.inj h)

theorem end_rdonly_quiet (h : (w.tx tid).txType = .rdonly) : Quiet w (zstoreTxEnd env tid w) := by
  unfold zstoreTxEnd
  simp only [h, if_true]
  split
  · exact ⟨⟨rfl, rfl, rfl, rfl, rfl, rfl, rfl, rfl, rfl, rfl⟩, fun _ => SameTx.refl _, rfl, rfl,
      fun _ hf => hf, accepted_silent _ rfl, applied_silent _ rfl⟩
  · exact ⟨⟨rfl, rfl, rfl, rfl, rfl, rfl, rfl, rfl, rfl, rfl⟩, fun _ => SameTx.refl _, rfl, rfl,
      fun _ hf => hf, accepted_silent _ rfl, applied_silent _ rfl⟩

theorem end_write (h : (w.tx tid).txType = .write) :
    (zstoreTxEnd env tid w).zs = { w.zs with
      txOutstanding := w.zs.txOutstanding - 1, txList := w.zs.txList.erase tid } ∧
    (zstoreTxEnd env tid w).tx = w.tx ∧ (zstoreTxEnd env tid w).before = w.before ∧
    (zstoreTxEnd env tid w).after = w.after ∧ (zstoreTxEnd env tid w).flight = w.flight ∧
    (zstoreTxEnd env tid w).accepted = w.accepted ∧
    (zstoreTxEnd env tid w).applied = w.applied := by
  unfold zstoreTxEnd
  simp only [h, reduceCtorEq, if_false]
  split
  · exact ⟨rfl, rfl, rfl, rfl, rfl, accepted_silent _ rfl, applied_silent _ rfl⟩
  · exact ⟨rfl, rfl, rfl, rfl, rfl, accepted_silent _ rfl, applied_silent _ rfl⟩

theorem Quiet.trans {w1 w2 w3 : World} (h : Quiet w1 w2) (h' : Quiet w2 w3) : Quiet w1 w3 where
  zs := ⟨h'.zs.mntFlag.trans h.zs.mntFlag, h'.zs.zsb.trans h.zs.zsb, h'.zs.pmem.trans h.zs.pmem,
    h'.zs.pm.trans h.zs.pm, h'.zs.mem.trans h.zs.mem, h'.zs.otable.trans h.zs.otable,
    h'.zs.ssdAllocator.trans h.zs.ssdAllocator, h'.zs.pmAllocator.trans h.zs.pmAllocator,
    h'.zs.tidMax.trans h.zs.tidMax, h'.zs.txList.trans h.zs.txList⟩
  heap := fun tid => by
    obtain ⟨a1, a2, a3, a4⟩ := h.heap tid
    obtain ⟨b1, b2, b3, b4⟩ := h'.heap tid
    exact ⟨b1.trans a1, b2.trans a2, b3.trans a3, b4.trans a4⟩
  before := h'.before.trans h.before
  after := h'.after.trans h.after
  flight := fun f hf => h.flight f (h'.flight f hf)
  accepted := h'.accepted.trans h.accepted
  applied := h'.applied.trans h.applied

theorem setTx_quiet {tx : ZstoreTransaction} (h : SameTx (w.tx tid) tx) : Quiet w (w.setTx tid tx) :=
  ⟨SameMeta.refl _, sameTx_update w.tx tid h, rfl, rfl, fun _ hf => hf, rfl, rfl⟩

theorem metadata_quiet {w2 : World} (h : zstoreTxMetadata env tid w = .ok w2) : Quiet w w2 := by
  unfold zstoreTxMetadata at h
  split at h
  · cases h
  · split at h
    · rename_i htype
      obtain rfl := Except.ok.inj h
      exact end_rdonly_quiet htype
    · obtain rfl := Except.ok.inj h
      have hq := @setTx_quiet w tid { w.tx tid with state := .pmTx } ⟨rfl, rfl, rfl, rfl⟩
      simp only
      split
      · exact hq.trans ⟨SameMeta.refl _, fun _ => SameTx.refl _, rfl, rfl, fun _ hf => hf, rfl, rfl⟩
      · exact hq

theorem bioCb_quiet {success : Bool} {w2 : World} (h : zstoreBioCb env success tid w = .ok w2) :
    Quiet w w2 := by
  unfold zstoreBioCb at h
  split at h
  · cases h
  · simp only at h
    split at h
    · have hq := @setTx_quiet w tid { w.tx tid with
        bioOutstanding := (w.tx tid).bioOutstanding - 1, state := .pmTx, bios := [] }
        ⟨rfl, rfl, rfl, rfl⟩
      refine hq.trans (@metadata_quiet env _ tid _ ?_)
      rw [← h, zstoreTxExecute]
      simp only [World.setTx, Function.update_self]
    · obtain rfl := Except.ok.inj h
      exact setTx_quiet ⟨rfl, rfl, rfl, rfl⟩

/-- A round of the loop commits the head of the queue, or leaves. -/
theorem drainRound_cases {s : List Frame} {w2 : World} (hw : WF w)
    (h : drainRound env s w = .ok w2) : Quiet w w2 ∨ ∃ tid t, Commits w w2 tid t := by
  have hleave : ∀ s : List Frame, Quiet w { w with stack := s } := fun s =>
    ⟨SameMeta.refl _, fun _ => SameTx.refl _, rfl, rfl, fun _ hf => hf, rfl, rfl⟩
  unfold drainRound at h
  split at h
  · obtain rfl := Except.ok.inj h
    exact Or.inl (hleave s)
  · rename_i tid rest hlist
    split at h
    · obtain rfl := Except.ok.inj h
      exact Or.inl (hleave s)
    · rename_i hst
      split at h
      · cases h
      · rename_i t hpm
        right
        refine ⟨tid, t, ?_⟩
        have hq := hw.queued tid (by rw [hlist]; exact List.mem_cons_self ..)
        have hrest : (tid :: rest).erase tid = rest := List.erase_cons_head ..
        simp only [pmemTransactionApply, if_true, Except.ok.injEq] at h
        generalize hw1 : (World.setTx _ tid _).note (.apply tid) = w1 at h
        have htx : w1.tx = Function.update w.tx tid { w.tx tid with err := Status.success.code } := by
          rw [← hw1]
          rfl
        have hsame : ∀ i, SameTx (w.tx i) (w1.tx i) := by
          rw [htx]
          exact sameTx_update w.tx tid ⟨rfl, rfl, rfl, rfl⟩
        obtain ⟨h1, h2, h3, h4, h5, h6, h7⟩ := @end_write env w1 tid
          ((hsame tid).2.2.1.trans hq.txType)
        have hzs : w1.zs = { w.zs with
            pm := finish w.zs.pm (applyOps w.zs.pmem t), mem := applyMem t.entries w.zs.mem } := by
          rw [← hw1]
          rfl
        rw [h] at h1 h2 h3 h4 h5 h6 h7
        rw [hzs] at h1
        simp only [hlist, hrest] at h1
        refine ⟨by rw [h1, hlist], by simpa using hst, hpm, ⟨w.zs.txOutstanding - 1, ?_⟩,
          ?_, ?_, ?_, ?_, ?_, ?_⟩
        · rw [h1]
        · rw [h2]
          exact hsame
        · rw [h3, ← hw1]
          rfl
        · rw [h4, ← hw1]
          rfl
        · rw [h5, ← hw1]
          rfl
        · rw [h6, ← hw1]
          exact accepted_silent _ rfl
        · rw [h7, ← hw1, applied_note]
          rfl

theorem step_cases {a : Act} (hw : WF w) (h : step env a w = some w') :
    Quiet w w' ∨
    (∃ r, callOf w a = some r ∧
      ((∃ rc tx, Rejects env r w w' rc tx) ∨ ∃ zs tx, Accepts r w w' zs tx)) ∨
    ∃ tid t, Commits w w' tid t := by
  unfold step at h
  split at h
  · have h := toOption_eq_some h
    cases a with
    | request r =>
      simp only [act] at h
      split at h
      · cases h
      · rename_i rc w2 hc
        obtain rfl := Except.ok.inj h
        right
        left
        refine ⟨r, rfl, ?_⟩
        obtain ⟨tx, hr⟩ | ha := call_cases hw.formatted hc
        · exact Or.inl ⟨rc, tx, hr⟩
        · exact Or.inr ha
    | bioDone k success =>
      left
      simp only [act] at h
      split at h
      · obtain rfl := Except.ok.inj h
        exact ⟨SameMeta.refl _, fun _ => SameTx.refl _, rfl, rfl, fun _ hf => hf, rfl, rfl⟩
      · refine Quiet.trans ?_ (bioCb_quiet h)
        exact ⟨SameMeta.refl _, fun _ => SameTx.refl _, rfl, rfl,
          fun _ hf => List.mem_of_mem_eraseIdx hf, accepted_silent _ rfl, applied_silent _ rfl⟩
    | message k =>
      left
      simp only [act] at h
      split at h
      · obtain rfl := Except.ok.inj h
        exact ⟨SameMeta.refl _, fun _ => SameTx.refl _, rfl, rfl, fun _ hf => hf, rfl, rfl⟩
      · obtain rfl := Except.ok.inj h
        exact ⟨SameMeta.refl _, fun _ => SameTx.refl _, rfl, rfl, fun _ hf => hf,
          accepted_silent _ rfl, applied_silent _ rfl⟩
    | resume =>
      simp only [act, resume] at h
      split at h
      · obtain rfl := Except.ok.inj h
        exact Or.inl ⟨SameMeta.refl _, fun _ => SameTx.refl _, rfl, rfl, fun _ hf => hf, rfl, rfl⟩
      · obtain rfl := Except.ok.inj h
        exact Or.inl ⟨SameMeta.refl _, fun _ => SameTx.refl _, rfl, rfl, fun _ hf => hf, rfl, rfl⟩
      · rename_i r rs s hstack
        split at h
        · cases h
        · rename_i rc w2 hc
          obtain rfl := Except.ok.inj h
          right
          left
          refine ⟨r, by simp [callOf, hstack], ?_⟩
          obtain ⟨tx, hr⟩ | ⟨zs, tx, ha⟩ := call_cases (w := { w with stack := .userCb rs :: s })
            hw.formatted hc
          · exact Or.inl ⟨rc, tx, hr.rc_ne, hr.prepare, hr.heap, hr.before, hr.after, hr.flight,
              hr.accepted, hr.applied⟩
          · exact Or.inr ⟨zs, tx, ha.kind, ha.heap, ha.before, ha.after, ha.flight, ha.accepted,
              ha.applied⟩
      · obtain hq | hc := drainRound_cases hw h
        · exact Or.inl hq
        · exact Or.inr (Or.inr hc)
  · cases h

theorem Formatted.congr {zs zs' : ZstoreContext} (hf : Formatted zs) (h1 : zs'.zsb = zs.zsb)
    (h2 : zs'.pmem = zs.pmem) (h3 : zs'.otable = zs.otable)
    (h4 : zs'.ssdAllocator.nrTotal = zs.ssdAllocator.nrTotal)
    (h5 : zs'.ssdAllocator.nrEntrys = zs.ssdAllocator.nrEntrys)
    (h6 : zs'.pmAllocator.nrTotal = zs.pmAllocator.nrTotal)
    (h7 : zs'.pmAllocator.nrEntrys = zs.pmAllocator.nrEntrys) : Formatted zs' := by
  cases hf
  constructor
  all_goals
    simp only [h1, h2, h3, h4, h5, h6, h7]
    assumption

theorem alloc_total (a : StupidAllocator) (sz : Nat) :
    (stupidAllocSpace a sz).2.1.nrTotal = a.nrTotal ∧
    (stupidAllocSpace a sz).2.1.nrEntrys = a.nrEntrys := by
  unfold stupidAllocSpace
  split
  · exact ⟨rfl, rfl⟩
  · split
    · exact ⟨rfl, rfl⟩
    · exact ⟨rfl, rfl⟩

theorem newSsd_total (zs : ZstoreContext) (r : Request) :
    (newSsd zs r).nrTotal = zs.ssdAllocator.nrTotal ∧
    (newSsd zs r).nrEntrys = zs.ssdAllocator.nrEntrys :=
  alloc_total (released zs r) r.blen

theorem newPm_total (zs : ZstoreContext) :
    (newPm zs).nrTotal = zs.pmAllocator.nrTotal ∧ (newPm zs).nrEntrys = zs.pmAllocator.nrEntrys :=
  alloc_total zs.pmAllocator 1

/-- A rejected call changes the allocators at most, and never their sizes. -/
structure RejectFrame (zs zs' : ZstoreContext) : Prop where
  frame : zs' = { zs with
    tidMax := zs.tidMax + 1, ssdAllocator := zs'.ssdAllocator, pmAllocator := zs'.pmAllocator }
  ssdTotal : zs'.ssdAllocator.nrTotal = zs.ssdAllocator.nrTotal
  ssdEntrys : zs'.ssdAllocator.nrEntrys = zs.ssdAllocator.nrEntrys
  pmTotal : zs'.pmAllocator.nrTotal = zs.pmAllocator.nrTotal
  pmEntrys : zs'.pmAllocator.nrEntrys = zs.pmAllocator.nrEntrys

theorem prepare_rejected {g : Uninit} {zs zs' : ZstoreContext} {tx tx' : ZstoreTransaction}
    (hshift : zs.zsb.ssdMinAllocSizeShift = 12) (hrc : rc ≠ 0)
    (h : zstoreTxPrepare g zs r tx = .ok (rc, zs', tx')) : RejectFrame zs zs' := by
  have hsame : RejectFrame zs { zs with tidMax := zs.tidMax + 1 } := ⟨rfl, rfl, rfl, rfl, rfl⟩
  cases hop : r.op with
  | create =>
    obtain ⟨_, a, rfl | ⟨rfl, _⟩, rfl⟩ | ⟨h0, _⟩ := prepare_create hop h
    · exact hsame
    · exact ⟨rfl, rfl, rfl, (newPm_total zs).1, (newPm_total zs).2⟩
    · exact absurd h0 hrc
  | delete =>
    obtain ⟨_, rfl⟩ | ⟨h0, _⟩ := prepare_delete hop h
    · exact hsame
    · exact absurd h0 hrc
  | read =>
    obtain ⟨_, rfl⟩ | ⟨h0, _⟩ := prepare_read hshift hop h
    · exact hsame
    · exact absurd h0 hrc
  | write =>
    obtain ⟨_, _, rfl⟩ | ⟨_, _, _, _, rfl⟩ | ⟨h0, _⟩ := prepare_write hshift hop h
    · exact hsame
    · exact ⟨rfl, (newSsd_total zs r).1, (newSsd_total zs r).2, rfl, rfl⟩
    · exact absurd h0 hrc
  | other =>
    obtain ⟨_, rfl⟩ := prepare_other hop h
    exact hsame

theorem Accepted.formatted {zs zs' : ZstoreContext} {tx : ZstoreTransaction} (hf : Formatted zs)
    (h : Accepted zs r zs' tx) : Formatted zs' ∧ zs'.zsb = zs.zsb ∧ zs'.otable = zs.otable ∧
      zs'.tidMax = zs.tidMax + 1 ∧ zs'.txList = zs.txList ∧ zs'.mem = zs.mem := by
  cases h with
  | write _ h =>
    rw [h.store]
    exact ⟨hf.congr rfl rfl rfl (newSsd_total zs r).1 (newSsd_total zs r).2 rfl rfl, rfl, rfl, rfl,
      rfl, rfl⟩
  | create _ h =>
    rw [h.store]
    exact ⟨hf.congr rfl rfl rfl rfl rfl (newPm_total zs).1 (newPm_total zs).2, rfl, rfl, rfl, rfl,
      rfl⟩
  | delete _ h =>
    rw [h.store]
    exact ⟨hf.congr rfl rfl rfl rfl rfl rfl rfl, rfl, rfl, rfl, rfl, rfl⟩

theorem Queued.congr (hq : Queued w tid) (h1 : w.zs.tidMax ≤ w'.zs.tidMax)
    (h2 : w'.before tid = w.before tid) (h3 : w'.after tid = w.after tid)
    (h4 : SameTx (w.tx tid) (w'.tx tid)) (h5 : w'.zs.zsb = w.zs.zsb)
    (h6 : w'.zs.otable = w.zs.otable) : Queued w' tid := by
  obtain ⟨hlt, hf, hz, ho, htype, tx, ha, hpm⟩ := hq
  obtain ⟨s1, s2, s3, _⟩ := h4
  refine ⟨Nat.lt_of_lt_of_le hlt h1, ?_, ?_, ?_, s3.trans htype, tx, ?_, s2.trans hpm⟩
  · rwa [h2]
  · rw [h2, h5, hz]
  · rw [h2, h6, ho]
  · rwa [h2, h3, s1]

/-- Every step keeps the queue well formed. -/
theorem step_wf {a : Act} (hw : WF w) (h : step env a w = some w') : WF w' := by
  obtain hq | ⟨r, _, ⟨rc, tx, hr⟩ | ⟨zs, tx, ha⟩⟩ | ⟨tid, t, hc⟩ := step_cases hw h
  · have hz := hq.zs
    refine ⟨hw.formatted.congr hz.zsb hz.pmem hz.otable ?_ ?_ ?_ ?_, fun i hi => ?_⟩
    · rw [hz.ssdAllocator]
    · rw [hz.ssdAllocator]
    · rw [hz.pmAllocator]
    · rw [hz.pmAllocator]
    · rw [hz.txList] at hi
      exact (hw.queued i hi).congr (Nat.le_of_eq hz.tidMax.symm) (by rw [hq.before])
        (by rw [hq.after]) (hq.heap i) hz.zsb hz.otable
  · have hz := prepare_rejected hw.formatted.shift hr.rc_ne hr.prepare
    have hfr := hz.frame
    refine ⟨hw.formatted.congr (by rw [hfr]) (by rw [hfr]) (by rw [hfr]) hz.ssdTotal hz.ssdEntrys
      hz.pmTotal hz.pmEntrys, fun i hi => ?_⟩
    have hi' : i ∈ w.zs.txList := by
      rw [hfr] at hi
      exact hi
    have hlt := (hw.queued i hi').tid_lt
    refine (hw.queued i hi').congr (by rw [hfr]; exact Nat.le_succ _) (by rw [hr.before])
      (by rw [hr.after]) ?_ (by rw [hfr]) (by rw [hfr])
    rw [hr.heap, Function.update_of_ne (Nat.ne_of_lt hlt)]
    exact SameTx.refl _
  · have hkeep : ∀ i ∈ w.zs.txList, w'.zs.tidMax = w.zs.tidMax + 1 → w'.zs.zsb = w.zs.zsb →
        w'.zs.otable = w.zs.otable → Queued w' i := by
      intro i hi h1 h2 h3
      obtain ⟨htx, hbefore, hafter⟩ := ha.older (hw.queued i hi).tid_lt
      refine (hw.queued i hi).congr (by omega) hbefore hafter ?_ h2 h3
      rw [htx]
      exact SameTx.refl _
    obtain ⟨_, hr, n, l, hzs⟩ | ⟨hacc, n, hzs⟩ := ha.kind
    · rw [hr.store] at hzs
      refine ⟨hw.formatted.congr (by rw [hzs]) (by rw [hzs]) (by rw [hzs]) (by rw [hzs])
        (by rw [hzs]) (by rw [hzs]) (by rw [hzs]), fun i hi => ?_⟩
      rw [hzs] at hi
      exact hkeep i hi (by rw [hzs]) (by rw [hzs]) (by rw [hzs])
    · obtain ⟨hfz, h1, h2, h3, h4, _⟩ := hacc.formatted hw.formatted
      refine ⟨hfz.congr (by rw [hzs]) (by rw [hzs]) (by rw [hzs]) (by rw [hzs]) (by rw [hzs])
        (by rw [hzs]) (by rw [hzs]), fun i hi => ?_⟩
      rw [hzs] at hi
      obtain hi | hi := List.mem_append.mp hi
      · rw [h4] at hi
        exact hkeep i hi (by rw [hzs, h3]) (by rw [hzs, h1]) (by rw [hzs, h2])
      · obtain rfl := List.mem_singleton.mp hi
        have hreq : tx.request = r := by
          cases hacc with
          | write _ h => exact h.request
          | create _ h => exact h.tx.request
          | delete _ h => exact h.tx.request
        refine ⟨?_, ?_, ?_, ?_, ?_, tx, ?_, ?_⟩
        · rw [hzs]
          exact h3 ▸ Nat.lt_succ_self _
        · rw [ha.before, Function.update_self]
          exact hw.formatted
        · rw [ha.before, Function.update_self, hzs, h1]
        · rw [ha.before, Function.update_self, hzs, h2]
        · rw [ha.heap, Function.update_self, hacc.txType]
        · rw [ha.before, Function.update_self, ha.after, Function.update_self, ha.heap,
            Function.update_self, hreq]
          exact hacc
        · rw [ha.heap, Function.update_self]
  · obtain ⟨n, hzs⟩ := hc.zs
    refine ⟨hw.formatted.congr (by rw [hzs]) (by rw [hzs]) (by rw [hzs]) (by rw [hzs])
      (by rw [hzs]) (by rw [hzs]) (by rw [hzs]), fun i hi => ?_⟩
    have hi' : i ∈ w.zs.txList := by
      rw [hc.head]
      exact List.mem_cons_of_mem tid hi
    exact (hw.queued i hi').congr (by rw [hzs]) (by rw [hc.before]) (by rw [hc.after]) (hc.heap i)
      (by rw [hzs]) (by rw [hzs])

/-- No step changes the superblock. -/
theorem step_zsb {a : Act} (hw : WF w) (h : step env a w = some w') : w'.zs.zsb = w.zs.zsb := by
  obtain hq | ⟨r, _, ⟨rc, tx, hr⟩ | ⟨zs, tx, ha⟩⟩ | ⟨tid, t, hc⟩ := step_cases hw h
  · exact hq.zs.zsb
  · rw [(prepare_rejected hw.formatted.shift hr.rc_ne hr.prepare).frame]
  · obtain ⟨_, hr, n, l, hzs⟩ | ⟨hacc, n, hzs⟩ := ha.kind
    · rw [hzs, hr.store]
    · rw [hzs]
      cases hacc with
      | write _ h => rw [h.store]
      | create _ h => rw [h.store]
      | delete _ h => rw [h.store]
  · obtain ⟨n, hzs⟩ := hc.zs
    rw [hzs]

/-- Nothing about a transaction changes once it has been accepted. -/
theorem step_keeps {a : Act} (hw : WF w) (h : step env a w = some w') :
    w.zs.tidMax ≤ w'.zs.tidMax ∧ ∀ t < w.zs.tidMax, SameTx (w.tx t) (w'.tx t) ∧
      w'.before t = w.before t ∧ w'.after t = w.after t := by
  obtain hq | ⟨r, _, ⟨rc, tx, hr⟩ | ⟨zs, tx, ha⟩⟩ | ⟨tid, t, hc⟩ := step_cases hw h
  · exact ⟨Nat.le_of_eq hq.zs.tidMax.symm, fun t _ => ⟨hq.heap t, by rw [hq.before],
      by rw [hq.after]⟩⟩
  · have hfr := (prepare_rejected hw.formatted.shift hr.rc_ne hr.prepare).frame
    refine ⟨by rw [hfr]; exact Nat.le_succ _, fun t ht => ⟨?_, by rw [hr.before], by rw [hr.after]⟩⟩
    rw [hr.heap, Function.update_of_ne (Nat.ne_of_lt ht)]
    exact SameTx.refl _
  · constructor
    · obtain ⟨_, hr, n, l, hzs⟩ | ⟨hacc, n, hzs⟩ := ha.kind
      · rw [hzs, hr.store]
        exact Nat.le_succ _
      · rw [hzs]
        exact (hacc.formatted hw.formatted).2.2.2.1 ▸ Nat.le_succ _
    · intro t ht
      obtain ⟨htx, hbefore, hafter⟩ := ha.older ht
      rw [htx]
      exact ⟨SameTx.refl _, hbefore, hafter⟩
  · obtain ⟨n, hzs⟩ := hc.zs
    exact ⟨by rw [hzs], fun t _ => ⟨hc.heap t, by rw [hc.before], by rw [hc.after]⟩⟩

/-- The transactions in the log have been given out. -/
def Logged (w : World) : Prop :=
  (∀ t ∈ w.accepted, t < w.zs.tidMax) ∧ ∀ t ∈ w.applied, t < w.zs.tidMax

theorem step_logged {a : Act} (hw : WF w) (hl : Logged w) (h : step env a w = some w') :
    Logged w' := by
  obtain ⟨hmax, _⟩ := step_keeps hw h
  have hle : ∀ l : List Nat, (∀ t ∈ l, t < w.zs.tidMax) → ∀ t ∈ l, t < w'.zs.tidMax :=
    fun l hl t ht => Nat.lt_of_lt_of_le (hl t ht) hmax
  obtain hq | ⟨r, _, ⟨rc, tx, hr⟩ | ⟨zs, tx, ha⟩⟩ | ⟨tid, t, hc⟩ := step_cases hw h
  · rw [Logged, hq.accepted, hq.applied]
    exact ⟨hle _ hl.1, hle _ hl.2⟩
  · rw [Logged, hr.accepted, hr.applied]
    exact ⟨hle _ hl.1, hle _ hl.2⟩
  · rw [Logged, ha.accepted, ha.applied]
    refine ⟨fun i hi => ?_, hle _ hl.2⟩
    obtain hi | hi := List.mem_append.mp hi
    · exact hle _ hl.1 i hi
    · obtain rfl := List.mem_singleton.mp hi
      obtain ⟨_, hr, n, l, hzs⟩ | ⟨hacc, n, hzs⟩ := ha.kind
      · rw [hzs, hr.store]
        exact Nat.lt_succ_self _
      · rw [hzs]
        exact (hacc.formatted hw.formatted).2.2.2.1 ▸ Nat.lt_succ_self _
  · rw [Logged, hc.accepted, hc.applied]
    refine ⟨hle _ hl.1, fun i hi => ?_⟩
    obtain hi | hi := List.mem_append.mp hi
    · exact hle _ hl.2 i hi
    · obtain rfl := List.mem_singleton.mp hi
      exact Nat.lt_of_lt_of_le (hw.queued i (by rw [hc.head]; exact List.mem_cons_self ..)).tid_lt
        hmax

/-- The requests in the log, and the stores that they met, stay what they are. -/
theorem Logged.keeps {a : Act} (hw : WF w) (hl : Logged w) (h : step env a w = some w') :
    (∀ t ∈ w.accepted, (w'.tx t).request = (w.tx t).request ∧ w'.before t = w.before t) ∧
    ∀ t ∈ w.applied, (w'.tx t).request = (w.tx t).request ∧ w'.before t = w.before t := by
  have hkeep := (step_keeps hw h).2
  constructor
  · intro t ht
    obtain ⟨h1, h2, _⟩ := hkeep t (hl.1 t ht)
    exact ⟨h1.1, h2⟩
  · intro t ht
    obtain ⟨h1, h2, _⟩ := hkeep t (hl.2 t ht)
    exact ⟨h1.1, h2⟩

theorem Accepts.mem_accepted {zs : ZstoreContext} {tx : ZstoreTransaction}
    (ha : Accepts r w w' zs tx) : w.zs.tidMax ∈ w'.accepted := by
  rw [ha.accepted]
  exact List.mem_append_right _ (List.mem_singleton_self _)

/-- The accepted creates, deletes and writes are the committed ones and then the queued ones. -/
def InOrder (w : World) : Prop :=
  w.accepted.filter (fun t => decide ((w.tx t).request.op ≠ .read)) = w.applied ++ w.zs.txList

theorem step_inOrder {a : Act} (hw : WF w) (hl : Logged w) (hi : InOrder w)
    (h : step env a w = some w') : InOrder w' := by
  have hkeep := (step_keeps hw h).2
  have hold : w.accepted.filter (fun t => decide ((w'.tx t).request.op ≠ .read)) =
      w.applied ++ w.zs.txList := by
    rw [← hi]
    apply List.filter_congr
    intro t ht
    rw [(hkeep t (hl.1 t ht)).1.1]
  obtain hq | ⟨r, _, ⟨rc, tx, hr⟩ | ⟨zs, tx, ha⟩⟩ | ⟨tid, t, hc⟩ := step_cases hw h
  · rw [InOrder, hq.accepted, hq.applied, hq.zs.txList]
    exact hold
  · have hfr := (prepare_rejected hw.formatted.shift hr.rc_ne hr.prepare).frame
    rw [InOrder, hr.accepted, hr.applied, hfr]
    exact hold
  · rw [InOrder, ha.accepted, ha.applied, List.filter_append, hold]
    have hself : w'.tx w.zs.tidMax = tx := ha.tx_self
    obtain ⟨hop, hr, n, l, hzs⟩ | ⟨hacc, n, hzs⟩ := ha.kind
    · rw [hr.store] at hzs
      rw [hzs]
      simp [hself, hr.request, hop]
    · obtain ⟨hreq, hop⟩ := hacc.request
      rw [hzs, (hacc.formatted hw.formatted).2.2.2.2.1]
      simp [hself, hreq, hop]
  · rw [InOrder, hc.accepted, hc.applied, hold, hc.head]
    simp

/-- A store as mount leaves it: the onode table loaded, nothing accepted, nothing in flight. -/
structure Mounted (w : World) : Prop where
  formatted : Formatted w.zs
  coherent : ∀ oid < 2 ^ 20, onodeLine w.zs.pm oid = w.zs.onode oid
  txList : w.zs.txList = []
  txOutstanding : w.zs.txOutstanding = 0
  txRdonlyList : w.zs.txRdonlyList = []
  txRdonlyOutstanding : w.zs.txRdonlyOutstanding = 0
  flight : w.flight = []
  posted : w.posted = []
  stack : w.stack = []
  log : w.log = []

theorem Mounted.wf (h : Mounted w) : WF w :=
  ⟨h.formatted, fun i hi => by rw [h.txList] at hi; exact absurd hi (List.not_mem_nil)⟩

theorem Mounted.logged (h : Mounted w) : Logged w := by
  simp [Logged, World.accepted, World.applied, h.log]

theorem Mounted.inOrder (h : Mounted w) : InOrder w := by
  simp [InOrder, World.accepted, World.applied, h.log, h.txList]

end Inversion
end ZCell.Store
