import ZCell.OnodeHistory
import ZCell.OnodeTable
import ZCell.Outage

/-! Power failure at any time in a run of the store. A create fills its index block without a drain,
everything else that a step writes to persistent memory is the transaction at the head of the queue. -/
namespace ZCell.Store
open Bytes Persist Pm Allocator Runs

/-- The index block of a create with every word unmapped. -/
def initCopy (zs : ZstoreContext) : Nat × List Byte :=
  (newIndex zs * zstorePageSize + zs.zsb.pmDySpaceOfst, List.replicate zstorePageSize 0xff)

/-- What `zstore_obj_async_op_call` itself does to persistent memory. -/
def callOps (zs : ZstoreContext) (r : Request) : List PmOp :=
  if r.op = .create ∧ r.object < zs.zsb.onodesRsv ∧ (zs.onode r.object).valid = false ∧
      (stupidAllocSpace zs.pmAllocator 1).1 = 0 then
    pmemWrite false (initCopy zs).2 (initCopy zs).1
  else []

/-- The transaction that the step is about to apply. -/
def committing (w : World) : Act → Option Nat
  | .resume =>
    match w.stack, w.zs.txList with
    | .drain :: _, tid::_ => if (w.tx tid).state = .pmTx then some tid else none
    | _, _ => none
  | _ => none

/-- The calls of pm.c and libpmem that a step makes. -/
def stepOps (w : World) (a : Act) : List PmOp :=
  match committing w a with
  | some tid =>
    match (w.tx tid).pmTx with
    | some t => applyOps w.zs.pmem t
    | none => []
  | none =>
    match callOf w a with
    | some r => callOps w.zs r
    | none => []

/-- The store, and its persistent memory with what is not drained. -/
structure Powered where
  w : World
  nvm : Nvm

/-- Power fails between two steps or in the step, and `m` is left. -/
def Powered.Stops (env : Env) (p : Powered) (a : Act) (m : Image) : Prop :=
  p.nvm.Fails [] m ∨ (step env a p.w).isSome ∧ p.nvm.Fails (stepOps p.w a) m

/-- A step, or power fails there, leaves `m`, and the store is mounted again. -/
inductive PowerAct where
  | act (a : Act)
  | outage (a : Act) (m : Image) (flags : BitVec 32) (h : MountMem) (heap : Nat → ZstoreTransaction)

def powerStep (env : Env) (cpu : Nat) (d : PowerAct) (p : Powered) : Option Powered :=
  match d with
  | .act a => (step env a p.w).map fun w => ⟨w, p.nvm.exec (stepOps p.w a)⟩
  | .outage _ m flags h heap =>
    (zstoreMount cpu flags h m).toOption.map fun zs => ⟨World.mounted zs heap, ⟨zs.pm, []⟩⟩

def Powers (env : Env) (p : Powered) : PowerAct → Prop
  | .act _ => True
  | .outage a m _ h _ => p.Stops env a m ∧ h.Placed

/-- What a step can do, with its calls on persistent memory. -/
inductive Persists (env : Env) (w : World) (a : Act) (w' : World) : Prop
  | quiet (h : Quiet w w') (hno : committing w a = none) (ops : stepOps w a = [])
  | rejects (r : Request) (rc : Int) (tx : ZstoreTransaction) (hr : callOf w a = some r)
      (h : Rejects env r w w' rc tx) (hno : committing w a = none) (ops : stepOps w a = [])
  | accepts (r : Request) (zs : ZstoreContext) (tx : ZstoreTransaction) (hr : callOf w a = some r)
      (h : Accepts r w w' zs tx) (hno : committing w a = none)
      (ops : stepOps w a = if r.op = .create then [.nodrain (initCopy w.zs).1 (initCopy w.zs).2] else [])
  | commits (tid : Nat) (t : PmemTransaction) (h : Commits w w' tid t)
      (hc : committing w a = some tid) (ops : stepOps w a = applyOps w.zs.pmem t)

section Ops
variable {env : Env} {w w' : World} {a : Act} {r : Request} {rc : Int} {zs : ZstoreContext}
  {tx : ZstoreTransaction}

theorem Accepts.callOps (ha : Accepts r w w' zs tx) : callOps w.zs r =
    if r.op = .create then [.nodrain (initCopy w.zs).1 (initCopy w.zs).2] else [] := by
  obtain ⟨hop, _⟩ | ⟨hacc, _⟩ := ha.kind
  · rw [Store.callOps, if_neg (by simp [hop]), if_neg (by simp [hop])]
  · cases hacc with
    | write hop _ => rw [Store.callOps, if_neg (by simp [hop]), if_neg (by simp [hop])]
    | create hop h =>
      have hroom := (alloc_zero_iff (Nat.le_refl 1)).mpr h.room
      rw [Store.callOps, if_pos ⟨hop, h.oid, h.invalid, hroom⟩, if_pos hop]
      rfl
    | delete hop _ => rw [Store.callOps, if_neg (by simp [hop]), if_neg (by simp [hop])]

/-- A create that gets as far as an index block is not rejected any more. -/
theorem Rejects.callOps (hr : Rejects env r w w' rc tx) : callOps w.zs r = [] := by
  rw [Store.callOps, if_neg]
  rintro ⟨hop, hoid, hinv, hzero⟩
  have hp := hr.prepare
  simp only [zstoreTxPrepare, hop] at hp
  obtain ⟨hp, _⟩ := assertState_ok hp
  have hobj : r.oid.toNat % 2 ^ 48 = r.object := rfl
  have hon : ∀ n, ({ w.zs with tidMax := n } : ZstoreContext).onode r.object = w.zs.onode r.object :=
    fun _ => rfl
  simp only [txPrepCreDelCommon, hobj, hop, hon, hinv, Nat.not_le.mpr hoid, if_false, Bool.not_false,
    decide_true, Bool.and_true, if_true, hzero, ne_eq, not_true_eq_false] at hp
  split at hp
  · cases hp
  · simp only [Except.ok.injEq, Prod.mk.injEq] at hp
    exact hr.rc_ne hp.1.symm

theorem stepOps_call (hno : committing w a = none) (hr : callOf w a = some r) :
    stepOps w a = Store.callOps w.zs r := by
  rw [stepOps, hno, hr]

theorem stepOps_nothing (hno : committing w a = none) (hr : callOf w a = none) : stepOps w a = [] := by
  rw [stepOps, hno, hr]

theorem persists_of_call {stack : List Frame} (hw : WF w) (hno : committing w a = none)
    (hr : callOf w a = some r)
    (h : zstoreObjAsyncOpCall env r { w with stack := stack } = .ok (rc, w')) :
    Persists env w a w' := by
  have hops := stepOps_call hno hr
  obtain ⟨tx, h⟩ | ⟨zs, tx, h⟩ := call_cases (w := { w with stack := stack }) hw.formatted h
  · exact .rejects r rc tx hr ⟨h.rc_ne, h.prepare, h.heap, h.before, h.after, h.flight, h.accepted,
      h.applied⟩ hno (hops.trans h.callOps)
  · exact .accepts r zs tx hr ⟨h.kind, h.heap, h.before, h.after, h.flight, h.accepted, h.applied⟩
      hno (hops.trans h.callOps)

theorem persists_of_drain {s : List Frame} (hw : WF w) (hstack : w.stack = .drain :: s)
    (h : drainRound env s w = .ok w') : Persists env w .resume w' := by
  have hcall : callOf w .resume = none := by simp only [callOf, hstack]
  have hleave : Quiet w { w with stack := s } :=
    ⟨SameMeta.refl _, fun _ => SameTx.refl _, rfl, rfl, fun _ hf => hf, rfl, rfl⟩
  cases hlist : w.zs.txList with
  | nil =>
    have hno : committing w .resume = none := by simp only [committing, hstack, hlist]
    simp only [drainRound, hlist] at h
    obtain rfl := Except.ok.inj h
    exact .quiet hleave hno (stepOps_nothing hno hcall)
  | cons tid rest =>
    by_cases hst : (w.tx tid).state = .pmTx
    · have hc : committing w .resume = some tid := by
        simp only [committing, hstack, hlist, hst, if_true]
      obtain hq | ⟨tid', t, hcom⟩ := drainRound_cases hw h
      · -- the round takes the head off the queue
        have htype := (hw.queued tid (by rw [hlist]; exact List.mem_cons_self ..)).txType
        simp only [drainRound, hlist, ne_eq, hst, not_true_eq_false, if_false] at h
        split at h
        · cases h
        · rename_i t _
          have hend := Except.ok.inj h
          have hlen := congrArg List.length hq.zs.txList
          rw [← hend, (end_write (by simpa [World.setTx, World.note] using htype)).1] at hlen
          simp [World.setTx, World.note, hlist] at hlen
      · obtain rfl : tid = tid' := by
          have hhead := hcom.head
          rw [hlist] at hhead
          exact (List.cons.inj hhead).1
        refine .commits tid t hcom hc ?_
        simp only [stepOps, hc, hcom.pmTx]
    · have hno : committing w .resume = none := by
        simp only [committing, hstack, hlist, hst, if_false]
      simp only [drainRound, hlist, ne_eq, hst, not_false_eq_true, if_true] at h
      obtain rfl := Except.ok.inj h
      exact .quiet hleave hno (stepOps_nothing hno hcall)

theorem bioDone_quiet {k : Nat} {success : Bool} (h : act env (.bioDone k success) w = .ok w') :
    Quiet w w' := by
  simp only [act] at h
  split at h
  · obtain rfl := Except.ok.inj h
    exact ⟨SameMeta.refl _, fun _ => SameTx.refl _, rfl, rfl, fun _ hf => hf, rfl, rfl⟩
  · refine Quiet.trans ?_ (bioCb_quiet h)
    exact ⟨SameMeta.refl _, fun _ => SameTx.refl _, rfl, rfl,
      fun _ hf => List.mem_of_mem_eraseIdx hf, accepted_silent _ rfl, applied_silent _ rfl⟩

theorem message_quiet {k : Nat} (h : act env (.message k) w = .ok w') : Quiet w w' := by
  simp only [act] at h
  split at h
  · obtain rfl := Except.ok.inj h
    exact ⟨SameMeta.refl _, fun _ => SameTx.refl _, rfl, rfl, fun _ hf => hf, rfl, rfl⟩
  · obtain rfl := Except.ok.inj h
    exact ⟨SameMeta.refl _, fun _ => SameTx.refl _, rfl, rfl, fun _ hf => hf,
      accepted_silent _ rfl, applied_silent _ rfl⟩

theorem step_persists (hw : WF w) (h : step env a w = some w') : Persists env w a w' := by
  unfold step at h
  split at h
  · have h := toOption_eq_some h
    cases a with
    | request r =>
      simp only [act] at h
      split at h
      · cases h
      · rename_i hcall
        obtain rfl := Except.ok.inj h
        exact @persists_of_call _ _ _ _ _ _ w.stack hw rfl rfl hcall
    | bioDone k success => exact .quiet (bioDone_quiet h) rfl rfl
    | message k => exact .quiet (message_quiet h) rfl rfl
    | resume =>
      have hleave : ∀ s : List Frame, Quiet w { w with stack := s } := fun s =>
        ⟨SameMeta.refl _, fun _ => SameTx.refl _, rfl, rfl, fun _ hf => hf, rfl, rfl⟩
      simp only [act, resume] at h
      split at h
      · rename_i hstack
        obtain rfl := Except.ok.inj h
        have hno : committing w .resume = none := by simp only [committing, hstack]
        exact .quiet (hleave w.stack) hno (stepOps_nothing hno (by simp only [callOf, hstack]))
      · rename_i s hstack
        obtain rfl := Except.ok.inj h
        have hno : committing w .resume = none := by simp only [committing, hstack]
        exact .quiet (hleave s) hno (stepOps_nothing hno (by simp only [callOf, hstack]))
      · rename_i r rs s hstack
        split at h
        · cases h
        · rename_i hcall
          obtain rfl := Except.ok.inj h
          exact persists_of_call hw (by simp only [committing, hstack]) (by simp only [callOf, hstack])
            hcall
      · rename_i s hstack
        exact persists_of_drain hw hstack h
  · cases h

theorem step_commits (hw : WF w) (h : step env a w = some w') {t : Nat}
    (hc : committing w a = some t) :
    ∃ x, Commits w w' t x ∧ stepOps w a = applyOps w.zs.pmem x := by
  cases step_persists hw h with
  | quiet _ hno _ => rw [hno] at hc; cases hc
  | rejects _ _ _ _ _ hno _ => rw [hno] at hc; cases hc
  | accepts _ _ _ _ _ hno _ => rw [hno] at hc; cases hc
  | commits u x hcom hu ops =>
    rw [hu] at hc
    obtain rfl := Option.some.inj hc
    exact ⟨x, hcom, ops⟩

theorem committing_queued {w : World} {a : Act} {t : Nat} (hc : committing w a = some t) :
    t ∈ w.zs.txList := by
  unfold committing at hc
  split at hc
  · split at hc
    · rename_i hlist
      split at hc
      · obtain rfl := Option.some.inj hc
        rw [hlist]
        exact List.mem_cons_self ..
      · cases hc
    · cases hc
  · cases hc

end Ops

/-- The index blocks that may not be filled yet when power fails in the step. -/
def clearing (w : World) (a : Act) : List (Nat × List Byte) :=
  ((w.zs.txList.filter fun t => (w.tx t).request.op = .create).map fun t => initCopy (w.before t)) ++
  if committing w a = none then copies (stepOps w a) else []

/-- The pages of the store lie in a memory of which only index blocks are not drained. -/
structure PowerInv (cpu n : Nat) (p : Powered) : Prop where
  wf : WF p.w
  coherent : Coherent p.w.zs
  pmem : p.w.zs.pmem = pmemOpen cpu
  zsb : p.w.zs.zsb = mkfsSuperblock n
  view : p.nvm.view = p.w.zs.pm
  clean : LogClean (pmemOpen cpu) p.nvm.durable
  super : Superblock.read p.nvm.durable = mkfsSuperblock n
  pending : ∀ c ∈ p.nvm.pend, ∃ t ∈ p.w.zs.txList, (p.w.tx t).request.op = .create ∧
    c = initCopy (p.w.before t)

/-- The word is the same in both images. -/
def SameWord (m m' : Image) (x : Nat) : Prop := ∀ b, b / 8 = x → m b = m' b

/-- What a power failure in the step, or in front of it, has left. -/
inductive Leaves (w : World) (a : Act) (m : Image) : Prop
  /-- Nothing of a transaction, and index blocks of queued creates that are filled in part. -/
  | before (h : ∀ x, ¬ InLog w.zs.pmem (8 * x) → (∀ c ∈ clearing w a, ¬ Touches x c) →
      SameWord m w.zs.pm x)
  /-- A part of the transaction that the step applies. -/
  | within (hc : committing w a ≠ none) (h : ∀ x, ¬ InLog w.zs.pmem (8 * x) →
      SameWord m w.zs.pm x ∨ SameWord m (finish w.zs.pm (stepOps w a)) x)

section Regions
variable {zs zs' : ZstoreContext} {r : Request} {tx : ZstoreTransaction}

/-- Where the copies of a commit go. -/
theorem Accepted.target_cases (hf : Formatted zs) (h : Accepted zs r zs' tx) {c : Nat × List Byte}
    (hc : c ∈ targets (logOf zs r)) :
    (∃ k < 2 ^ 19, c = (2 ^ 20 + 64 * k, lineBytes ((newSsd zs r).bs k))) ∨
    c = (33 * 2 ^ 20 + 64 * (newIndex zs / 512), lineBytes ((newPm zs).bs (newIndex zs / 512))) ∧
      newIndex zs < 2 ^ 20 ∨
    c = (34 * 2 ^ 20 + 64 * r.object, lineBytes (loggedOnode zs r)) ∨
    (r.op = .write ∧ c = (98 * 2 ^ 20 + 4 * firstWord zs r, wordsBytes (newWords zs r))) := by
  cases h with
  | write hop h =>
    rw [logOf, hop, h.targets_eq hf, List.mem_append] at hc
    obtain hc | hc := hc
    · obtain ⟨e, he, rfl⟩ := List.mem_map.mp hc
      obtain ⟨k, hk, rfl⟩ := List.mem_map.mp he
      have hlt := h.named_lt hf k hk
      exact Or.inl ⟨k, hlt, copy_bitmapLog _ _ k (by omega)⟩
    · simp only [List.mem_cons, List.not_mem_nil, or_false] at hc
      obtain rfl | rfl := hc
      · exact Or.inr (Or.inr (Or.inr ⟨hop, rfl⟩))
      · simp only [loggedOnode, hop, h.object_eq hf, true_or, or_true]
  | create hop h =>
    have hidx := h.index_le hf
    rw [logOf, hop, h.targets_eq hf] at hc
    simp only [List.mem_cons, List.not_mem_nil, or_false] at hc
    obtain rfl | rfl := hc
    · simp only [loggedOnode, hop, true_or, or_true]
    · exact Or.inr (Or.inl ⟨rfl, by omega⟩)
  | delete hop h =>
    rw [logOf, hop, h.targets_eq hf, List.mem_singleton] at hc
    subst hc
    simp only [loggedOnode, hop, true_or, or_true]

theorem Accepted.target_above (hf : Formatted zs) (h : Accepted zs r zs' tx) {c : Nat × List Byte}
    (hc : c ∈ targets (logOf zs r)) : 2 ^ 20 ≤ c.1 := by
  obtain ⟨k, _, rfl⟩ | ⟨rfl, _⟩ | rfl | ⟨_, rfl⟩ := h.target_cases hf hc
  all_goals
    simp only
    omega

/-- No two different copies of a commit are about one word. -/
theorem Accepted.target_unique (hf : Formatted zs) (h : Accepted zs r zs' tx) {c d : Nat × List Byte}
    (hc : c ∈ targets (logOf zs r)) (hd : d ∈ targets (logOf zs r)) {x : Nat} (hcx : Touches x c)
    (hdx : Touches x d) : c = d := by
  have hobj := h.object_lt hf
  obtain ⟨a, ha, h1, h2⟩ := hcx
  obtain ⟨b, hb, h3, h4⟩ := hdx
  obtain ⟨k, hk, rfl⟩ | ⟨rfl, hi⟩ | rfl | ⟨_, rfl⟩ := h.target_cases hf hc
  · obtain ⟨l, hl, rfl⟩ | ⟨rfl, _⟩ | rfl | ⟨_, rfl⟩ := h.target_cases hf hd
    · simp only [lineBytes_length] at h1 h2 h3 h4
      obtain rfl : k = l := by omega
      rfl
    all_goals
      simp only [lineBytes_length] at h1 h2 h3 h4
      omega
  · obtain ⟨l, hl, rfl⟩ | ⟨rfl, _⟩ | rfl | ⟨_, rfl⟩ := h.target_cases hf hd
    · simp only [lineBytes_length] at h1 h2 h3 h4
      omega
    · rfl
    all_goals
      simp only [lineBytes_length] at h1 h2 h3 h4
      omega
  · obtain ⟨l, hl, rfl⟩ | ⟨rfl, _⟩ | rfl | ⟨_, rfl⟩ := h.target_cases hf hd
    · simp only [lineBytes_length] at h1 h2 h3 h4
      omega
    · simp only [lineBytes_length] at h1 h2 h3 h4
      omega
    · rfl
    · simp only [lineBytes_length] at h1 h2 h3 h4
      omega
  · obtain ⟨l, hl, rfl⟩ | ⟨rfl, _⟩ | rfl | ⟨_, rfl⟩ := h.target_cases hf hd
    · simp only [lineBytes_length] at h1 h2 h3 h4
      omega
    · simp only [lineBytes_length] at h1 h2 h3 h4
      omega
    · simp only [lineBytes_length] at h1 h2 h3 h4
      omega
    · rfl

theorem initCopy_above (hf : Formatted zs) : 98 * 2 ^ 20 ≤ (initCopy zs).1 := by
  simp only [initCopy, hf.dySpace]
  omega

theorem superblock_congr {m m' : Image} (h : ∀ a < 4096, m' a = m a) :
    Superblock.read m' = Superblock.read m := by
  have hfield : ∀ o n, o + n ≤ 4096 → loadLe m' o n = loadLe m o n := by
    intro o n ho
    apply loadLe_congr
    intro i hi
    exact h _ (by omega)
  simp only [Superblock.read, hfield, Nat.reduceAdd, Nat.reduceLeDiff]

/-- Outside of its log region `pmem_transaction_apply` leaves the copies of its entries. -/
theorem applied_outside {es : List PmLogEntry} {pmem : Pmem} {t : PmemTransaction} (hb : Built t es)
    (hfit : LogFits es) (img : Image) {a : Nat} (ha : ¬ InLog pmem a) :
    finish img (applyOps pmem t) a = storeAll img (targets es) a := by
  obtain ⟨d, hd, _, _, _, hfin⟩ := @before_step3 pmem t es hb hfit img
  have hz : pmem.logRegionOfst + PmLogHeader.zero.bytes.length ≤
      pmem.logRegionOfst + pmLogRegionSize := by
    rw [header_length]
    simp [pmLogRegionSize]
  rw [hfin, eqOff_store (Nat.le_refl _) hz a ha]
  exact storeAll_congr _ (hd a ha)

theorem applied_clean {es : List PmLogEntry} {pmem : Pmem} {t : PmemTransaction} (hb : Built t es)
    (hfit : LogFits es) (img : Image) : LogClean pmem (finish img (applyOps pmem t)) := by
  obtain ⟨d, _, _, _, _, hfin⟩ := @before_step3 pmem t es hb hfit img
  rw [hfin]
  exact clean_header _ rfl

/-- The log that a commit applies is the one that its request was accepted with. -/
theorem Commits.built {w w' : World} {t : Nat} {x : PmemTransaction} (hw : WF w)
    (h : Commits w w' t x) : Built x (logOf (w.before t) (w.tx t).request) ∧
    LogFits (logOf (w.before t) (w.tx t).request) ∧ ∀ b, ¬ InLog w.zs.pmem b →
      w'.zs.pm b = storeAll w.zs.pm (targets (logOf (w.before t) (w.tx t).request)) b := by
  have hq := hw.queued t (by rw [h.head]; exact List.mem_cons_self ..)
  obtain ⟨tx, hacc, hpm⟩ := hq.accepted
  obtain ⟨⟨x', hx', hb⟩, hfit⟩ := hacc.built
  obtain rfl : x = x' := by
    rw [h.pmTx, hx'] at hpm
    exact Option.some.inj hpm
  obtain ⟨_, hzs⟩ := h.zs
  refine ⟨hb, hfit, fun b hout => ?_⟩
  rw [hzs]
  exact applied_outside hb hfit w.zs.pm hout

/-- Everything that `pmem_transaction_apply` writes is drained when it returns. -/
theorem exec_applyOps (d : Nvm) (pmem : Pmem) (t : PmemTransaction) :
    d.exec (applyOps pmem t) = ⟨finish d.view (applyOps pmem t), []⟩ := by
  have hsplit : ∃ u, applyOps pmem t = u ++ [.drain] := by
    refine ⟨_, (?_ : applyOps pmem t = (pmemWrite true (load t.le 0 t.sealed.alignLength.toNat)
      (pmem.logRegionOfst + 64) ++ pmemWrite true t.sealed.bytes pmem.logRegionOfst ++
      t.entries.flatMap (fun e => pmemWrite false e.value e.ofst.toNat) ++ [.drain] ++
      [.nodrain pmem.logRegionOfst PmLogHeader.zero.bytes]) ++ [.drain])⟩
    simp only [applyOps, List.append_assoc]
    rfl
  obtain ⟨u, hu⟩ := hsplit
  rw [hu, Nvm.exec_drain, finish, finish, copies_append]
  simp [copies]

end Regions

section Failure
variable {env : Env} {cpu n : Nat} {p : Powered} {a : Act} {w' : World} {m : Image}

theorem PowerInv.log (hi : PowerInv cpu n p) :
    4096 ≤ (pmemOpen cpu).logRegionOfst ∧ (pmemOpen cpu).logRegionOfst + pmLogRegionSize ≤ 2 ^ 20 := by
  have hlog := hi.wf.formatted.log
  rw [hi.pmem] at hlog
  refine ⟨?_, hlog⟩
  simp only [pmemOpen]
  omega

theorem PowerInv.pending_above (hi : PowerInv cpu n p) : ∀ c ∈ p.nvm.pend, 98 * 2 ^ 20 ≤ c.1 := by
  intro c hc
  obtain ⟨t, ht, _, rfl⟩ := hi.pending c hc
  exact initCopy_above (hi.wf.queued t ht).formatted

/-- In front of the index blocks everything is durable. -/
theorem PowerInv.durable_below (hi : PowerInv cpu n p) {b : Nat} (hb : b < 98 * 2 ^ 20) :
    p.nvm.durable b = p.w.zs.pm b := by
  rw [← hi.view, Nvm.view, storeAll_outside]
  rintro ⟨c, hc, hr⟩
  have habove := hi.pending_above c hc
  omega

/-- Without a commit a step fills index blocks at most. -/
theorem stepOps_idle {w : World} (hf : Formatted w.zs) (hno : committing w a = none) :
    ∃ l, stepOps w a = nodrains l ∧ ∀ c ∈ l, 98 * 2 ^ 20 ≤ c.1 := by
  have hnil : ∀ c ∈ ([] : List (Nat × List Byte)), 98 * 2 ^ 20 ≤ c.1 :=
    fun c hc => absurd hc List.not_mem_nil
  cases hr : callOf w a with
  | none => exact ⟨[], stepOps_nothing hno hr, hnil⟩
  | some r =>
    rw [stepOps_call hno hr, callOps]
    split
    · refine ⟨[initCopy w.zs], rfl, fun c hc => ?_⟩
      obtain rfl := List.mem_singleton.mp hc
      exact initCopy_above hf
    · exact ⟨[], rfl, hnil⟩

theorem PowerInv.clearing_above (hi : PowerInv cpu n p) :
    ∀ c ∈ clearing p.w a, 98 * 2 ^ 20 ≤ c.1 := by
  intro c hc
  obtain hc | hc := List.mem_append.mp hc
  · obtain ⟨t, ht, rfl⟩ := List.mem_map.mp hc
    exact initCopy_above (hi.wf.queued t (List.mem_filter.mp ht).1).formatted
  · split at hc
    · rename_i hno
      obtain ⟨l, hl, habove⟩ := stepOps_idle hi.wf.formatted hno
      rw [hl, copies_nodrains] at hc
      exact habove c hc
    · cases hc

/-- What is not drained between two steps. -/
theorem PowerInv.undrained (hi : PowerInv cpu n p) : ∀ c ∈ p.nvm.pend, c ∈ clearing p.w a := by
  intro c hc
  obtain ⟨t, ht, hop, rfl⟩ := hi.pending c hc
  exact List.mem_append_left _ (List.mem_map.mpr
    ⟨t, List.mem_filter.mpr ⟨ht, decide_eq_true hop⟩, rfl⟩)

/-- What is left of a step that commits nothing, or has not come to its commit: index blocks may be
torn. Of a commit: every index block is filled, and the copies of the transaction may be torn. -/
theorem PowerInv.remains (hi : PowerInv cpu n p) (hstop : p.Stops env a m) :
    LogClean (pmemOpen cpu) m ∧
    ((∃ us s, (∀ c ∈ us, c ∈ clearing p.w a) ∧ Torn p.nvm.durable us s ∧ EqOff (pmemOpen cpu) m s) ∨
      ∃ t, committing p.w a = some t ∧ (∃ w', step env a p.w = some w') ∧
        ∃ s, Torn p.w.zs.pm (targets (logOf (p.w.before t) (p.w.tx t).request)) s ∧
          EqOff (pmemOpen cpu) m s) := by
  obtain ⟨_, hlog⟩ := hi.log
  have hregion : pmLogRegionSize = 8192 := rfl
  -- copies behind the log regions leave the header alone
  have hclean : ∀ us, (∀ c ∈ us, c ∈ clearing p.w a) → ∀ s, Torn p.nvm.durable us s →
      LogClean (pmemOpen cpu) s := by
    intro us hus s ht
    refine clean_of_eq hi.clean (ht.outside _ ?_)
    rintro ⟨c, hc, hr⟩
    have habove := hi.clearing_above c (hus c hc)
    omega
  obtain hfail | ⟨hsome, hfail⟩ := hstop
  · have ht := @Nvm.Fails.nodrains _ _ _ [] hfail rfl
    rw [List.append_nil] at ht
    exact ⟨hclean _ hi.undrained m ht, Or.inl ⟨_, m, hi.undrained, ht, fun _ _ => rfl⟩⟩
  obtain ⟨w', hstep⟩ := Option.isSome_iff_exists.mp hsome
  cases hc : committing p.w a with
  | none =>
    obtain ⟨l, hl, _⟩ := stepOps_idle hi.wf.formatted hc
    have ht := hfail.nodrains hl
    have hus : ∀ c ∈ p.nvm.pend ++ l, c ∈ clearing p.w a := by
      intro c hmem
      obtain hmem | hmem := List.mem_append.mp hmem
      · exact hi.undrained c hmem
      · refine List.mem_append_right _ ?_
        rwa [if_pos hc, hl, copies_nodrains]
    exact ⟨hclean _ hus m ht, Or.inl ⟨_, m, hus, ht, fun _ _ => rfl⟩⟩
  | some t =>
    obtain ⟨x, hcom, ops⟩ := step_commits hi.wf hstep hc
    have ht : t ∈ p.w.zs.txList := by
      rw [hcom.head]
      exact List.mem_cons_self ..
    have hq := hi.wf.queued t ht
    obtain ⟨tx, hacc, hpm⟩ := hq.accepted
    obtain ⟨hb, hfit, _⟩ := hcom.built hi.wf
    have hout : ∀ b, Covers (targets (logOf (p.w.before t) (p.w.tx t).request)) b →
        ¬ InLog (pmemOpen cpu) b := by
      rintro b ⟨c, hc, hr⟩ hlogged
      have habove := hacc.target_above hq.formatted hc
      unfold InLog at hlogged
      omega
    have hlen := sealed_length hb hfit
    have hbody : (pmemOpen cpu).logRegionOfst + 64 +
        (load x.le 0 x.sealed.alignLength.toNat).length ≤ (pmemOpen cpu).logRegionOfst + pmLogRegionSize := by
      rw [load_length, hlen]
      unfold LogFits at hfit
      omega
    rw [hi.pmem] at ops
    have hsplit := hfail
    rw [ops, applyOps_eq hb] at hsplit
    obtain ht | hcrash := hsplit.persist
    · obtain ⟨s, hs, ht⟩ := ht.split
      have heq := eqOff_torn ht (Nat.le_add_right _ _) hbody
      refine ⟨clean_of_eq (hclean _ hi.undrained s hs) (ht.outside _ ?_),
        Or.inl ⟨_, s, hi.undrained, hs, heq⟩⟩
      rintro ⟨c, hc, hr⟩
      rw [List.mem_singleton] at hc
      subst hc
      simp only at hr
      omega
    · rw [← applyOps_eq hb, hi.view] at hcrash
      have hview : LogClean (pmemOpen cpu) p.w.zs.pm :=
        clean_of_eq hi.clean (hi.durable_below (by omega)).symm
      obtain ⟨hcl, k, s, hs, heq⟩ := survivor_torn hb hfit hout hview hcrash
      exact ⟨hcl, Or.inr ⟨t, rfl, ⟨w', hstep⟩, s, hs.of_take, heq⟩⟩

theorem inLog_word {x b : Nat} (hx : ¬ InLog (pmemOpen cpu) (8 * x))
    (hb : b / 8 = x) : ¬ InLog (pmemOpen cpu) b := by
  have h8 : (pmemOpen cpu).logRegionOfst % 8 = 0 := by
    simp only [pmemOpen, pmLogRegionSize]
    omega
  have hregion : pmLogRegionSize = 8192 := rfl
  unfold InLog at hx ⊢
  omega

theorem step_finish {w : World} (hw : WF w) (hstep : step env a w = some w') {t : Nat}
    (hc : committing w a = some t) : finish w.zs.pm (stepOps w a) = w'.zs.pm := by
  obtain ⟨x, hcom, ops⟩ := step_commits hw hstep hc
  obtain ⟨_, hzs⟩ := hcom.zs
  rw [ops, hzs]

/-- Every byte survives that is not about to be filled or copied. -/
theorem PowerInv.same_byte (hi : PowerInv cpu n p) (hstop : p.Stops env a m) {b : Nat}
    (hlog : ¬ InLog (pmemOpen cpu) b) (hclear : ¬ Covers (clearing p.w a) b)
    (hcom : ∀ t, committing p.w a = some t →
      ¬ Covers (targets (logOf (p.w.before t) (p.w.tx t).request)) b) : m b = p.w.zs.pm b := by
  obtain ⟨_, ⟨us, s, hus, hs, heq⟩ | ⟨t, hc, _, s, hs, heq⟩⟩ := hi.remains hstop
  · rw [heq b hlog, hs.outside, ← hi.view, Nvm.view, storeAll_outside]
    · rintro ⟨c, hc, hr⟩
      exact hclear ⟨c, hi.undrained c hc, hr⟩
    · rintro ⟨c, hc, hr⟩
      exact hclear ⟨c, hus c hc, hr⟩
  · exact (heq b hlog).trans (hs.outside b (hcom t hc))

/-- Of every word the contents before the step or behind it are left. -/
theorem PowerInv.words (hi : PowerInv cpu n p) (hstop : p.Stops env a m) :
    (∀ x, ¬ InLog (pmemOpen cpu) (8 * x) → (∀ c ∈ clearing p.w a, ¬ Touches x c) →
      SameWord m p.w.zs.pm x) ∨
    ∃ t w', committing p.w a = some t ∧ step env a p.w = some w' ∧
      ∀ x, ¬ InLog (pmemOpen cpu) (8 * x) → SameWord m p.w.zs.pm x ∨ SameWord m w'.zs.pm x := by
  obtain ⟨_, ⟨us, s, hus, hs, heq⟩ | ⟨t, hc, ⟨w', hstep⟩, s, hs, heq⟩⟩ := hi.remains hstop
  · refine Or.inl fun x hx hno b hb => ?_
    have hout : ∀ c ∈ clearing p.w a, ¬ (c.1 ≤ b ∧ b < c.1 + c.2.length) :=
      fun c hc hr => hno c hc ⟨b, hb, hr⟩
    rw [heq b (inLog_word hx hb), hs.outside, ← hi.view, Nvm.view, storeAll_outside]
    · rintro ⟨c, hc, hr⟩
      exact hout c (hi.undrained c hc) hr
    · rintro ⟨c, hc, hr⟩
      exact hout c (hus c hc) hr
  · obtain ⟨y, hcom, _⟩ := step_commits hi.wf hstep hc
    have hq := hi.wf.queued t (committing_queued hc)
    obtain ⟨tx, hacc, _⟩ := hq.accepted
    obtain ⟨_, _, himg⟩ := hcom.built hi.wf
    rw [hi.pmem] at himg
    refine Or.inr ⟨t, w', hc, hstep, fun x hx => ?_⟩
    have hword := @Torn.word _ _ _ x hs fun c hc d hd => hacc.target_unique hq.formatted hc hd
    refine hword.imp (fun h b hb => ?_) fun h b hb => ?_
    · exact (heq b (inLog_word hx hb)).trans (h b hb)
    · exact (heq b (inLog_word hx hb)).trans ((h b hb).trans (himg b (inLog_word hx hb)).symm)

theorem PowerInv.leaves (hi : PowerInv cpu n p) (hstop : p.Stops env a m) : Leaves p.w a m := by
  obtain hbefore | ⟨t, w', hc, hstep, hwithin⟩ := hi.words hstop
  · refine .before ?_
    rwa [hi.pmem]
  · refine .within (by rw [hc]; exact Option.some_ne_none _) ?_
    rwa [hi.pmem, step_finish hi.wf hstep hc]

/-- A step that changes no persistent memory. -/
theorem PowerInv.still (hi : PowerInv cpu n p) (hstep : step env a p.w = some w')
    (hpm : w'.zs.pm = p.w.zs.pm) (hpmem : w'.zs.pmem = p.w.zs.pmem) (hzsb : w'.zs.zsb = p.w.zs.zsb)
    (hlist : ∀ t ∈ p.w.zs.txList, t ∈ w'.zs.txList) : PowerInv cpu n ⟨w', p.nvm⟩ := by
  refine ⟨step_wf hi.wf hstep, step_coherent hi.wf hi.coherent hstep, hpmem.trans hi.pmem,
    hzsb.trans hi.zsb, hi.view.trans hpm.symm, hi.clean, hi.super, fun c hc => ?_⟩
  obtain ⟨t, ht, hop, rfl⟩ := hi.pending c hc
  obtain ⟨hreq, hbefore⟩ := hi.wf.keeps hstep t ht
  exact ⟨t, hlist t ht, by rw [hreq, hop], by rw [hbefore]⟩

theorem PowerInv.kept (hi : PowerInv cpu n p) (hstep : step env a p.w = some w') :
    PowerInv cpu n ⟨w', p.nvm.exec (stepOps p.w a)⟩ := by
  cases step_persists hi.wf hstep with
  | quiet hq _ ops =>
    rw [ops]
    exact hi.still hstep hq.zs.pm hq.zs.pmem hq.zs.zsb fun t ht => hq.zs.txList.symm ▸ ht
  | rejects r rc tx _ hr _ ops =>
    have hfr := (prepare_rejected hi.wf.formatted.shift hr.rc_ne hr.prepare).frame
    rw [ops]
    exact hi.still hstep (by rw [hfr]) (by rw [hfr]) (by rw [hfr]) fun t ht => by rw [hfr]; exact ht
  | accepts r zs tx _ ha _ ops =>
    rw [ops]
    obtain ⟨hop, hr, k, l, hzs⟩ | ⟨hacc, k, hzs⟩ := ha.kind
    · rw [if_neg (by rw [hop]; exact nofun)]
      refine hi.still hstep ?_ ?_ ?_ fun t ht => ?_
      all_goals rw [hzs, hr.store]
      exact ht
    · have hkeep : ∀ t ∈ p.w.zs.txList, t ∈ w'.zs.txList := by
        intro t ht
        rw [hzs, (hacc.formatted hi.wf.formatted).2.2.2.2.1]
        exact List.mem_append_left _ ht
      cases hacc with
      | write hop h =>
        rw [if_neg (by rw [hop]; exact nofun)]
        exact hi.still hstep (by rw [hzs, h.store]) (by rw [hzs, h.store]) (by rw [hzs, h.store]) hkeep
      | delete hop h =>
        rw [if_neg (by rw [hop]; exact nofun)]
        exact hi.still hstep (by rw [hzs, h.store]) (by rw [hzs, h.store]) (by rw [hzs, h.store]) hkeep
      | create hop h =>
        rw [if_pos hop]
        refine ⟨step_wf hi.wf hstep, step_coherent hi.wf hi.coherent hstep, ?_, ?_, ?_, hi.clean,
          hi.super, fun c hc => ?_⟩
        · rw [hzs, h.store]
          exact hi.pmem
        · rw [hzs, h.store]
          exact hi.zsb
        · rw [Nvm.exec_view, hi.view, hzs, h.store]
          rfl
        · obtain hc | hc := List.mem_append.mp hc
          · obtain ⟨t, ht, hcr, rfl⟩ := hi.pending c hc
            obtain ⟨hreq, hbefore⟩ := hi.wf.keeps hstep t ht
            exact ⟨t, hkeep t ht, by rw [hreq, hcr], by rw [hbefore]⟩
          · rw [List.mem_singleton] at hc
            subst hc
            refine ⟨p.w.zs.tidMax, ?_, ?_, ?_⟩
            · rw [hzs]
              exact List.mem_append_right _ (List.mem_singleton_self _)
            · rw [ha.request_self, hop]
            · rw [ha.before_self]
  | commits t x hcom hc ops =>
    obtain ⟨hb, hfit, himg⟩ := hcom.built hi.wf
    obtain ⟨k, hzs⟩ := hcom.zs
    have hfin : w'.zs.pm = finish p.w.zs.pm (applyOps p.w.zs.pmem x) := by rw [hzs]
    have hq := hi.wf.queued t (by rw [hcom.head]; exact List.mem_cons_self ..)
    obtain ⟨tx, hacc, _⟩ := hq.accepted
    rw [ops, exec_applyOps, hi.view, ← hfin]
    refine ⟨step_wf hi.wf hstep, step_coherent hi.wf hi.coherent hstep, ?_, ?_, rfl, ?_, ?_,
      fun c hc => absurd hc List.not_mem_nil⟩
    · rw [hzs]
      exact hi.pmem
    · rw [hzs]
      exact hi.zsb
    · rw [hfin, hi.pmem]
      exact applied_clean hb hfit _
    · refine (superblock_congr fun b hlt => ?_).trans hi.super
      obtain ⟨hlo, _⟩ := hi.log
      dsimp only
      rw [himg b (by rw [hi.pmem]; unfold InLog; omega), storeAll_outside, hi.durable_below (by omega)]
      rintro ⟨c, hc, hr⟩
      have habove := hacc.target_above hq.formatted hc
      omega

/-- Power failure leaves an image that can be mounted again. -/
theorem PowerInv.survives (hi : PowerInv cpu n p) (hstop : p.Stops env a m) :
    LogClean (pmemOpen cpu) m ∧ Superblock.read m = mkfsSuperblock n := by
  obtain ⟨hlo, hhi⟩ := hi.log
  refine ⟨(hi.remains hstop).1, (superblock_congr fun b hlt => ?_).trans hi.super⟩
  rw [hi.durable_below (by omega)]
  refine hi.same_byte hstop ?_ ?_ fun t hc => ?_
  · unfold InLog
    omega
  · rintro ⟨c, hc, hr⟩
    have habove := hi.clearing_above c hc
    omega
  · have hq := hi.wf.queued t (committing_queued hc)
    obtain ⟨tx, hacc, _⟩ := hq.accepted
    rintro ⟨c, hmem, hr⟩
    have habove := hacc.target_above hq.formatted hmem
    omega

/-- The onodes survive, unless one is about to be copied. -/
theorem PowerInv.onode (hi : PowerInv cpu n p) (hstop : p.Stops env a m) {oid : Nat} (ho : oid < 2 ^ 20)
    (hcom : ∀ t, committing p.w a = some t → (p.w.tx t).request.object ≠ oid) :
    onodeLine m oid = p.w.zs.onode oid := by
  obtain ⟨_, hhi⟩ := hi.log
  rw [← hi.coherent oid ho]
  refine lineAt_of_load (load_congr fun i hlt => hi.same_byte hstop ?_ ?_ fun t hc => ?_)
  · unfold InLog
    omega
  · rintro ⟨c, hc, hr⟩
    have habove := hi.clearing_above c hc
    omega
  · have hq := hi.wf.queued t (committing_queued hc)
    obtain ⟨tx, hacc, _⟩ := hq.accepted
    have hne := hcom t hc
    rintro ⟨c, hmem, hr⟩
    obtain ⟨k, hk, rfl⟩ | ⟨rfl, hidx⟩ | rfl | ⟨_, rfl⟩ := hacc.target_cases hq.formatted hmem
    all_goals
      simp only [lineBytes_length] at hr
      omega

/-- An image without a log can be mounted, and mounting leaves it as it is. -/
theorem mount_clean (hclean : LogClean (pmemOpen cpu) m) (hsuper : Superblock.read m = mkfsSuperblock n)
    (hfull : n % 512 = 0) (flags : BitVec 32) (h : MountMem) :
    ∃ zs, zstoreMount cpu flags h m = .ok zs ∧ zs.pm = m ∧ zs.zsb = mkfsSuperblock n :=
  mount_recovered hsuper hfull (recovered_clean h.stk hclean) flags

theorem mount_powerInv {flags : BitVec 32} {h : MountMem} {zs : ZstoreContext} (hcpu : cpu < 127)
    (hn : n ≤ 2 ^ 28) (hp : h.Placed) (hclean : LogClean (pmemOpen cpu) m)
    (hsuper : Superblock.read m = mkfsSuperblock n) (hm : zstoreMount cpu flags h m = .ok zs)
    (heap : Nat → ZstoreTransaction) : PowerInv cpu n ⟨World.mounted zs heap, ⟨zs.pm, []⟩⟩ := by
  have hf := zstoreMount_formatted hm hcpu hp hn hsuper
  obtain ⟨zs', hm', hpm, hzsb⟩ := mount_clean hclean hsuper (zstoreMount_size hm hsuper) flags h
  obtain rfl : zs = zs' := Except.ok.inj (hm.symm.trans hm')
  exact ⟨(zstoreMount_mounted hm hf heap).wf, zstoreMount_coherent hm hf, (zstoreMount_image hm).2.1,
    hzsb, rfl, hpm.symm ▸ hclean, hpm.symm ▸ hsuper, fun c hc => absurd hc List.not_mem_nil⟩

theorem PowerInv.powerStep {d : PowerAct} {p' : Powered} (hcpu : cpu < 127) (hn : n ≤ 2 ^ 28)
    (hi : PowerInv cpu n p) (hok : Powers env p d) (hs : powerStep env cpu d p = some p') :
    PowerInv cpu n p' := by
  cases d with
  | act a =>
    obtain ⟨w', hstep, rfl⟩ := Option.map_eq_some_iff.mp hs
    exact hi.kept hstep
  | outage a m flags h heap =>
    simp only [Store.powerStep, Option.map_eq_some_iff] at hs
    obtain ⟨zs, hm, rfl⟩ := hs
    obtain ⟨hclean, hsuper⟩ := hi.survives hok.1
    exact mount_powerInv hcpu hn hok.2 hclean hsuper (toOption_eq_some hm) heap

end Failure

section Outages

/-- In every run with any number of power failures the store can be mounted again after the next one.
It finds the onodes that it had, except for one that was about to be copied, and all the words of its
persistent memory: behind a failure in a commit, of before or of after the commit, and otherwise
except in index blocks that queued creates had not filled for sure. -/
theorem outage_survived (env : Env) (cpu n : Nat) (flags flags' : BitVec 32) (h h' : MountMem)
    (m0 m : Image) (zs0 : ZstoreContext) (heap heap' : Nat → ZstoreTransaction) (p : Powered) (a : Act)
    (hcpu : cpu < 127) (hn : n ≤ 2 ^ 28) (hp : h.Placed) (hp' : h'.Placed)
    (hclean : LogClean (pmemOpen cpu) m0) (hsuper : Superblock.read m0 = mkfsSuperblock n)
    (hm : zstoreMount cpu flags h m0 = .ok zs0)
    (hrun : Run (powerStep env cpu) (Powers env) ⟨World.mounted zs0 heap, ⟨zs0.pm, []⟩⟩ p)
    (hstop : p.Stops env a m) :
    ∃ zs, zstoreMount cpu flags' h' m = .ok zs ∧ Mounted (World.mounted zs heap') ∧
      zs.zsb = p.w.zs.zsb ∧ Leaves p.w a zs.pm ∧
      ∀ oid < 2 ^ 20, (∀ t, committing p.w a = some t → (p.w.tx t).request.object ≠ oid) →
        zs.onode oid = p.w.zs.onode oid := by
  have hi : PowerInv cpu n p := hrun.invariant (mount_powerInv hcpu hn hp hclean hsuper hm heap)
    fun _ _ _ hi hok hs => hi.powerStep hcpu hn hok hs
  obtain ⟨hclean', hsuper'⟩ := hi.survives hstop
  obtain ⟨zs, hzs, hpm, hzsb⟩ := mount_clean hclean' hsuper' (zstoreMount_size hm hsuper) flags' h'
  have hf := zstoreMount_formatted hzs hcpu hp' hn hsuper'
  refine ⟨zs, hzs, zstoreMount_mounted hzs hf heap', hzsb.trans hi.zsb.symm, ?_, fun oid ho hcom => ?_⟩
  · rw [hpm]
    exact hi.leaves hstop
  · rw [← zstoreMount_coherent hzs hf oid ho, hpm]
    exact hi.onode hstop ho hcom

theorem smallImage_clean : LogClean (pmemOpen 0) smallImage ∧
    Superblock.read smallImage = mkfsSuperblock 512 ∧
    zstoreMount 0 0 smallMem smallImage = .ok smallStore := by
  refine ⟨by decide +kernel, @superblock_read _ (fun _ => 0) 512 (by decide) fun a ha => ?_, ?_⟩
  · rw [smallImage, if_pos ha]
  · have himg : zstoreMkfs (fun _ => 0) (fun _ => 0) 512 0 (fun _ => 0xff) = smallImage := by
      funext a
      have hmin : min (2 ^ 28) 512 = 512 := by decide
      rw [zstoreMkfs_at (by decide), hmin, smallImage]
    rw [← himg]
    exact smallStore_mount

/-- Power fails in the commit of a create, in front of its first copy. The store is mounted, the create
is made again, and power fails there once more. -/
theorem twoOutages_survived : ∃ (p : Powered) (zs : ZstoreContext), committing p.w .resume = some 0 ∧
    zstoreMount 0 0 smallMem smallImage = .ok zs ∧ Leaves p.w .resume zs.pm := by
  have hrun : (step smallEnv (createObject 1) smallWorld).map (fun w =>
      decide (committing w .resume = some 0 ∧ (step smallEnv .resume w).isSome)) = some true := by
    decide +kernel
  obtain ⟨w, hw, hnext⟩ := Option.map_eq_some_iff.mp hrun
  obtain ⟨hcom, hsome⟩ := of_decide_eq_true hnext
  obtain ⟨hclean, hsuper, hmount⟩ := smallImage_clean
  have hplaced : smallMem.Placed := ⟨by decide, by decide⟩
  have hcreate : powerStep smallEnv 0 (.act (createObject 1)) ⟨smallWorld, ⟨smallImage, []⟩⟩ =
      some ⟨w, Nvm.exec ⟨smallImage, []⟩ (stepOps smallWorld (createObject 1))⟩ := by
    simp only [powerStep, hw, Option.map_some]
  generalize hd : Nvm.exec ⟨smallImage, []⟩ (stepOps smallWorld (createObject 1)) = d at hcreate
  have hstop : Powered.Stops smallEnv ⟨w, d⟩ .resume smallImage := by
    obtain ⟨l, hl, _⟩ := @stepOps_idle (createObject 1) smallWorld smallWorld_mounted.formatted rfl
    refine Or.inr ⟨hsome, ?_⟩
    rw [← hd, hl, Nvm.exec_nodrains]
    exact Crash.here _ _ _ _ (Torn.skip _ _)
  have houtage : powerStep smallEnv 0 (.outage .resume smallImage 0 smallMem smallWorld.tx) ⟨w, d⟩ =
      some ⟨smallWorld, ⟨smallImage, []⟩⟩ := by
    simp only [powerStep, hmount]
    rfl
  have hcreated : Run (powerStep smallEnv 0) (Powers smallEnv) ⟨smallWorld, ⟨smallImage, []⟩⟩ ⟨w, d⟩ :=
    .next (.act (createObject 1)) .start trivial hcreate
  have hok : Powers smallEnv ⟨w, d⟩ (.outage .resume smallImage 0 smallMem smallWorld.tx) := by
    unfold Powers
    exact ⟨hstop, hplaced⟩
  have hagain : Run (powerStep smallEnv 0) (Powers smallEnv) ⟨smallWorld, ⟨smallImage, []⟩⟩ ⟨w, d⟩ := by
    refine .next (.act (createObject 1)) (.next _ hcreated hok ?_) trivial hcreate
    exact houtage
  obtain ⟨zs, hzs, _, _, hleaves, _⟩ := outage_survived smallEnv 0 512 0 0 smallMem smallMem smallImage
    smallImage smallStore smallWorld.tx smallWorld.tx ⟨w, d⟩ .resume (by decide) (by decide) hplaced
    hplaced hclean hsuper hmount hagain hstop
  exact ⟨_, zs, hcom, hzs, hleaves⟩

end Outages
end ZCell.Store
