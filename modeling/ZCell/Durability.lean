import ZCell.PowerFailure
import ZCell.ReadBack

/-! Read after write across power failures. What the clients have written and seen committed is still
there after the next mount; of the request that power failure interrupts, an index entry tells which
contents its block has. -/
namespace ZCell.Store
open Bytes Persist Pm Allocator Runs

/-- The host with the persistent memory, and the history as it was before the queued request. -/
structure Node where
  h : Host
  nvm : Nvm
  prior : Nat → Nat → Option (List Byte)

def Node.powered (n : Node) : Powered := ⟨n.h.w, n.nvm⟩

/-- The index word of block `j` of object `o`. -/
def entryOf (zs : ZstoreContext) (pm : Image) (o j : Nat) : BitVec 32 :=
  indexWord pm (1024 * (zs.onode o).dataIdxId + j)

/-- What a power failure leaves of the history. The entries of an interrupted write show whether they
have been copied, unless its new blocks are the old ones; an interrupted create or delete is undone
when the onode is the old one. -/
def Node.recalled (n : Node) (zs : ZstoreContext) (o j : Nat) : Option (List Byte) :=
  match n.h.w.zs.txList.head? with
  | none => n.h.last o j
  | some t =>
    let r := (n.h.w.tx t).request
    if r.op = .write then
      if r.Covers o j then
        if (entryOf n.h.w.zs n.h.w.zs.pm o j).toNat ∈ newBlocks (n.h.w.before t) r then none
        else if entryOf n.h.w.zs zs.pm o j = entryOf n.h.w.zs n.h.w.zs.pm o j then n.prior o j
        else n.h.last o j
      else n.h.last o j
    else if o = r.object then
      if zs.onode o = n.h.w.zs.onode o then n.prior o j else none
    else n.h.last o j

/-- The host goes on, or power fails in the step `a` or in front of it, and the store is mounted again. -/
inductive NodeAct where
  | host (d : HostAct)
  | outage (a : Act) (m : Image) (flags : BitVec 32) (mem : MountMem) (heap : Nat → ZstoreTransaction)
      (ram : Image)

def nodeStep (env : Env) (cpu : Nat) (d : NodeAct) (n : Node) : Option Node :=
  match d with
  | .host (.act a) => (hostStep env (.act a) n.h).map fun h =>
    { h := h
      nvm := n.nvm.exec (stepOps n.h.w a)
      prior := if n.h.w.zs.tidMax ∈ h.w.accepted then n.h.last else n.prior }
  | .host d => (hostStep env d n.h).map fun h => { n with h := h }
  | .outage _ m flags mem heap ram => (zstoreMount cpu flags mem m).toOption.map fun zs =>
    { h := { n.h with w := World.mounted zs heap, ram := ram, last := n.recalled zs }
      nvm := ⟨zs.pm, []⟩
      prior := fun _ _ => none }

/-- Power failure tears no onode. -/
def OnodeWhole (w : World) (a : Act) (m : Image) : Prop :=
  ∀ t, committing w a = some t →
    onodeLine m (w.tx t).request.object = w.zs.onode (w.tx t).request.object ∨
    onodeLine m (w.tx t).request.object = loggedOnode (w.before t) (w.tx t).request

def NodeFits (env : Env) (n : Node) : NodeAct → Prop
  | .host d => HostFits n.h d
  | .outage a m flags mem _ _ => HostFits n.h (.act a) ∧ n.powered.Stops env a m ∧ mem.Placed ∧
    OnodeWhole n.h.w a m ∧ flags &&& zstoreEnableTrim = 0

structure NodeInv (env : Env) (cpu k : Nat) (n : Node) : Prop where
  host : HostInv env n.h
  power : PowerInv cpu k n.powered
  /-- The history before the queued request is still on the device, outside of the blocks that the
  request moves its data to. -/
  prior : ∀ t ∈ n.h.w.zs.txList, ∀ o j v, n.prior o j = some v →
    ∃ b, MapsTo n.h.w.zs (o, j) b ∧ (b ∉ n.h.w.movedBlocks t → blockAt n.h.disk b = v)

section Entries
variable {env : Env} {cpu k : Nat} {n : Node} {a : Act} {m : Image}

/-- No index block of an object is being filled. -/
theorem NodeInv.uncleared (hi : NodeInv env cpu k n) (hok : HostFits n.h (.act a)) {o j : Nat}
    (hv : Valid n.h.w.zs.onode o) (hj : j < 1024) {b : Nat}
    (hb : b / 8 = (98 * 2 ^ 20 + 4 * (1024 * (n.h.w.zs.onode o).dataIdxId + j)) / 8) :
    ∀ c ∈ clearing n.h.w a, ¬ (c.1 ≤ b ∧ b < c.1 + c.2.length) := by
  have hlen : ∀ zs, (initCopy zs).2.length = 4096 := fun zs => List.length_replicate
  -- the block of the copy is another one
  have hapart : ∀ zs, Formatted zs → (n.h.w.zs.onode o).dataIdxId ≠ newIndex zs →
      ¬ ((initCopy zs).1 ≤ b ∧ b < (initCopy zs).1 + (initCopy zs).2.length) := by
    intro zs hf hne
    rw [hlen]
    simp only [initCopy, hf.dySpace, zstorePageSize]
    omega
  have hf := hi.power.wf.formatted
  intro c hc
  obtain hc | hc := List.mem_append.mp hc
  · obtain ⟨t, ht, rfl⟩ := List.mem_map.mp hc
    obtain ⟨ht, hop⟩ := List.mem_filter.mp ht
    have hop := of_decide_eq_true hop
    have hch := hi.host.data.changing t ht (by rw [hop]; decide)
    exact hapart _ (hi.power.wf.queued t ht).formatted (hch.index hop o hv)
  · split at hc
    · rename_i hno
      cases hr : callOf n.h.w a with
      | none =>
        rw [stepOps_nothing hno hr] at hc
        cases hc
      | some r =>
        rw [stepOps_call hno hr, callOps] at hc
        split at hc
        · rename_i hcr
          obtain ⟨hop, _, hinv, hzero⟩ := hcr
          obtain rfl := List.mem_singleton.mp hc
          exact hapart _ hf ((hok r hr).index hop hinv ((alloc_zero_iff (Nat.le_refl 1)).mp hzero) o hv)
        · cases hc
    · cases hc

/-- The entry is as before the step or as behind it. -/
theorem NodeInv.entry (hi : NodeInv env cpu k n) (hok : HostFits n.h (.act a))
    (hstop : n.powered.Stops env a m) {o j : Nat} (hv : Valid n.h.w.zs.onode o) (hj : j < 1024) :
    entryOf n.h.w.zs m o j = entryOf n.h.w.zs n.h.w.zs.pm o j ∨
    ∃ t w', committing n.h.w a = some t ∧ step env a n.h.w = some w' ∧
      entryOf n.h.w.zs m o j = entryOf n.h.w.zs w'.zs.pm o j := by
  obtain ⟨_, hlog⟩ := hi.power.log
  have hout : ¬ InLog (pmemOpen cpu)
      (8 * ((98 * 2 ^ 20 + 4 * (1024 * (n.h.w.zs.onode o).dataIdxId + j)) / 8)) := by
    unfold InLog
    omega
  have hword : ∀ img : Image, SameWord m img
      ((98 * 2 ^ 20 + 4 * (1024 * (n.h.w.zs.onode o).dataIdxId + j)) / 8) →
      entryOf n.h.w.zs m o j = entryOf n.h.w.zs img o j := by
    intro img hs
    refine wordAt_of_load (load_congr fun i hi => hs _ ?_)
    omega
  obtain hbefore | ⟨t, w', hc, hstep, hwithin⟩ := hi.power.words hstop
  · refine Or.inl (hword _ (hbefore _ hout fun c hc => ?_))
    rintro ⟨b, hb, hr⟩
    exact hi.uncleared hok hv hj hb c hc hr
  · exact (hwithin _ hout).imp (hword _) fun hs => ⟨t, w', hc, hstep, hword _ hs⟩

end Entries

section Outage
variable {env : Env} {cpu k : Nat} {n : Node} {a : Act} {m : Image} {zs : ZstoreContext}

/-- What a mount finds after a power failure. -/
structure Remounted (n : Node) (a : Act) (zs : ZstoreContext) : Prop where
  onode : ∀ oid < 2 ^ 20, (∀ t, committing n.h.w a = some t → (n.h.w.tx t).request.object ≠ oid) →
    zs.onode oid = n.h.w.zs.onode oid
  whole : ∀ t, committing n.h.w a = some t →
    zs.onode (n.h.w.tx t).request.object = n.h.w.zs.onode (n.h.w.tx t).request.object ∨
    zs.onode (n.h.w.tx t).request.object = loggedOnode (n.h.w.before t) (n.h.w.tx t).request

theorem NodeInv.remounted (hi : NodeInv env cpu k n) (hstop : n.powered.Stops env a m)
    (hwhole : OnodeWhole n.h.w a m) (hpm : zs.pm = m) (hc : Coherent zs) : Remounted n a zs := by
  refine ⟨fun oid ho hno => ?_, fun t ht => ?_⟩
  · rw [← hc oid ho, hpm]
    exact hi.power.onode hstop ho hno
  · have hq := hi.host.flights.fifo.wf.queued t (committing_queued ht)
    obtain ⟨tx, hacc, _⟩ := hq.accepted
    rw [← hc _ (hacc.object_lt hq.formatted), hpm]
    exact hwhole t ht

/-- The queue has one transaction at most. -/
theorem HostInv.head (hi : HostInv env n.h) {t : Nat} (ht : t ∈ n.h.w.zs.txList) :
    n.h.w.zs.txList.head? = some t := by
  cases hl : n.h.w.zs.txList with
  | nil =>
    rw [hl] at ht
    cases ht
  | cons u us =>
    have hu : u ∈ n.h.w.zs.txList := by
      rw [hl]
      exact List.mem_cons_self ..
    rw [hi.single t u (Or.inl ht) (Or.inl hu)]
    rfl

/-- A write leaves all onodes alone. -/
theorem NodeInv.onode_write (hi : NodeInv env cpu k n) (hr : Remounted n a zs) {t : Nat}
    (ht : t ∈ n.h.w.zs.txList) (hop : (n.h.w.tx t).request.op = .write) :
    ∀ oid < 2 ^ 20, zs.onode oid = n.h.w.zs.onode oid := by
  intro oid ho
  by_cases hcom : ∃ u, committing n.h.w a = some u ∧ (n.h.w.tx u).request.object = oid
  · obtain ⟨u, hc, rfl⟩ := hcom
    obtain rfl := hi.host.single t u (Or.inl ht) (Or.inl (committing_queued hc))
    obtain h | h := hr.whole t hc
    · exact h
    · rw [h]
      simp only [loggedOnode, hop]
      exact (hi.host.data.writing t ht hop).snapshot
  · exact hr.onode oid ho fun u hc heq => hcom ⟨u, hc, heq⟩

/-- An entry that is as before maps what it mapped. -/
theorem maps_survives {w : World} {o j b : Nat} (hm : MapsTo w.zs (o, j) b)
    (hon : zs.onode o = w.zs.onode o) (he : entryOf w.zs zs.pm o j = entryOf w.zs w.zs.pm o j) :
    MapsTo zs (o, j) b := hm.congr hon he

/-- The entries outside of the range of the queued write. -/
theorem NodeInv.maps_beside (hi : NodeInv env cpu k n) (hok : HostFits n.h (.act a))
    (hstop : n.powered.Stops env a zs.pm) {o j b : Nat} (hm : MapsTo n.h.w.zs (o, j) b)
    (hon : zs.onode o = n.h.w.zs.onode o)
    (hcov : ∀ t ∈ n.h.w.zs.txList, ¬ (n.h.w.tx t).request.Covers o j) : MapsTo zs (o, j) b := by
  refine maps_survives hm hon ?_
  obtain he | ⟨t, w', hc, hstep, he⟩ := hi.entry hok hstop hm.1 hm.2.1
  · exact he
  · have ht := committing_queued hc
    obtain ⟨x, hcom, _⟩ := step_commits hi.host.flights.fifo.wf hstep hc
    have hsame : entryOf n.h.w.zs w'.zs.pm o j = entryOf n.h.w.zs n.h.w.zs.pm o j := by
      by_cases hop : (n.h.w.tx t).request.op = .write
      · obtain ⟨_, _, _, hb⟩ := hi.host.maps_beside hcom hop hm (hcov t ht)
        rw [hi.host.onode_written hcom hop o hm.1.1] at hb
        exact BitVec.eq_of_toNat_eq (hb.trans hm.2.2.2.symm)
      · have heff := (hcom.effect hi.host.flights.fifo.wf).index
        rw [entryOf, heff, if_neg fun hc => hop hc.1]
        rfl
    rw [he, hsame]

/-- An entry of the queued write maps the block of before, or the one that the data has gone to. -/
theorem NodeInv.covered_kept (hi : NodeInv env cpu k n) (hok : HostFits n.h (.act a))
    (hstop : n.powered.Stops env a zs.pm) (hon : ∀ oid < 2 ^ 20, zs.onode oid = n.h.w.zs.onode oid)
    {t o j : Nat} {v : List Byte} (ht : t ∈ n.h.w.zs.txList) (hcov : (n.h.w.tx t).request.Covers o j)
    (hv : (if (entryOf n.h.w.zs n.h.w.zs.pm o j).toNat ∈ newBlocks (n.h.w.before t) (n.h.w.tx t).request
      then none else if entryOf n.h.w.zs zs.pm o j = entryOf n.h.w.zs n.h.w.zs.pm o j then n.prior o j
      else n.h.last o j) = some v) : ∃ b, MapsTo zs (o, j) b ∧ blockAt n.h.disk b = v := by
  have hop := hcov.1
  split at hv
  · cases hv
  · rename_i hfresh
    split at hv
    · rename_i hsame
      obtain ⟨b, hm, hb⟩ := hi.prior t ht o j v hv
      refine ⟨b, maps_survives hm (hon o hm.1.1) hsame, hb ?_⟩
      rw [World.movedBlocks, hop]
      have hword : (entryOf n.h.w.zs n.h.w.zs.pm o j).toNat = b := hm.2.2.2
      rwa [hword] at hfresh
    · rename_i hdiff
      obtain ⟨tx, hwr⟩ := hi.host.flights.written ht hop
      have hf := (hi.host.flights.fifo.wf.queued t ht).formatted
      have hrange := hwr.range_le hf
      have hlt := hwr.oid_lt hf
      obtain ⟨_, rfl, _, hj⟩ := hcov
      have hvalid : Valid n.h.w.zs.onode (n.h.w.tx t).request.object := by
        refine ⟨?_, (hi.host.data.writing t ht hop).valid⟩
        rw [hwr.object_eq hf]
        exact hlt
      have hlt : j < 1024 := by omega
      obtain he | ⟨u, w', hc, hstep, he⟩ := hi.entry hok hstop hvalid hlt
      · exact absurd he hdiff
      · obtain rfl := hi.host.single t u (Or.inl ht) (Or.inl (committing_queued hc))
        obtain ⟨x, hcom, _⟩ := step_commits hi.host.flights.fifo.wf hstep hc
        obtain ⟨hnil, _⟩ := hi.host.drained hcom hstep
        obtain ⟨b, hm, hb⟩ := (hi.host.dataCommit hcom hstep).kept _ j v hv fun u hu => by
          rw [hnil] at hu
          cases hu
        have hwritten := hi.host.onode_written hcom hop _ hvalid.1
        refine ⟨b, hm.congr ((hon _ hvalid.1).trans hwritten.symm) ?_, hb⟩
        simp only [hwritten]
        exact he

/-- What is recalled of the history is on the device. -/
theorem NodeInv.recalled_kept (hi : NodeInv env cpu k n) (hok : HostFits n.h (.act a))
    (hstop : n.powered.Stops env a zs.pm) (hr : Remounted n a zs) (o j : Nat) (v : List Byte)
    (hv : n.recalled zs o j = some v) : ∃ b, MapsTo zs (o, j) b ∧ blockAt n.h.disk b = v := by
  cases hl : n.h.w.zs.txList with
  | nil =>
    -- everything that was accepted has been committed
    have hnone : ∀ t, t ∉ n.h.w.zs.txList := by
      intro t ht
      rw [hl] at ht
      cases ht
    simp only [Node.recalled, hl, List.head?_nil] at hv
    obtain ⟨b, hm, hb⟩ := hi.host.data.kept o j v hv fun t ht => absurd ht (hnone t)
    have hon := hr.onode o hm.1.1 fun t hc => absurd (committing_queued hc) (hnone t)
    exact ⟨b, hi.maps_beside hok hstop hm hon fun t ht => absurd ht (hnone t), hb⟩
  | cons t rest =>
    have ht : t ∈ n.h.w.zs.txList := by
      rw [hl]
      exact List.mem_cons_self ..
    have hsame : ∀ u ∈ n.h.w.zs.txList, u = t := fun u hu => hi.host.single u t (Or.inl hu) (Or.inl ht)
    simp only [Node.recalled, hl, List.head?_cons] at hv
    by_cases hop : (n.h.w.tx t).request.op = .write
    · have hon := hi.onode_write hr ht hop
      rw [if_pos hop] at hv
      by_cases hcov : (n.h.w.tx t).request.Covers o j
      · rw [if_pos hcov] at hv
        exact hi.covered_kept hok hstop hon ht hcov hv
      · rw [if_neg hcov] at hv
        have hcov' : ∀ u ∈ n.h.w.zs.txList, ¬ (n.h.w.tx u).request.Covers o j := by
          intro u hu
          rwa [hsame u hu]
        obtain ⟨b, hm, hb⟩ := hi.host.data.kept o j v hv hcov'
        exact ⟨b, hi.maps_beside hok hstop hm (hon o hm.1.1) hcov', hb⟩
    · have hcov : ∀ u ∈ n.h.w.zs.txList, ¬ (n.h.w.tx u).request.Covers o j := by
        intro u hu hc
        rw [hsame u hu] at hc
        exact hop hc.1
      rw [if_neg hop] at hv
      by_cases ho : o = (n.h.w.tx t).request.object
      · rw [if_pos ho] at hv
        split at hv
        · rename_i hon
          obtain ⟨b, hm, hb⟩ := hi.prior t ht o j v hv
          refine ⟨b, hi.maps_beside hok hstop hm hon hcov, hb ?_⟩
          unfold World.movedBlocks
          split
          · rename_i hread
            exact absurd hread (hi.host.flights.queued_op ht)
          · rename_i hwrite
            exact absurd hwrite hop
          · exact List.not_mem_nil
        · cases hv
      · rw [if_neg ho] at hv
        obtain ⟨b, hm, hb⟩ := hi.host.data.kept o j v hv hcov
        have hon := hr.onode o hm.1.1 fun u hc heq => ho ?_
        · exact ⟨b, hi.maps_beside hok hstop hm hon hcov, hb⟩
        · rw [← heq, hsame u (committing_queued hc)]

/-- The index blocks of the objects are still apart. -/
theorem NodeInv.index_outage (hi : NodeInv env cpu k n) (hstop : n.powered.Stops env a zs.pm)
    (hr : Remounted n a zs) (hco : Coherent zs) : IndexApart zs := by
  have hold : (∀ oid < 2 ^ 20, zs.onode oid = n.h.w.zs.onode oid) → IndexApart zs := by
    intro hsame o u ho hu heq
    rw [hsame o ho.1, hsame u hu.1] at heq
    exact hi.host.index o u ((valid_congr hsame o).mp ho) ((valid_congr hsame u).mp hu) heq
  obtain ⟨_, hlog⟩ := hi.power.log
  obtain hbefore | ⟨t, w', hc, hstep, _⟩ := hi.power.words hstop
  · refine hold fun oid ho => ?_
    have hold : onodeLine n.h.w.zs.pm oid = n.h.w.zs.onode oid := hi.power.coherent oid ho
    rw [← hco oid ho, ← hold]
    refine lineAt_of_load (load_congr fun i hlt => hbefore _ ?_ (fun c hc => ?_) _ rfl)
    · unfold InLog
      omega
    · have habove := hi.power.clearing_above c hc
      rintro ⟨b, hb, hr⟩
      omega
  · have hc : committing n.h.w a = some t := hc
    by_cases hsame : zs.onode (n.h.w.tx t).request.object = n.h.w.zs.onode (n.h.w.tx t).request.object
    · refine hold fun oid ho => ?_
      by_cases heq : (n.h.w.tx t).request.object = oid
      · rw [← heq]
        exact hsame
      · refine hr.onode oid ho fun u hu => ?_
        rw [hc] at hu
        obtain rfl := Option.some.inj hu
        exact heq
    · -- the onodes are those behind the commit
      obtain ⟨x, hcom, _⟩ := step_commits hi.host.flights.fifo.wf hstep hc
      have heff := hcom.effect hi.host.flights.fifo.wf
      have hnew : ∀ u < 2 ^ 20, zs.onode u = w'.zs.onode u := by
        intro u hu
        rw [heff.onode u hu]
        split
        · rename_i heq
          rw [heq]
          exact (hr.whole t hc).resolve_left hsame
        · rename_i hother
          refine hr.onode u hu fun t' hc' heq => hother ?_
          rw [hc] at hc'
          obtain rfl := Option.some.inj hc'
          exact heq.symm
      intro o u ho hu heq
      rw [hnew o ho.1, hnew u hu.1] at heq
      exact hi.host.index_commit hcom o u ((valid_congr hnew o).mp ho) ((valid_congr hnew u).mp hu) heq

/-- A mounted store whose history is on the device. -/
theorem Mounted.hostInv_kept {h : Host} (hm : Mounted h.w) (htrim : h.w.zs.mntFlag &&& zstoreEnableTrim = 0)
    (hindex : IndexApart h.w.zs)
    (hkept : ∀ o j v, h.last o j = some v → ∃ b, MapsTo h.w.zs (o, j) b ∧ blockAt h.disk b = v) :
    HostInv env h := by
  have hnone : ∀ t, ¬ h.w.Live t := by
    intro t ht
    rw [World.Live, hm.txList, hm.txRdonlyList] at ht
    exact ht.elim List.not_mem_nil List.not_mem_nil
  have hflight : ∀ f, f ∉ h.w.flight := by
    intro f hf
    rw [hm.flight] at hf
    cases hf
  refine ⟨⟨hm.fifoInv, fun f hf => absurd hf (hflight f)⟩, htrim, hindex,
    fun t _ ht => absurd ht (hnone t), fun f hf => absurd hf (hflight f), ?_, fun t ht => ?_⟩
  · exact ⟨fun t ht => absurd ht (hnone t), fun t ht => absurd (Or.inl ht) (hnone t),
      fun t ht => absurd (Or.inl ht) (hnone t), fun o j v hv _ => hkept o j v hv,
      fun t ht => absurd (Or.inr ht) (hnone t)⟩
  · rw [hm.log] at ht
    cases ht

end Outage

section Steps
variable {env : Env} {cpu k : Nat} {n n' : Node} {a : Act}

/-- The history before a queued request survives a step that changes neither the queue nor the place
of the data, and only moves data to the blocks of the request. -/
theorem NodeInv.prior_keep (hi : NodeInv env cpu k n) {w' : World} {disk : Image}
    (hlist : w'.zs.txList = n.h.w.zs.txList) (hon : w'.zs.onode = n.h.w.zs.onode)
    (hpm : w'.zs.pm = n.h.w.zs.pm)
    (hmoved : ∀ t ∈ n.h.w.zs.txList, w'.movedBlocks t = n.h.w.movedBlocks t)
    (hdisk : ∀ t ∈ n.h.w.zs.txList, ∀ b, b ∉ n.h.w.movedBlocks t →
      blockAt disk b = blockAt n.h.disk b) :
    ∀ t ∈ w'.zs.txList, ∀ o j v, n.prior o j = some v →
      ∃ b, MapsTo w'.zs (o, j) b ∧ (b ∉ w'.movedBlocks t → blockAt disk b = v) := by
  intro t ht o j v hv
  rw [hlist] at ht
  obtain ⟨b, hm, hb⟩ := hi.prior t ht o j v hv
  refine ⟨b, (mapsTo_congr hon hpm (o, j) b).mpr hm, fun hno => ?_⟩
  rw [hmoved t ht] at hno
  exact (hdisk t ht b hno).trans (hb hno)

/-- A bio changes only the blocks that its transaction moves data to. -/
theorem HostInv.confined_blocks {h : Host} {f : Flight} {disk ram : Image} (hi : HostInv env h)
    (hf : f ∈ h.w.flight) (hc : Confined f h.disk h.ram disk ram) {t : Nat} (ht : t ∈ h.w.zs.txList)
    {b : Nat} (hb : b ∉ h.w.movedBlocks t) : blockAt disk b = blockAt h.disk b := by
  refine hc.disk b ?_
  obtain rfl := hi.single t f.tid (Or.inl ht) (hi.flights.flight_live hf)
  obtain ⟨hty, _⟩ | ⟨hty, hop⟩ := (hi.serves f hf).kind
  · exact Or.inl hty
  · refine Or.inr fun hcov => hb ?_
    rw [World.movedBlocks, hop]
    obtain ⟨ht', htype⟩ | ⟨hrd, _⟩ := hi.flights.listed hf
    · obtain ⟨_, ⟨_, hblocks⟩ | ⟨htrim, _⟩⟩ := (hi.flights.carries f hf).write htype
      · exact hblocks b hcov
      · rw [htrim] at hty
        cases hty
    · rw [hi.flights.read_op hrd] at hop
      cases hop

/-- The history that is kept when a request is accepted. -/
theorem NodeInv.prior_enter (hi : NodeInv env cpu k n) (hok : HostFits n.h (.act a)) {w' : World}
    (hstep : step env a n.h.w = some w') (hin : n.h.w.zs.tidMax ∈ w'.accepted) :
    ∀ t ∈ w'.zs.txList, ∀ o j v, n.h.last o j = some v →
      ∃ b, MapsTo w'.zs (o, j) b ∧ blockAt n.h.disk b = v := by
  have hw := hi.host.flights.fifo.wf
  have hold : w'.accepted ≠ n.h.w.accepted := by
    intro heq
    rw [heq] at hin
    exact Nat.lt_irrefl _ (hi.host.flights.fifo.logged.1 _ hin)
  intro t _ o j v hv
  obtain hq | ⟨r, hr, ⟨rc, tx, hrej⟩ | ⟨zs, tx, ha⟩⟩ | ⟨tid, p, hc⟩ := step_cases hw hstep
  · exact absurd hq.accepted hold
  · exact absurd hrej.accepted hold
  · have hfit := hok r hr
    obtain ⟨b, hm, hb⟩ := hi.host.recorded hfit.idle.1 hv
    have hon := congrFun (ha.onode hw.formatted) o
    refine ⟨b, hm.congr hon ?_, hb⟩
    obtain ⟨_, hread, _, _, hzs⟩ | ⟨hacc, _, hzs⟩ := ha.kind
    · rw [hzs, hread.store]
    · rw [hzs]
      by_cases hop : r.op = .write
      · cases hacc with
        | write _ h => rw [h.store]
        | create h _ =>
          rw [hop] at h
          cases h
        | delete h _ =>
          rw [hop] at h
          cases h
      · exact hi.host.maps_changed hacc hfit hop hm
  · exact absurd hc.accepted hold

/-- A step that accepts nothing. -/
theorem NodeInv.prior_onward (hi : NodeInv env cpu k n) {w' : World}
    (hstep : step env a n.h.w = some w') (hno : n.h.w.zs.tidMax ∉ w'.accepted) :
    ∀ t ∈ w'.zs.txList, ∀ o j v, n.prior o j = some v →
      ∃ b, MapsTo w'.zs (o, j) b ∧ (b ∉ w'.movedBlocks t → blockAt (n.h.moved a).1 b = v) := by
  have hw := hi.host.flights.fifo.wf
  have hmoved : ∀ t ∈ n.h.w.zs.txList, w'.movedBlocks t = n.h.w.movedBlocks t := by
    intro t ht
    obtain ⟨hreq, hbefore⟩ := hw.keeps hstep t ht
    simp only [World.movedBlocks, hreq, hbefore]
  have hdisk : ∀ t ∈ n.h.w.zs.txList, ∀ b, b ∉ n.h.w.movedBlocks t →
      blockAt (n.h.moved a).1 b = blockAt n.h.disk b := by
    intro t ht b hb
    obtain ⟨i, f, hdone, hf, _⟩ | ⟨hdone, _⟩ := step_flight hw hstep
    · rw [Host.moved, hdone]
      exact hi.host.confined_blocks (List.mem_of_getElem? hf) (transfer_confined f n.h.disk n.h.ram) ht hb
    · rw [Host.moved, hdone]
  obtain hq | ⟨r, _, ⟨rc, tx, hr⟩ | ⟨zs, tx, ha⟩⟩ | ⟨tid, p, hc⟩ := step_cases hw hstep
  · exact hi.prior_keep hq.zs.txList (funext (onode_congr hq.zs.mem hq.zs.otable)) hq.zs.pm hmoved hdisk
  · have hfr := (prepare_rejected hw.formatted.shift hr.rc_ne hr.prepare).frame
    refine hi.prior_keep ?_ ?_ ?_ hmoved hdisk
    · rw [hfr]
    · rw [hfr]
      rfl
    · rw [hfr]
  · exact absurd ha.mem_accepted hno
  · intro t ht
    rw [(hi.host.drained hc hstep).1] at ht
    cases ht

theorem NodeInv.host_step {d : HostAct} (hi : NodeInv env cpu k n) (hok : HostFits n.h d)
    (hs : nodeStep env cpu (.host d) n = some n') : NodeInv env cpu k n' := by
  cases d with
  | act a =>
    simp only [nodeStep, Option.map_eq_some_iff] at hs
    obtain ⟨h', hs, rfl⟩ := hs
    have hhost := hi.host.step hok hs
    obtain ⟨w', hstep, rfl⟩ := Option.map_eq_some_iff.mp hs
    refine ⟨hhost, hi.power.kept hstep, ?_⟩
    by_cases hin : n.h.w.zs.tidMax ∈ w'.accepted
    · obtain ⟨_, hstill⟩ := hi.host.entering hok hstep hin
      simp only [if_pos hin, hstill]
      intro t ht o j v hv
      obtain ⟨b, hm, hb⟩ := hi.prior_enter hok hstep hin t ht o j v hv
      exact ⟨b, hm, fun _ => hb⟩
    · simp only [if_neg hin]
      exact hi.prior_onward hstep hin
  | media i c v =>
    simp only [nodeStep, Option.map_eq_some_iff] at hs
    obtain ⟨h', hs, rfl⟩ := hs
    have hhost := hi.host.step hok hs
    simp only [hostStep] at hs
    split at hs
    · cases hs
    · rename_i f hf
      split at hs
      · rename_i hsize
        obtain rfl := Option.some.inj hs
        refine ⟨hhost, hi.power, hi.prior_keep rfl rfl rfl (fun _ _ => rfl) fun t ht b hb => ?_⟩
        exact hi.host.confined_blocks (List.mem_of_getElem? hf)
          (scribble_confined f hsize v n.h.disk n.h.ram) ht hb
      · cases hs
  | user c v =>
    simp only [nodeStep, Option.map_eq_some_iff] at hs
    obtain ⟨h', hs, rfl⟩ := hs
    have hhost := hi.host.step hok hs
    obtain rfl := Option.some.inj hs
    exact ⟨hhost, hi.power, hi.prior_keep rfl rfl rfl (fun _ _ => rfl) fun _ _ _ _ => rfl⟩

theorem zstoreMount_mntFlag {flags : BitVec 32} {mem : MountMem} {m : Image} {zs : ZstoreContext}
    (hm : zstoreMount cpu flags mem m = .ok zs) : zs.mntFlag = flags := by
  simp only [zstoreMount] at hm
  split at hm
  · cases hm
  · split at hm
    · cases hm
    · split at hm
      · cases hm
      · split at hm
        · cases hm
        · obtain rfl := Except.ok.inj hm
          rfl

theorem NodeInv.outage {m : Image} {flags : BitVec 32} {mem : MountMem}
    {heap : Nat → ZstoreTransaction} {ram : Image} (hcpu : cpu < 127) (hk : k ≤ 2 ^ 28)
    (hi : NodeInv env cpu k n) (hok : NodeFits env n (.outage a m flags mem heap ram))
    (hs : nodeStep env cpu (.outage a m flags mem heap ram) n = some n') : NodeInv env cpu k n' := by
  obtain ⟨hfits, hstop, hp, hwhole, htrim⟩ := hok
  simp only [nodeStep, Option.map_eq_some_iff] at hs
  obtain ⟨zs, hm, rfl⟩ := hs
  have hm := toOption_eq_some hm
  obtain ⟨hclean, hsuper⟩ := hi.power.survives hstop
  have hf := zstoreMount_formatted hm hcpu hp hk hsuper
  have hco := zstoreMount_coherent hm hf
  obtain ⟨zs', hm', hpm, _⟩ := mount_clean hclean hsuper (zstoreMount_size hm hsuper) flags mem
  obtain rfl : zs = zs' := Except.ok.inj (hm.symm.trans hm')
  have hr := hi.remounted hstop hwhole hpm hco
  rw [← hpm] at hstop
  refine ⟨?_, mount_powerInv hcpu hk hp hclean hsuper hm heap, fun t ht => ?_⟩
  · refine (zstoreMount_mounted hm hf heap).hostInv_kept ?_ (hi.index_outage hstop hr hco)
      (hi.recalled_kept hfits hstop hr)
    simp only [World.mounted, zstoreMount_mntFlag hm]
    exact htrim
  · have ht : t ∈ zs.txList := ht
    rw [(zstoreMount_ok hm).2.2.1] at ht
    cases ht

theorem NodeInv.step {d : NodeAct} (hcpu : cpu < 127) (hk : k ≤ 2 ^ 28) (hi : NodeInv env cpu k n)
    (hok : NodeFits env n d) (hs : nodeStep env cpu d n = some n') : NodeInv env cpu k n' := by
  cases d with
  | host d => exact hi.host_step hok hs
  | outage a m flags mem heap ram => exact hi.outage hcpu hk hok hs

end Steps

section Reading

/-- A node whose store has just been mounted, with no history. -/
structure Node.Fresh (cpu k : Nat) (n : Node) : Prop where
  mounted : ∃ flags mem m zs heap, zstoreMount cpu flags mem m = .ok zs ∧ mem.Placed ∧
    LogClean (pmemOpen cpu) m ∧ Superblock.read m = mkfsSuperblock k ∧
    n.h.w = World.mounted zs heap ∧ n.nvm = ⟨zs.pm, []⟩
  noTrim : n.h.w.zs.mntFlag &&& zstoreEnableTrim = 0
  index : IndexApart n.h.w.zs
  last : ∀ o j, n.h.last o j = none

theorem Node.Fresh.inv {env : Env} {cpu k : Nat} {n : Node} (hcpu : cpu < 127) (hk : k ≤ 2 ^ 28)
    (hn : n.Fresh cpu k) : NodeInv env cpu k n := by
  obtain ⟨flags, mem, m, zs, heap, hm, hp, hclean, hsuper, hw, hnvm⟩ := hn.mounted
  have hf := zstoreMount_formatted hm hcpu hp hk hsuper
  have hmounted : Mounted n.h.w := hw ▸ zstoreMount_mounted hm hf heap
  refine ⟨hmounted.hostInv hn.noTrim hn.index hn.last, ?_, fun t ht => ?_⟩
  · rw [Node.powered, hw, hnvm]
    exact mount_powerInv hcpu hk hp hclean hsuper hm heap
  · rw [hmounted.txList] at ht
    cases ht

/-- The store that mount builds from an image without a log. -/
def remountedStore (cpu : Nat) (flags : BitVec 32) (h : MountMem) (k : Nat) (m : Image) : ZstoreContext :=
  { freshStore cpu flags h k m with
    mem := fun a => if h.otable ≤ a ∧ a < h.otable + 64 * 2 ^ 20 then m (34 * 2 ^ 20 + (a - h.otable))
      else h.mem a
    ssdAllocator := loadedAllocator h.ssdBs k m (2 ^ 20)
    pmAllocator := loadedAllocator h.pmBs (2 ^ 20) m (33 * 2 ^ 20) }

theorem mount_remounted {cpu k : Nat} {m : Image} (hclean : LogClean (pmemOpen cpu) m)
    (hsuper : Superblock.read m = mkfsSuperblock k) (hfull : k % 512 = 0) (flags : BitVec 32) (h : MountMem) :
    zstoreMount cpu flags h m = .ok (remountedStore cpu flags h k m) := by
  have hmagic : ¬ (mkfsSuperblock k).magic ≠ zstoreMagic := fun hne => hne rfl
  have hmem : storeAll h.mem ((List.range (2 ^ 20)).map fun i =>
      (h.otable + 64 * i, load m (34 * 2 ^ 20 + 64 * i) 64)) = (remountedStore cpu flags h k m).mem := by
    funext a
    exact storeAll_blocks h.mem m h.otable (34 * 2 ^ 20) 64 (2 ^ 20) a
  have hssd := (@loadAllocator_ok h.ssdBs k m (2 ^ 20) _).mpr ⟨hfull, rfl⟩
  have hpm := (@loadAllocator_ok h.pmBs (2 ^ 20) m (33 * 2 ^ 20) _).mpr ⟨by decide, rfl⟩
  simp only [zstoreMount, hsuper, recovered_clean h.stk hclean, if_neg hmagic]
  simp only [mkfsSuperblock, hssd, hpm, hmem]
  rfl

/-- No power failure, and requests that come one after the other. -/
def NodeOrderly (n : Node) : NodeAct → Prop
  | .host d => HostOrderly n.h d
  | .outage .. => False

/-- Reads one after the other. -/
def NodeReads (n : Node) : NodeAct → Prop
  | .host (.act a) => ∀ r ∈ callOf n.h.w a, r.op = .read ∧
    (n.h.w.zs.txList = [] ∧ n.h.w.zs.txRdonlyList = []) ∧ r.dataBuffer.toNat + r.len.toNat < 2 ^ 64
  | _ => False

instance (n : Node) (d : NodeAct) : Decidable (NodeOrderly n d) := by
  cases d with
  | host d => exact inferInstanceAs (Decidable (HostOrderly n.h d))
  | outage => exact inferInstanceAs (Decidable False)

instance (n : Node) : (d : NodeAct) → Decidable (NodeReads n d)
  | .host (.act a) => inferInstanceAs (Decidable (∀ r ∈ callOf n.h.w a, r.op = .read ∧
      (n.h.w.zs.txList = [] ∧ n.h.w.zs.txRdonlyList = []) ∧ r.dataBuffer.toNat + r.len.toNat < 2 ^ 64))
  | .host (.media ..) | .host (.user ..) | .outage .. => isFalse id

def freshNode : Node := ⟨freshHost, ⟨smallImage, []⟩, fun _ _ => none⟩

theorem freshNode_fresh : freshNode.Fresh 0 512 := by
  obtain ⟨_, hsuper, hmount⟩ := smallImage_clean
  obtain ⟨_, hnone, _⟩ := @mkfs_mounted _ _ 512 0 0 0 _ _ smallStore (by decide) (by decide)
    ⟨by decide, by decide⟩ smallStore_mount smallWorld.tx
  exact ⟨⟨0, smallMem, smallImage, smallStore, _, hmount, ⟨by decide, by decide⟩, by decide +kernel,
    hsuper, rfl, rfl⟩, by decide, fun o u ho => absurd ho (hnone o), fun _ _ => rfl⟩

/-- The node after a power failure that leaves what was durable. -/
def Node.next (n : Node) : Node where
  h := { n.h with
    w := World.mounted (remountedStore 0 0 smallMem 512 n.nvm.durable) smallWorld.tx
    last := n.recalled (remountedStore 0 0 smallMem 512 n.nvm.durable) }
  nvm := ⟨n.nvm.durable, []⟩
  prior := fun _ _ => none

/-- The first block of an object is written and committed, the second one is written, and power fails
in front of its commit. -/
def interruptedWrite : List NodeAct :=
  [.host (.act (.request ⟨.create, 1, 0, 0, 0⟩)), .host (.act .resume), .host (.act .resume),
    .host (.act (.request ⟨.write, 1, 0, 4096, 4096⟩)), .host (.act (.bioDone 0 true)),
    .host (.act .resume), .host (.act .resume), .host (.act .resume),
    .host (.act (.request ⟨.write, 1, 4096, 4096, 8192⟩)), .host (.act (.bioDone 0 true))]

theorem Owned.node {n n' : Node} {env : Env} {cpu : Nat} {d : HostAct} (ho : Owned false n.h.w)
    (hok : HostOrderly n.h d) (hs : nodeStep env cpu (.host d) n = some n') : Owned false n'.h.w := by
  have hstep : ∃ h, hostStep env d n.h = some h ∧ n'.h = h := by
    cases d with
    | act a =>
      simp only [nodeStep, Option.map_eq_some_iff] at hs
      obtain ⟨h, hs, rfl⟩ := hs
      exact ⟨h, hs, rfl⟩
    | media i c v =>
      simp only [nodeStep, Option.map_eq_some_iff] at hs
      obtain ⟨h, hs, rfl⟩ := hs
      exact ⟨h, hs, rfl⟩
    | user c v =>
      simp only [nodeStep, Option.map_eq_some_iff] at hs
      obtain ⟨h, hs, rfl⟩ := hs
      exact ⟨h, hs, rfl⟩
  obtain ⟨h, hs, rfl⟩ := hstep
  exact ho.host hok hs

end Reading
end ZCell.Store
