import ZCell.StoreStep

/-! What the commit of the head of the queue does to the four metadata regions and to the onode
table in memory, in terms of the request and of the store that its prepare function found. -/
namespace ZCell.Store
open Bytes Persist Pm Allocator

/-- The onode that the transaction of an accepted request logs. -/
def loggedOnode (zs : ZstoreContext) (r : Request) : OtableEntry :=
  match r.op with
  | .create => otableEntry r.object (newIndex zs)
  | .delete => 0
  | _ => zs.onode r.object

/-- The log of an accepted request. -/
def logOf (zs : ZstoreContext) (r : Request) : List PmLogEntry :=
  match r.op with
  | .create => createLog zs r
  | .delete => deleteLog zs r
  | _ => writeLog zs r

section Effect
variable {zs zs' : ZstoreContext} {r : Request} {tx : ZstoreTransaction} {t : PmemTransaction}

theorem Accepted.built (h : Accepted zs r zs' tx) :
    (∃ t, tx.pmTx = some t ∧ Built t (logOf zs r)) ∧ LogFits (logOf zs r) := by
  cases h with
  | write hop h =>
    have hlog : logOf zs r = writeLog zs r := by simp [logOf, hop]
    rw [hlog]
    exact ⟨h.log, h.logFits⟩
  | create hop h =>
    have hlog : logOf zs r = createLog zs r := by simp [logOf, hop]
    rw [hlog]
    exact ⟨h.tx.log, createLog_fits zs r⟩
  | delete hop h =>
    have hlog : logOf zs r = deleteLog zs r := by simp [logOf, hop]
    rw [hlog]
    exact ⟨h.tx.log, deleteLog_fits zs r⟩

theorem object_of_lt (h : r.oid.toNat < 2 ^ 20) : r.object = r.oid.toNat := by
  rw [Request.object, Nat.mod_eq_of_lt (by omega)]

theorem Written.object_eq (hf : Formatted zs) (h : Written zs r zs' tx) :
    r.object = r.oid.toNat := object_of_lt (h.oid_lt hf)

theorem ReadOk.oid_lt (hf : Formatted zs) (h : ReadOk zs r zs' tx) : r.oid.toNat < 2 ^ 20 :=
  oid_lt_of_checked hf h.checked

theorem Accepted.object_lt (hf : Formatted zs) (h : Accepted zs r zs' tx) : r.object < 2 ^ 20 := by
  cases h with
  | write _ h =>
    rw [h.object_eq hf]
    exact h.oid_lt hf
  | create _ h => exact hf.onodesRsv ▸ h.oid
  | delete _ h => exact hf.onodesRsv ▸ h.oid

/-- Behind the log regions a commit leaves the image that its copies make of the old one. -/
theorem load_applied {es : List PmLogEntry} {pmem : Pmem} (hlog : pmem.logRegionOfst +
    pmLogRegionSize ≤ 2 ^ 20) (hb : Built t es) (hfit : LogFits es) (img : Image) (a n : Nat)
    (ha : 2 ^ 20 ≤ a) :
    load (finish img (applyOps pmem t)) a n = load (storeAll img (targets es)) a n := by
  obtain ⟨d, hd, _, _, _, hfin⟩ := @before_step3 pmem t es hb hfit img
  apply load_congr
  intro i _
  have hout : ¬ InLog pmem (a + i) := by
    unfold InLog
    omega
  have hz : pmem.logRegionOfst + PmLogHeader.zero.bytes.length ≤
      pmem.logRegionOfst + pmLogRegionSize := by
    rw [header_length]
    simp [pmLogRegionSize]
  rw [hfin, eqOff_store (Nat.le_refl _) hz _ hout]
  exact storeAll_congr _ (hd _ hout)

theorem Accepted.copies_onode (hf : Formatted zs) (h : Accepted zs r zs' tx) (m : Image) {oid : Nat}
    (ho : oid < 2 ^ 20) : onodeLine (storeAll m (targets (logOf zs r))) oid =
      if oid = r.object then loggedOnode zs r else onodeLine m oid := by
  cases h with
  | write hop h =>
    simp only [logOf, loggedOnode, hop, h.object_eq hf]
    exact h.onodeLine_copies hf m ho
  | create hop h =>
    have hidx := h.index_le hf
    simp only [logOf, loggedOnode, hop, h.targets_eq hf, storeAll_cons, storeAll_nil, onodeLine]
    rw [lineAt_store_disjoint, lineAt_store_line]
    rw [lineBytes_length]
    omega
  | delete hop h =>
    simp only [logOf, loggedOnode, hop, h.targets_eq hf, storeAll_cons, storeAll_nil, onodeLine]
    rw [lineAt_store_line]

theorem Accepted.copies_index (hf : Formatted zs) (h : Accepted zs r zs' tx) (m : Image) (n : Nat) :
    indexWord (storeAll m (targets (logOf zs r))) n =
      if r.op = .write ∧ firstWord zs r ≤ n ∧ n < firstWord zs r + r.blen then
        (newWords zs r).getD (n - firstWord zs r) 0 else indexWord m n := by
  have hobj := h.object_lt hf
  cases h with
  | write hop h =>
    simp only [logOf, hop, true_and]
    exact h.indexWord_copies hf m n
  | create hop h =>
    have hidx := h.index_le hf
    simp only [logOf, hop, reduceCtorEq, false_and, if_false, h.targets_eq hf, storeAll_cons,
      storeAll_nil, indexWord]
    rw [wordAt_store_disjoint, wordAt_store_disjoint]
    all_goals
      rw [lineBytes_length]
      omega
  | delete hop h =>
    simp only [logOf, hop, reduceCtorEq, false_and, if_false, h.targets_eq hf, storeAll_cons,
      storeAll_nil, indexWord]
    rw [wordAt_store_disjoint]
    rw [lineBytes_length]
    omega

theorem Accepted.copies_ssd (hf : Formatted zs) (h : Accepted zs r zs' tx) (m : Image) {k : Nat}
    (hk : k < 2 ^ 19) : ssdLine (storeAll m (targets (logOf zs r))) k =
      if r.op = .write ∧ k ∈ namedEntries zs r then (newSsd zs r).bs k else ssdLine m k := by
  cases h with
  | write hop h =>
    simp only [logOf, hop, true_and]
    exact h.ssdLine_copies hf m hk
  | create hop h =>
    simp only [logOf, hop, reduceCtorEq, false_and, if_false, h.targets_eq hf, storeAll_cons,
      storeAll_nil, ssdLine]
    rw [lineAt_store_disjoint, lineAt_store_disjoint]
    all_goals omega
  | delete hop h =>
    simp only [logOf, hop, reduceCtorEq, false_and, if_false, h.targets_eq hf, storeAll_cons,
      storeAll_nil, ssdLine]
    rw [lineAt_store_disjoint]
    omega

/-- Of the bitmap of the dynamic space a create writes the entry of the block it took. -/
theorem Accepted.copies_dy (hf : Formatted zs) (h : Accepted zs r zs' tx) (m : Image) {k : Nat}
    (hk : k < 2 ^ 14) : dyLine (storeAll m (targets (logOf zs r))) k =
      if r.op = .create ∧ k = newIndex zs / 512 then (newPm zs).bs k else dyLine m k := by
  have hobj := h.object_lt hf
  cases h with
  | write hop h =>
    have hle := h.index_le hf
    simp only [logOf, hop, reduceCtorEq, false_and, if_false]
    rw [h.targets_eq hf, storeAll_append, dyLine, lineAt_storeAll_disjoint, lineAt_storeAll_disjoint]
    · rfl
    · intro w hw
      have hr := h.bitmap_copies hf hw
      omega
    · intro w hw
      simp only [List.mem_cons, List.not_mem_nil, or_false] at hw
      obtain rfl | rfl := hw
      all_goals
        simp only
        omega
  | create hop h =>
    have hidx := h.index_le hf
    simp only [logOf, hop, true_and, h.targets_eq hf, storeAll_cons, storeAll_nil, dyLine]
    rw [lineAt_store_line, lineAt_store_disjoint _ _ _ _ (by omega)]
    split
    · rename_i heq
      rw [heq]
    · rfl
  | delete hop h =>
    simp only [logOf, hop, reduceCtorEq, false_and, if_false, h.targets_eq hf, storeAll_cons,
      storeAll_nil, dyLine]
    rw [lineAt_store_disjoint]
    omega

theorem applyMem_skip {es : List PmLogEntry} (h : ∀ e ∈ es, e.paddr = 0) (m : Image) :
    applyMem es m = m := by
  induction es generalizing m with
  | nil => rfl
  | cons e es ih =>
    have he := h e (List.mem_cons_self ..)
    have htl := ih (fun e' he' => h e' (List.mem_cons_of_mem e he')) m
    rw [applyMem] at htl ⊢
    rw [List.foldl_cons, he]
    simpa using htl

theorem applyMem_append (es fs : List PmLogEntry) (m : Image) :
    applyMem (es ++ fs) m = applyMem fs (applyMem es m) := by
  simp [applyMem, List.foldl_append]

/-- Of all log entries only the onode has an address in memory. -/
theorem Accepted.memory (hf : Formatted zs) (h : Accepted zs r zs' tx) (m : Image) :
    applyMem (logOf zs r) m = store m (zs.otable + 64 * r.object) (lineBytes (loggedOnode zs r)) := by
  have hobj := h.object_lt hf
  have hpos := hf.otable_pos
  have hle := hf.otable_le
  have haddr : (BitVec.ofNat 64 (zs.onodeAddr r.object)).toNat = zs.otable + 64 * r.object := by
    rw [BitVec.toNat_ofNat, ZstoreContext.onodeAddr, Nat.mod_eq_of_lt (by omega)]
  have hnz : BitVec.ofNat 64 (zs.onodeAddr r.object) ≠ 0 := by
    intro h0
    have hz := congrArg BitVec.toNat h0
    rw [haddr] at hz
    simp at hz
    omega
  have hone : ∀ (o : BitVec 64) (v : List Byte) (m : Image), applyMem
      [⟨BitVec.ofNat 64 (zs.onodeAddr r.object), o, v⟩] m = store m (zs.otable + 64 * r.object) v := by
    intro o v m
    simp only [applyMem, List.foldl_cons, List.foldl_nil, ne_eq, hnz, not_false_eq_true, if_true,
      haddr]
  cases h with
  | write hop h =>
    have heq := h.object_eq hf
    have hcut : writeLog zs r =
        ((namedEntries zs r).map (bitmapLog zs.zsb.pmSsdBitmapOfst (newSsd zs r).bs) ++
        [⟨0, BitVec.ofNat 64 (objectDataIndexBlock zs (zs.onode r.oid.toNat) +
          4 * (r.bofst % 2 ^ 32)), wordsBytes ((blocks (newExtents zs r)).map (BitVec.ofNat 32))⟩]) ++
        [⟨BitVec.ofNat 64 (zs.onodeAddr r.object),
          BitVec.ofNat 64 (zs.zsb.pmOtableOfst + 64 * r.oid.toNat), lineBytes (zs.onode r.object)⟩] := by
      simp [writeLog, heq]
    simp only [logOf, loggedOnode, hop]
    rw [hcut, applyMem_append, hone, applyMem_skip]
    intro e he
    obtain he | he := List.mem_append.mp he
    · obtain ⟨k, _, rfl⟩ := List.mem_map.mp he
      rfl
    · obtain rfl := List.mem_singleton.mp he
      rfl
  | create hop h =>
    simp only [logOf, loggedOnode, hop, createLog, onodeLog]
    rw [show ∀ e f : PmLogEntry, [e, f] = [e] ++ [f] from fun _ _ => rfl, applyMem_append, hone,
      applyMem_skip]
    intro e he
    obtain rfl := List.mem_singleton.mp he
    rfl
  | delete hop h =>
    simp only [logOf, loggedOnode, hop, deleteLog, onodeLog]
    rw [hone]

/-- Of the persistent memory a prepare function writes at most a new index block. -/
theorem Accepted.load_below (hf : Formatted zs) (h : Accepted zs r zs' tx) {a n : Nat}
    (ha : a + n ≤ 98 * 2 ^ 20) : load zs'.pm a n = load zs.pm a n := by
  cases h with
  | write _ h => rw [h.store]
  | create _ h =>
    rw [h.store]
    refine load_store_disjoint _ _ _ _ _ (Or.inl ?_)
    rw [hf.dySpace]
    omega
  | delete _ h => rw [h.store]

theorem Accepted.onodeLine_eq (hf : Formatted zs) (h : Accepted zs r zs' tx) {oid : Nat}
    (ho : oid < 2 ^ 20) : onodeLine zs'.pm oid = onodeLine zs.pm oid :=
  lineAt_of_load (h.load_below hf (by omega))

theorem Accepted.ssdLine_eq (hf : Formatted zs) (h : Accepted zs r zs' tx) {k : Nat}
    (hk : k < 2 ^ 19) : ssdLine zs'.pm k = ssdLine zs.pm k :=
  lineAt_of_load (h.load_below hf (by omega))

theorem wordAt_ones {m : Image} {a : Nat} (h : ∀ i < 4, m (a + i) = 0xff) : wordAt m a = unmapped := by
  have hload : load m a 4 = [0xff, 0xff, 0xff, 0xff] := by
    simp only [load, List.range_succ_eq_map, List.range_zero, List.map_cons, List.map_nil]
    rw [h 0 (by omega), h 1 (by omega), h 2 (by omega), h 3 (by omega)]
  rw [wordAt, loadLe, hload]
  rfl

/-- A new index block maps nothing. -/
theorem Created.indexWord_eq (hf : Formatted zs) (h : Created zs r zs' tx) (n : Nat) :
    indexWord zs'.pm n = if n / 1024 = newIndex zs then unmapped else indexWord zs.pm n := by
  have hlen : (List.replicate zstorePageSize (0xff : Byte)).length = 4096 := List.length_replicate
  have hpm : zs'.pm = Bytes.store zs.pm (newIndex zs * 4096 + 98 * 2 ^ 20)
      (List.replicate zstorePageSize 0xff) := by
    rw [h.store]
    simp only [initialised, hf.dySpace]
    rfl
  rw [hpm]
  generalize newIndex zs = i
  generalize hones : List.replicate zstorePageSize (0xff : Byte) = ones at hlen
  split
  · apply wordAt_ones
    intro j hj
    rw [store_at _ _ _ _ (by omega) (by omega)]
    simp only [← hones, List.getElem_replicate]
  · apply wordAt_store_disjoint
    omega

end Effect

/-- The effect of a commit on the metadata. -/
structure Effect (zs : ZstoreContext) (r : Request) (s s' : ZstoreContext) : Prop where
  onodePm : ∀ oid < 2 ^ 20, onodeLine s'.pm oid =
    if oid = r.object then loggedOnode zs r else onodeLine s.pm oid
  onode : ∀ oid < 2 ^ 20, s'.onode oid =
    if oid = r.object then loggedOnode zs r else s.onode oid
  index : ∀ n, indexWord s'.pm n =
    if r.op = .write ∧ firstWord zs r ≤ n ∧ n < firstWord zs r + r.blen then
      (newWords zs r).getD (n - firstWord zs r) 0 else indexWord s.pm n
  ssd : ∀ k < 2 ^ 19, ssdLine s'.pm k =
    if r.op = .write ∧ k ∈ namedEntries zs r then (newSsd zs r).bs k else ssdLine s.pm k

/-- Behind the log regions a commit makes the copies of the log that its prepare function built. -/
theorem Commits.load {w w' : World} {tid : Nat} {t : PmemTransaction} (hw : WF w)
    (h : Commits w w' tid t) {tx : ZstoreTransaction}
    (hacc : Accepted (w.before tid) (w.tx tid).request (w.after tid) tx)
    (hpm : (w.tx tid).pmTx = tx.pmTx) :
    Built t (logOf (w.before tid) (w.tx tid).request) ∧ ∀ a n, 2 ^ 20 ≤ a →
      Bytes.load w'.zs.pm a n =
        Bytes.load (storeAll w.zs.pm (targets (logOf (w.before tid) (w.tx tid).request))) a n := by
  obtain ⟨⟨t', ht', hb⟩, hfit⟩ := hacc.built
  obtain rfl : t = t' := by
    rw [h.pmTx, ht'] at hpm
    exact Option.some.inj hpm
  obtain ⟨n, hzs⟩ := h.zs
  refine ⟨hb, fun a n ha => ?_⟩
  rw [hzs]
  exact load_applied hw.formatted.log hb hfit w.zs.pm a n ha

theorem Commits.effect {w w' : World} {tid : Nat} {t : PmemTransaction} (hw : WF w)
    (h : Commits w w' tid t) : Effect (w.before tid) (w.tx tid).request w.zs w'.zs := by
  have hq := hw.queued tid (by rw [h.head]; exact List.mem_cons_self ..)
  obtain ⟨tx, hacc, hpm⟩ := hq.accepted
  obtain ⟨hb, hload⟩ := h.load hw hacc hpm
  obtain ⟨n, hzs⟩ := h.zs
  constructor
  · intro oid ho
    rw [← hacc.copies_onode hq.formatted w.zs.pm ho]
    exact lineAt_of_load (hload _ _ (by omega))
  · intro oid _
    have hot : w'.zs.otable = w.zs.otable := by rw [hzs]
    have hmem : w'.zs.mem = store w.zs.mem (w.zs.otable + 64 * (w.tx tid).request.object)
        (lineBytes (loggedOnode (w.before tid) (w.tx tid).request)) := by
      rw [hzs, ← hq.otable]
      simp only
      rw [hb.entries, hacc.memory hq.formatted]
    rw [ZstoreContext.onode, ZstoreContext.onodeAddr, hmem, hot, lineAt_store_line]
    rfl
  · intro n
    rw [← hacc.copies_index hq.formatted w.zs.pm n]
    exact wordAt_of_load (hload _ _ (by omega))
  · intro k hk
    rw [← hacc.copies_ssd hq.formatted w.zs.pm hk]
    exact lineAt_of_load (hload _ _ (by omega))

theorem Commits.dyLine {w w' : World} {tid : Nat} {t : PmemTransaction} (hw : WF w)
    (h : Commits w w' tid t) {k : Nat} (hk : k < 2 ^ 14) : Store.dyLine w'.zs.pm k =
      if (w.tx tid).request.op = .create ∧ k = newIndex (w.before tid) / 512 then
        (newPm (w.before tid)).bs k else Store.dyLine w.zs.pm k := by
  have hq := hw.queued tid (by rw [h.head]; exact List.mem_cons_self ..)
  obtain ⟨tx, hacc, hpm⟩ := hq.accepted
  obtain ⟨_, hload⟩ := h.load hw hacc hpm
  rw [← hacc.copies_dy hq.formatted w.zs.pm hk]
  exact lineAt_of_load (hload _ _ (by omega))

end ZCell.Store
