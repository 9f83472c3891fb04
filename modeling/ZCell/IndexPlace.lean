import ZCell.AllocatorTail
import ZCell.Progress
import ZCell.Spared

/-! Where the index blocks lie. Mount builds the allocator for all blocks of the PM, but block `k` of it
is block `k` of the dynamic space, which starts behind the metadata. -/
namespace ZCell.Store
open Bytes Persist Pm Allocator Runs

/-- `dynamic space sz` of mkfs. -/
def dynamicSpaceSz (zs : ZstoreContext) : Nat :=
  zs.pmem.size / zstorePageSize - zs.zsb.pmDySpaceOfst / zstorePageSize

/-- The index block that a create gets next, if there is one, lies in the PM. -/
def IndexInside (zs : ZstoreContext) : Prop :=
  (stupidAllocSpace zs.pmAllocator 1).1 = 0 →
    zs.zsb.pmDySpaceOfst + zstorePageSize * (newIndex zs + 1) ≤ zs.pmem.size

/-- The number of creates that have been accepted. -/
def World.creates (w : World) : Nat :=
  (w.accepted.filter fun t => (w.tx t).request.op = .create).length

/-- The number of index blocks that are marked by mkfs. -/
def markedIndexes (flags : BitVec 32) : Nat :=
  if flags &&& zstoreMkfsReserveObjid = 0 then 0 else 2 ^ 15

/-- How far the first scan gets behind `start` marked blocks, at most. -/
def firstIndex (start : Nat) : Nat := if start = 0 then 0 else start + 64

/-- Behind the marked blocks and the hint nothing has been taken. -/
structure Untaken (start : Nat) (w : World) : Prop where
  wf : WF w
  logged : Logged w
  free : FreeFrom w.zs.pmAllocator.bs (max start w.zs.pmAllocator.hint) (2 ^ 20)
  count : freeCount w.zs.pmAllocator.bs w.zs.pmAllocator.nrTotal ≤ w.zs.pmAllocator.nrFree
  hint_le : w.zs.pmAllocator.hint ≤ dynamicSpaceSz w.zs
  creates_le : w.creates ≤ w.zs.pmAllocator.hint
  hint_creates : w.zs.pmAllocator.hint ≤ firstIndex start + w.creates

section Calls
variable {start : Nat} {w w' : World} {zs : ZstoreContext}

theorem dynamicSpaceSz_eq (hf : Formatted zs) : dynamicSpaceSz zs = 1023488 := by
  rw [dynamicSpaceSz, hf.size, hf.dySpace, zstorePageSize]
  rfl

theorem freeCount_of_free {bs : Nat → BitVec 512} {n : Nat} (h : FreeFrom bs start n) :
    n - start ≤ freeCount bs n := by
  induction n with
  | zero => omega
  | succ n ih =>
    have hn := ih fun i h1 h2 => h i h1 (by omega)
    rw [freeCount_succ]
    by_cases hs : start ≤ n
    · rw [h n hs (Nat.lt_succ_self n)]
      simp only [Bool.false_eq_true, if_false]
      omega
    · omega

/-- What a create gets. -/
structure Gets (start : Nat) (zs : ZstoreContext) (h : Nat) : Prop where
  alloc : stupidAllocSpace zs.pmAllocator 1 = (0, { zs.pmAllocator with
    bs := setBit zs.pmAllocator.bs (newIndex zs), hint := h, nrFree := zs.pmAllocator.nrFree - 1 },
    [⟨newIndex zs, 1⟩])
  hint_le : zs.pmAllocator.hint ≤ newIndex zs
  index_le : newIndex zs ≤ max (firstIndex start) zs.pmAllocator.hint
  index_eq : start ≤ zs.pmAllocator.hint → newIndex zs = zs.pmAllocator.hint
  lt : newIndex zs < h
  le : h ≤ max (firstIndex start) (newIndex zs + 1)

theorem Untaken.gets (hi : Untaken start w) (hs : start ≤ 2 ^ 15) : ∃ h, Gets start w.zs h := by
  have hf := hi.wf.formatted
  have htot := hf.pmTotal
  have hle := hi.hint_le
  have hcount := hi.count
  rw [dynamicSpaceSz_eq hf] at hle
  have hfree := hi.free
  rw [← htot] at hfree
  have hnr := freeCount_of_free hfree
  obtain ⟨b, h, halloc, h1, h2, h3, h4⟩ := @alloc_tail w.zs.pmAllocator _ (by omega) hfree (by omega)
  have hidx : newIndex w.zs = b := by
    rw [newIndex, halloc]
    rfl
  subst hidx
  refine ⟨h, halloc, h1, ?_, fun hs' => ?_, h3, ?_⟩
  · unfold firstIndex
    split at h2
    · split
      · omega
      · omega
    · omega
  · rw [if_neg (by omega)] at h2
    omega
  · unfold firstIndex
    split at h4
    · split
      · omega
      · omega
    · omega

theorem Gets.room {h : Nat} (hg : Gets start w.zs h) : HasRoom w.zs.pmAllocator 1 := by
  have hz := congrArg Prod.fst hg.alloc
  exact (alloc_zero_iff (Nat.le_refl 1)).mp hz

theorem Untaken.inside_iff (hi : Untaken start w) (hs : start ≤ 2 ^ 15) :
    IndexInside w.zs ↔ w.zs.pmAllocator.hint < dynamicSpaceSz w.zs := by
  have hf := hi.wf.formatted
  obtain ⟨h, hg⟩ := hi.gets hs
  have hz := congrArg Prod.fst hg.alloc
  have h1 := hg.hint_le
  have h2 := hg.index_le
  have h3 := hg.index_eq
  rw [IndexInside, dynamicSpaceSz_eq hf, hf.size, hf.dySpace, zstorePageSize]
  refine ⟨fun hin => ?_, fun hlt _ => ?_⟩
  · have hin := hin hz
    omega
  · unfold firstIndex at h2
    split at h2
    · omega
    · by_cases hle : start ≤ w.zs.pmAllocator.hint
      · rw [h3 hle]
        omega
      · omega

/-- A create that passes the checks and gets an index block is accepted if the block lies in the PM, and
writes behind its end if not. -/
theorem prepare_given {g : Uninit} {r : Request} {tx : ZstoreTransaction} (hop : r.op = .create)
    (hoid : r.object < zs.zsb.onodesRsv) (hinv : (zs.onode r.object).valid = false)
    (hz : (stupidAllocSpace zs.pmAllocator 1).1 = 0) :
    ¬ IndexInside zs ∧ zstoreTxPrepare g zs r tx = .error .pmRange ∨
      IndexInside zs ∧ ∃ zs' tx', zstoreTxPrepare g zs r tx = .ok (0, zs', tx') := by
  have hobj : r.oid.toNat % 2 ^ 48 = r.object := rfl
  have hon : { zs with tidMax := zs.tidMax + 1 }.onode r.object = zs.onode r.object := rfl
  have hin : IndexInside zs ↔
      ¬ zs.pmem.size < newIndex zs * zstorePageSize + zs.zsb.pmDySpaceOfst + zstorePageSize := by
    rw [IndexInside, Nat.mul_add, Nat.mul_comm, imp_iff_right hz]
    omega
  simp only [zstoreTxPrepare, hop, txPrepCreDelCommon, hobj, if_neg (Nat.not_le_of_lt hoid), hon, hinv, hz,
    Bool.not_false, decide_true, Bool.and_self, if_true, ne_eq, not_true_eq_false, if_false]
  rw [hin, ← newIndex]
  by_cases hpm : zs.pmem.size < newIndex zs * zstorePageSize + zs.zsb.pmDySpaceOfst + zstorePageSize
  · rw [if_pos hpm]
    exact Or.inl ⟨not_not.mpr hpm, rfl⟩
  · rw [if_neg hpm]
    exact Or.inr ⟨hpm, _, _, rfl⟩

theorem create_faults {env : Env} {r : Request} (hop : r.op = .create)
    (hoid : r.object < w.zs.zsb.onodesRsv) (hinv : (w.zs.onode r.object).valid = false)
    (hout : ¬ IndexInside w.zs) : zstoreObjAsyncOpCall env r w = .error .pmRange := by
  obtain ⟨_, hprep⟩ | ⟨hin, _⟩ := @prepare_given w.zs (env.uninit w.zs.tidMax) r (w.tx w.zs.tidMax) hop hoid
    hinv (Classical.not_imp.mp hout).1
  · simp only [zstoreObjAsyncOpCall, hprep]
  · exact absurd hin hout

end Calls

section Steps
variable {env : Env} {start : Nat} {w w' : World} {a : Act}

theorem creates_keep (hacc : w'.accepted = w.accepted)
    (hkeep : ∀ t ∈ w.accepted, (w'.tx t).request = (w.tx t).request) : w'.creates = w.creates := by
  rw [World.creates, World.creates, hacc]
  congr 1
  apply List.filter_congr
  intro t ht
  rw [hkeep t ht]

theorem creates_accept {t : Nat} (hacc : w'.accepted = w.accepted ++ [t])
    (hkeep : ∀ t ∈ w.accepted, (w'.tx t).request = (w.tx t).request) :
    w'.creates = w.creates + if (w'.tx t).request.op = .create then 1 else 0 := by
  have hold : (w.accepted.filter fun t => (w'.tx t).request.op = .create) =
      w.accepted.filter fun t => (w.tx t).request.op = .create := by
    apply List.filter_congr
    intro u hu
    rw [hkeep u hu]
  rw [World.creates, World.creates, hacc, List.filter_append, List.length_append, hold]
  split
  · rename_i hop
    simp [hop]
  · rename_i hop
    simp [hop]

/-- No block has been taken. -/
theorem Untaken.mono (hi : Untaken start w) (hstep : Store.step env a w = some w')
    (hhint : w'.zs.pmAllocator.hint = w.zs.pmAllocator.hint)
    (hfree : FreeFrom w'.zs.pmAllocator.bs (max start w.zs.pmAllocator.hint) (2 ^ 20))
    (hcount : freeCount w'.zs.pmAllocator.bs w'.zs.pmAllocator.nrTotal ≤ w'.zs.pmAllocator.nrFree)
    (hcr : w'.creates = w.creates) : Untaken start w' := by
  have hw' := step_wf hi.wf hstep
  refine ⟨hw', step_logged hi.wf hi.logged hstep, ?_, hcount, ?_, ?_, ?_⟩
  · rw [hhint]
    exact hfree
  · rw [hhint, dynamicSpaceSz_eq hw'.formatted, ← dynamicSpaceSz_eq hi.wf.formatted]
    exact hi.hint_le
  · rw [hhint, hcr]
    exact hi.creates_le
  · rw [hhint, hcr]
    exact hi.hint_creates

theorem Untaken.keep (hi : Untaken start w) (hstep : Store.step env a w = some w')
    (hal : w'.zs.pmAllocator = w.zs.pmAllocator) (hcr : w'.creates = w.creates) : Untaken start w' :=
  hi.mono hstep (by rw [hal]) (by rw [hal]; exact hi.free) (by rw [hal]; exact hi.count) hcr

theorem Untaken.create (hi : Untaken start w) (hs : start ≤ 2 ^ 15) (hstep : Store.step env a w = some w')
    {r : Request} {zs : ZstoreContext} {tx : ZstoreTransaction} (hc : Created w.zs r zs tx)
    (hal : w'.zs.pmAllocator = newPm w.zs) (hcr : w'.creates = w.creates + 1) : Untaken start w' := by
  have hf := hi.wf.formatted
  have hw' := step_wf hi.wf hstep
  obtain ⟨h, hg⟩ := hi.gets hs
  have hnew : w'.zs.pmAllocator = _ := hal.trans (congrArg (fun p => p.2.1) hg.alloc)
  have hin := hc.in_pm
  have hcount := alloc_counted (Nat.le_refl 1) hc.room
  have hold := hi.count
  have h1 := hg.hint_le
  have h2 := hg.index_le
  have h3 := hg.index_eq
  have h4 := hg.lt
  have h5 := hg.le
  have h6 := hi.creates_le
  have h7 := hi.hint_creates
  rw [hf.size, hf.dySpace, zstorePageSize] at hin
  rw [hg.alloc] at hcount
  refine ⟨hw', step_logged hi.wf hi.logged hstep, ?_, ?_, ?_, ?_, ?_⟩
  · rw [hnew]
    exact (hi.free.mono (by simp only; omega)).setBit (by simp only; omega)
  · rw [hnew]
    simp only at hcount ⊢
    omega
  · rw [hnew, dynamicSpaceSz_eq hw'.formatted]
    simp only [firstIndex] at h5 ⊢
    split at h5
    · omega
    · omega
  · rw [hnew, hcr]
    simp only
    omega
  · rw [hnew, hcr]
    by_cases hle : start ≤ w.zs.pmAllocator.hint
    · have heq := h3 hle
      simp only
      omega
    · have hpos : firstIndex start = start + 64 := by
        rw [firstIndex, if_neg (by omega)]
      simp only
      omega

theorem Untaken.step (hi : Untaken start w) (hs : start ≤ 2 ^ 15) (h : Store.step env a w = some w') :
    Untaken start w' := by
  have hw := hi.wf
  have hkeep : ∀ t ∈ w.accepted, (w'.tx t).request = (w.tx t).request := fun t ht =>
    ((hi.logged.keeps hw h).1 t ht).1
  obtain hq | ⟨r, _, ⟨rc, tx, hr⟩ | ⟨zs, tx, ha⟩⟩ | ⟨tid, t, hc⟩ := step_cases hw h
  · exact hi.keep h hq.zs.pmAllocator (creates_keep hq.accepted hkeep)
  · obtain ⟨_, hg⟩ := hi.gets hs
    exact hi.keep h (rejected_pmAllocator hw.formatted.shift hr.rc_ne (fun _ _ _ => hg.room) hr.prepare)
      (creates_keep hr.accepted hkeep)
  · have hself : w'.tx w.zs.tidMax = tx := ha.tx_self
    have hcr := creates_accept ha.accepted hkeep
    rw [hself] at hcr
    obtain ⟨hop, hread, n, l, hzs⟩ | ⟨hacc, n, hzs⟩ := ha.kind
    · rw [hread.request, hop] at hcr
      exact hi.keep h (by rw [hzs, hread.store]) (by simpa using hcr)
    · rw [hacc.request.1] at hcr
      cases hacc with
      | write hop hwr =>
        rw [hop] at hcr
        exact hi.keep h (by rw [hzs, hwr.store]) (by simpa using hcr)
      | create hop hc =>
        rw [hop] at hcr
        exact hi.create hs h hc (by rw [hzs, hc.store]) (by simpa using hcr)
      | delete hop hd =>
        rw [hop] at hcr
        have hal : w'.zs.pmAllocator =
            stupidFreeSpace w.zs.pmAllocator [⟨(w.zs.onode r.object).dataIdxId, 1⟩] := by rw [hzs, hd.store]
        refine hi.mono h (by rw [hal]; rfl) ?_ ?_ (by simpa using hcr)
        · rw [hal, freeOne_bs]
          exact hi.free.clearBit _
        · rw [hal]
          exact (release_counted _ hi.count).1
  · obtain ⟨n, hzs⟩ := hc.zs
    exact hi.keep h (by rw [hzs]) (creates_keep hc.accepted hkeep)

end Steps

section Start
variable {stk : Image} {e : Nat → OtableEntry} {nblks cpu : Nat} {flags mflags : BitVec 32}
  {m : Image} {h : MountMem} {zs : ZstoreContext}

theorem markedIndexes_le (flags : BitVec 32) : markedIndexes flags ≤ 2 ^ 15 := by
  unfold markedIndexes
  split
  · exact Nat.zero_le _
  · exact Nat.le_refl _

theorem loadedAllocator_hint (b : Nat → BitVec 512) (n : Nat) (pm : Image) (ofst : Nat) :
    (loadedAllocator b n pm ofst).hint = 0 := by
  have hentrys : (stupidAllocatorConstructor b n).nrEntrys = (n + 511) / 512 := rfl
  rw [loadedAllocator, hentrys, loadEntries_spec b _ n _ (Nat.le_refl _)]
  rfl

theorem untaken_mounted (env : Env) (hcpu : cpu < 127) (hp : h.Placed)
    (hm : zstoreMount cpu mflags h (zstoreMkfs stk e nblks flags m) = .ok zs)
    (heap : Nat → ZstoreTransaction) : Untaken (markedIndexes flags) (World.mounted zs heap) := by
  have hi := sparedInv_mounted env hcpu hp hm heap
  have hf : Formatted zs := hi.owned.wf.formatted
  have hal := (zstoreMount_loaded hm).2
  have hhint := loadedAllocator_hint h.pmBs zs.zsb.pmNrPages zs.pm zs.zsb.pmDyBitmapOfst
  have hcount := loadedAllocator_counted h.pmBs zs.zsb.pmNrPages zs.pm zs.zsb.pmDyBitmapOfst
  rw [← hal] at hhint hcount
  have hfree : FreeFrom zs.pmAllocator.bs (markedIndexes flags) (2 ^ 20) := by
    intro i h1 h2
    unfold markedIndexes at h1
    split at h1
    · rename_i hflags
      rw [mount_mkfs hflags hcpu (zstoreMount_size hm (superblock_mkfs hflags)), Except.ok.injEq] at hm
      subst hm
      have hbit : bit (emptyAllocator h.pmBs (2 ^ 20)).bs i = false := by
        simp only [bit, emptyAllocator]
        rw [if_pos (by omega)]
        exact BitVec.getLsbD_zero
      exact hbit
    · rename_i hflags
      rw [(mount_reserved hflags hcpu hp hm).2.2 i h2]
      exact decide_eq_false (by omega)
  have hhint' : (World.mounted zs heap).zs.pmAllocator.hint = 0 := hhint
  refine ⟨hi.owned.wf, hi.owned.logged, ?_, Nat.le_of_eq hcount.symm, ?_, ?_, ?_⟩
  · rw [hhint']
    exact hfree.mono (Nat.le_max_left ..)
  · rw [hhint']
    exact Nat.zero_le _
  · rw [hhint']
    exact Nat.le_refl 0
  · rw [hhint']
    exact Nat.zero_le _

end Start

/-- In every reachable state: a create gets an index block inside of the PM exactly when the hint of the
allocator is below the number of blocks of the dynamic space. The hint counts the accepted creates,
and what the first scan has skipped. -/
theorem indexInside_iff (env : Env) (stk : Image) (e : Nat → OtableEntry) (nblks cpu : Nat)
    (flags mflags : BitVec 32) (m : Image) (h : MountMem) (zs : ZstoreContext)
    (heap : Nat → ZstoreTransaction) (w : World) (hcpu : cpu < 127) (hp : h.Placed)
    (hm : zstoreMount cpu mflags h (zstoreMkfs stk e nblks flags m) = .ok zs)
    (hrun : Run (step env) (fun _ _ => True) (World.mounted zs heap) w) :
    (IndexInside w.zs ↔ w.zs.pmAllocator.hint < dynamicSpaceSz w.zs) ∧
    w.creates ≤ w.zs.pmAllocator.hint ∧
    w.zs.pmAllocator.hint ≤ firstIndex (markedIndexes flags) + w.creates := by
  have hi : Untaken (markedIndexes flags) w := hrun.invariant (untaken_mounted env hcpu hp hm heap)
    fun _ _ _ hi _ hs => hi.step (markedIndexes_le flags) hs
  exact ⟨hi.inside_iff (markedIndexes_le flags), hi.creates_le, hi.hint_creates⟩

section Filling
variable {env : Env} {r : Request} {w : World} {k : Nat}

/-- On an idle store, a create that gets an index block inside of the PM is accepted and committed. -/
theorem create_settles (hw : WF w) (hs : w.stack = []) (hlist : w.zs.txList = []) (hop : r.op = .create)
    (hoid : r.object < w.zs.zsb.onodesRsv) (hinv : (w.zs.onode r.object).valid = false)
    (hz : (stupidAllocSpace w.zs.pmAllocator 1).1 = 0) (hin : IndexInside w.zs) :
    ∃ zs tx w', Created w.zs r zs tx ∧ Settles env r zs w w' := by
  obtain ⟨hout, _⟩ | ⟨_, zs, tx, hprep⟩ := @prepare_given w.zs (env.uninit w.zs.tidMax) r (w.tx w.zs.tidMax)
    hop hoid hinv hz
  · exact absurd hin hout
  obtain ⟨hne, _⟩ | ⟨_, hc⟩ := prepare_create hop hprep
  · exact absurd rfl hne
  obtain ⟨w', h⟩ := creDel_settles hw hs hlist (by simp [hop]) hprep (.create hop hc) hc.tx
    (by rw [hc.store]) (by rw [hc.store]) (by rw [hc.store])
  exact ⟨zs, tx, w', hc, h⟩

/-- The objects below `k` have been created, and the queue is empty. -/
structure Filled (env : Env) (w0 : World) (k : Nat) (w : World) : Prop where
  run : Run (step env) (fun _ _ => True) w0 w
  stack : w.stack = []
  txList : w.zs.txList = []
  hint : w.zs.pmAllocator.hint = k
  blank : ∀ o, k ≤ o → o < 2 ^ 20 → (w.zs.onode o).valid = false

def creation (k : Nat) : Request := ⟨.create, BitVec.ofNat 64 k, 0, 0, 0⟩

theorem creation_object (hk : k < 2 ^ 20) : (creation k).object = k := by
  simp only [creation, Request.object, BitVec.toNat_ofNat]
  omega

theorem Filled.succ {w0 : World} (h : Filled env w0 k w) (hi : Untaken 0 w) (hk : k < dynamicSpaceSz w.zs) :
    ∃ w', Filled env w0 (k + 1) w' := by
  have hf := hi.wf.formatted
  obtain ⟨n, hg⟩ := hi.gets (Nat.zero_le _)
  have hz := congrArg Prod.fst hg.alloc
  have hin := (hi.inside_iff (Nat.zero_le _)).mpr (h.hint ▸ hk)
  have hk' : k < 2 ^ 20 := by
    rw [dynamicSpaceSz_eq hf] at hk
    omega
  have hobj := creation_object hk'
  obtain ⟨zs, tx, w', hc, hset⟩ := @create_settles env (creation k) w hi.wf h.stack h.txList rfl
    (by rw [hobj, hf.onodesRsv]; exact hk') (by rw [hobj]; exact h.blank k (Nat.le_refl k) hk') hz hin
  refine ⟨w', hset.run h.run trivial fun _ _ => trivial, hset.stack, hset.txList, ?_, fun o h1 h2 => ?_⟩
  · have hal : w'.zs.pmAllocator = newPm w.zs := by rw [hset.pmAllocator, hc.store]
    have hnew : newPm w.zs = _ := congrArg (fun p => p.2.1) hg.alloc
    have heq := hg.index_eq (Nat.zero_le _)
    have hlt := hg.lt
    have hle := hg.le
    have hk := h.hint
    simp only [firstIndex, if_true] at hle
    simp only [hal, hnew]
    omega
  · rw [hset.onode o h2, hobj, if_neg (by omega)]
    exact h.blank o (by omega) h2

/-- A store without reserved objects can be filled up to the end of the PM. -/
theorem filled_exists {w0 : World} (hi : Untaken 0 w0) (h0 : Filled env w0 0 w0) {k : Nat} (hk : k ≤ 1023488) :
    ∃ w, Filled env w0 k w := by
  induction k with
  | zero => exact ⟨w0, h0⟩
  | succ k ih =>
    obtain ⟨w, h⟩ := ih (by omega)
    have hw : Untaken 0 w := h.run.invariant hi fun _ _ _ hi _ hs => hi.step (Nat.zero_le _) hs
    exact h.succ hw (by rw [dynamicSpaceSz_eq hw.wf.formatted]; omega)

end Filling

theorem smallWorld_untaken (env : Env) : Untaken 0 smallWorld :=
  untaken_mounted env (by decide) ⟨by decide, by decide⟩ smallStore_mount _

theorem smallWorld_filled {k : Nat} (hk : k ≤ 1023488) : ∃ w, Filled smallEnv smallWorld k w ∧
    Untaken 0 w ∧ w.creates = k := by
  have h0 : Filled smallEnv smallWorld 0 smallWorld := by
    refine ⟨.start, rfl, rfl, rfl, fun o _ ho => ?_⟩
    have hon : smallWorld.zs.onode o = 0 := freshStore_onode ho _
    rw [hon, zero_valid]
  obtain ⟨w, h⟩ := filled_exists (smallWorld_untaken smallEnv) h0 hk
  have hi : Untaken 0 w := h.run.invariant (smallWorld_untaken smallEnv) fun _ _ _ hi _ hs =>
    hi.step (Nat.zero_le _) hs
  refine ⟨w, h, hi, ?_⟩
  have h1 := hi.creates_le
  have h2 := hi.hint_creates
  rw [h.hint] at h1 h2
  simp only [firstIndex, if_true] at h2
  omega

/-- One create less than the dynamic space has blocks: the next one gets the last block. -/
theorem lastIndex_inside : ∃ w, Run (step smallEnv) (fun _ _ => True) smallWorld w ∧
    w.creates = 1023487 ∧ (stupidAllocSpace w.zs.pmAllocator 1).1 = 0 ∧ IndexInside w.zs := by
  obtain ⟨w, h, hi, hcreates⟩ := @smallWorld_filled 1023487 (by decide)
  obtain ⟨_, hg⟩ := hi.gets (Nat.zero_le _)
  refine ⟨w, h.run, hcreates, congrArg Prod.fst hg.alloc, (indexInside_iff smallEnv _ _ 512 0 0 0 _ _ smallStore
    _ w (by decide) ⟨by decide, by decide⟩ smallStore_mount h.run).1.mpr ?_⟩
  rw [h.hint, dynamicSpaceSz_eq hi.wf.formatted]
  exact Nat.lt_succ_self _

/-- After as many creates as the dynamic space has blocks, the next one gets a block behind the end of
the PM, and writes there. -/
theorem lastIndex_outside :
    zstoreMount 0 0 ⟨fun _ => 0, fun _ => 0, 2 ^ 32, fun _ => 0, fun _ => 0⟩
      (zstoreMkfs (fun _ => 0) (fun _ => 0) 512 0 fun _ => 0xff) = .ok smallWorld.zs ∧
    ∃ w, Run (step smallEnv) (fun _ _ => True) smallWorld w ∧ w.creates = 1023488 ∧ ¬ IndexInside w.zs ∧
      zstoreObjAsyncOpCall smallEnv (creation 1023488) w = .error .pmRange := by
  obtain ⟨w, h, hi, hcreates⟩ := @smallWorld_filled 1023488 (Nat.le_refl _)
  have hout : ¬ IndexInside w.zs := by
    rw [hi.inside_iff (Nat.zero_le _), h.hint, dynamicSpaceSz_eq hi.wf.formatted]
    exact Nat.lt_irrefl _
  have hobj := @creation_object 1023488 (by decide)
  refine ⟨smallStore_mount, w, h.run, hcreates, hout, create_faults rfl ?_ ?_ hout⟩
  · rw [hobj, hi.wf.formatted.onodesRsv]
    decide
  · rw [hobj]
    exact h.blank _ (Nat.le_refl _) (by decide)

end ZCell.Store
