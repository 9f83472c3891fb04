import ZCell.WorkArrays
import ZCell.OnodeHistory

/-! Reads and writes of an object that does not exist. The lookup of `_tx_prep_rw_common` checks
that the onode is in the table, not that it is valid. -/
namespace ZCell.Store
open Bytes Persist Pm Allocator Runs

/-- The request names no valid onode. -/
def Absent (zs : ZstoreContext) (r : Request) : Prop :=
  zs.zsb.onodesRsv ≤ r.oid.toNat ∨ (zs.onode r.oid.toNat).valid = false

/-- Where a call reads index words. -/
def wordsRead (zs : ZstoreContext) (r : Request) : List Nat :=
  if ReadRefused zs r then [] else (List.range r.blen).map (wordAddr zs r)

/-- No word is read from the index block of a valid object. -/
def SparesIndexes (zs : ZstoreContext) (r : Request) : Prop :=
  ∀ a ∈ wordsRead zs r, ∀ oid < zs.zsb.onodesRsv, (zs.onode oid).valid = true →
    a + 4 ≤ objectDataIndexBlock zs (zs.onode oid) ∨
      objectDataIndexBlock zs (zs.onode oid) + zstorePageSize ≤ a

/-- The call returns an error, and allocators, persistent memory and onode table stay as they are. -/
def RefusedCleanly (env : Env) (w : World) (r : Request) : Prop :=
  ∃ rc w', zstoreObjAsyncOpCall env r w = .ok (rc, w') ∧ rc ≠ 0 ∧
    w'.zs.ssdAllocator = w.zs.ssdAllocator ∧ w'.zs.pmAllocator = w.zs.pmAllocator ∧
    w'.zs.pm = w.zs.pm ∧ (∀ oid, w'.zs.onode oid = w.zs.onode oid) ∧ SparesIndexes w.zs r

/-- The first checks stop the request, or it is a write that reads words of no object and is then
rejected with nothing released and nothing taken. -/
def StoppedUnnoticed (zs : ZstoreContext) (r : Request) : Prop :=
  ReadRefused zs r ∨ r.op = .write ∧ r.blen ≤ 32 ∧
    objectDataIndexBlock zs (zs.onode r.oid.toNat) + 4 * r.bofst + 4 * r.blen ≤ zs.pmem.size ∧
    SparesIndexes zs r ∧ NothingTouched zs r

section Calls
variable {env : Env} {g : Uninit} {zs zs' : ZstoreContext} {r : Request} {tx tx' : ZstoreTransaction}
  {w w' : World} {rc : Int}

theorem call_of_prepare (h : zstoreTxPrepare (env.uninit w.zs.tidMax) w.zs r (w.tx w.zs.tidMax) =
    .ok (rc, zs, tx)) (hrc : rc ≠ 0) : zstoreObjAsyncOpCall env r w =
      .ok (rc, ({ w with zs := zs }.setTx w.zs.tidMax tx).note (.reject w.zs.tidMax rc)) := by
  simp only [zstoreObjAsyncOpCall, h]
  rw [if_pos hrc]

/-- The prepare function of a read or write is `_tx_prep_rw_common`, and an error code of that is one
of the call. -/
theorem prepare_of_common (hop : r.op = .read ∨ r.op = .write) (hrc : rc ≠ 0)
    (h : ∀ tx, ∃ tx', txPrepRwCommon g { zs with tidMax := zs.tidMax + 1 } r tx = .ok (rc, zs', tx')) :
    ∃ tx', zstoreTxPrepare g zs r tx = .ok (rc, zs', tx') := by
  have hassert : ∀ tx', assertState .dataIo (.ok (rc, zs', tx')) = .ok (rc, zs', tx') := by
    intro tx'
    unfold assertState
    split
    · rename_i heq
      exact absurd (Prod.mk.inj (Except.ok.inj heq)).1 hrc
    · rfl
  unfold zstoreTxPrepare
  obtain hop | hop := hop
  · simp only [hop]
    obtain ⟨tx', h⟩ := h _
    exact ⟨tx', by rw [h, hassert]⟩
  · simp only [hop]
    obtain ⟨tx', h⟩ := h _
    exact ⟨tx', by rw [h, hassert]⟩

/-- The first checks return before anything is looked up. -/
theorem prepare_refused (hop : r.op = .read ∨ r.op = .write) (href : ReadRefused zs r) :
    ∃ rc tx', rc ≠ 0 ∧
      zstoreTxPrepare g zs r tx = .ok (rc, { zs with tidMax := zs.tidMax + 1 }, tx') := by
  have hrw : ¬ (r.op ≠ .read ∧ r.op ≠ .write) := by
    rintro ⟨hr, hw⟩
    exact hop.elim hr hw
  have hcommon : ∃ rc : Int, rc ≠ 0 ∧ ∀ tx, ∃ tx',
      txPrepRwCommon g { zs with tidMax := zs.tidMax + 1 } r tx =
        .ok (rc, { zs with tidMax := zs.tidMax + 1 }, tx') := by
    simp only [txPrepRwCommon, if_neg hrw]
    by_cases h1 : r.len = 0 ∨ r.len.toNat % zstorePageSize ≠ 0
    · exact ⟨Status.invalidOp.code, by decide, fun tx => ⟨tx, by rw [if_pos h1]⟩⟩
    · by_cases h2 : r.ofst.toNat % zstorePageSize ≠ 0
      · exact ⟨Status.invalidOp.code, by decide, fun tx => ⟨tx, by rw [if_neg h1, if_pos h2]⟩⟩
      · have h3 : zs.zsb.onodesRsv ≤ r.oid.toNat := by
          obtain h | h | h | h := href
          · exact absurd (Or.inl h) h1
          · exact absurd (Or.inr h) h1
          · exact absurd h h2
          · exact h
        exact ⟨Status.ostoreNoNode.code, by decide, fun tx => ⟨tx, by
          rw [if_neg h1, if_neg h2, if_pos h3]⟩⟩
  obtain ⟨rc, hrc, hcommon⟩ := hcommon
  obtain ⟨tx', h⟩ := @prepare_of_common g zs _ r tx rc hop hrc hcommon
  exact ⟨rc, tx', hrc, h⟩

/-- An allocation that has nothing to take leaves the allocator as it is. -/
theorem alloc_untouched {a : StupidAllocator} {sz : Nat} (hsz : 1 ≤ sz)
    (h : a.nrFree < sz ∨ takes a sz = []) :
    ∃ rc ex, rc ≠ 0 ∧ stupidAllocSpace a sz = (rc, a, ex) := by
  by_cases hfew : a.nrFree < sz
  · exact ⟨_, _, by decide, alloc_of_few hfew⟩
  · have hnil := h.resolve_left hfew
    have hroom : ¬ HasRoom a sz := by
      intro hr
      have hlen := takes_length hr
      rw [hnil, List.length_nil] at hlen
      omega
    have halloc := alloc_of_no_room hsz (Nat.le_of_not_lt hfew) hroom
    rw [hnil] at halloc
    exact ⟨_, _, by decide, halloc⟩

/-- A write whose range maps nothing fails before it has changed anything. -/
theorem txPrepWrite_unmapped {oe : OtableEntry} {blen : Nat} (hpos : 1 ≤ blen)
    (hsmall : ¬ zstoreObjMaxSizeBytes < (r.ofst + r.len).toNat)
    (h : zs.ssdAllocator.nrFree < blen ∨ takes zs.ssdAllocator blen = []) :
    ∃ rc, rc ≠ 0 ∧ ∀ tx, ∃ tx', txPrepWrite g zs r tx oe [] blen = .ok (rc, zs, tx') := by
  obtain ⟨rc, ex, hrc, halloc⟩ := alloc_untouched hpos h
  refine ⟨rc, hrc, fun tx => ⟨{ tx with txType := .write, state := .dataIo }, ?_⟩⟩
  simp only [txPrepWrite, if_neg hsmall, blocks, List.flatMap_nil, List.any_nil, Bool.false_eq_true,
    if_false, if_true, halloc]
  rw [if_pos hrc]

/-- A looked-up write that is to be rejected with nothing touched is rejected. -/
theorem prepare_untouched (hshift : zs.zsb.ssdMinAllocSizeShift = 12) (hop : r.op = .write)
    (hchk : ¬ ReadRefused zs r) (hle : r.blen ≤ 32)
    (hpm : objectDataIndexBlock zs (zs.onode r.oid.toNat) + 4 * r.bofst + 4 * r.blen ≤ zs.pmem.size)
    (h : NothingTouched zs r) : ∃ rc tx', rc ≠ 0 ∧
      zstoreTxPrepare g zs r tx = .ok (rc, { zs with tidMax := zs.tidMax + 1 }, tx') := by
  have hcommon : ∃ rc : Int, rc ≠ 0 ∧ ∀ tx, ∃ tx',
      txPrepRwCommon g { zs with tidMax := zs.tidMax + 1 } r tx =
        .ok (rc, { zs with tidMax := zs.tidMax + 1 }, tx') := by
    simp only [@txPrepRwCommon_write g { zs with tidMax := zs.tidMax + 1 } r _ hshift hop hchk hle hpm]
    by_cases hbig : zstoreObjMaxSizeBytes < (r.ofst + r.len).toNat
    · exact ⟨Status.ostoreWriteOutMaxSize.code, by decide, fun tx =>
        ⟨{ tx with dataBuffer := r.dataBuffer }, by rw [txPrepWrite, if_pos hbig]⟩⟩
    · have hnr : ¬ Refused zs r := by
        rintro (h1 | h1 | h1 | h1 | h1)
        · exact hchk (Or.inl h1)
        · exact hchk (Or.inr (Or.inl h1))
        · exact hchk (Or.inr (Or.inr (Or.inl h1)))
        · exact hchk (Or.inr (Or.inr (Or.inr h1)))
        · exact hbig h1
      obtain ⟨hnil, hno⟩ := h.resolve_left hnr
      have hold : oldExtents { zs with tidMax := zs.tidMax + 1 } r = [] := (merge_nil_iff _).mpr hnil
      rw [hold]
      obtain ⟨rc, hrc, hw⟩ := @txPrepWrite_unmapped g { zs with tidMax := zs.tidMax + 1 } r
        (zs.onode r.oid.toNat) r.blen (checked_blen hchk) hbig hno
      exact ⟨rc, hrc, fun tx => hw _⟩
  obtain ⟨rc, hrc, hcommon⟩ := hcommon
  obtain ⟨tx', h⟩ := @prepare_of_common g zs _ r tx rc (Or.inr hop) hrc hcommon
  exact ⟨rc, tx', hrc, h⟩

/-- No word of its range is a hole for a read. -/
theorem mapped_readRange (zs : ZstoreContext) (r : Request) : (mapped (readRange zs r)).length = r.blen := by
  rw [mapped, List.filter_eq_self.mpr (by simpa using readRange_mapped zs r), List.length_map, readRange,
    List.length_map, rangeWords, readWords_length]

theorem merge_count (bi : List (BitVec 32)) : (objectLbaMergeTo bi).2 = (mapped bi).length := by
  have h := (foldl_mergeRound bi ⟨[], false, 0⟩).2.2.2
  simpa [objectLbaMergeTo] using h

/-- No read fails behind the first checks: `OSTORE_READ_HOLE` is never returned. -/
theorem prepare_read_accepts (hshift : zs.zsb.ssdMinAllocSizeShift = 12) (hop : r.op = .read)
    (hchk : ¬ ReadRefused zs r) (h : zstoreTxPrepare g zs r tx = .ok (rc, zs', tx')) : rc = 0 := by
  have hpos := checked_blen hchk
  simp only [ReadRefused, not_or] at hchk
  obtain ⟨h1, h2, h3, h4⟩ := hchk
  simp only [zstoreTxPrepare, hop] at h
  obtain ⟨h, _⟩ := assertState_ok h
  simp only [txPrepRwCommon, hop, ne_eq, not_true_eq_false, false_and, if_false, if_true] at h
  rw [if_neg (not_or.mpr ⟨h1, h2⟩), if_neg h3, if_neg h4] at h
  split at h
  · cases h
  · rename_i e mb dib hget
    obtain ⟨hmax, _, hres⟩ := @objectLbaRangeGet_ok { zs with tidMax := zs.tidMax + 1 } r _ _ _
      hshift hget
    have hmod : r.len.toNat / zstorePageSize % 2 ^ 32 = r.blen := blen_mod hmax
    have hmapped : (mapped (readRange zs r)).length = r.blen := mapped_readRange zs r
    simp only [reduceCtorEq, decide_false, Bool.false_eq_true, if_false, Prod.mk.injEq] at hres
    obtain ⟨rfl, rfl, _⟩ := hres
    split at h
    · rename_i hhole
      obtain hnil | hne := hhole
      · have hm : mapped (readRange zs r) = [] := (merge_nil_iff _).mp hnil
        rw [hm] at hmapped
        simp at hmapped
        omega
      · rw [hmod] at hne
        exact absurd (hmapped.symm.trans (merge_count (readRange zs r)).symm) hne
    · exact (Prod.mk.inj (Except.ok.inj h)).1.symm

theorem sparesIndexes_refused (href : ReadRefused zs r) : SparesIndexes zs r := by
  intro a ha
  rw [wordsRead, if_pos href] at ha
  exact absurd ha List.not_mem_nil

theorem refusedCleanly_iff (hshift : w.zs.zsb.ssdMinAllocSizeShift = 12) (hop : r.op = .read ∨ r.op = .write) :
    RefusedCleanly env w r ↔ StoppedUnnoticed w.zs r := by
  constructor
  · rintro ⟨rc, w', h, hrc, hssd, _, _, _, hspare⟩
    by_cases href : ReadRefused w.zs r
    · exact Or.inl href
    · obtain ⟨zs, tx, hp, rfl⟩ := rejected_call h hrc
      obtain ⟨hle, hpm⟩ := prepare_lookup hshift hop href hp
      obtain hr | hw := hop
      · exact absurd (prepare_read_accepts hshift hr href hp) hrc
      · refine Or.inr ⟨hw, hle, hpm, hspare, ?_⟩
        obtain ⟨_, hno, _⟩ | ⟨_, _, hpos, hroom, rfl⟩ | ⟨hz, _⟩ := prepare_write hshift hw hp
        · exact Or.inl hno
        · have hsame : newSsd w.zs r = w.zs.ssdAllocator := hssd
          exact Or.inr ((newSsd_same_iff hpos hroom).mp ⟨by rw [hsame], by rw [hsame]⟩)
        · exact absurd hz hrc
  · intro hs
    have hspare : SparesIndexes w.zs r := hs.elim sparesIndexes_refused fun h => h.2.2.2.1
    have hprep : ∃ rc tx', rc ≠ 0 ∧ zstoreTxPrepare (env.uninit w.zs.tidMax) w.zs r (w.tx w.zs.tidMax) =
        .ok (rc, { w.zs with tidMax := w.zs.tidMax + 1 }, tx') := by
      by_cases href : ReadRefused w.zs r
      · exact prepare_refused hop href
      · obtain ⟨hw, hle, hpm, _, ht⟩ := hs.resolve_left href
        exact prepare_untouched hshift hw href hle hpm ht
    obtain ⟨rc, tx', hrc, hp⟩ := hprep
    exact ⟨rc, _, call_of_prepare hp hrc, hrc, rfl, rfl, rfl, fun _ => rfl, hspare⟩

end Calls

/-- In every reachable state, with any calls still on the stack: a read or write of an object that
does not exist is refused cleanly exactly when something else than the missing onode stops it. -/
theorem absentObject_iff (env : Env) (w0 w : World) (s : List Frame) (r : Request) (hm : Mounted w0)
    (hrun : Run (step env) (fun _ _ => True) w0 w) (hop : r.op = .read ∨ r.op = .write) :
    Absent w.zs r → (RefusedCleanly env { w with stack := s } r ↔ StoppedUnnoticed w.zs r) := by
  intro _
  have hw := hrun.invariant hm.wf fun _ _ _ hi _ hs => step_wf hi hs
  exact @refusedCleanly_iff env r { w with stack := s } hw.formatted.shift hop

/-- A write of object 5 behind its 4 MiB. -/
def farBlock : Request := ⟨.write, 5, 4 * 2 ^ 20, 4096, 0⟩

/-- Object 3 is the only one. The write of object 5 reads the word behind its index block, and is rejected
for its end. -/
theorem farWrite_refusedCleanly : ∃ w, Run (step smallEnv) (fun _ _ => True) smallWorld w ∧
    (w.zs.onode 3).valid = true ∧ Absent w.zs farBlock ∧ ¬ ReadRefused w.zs farBlock ∧
    RefusedCleanly smallEnv w farBlock := by
  have hrun : (runActs (step smallEnv) (fun w a => ∀ r ∈ callOf w a, w.zs.txList = [])
      [createObject 3, .resume, .resume] smallWorld).map (fun w => decide (w.stack = [] ∧
        (w.zs.onode 3).valid = true ∧ (w.zs.onode 5).valid = false ∧ ¬ ReadRefused w.zs farBlock ∧
        w.zs.zsb.onodesRsv = 2 ^ 20 ∧ (∀ t ∈ w.applied, (w.tx t).request.object = 3) ∧
        objectDataIndexBlock w.zs (w.zs.onode 5) + 4 * farBlock.bofst + 4 * farBlock.blen ≤
          w.zs.pmem.size ∧ Refused w.zs farBlock ∧ wordAddr w.zs farBlock 0 =
          objectDataIndexBlock w.zs (w.zs.onode 3) + zstorePageSize)) = some true := by
    decide +kernel
  obtain ⟨w, hw, hval⟩ := Option.map_eq_some_iff.mp hrun
  obtain ⟨hs, h3, h5, hchk, hrsv, happ, hpm, href, haddr⟩ := of_decide_eq_true hval
  have hr := run_of_runActs .start hw
  have htrue : Run (step smallEnv) (fun _ _ => True) smallWorld w :=
    @Run.mono_of_invariant _ _ _ _ _ (fun _ => True) _ trivial (fun _ _ _ _ _ _ => trivial)
      (fun _ _ _ _ => trivial) _ hr
  have habs : Absent w.zs farBlock := Or.inr h5
  have hspare : SparesIndexes w.zs farBlock := by
    intro a ha o ho hval
    rw [wordsRead, if_neg hchk] at ha
    obtain ⟨i, hi, rfl⟩ := List.mem_map.mp ha
    have hone : farBlock.blen = 1 := rfl
    rw [hone, List.mem_range] at hi
    obtain rfl : i = 0 := by omega
    rw [hrsv] at ho
    by_cases heq : o = 3
    · rw [heq, haddr]
      exact Or.inr (Nat.le_refl _)
    · have hsame := onode_kept smallWorld_mounted ho hr fun t ht hc => heq (hc.1.symm.trans (happ t ht))
      have hzero : w.zs.onode o = 0 := hsame.trans (freshStore_onode ho _)
      rw [hzero, zero_valid] at hval
      cases hval
  have hclean := (absentObject_iff smallEnv smallWorld w [] farBlock smallWorld_mounted htrue (Or.inr rfl)
    habs).mpr (Or.inr ⟨rfl, by decide, hpm, hspare, Or.inl href⟩)
  have hstack : { w with stack := [] } = w := by rw [← hs]
  exact ⟨w, htrue, h3, habs, hchk, hstack ▸ hclean⟩

/-- A write of the first block of object 5. -/
def absentBlock : Request := ⟨.write, 5, 0, 4096, 0⟩

/-- Object 3 is created and gets index block 0; the write of object 5, which was never created, is
then accepted with the words of that block. -/
theorem absentWrite_not_refusedCleanly : Mounted smallWorld ∧
    ∃ w, Run (step smallEnv) (fun _ _ => True) smallWorld w ∧ Absent w.zs absentBlock ∧
      ¬ RefusedCleanly smallEnv w absentBlock ∧ ¬ SparesIndexes w.zs absentBlock := by
  have hrun : ((runActs (step smallEnv) (fun _ _ => True) [createObject 3, .resume, .resume]
      smallWorld).bind fun w => (zstoreObjAsyncOpCall smallEnv absentBlock w).toOption.map fun p =>
        decide (p.1 = 0 ∧ (w.zs.onode 5).valid = false ∧ (w.zs.onode 3).valid = true ∧
          3 < w.zs.zsb.onodesRsv ∧ ¬ ReadRefused w.zs absentBlock ∧
          wordAddr w.zs absentBlock 0 = objectDataIndexBlock w.zs (w.zs.onode 3))) =
      some true := by decide +kernel
  obtain ⟨w, hw, hcall⟩ := Option.bind_eq_some_iff.mp hrun
  obtain ⟨⟨rc, w1⟩, hok, hp⟩ := Option.map_eq_some_iff.mp hcall
  obtain ⟨hrc, h5, h3, hlt, hchk, haddr⟩ := of_decide_eq_true hp
  obtain rfl : rc = 0 := hrc
  refine ⟨smallWorld_mounted, w, run_of_runActs .start hw, Or.inr h5, ?_, fun hs => ?_⟩
  · rintro ⟨rc, w', h, hne, _⟩
    rw [toOption_eq_some hok] at h
    exact hne (Prod.mk.inj (Except.ok.inj h)).1.symm
  · have hmem : wordAddr w.zs absentBlock 0 ∈ wordsRead w.zs absentBlock := by
      rw [wordsRead, if_neg hchk]
      exact List.mem_map.mpr ⟨0, List.mem_range.mpr (by decide), rfl⟩
    have hsep := hs _ hmem 3 hlt h3
    rw [haddr] at hsep
    unfold zstorePageSize at hsep
    omega

end ZCell.Store
