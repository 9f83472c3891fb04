import ZCell.Mkfs

/-! Rejected writes: what a call that returns an error code leaves behind. The old extents are
released before the allocation, and neither the release nor a partial allocation is undone. -/
namespace ZCell.Store
open Bytes Persist Pm Allocator Runs

/-- Allocators, persistent memory, onode table and queues are those from before the call. -/
structure Unchanged (w w' : World) : Prop where
  ssdBits : w'.zs.ssdAllocator.bs = w.zs.ssdAllocator.bs
  ssdFree : w'.zs.ssdAllocator.nrFree = w.zs.ssdAllocator.nrFree
  pmAllocator : w'.zs.pmAllocator = w.zs.pmAllocator
  pm : w'.zs.pm = w.zs.pm
  onode : ∀ oid, w'.zs.onode oid = w.zs.onode oid
  txList : w'.zs.txList = w.zs.txList
  txRdonlyList : w'.zs.txRdonlyList = w.zs.txRdonlyList

/-- A write that is to be rejected releases nothing and takes nothing: a check stops it, or its
range maps no block and the allocator gives up before it has taken one. -/
def NothingTouched (zs : ZstoreContext) (r : Request) : Prop :=
  Refused zs r ∨
  mapped (rangeWords zs r) = [] ∧ (zs.ssdAllocator.nrFree < r.blen ∨
    takes zs.ssdAllocator r.blen = [])

instance (zs : ZstoreContext) (r : Request) : Decidable (NothingTouched zs r) :=
  inferInstanceAs (Decidable (_ ∨ _))

variable {env : Env} {r : Request} {w w' : World} {rc : Int}

/-- A rejected call ends with its prepare function. -/
theorem rejected_call (h : zstoreObjAsyncOpCall env r w = .ok (rc, w')) (hrc : rc ≠ 0) :
    ∃ zs tx, zstoreTxPrepare (env.uninit w.zs.tidMax) w.zs r (w.tx w.zs.tidMax) =
        .ok (rc, zs, tx) ∧
      w' = ({ w with zs := zs }.setTx w.zs.tidMax tx).note (.reject w.zs.tidMax rc) := by
  simp only [zstoreObjAsyncOpCall] at h
  split at h
  · cases h
  · rename_i rc0 zs tx hp
    split at h
    · simp only [Except.ok.injEq, Prod.mk.injEq] at h
      obtain ⟨rfl, rfl⟩ := h
      exact ⟨zs, tx, hp, rfl⟩
    · split at h
      · cases h
      · simp only [Except.ok.injEq, Prod.mk.injEq] at h
        exact absurd h.1.symm hrc

/-- The free count after a failed allocation is the one it started from. -/
theorem failed_alloc_nrFree {a : StupidAllocator} {sz : Nat} (hsz : 1 ≤ sz) (h : ¬ HasRoom a sz) :
    (stupidAllocSpace a sz).2.1.nrFree = a.nrFree := by
  by_cases hfew : a.nrFree < sz
  · rw [alloc_of_few hfew]
  · rw [alloc_of_no_room hsz (Nat.le_of_not_lt hfew) h]

theorem failed_alloc_bits {a : StupidAllocator} {sz : Nat} (hsz : 1 ≤ sz) (h : ¬ HasRoom a sz) :
    (stupidAllocSpace a sz).2.1.bs = a.bs ↔ a.nrFree < sz ∨ takes a sz = [] := by
  by_cases hfew : a.nrFree < sz
  · simp [alloc_of_few hfew, hfew]
  · rw [alloc_of_no_room hsz (Nat.le_of_not_lt hfew) h]
    simp only [hfew, false_or]
    constructor
    · intro heq
      exact (setAll_same_iff fun b hb => (takes_free hb).2).mp fun i => by rw [heq]
    · intro hnil
      rw [hnil]
      rfl

theorem released_of_unmapped {zs : ZstoreContext} (h : mapped (rangeWords zs r) = []) :
    released zs r = zs.ssdAllocator := by
  rw [released, oldExtents, (merge_nil_iff _).mpr h, stupidFreeSpace_nil]

/-- A failed allocation leaves bits and count as they were before the release exactly when there was
nothing to release and the scan took nothing. -/
theorem newSsd_same_iff {zs : ZstoreContext} (hpos : 1 ≤ r.blen) (hroom : ¬ HasRoom (released zs r) r.blen) :
    ((newSsd zs r).bs = zs.ssdAllocator.bs ∧ (newSsd zs r).nrFree = zs.ssdAllocator.nrFree) ↔
      mapped (rangeWords zs r) = [] ∧ (zs.ssdAllocator.nrFree < r.blen ∨
        takes zs.ssdAllocator r.blen = []) := by
  have hfree : (newSsd zs r).nrFree = zs.ssdAllocator.nrFree + (mapped (rangeWords zs r)).length := by
    rw [newSsd, failed_alloc_nrFree hpos hroom, released, oldExtents, stupidFreeSpace, blocks_merge]
  constructor
  · rintro ⟨hbits, hcount⟩
    have hnil : mapped (rangeWords zs r) = [] := List.eq_nil_of_length_eq_zero (by omega)
    rw [newSsd, released_of_unmapped hnil] at hbits
    rw [released_of_unmapped hnil] at hroom
    exact ⟨hnil, (failed_alloc_bits hpos hroom).mp hbits⟩
  · rintro ⟨hnil, hno⟩
    rw [released_of_unmapped hnil] at hroom
    refine ⟨?_, by rw [hfree, hnil]; rfl⟩
    rw [newSsd, released_of_unmapped hnil]
    exact (failed_alloc_bits hpos hroom).mpr hno

/-- A rejected write changes nothing exactly when it was rejected by a check, or when it had no
block to release and the allocator none to take. -/
theorem rejectedWrite_unchanged_iff (env : Env) (r : Request) (w w' : World) (rc : Int)
    (hop : r.op = .write) (hshift : w.zs.zsb.ssdMinAllocSizeShift = 12)
    (h : zstoreObjAsyncOpCall env r w = .ok (rc, w')) (hrc : rc ≠ 0) :
    Unchanged w w' ↔ NothingTouched w.zs r := by
  obtain ⟨zs, tx, hp, rfl⟩ := rejected_call h hrc
  obtain ⟨_, href, rfl⟩ | ⟨_, hchk, hpos, hroom, rfl⟩ | ⟨hz, _⟩ := prepare_write hshift hop hp
  · exact ⟨fun _ => Or.inl href, fun _ => ⟨rfl, rfl, rfl, rfl, fun _ => rfl, rfl, rfl⟩⟩
  · have hsame := newSsd_same_iff hpos hroom
    constructor
    · exact fun hun => Or.inr (hsame.mp ⟨hun.ssdBits, hun.ssdFree⟩)
    · intro ht
      obtain ⟨hbits, hcount⟩ := hsame.mpr (ht.resolve_left hchk)
      exact ⟨hbits, hcount, rfl, rfl, fun _ => rfl, rfl, rfl⟩
  · exact absurd hz hrc

/-- A write of 32 blocks at the start of an object. -/
def unitWrite (oid : Nat) : Request := ⟨.write, BitVec.ofNat 64 oid, 0, 32 * 4096, 0⟩

/-- Fifteen of them, and a write of one block: 31 blocks are left, and the next one is rejected before
it has taken any. -/
theorem fullDevice_unchanged :
    ∃ w w' rc, Run (step smallEnv) (fun _ _ => True) smallWorld w ∧
      zstoreObjAsyncOpCall smallEnv (unitWrite 16) w = .ok (rc, w') ∧ rc ≠ 0 ∧
      ¬ Refused w.zs (unitWrite 16) ∧ w.zs.ssdAllocator.nrFree = 31 ∧ Unchanged w w' := by
  have hrun : ((runActs (step smallEnv) (fun _ _ => True)
      (((List.range 15).map fun i => .request (unitWrite i)) ++ [.request ⟨.write, 15, 0, 4096, 0⟩])
      smallWorld).bind fun w => (zstoreObjAsyncOpCall smallEnv (unitWrite 16) w).toOption.map
      fun p => decide (p.1 ≠ 0 ∧ w.zs.zsb.ssdMinAllocSizeShift = 12 ∧ ¬ Refused w.zs (unitWrite 16) ∧
        mapped (rangeWords w.zs (unitWrite 16)) = [] ∧ w.zs.ssdAllocator.nrFree = 31)) =
      some true := by decide +kernel
  obtain ⟨w, hw, hcall⟩ := Option.bind_eq_some_iff.mp hrun
  obtain ⟨⟨rc, w'⟩, hok, hval⟩ := Option.map_eq_some_iff.mp hcall
  obtain ⟨hrc, hshift, hchk, hnil, hfree⟩ := of_decide_eq_true hval
  have hcall := toOption_eq_some hok
  have hfew : w.zs.ssdAllocator.nrFree < (unitWrite 16).blen := by
    rw [hfree]
    decide
  exact ⟨w, w', rc, run_of_runActs .start hw, hcall, hrc, hchk, hfree,
    (rejectedWrite_unchanged_iff smallEnv (unitWrite 16) w w' rc rfl hshift hcall hrc).mpr
      (Or.inr ⟨hnil, Or.inl hfew⟩)⟩

/-- Fifteen writes fill the device up to its last 32 blocks. The next one takes them all, finds
no further free block, and leaves them marked as allocated. -/
theorem fullDevice_changed :
    ∃ w w' rc, Run (step smallEnv) (fun _ _ => True) smallWorld w ∧
      zstoreObjAsyncOpCall smallEnv (unitWrite 15) w = .ok (rc, w') ∧ rc ≠ 0 ∧
      ¬ Unchanged w w' := by
  have hrun : ((runActs (step smallEnv) (fun _ _ => True)
      ((List.range 15).map fun i => .request (unitWrite i)) smallWorld).bind fun w => (zstoreObjAsyncOpCall smallEnv (unitWrite 15) w).toOption.map
      fun p => decide (p.1 ≠ 0 ∧ p.2.zs.ssdAllocator.bs 0 ≠ w.zs.ssdAllocator.bs 0)) =
      some true := by decide +kernel
  obtain ⟨w, hw, hcall⟩ := Option.bind_eq_some_iff.mp hrun
  obtain ⟨⟨rc, w'⟩, hok, hne⟩ := Option.map_eq_some_iff.mp hcall
  obtain ⟨hrc, hbs⟩ := of_decide_eq_true hne
  exact ⟨w, w', rc, run_of_runActs .start hw, toOption_eq_some hok, hrc,
    fun hun => hbs (congrFun hun.ssdBits 0)⟩

end ZCell.Store
