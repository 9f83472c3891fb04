import ZCell.Accounting

/-! Several writes in flight. A write looks up the blocks that it releases when it is prepared, and
finds the mapping as the last commit left it: the account is kept as long as the writes in flight
are to different entries. -/
namespace ZCell.Store
open Bytes Persist Pm Allocator Runs Holding

/-- Every write that passes its checks is to a valid object, away from the queued writes, finds
room and opens no extent over a gap. Objects are created once, and not deleted. -/
def WritesApart (w : World) (a : Act) : Prop :=
  ∀ r ∈ callOf w a,
    (r.op = .write → ¬ Refused w.zs r → (w.zs.onode r.object).valid = true ∧ ApartFromQueue w r ∧
      HasRoom (released w.zs r) r.blen ∧ Neighbours (released w.zs r) r.blen) ∧
    (r.op = .create → (w.zs.onode r.object).valid = false → HasRoom w.zs.pmAllocator 1 →
      ApartFromQueue w r) ∧
    (r.op = .delete → (w.zs.onode r.object).valid = false)

instance (w : World) (a : Act) : Decidable (WritesApart w a) :=
  inferInstanceAs (Decidable (∀ r ∈ callOf w a, _))

/-- Transaction `t` is a write that takes block `b`. -/
def Takes (w : World) (b t : Nat) : Prop :=
  IsWrite w t ∧ b ∈ takes (released (w.before t) (w.tx t).request) (w.tx t).request.blen

/-- Transaction `t` is a write that releases block `b`. -/
def Releases (w : World) (b t : Nat) : Prop :=
  IsWrite w t ∧ b ∈ mapped (rangeWords (w.before t) (w.tx t).request)

instance (w : World) (b t : Nat) : Decidable (Takes w b t) := inferInstanceAs (Decidable (_ ∧ _))

instance (w : World) (b t : Nat) : Decidable (Releases w b t) :=
  inferInstanceAs (Decidable (_ ∧ _))

/-- How often a block has been taken, and how often it has been released. -/
def takings (w : World) (b : Nat) : Nat := w.accepted.countP fun t => decide (Takes w b t)

def releases (w : World) (b : Nat) : Nat := w.accepted.countP fun t => decide (Releases w b t)

/-- A free block has been released as often as taken, a block in use once less. -/
def Balanced (w : World) : Prop :=
  ∀ b < w.zs.ssdAllocator.nrTotal,
    takings w b = releases w b + if bit w.zs.ssdAllocator.bs b then 1 else 0

structure ApartInv (w : World) : Prop where
  accounted : Accounted w
  undeleted : ∀ t ∈ w.zs.txList, (w.tx t).request.op ≠ .delete
  once : ∀ t ∈ w.accepted, IsWrite w t → ReleasesOnce w t
  balanced : Balanced w

section Steps
variable {env : Env} {w w' : World} {a : Act}

theorem WritesApart.orderly (h : WritesApart w a)
    (hdel : ∀ t ∈ w.zs.txList, (w.tx t).request.op ≠ .delete) : Orderly false w a := by
  intro r hr
  obtain ⟨hwrite, hcreate, hdelete⟩ := h r hr
  refine ⟨fun hop hchk => ?_, fun hop hval hroom => ⟨hcreate hop hval hroom, ?_, ?_⟩,
    fun hop hval => ?_⟩
  · obtain ⟨hval, hapart, hroom, hn⟩ := hwrite hop hchk
    refine ⟨hval, hapart, ?_⟩
    rwa [if_pos hroom]
  · exact fun t ht hd => absurd hd (hdel t ht)
  · rintro ⟨hc, -⟩
    cases hc
  · rw [hdelete hop] at hval
    cases hval

theorem WritesApart.lossless (h : WritesApart w a) : Lossless w a := by
  intro r hr
  obtain ⟨hwrite, _, hdelete⟩ := h r hr
  refine ⟨fun hop hno => ?_, fun hop hval => ?_⟩
  · by_cases hchk : Refused w.zs r
    · exact Or.inl hchk
    · exact absurd (hwrite hop hchk).2.2.1 hno
  · rw [hdelete hop] at hval
    cases hval

/-- The requests accepted before keep what they took and released. -/
theorem history_congr (hw : WF w) (hl : Logged w) (hstep : step env a w = some w') {t : Nat}
    (ht : t ∈ w.accepted) :
    (IsWrite w' t ↔ IsWrite w t) ∧ (ReleasesOnce w' t ↔ ReleasesOnce w t) ∧
    ∀ b, (Takes w' b t ↔ Takes w b t) ∧ (Releases w' b t ↔ Releases w b t) := by
  obtain ⟨h1, h2, _⟩ := (step_keeps hw hstep).2 t (hl.1 t ht)
  have hwr : IsWrite w' t ↔ IsWrite w t := by rw [IsWrite, IsWrite, h1.1]
  refine ⟨hwr, by rw [ReleasesOnce, ReleasesOnce, h1.1, h2], fun b => ⟨?_, ?_⟩⟩
  · rw [Takes, Takes, hwr, h1.1, h2]
  · rw [Releases, Releases, hwr, h1.1, h2]

theorem counts_append (hw : WF w) (hl : Logged w) (hstep : step env a w = some w') {l : List Nat}
    (hacc : w'.accepted = w.accepted ++ l) (b : Nat) :
    takings w' b = takings w b + l.countP (fun t => decide (Takes w' b t)) ∧
    releases w' b = releases w b + l.countP (fun t => decide (Releases w' b t)) := by
  rw [takings, releases, hacc, List.countP_append, List.countP_append]
  constructor
  · congr 1
    apply List.countP_congr
    intro t ht
    rw [decide_eq_true_eq, decide_eq_true_eq]
    exact ((history_congr hw hl hstep ht).2.2 b).1
  · congr 1
    apply List.countP_congr
    intro t ht
    rw [decide_eq_true_eq, decide_eq_true_eq]
    exact ((history_congr hw hl hstep ht).2.2 b).2

/-- A step in which no write is accepted leaves the history of the blocks alone. -/
theorem ApartInv.history (hi : ApartInv w) (hstep : step env a w = some w')
    (hal : w'.zs.ssdAllocator = w.zs.ssdAllocator) {l : List Nat}
    (hacc : w'.accepted = w.accepted ++ l) (hl : ∀ t ∈ l, ¬ IsWrite w' t) :
    (∀ t ∈ w'.accepted, IsWrite w' t → ReleasesOnce w' t) ∧ Balanced w' := by
  have hw := hi.accounted.owned.wf
  have hlog := hi.accounted.owned.logged
  constructor
  · intro t ht hwr
    rw [hacc] at ht
    obtain ht | ht := List.mem_append.mp ht
    · obtain ⟨h1, h2, _⟩ := history_congr hw hlog hstep ht
      exact h2.mpr (hi.once t ht (h1.mp hwr))
    · exact absurd hwr (hl t ht)
  · intro b hb
    rw [hal] at hb ⊢
    obtain ⟨h1, h2⟩ := counts_append hw hlog hstep hacc b
    have hz1 : l.countP (fun t => decide (Takes w' b t)) = 0 := by
      rw [List.countP_eq_zero]
      intro t ht hc
      exact hl t ht (of_decide_eq_true hc).1
    have hz2 : l.countP (fun t => decide (Releases w' b t)) = 0 := by
      rw [List.countP_eq_zero]
      intro t ht hc
      exact hl t ht (of_decide_eq_true hc).1
    have hbal := hi.balanced b hb
    rw [h1, h2, hz1, hz2]
    exact hbal

theorem ApartInv.written {r : Request} {zs : ZstoreContext} {tx : ZstoreTransaction}
    (hi : ApartInv w) (hstep : step env a w = some w') (ha : Accepts r w w' zs tx)
    (hwr : Written w.zs r zs tx) (hop : r.op = .write)
    (hrel : Releasable w.zs.ssdAllocator (mapped (rangeWords w.zs r)))
    (hal : w'.zs.ssdAllocator = newSsd w.zs r) :
    (∀ t ∈ w'.accepted, IsWrite w' t → ReleasesOnce w' t) ∧ Balanced w' := by
  have hw := hi.accounted.owned.wf
  have hlog := hi.accounted.owned.logged
  have hreq : (w'.tx w.zs.tidMax).request = r := ha.request_self
  have hbefore : w'.before w.zs.tidMax = w.zs := ha.before_self
  have hnew : IsWrite w' w.zs.tidMax := by rw [IsWrite, hreq, hop]
  constructor
  · intro t ht hwt
    rw [ha.accepted] at ht
    obtain ht | ht := List.mem_append.mp ht
    · obtain ⟨h1, h2, _⟩ := history_congr hw hlog hstep ht
      exact h2.mpr (hi.once t ht (h1.mp hwt))
    · obtain rfl := List.mem_singleton.mp ht
      rwa [ReleasesOnce, hbefore, hreq]
  · intro b hb
    rw [hal, (newSsd_total w.zs r).1] at hb
    obtain ⟨h1, h2⟩ := counts_append hw hlog hstep ha.accepted b
    have htake : Takes w' b w.zs.tidMax ↔ b ∈ takes (released w.zs r) r.blen := by
      rw [Takes, hbefore, hreq]
      simp only [hnew, true_and]
    have hrels : Releases w' b w.zs.tidMax ↔ b ∈ mapped (rangeWords w.zs r) := by
      rw [Releases, hbefore, hreq]
      simp only [hnew, true_and]
    have hbal := hi.balanced b hb
    have hbit : bit w'.zs.ssdAllocator.bs b = ((bit w.zs.ssdAllocator.bs b &&
        decide (b ∉ mapped (rangeWords w.zs r))) ||
        decide (b ∈ takes (released w.zs r) r.blen)) := by
      rw [hal, hwr.newSsd_bs, bit_setAll, bit_released]
    rw [h1, h2, hbal, hbit]
    simp only [List.countP_singleton, htake, hrels, decide_eq_true_eq]
    by_cases hold : b ∈ mapped (rangeWords w.zs r)
    · -- the block was in use, and is given up
      simp only [hold, (hrel.2 b hold).2, not_true_eq_false, decide_false, Bool.and_false,
        Bool.false_or, decide_eq_true_eq, if_true]
    · by_cases hnew : b ∈ takes (released w.zs r) r.blen
      · have hfree := (takes_free hnew).2
        rw [bit_released] at hfree
        simp only [hold, not_false_eq_true, decide_true, Bool.and_true] at hfree
        simp only [hold, hnew, hfree, Bool.false_and, decide_true, Bool.or_true, if_true, if_false,
          Bool.false_eq_true]
      · simp only [hold, hnew, not_false_eq_true, decide_true, decide_false, Bool.and_true,
          Bool.or_false, if_false]
        omega

theorem ApartInv.step (hi : ApartInv w) (hok : WritesApart w a)
    (hstep : Store.step env a w = some w') : ApartInv w' := by
  have hw := hi.accounted.owned.wf
  have hord := hok.orderly hi.undeleted
  have hacc' := hi.accounted.step hord hok.lossless hstep
  have hundel : ∀ t ∈ w'.zs.txList, (w'.tx t).request.op ≠ .delete := by
    intro t ht hop
    obtain ⟨ht, hreq, _⟩ | ⟨r, zs, tx, _, hr, hacc, hreq, _⟩ := joins_step hw hstep ht
    · rw [hreq] at hop
      exact hi.undeleted t ht hop
    · rw [hreq] at hop
      have hno := (hok r hr).2.2 hop
      cases hacc with
      | write hop' _ => rw [hop] at hop'; cases hop'
      | create hop' _ => rw [hop] at hop'; cases hop'
      | delete _ h => rw [h.valid] at hno; cases hno
  have hnil : ∀ t ∈ ([] : List Nat), ¬ IsWrite w' t := fun t ht => absurd ht List.not_mem_nil
  suffices h : (∀ t ∈ w'.accepted, IsWrite w' t → ReleasesOnce w' t) ∧ Balanced w' from
    ⟨hacc', hundel, h.1, h.2⟩
  obtain hq | ⟨r, hr, ⟨rc, tx, hrej⟩ | ⟨zs, tx, ha⟩⟩ | ⟨tid, p, hc⟩ := step_cases hw hstep
  · exact hi.history hstep hq.zs.ssdAllocator (hq.accepted.trans (List.append_nil _).symm) hnil
  · obtain hal | ⟨hop, hchk, _, hno, _⟩ := hrej.ssd hw.formatted
    · exact hi.history hstep hal (hrej.accepted.trans (List.append_nil _).symm) hnil
    · exact absurd ((hok r hr).1 hop hchk).2.2.1 hno
  · have hother : r.op ≠ .write → ∀ t ∈ [w.zs.tidMax], ¬ IsWrite w' t := by
      intro hne t ht
      obtain rfl := List.mem_singleton.mp ht
      rwa [IsWrite, ha.request_self]
    obtain ⟨hop, hread, n, l, hzs⟩ | ⟨hacc, n, hzs⟩ := ha.kind
    · exact hi.history hstep (by rw [hzs, hread.store]) ha.accepted (hother (by rw [hop]; decide))
    · cases hacc with
      | write hop hwr =>
        obtain ⟨hval, hapart, _⟩ := (hok r hr).1 hop hwr.checked
        exact hi.written hstep ha hwr hop (hi.accounted.owned.releasable hwr hop hval hapart)
          (by rw [hzs, hwr.store])
      | create hop h =>
        exact hi.history hstep (by rw [hzs, h.store]) ha.accepted (hother (by rw [hop]; decide))
      | delete hop h =>
        exact hi.history hstep (by rw [hzs, h.store]) ha.accepted (hother (by rw [hop]; decide))
  · obtain ⟨n, hzs⟩ := hc.zs
    exact hi.history hstep (by rw [hzs]) (hc.accepted.trans (List.append_nil _).symm) hnil

end Steps

/-- While no write overlaps one that is still queued, writes are to valid objects, find room and
open no extent over a gap, and objects are created once and not deleted, every write releases
blocks that are in use, each once; a block is released once for each time it is taken; and as
soon as all writes are committed, the blocks in use are those that the objects map, each in one
place. -/
theorem writes_accounted (env : Env) (stk : Image) (e : Nat → OtableEntry) (nblks cpu : Nat)
    (flags mflags : BitVec 32) (m : Image) (h : MountMem) (zs : ZstoreContext)
    (heap : Nat → ZstoreTransaction) (w : World)
    (hflags : flags &&& zstoreMkfsReserveObjid = 0) (hcpu : cpu < 127) (hp : h.Placed)
    (hm : zstoreMount cpu mflags h (zstoreMkfs stk e nblks flags m) = .ok zs)
    (hrun : Run (step env) WritesApart (World.mounted zs heap) w) :
    (∀ t ∈ w.accepted, IsWrite w t → ReleasesOnce w t) ∧ Balanced w ∧
    ((∀ t ∈ w.zs.txList, ¬ IsWrite w t) → BlocksMapped w.zs) := by
  obtain ⟨hw, hnone, hclear, hcount⟩ := mkfs_mounted hflags hcpu hp hm heap
  have hstart : ApartInv (World.mounted zs heap) := by
    refine ⟨hw.accounted hnone hclear hcount, fun t ht => ?_,
      fun t ht => absurd ht List.not_mem_nil, fun b hb => ?_⟩
    · rw [hw.txList] at ht
      exact absurd ht List.not_mem_nil
    · have hzero : bit (World.mounted zs heap).zs.ssdAllocator.bs b = false := hclear b hb
      rw [hzero]
      rfl
  have hi : ApartInv w := hrun.invariant hstart fun _ _ _ hi hok hs => hi.step hok hs
  exact ⟨hi.once, hi.balanced, fun hidle => hi.accounted.blocksMapped hidle⟩

/-- Two blocks of object 1 are in flight at once, and are committed in order. -/
theorem neighbourWrites_accounted : ∃ w : World, w.applied = [0, 1, 2] ∧
    w.zs.ssdAllocator.bs 0 = 3 ∧ (∀ t ∈ w.accepted, IsWrite w t → ReleasesOnce w t) ∧
    Balanced w ∧ BlocksMapped w.zs := by
  have hrun : (runActs (step smallEnv) WritesApart [createObject 1, .resume, .resume,
      writeBlock 1, .request ⟨.write, 1, 4096, 4096, 0⟩, .bioDone 1 true, .bioDone 0 true,
      .resume, .resume, .resume, .resume, .resume] smallWorld).map
      (fun w => decide (w.applied = [0, 1, 2] ∧ w.zs.txList = [] ∧
        w.zs.ssdAllocator.bs 0 = 3)) = some true := by
    decide +kernel
  obtain ⟨w, hw, hval⟩ := Option.map_eq_some_iff.mp hrun
  obtain ⟨happ, hidle, hbits⟩ := of_decide_eq_true hval
  obtain ⟨h1, h2, h3⟩ := writes_accounted smallEnv _ _ 512 0 0 0 _ _ _ _ w (by decide) (by decide)
    ⟨by decide, by decide⟩ smallStore_mount (run_of_runActs .start hw)
  exact ⟨w, happ, hbits, h1, h2, h3 fun t ht => by
    rw [hidle] at ht
    exact absurd ht List.not_mem_nil⟩

/-- Block 0 is released by two writes in flight at once, and taken once. -/
theorem overlappingWrites_twice :
    zstoreMount 0 0 ⟨fun _ => 0, fun _ => 0, 2 ^ 32, fun _ => 0, fun _ => 0⟩
      (zstoreMkfs (fun _ => 0) (fun _ => 0) 512 0 fun _ => 0xff) = .ok smallWorld.zs ∧
    ∃ w : World, Run (step smallEnv) (fun _ _ => True) smallWorld w ∧
      w.accepted = [0, 1, 2, 3] ∧ w.applied = [0, 1, 2, 3] ∧ w.zs.txList = [] ∧
      takings w 0 = 1 ∧ releases w 0 = 2 ∧ ¬ ReleasesOnce w 3 ∧ ¬ Balanced w ∧
      bit w.zs.ssdAllocator.bs 1 = true ∧
      indexWord w.zs.pm (1024 * (w.zs.onode 1).dataIdxId) = 2 := by
  have hrun : (runActs (step smallEnv) (fun _ _ => True) [createObject 1, .resume, .resume,
      writeBlock 1, .bioDone 0 true, .resume, .resume, .resume, writeBlock 1, writeBlock 1,
      .bioDone 1 true, .bioDone 0 true, .resume, .resume, .resume, .resume, .resume]
      smallWorld).map (fun w => decide (w.accepted = [0, 1, 2, 3] ∧
        w.applied = [0, 1, 2, 3] ∧ w.zs.txList = [] ∧ takings w 0 = 1 ∧ releases w 0 = 2 ∧
        ¬ Releasable (w.before 3).ssdAllocator
          (mapped (rangeWords (w.before 3) (w.tx 3).request)) ∧
        0 < w.zs.ssdAllocator.nrTotal ∧ bit w.zs.ssdAllocator.bs 1 = true ∧
        indexWord w.zs.pm (1024 * (w.zs.onode 1).dataIdxId) = 2)) = some true := by
    decide +kernel
  obtain ⟨w, hw, hval⟩ := Option.map_eq_some_iff.mp hrun
  obtain ⟨h1, h2, h3, h4, h5, h6, h7, h8, h9⟩ := of_decide_eq_true hval
  refine ⟨smallStore_mount, w, run_of_runActs .start hw, h1, h2, h3, h4, h5, h6,
    fun hbal => ?_, h8, h9⟩
  have hb := hbal 0 h7
  rw [h4, h5] at hb
  omega

end ZCell.Store
