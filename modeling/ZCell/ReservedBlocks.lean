import Mathlib.Data.List.GetD
import ZCell.Spared
import ZCell.WorkArrays

/-! The SSD blocks that mkfs marks for its reserved objects. No index maps one of them, so that none is
ever released, whatever requests are made. -/
namespace ZCell.Store
open Bytes Persist Pm Allocator Runs

/-- The number of blocks that one page of the bitmap marks. -/
def reservedBlocks : Nat := 2 ^ 15

/-- Index block `k` belongs to a reserved object, is named by an onode, or is going to be. -/
def Indexed (w : World) (k : Nat) : Prop :=
  k < 2 ^ 18 ∨ (∃ oid < 2 ^ 20, (w.zs.onode oid).dataIdxId = k) ∨
    ∃ t ∈ w.zs.txList, (loggedOnode (w.before t) (w.tx t).request).dataIdxId = k

structure ReserveKept (w : World) : Prop where
  wf : WF w
  bits : ∀ b < reservedBlocks, b < w.zs.ssdAllocator.nrTotal → bit w.zs.ssdAllocator.bs b = true
  words : ∀ k, Indexed w k → ∀ j < 1024, reservedBlocks ≤ (indexWord w.zs.pm (1024 * k + j)).toNat
  queued : ∀ t ∈ w.zs.txList, (w.tx t).request.op = .write →
    ∀ v ∈ newWords (w.before t) (w.tx t).request, reservedBlocks ≤ v.toNat

section Words
variable {zs zs' : ZstoreContext} {r : Request} {tx : ZstoreTransaction} {w w' : World} {b : Nat}

theorem zero_index : OtableEntry.dataIdxId 0 = 0 := by
  simp [OtableEntry.dataIdxId]

theorem unmapped_reserved : reservedBlocks ≤ unmapped.toNat := by decide

/-- A write releases no reserved block. -/
theorem ReserveKept.released (hi : ReserveKept w) (hchk : ¬ Refused w.zs r)
    (hpm : objectDataIndexBlock w.zs (w.zs.onode r.oid.toNat) + 4 * r.bofst + 4 * r.blen ≤ w.zs.pmem.size)
    (hb : b < reservedBlocks) : b ∉ mapped (rangeWords w.zs r) := by
  have hf := hi.wf.formatted
  have hle := range_le_of_checked hf hchk hpm
  intro hmem
  obtain ⟨j, h1, h2, _, rfl⟩ := (mem_mapped_range hf).mp hmem
  have hword := hi.words _ (Or.inr (Or.inl ⟨_, oid_lt_of_checked hf (readChecked hchk), rfl⟩)) j (by omega)
  omega

/-- Nor does it take one, or name one in an extent. -/
theorem ReserveKept.newBlocks (hi : ReserveKept w) (h : Written w.zs r zs' tx)
    (hb : b ∈ newBlocks w.zs r) : reservedBlocks ≤ b ∧ b < 2 ^ 32 := by
  have hf := hi.wf.formatted
  have htot := hf.ssdTotal
  have hle := h.blen_le
  obtain ⟨e, he, hbe⟩ := List.mem_flatMap.mp hb
  rw [Extent.blocks, List.mem_range'_1] at hbe
  obtain ⟨hlba, hfree⟩ := takes_free (alloc_lba h.blen_pos h.room e he)
  rw [released_total] at hlba
  have hlen := extent_len_le he
  have hcount := (alloc_extents h.blen_pos h.room).1
  rw [newExtents, hcount] at hlen
  refine ⟨?_, by omega⟩
  by_contra hlt
  have hsmall : e.lba < reservedBlocks := by omega
  rw [bit_released, hi.bits _ hsmall hlba, decide_eq_true (hi.released h.checked h.in_pm hsmall)] at hfree
  cases hfree

theorem ReserveKept.newWords (hi : ReserveKept w) (h : Written w.zs r zs' tx) :
    ∀ v ∈ newWords w.zs r, reservedBlocks ≤ v.toNat := by
  intro v hv
  obtain ⟨b, hb, rfl⟩ := List.mem_map.mp hv
  obtain ⟨h1, h2⟩ := hi.newBlocks h hb
  rw [BitVec.toNat_ofNat, Nat.mod_eq_of_lt h2]
  exact h1

/-- No object maps a reserved block. -/
theorem ReserveKept.unmapped (hi : ReserveKept w) (hb : b < reservedBlocks) (s : Nat × Nat) :
    ¬ MapsTo w.zs s b := by
  rintro ⟨hval, hj, _, rfl⟩
  have hword := hi.words _ (Or.inr (Or.inl ⟨s.1, hval.1, rfl⟩)) s.2 hj
  omega

end Words

section Step
variable {env : Env} {w w' : World} {a : Act}

/-- The queue has been given to the next state as it is. -/
theorem Indexed.keep {k : Nat} (h : Indexed w' k) (hlist : ∀ t ∈ w'.zs.txList, t ∈ w.zs.txList)
    (hkeep : ∀ t ∈ w.zs.txList, (w'.tx t).request = (w.tx t).request ∧ w'.before t = w.before t)
    (hon : ∀ oid, w'.zs.onode oid = w.zs.onode oid) : Indexed w k := by
  obtain h | ⟨oid, ho, h⟩ | ⟨t, ht, h⟩ := h
  · exact Or.inl h
  · exact Or.inr (Or.inl ⟨oid, ho, by rw [← hon]; exact h⟩)
  · obtain ⟨h1, h2⟩ := hkeep t (hlist t ht)
    exact Or.inr (Or.inr ⟨t, hlist t ht, by rw [← h1, ← h2]; exact h⟩)

/-- A step that changes neither index nor onodes nor the queue. -/
theorem ReserveKept.keep (hi : ReserveKept w) (hstep : Store.step env a w = some w')
    (hlist : w'.zs.txList = w.zs.txList) (hpm : w'.zs.pm = w.zs.pm)
    (hon : ∀ oid, w'.zs.onode oid = w.zs.onode oid)
    (hbits : ∀ b < reservedBlocks, b < w'.zs.ssdAllocator.nrTotal →
      bit w'.zs.ssdAllocator.bs b = true) : ReserveKept w' := by
  have hkeep := hi.wf.keeps hstep
  refine ⟨step_wf hi.wf hstep, hbits, fun k hk j hj => ?_, fun t ht hop v hv => ?_⟩
  · rw [hpm]
    exact hi.words k (hk.keep (fun t ht => hlist ▸ ht) hkeep hon) j hj
  · rw [hlist] at ht
    obtain ⟨h1, h2⟩ := hkeep t ht
    rw [h1] at hop
    rw [h1, h2] at hv
    exact hi.queued t ht hop v hv

/-- A rejected call leaves the reserved blocks marked. -/
theorem ReserveKept.reject {r : Request} {rc : Int} {tx : ZstoreTransaction} (hi : ReserveKept w)
    (h : Rejects env r w w' rc tx) {b : Nat} (hb : b < reservedBlocks)
    (htot : b < w.zs.ssdAllocator.nrTotal) : bit w'.zs.ssdAllocator.bs b = true := by
  refine (h.grows hi.wf.formatted b).2 (fun hop hchk _ => ?_) (hi.bits b hb htot)
  exact hi.released hchk
    (prepare_lookup hi.wf.formatted.shift (Or.inr hop) (readChecked hchk) h.prepare).2 hb

theorem ReserveKept.bits_written {r : Request} {zs : ZstoreContext} {tx : ZstoreTransaction}
    (hi : ReserveKept w) (h : Written w.zs r zs tx) {b : Nat} (hb : b < reservedBlocks)
    (htot : b < w.zs.ssdAllocator.nrTotal) : bit (newSsd w.zs r).bs b = true := by
  rw [h.newSsd_bs]
  apply setAll_grows
  rw [bit_released, hi.bits b hb htot, decide_eq_true (hi.released h.checked h.in_pm hb)]
  rfl

/-- An accepted request: the index block of a create is blank, and a write has new words for blocks
that are not reserved. -/
theorem ReserveKept.accept {r : Request} {zs : ZstoreContext} {tx : ZstoreTransaction} {n : Nat}
    (hi : ReserveKept w) (hstep : Store.step env a w = some w') (h : Accepts r w w' zs tx)
    (hacc : Accepted w.zs r zs tx)
    (hzs : w'.zs = { zs with txOutstanding := n, txList := zs.txList ++ [w.zs.tidMax] }) :
    ReserveKept w' := by
  have hw' := step_wf hi.wf hstep
  have hf := hi.wf.formatted
  obtain ⟨_, _, hot, _, hlist, hmem⟩ := hacc.formatted hf
  have hon : ∀ oid, w'.zs.onode oid = w.zs.onode oid :=
    onode_congr (by rw [hzs]; exact hmem) (by rw [hzs]; exact hot)
  have hlist' : ∀ t, t ∈ w'.zs.txList ↔ t ∈ w.zs.txList ∨ t = w.zs.tidMax := by
    intro t
    rw [hzs]
    simp only [hlist, List.mem_append, List.mem_singleton]
  have hold := hi.wf.keeps hstep
  have hself : (w'.tx w.zs.tidMax).request = r := h.request_self
  have hbefore : w'.before w.zs.tidMax = w.zs := h.before_self
  -- the index block of the new onode, if there is one
  have hidx : ∀ k, Indexed w' k → Indexed w k ∨ (loggedOnode w.zs r).dataIdxId = k := by
    rintro k (hk | ⟨oid, ho, hk⟩ | ⟨t, ht, hk⟩)
    · exact Or.inl (Or.inl hk)
    · exact Or.inl (Or.inr (Or.inl ⟨oid, ho, by rw [← hon]; exact hk⟩))
    · obtain ht | rfl := (hlist' t).mp ht
      · obtain ⟨h1, h2⟩ := hold t ht
        exact Or.inl (Or.inr (Or.inr ⟨t, ht, by rw [← h1, ← h2]; exact hk⟩))
      · rw [hself, hbefore] at hk
        exact Or.inr hk
  have hpm : w'.zs.pm = zs.pm := by rw [hzs]
  have hssd : w'.zs.ssdAllocator = zs.ssdAllocator := by rw [hzs]
  have hqueued : ∀ t ∈ w'.zs.txList, (w'.tx t).request.op = .write →
      (r.op = .write → ∀ v ∈ Store.newWords w.zs r, reservedBlocks ≤ v.toNat) →
      ∀ v ∈ Store.newWords (w'.before t) (w'.tx t).request, reservedBlocks ≤ v.toNat := by
    intro t ht hop hnew v hv
    obtain ht | rfl := (hlist' t).mp ht
    · obtain ⟨h1, h2⟩ := hold t ht
      rw [h1] at hop
      rw [h1, h2] at hv
      exact hi.queued t ht hop v hv
    · rw [hself] at hop
      rw [hself, hbefore] at hv
      exact hnew hop v hv
  cases hacc with
  | write hop hw =>
    have hlog : loggedOnode w.zs r = w.zs.onode r.object := by simp only [loggedOnode, hop]
    refine ⟨hw', fun b hb htot => ?_, fun k hk j hj => ?_, fun t ht hop' =>
      hqueued t ht hop' fun _ => hi.newWords hw⟩
    · rw [hssd, hw.store] at htot ⊢
      rw [(newSsd_total w.zs r).1] at htot
      exact hi.bits_written hw hb htot
    · have hk' : Indexed w k := by
        obtain hk | hk := hidx k hk
        · exact hk
        · rw [hlog, hw.object_eq hf] at hk
          exact Or.inr (Or.inl ⟨_, hw.oid_lt hf, hk⟩)
      rw [hpm, hw.store]
      exact hi.words k hk' j hj
  | create hop hc =>
    refine ⟨hw', fun b hb htot => ?_, fun k hk j hj => ?_, fun t ht hop' =>
      hqueued t ht hop' fun hwr => absurd (hop.symm.trans hwr) (by decide)⟩
    · rw [hssd, hc.store] at htot ⊢
      exact hi.bits b hb htot
    · have hle := hc.index_le hf
      rw [hpm, hc.indexWord_eq hf]
      split
      · exact unmapped_reserved
      · rename_i hne
        obtain hk | hk := hidx k hk
        · exact hi.words k hk j hj
        · simp only [loggedOnode, hop] at hk
          rw [otableEntry_index _ (by omega)] at hk
          omega
  | delete hop hd =>
    refine ⟨hw', fun b hb htot => ?_, fun k hk j hj => ?_, fun t ht hop' =>
      hqueued t ht hop' fun hwr => absurd (hop.symm.trans hwr) (by decide)⟩
    · rw [hssd, hd.store] at htot ⊢
      exact hi.bits b hb htot
    · have hk' : Indexed w k := by
        obtain hk | hk := hidx k hk
        · exact hk
        · simp only [loggedOnode, hop] at hk
          rw [zero_index] at hk
          exact Or.inl (by omega)
      rw [hpm, hd.store]
      exact hi.words k hk' j hj

/-- A commit gives an onode the index block that was queued for it, and changes words to queued ones. -/
theorem ReserveKept.commit {tid : Nat} {t : PmemTransaction} (hi : ReserveKept w)
    (hstep : Store.step env a w = some w') (h : Commits w w' tid t) : ReserveKept w' := by
  have hw' := step_wf hi.wf hstep
  have heff := h.effect hi.wf
  obtain ⟨n, hzs⟩ := h.zs
  have hhead : tid ∈ w.zs.txList := by
    rw [h.head]
    exact List.mem_cons_self ..
  have hsub : ∀ u ∈ w'.zs.txList, u ∈ w.zs.txList := by
    intro u hu
    rw [h.head]
    exact List.mem_cons_of_mem tid hu
  have hkeep : ∀ u, (w'.tx u).request = (w.tx u).request ∧ w'.before u = w.before u := fun u =>
    ⟨(h.heap u).1, by rw [h.before]⟩
  refine ⟨hw', fun b hb htot => ?_, fun k hk j hj => ?_, fun u hu hop v hv => ?_⟩
  · rw [hzs] at htot ⊢
    exact hi.bits b hb htot
  · have hk' : Indexed w k := by
      obtain hk | ⟨oid, ho, hk⟩ | ⟨u, hu, hk⟩ := hk
      · exact Or.inl hk
      · rw [heff.onode oid ho] at hk
        split at hk
        · exact Or.inr (Or.inr ⟨tid, hhead, hk⟩)
        · exact Or.inr (Or.inl ⟨oid, ho, hk⟩)
      · rw [(hkeep u).1, (hkeep u).2] at hk
        exact Or.inr (Or.inr ⟨u, hsub u hu, hk⟩)
    rw [heff.index]
    split
    · rename_i hin
      obtain ⟨tx, hacc, _⟩ := (hi.wf.queued tid hhead).accepted
      cases hacc with
      | write hop hw =>
        have hlen := hw.newWords_length
        rw [List.getD_eq_getElem _ _ (by omega)]
        exact hi.queued tid hhead hop _ (List.getElem_mem _)
      | create hop _ => exact absurd (hop.symm.trans hin.1) (by decide)
      | delete hop _ => exact absurd (hop.symm.trans hin.1) (by decide)
    · exact hi.words k hk' j hj
  · rw [(hkeep u).1] at hop
    rw [(hkeep u).1, (hkeep u).2] at hv
    exact hi.queued u (hsub u hu) hop v hv

theorem ReserveKept.step (hi : ReserveKept w) (h : Store.step env a w = some w') : ReserveKept w' := by
  obtain hq | ⟨r, _, ⟨rc, tx, hr⟩ | ⟨zs, tx, ha⟩⟩ | ⟨tid, t, hc⟩ := step_cases hi.wf h
  · refine hi.keep h hq.zs.txList hq.zs.pm (onode_congr hq.zs.mem hq.zs.otable) fun b hb htot => ?_
    rw [hq.zs.ssdAllocator] at htot ⊢
    exact hi.bits b hb htot
  · have hfr := prepare_rejected hi.wf.formatted.shift hr.rc_ne hr.prepare
    refine hi.keep h (by rw [hfr.frame]) (by rw [hfr.frame])
      (onode_congr (by rw [hfr.frame]) (by rw [hfr.frame])) fun b hb htot => ?_
    rw [hfr.ssdTotal] at htot
    exact hi.reject hr hb htot
  · obtain ⟨_, hread, n, l, hzs⟩ | ⟨hacc, n, hzs⟩ := ha.kind
    · rw [hread.store] at hzs
      refine hi.keep h (by rw [hzs]) (by rw [hzs]) (onode_congr (by rw [hzs]) (by rw [hzs]))
        fun b hb htot => ?_
      rw [hzs] at htot ⊢
      exact hi.bits b hb htot
    · exact hi.accept h ha hacc hzs
  · exact hi.commit h hc

end Step

section Start
variable {stk : Image} {e : Nat → OtableEntry} {nblks cpu : Nat} {flags mflags : BitVec 32}
  {m : Image} {h : MountMem} {zs : ZstoreContext}

/-- One page of the SSD bitmap is set. -/
theorem ssdLine_reserved (hflags : flags &&& zstoreMkfsReserveObjid ≠ 0) {k : Nat} (hk : k < 64) :
    ssdLine (zstoreMkfs stk e nblks flags m) k = BitVec.allOnes 512 := by
  apply lineAt_ones
  intro i hi
  rw [zstoreMkfs_reserved_at hflags (by omega), if_neg (by omega), if_pos (by omega)]

theorem reserveKept_mounted (hflags : flags &&& zstoreMkfsReserveObjid ≠ 0) (hcpu : cpu < 127)
    (hp : h.Placed) (hm : zstoreMount cpu mflags h (zstoreMkfs stk e nblks flags m) = .ok zs)
    (heap : Nat → ZstoreTransaction) : ReserveKept (World.mounted zs heap) := by
  obtain ⟨hf, hon, _⟩ := mount_reserved hflags hcpu hp hm
  have hw := zstoreMount_mounted hm hf heap
  obtain ⟨_, _, hrec⟩ := zstoreMount_image hm
  rw [reserved_idle hflags hcpu, Except.ok.injEq] at hrec
  have hnil : ∀ t, t ∉ (World.mounted zs heap).zs.txList := by
    intro t ht
    rw [hw.txList] at ht
    exact List.not_mem_nil ht
  refine ⟨hw.wf, fun b hb htot => ?_, fun k hk j hj => ?_, fun t ht => absurd ht (hnil t)⟩
  · have htot : b < zs.ssdAllocator.nrTotal := htot
    have hentry := hf.ssdEntrys
    have hline := (zstoreMount_ssd hm hf).2.1 (b / 512) (by omega)
    have hlt : b / 512 < 64 := by
      unfold reservedBlocks at hb
      omega
    rw [← hrec, ssdLine_reserved hflags hlt] at hline
    have hbit : bit zs.ssdAllocator.bs b = true := by
      rw [bit, ← hline, BitVec.getLsbD_allOnes]
      exact decide_eq_true (Nat.mod_lt _ (by decide))
    exact hbit
  · have hlt : k < 2 ^ 18 := by
      obtain hk | ⟨oid, ho, hk⟩ | ⟨t, ht, _⟩ := hk
      · exact hk
      · have hline : zs.onode oid = _ := hon oid ho
        have hk' : (zs.onode oid).dataIdxId = k := hk
        rw [hline] at hk'
        split at hk'
        · rename_i hres
          rw [reservedEntry_index _ (by omega)] at hk'
          omega
        · rw [zero_index] at hk'
          omega
      · exact absurd ht (hnil t)
    have hword : indexWord zs.pm (1024 * k + j) = unmapped := by
      rw [← hrec]
      exact indexWord_reserved hflags (by omega)
    have hun := unmapped_reserved
    rw [← hword] at hun
    exact hun

/-- On a store that was formatted with reserved objects, no run of requests ever makes an object map
one of the reserved blocks. -/
theorem reserved_unmapped {env : Env} {heap : Nat → ZstoreTransaction} {w : World} {b : Nat}
    (hflags : flags &&& zstoreMkfsReserveObjid ≠ 0) (hcpu : cpu < 127) (hp : h.Placed)
    (hm : zstoreMount cpu mflags h (zstoreMkfs stk e nblks flags m) = .ok zs)
    (hrun : Run (step env) (fun _ _ => True) (World.mounted zs heap) w) (hb : b < reservedBlocks)
    (s : Nat × Nat) : ¬ MapsTo w.zs s b := by
  have hi : ReserveKept w := hrun.invariant (reserveKept_mounted hflags hcpu hp hm heap)
    fun _ _ _ hi _ hs => hi.step hs
  exact hi.unmapped hb s

end Start
end ZCell.Store
