import ZCell.Commit
import ZCell.Mkfs

/-! The onode table in memory and the one in persistent memory: mount copies the table, and
from then on every commit writes both copies of the onode that its transaction logs. -/
namespace ZCell.Store
open Bytes Persist Pm Allocator Runs

/-- Both tables hold the same entries. -/
def Coherent (zs : ZstoreContext) : Prop := ∀ oid < 2 ^ 20, onodeLine zs.pm oid = zs.onode oid

section Mount
variable {cpu : Nat} {flags : BitVec 32} {h : MountMem} {m : Image} {zs : ZstoreContext}

/-- What mount leaves in the lists, and where the onode table comes from. -/
theorem zstoreMount_ok (hm : zstoreMount cpu flags h m = .ok zs) :
    zs.mem = storeAll h.mem ((List.range zs.zsb.onodesRsv).map fun i =>
      (h.otable + 64 * i, load zs.pm (zs.zsb.pmOtableOfst + 64 * i) 64)) ∧
    zs.otable = h.otable ∧ zs.txList = [] ∧ zs.txOutstanding = 0 ∧ zs.txRdonlyList = [] ∧
    zs.txRdonlyOutstanding = 0 := by
  simp only [zstoreMount] at hm
  repeat' split at hm
  all_goals cases hm
  simp only [and_self]

theorem zstoreMount_allocators (hm : zstoreMount cpu flags h m = .ok zs) :
    loadAllocator h.ssdBs zs.zsb.ssdNrPages zs.pm zs.zsb.pmSsdBitmapOfst = .ok zs.ssdAllocator ∧
    loadAllocator h.pmBs zs.zsb.pmNrPages zs.pm zs.zsb.pmDyBitmapOfst = .ok zs.pmAllocator := by
  simp only [zstoreMount] at hm
  split at hm
  · cases hm
  · split at hm
    · cases hm
    · split at hm
      · cases hm
      · rename_i hssd
        split at hm
        · cases hm
        · rename_i hpm
          cases hm
          exact ⟨hssd, hpm⟩

/-- The allocators are those that the loops load. -/
theorem zstoreMount_loaded (hm : zstoreMount cpu flags h m = .ok zs) :
    zs.ssdAllocator = loadedAllocator h.ssdBs zs.zsb.ssdNrPages zs.pm zs.zsb.pmSsdBitmapOfst ∧
    zs.pmAllocator = loadedAllocator h.pmBs zs.zsb.pmNrPages zs.pm zs.zsb.pmDyBitmapOfst := by
  obtain ⟨hssd, hpm⟩ := zstoreMount_allocators hm
  exact ⟨(loadAllocator_ok.mp hssd).2, (loadAllocator_ok.mp hpm).2⟩

theorem zstoreMount_image (hm : zstoreMount cpu flags h m = .ok zs) :
    zs.zsb = Superblock.read m ∧ zs.pmem = pmemOpen cpu ∧
    recovered (pmemOpen cpu) h.stk m = .ok zs.pm := by
  simp only [zstoreMount] at hm
  split at hm
  · cases hm
  · split at hm
    · cases hm
    · rename_i pm hrec
      repeat' split at hm
      all_goals cases hm
      simp only [hrec, and_self]

/-- A mount of an image with the superblock of mkfs. -/
theorem zstoreMount_formatted (hm : zstoreMount cpu flags h m = .ok zs) (hcpu : cpu < 127)
    (hp : h.Placed) {n : Nat} (hn : n ≤ 2 ^ 28) (hzsb : Superblock.read m = mkfsSuperblock n) :
    Formatted zs := by
  obtain ⟨h1, h2, _⟩ := zstoreMount_image hm
  obtain ⟨h3, h4⟩ := zstoreMount_loaded hm
  obtain ⟨_, hot, _⟩ := zstoreMount_ok hm
  rw [hzsb] at h1
  rw [h1] at h3 h4
  simp only [mkfsSuperblock] at h3 h4
  have hssd := loadedAllocator_total h.ssdBs n zs.pm (2 ^ 20)
  have hpm := loadedAllocator_total h.pmBs (2 ^ 20) zs.pm (33 * 2 ^ 20)
  constructor
  · rw [h1]
    rfl
  · rw [h1]
    rfl
  · rw [h1]
    rfl
  · rw [h1]
    rfl
  · rw [h1]
    rfl
  · rw [h1]
    rfl
  · rw [h2]
    rfl
  · rw [h2]
    simp only [pmemOpen, pmLogRegionSize]
    omega
  · rw [hot]
    exact hp.1
  · rw [hot]
    exact hp.2
  · rw [h3]
    exact hssd.1.trans_le hn
  · rw [h3]
    exact hssd.2.trans (by rw [hssd.1])
  · rw [h4]
    exact hpm.1
  · rw [h4]
    exact hpm.2

/-- Entry `i` of a table of `n` entries, copied one by one. -/
theorem load_onodes (mem pm : Image) (ot ofst : Nat) {i n : Nat} (hi : i < n) :
    load (storeAll mem ((List.range n).map fun i => (ot + 64 * i, load pm (ofst + 64 * i) 64)))
      (ot + 64 * i) 64 = load pm (ofst + 64 * i) 64 := by
  apply List.ext_getElem (by simp)
  intro j h1 _
  have hj : j < 64 := by rwa [load_length] at h1
  rw [load_getElem, load_getElem, storeAll_blocks, if_pos (by omega)]
  congr 1
  omega

theorem zstoreMount_coherent (hm : zstoreMount cpu flags h m = .ok zs) (hf : Formatted zs) :
    Coherent zs := by
  obtain ⟨hmem, hot, _⟩ := zstoreMount_ok hm
  intro oid ho
  have hload := load_onodes h.mem zs.pm h.otable zs.zsb.pmOtableOfst
    (Nat.lt_of_lt_of_eq ho hf.onodesRsv.symm)
  rw [← hmem, hf.otableOfst] at hload
  rw [onodeLine, ZstoreContext.onode, ZstoreContext.onodeAddr, hot, lineAt, lineAt, loadLe, loadLe,
    hload]

theorem zstoreMount_mounted (hm : zstoreMount cpu flags h m = .ok zs) (hf : Formatted zs)
    (heap : Nat → ZstoreTransaction) : Mounted (World.mounted zs heap) where
  formatted := hf
  coherent := zstoreMount_coherent hm hf
  txList := (zstoreMount_ok hm).2.2.1
  txOutstanding := (zstoreMount_ok hm).2.2.2.1
  txRdonlyList := (zstoreMount_ok hm).2.2.2.2.1
  txRdonlyOutstanding := (zstoreMount_ok hm).2.2.2.2.2
  flight := rfl
  posted := rfl
  stack := rfl
  log := rfl

end Mount

section Step
variable {env : Env} {w w' : World} {a : Act}

theorem coherent_congr {zs zs' : ZstoreContext} (hc : Coherent zs)
    (hpm : ∀ oid < 2 ^ 20, onodeLine zs'.pm oid = onodeLine zs.pm oid)
    (hon : ∀ oid, zs'.onode oid = zs.onode oid) : Coherent zs' := by
  intro oid ho
  rw [hpm oid ho, hon]
  exact hc oid ho

/-- A step changes both tables or none, and in the same entry. -/
theorem step_coherent (hw : WF w) (hc : Coherent w.zs) (h : step env a w = some w') :
    Coherent w'.zs := by
  obtain hq | ⟨r, _, ⟨rc, tx, hr⟩ | ⟨zs, tx, ha⟩⟩ | ⟨tid, t, hcom⟩ := step_cases hw h
  · exact coherent_congr hc (fun oid _ => by rw [hq.zs.pm]) (onode_congr hq.zs.mem hq.zs.otable)
  · have hfr := (prepare_rejected hw.formatted.shift hr.rc_ne hr.prepare).frame
    exact coherent_congr hc (fun oid _ => by rw [hfr]) (onode_congr (by rw [hfr]) (by rw [hfr]))
  · obtain ⟨_, hr, n, l, hzs⟩ | ⟨hacc, n, hzs⟩ := ha.kind
    · rw [hr.store] at hzs
      exact coherent_congr hc (fun oid _ => by rw [hzs]) (onode_congr (by rw [hzs]) (by rw [hzs]))
    · obtain ⟨_, _, hot, _, _, hmem⟩ := hacc.formatted hw.formatted
      refine coherent_congr hc (fun oid ho => ?_) (onode_congr ?_ ?_)
      · rw [hzs]
        exact hacc.onodeLine_eq hw.formatted ho
      · rw [hzs]
        exact hmem
      · rw [hzs]
        exact hot
  · have heff := hcom.effect hw
    intro oid ho
    rw [heff.onodePm oid ho, heff.onode oid ho, hc oid ho]

theorem run_coherent {w0 : World} (hm : Mounted w0)
    (hrun : Run (step env) (fun _ _ => True) w0 w) : WF w ∧ Coherent w.zs := by
  induction hrun with
  | start => exact ⟨hm.wf, hm.coherent⟩
  | next a _ _ hs ih => exact ⟨step_wf ih.1 hs, step_coherent ih.1 ih.2 hs⟩

end Step

/-- In every state of every run after a mount, each entry of the onode table in memory is byte
for byte the one in persistent memory. -/
theorem onodeTable_eq (env : Env) (cpu : Nat) (flags : BitVec 32) (h : MountMem) (m : Image)
    (zs : ZstoreContext) (heap : Nat → ZstoreTransaction) (w : World)
    (hm : zstoreMount cpu flags h m = .ok zs) (hf : Formatted zs)
    (hrun : Run (step env) (fun _ _ => True) (World.mounted zs heap) w) :
    ∀ oid < 2 ^ 20, load w.zs.mem (w.zs.onodeAddr oid) 64 =
      load w.zs.pm (w.zs.zsb.pmOtableOfst + 64 * oid) 64 := by
  intro oid ho
  obtain ⟨hw, hc⟩ := run_coherent (zstoreMount_mounted hm hf heap) hrun
  have heq := congrArg lineBytes (hc oid ho)
  rw [onodeLine, ZstoreContext.onode, lineBytes_lineAt, lineBytes_lineAt] at heq
  rw [hw.formatted.otableOfst]
  exact heq.symm

/-- Object 1 is created on a fresh store. -/
theorem firstCreate_onodeTable : ∃ w : World, w.applied = [0] ∧
    load w.zs.mem (w.zs.onodeAddr 1) 64 = load w.zs.pm (w.zs.zsb.pmOtableOfst + 64 * 1) 64 := by
  have hrun : (runActs (step smallEnv) (fun _ _ => True)
      [.request ⟨.create, 1, 0, 0, 0⟩, .resume] smallWorld).map World.applied = some [0] := by
    decide +kernel
  obtain ⟨w, hw, happ⟩ := Option.map_eq_some_iff.mp hrun
  exact ⟨w, happ, onodeTable_eq smallEnv 0 0 _ _ smallStore _ w smallStore_mount
    smallWorld_mounted.formatted (run_of_runActs .start hw) 1 (by decide)⟩

end ZCell.Store
