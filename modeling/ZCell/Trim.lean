import Mathlib.Data.List.GetD
import Mathlib.Data.List.TakeWhile
import ZCell.WorkArrays
import ZCell.Submission

/-! The blocks that a write trims on a store mounted with `ZSTORE_ENBALE_TRIM`. The index of the loop
that fills the bios runs on from the new extents to the old ones: the first old extents are
skipped, and behind the last one the array holds what the stack held before. -/
namespace ZCell.Store
open Bytes Persist Pm Allocator Runs

/-- The number of leading bios that the device accepts. -/
def deviceTakes (submit : Nat → Bool) (i n : Nat) : Nat := ((List.range' i n).takeWhile submit).length

/-- The call has submitted trims for exactly the blocks that the write replaces, and for none that it
writes. -/
def TrimsReplaced (w w' : World) (r : Request) : Prop :=
  ∃ fs, w'.flight = w.flight ++ fs ∧
    (∀ b, (∃ f ∈ fs, f.bio.ioType = .trim ∧ f.bio.Covers b) ↔ b ∈ oldBlocks w.zs r) ∧
    ∀ f ∈ fs, ∀ f' ∈ fs, f.bio.ioType = .write → f'.bio.ioType = .trim →
      ∀ b, f.bio.Covers b → ¬ f'.bio.Covers b

/-- Old extent `i`, or what the array holds there. -/
def extentAt (u : Nat → Extent) (zs : ZstoreContext) (r : Request) (i : Nat) : Extent :=
  (oldExtents zs r).getD i (u i)

/-- The blocks of the extents that the scan makes of the free blocks it takes. -/
def scanned (a : StupidAllocator) (sz : Nat) : List Nat := blocks (stitch (reach a sz) []).reverse

/-- A trim is submitted for position `i` of the array; `n` is the number of new extents. -/
def SendsTrim (zs : ZstoreContext) (r : Request) (n k i : Nat) : Prop :=
  n ≤ i ∧ i < n + (oldExtents zs r).length ∧ i < k

/-- What has to be on the stack, in the mapping and in the bitmap for the trims to be right; `k` bios
are accepted by the device. -/
structure TrimsLucky (u : Nat → Extent) (zs : ZstoreContext) (r : Request) (n k : Nat) : Prop where
  /-- What is behind the old extents happens to name blocks of the range. -/
  stale : ∀ i, (oldExtents zs r).length ≤ i → SendsTrim zs r n k i →
    ∀ b, (Bio.ofExtent .trim (u i)).Covers b → b ∈ oldBlocks zs r
  /-- A block of an extent that is left out is in one that is not. -/
  skipped : ∀ i < (oldExtents zs r).length, ¬ SendsTrim zs r n k i →
    ∀ b ∈ (extentAt u zs r i).blocks, ∃ j, SendsTrim zs r n k j ∧
      (Bio.ofExtent .trim (extentAt u zs r j)).Covers b
  apart : ∀ b ∈ scanned (released zs r) r.blen, b ∉ oldBlocks zs r

section Sent
variable {submit : Nat → Bool} {tid i n k : Nat} {buf : BitVec 64} {bs : List Bio}

/-- The bios in flight are those in front of the first that the device refuses. -/
theorem submitBios_take : (submitBios submit tid i buf bs).map Flight.bio =
    bs.take (deviceTakes submit i bs.length) := by
  induction bs generalizing i buf with
  | nil => simp [submitBios]
  | cons b bs ih =>
    unfold submitBios deviceTakes
    rw [List.length_cons, List.range'_succ, List.takeWhile_cons]
    split
    · rw [List.map_cons, ih, List.length_cons, List.take_succ_cons]
      rfl
    · rfl

end Sent

section Bios
variable {u : Nat → Extent} {zs zs' : ZstoreContext} {r : Request} {tx : ZstoreTransaction}
  {k b : Nat} {bio : Bio}

theorem extentAt_old {i : Nat} (hi : i < (oldExtents zs r).length) :
    extentAt u zs r i ∈ oldExtents zs r := by
  rw [extentAt, List.getD_eq_getElem _ _ hi]
  exact List.getElem_mem hi

theorem extentAt_stale {i : Nat} (hi : (oldExtents zs r).length ≤ i) : extentAt u zs r i = u i :=
  List.getD_eq_default _ _ hi

theorem mem_old_iff (u : Nat → Extent) : b ∈ oldBlocks zs r ↔
    ∃ i < (oldExtents zs r).length, b ∈ (extentAt u zs r i).blocks := by
  have hold : oldBlocks zs r = blocks (oldExtents zs r) := (blocks_merge _).symm
  rw [hold]
  constructor
  · intro hb
    obtain ⟨e, he, hb⟩ := List.mem_flatMap.mp hb
    obtain ⟨i, hi, rfl⟩ := List.mem_iff_getElem.mp he
    refine ⟨i, hi, ?_⟩
    rw [extentAt, List.getD_eq_getElem _ _ hi]
    exact hb
  · rintro ⟨i, hi, hb⟩
    exact List.mem_flatMap.mpr ⟨_, extentAt_old hi, hb⟩

/-- A bio for an old extent is about its blocks. -/
theorem covers_old {i : Nat} (hle : r.blen ≤ 32) (hi : i < (oldExtents zs r).length) {ty : IoType} :
    (Bio.ofExtent ty (extentAt u zs r i)).Covers b ↔ b ∈ (extentAt u zs r i).blocks := by
  obtain ⟨hlba, hlen⟩ := merge_fits (extentAt_old (u := u) hi)
  rw [rangeWords, readWords_length] at hlen
  rw [Extent.blocks, List.mem_range'_1]
  simp only [Bio.Covers, Bio.ofExtent, BitVec.toNat_ofNat]
  rw [Nat.mod_eq_of_lt hlba, Nat.mod_eq_of_lt (by omega)]

/-- The trims in flight are those of the positions that are sent. -/
theorem mem_sent_trim (hflag : zs.mntFlag &&& zstoreEnableTrim ≠ 0) :
    bio ∈ (writeBios u zs r).take k ∧ bio.ioType = .trim ↔
      ∃ i, SendsTrim zs r (newExtents zs r).length k i ∧ bio = .ofExtent .trim (extentAt u zs r i) := by
  have htrim : (trimmed u zs r).map (Bio.ofExtent .trim) =
      (List.range' (newExtents zs r).length (oldExtents zs r).length).map fun i =>
        Bio.ofExtent .trim (extentAt u zs r i) := by
    rw [trimmed, if_pos hflag, trimExtents, List.map_map]
    rfl
  rw [writeBios, htrim, List.take_append, List.length_map, ← List.map_take, ← List.map_take]
  constructor
  · rintro ⟨hb, hty⟩
    obtain hb | hb := List.mem_append.mp hb
    · obtain ⟨e, _, rfl⟩ := List.mem_map.mp hb
      cases hty
    · obtain ⟨i, hi, rfl⟩ := List.mem_map.mp hb
      obtain ⟨j, hj, hij⟩ := List.mem_take_iff_getElem.mp hi
      rw [List.getElem_range'] at hij
      rw [List.length_range'] at hj
      exact ⟨i, ⟨by omega, by omega, by omega⟩, rfl⟩
  · rintro ⟨i, ⟨h1, h2, h3⟩, rfl⟩
    refine ⟨List.mem_append_right _ (List.mem_map_of_mem ?_), rfl⟩
    refine List.mem_take_iff_getElem.mpr ⟨i - (newExtents zs r).length, ?_, ?_⟩
    · rw [List.length_range']
      omega
    · rw [List.getElem_range']
      omega

/-- If a trim is in flight, so are all bios to the new extents. -/
theorem mem_sent_write (h : (newExtents zs r).length ≤ k) {e : Extent} (he : e ∈ newExtents zs r) :
    Bio.ofExtent .write e ∈ (writeBios u zs r).take k := by
  rw [writeBios, List.take_append, List.take_of_length_le (by rw [List.length_map]; exact h)]
  exact List.mem_append_left _ (List.mem_map_of_mem he)

theorem sent_write_new (hb : bio ∈ (writeBios u zs r).take k) (hty : bio.ioType = .write) :
    ∃ e ∈ newExtents zs r, bio = .ofExtent .write e := by
  obtain hb | hb := List.mem_append.mp (List.mem_of_mem_take hb)
  · obtain ⟨e, he, rfl⟩ := List.mem_map.mp hb
    exact ⟨e, he, rfl⟩
  · obtain ⟨e, _, rfl⟩ := List.mem_map.mp hb
    cases hty

/-- A bio to a new extent is about its blocks. -/
theorem Written.covers_new (hf : Formatted zs) (h : Written zs r zs' tx) {e : Extent}
    (he : e ∈ newExtents zs r) {ty : IoType} : (Bio.ofExtent ty e).Covers b ↔ b ∈ e.blocks := by
  have hlba := (takes_free (alloc_lba h.blen_pos h.room e he)).1
  have hcount := (alloc_extents h.blen_pos h.room).1
  have hlen := extent_len_le he
  have htot := hf.ssdTotal
  have hle := h.blen_le
  rw [newExtents, hcount] at hlen
  rw [released_total] at hlba
  rw [Extent.blocks, List.mem_range'_1]
  simp only [Bio.Covers, Bio.ofExtent, BitVec.toNat_ofNat]
  rw [Nat.mod_eq_of_lt (by omega), Nat.mod_eq_of_lt (by omega)]

theorem Written.scanned_eq (h : Written zs r zs' tx) : scanned (released zs r) r.blen = newBlocks zs r := by
  obtain ⟨i, _, hi⟩ := alloc_of_room h.blen_pos h.room
  rw [scanned, newBlocks, newExtents, hi]

/-- The bios that are sent, as conditions on the positions. -/
theorem Written.trims_iff (hf : Formatted zs) (h : Written zs r zs' tx)
    (hflag : zs.mntFlag &&& zstoreEnableTrim ≠ 0) :
    ((∀ b, (∃ bio ∈ (writeBios u zs r).take k, bio.ioType = .trim ∧ bio.Covers b) ↔ b ∈ oldBlocks zs r) ∧
      ∀ bio ∈ (writeBios u zs r).take k, ∀ bio' ∈ (writeBios u zs r).take k, bio.ioType = .write →
        bio'.ioType = .trim → ∀ b, bio.Covers b → ¬ bio'.Covers b) ↔
    TrimsLucky u zs r (newExtents zs r).length k := by
  have hsent : ∀ b, (∃ bio ∈ (writeBios u zs r).take k, bio.ioType = .trim ∧ bio.Covers b) ↔
      ∃ i, SendsTrim zs r (newExtents zs r).length k i ∧ (Bio.ofExtent .trim (extentAt u zs r i)).Covers b := by
    intro b
    constructor
    · rintro ⟨bio, hb, hty, hc⟩
      obtain ⟨i, hi, rfl⟩ := (mem_sent_trim hflag).mp ⟨hb, hty⟩
      exact ⟨i, hi, hc⟩
    · rintro ⟨i, hi, hc⟩
      obtain ⟨hb, hty⟩ := (mem_sent_trim hflag).mpr ⟨i, hi, rfl⟩
      exact ⟨_, hb, hty, hc⟩
  have hnew : ∀ b, b ∈ newBlocks zs r ↔ ∃ e ∈ newExtents zs r, b ∈ e.blocks := fun b => List.mem_flatMap
  constructor
  · rintro ⟨hexact, hapart⟩
    refine ⟨fun i hi hs b hc => ?_, fun i hi _ b hb => ?_, fun b hb hold => ?_⟩
    · refine (hexact b).mp ((hsent b).mpr ⟨i, hs, ?_⟩)
      rw [extentAt_stale hi]
      exact hc
    · exact (hsent b).mp ((hexact b).mpr ((mem_old_iff u).mpr ⟨i, hi, hb⟩))
    · -- a trim for a new block comes behind all the writes
      rw [h.scanned_eq] at hb
      obtain ⟨e, he, hbe⟩ := (hnew b).mp hb
      obtain ⟨bio, hbio, hty, hc⟩ := (hexact b).mpr hold
      obtain ⟨i, ⟨hi1, _, hi3⟩, rfl⟩ := (mem_sent_trim hflag).mp ⟨hbio, hty⟩
      exact hapart _ (mem_sent_write (by omega) he) _ hbio rfl rfl b ((h.covers_new hf he).mpr hbe) hc
  · intro hl
    have hexact : ∀ b, (∃ bio ∈ (writeBios u zs r).take k, bio.ioType = .trim ∧ bio.Covers b) ↔
        b ∈ oldBlocks zs r := by
      intro b
      rw [hsent b]
      constructor
      · rintro ⟨i, hs, hc⟩
        by_cases hi : i < (oldExtents zs r).length
        · exact (mem_old_iff u).mpr ⟨i, hi, (covers_old h.blen_le hi).mp hc⟩
        · rw [extentAt_stale (Nat.le_of_not_lt hi)] at hc
          exact hl.stale i (Nat.le_of_not_lt hi) hs b hc
      · intro hb
        obtain ⟨i, hi, hbi⟩ := (mem_old_iff u).mp hb
        by_cases hs : SendsTrim zs r (newExtents zs r).length k i
        · exact ⟨i, hs, (covers_old h.blen_le hi).mpr hbi⟩
        · exact hl.skipped i hi hs b hbi
    refine ⟨hexact, fun bio hb bio' hb' hty hty' b hc hc' => ?_⟩
    obtain ⟨e, he, rfl⟩ := sent_write_new hb hty
    refine hl.apart b ?_ ((hexact b).mp ⟨bio', hb', hty', hc'⟩)
    rw [h.scanned_eq]
    exact (hnew b).mpr ⟨e, he, (h.covers_new hf he).mp hc⟩

/-- The bios of an accepted write, with what the stack held. -/
theorem prepare_write_bios {g : Uninit} {tx0 : ZstoreTransaction}
    (hshift : zs.zsb.ssdMinAllocSizeShift = 12) (hop : r.op = .write)
    (h : zstoreTxPrepare g zs r tx0 = .ok (0, zs', tx)) : tx.bios = writeBios g.e zs r := by
  obtain ⟨hne, _⟩ | ⟨hne, _⟩ | ⟨_, hw⟩ := prepare_write hshift hop h
  · exact absurd rfl hne
  · exact absurd rfl hne
  · have hcount := merge_length (rangeWords zs r)
    rw [rangeWords, readWords_length] at hcount
    simp only [zstoreTxPrepare, hop] at h
    obtain ⟨h, _⟩ := assertState_ok h
    rw [@txPrepRwCommon_write g { zs with tidMax := zs.tidMax + 1 } r _ hshift hop (readChecked hw.checked)
      hw.blen_le hw.in_pm] at h
    obtain ⟨_, hne, _⟩ | ⟨_, _, _, _, hok⟩ :=
      txPrepWrite_cases hw.blen_pos hw.blen_le (hcount.trans hw.blen_le) h
    · exact absurd rfl hne
    · obtain ⟨_, t, _, rfl⟩ := hok rfl
      rfl

end Bios

/-- The number of bios of a write that the device accepts. -/
def biosTaken (env : Env) (w : World) (r : Request) : Nat :=
  deviceTakes (env.submit w.zs.tidMax) 0
    (freeRuns (released w.zs r) r.blen + runs none (rangeWords w.zs r))

theorem call_trims_iff {env : Env} {w w' : World} {s : List Frame} {r : Request} (hf : Formatted w.zs)
    (hflag : w.zs.mntFlag &&& zstoreEnableTrim ≠ 0) (hop : r.op = .write)
    (h : zstoreObjAsyncOpCall env r { w with stack := s } = .ok (0, w')) :
    TrimsReplaced w w' r ↔ TrimsLucky (env.uninit w.zs.tidMax).e w.zs r
      (freeRuns (released w.zs r) r.blen) (biosTaken env w r) := by
  obtain ⟨zs, tx, hp, ha⟩ := @accepted_call env r { w with stack := s } w' hf h
  have hself : w'.tx w.zs.tidMax = tx := ha.tx_self
  obtain ⟨hne, _⟩ | ⟨hne, _⟩ | ⟨_, hw⟩ := prepare_write hf.shift hop hp
  · exact absurd rfl hne
  · exact absurd rfl hne
  have hbios : tx.bios = writeBios (env.uninit w.zs.tidMax).e w.zs r := prepare_write_bios hf.shift hop hp
  have hflight := (@call_submitting env { w with stack := s } w' r hf h).flight
  simp only [hself, hbios] at hflight
  have hlen : (writeBios (env.uninit w.zs.tidMax).e w.zs r).length =
      freeRuns (released w.zs r) r.blen + runs none (rangeWords w.zs r) := by
    rw [writeBios_length, bioNr, if_pos hflag, hw.runs_eq.1, hw.runs_eq.2]
  have hsent := @submitBios_take (env.submit w.zs.tidMax) w.zs.tidMax 0 tx.dataBuffer
    (writeBios (env.uninit w.zs.tidMax).e w.zs r)
  rw [hlen] at hsent
  generalize submitBios (env.submit w.zs.tidMax) w.zs.tidMax 0 tx.dataBuffer
    (writeBios (env.uninit w.zs.tidMax).e w.zs r) = fs at hflight hsent
  rw [← hw.runs_eq.1, biosTaken, ← Written.trims_iff hf hw hflag, ← hsent]
  simp only [List.mem_map, exists_exists_and_eq_and, forall_exists_index, and_imp,
    forall_apply_eq_imp_iff₂]
  constructor
  · rintro ⟨fs', hfs', hexact, hapart⟩
    obtain rfl : fs = fs' := List.append_cancel_left (hflight.symm.trans hfs')
    exact ⟨hexact, hapart⟩
  · rintro ⟨hexact, hapart⟩
    exact ⟨fs, hflight, hexact, hapart⟩

/-- In every reachable state, with any calls still on the stack: the trims that an accepted write
submits are for exactly the blocks it replaces only by luck. -/
theorem trimsReplaced_iff (env : Env) (w0 w w' : World) (s : List Frame) (r : Request) (hm : Mounted w0)
    (hrun : Run (step env) (fun _ _ => True) w0 w) (hflag : w.zs.mntFlag &&& zstoreEnableTrim ≠ 0)
    (hop : r.op = .write) (h : zstoreObjAsyncOpCall env r { w with stack := s } = .ok (0, w')) :
    TrimsReplaced w w' r ↔ TrimsLucky (env.uninit w.zs.tidMax).e w.zs r
      (freeRuns (released w.zs r) r.blen) (biosTaken env w r) := by
  have hw := hrun.invariant hm.wf fun _ _ _ hi _ hs => step_wf hi hs
  exact call_trims_iff hw.formatted hflag hop h

/-- The same program, with other remains on the stack. -/
def Env.leaving (env : Env) (u : Nat → Extent) : Env :=
  { env with uninit := fun t => { env.uninit t with e := u } }

/-- Not every remains of the stack are lucky, unless nothing is replaced. -/
theorem trimsLucky_always_iff {zs : ZstoreContext} {r : Request} {n : Nat} (hle : r.blen ≤ 32) (hn : 0 < n) :
    (∀ u, TrimsLucky u zs r n (n + (oldExtents zs r).length)) ↔ oldBlocks zs r = [] := by
  constructor
  · intro h
    by_contra hne
    -- a write has at most 32 old blocks, so one of 33 is not among them
    obtain ⟨b, hlt, hb⟩ : ∃ b < 33, b ∉ oldBlocks zs r := by
      by_contra hall
      have hsub : List.range 33 ⊆ oldBlocks zs r := fun b hb => by
        by_contra hno
        exact hall ⟨b, List.mem_range.mp hb, hno⟩
      have hlen := (List.subperm_of_subset List.nodup_range hsub).length_le
      have hold : (oldBlocks zs r).length ≤ r.blen := by
        have hwords : (rangeWords zs r).length = r.blen := by rw [rangeWords, readWords_length]
        rw [← hwords, oldBlocks, mapped, List.length_map]
        exact List.length_filter_le ..
      rw [List.length_range] at hlen
      omega
    have hpos : 0 < (oldExtents zs r).length :=
      List.length_pos_of_ne_nil fun hnil => hne ((merge_nil_iff _).mp hnil)
    have hcovers : (Bio.ofExtent .trim ⟨b, 1⟩).Covers b := by
      simp only [Bio.Covers, Bio.ofExtent, BitVec.toNat_ofNat]
      omega
    exact hb ((h fun _ => ⟨b, 1⟩).stale (n + (oldExtents zs r).length - 1) (by omega)
      ⟨by omega, by omega, by omega⟩ b hcovers)
  · intro hnil u
    have hnone : oldExtents zs r = [] := (merge_nil_iff _).mpr hnil
    have hno : ∀ i, ¬ SendsTrim zs r n (n + (oldExtents zs r).length) i := by
      rintro i ⟨h1, h2, -⟩
      rw [hnone, List.length_nil] at h2
      omega
    refine ⟨fun i _ hs => absurd hs (hno i), fun i hi => ?_, fun b _ hb => ?_⟩
    · rw [hnone] at hi
      cases hi
    · rw [hnil] at hb
      cases hb

/-- With a device that accepts every bio, an accepted write has the right trims for all that the stack
may hold exactly if it replaces nothing. -/
theorem trimsReplaced_always (env : Env) (w0 w : World) (s : List Frame) (r : Request) (hm : Mounted w0)
    (hrun : Run (step env) (fun _ _ => True) w0 w) (hflag : w.zs.mntFlag &&& zstoreEnableTrim ≠ 0)
    (hop : r.op = .write) (hsub : ∀ i, env.submit w.zs.tidMax i = true)
    (hacc : ∀ u, ∃ w', zstoreObjAsyncOpCall (env.leaving u) r { w with stack := s } = .ok (0, w')) :
    (∀ u w', zstoreObjAsyncOpCall (env.leaving u) r { w with stack := s } = .ok (0, w') →
      TrimsReplaced w w' r) ↔ oldBlocks w.zs r = [] := by
  have hw := hrun.invariant hm.wf fun _ _ _ hi _ hs => step_wf hi hs
  have hf := hw.formatted
  obtain ⟨w1, h1⟩ := hacc fun _ => ⟨0, 0⟩
  obtain ⟨zs, tx, hp, -⟩ :=
    @accepted_call (env.leaving fun _ => ⟨0, 0⟩) r { w with stack := s } w1 hf h1
  obtain ⟨hne, _⟩ | ⟨hne, _⟩ | ⟨_, hwr⟩ := prepare_write hf.shift hop hp
  · exact absurd rfl hne
  · exact absurd rfl hne
  obtain ⟨hnew, hold⟩ := hwr.runs_eq
  have hall : ∀ u, biosTaken (env.leaving u) w r =
      freeRuns (released w.zs r) r.blen + (oldExtents w.zs r).length := by
    intro u
    have htaken : (List.range' 0 (freeRuns (released w.zs r) r.blen + runs none (rangeWords w.zs r))).takeWhile
        ((env.leaving u).submit w.zs.tidMax) = _ := List.takeWhile_eq_self_iff.mpr fun i _ => hsub i
    rw [biosTaken, deviceTakes, htaken, List.length_range', hold]
  have hpos : 0 < freeRuns (released w.zs r) r.blen := by
    rw [← hnew]
    exact List.length_pos_of_ne_nil (alloc_extents hwr.blen_pos hwr.room).2.2
  rw [← trimsLucky_always_iff hwr.blen_le hpos]
  constructor
  · intro h u
    obtain ⟨w', hcall⟩ := hacc u
    have hlucky := (call_trims_iff hf hflag hop hcall).mp (h u w' hcall)
    rwa [hall u] at hlucky
  · intro h u w' hcall
    refine (call_trims_iff hf hflag hop hcall).mpr ?_
    rw [hall u]
    exact h u

/-- The small store, mounted with TRIM. -/
def trimWorld : World :=
  World.mounted (freshStore 0 2 ⟨fun _ => 0, fun _ => 0, 2 ^ 32, fun _ => 0, fun _ => 0⟩ 512 smallImage)
    smallWorld.tx

theorem trimWorld_mounted : Mounted trimWorld :=
  freshStore_mounted (by decide) ⟨by decide, by decide⟩ (by decide)
    (fun a h1 h2 => by rw [smallImage, if_neg (by omega), if_pos h2]) _

/-- An environment in which every uninitialised extent is `e`. -/
def stackEnv (e : Extent) : Env := ⟨fun _ => ⟨fun _ => 0, fun _ => e⟩, fun _ => [], fun _ _ => true⟩

/-- Object 1 is created and its first block written. -/
def firstWrite : List Act :=
  [createObject 1, .resume, .resume, .request firstBlock, .bioDone 0 true, .resume, .resume, .resume]

/-- Another write of the block replaces block 0 by block 1. -/
structure Rewrites (e : Extent) (w w' : World) : Prop where
  run : Run (step (stackEnv e)) (fun _ _ => True) trimWorld w
  call : zstoreObjAsyncOpCall (stackEnv e) firstBlock w = .ok (0, w')
  flag : w.zs.mntFlag &&& zstoreEnableTrim ≠ 0
  old : oldExtents w.zs firstBlock = [⟨0, 1⟩]
  new : scanned (released w.zs firstBlock) firstBlock.blen = [1]
  freeRuns : freeRuns (released w.zs firstBlock) firstBlock.blen = 1
  taken : biosTaken (stackEnv e) w firstBlock = 2

theorem rewrites_of_run {e : Extent} (h : ((runActs (step (stackEnv e)) (fun _ _ => True) firstWrite
      trimWorld).bind fun w => (zstoreObjAsyncOpCall (stackEnv e) firstBlock w).toOption.map fun p =>
        decide (p.1 = 0 ∧ w.zs.mntFlag &&& zstoreEnableTrim ≠ 0 ∧ oldExtents w.zs firstBlock = [⟨0, 1⟩] ∧
          scanned (released w.zs firstBlock) firstBlock.blen = [1] ∧
          Store.freeRuns (released w.zs firstBlock) firstBlock.blen = 1 ∧
          biosTaken (stackEnv e) w firstBlock = 2)) = some true) : ∃ w w', Rewrites e w w' := by
  obtain ⟨w, hw, hcall⟩ := Option.bind_eq_some_iff.mp h
  obtain ⟨⟨rc, w'⟩, hok, hp⟩ := Option.map_eq_some_iff.mp hcall
  obtain ⟨hrc, hflag, hold, hnew, hruns, htaken⟩ := of_decide_eq_true hp
  obtain rfl : rc = 0 := hrc
  exact ⟨w, w', run_of_runActs .start hw, toOption_eq_some hok, hflag, hold, hnew, hruns, htaken⟩

theorem Rewrites.oldBlocks {e : Extent} {w w' : World} (h : Rewrites e w w') :
    Store.oldBlocks w.zs firstBlock = [0] := by
  have hold : Store.oldBlocks w.zs firstBlock = blocks (oldExtents w.zs firstBlock) := (blocks_merge _).symm
  rw [hold, h.old]
  rfl

/-- The stack still holds the extent of block 0. -/
theorem luckyTrim_replaced : ∃ w w', Rewrites ⟨0, 1⟩ w w' ∧ TrimsReplaced w w' firstBlock := by
  obtain ⟨w, w', h⟩ := @rewrites_of_run ⟨0, 1⟩ (by decide +kernel)
  refine ⟨w, w', h, (trimsReplaced_iff (stackEnv ⟨0, 1⟩) trimWorld w w' w.stack firstBlock
    trimWorld_mounted h.run h.flag rfl h.call).mpr ?_⟩
  rw [h.freeRuns, h.taken]
  refine ⟨fun i _ _ b hc => ?_, fun i hi _ b hb => ?_, fun b hb => ?_⟩
  · obtain ⟨_, hlt⟩ := hc
    rw [h.oldBlocks, List.mem_singleton]
    exact Nat.lt_one_iff.mp hlt
  · simp only [h.old, List.length_singleton, Nat.lt_one_iff] at hi
    subst hi
    have hb0 : b = 0 := by simpa [extentAt, h.old, Extent.blocks] using hb
    subst hb0
    refine ⟨1, ⟨by omega, by rw [h.old]; decide, by omega⟩, ?_⟩
    rw [extentAt, h.old]
    exact ⟨Nat.le_refl 0, Nat.zero_lt_one⟩
  · rw [h.new, List.mem_singleton] at hb
    rw [h.oldBlocks, hb]
    decide

/-- The stack holds zeroes: block 0 is replaced and not trimmed. -/
theorem rewrite_not_trimsReplaced : Mounted trimWorld ∧
    ∃ w w', Rewrites ⟨0, 0⟩ w w' ∧ ¬ TrimsReplaced w w' firstBlock := by
  obtain ⟨w, w', h⟩ := @rewrites_of_run ⟨0, 0⟩ (by decide +kernel)
  refine ⟨trimWorld_mounted, w, w', h, fun ht => ?_⟩
  have hf : Formatted w.zs :=
    (h.run.invariant trimWorld_mounted.wf fun _ _ _ hi _ hs => step_wf hi hs).formatted
  have hl := (@call_trims_iff _ w w' w.stack firstBlock hf h.flag rfl h.call).mp ht
  rw [h.freeRuns, h.taken] at hl
  obtain ⟨j, ⟨hj, _, _⟩, _, hlt⟩ := hl.skipped 0 (by rw [h.old]; decide) (fun hs => absurd hs.1 (by decide)) 0
    (by simp [extentAt, h.old, Extent.blocks])
  rw [extentAt_stale (by rw [h.old]; exact hj)] at hlt
  exact Nat.lt_irrefl 0 hlt

end ZCell.Store
