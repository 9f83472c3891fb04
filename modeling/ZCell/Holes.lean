import ZCell.ReservedBlocks
import ZCell.Trim

/-! Reads with holes. The words of a hole are replaced by block 0 before they are merged, so that the read
fetches it, whoever has it; the words behind the end of the object are those of another index
block. -/
namespace ZCell.Store
open Bytes Persist Pm Allocator Runs

/-- The blocks of a bio, in the order in which they fill the buffer. -/
def Bio.blocks (bio : Bio) : List Nat := List.range' bio.blkOfst.toNat bio.blkLen.toNat

/-- Index word of block `j` of the range. -/
def requestWord (zs : ZstoreContext) (r : Request) (j : Nat) : BitVec 32 :=
  indexWord zs.pm (1024 * (zs.onode r.oid.toNat).dataIdxId + (r.bofst + j))

/-- The object of the request maps `b` for block `j` of the range, or no object maps it. -/
def ShowsOwn (zs : ZstoreContext) (r : Request) (j b : Nat) : Prop :=
  MapsTo zs (r.oid.toNat, r.bofst + j) b ∨ ∀ s, ¬ MapsTo zs s b

/-- No block that the call has submitted I/O for belongs to somebody else. -/
def ExposesNobody (w w' : World) (r : Request) : Prop :=
  ∃ fs, w'.flight = w.flight ++ fs ∧
    ∀ j b, (fs.flatMap fun f => f.bio.blocks)[j]? = some b → ShowsOwn w.zs r j b

/-- Block `j` of the range is read: the device takes the bios of all the runs up to it. -/
def Sends (env : Env) (w : World) (r : Request) (j : Nat) : Prop :=
  j < r.blen ∧ ∀ i < runs none ((readRange w.zs r).take (j + 1)), env.submit w.zs.tidMax i = true

/-- Where the read meets a hole, no object maps block 0. -/
def HolesHidden (env : Env) (w : World) (r : Request) : Prop :=
  ∀ j, Sends env w r j → requestWord w.zs r j = unmapped → ∀ s, ¬ MapsTo w.zs s 0

/-- Where the read is behind the end of the object, it finds blocks that no object maps. -/
def PastEndFree (env : Env) (w : World) (r : Request) : Prop :=
  ∀ j, Sends env w r j → requestWord w.zs r j ≠ unmapped → 1024 ≤ r.bofst + j →
    ∀ s, ¬ MapsTo w.zs s (requestWord w.zs r j).toNat

section Prefix
variable {ws : List (BitVec 32)} {k j : Nat}

/-- A word changes nothing, opens an extent, or changes the newest one. -/
theorem mergeRound_ex (s : Merge) (ba : BitVec 32) : (mergeRound s ba).ex = s.ex ∨
    (∃ e, (mergeRound s ba).ex = e :: s.ex) ∨
    ∃ e p ps, s.ex = p :: ps ∧ (mergeRound s ba).ex = e :: ps := by
  unfold mergeRound
  split
  · exact Or.inl rfl
  · split
    · split
      · rename_i p ps hex
        split
        · exact Or.inr (Or.inr ⟨_, p, ps, hex, rfl⟩)
        · exact Or.inr (Or.inl ⟨_, rfl⟩)
      · rename_i hex
        exact Or.inr (Or.inl ⟨_, congrArg _ hex.symm⟩)
    · exact Or.inr (Or.inl ⟨_, rfl⟩)

theorem mergeRound_take {s : Merge} {ba : BitVec 32} (h : k < (mergeRound s ba).ex.length) :
    (mergeRound s ba).ex.reverse.take k = s.ex.reverse.take k := by
  obtain hex | ⟨e, hex⟩ | ⟨e, p, ps, hs, hex⟩ := mergeRound_ex s ba
  · rw [hex]
  · rw [hex, List.length_cons] at h
    rw [hex, List.reverse_cons]
    exact List.take_append_of_le_length (by rw [List.length_reverse]; omega)
  · rw [hex, List.length_cons] at h
    have hk : k ≤ ps.reverse.length := by
      rw [List.length_reverse]
      omega
    rw [hex, hs, List.reverse_cons, List.reverse_cons, List.take_append_of_le_length hk,
      List.take_append_of_le_length hk]

theorem merge_take {w : BitVec 32} (h : k < (objectLbaMergeTo (ws ++ [w])).1.length) :
    (objectLbaMergeTo (ws ++ [w])).1.take k = (objectLbaMergeTo ws).1.take k := by
  simp only [objectLbaMergeTo, List.foldl_append, List.foldl_cons, List.foldl_nil,
    List.length_reverse] at h ⊢
  exact mergeRound_take h

theorem runs_take_le (prev : Option (BitVec 32)) (ws : List (BitVec 32)) (n : Nat) :
    runs prev (ws.take n) ≤ runs prev ws := by
  induction ws generalizing prev n with
  | nil => rw [List.take_nil]
  | cons w ws ih =>
    cases n with
    | zero => exact Nat.zero_le _
    | succ n =>
      rw [List.take_succ_cons, runs, runs]
      split
      · exact ih none n
      · exact Nat.add_le_add_left (ih (some w) n) _

/-- Word `j` is in the first `k` extents exactly when these are all the runs up to it. -/
theorem lt_blocks_take (hall : ∀ w ∈ ws, w ≠ unmapped) (hlen : ws.length ≤ zstoreIoUnitMax) :
    j < (blocks ((objectLbaMergeTo ws).1.take k)).length ↔
      j < ws.length ∧ runs none (ws.take (j + 1)) ≤ k := by
  have hfull : ∀ l : List (BitVec 32), (∀ w ∈ l, w ≠ unmapped) →
      (blocks (objectLbaMergeTo l).1).length = l.length := by
    intro l hl
    rw [blocks_merge, mapped, List.filter_eq_self.mpr (by simpa using hl), List.length_map]
  induction ws using List.reverseRecOn with
  | nil => simp [objectLbaMergeTo, blocks]
  | append_singleton ws w ih =>
    have hprefix : ∀ v ∈ ws, v ≠ unmapped := fun v hv => hall v (List.mem_append_left _ hv)
    have hruns := merge_runs hlen
    rw [List.length_append, List.length_singleton] at hlen ⊢
    by_cases hk : runs none (ws ++ [w]) ≤ k
    · rw [List.take_of_length_le (by rw [hruns]; exact hk), hfull _ hall, List.length_append,
        List.length_singleton]
      exact (and_iff_left ((runs_take_le none _ _).trans hk)).symm
    · have hk := Nat.lt_of_not_le hk
      rw [merge_take (by rw [hruns]; exact hk)]
      refine (ih hprefix (by omega)).trans ?_
      by_cases hj : j < ws.length
      · rw [List.take_append_of_le_length (by omega)]
        exact and_congr_left fun _ => ⟨fun h => by omega, fun _ => hj⟩
      · -- the last word is in the last extent
        refine ⟨fun h => absurd h.1 hj, fun h => ?_⟩
        obtain ⟨hlt, hle⟩ := h
        rw [List.take_of_length_le (by rw [List.length_append, List.length_singleton]; omega)] at hle
        omega

theorem le_deviceTakes {submit : Nat → Bool} {i n : Nat} :
    k ≤ deviceTakes submit i n ↔ k ≤ n ∧ ∀ m < k, submit (i + m) = true := by
  induction n generalizing i k with
  | zero =>
    rw [deviceTakes, List.range'_zero, List.takeWhile_nil, List.length_nil]
    exact ⟨fun h => ⟨h, fun m hm => by omega⟩, fun h => h.1⟩
  | succ n ih =>
    cases k with
    | zero => simp
    | succ k =>
      have hsucc : (∀ m < k + 1, submit (i + m) = true) ↔
          submit i = true ∧ ∀ m < k, submit (i + 1 + m) = true := by
        rw [Nat.forall_lt_succ_left']
        simp only [Nat.add_zero, Nat.add_right_comm i 1, Nat.add_assoc i _ 1]
      rw [hsucc, deviceTakes, List.range'_succ, List.takeWhile_cons]
      split
      · rename_i hs
        have hn := @ih k (i + 1)
        rw [deviceTakes] at hn
        rw [List.length_cons, Nat.succ_le_succ_iff, hn]
        simp [hs]
      · rename_i hs
        simp [hs]

end Prefix

section Reads
variable {env : Env} {w w' : World} {zs zs' : ZstoreContext} {r : Request} {tx : ZstoreTransaction}
  {j k b : Nat}

/-- The bios that are submitted are about the blocks of their extents. -/
theorem ReadOk.sent (h : ReadOk zs r zs' tx) :
    ((readBios zs r).take k).flatMap Bio.blocks = blocks ((objectLbaMergeTo (readRange zs r)).1.take k) := by
  rw [readBios, ← List.map_take, List.flatMap_map, blocks]
  apply List.flatMap_congr
  intro e he
  obtain ⟨hlba, hlen⟩ := merge_fits (List.mem_of_mem_take he)
  have hle := h.blen_le
  rw [readRange, List.length_map, rangeWords, readWords_length] at hlen
  rw [Bio.blocks, Extent.blocks]
  simp only [Bio.ofExtent, BitVec.toNat_ofNat]
  rw [Nat.mod_eq_of_lt hlba, Nat.mod_eq_of_lt (by omega)]

theorem ReadOk.sends_iff (h : ReadOk w.zs r zs' tx) :
    j < (blocks ((objectLbaMergeTo (readRange w.zs r)).1.take
      (deviceTakes (env.submit w.zs.tidMax) 0 (readBios w.zs r).length))).length ↔ Sends env w r j := by
  have hlen : (readRange w.zs r).length = r.blen := by
    rw [readRange, List.length_map, rangeWords, readWords_length]
  have hmax : (readRange w.zs r).length ≤ zstoreIoUnitMax := by
    have hle := h.blen_le
    unfold zstoreIoUnitMax
    omega
  have hruns : runs none ((readRange w.zs r).take (j + 1)) ≤ (readBios w.zs r).length := by
    rw [readBios, List.length_map, merge_runs hmax]
    exact runs_take_le none _ _
  rw [lt_blocks_take (readRange_mapped w.zs r) hmax, le_deviceTakes, Sends, hlen]
  simp only [hruns, true_and, Nat.zero_add]

theorem fetched_request (hf : Formatted zs) (hj : j < r.blen) : (fetched zs r)[j]? =
    some (if requestWord zs r j = unmapped then 0 else requestWord zs r j).toNat :=
  fetched_entry hf hj

/-- What the read fetches for an entry is its own or nobody's, under the two conditions. -/
theorem showsOwn_iff (hf : Formatted zs) (hval : Valid zs.onode r.oid.toNat) (hj : j < r.blen)
    (hb : (fetched zs r)[j]? = some b) : ShowsOwn zs r j b ↔
      (requestWord zs r j = unmapped → ∀ s, ¬ MapsTo zs s 0) ∧
      (requestWord zs r j ≠ unmapped → 1024 ≤ r.bofst + j →
        ∀ s, ¬ MapsTo zs s (requestWord zs r j).toNat) := by
  rw [fetched_request hf hj, Option.some.injEq] at hb
  by_cases hun : requestWord zs r j = unmapped
  · obtain rfl : b = 0 := by
      rw [← hb, if_pos hun]
      rfl
    have hno : ¬ MapsTo zs (r.oid.toNat, r.bofst + j) 0 := fun hm => hm.2.2.1 hun
    simp [ShowsOwn, hun, hno]
  · obtain rfl : (requestWord zs r j).toNat = b := by
      rw [← hb, if_neg hun]
    by_cases hend : 1024 ≤ r.bofst + j
    · have hno : ¬ MapsTo zs (r.oid.toNat, r.bofst + j) (requestWord zs r j).toNat :=
        fun hm => absurd hm.2.1 (Nat.not_lt.mpr hend)
      simp [ShowsOwn, hun, hno, hend]
    · have hown : MapsTo zs (r.oid.toNat, r.bofst + j) (requestWord zs r j).toNat :=
        ⟨hval, Nat.lt_of_not_le hend, hun, rfl⟩
      simp [ShowsOwn, hun, hown, hend]

theorem exposesNobody_iff {s : List Frame} (hf : Formatted w.zs) (hop : r.op = .read)
    (hval : Valid w.zs.onode r.oid.toNat)
    (h : zstoreObjAsyncOpCall env r { w with stack := s } = .ok (0, w')) :
    ExposesNobody w w' r ↔ HolesHidden env w r ∧ PastEndFree env w r := by
  obtain ⟨zs, tx, hp, ha⟩ := @accepted_call env r { w with stack := s } w' hf h
  have hself : w'.tx w.zs.tidMax = tx := ha.tx_self
  obtain ⟨hne, _⟩ | ⟨_, hok⟩ := prepare_read hf.shift hop hp
  · exact absurd rfl hne
  have hflight := (@call_submitting env { w with stack := s } w' r hf h).flight
  simp only [hself, hok.bios] at hflight
  have hsent := @submitBios_take (env.submit w.zs.tidMax) w.zs.tidMax 0 tx.dataBuffer (readBios w.zs r)
  generalize submitBios (env.submit w.zs.tidMax) w.zs.tidMax 0 tx.dataBuffer (readBios w.zs r) = fs
    at hflight hsent
  have hblocks : (fs.flatMap fun f => f.bio.blocks) = blocks ((objectLbaMergeTo (readRange w.zs r)).1.take
      (deviceTakes (env.submit w.zs.tidMax) 0 (readBios w.zs r).length)) := by
    rw [← hok.sent, ← hsent, List.flatMap_map]
  -- the blocks that are read are the first of the range
  have hread : ∀ j b, (fs.flatMap fun f => f.bio.blocks)[j]? = some b ↔
      Sends env w r j ∧ (fetched w.zs r)[j]? = some b := by
    intro j b
    have hsplit : fetched w.zs r = (fs.flatMap fun f => f.bio.blocks) ++
        blocks ((objectLbaMergeTo (readRange w.zs r)).1.drop
          (deviceTakes (env.submit w.zs.tidMax) 0 (readBios w.zs r).length)) := by
      rw [hblocks, ← blocks_append, List.take_append_drop, blocks_merge, fetched]
    rw [← hok.sends_iff, ← hblocks, hsplit]
    constructor
    · intro hb
      obtain ⟨hlt, _⟩ := List.getElem?_eq_some_iff.mp hb
      exact ⟨hlt, by rw [List.getElem?_append_left hlt]; exact hb⟩
    · rintro ⟨hlt, hb⟩
      rwa [List.getElem?_append_left hlt] at hb
  constructor
  · rintro ⟨fs', hfs', hall⟩
    obtain rfl : fs = fs' := List.append_cancel_left (hflight.symm.trans hfs')
    have hboth := fun j (hs : Sends env w r j) =>
      (showsOwn_iff hf hval hs.1 (fetched_request hf hs.1)).mp
        (hall j _ ((hread j _).mpr ⟨hs, fetched_request hf hs.1⟩))
    exact ⟨fun j hs => (hboth j hs).1, fun j hs => (hboth j hs).2⟩
  · rintro ⟨hholes, hend⟩
    refine ⟨fs, hflight, fun j b hb => ?_⟩
    obtain ⟨hs, hb⟩ := (hread j b).mp hb
    exact (showsOwn_iff hf hval hs.1 hb).mpr ⟨hholes j hs, hend j hs⟩

end Reads

/-- In every reachable state of a store, with any calls still on the stack: a read of a created object
reads nobody's data exactly when it meets no hole while an object has block 0, unless block 0 is
reserved, and nothing of another object behind its end. -/
theorem readHoles_iff (env : Env) (stk : Image) (e : Nat → OtableEntry) (nblks cpu : Nat)
    (flags mflags : BitVec 32) (m : Image) (h : MountMem) (zs : ZstoreContext)
    (heap : Nat → ZstoreTransaction) (w w' : World) (s : List Frame) (r : Request) (hcpu : cpu < 127)
    (hp : h.Placed) (hm : zstoreMount cpu mflags h (zstoreMkfs stk e nblks flags m) = .ok zs)
    (hrun : Run (step env) (fun _ _ => True) (World.mounted zs heap) w) (hop : r.op = .read)
    (hval : Valid w.zs.onode r.oid.toNat)
    (hcall : zstoreObjAsyncOpCall env r { w with stack := s } = .ok (0, w')) :
    ExposesNobody w w' r ↔ (flags &&& zstoreMkfsReserveObjid ≠ 0 ∨ HolesHidden env w r) ∧
      PastEndFree env w r := by
  have hw : WF w := hrun.invariant (sparedInv_mounted env hcpu hp hm heap).owned.wf
    fun _ _ _ hi _ hs => step_wf hi hs
  rw [exposesNobody_iff hw.formatted hop hval hcall]
  refine and_congr_left fun _ => ⟨Or.inr, fun hh => ?_⟩
  obtain hflags | hh := hh
  · exact fun _ _ _ s => reserved_unmapped hflags hcpu hp hm hrun (by decide) s
  · exact hh

def readFirst (oid : BitVec 64) : Request := ⟨.read, oid, 0, 4096, 0⟩

/-- The first block of object 1 has been written, and object 2 created. -/
def holeBegun : List Act := firstWrite ++ [createObject 2, .resume, .resume]

/-- Its reading, in front of the empty range of object 2. -/
theorem holeBegun_reads : ∃ w, Run (step smallEnv) (fun _ _ => True) smallWorld w ∧
    MapsTo w.zs (1, 0) 0 ∧ Valid w.zs.onode 2 ∧ requestWord w.zs (readFirst 2) 0 = unmapped ∧
    ∀ oid : BitVec 64, oid = 1 ∨ oid = 2 →
      ∃ w', zstoreObjAsyncOpCall smallEnv (readFirst oid) { w with stack := w.stack } = .ok (0, w') := by
  have hrun : ((runActs (step smallEnv) (fun _ _ => True) holeBegun smallWorld).map fun w =>
      decide ((w.zs.onode 1).valid = true ∧ (w.zs.onode 2).valid = true ∧
        requestWord w.zs (readFirst 1) 0 = 0 ∧ requestWord w.zs (readFirst 2) 0 = unmapped ∧
        ((zstoreObjAsyncOpCall smallEnv (readFirst 1) w).toOption.map Prod.fst) = some 0 ∧
        ((zstoreObjAsyncOpCall smallEnv (readFirst 2) w).toOption.map Prod.fst) = some 0)) =
      some true := by decide +kernel
  obtain ⟨w, hw, hval⟩ := Option.map_eq_some_iff.mp hrun
  obtain ⟨h1, h2, hone, htwo, hr1, hr2⟩ := of_decide_eq_true hval
  have hcall : ∀ r, (zstoreObjAsyncOpCall smallEnv r w).toOption.map Prod.fst = some 0 →
      ∃ w', zstoreObjAsyncOpCall smallEnv r { w with stack := w.stack } = .ok (0, w') := by
    intro r h
    obtain ⟨⟨rc, w'⟩, hok, rfl⟩ := Option.map_eq_some_iff.mp h
    exact ⟨w', toOption_eq_some hok⟩
  refine ⟨w, run_of_runActs .start hw, ⟨⟨by decide, h1⟩, by decide, ?_, ?_⟩, ⟨by decide, h2⟩, htwo,
    fun oid ho => ?_⟩
  · have hne : requestWord w.zs (readFirst 1) 0 ≠ unmapped := by
      rw [hone]
      decide
    exact hne
  · exact congrArg BitVec.toNat hone
  · obtain rfl | rfl := ho
    · exact hcall _ hr1
    · exact hcall _ hr2

/-- Object 1 is read back. -/
theorem ownRead_exposesNobody : ∃ w w' : World, MapsTo w.zs (1, 0) 0 ∧
    zstoreObjAsyncOpCall smallEnv (readFirst 1) w = .ok (0, w') ∧ ExposesNobody w w' (readFirst 1) := by
  obtain ⟨w, hrun, hm, _, _, hcall⟩ := holeBegun_reads
  obtain ⟨w', h⟩ := hcall 1 (Or.inl rfl)
  have hj : ∀ {j}, Sends smallEnv w (readFirst 1) j → j = 0 := fun hs => Nat.lt_one_iff.mp hs.1
  refine ⟨w, w', hm, h, (readHoles_iff smallEnv _ _ 512 0 0 0 _ _ smallStore _ w w' w.stack (readFirst 1)
    (by decide) ⟨by decide, by decide⟩ smallStore_mount hrun rfl hm.1 h).mpr
      ⟨Or.inr fun j hs hun => ?_, fun j hs _ hend => ?_⟩⟩
  · obtain rfl := hj hs
    exact absurd hun hm.2.2.1
  · obtain rfl := hj hs
    exact absurd hend (by decide)

/-- The empty range of object 2 is read: the block of object 1 is fetched for it. -/
theorem holeRead_exposes :
    zstoreMount 0 0 ⟨fun _ => 0, fun _ => 0, 2 ^ 32, fun _ => 0, fun _ => 0⟩
      (zstoreMkfs (fun _ => 0) (fun _ => 0) 512 0 fun _ => 0xff) = .ok smallWorld.zs ∧
    ∃ w w' : World, Run (step smallEnv) (fun _ _ => True) smallWorld w ∧ Valid w.zs.onode 2 ∧
      zstoreObjAsyncOpCall smallEnv (readFirst 2) w = .ok (0, w') ∧ MapsTo w.zs (1, 0) 0 ∧
      ¬ ExposesNobody w w' (readFirst 2) := by
  obtain ⟨w, hrun, hm, hval, hun, hcall⟩ := holeBegun_reads
  obtain ⟨w', h⟩ := hcall 2 (Or.inr rfl)
  refine ⟨smallStore_mount, w, w', hrun, hval, h, hm, fun he => ?_⟩
  have hf : Formatted w.zs :=
    (hrun.invariant smallWorld_mounted.wf fun _ _ _ hi _ hs => step_wf hi hs).formatted
  have hholes := ((@exposesNobody_iff smallEnv w w' (readFirst 2) w.stack hf rfl hval h).mp he).1
  exact hholes 0 ⟨by decide, fun _ _ => rfl⟩ hun (1, 0) hm

end ZCell.Store
