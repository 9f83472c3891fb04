import ZCell.DataIndex

/-! Everything a prepare function can do, for each kind of request: the codes it returns, the
parts of the store it changes, and the transaction it leaves behind. -/
namespace ZCell.Store
open Bytes Persist Pm Allocator
variable {g : Uninit} {zs zs' : ZstoreContext} {r : Request} {tx tx' : ZstoreTransaction} {rc : Int}

/-- The number of blocks a request addresses, and the first one. -/
def Request.blen (r : Request) : Nat := r.len.toNat / zstorePageSize

def Request.bofst (r : Request) : Nat := r.ofst.toNat / zstorePageSize

/-- The index words of the addressed range. -/
def rangeWords (zs : ZstoreContext) (r : Request) : List (BitVec 32) :=
  readWords zs.pm (objectDataIndexBlock zs (zs.onode r.oid.toNat) + 4 * r.bofst) r.blen

/-- The extents that a write releases. -/
def oldExtents (zs : ZstoreContext) (r : Request) : List Extent :=
  (objectLbaMergeTo (rangeWords zs r)).1

/-- The SSD allocator as a write hands it to `stupid_alloc_space`. -/
def released (zs : ZstoreContext) (r : Request) : StupidAllocator :=
  stupidFreeSpace zs.ssdAllocator (oldExtents zs r)

def newSsd (zs : ZstoreContext) (r : Request) : StupidAllocator :=
  (stupidAllocSpace (released zs r) r.blen).2.1

def newExtents (zs : ZstoreContext) (r : Request) : List Extent :=
  (stupidAllocSpace (released zs r) r.blen).2.2

/-- The checks that reject a write before it touches the allocator. -/
def Refused (zs : ZstoreContext) (r : Request) : Prop :=
  r.len = 0 ∨ r.len.toNat % zstorePageSize ≠ 0 ∨ r.ofst.toNat % zstorePageSize ≠ 0 ∨
  zs.zsb.onodesRsv ≤ r.oid.toNat ∨ zstoreObjMaxSizeBytes < (r.ofst + r.len).toNat

instance (zs : ZstoreContext) (r : Request) : Decidable (Refused zs r) :=
  inferInstanceAs (Decidable (_ ∨ _))

/-- The write is going to be rejected, by a check or by the allocator. -/
def Fails (zs : ZstoreContext) (r : Request) : Prop :=
  Refused zs r ∨ ¬ HasRoom (released zs r) r.blen

instance (zs : ZstoreContext) (r : Request) : Decidable (Fails zs r) :=
  inferInstanceAs (Decidable (_ ∨ _))

/-- `bio_nr`: a bio for each new extent, and with TRIM one for each old one. -/
def bioNr (zs : ZstoreContext) (r : Request) : Nat :=
  (newExtents zs r).length + if zs.mntFlag &&& zstoreEnableTrim ≠ 0 then (oldExtents zs r).length else 0

/-- The extents that a write trims; `u` is what the stack held in the array `e`. -/
def trimmed (u : Nat → Extent) (zs : ZstoreContext) (r : Request) : List Extent :=
  if zs.mntFlag &&& zstoreEnableTrim ≠ 0 then
    trimExtents u (oldExtents zs r) (newExtents zs r).length
  else []

def writeBios (u : Nat → Extent) (zs : ZstoreContext) (r : Request) : List Bio :=
  (newExtents zs r).map (Bio.ofExtent .write) ++ (trimmed u zs r).map (Bio.ofExtent .trim)

theorem trimExtents_length (u : Nat → Extent) (e : List Extent) (n : Nat) :
    (trimExtents u e n).length = e.length := by
  rw [trimExtents, List.length_map, List.length_range']

theorem writeBios_length (u : Nat → Extent) (zs : ZstoreContext) (r : Request) :
    (writeBios u zs r).length = bioNr zs r := by
  rw [writeBios, List.length_append, List.length_map, List.length_map, bioNr, trimmed]
  split
  · rw [trimExtents_length]
  · rfl

/-- The bitmap entries that a write logs. -/
def namedEntries (zs : ZstoreContext) (r : Request) : List Nat :=
  lbaToBitmapId (oldExtents zs r) ++ lbaToBitmapId (newExtents zs r)

/-- The log of a write: bitmap entries, index words, onode. -/
def writeLog (zs : ZstoreContext) (r : Request) : List PmLogEntry :=
  (namedEntries zs r).map (bitmapLog zs.zsb.pmSsdBitmapOfst (newSsd zs r).bs) ++
  [⟨0, BitVec.ofNat 64 (objectDataIndexBlock zs (zs.onode r.oid.toNat) + 4 * (r.bofst % 2 ^ 32)),
      wordsBytes ((blocks (newExtents zs r)).map (BitVec.ofNat 32))⟩,
    ⟨BitVec.ofNat 64 (zs.onodeAddr r.oid.toNat),
      BitVec.ofNat 64 (zs.zsb.pmOtableOfst + 64 * r.oid.toNat),
      lineBytes (zs.onode r.oid.toNat)⟩]

/-- An accepted write. -/
structure Written (zs : ZstoreContext) (r : Request) (zs' : ZstoreContext)
    (tx' : ZstoreTransaction) : Prop where
  checked : ¬ Refused zs r
  blen_pos : 1 ≤ r.blen
  blen_le : r.blen ≤ 32
  in_pm : objectDataIndexBlock zs (zs.onode r.oid.toNat) + 4 * r.bofst + 4 * r.blen ≤ zs.pmem.size
  in_bitmap : ∀ b ∈ mapped (rangeWords zs r), b / 512 < zs.ssdAllocator.nrEntrys
  room : HasRoom (released zs r) r.blen
  store : zs' = { zs with tidMax := zs.tidMax + 1, ssdAllocator := newSsd zs r }
  tid : tx'.tid = zs.tidMax
  txType : tx'.txType = .write
  sync : tx'.sync = false
  state : tx'.state = .dataIo
  request : tx'.request = r
  bios : ∃ u, tx'.bios = writeBios u zs r
  outstanding : tx'.bioOutstanding = bioNr zs r
  /-- The array `e` has room for the index that runs on. -/
  trims : zs.mntFlag &&& zstoreEnableTrim ≠ 0 → oldExtents zs r ≠ [] →
    (newExtents zs r).length + (oldExtents zs r).length ≤ 32
  log : ∃ t, tx'.pmTx = some t ∧ Built t (writeLog zs r)

theorem Written.succeeds (h : Written zs r zs' tx') : ¬ Fails zs r := by
  intro hf
  obtain hf | hf := hf
  · exact h.checked hf
  · exact hf h.room

theorem stupidFreeSpace_nil (a : StupidAllocator) : stupidFreeSpace a [] = a := by
  simp [stupidFreeSpace, blocks, clearAll]

theorem logSize_bitmapLogs (base : Nat) (bs : Nat → BitVec 512) (ks : List Nat) :
    logSize (ks.map (bitmapLog base bs)) = 88 * ks.length := by
  induction ks with
  | nil => rfl
  | cons k ks ih =>
    simp only [logSize, List.map_cons, List.sum_cons, List.length_cons] at ih ⊢
    rw [ih]
    simp [bitmapLog, PmLogEntry.size]
    omega

theorem logSize_pair (e f : PmLogEntry) :
    logSize [e, f] = 48 + e.value.length + f.value.length := by
  simp [logSize, PmLogEntry.size]
  omega

/-- The three ways out of the write branch once the range has been looked up. -/
theorem txPrepWrite_cases {oe : OtableEntry} {e : List Extent} {blen : Nat}
    (hpos : 1 ≤ blen) (hblen : blen ≤ 32) (he : e.length ≤ 32)
    (h : txPrepWrite g zs r tx oe e blen = .ok (rc, zs', tx')) :
    (zstoreObjMaxSizeBytes < (r.ofst + r.len).toNat ∧ rc ≠ 0 ∧ zs' = zs) ∨
    ¬ zstoreObjMaxSizeBytes < (r.ofst + r.len).toNat ∧
    (∀ b ∈ blocks e, b / 512 < zs.ssdAllocator.nrEntrys) ∧
    let res := stupidAllocSpace (stupidFreeSpace zs.ssdAllocator e) blen
    zs' = { zs with ssdAllocator := res.2.1 } ∧ rc = res.1 ∧
    (rc = 0 →
      let bios := res.2.2.map (Bio.ofExtent .write) ++
        (if zs.mntFlag &&& zstoreEnableTrim ≠ 0 then trimExtents g.e e res.2.2.length else []).map
          (Bio.ofExtent .trim)
      (zs.mntFlag &&& zstoreEnableTrim ≠ 0 → e ≠ [] → res.2.2.length + e.length ≤ 32) ∧ ∃ t, Built t ((lbaToBitmapId e ++ lbaToBitmapId res.2.2).map
          (bitmapLog zs.zsb.pmSsdBitmapOfst res.2.1.bs) ++
          [⟨0, BitVec.ofNat 64 (objectDataIndexBlock zs oe + 4 * (r.bofst % 2 ^ 32)),
              wordsBytes ((blocks res.2.2).map (BitVec.ofNat 32))⟩,
            ⟨BitVec.ofNat 64 (zs.onodeAddr r.oid.toNat),
              BitVec.ofNat 64 (zs.zsb.pmOtableOfst + 64 * r.oid.toNat), lineBytes oe⟩]) ∧
        tx' = { tx with
          txType := .write
          state := .dataIo
          bioOutstanding := bios.length
          bios := bios
          pmTx := some t }) := by
  have hfree : (if e = [] then zs.ssdAllocator else stupidFreeSpace zs.ssdAllocator e) =
      stupidFreeSpace zs.ssdAllocator e := by
    split
    · rename_i hnil
      rw [hnil, stupidFreeSpace_nil]
    · rfl
  have hbid : (if e = [] then [] else lbaToBitmapId e) = lbaToBitmapId e := by
    split
    · rename_i hnil
      rw [hnil]
      rfl
    · rfl
  have hroom := @alloc_zero_iff (stupidFreeSpace zs.ssdAllocator e) blen hpos
  have hext := @alloc_extents (stupidFreeSpace zs.ssdAllocator e) blen hpos
  simp only [txPrepWrite, hfree, hbid] at h
  split at h
  · rename_i hbig
    simp only [Except.ok.injEq, Prod.mk.injEq] at h
    obtain ⟨rfl, rfl, rfl⟩ := h
    exact Or.inl ⟨hbig, by decide, rfl⟩
  · rename_i hsmall
    split at h
    · cases h
    · rename_i hbm
      refine Or.inr ⟨hsmall, fun b hb => ?_, ?_⟩
      · simp only [List.any_eq_true, decide_eq_true_eq, not_exists, not_and, Nat.not_le] at hbm
        exact hbm b hb
      · generalize hres : stupidAllocSpace (stupidFreeSpace zs.ssdAllocator e) blen = res
          at h hroom hext
        obtain ⟨rc0, a, enew⟩ := res
        simp only at h hroom hext ⊢
        split at h
        · rename_i hne
          simp only [Except.ok.injEq, Prod.mk.injEq] at h
          obtain ⟨rfl, rfl, rfl⟩ := h
          exact ⟨rfl, rfl, fun hz => absurd hz hne⟩
        rename_i hz
        split at h
        · cases h
        · rename_i htrim
          have hfits : zs.mntFlag &&& zstoreEnableTrim ≠ 0 → e ≠ [] → enew.length + e.length ≤ 32 :=
            fun h1 h2 => Nat.le_of_not_lt fun hlt => htrim ⟨h1, h2, hlt⟩
          obtain ⟨hcount, hlen, _⟩ := hext (hroom.mp (by simpa using hz))
          have hsize := logSize_bitmapLogs zs.zsb.pmSsdBitmapOfst a.bs
            (lbaToBitmapId e ++ lbaToBitmapId enew)
          have h1 := lbaToBitmapId_length e
          have h2 := lbaToBitmapId_length enew
          rw [List.length_append] at hsize
          obtain ⟨t, ht, hb⟩ := (built_alloc g.log).addAll ((lbaToBitmapId e ++ lbaToBitmapId enew).map
            (bitmapLog zs.zsb.pmSsdBitmapOfst a.bs)) (by
              rw [List.nil_append, hsize]
              unfold pmLogRegionSize
              omega)
          rw [ht, List.length_map, hcount] at h
          simp only [ne_eq, not_true_eq_false, if_false, Except.ok.injEq, Prod.mk.injEq] at h
          obtain ⟨rfl, rfl, rfl⟩ := h
          rw [List.nil_append] at hb
          -- both further entries fit behind at most 64 bitmap entries
          have hdib := hb.add (BitVec.ofNat 64 (objectDataIndexBlock zs oe +
            4 * (r.bofst % 2 ^ 32))) 0 (wordsBytes ((blocks enew).map (BitVec.ofNat 32))) (by
              rw [hsize, wordsBytes_length, List.length_map, hcount]
              unfold pmLogRegionSize
              omega)
          have hoe := hdib.2.add (BitVec.ofNat 64 (zs.zsb.pmOtableOfst + 64 * r.oid.toNat))
            (BitVec.ofNat 64 (zs.onodeAddr r.oid.toNat)) (lineBytes oe) (by
              rw [logSize_append, hsize, lineBytes_length]
              simp only [logSize, List.map_cons, List.map_nil, List.sum_cons, List.sum_nil,
                PmLogEntry.size, wordsBytes_length, List.length_map, hcount]
              unfold pmLogRegionSize
              omega)
          rw [List.append_assoc] at hoe
          exact ⟨rfl, (not_not.mp hz).symm, fun _ => ⟨hfits, _, hoe.2, rfl⟩⟩

/-- What an access that does not fault finds: the words of the range, read within the mapping. -/
theorem objectLbaRangeGet_ok {oe : OtableEntry} {b : Bool} {res}
    (hshift : zs.zsb.ssdMinAllocSizeShift = 12)
    (h : objectLbaRangeGet zs oe r.ofst r.len b = .ok res) :
    r.blen ≤ 32 ∧ objectDataIndexBlock zs oe + 4 * r.bofst + 4 * r.blen ≤ zs.pmem.size ∧
    let words := readWords zs.pm (objectDataIndexBlock zs oe + 4 * r.bofst) r.blen
    let dib := if b then words else words.map fun w => if w = unmapped then 0 else w
    res = ((objectLbaMergeTo dib).1, (objectLbaMergeTo dib).2, dib) := by
  have hb : r.len.toNat / 2 ^ 12 = r.blen := rfl
  have ho : r.ofst.toNat / 2 ^ 12 = r.bofst := rfl
  simp only [objectLbaRangeGet, hshift, hb, ho] at h
  split at h
  · cases h
  · rename_i hlen
    split at h
    · cases h
    · rename_i hpm
      exact ⟨Nat.le_of_not_lt hlen, Nat.le_of_not_lt hpm, (Except.ok.inj h).symm⟩

theorem assertState_ok {state : TxState} {p : Prepared}
    (h : assertState state p = .ok (rc, zs', tx')) :
    p = .ok (rc, zs', tx') ∧ (rc = 0 → tx'.state = state) := by
  unfold assertState at h
  split at h
  · split at h
    · rename_i hst
      simp only [Except.ok.injEq, Prod.mk.injEq] at h
      obtain ⟨rfl, rfl, rfl⟩ := h
      exact ⟨rfl, fun _ => hst⟩
    · cases h
  · rename_i hne
    subst h
    exact ⟨rfl, fun hz => absurd (by rw [hz]) (hne zs' tx')⟩

theorem blen_pos (h0 : r.len ≠ 0) (hm : r.len.toNat % zstorePageSize = 0) : 1 ≤ r.blen := by
  have hne : r.len.toNat ≠ 0 := fun h => h0 (BitVec.eq_of_toNat_eq h)
  unfold Request.blen
  unfold zstorePageSize at hm ⊢
  omega

theorem blen_mod (h : r.blen ≤ 32) : r.blen % 2 ^ 32 = r.blen := Nat.mod_eq_of_lt (by omega)

/-- A write is rejected by a check, rejected by the allocator, or accepted. -/
theorem prepare_write (hshift : zs.zsb.ssdMinAllocSizeShift = 12) (hop : r.op = .write)
    (h : zstoreTxPrepare g zs r tx = .ok (rc, zs', tx')) :
    (rc ≠ 0 ∧ Refused zs r ∧ zs' = { zs with tidMax := zs.tidMax + 1 }) ∨
    (rc ≠ 0 ∧ ¬ Refused zs r ∧ 1 ≤ r.blen ∧ ¬ HasRoom (released zs r) r.blen ∧
      zs' = { zs with tidMax := zs.tidMax + 1, ssdAllocator := newSsd zs r }) ∨
    (rc = 0 ∧ Written zs r zs' tx') := by
  simp only [zstoreTxPrepare, hop] at h
  obtain ⟨h, _⟩ := assertState_ok h
  simp only [txPrepRwCommon, hop, ne_eq, not_true_eq_false, and_false, if_false] at h
  split at h
  · rename_i hlen
    simp only [Except.ok.injEq, Prod.mk.injEq] at h
    obtain ⟨rfl, rfl, rfl⟩ := h
    exact Or.inl ⟨by decide, hlen.imp_right Or.inl, rfl⟩
  · rename_i hlen
    split at h
    · rename_i hofst
      simp only [Except.ok.injEq, Prod.mk.injEq] at h
      obtain ⟨rfl, rfl, rfl⟩ := h
      exact Or.inl ⟨by decide, Or.inr (Or.inr (Or.inl hofst)), rfl⟩
    · rename_i hofst
      split at h
      · rename_i hoid
        simp only [Except.ok.injEq, Prod.mk.injEq] at h
        obtain ⟨rfl, rfl, rfl⟩ := h
        exact Or.inl ⟨by decide, Or.inr (Or.inr (Or.inr (Or.inl hoid))), rfl⟩
      · rename_i hoid
        split at h
        · cases h
        · rename_i e mb dib hget
          rw [not_or, not_not] at hlen
          have hpos := blen_pos hlen.1 hlen.2
          obtain ⟨hmax, hpm, hres⟩ := @objectLbaRangeGet_ok { zs with tidMax := zs.tidMax + 1 } r _ _ _
            hshift hget
          simp only [decide_true, if_true, Prod.mk.injEq] at hres
          obtain ⟨rfl, rfl, rfl⟩ := hres
          have hmod : r.len.toNat / zstorePageSize % 2 ^ 32 = r.blen := blen_mod hmax
          simp only [reduceCtorEq, if_false, hmod] at h
          have hword : ∀ zs0 : ZstoreContext, zs0 = { zs with tidMax := zs.tidMax + 1 } →
              readWords zs0.pm (objectDataIndexBlock zs0 (zs0.onode r.oid.toNat) + 4 * r.bofst)
                r.blen = rangeWords zs r := by
            rintro zs0 rfl
            rfl
          rw [hword _ rfl] at h
          have hcount : (objectLbaMergeTo (rangeWords zs r)).1.length ≤ 32 := by
            refine (merge_length _).trans ?_
            rw [rangeWords, readWords_length]
            exact hmax
          obtain ⟨hbig, hne, rfl⟩ | ⟨hsmall, hbm, rfl, rfl, hok⟩ :=
            txPrepWrite_cases hpos hmax hcount h
          · exact Or.inl ⟨hne, Or.inr (Or.inr (Or.inr (Or.inr hbig))), rfl⟩
          · have hchk : ¬ Refused zs r := by
              rintro (h1 | h1 | h1 | h1 | h1)
              · exact hlen.1 h1
              · exact h1 hlen.2
              · exact hofst h1
              · exact hoid h1
              · exact hsmall h1
            right
            by_cases hz : (stupidAllocSpace (released zs r) r.blen).1 = 0
            · obtain ⟨hfits, t, hb, rfl⟩ := hok hz
              refine Or.inr ⟨hz, hchk, hpos, hmax, hpm, fun b hb => ?_, (alloc_zero_iff hpos).mp hz,
                rfl, rfl, rfl, rfl, rfl, rfl, ⟨g.e, rfl⟩, writeBios_length g.e zs r, hfits, t, rfl, hb⟩
              exact hbm b (by rwa [blocks_merge])
            · exact Or.inl ⟨hz, hchk, hpos, fun hr => hz ((alloc_zero_iff hpos).mpr hr), rfl⟩

/-- The object that a create or delete addresses. -/
def Request.object (r : Request) : Nat := r.oid.toNat % 2 ^ 48

def newPm (zs : ZstoreContext) : StupidAllocator := (stupidAllocSpace zs.pmAllocator 1).2.1

/-- The index block that a create takes. -/
def newIndex (zs : ZstoreContext) : Nat :=
  ((stupidAllocSpace zs.pmAllocator 1).2.2.headD ⟨0, 0⟩).lba

/-- The index block of a create with every word unmapped. -/
def initialised (zs : ZstoreContext) : Image :=
  store zs.pm (newIndex zs * zstorePageSize + zs.zsb.pmDySpaceOfst)
    (List.replicate zstorePageSize 0xff)

def onodeLog (zs : ZstoreContext) (oid : Nat) (ote : OtableEntry) : PmLogEntry :=
  ⟨BitVec.ofNat 64 (zs.onodeAddr oid), BitVec.ofNat 64 (zs.zsb.pmOtableOfst + 64 * oid),
    lineBytes ote⟩

def createLog (zs : ZstoreContext) (r : Request) : List PmLogEntry :=
  [onodeLog zs r.object (otableEntry r.object (newIndex zs)),
    bitmapLog zs.zsb.pmDyBitmapOfst (newPm zs).bs (newIndex zs / 512)]

def deleteLog (zs : ZstoreContext) (r : Request) : List PmLogEntry := [onodeLog zs r.object 0]

/-- What the transactions of creates and deletes have in common. -/
structure CreDel (zs : ZstoreContext) (r : Request) (log : List PmLogEntry)
    (tx' : ZstoreTransaction) : Prop where
  tid : tx'.tid = zs.tidMax
  txType : tx'.txType = .write
  sync : tx'.sync = true
  state : tx'.state = .pmTx
  request : tx'.request = r
  bios : tx'.bios = []
  outstanding : tx'.bioOutstanding = 0
  log : ∃ t, tx'.pmTx = some t ∧ Built t log

structure Created (zs : ZstoreContext) (r : Request) (zs' : ZstoreContext)
    (tx' : ZstoreTransaction) : Prop where
  oid : r.object < zs.zsb.onodesRsv
  invalid : (zs.onode r.object).valid = false
  room : HasRoom zs.pmAllocator 1
  takes : takes zs.pmAllocator 1 = [newIndex zs]
  in_pm : newIndex zs * zstorePageSize + zs.zsb.pmDySpaceOfst + zstorePageSize ≤ zs.pmem.size
  store : zs' = { zs with
    tidMax := zs.tidMax + 1, pmAllocator := newPm zs, pm := initialised zs }
  tx : CreDel zs r (createLog zs r) tx'

structure Deleted (zs : ZstoreContext) (r : Request) (zs' : ZstoreContext)
    (tx' : ZstoreTransaction) : Prop where
  oid : r.object < zs.zsb.onodesRsv
  valid : (zs.onode r.object).valid = true
  in_bitmap : (zs.onode r.object).dataIdxId / 512 < zs.pmAllocator.nrEntrys
  store : zs' = { zs with
    tidMax := zs.tidMax + 1
    pmAllocator := stupidFreeSpace zs.pmAllocator [⟨(zs.onode r.object).dataIdxId, 1⟩] }
  tx : CreDel zs r (deleteLog zs r) tx'

/-- A single block is one extent. -/
theorem alloc_one {a : StupidAllocator} (h : HasRoom a 1) :
    ∃ b, takes a 1 = [b] ∧ (stupidAllocSpace a 1).2.2 = [⟨b, 1⟩] := by
  obtain ⟨i, _, hi⟩ := alloc_of_room (Nat.le_refl 1) h
  have hlen : (reach a 1).length = 1 := by
    have ht := takes_length h
    rwa [takes, List.length_map] at ht
  have hhead := @walk_head a.nrTotal (a.nrTotal + a.hint) a.nrTotal a.bs a.hint 1
  obtain ⟨⟨p, b⟩, hb⟩ := List.length_eq_one_iff.mp hlen
  have hp : p = none := hhead (p, b) (by
    have hr : walk a.nrTotal (a.nrTotal + a.hint) a.nrTotal a.bs a.hint 1 none = [(p, b)] := hb
    rw [hr]
    rfl)
  subst hp
  refine ⟨b, by simp [takes, hb], ?_⟩
  rw [hi, hb]
  rfl

theorem creDelTx_built (oid : Nat) (ote : OtableEntry) (ze : List Extent) (hze : ze.length ≤ 1) :
    ∃ t, creDelTx g zs oid ote ze tx =
        { tx with txType := .write, state := .pmTx, sync := true, pmTx := some t } ∧
      Built t (onodeLog zs oid ote :: ze.map fun e =>
        bitmapLog zs.zsb.pmDyBitmapOfst zs.pmAllocator.bs (e.lba / 512)) := by
  have h1 := (built_alloc g.log).add (BitVec.ofNat 64 (zs.zsb.pmOtableOfst + 64 * oid))
    (BitVec.ofNat 64 (zs.onodeAddr oid)) (lineBytes ote) (by
      rw [lineBytes_length]
      simp [logSize, pmLogRegionSize])
  rw [List.nil_append] at h1
  cases ze with
  | nil => exact ⟨_, rfl, h1.2⟩
  | cons e es =>
    obtain rfl : es = [] := by
      rw [List.length_cons] at hze
      exact List.eq_nil_of_length_eq_zero (by omega)
    have h2 := h1.2.add (BitVec.ofNat 64 (zs.zsb.pmDyBitmapOfst + 64 * (e.lba / 512))) 0
      (lineBytes (zs.pmAllocator.bs (e.lba / 512))) (by
        simp only [logSize, List.map_cons, List.map_nil, List.sum_cons, List.sum_nil,
          PmLogEntry.size, lineBytes_length]
        unfold pmLogRegionSize
        omega)
    exact ⟨_, rfl, h2.2⟩

theorem txPrepCreate_cases (hop : r.op = .create)
    (h : txPrepCreDelCommon g zs r tx = .ok (rc, zs', tx')) :
    (rc ≠ 0 ∧ ∃ a, (a = zs.pmAllocator ∨ a = newPm zs ∧ ¬ HasRoom zs.pmAllocator 1 ∧
      (zs.onode r.object).valid = false ∧ r.object < zs.zsb.onodesRsv) ∧
      zs' = { zs with pmAllocator := a }) ∨
    (rc = 0 ∧ r.object < zs.zsb.onodesRsv ∧ (zs.onode r.object).valid = false ∧
      HasRoom zs.pmAllocator 1 ∧ takes zs.pmAllocator 1 = [newIndex zs] ∧
      newIndex zs * zstorePageSize + zs.zsb.pmDySpaceOfst + zstorePageSize ≤ zs.pmem.size ∧
      zs' = { zs with pmAllocator := newPm zs, pm := initialised zs } ∧
      ∃ t, tx' = { tx with txType := .write, state := .pmTx, sync := true, pmTx := some t } ∧
        Built t (createLog zs r)) := by
  have hobj : r.oid.toNat % 2 ^ 48 = r.object := rfl
  simp only [txPrepCreDelCommon, hop, hobj] at h
  split at h
  · simp only [Except.ok.injEq, Prod.mk.injEq] at h
    obtain ⟨rfl, rfl, rfl⟩ := h
    exact Or.inl ⟨by decide, zs.pmAllocator, Or.inl rfl, rfl⟩
  · rename_i hoid
    split at h
    · rename_i hinv
      have hroom := @alloc_zero_iff zs.pmAllocator 1 (Nat.le_refl 1)
      have hone := @alloc_one zs.pmAllocator
      have hidx : newIndex zs = ((stupidAllocSpace zs.pmAllocator 1).2.2.headD ⟨0, 0⟩).lba := rfl
      have hpm : newPm zs = (stupidAllocSpace zs.pmAllocator 1).2.1 := rfl
      generalize stupidAllocSpace zs.pmAllocator 1 = res at h hroom hone hidx hpm
      obtain ⟨rc0, a, ze⟩ := res
      simp only at h hroom hone hidx hpm
      split at h
      · rename_i hne
        simp only [ne_eq, Except.ok.injEq, Prod.mk.injEq] at hne h
        obtain ⟨rfl, rfl, rfl⟩ := h
        exact Or.inl ⟨by decide, a, Or.inr ⟨hpm.symm, fun hr => hne (hroom.mpr hr), by simpa using hinv,
          Nat.lt_of_not_le hoid⟩, rfl⟩
      · rename_i hz
        have hz0 : rc0 = 0 := not_not.mp hz
        obtain ⟨b, hb, rfl⟩ := hone (hroom.mp hz0)
        obtain rfl : newIndex zs = b := hidx
        split at h
        · cases h
        · rename_i hin
          simp only [Except.ok.injEq, Prod.mk.injEq] at h
          obtain ⟨rfl, rfl, rfl⟩ := h
          obtain ⟨t, ht, hbuilt⟩ := @creDelTx_built g
            { zs with pmAllocator := newPm zs, pm := initialised zs } tx r.object
            (otableEntry r.object (newIndex zs)) [⟨newIndex zs, 1⟩] (by simp)
          refine Or.inr ⟨rfl, Nat.lt_of_not_le hoid, by simpa using hinv, hroom.mp hz0, hb,
            Nat.le_of_not_lt hin, by rw [hpm]; rfl, t, ?_, hbuilt⟩
          rw [← ht, hpm]
          rfl
    · split at h
      · rename_i hdel
        simp at hdel
      · simp only [Except.ok.injEq, Prod.mk.injEq] at h
        obtain ⟨rfl, rfl, rfl⟩ := h
        exact Or.inl ⟨by decide, zs.pmAllocator, Or.inl rfl, rfl⟩

theorem txPrepDelete_cases (hop : r.op = .delete)
    (h : txPrepCreDelCommon g zs r tx = .ok (rc, zs', tx')) :
    (rc ≠ 0 ∧ zs' = zs) ∨
    (rc = 0 ∧ r.object < zs.zsb.onodesRsv ∧ (zs.onode r.object).valid = true ∧
      (zs.onode r.object).dataIdxId / 512 < zs.pmAllocator.nrEntrys ∧
      zs' = { zs with
        pmAllocator := stupidFreeSpace zs.pmAllocator [⟨(zs.onode r.object).dataIdxId, 1⟩] } ∧
      ∃ t, tx' = { tx with txType := .write, state := .pmTx, sync := true, pmTx := some t } ∧
        Built t (deleteLog zs r)) := by
  have hobj : r.oid.toNat % 2 ^ 48 = r.object := rfl
  simp only [txPrepCreDelCommon, hop, hobj] at h
  split at h
  · simp only [Except.ok.injEq, Prod.mk.injEq] at h
    obtain ⟨rfl, rfl, rfl⟩ := h
    exact Or.inl ⟨by decide, rfl⟩
  · rename_i hoid
    simp only [reduceCtorEq, decide_false, Bool.and_false, Bool.false_eq_true, if_false, ne_eq,
      not_false_eq_true, decide_true, Bool.and_true] at h
    split at h
    · rename_i hval
      split at h
      · simp at h
      · rename_i hbm
        simp only [Except.ok.injEq, Prod.mk.injEq] at h
        obtain ⟨rfl, rfl, rfl⟩ := h
        obtain ⟨t, ht, hbuilt⟩ := @creDelTx_built g
          { zs with
            pmAllocator := stupidFreeSpace zs.pmAllocator [⟨(zs.onode r.object).dataIdxId, 1⟩] }
          tx r.object 0 [] (by simp)
        exact Or.inr ⟨rfl, Nat.lt_of_not_le hoid, hval, Nat.lt_of_not_le hbm, rfl, t, ht, hbuilt⟩
    · simp only [Except.ok.injEq, Prod.mk.injEq] at h
      obtain ⟨rfl, rfl, rfl⟩ := h
      exact Or.inl ⟨by decide, rfl⟩

theorem prepare_create (hop : r.op = .create)
    (h : zstoreTxPrepare g zs r tx = .ok (rc, zs', tx')) :
    (rc ≠ 0 ∧ ∃ a, (a = zs.pmAllocator ∨ a = newPm zs ∧ ¬ HasRoom zs.pmAllocator 1 ∧
      (zs.onode r.object).valid = false ∧ r.object < zs.zsb.onodesRsv) ∧
      zs' = { zs with tidMax := zs.tidMax + 1, pmAllocator := a }) ∨
    (rc = 0 ∧ Created zs r zs' tx') := by
  simp only [zstoreTxPrepare, hop] at h
  obtain ⟨h, _⟩ := assertState_ok h
  obtain ⟨hne, a, ha, rfl⟩ | ⟨rfl, h1, h2, h3, h4, h5, rfl, t, rfl, hb⟩ :=
    txPrepCreate_cases hop h
  · exact Or.inl ⟨hne, a, ha, rfl⟩
  · exact Or.inr ⟨rfl, h1, h2, h3, h4, h5, rfl, rfl, rfl, rfl, rfl, rfl, rfl, rfl, t, rfl, hb⟩

theorem prepare_delete (hop : r.op = .delete)
    (h : zstoreTxPrepare g zs r tx = .ok (rc, zs', tx')) :
    (rc ≠ 0 ∧ zs' = { zs with tidMax := zs.tidMax + 1 }) ∨ (rc = 0 ∧ Deleted zs r zs' tx') := by
  simp only [zstoreTxPrepare, hop] at h
  obtain ⟨h, _⟩ := assertState_ok h
  obtain ⟨hne, rfl⟩ | ⟨rfl, h1, h2, h3, rfl, t, rfl, hb⟩ := txPrepDelete_cases hop h
  · exact Or.inl ⟨hne, rfl⟩
  · exact Or.inr ⟨rfl, h1, h2, h3, rfl, rfl, rfl, rfl, rfl, rfl, rfl, rfl, t, rfl, hb⟩

/-- The checks that reject a read. -/
def ReadRefused (zs : ZstoreContext) (r : Request) : Prop :=
  r.len = 0 ∨ r.len.toNat % zstorePageSize ≠ 0 ∨ r.ofst.toNat % zstorePageSize ≠ 0 ∨
  zs.zsb.onodesRsv ≤ r.oid.toNat

instance (zs : ZstoreContext) (r : Request) : Decidable (ReadRefused zs r) :=
  inferInstanceAs (Decidable (_ ∨ _))

/-- A write passes all the checks of a read. -/
theorem readChecked (h : ¬ Refused zs r) : ¬ ReadRefused zs r := by
  simp only [Refused, not_or] at h
  simp only [ReadRefused, not_or]
  exact ⟨h.1, h.2.1, h.2.2.1, h.2.2.2.1⟩

theorem checked_blen (h : ¬ ReadRefused zs r) : 1 ≤ r.blen := by
  simp only [ReadRefused, not_or, not_not] at h
  exact blen_pos h.1 h.2.1

/-- The index words of the addressed range as a read takes them. -/
def readRange (zs : ZstoreContext) (r : Request) : List (BitVec 32) :=
  (rangeWords zs r).map fun w => if w = unmapped then 0 else w

/-- A read takes every word of its range for a block. -/
theorem readRange_mapped (zs : ZstoreContext) (r : Request) : ∀ w ∈ readRange zs r, w ≠ unmapped := by
  intro w hw
  obtain ⟨v, _, rfl⟩ := List.mem_map.mp hw
  split
  · decide
  · assumption

def readBios (zs : ZstoreContext) (r : Request) : List Bio :=
  (objectLbaMergeTo (readRange zs r)).1.map (Bio.ofExtent .read)

/-- An accepted read changes nothing but the transaction. -/
structure ReadOk (zs : ZstoreContext) (r : Request) (zs' : ZstoreContext)
    (tx' : ZstoreTransaction) : Prop where
  checked : ¬ ReadRefused zs r
  blen_le : r.blen ≤ 32
  in_pm : objectDataIndexBlock zs (zs.onode r.oid.toNat) + 4 * r.bofst + 4 * r.blen ≤ zs.pmem.size
  store : zs' = { zs with tidMax := zs.tidMax + 1 }
  tid : tx'.tid = zs.tidMax
  txType : tx'.txType = .rdonly
  sync : tx'.sync = false
  state : tx'.state = .dataIo
  request : tx'.request = r
  bios_ne : tx'.bios ≠ []
  bios : tx'.bios = readBios zs r
  outstanding : tx'.bioOutstanding = tx'.bios.length

theorem prepare_read (hshift : zs.zsb.ssdMinAllocSizeShift = 12) (hop : r.op = .read)
    (h : zstoreTxPrepare g zs r tx = .ok (rc, zs', tx')) :
    (rc ≠ 0 ∧ zs' = { zs with tidMax := zs.tidMax + 1 }) ∨ (rc = 0 ∧ ReadOk zs r zs' tx') := by
  simp only [zstoreTxPrepare, hop] at h
  obtain ⟨h, _⟩ := assertState_ok h
  simp only [txPrepRwCommon, hop, ne_eq, not_true_eq_false, false_and, if_false] at h
  split at h
  · simp only [Except.ok.injEq, Prod.mk.injEq] at h
    obtain ⟨rfl, rfl, rfl⟩ := h
    exact Or.inl ⟨by decide, rfl⟩
  · rename_i hlen
    split at h
    · simp only [Except.ok.injEq, Prod.mk.injEq] at h
      obtain ⟨rfl, rfl, rfl⟩ := h
      exact Or.inl ⟨by decide, rfl⟩
    · rename_i hofst
      split at h
      · simp only [Except.ok.injEq, Prod.mk.injEq] at h
        obtain ⟨rfl, rfl, rfl⟩ := h
        exact Or.inl ⟨by decide, rfl⟩
      · rename_i hoid
        split at h
        · cases h
        · rename_i e mb dib hget
          obtain ⟨hmax, hpm, hres⟩ := @objectLbaRangeGet_ok { zs with tidMax := zs.tidMax + 1 } r _ _ _
            hshift hget
          simp only [reduceCtorEq, decide_false, Bool.false_eq_true, if_false, Prod.mk.injEq] at hres
          obtain ⟨rfl, _, _⟩ := hres
          simp only [if_true] at h
          split at h
          · simp only [Except.ok.injEq, Prod.mk.injEq] at h
            obtain ⟨rfl, rfl, rfl⟩ := h
            exact Or.inl ⟨by decide, rfl⟩
          · rename_i hne
            rw [not_or] at hne
            simp only [Except.ok.injEq, Prod.mk.injEq] at h
            obtain ⟨rfl, rfl, rfl⟩ := h
            have hchk : ¬ ReadRefused zs r := by
              rintro (h1 | h1 | h1 | h1)
              · exact hlen (Or.inl h1)
              · exact hlen (Or.inr h1)
              · exact hofst h1
              · exact hoid h1
            exact Or.inr ⟨rfl, hchk, hmax, hpm, rfl, rfl, rfl, rfl, rfl, rfl, by simpa using hne.1,
              rfl, by simp⟩

theorem prepare_other (hop : r.op = .other)
    (h : zstoreTxPrepare g zs r tx = .ok (rc, zs', tx')) :
    rc ≠ 0 ∧ zs' = { zs with tidMax := zs.tidMax + 1 } := by
  simp only [zstoreTxPrepare, hop, Except.ok.injEq, Prod.mk.injEq] at h
  obtain ⟨rfl, rfl, rfl⟩ := h
  exact ⟨by decide, rfl⟩

end ZCell.Store
