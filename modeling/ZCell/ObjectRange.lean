import ZCell.Rejected

/-! The range of an accepted request. A write is checked against the size of an object, a read is
not: the words that it takes for its own may be those of the next index block. -/
namespace ZCell.Store
open Bytes Persist Pm Allocator Runs

/-- The `n` bytes at `a` lie in the index block of the object that the request names. -/
def InIndexBlock (zs : ZstoreContext) (r : Request) (a n : Nat) : Prop :=
  objectDataIndexBlock zs (zs.onode r.oid.toNat) ≤ a ∧
  a + n ≤ objectDataIndexBlock zs (zs.onode r.oid.toNat) + zstorePageSize

instance (zs : ZstoreContext) (r : Request) (a n : Nat) : Decidable (InIndexBlock zs r a n) :=
  inferInstanceAs (Decidable (_ ∧ _))

/-- Where word `i` of `rangeWords` is read. -/
def wordAddr (zs : ZstoreContext) (r : Request) (i : Nat) : Nat :=
  objectDataIndexBlock zs (zs.onode r.oid.toNat) + 4 * r.bofst + 4 * i

/-- The range ends within the object; every word read for it, and every word that its transaction
`tx` logs in the dynamic space, belongs to the object. -/
structure WithinObject (zs : ZstoreContext) (r : Request) (tx : ZstoreTransaction) : Prop where
  range : r.ofst.toNat + r.len.toNat ≤ zstoreObjMaxSizeBytes
  read : ∀ i < r.blen, InIndexBlock zs r (wordAddr zs r i) 4
  logged : ∀ t ∈ tx.pmTx, ∀ e ∈ t.entries, zs.zsb.pmDySpaceOfst ≤ e.ofst.toNat →
    InIndexBlock zs r e.ofst.toNat e.value.length

section Ranges
variable {g : Uninit} {zs zs' : ZstoreContext} {r : Request} {tx tx' : ZstoreTransaction}

/-- A read logs nothing. -/
theorem prepare_read_pmTx (hop : r.op = .read) (h : zstoreTxPrepare g zs r tx = .ok (0, zs', tx')) :
    tx'.pmTx = none := by
  simp only [zstoreTxPrepare, hop] at h
  obtain ⟨h, _⟩ := assertState_ok h
  simp only [txPrepRwCommon, hop, ne_eq, not_true_eq_false, false_and, if_false, if_true] at h
  split at h
  · exact (Prod.mk.inj (Prod.mk.inj (Except.ok.inj h)).2).2 ▸ rfl
  · split at h
    · exact (Prod.mk.inj (Prod.mk.inj (Except.ok.inj h)).2).2 ▸ rfl
    · split at h
      · exact (Prod.mk.inj (Prod.mk.inj (Except.ok.inj h)).2).2 ▸ rfl
      · split at h
        · cases h
        · split at h
          · exact (Prod.mk.inj (Prod.mk.inj (Except.ok.inj h)).2).2 ▸ rfl
          · exact (Prod.mk.inj (Prod.mk.inj (Except.ok.inj h)).2).2 ▸ rfl

/-- A range that ends within the object is one of its words. -/
theorem wordAddr_in (h : r.bofst + r.blen ≤ 1024) {i : Nat} (hi : i < r.blen) :
    InIndexBlock zs r (wordAddr zs r i) 4 := by
  unfold InIndexBlock wordAddr zstorePageSize
  omega

theorem range_le_iff (h1 : r.len.toNat % zstorePageSize = 0) (h2 : r.ofst.toNat % zstorePageSize = 0) :
    r.ofst.toNat + r.len.toNat ≤ zstoreObjMaxSizeBytes ↔ r.bofst + r.blen ≤ 1024 := by
  unfold Request.bofst Request.blen zstoreObjMaxSizeBytes zstorePageSize at *
  omega

theorem ReadOk.aligned (h : ReadOk zs r zs' tx) :
    r.len.toNat % zstorePageSize = 0 ∧ r.ofst.toNat % zstorePageSize = 0 := by
  have hchk := h.checked
  simp only [ReadRefused, not_or, not_not] at hchk
  exact ⟨hchk.2.1, hchk.2.2.1⟩

theorem Written.aligned (h : Written zs r zs' tx) :
    r.len.toNat % zstorePageSize = 0 ∧ r.ofst.toNat % zstorePageSize = 0 := by
  have hchk := h.checked
  simp only [Refused, not_or, not_not] at hchk
  exact ⟨hchk.2.1, hchk.2.2.1⟩

/-- Of the entries that a write logs, only the index words lie in the dynamic space. -/
theorem Written.logged_in (hf : Formatted zs) (h : Written zs r zs' tx) {e : PmLogEntry}
    (he : e ∈ writeLog zs r) (hofst : zs.zsb.pmDySpaceOfst ≤ e.ofst.toNat) :
    InIndexBlock zs r e.ofst.toNat e.value.length := by
  have hoid := h.oid_lt hf
  rw [hf.dySpace] at hofst
  rw [writeLog, List.mem_append, List.mem_cons, List.mem_singleton] at he
  obtain he | rfl | rfl := he
  · obtain ⟨k, hk, rfl⟩ := List.mem_map.mp he
    have hlt := h.named_lt hf k hk
    simp only [bitmapLog, hf.ssdBitmap, BitVec.toNat_ofNat] at hofst
    omega
  · have hle := h.range_le hf
    have hwords := h.newWords_length
    rw [newWords] at hwords
    change InIndexBlock zs r (BitVec.ofNat 64 (objectDataIndexBlock zs (zs.onode r.oid.toNat) +
      4 * (r.bofst % 2 ^ 32))).toNat _
    rw [h.index_addr hf, wordsBytes_length, hwords]
    simp only [InIndexBlock, objectDataIndexBlock, hf.dySpace, firstWord, zstorePageSize]
    omega
  · simp only [hf.otableOfst, BitVec.toNat_ofNat] at hofst
    omega

theorem Written.within (hf : Formatted zs) (h : Written zs r zs' tx) : WithinObject zs r tx where
  range := (range_le_iff h.aligned.1 h.aligned.2).mpr (h.range_le hf)
  read := fun _ hi => wordAddr_in (h.range_le hf) hi
  logged := by
    obtain ⟨t, ht, hb⟩ := h.log
    rintro t' ht' e he hofst
    obtain rfl : t = t' := Option.some.inj (ht.symm.trans ht')
    rw [hb.entries] at he
    exact h.logged_in hf he hofst

theorem ReadOk.within_iff (h : ReadOk zs r zs' tx) (hlog : tx.pmTx = none) :
    WithinObject zs r tx ↔ r.ofst.toNat + r.len.toNat ≤ zstoreObjMaxSizeBytes := by
  constructor
  · exact fun hw => hw.range
  · intro hle
    have hin := (range_le_iff h.aligned.1 h.aligned.2).mp hle
    exact ⟨hle, fun i hi => wordAddr_in hin hi, fun t ht => absurd ht (by simp [hlog])⟩

end Ranges

/-- In every reachable state, with any calls still on the stack: an accepted write stays within its
object, and an accepted read exactly when its range ends there. -/
theorem acceptedRange_iff (env : Env) (w0 w w' : World) (s : List Frame) (r : Request)
    (hm : Mounted w0) (hrun : Run (step env) (fun _ _ => True) w0 w) (hop : r.op = .read ∨ r.op = .write)
    (h : zstoreObjAsyncOpCall env r { w with stack := s } = .ok (0, w')) :
    WithinObject w.zs r (w'.tx w.zs.tidMax) ↔
      r.op = .write ∨ r.ofst.toNat + r.len.toNat ≤ zstoreObjMaxSizeBytes := by
  have hw := hrun.invariant hm.wf fun _ _ _ hi _ hs => step_wf hi hs
  obtain ⟨zs, tx, hp, ha⟩ := accepted_call (w := { w with stack := s }) hw.formatted h
  have hself : w'.tx w.zs.tidMax = tx := ha.tx_self
  rw [hself]
  obtain hop | hop := hop
  · obtain ⟨hne, _⟩ | ⟨_, hok⟩ := prepare_read hw.formatted.shift hop hp
    · exact absurd rfl hne
    · rw [hok.within_iff (prepare_read_pmTx hop hp)]
      simp [hop]
  · obtain ⟨hne, _⟩ | ⟨hne, _⟩ | ⟨_, hok⟩ := prepare_write hw.formatted.shift hop hp
    · exact absurd rfl hne
    · exact absurd rfl hne
    · exact ⟨fun _ => Or.inl hop, fun _ => hok.within hw.formatted⟩

/-- A read of the block behind the end of object 0, which is the first block of the object with
index block 1. -/
def pastEnd : Request := ⟨.read, 0, 0x400000, 4096, 0⟩

theorem small_accepts {r : Request}
    (h : ((zstoreObjAsyncOpCall smallEnv r smallWorld).toOption.map fun p => decide (p.1 = 0)) =
      some true) : ∃ w', zstoreObjAsyncOpCall smallEnv r smallWorld = .ok (0, w') := by
  obtain ⟨⟨rc, w'⟩, hok, hrc⟩ := Option.map_eq_some_iff.mp h
  obtain rfl : rc = 0 := of_decide_eq_true hrc
  exact ⟨w', toOption_eq_some hok⟩

theorem unitWrite_within :
    ∃ w', zstoreObjAsyncOpCall smallEnv (unitWrite 0) smallWorld = .ok (0, w') ∧
      WithinObject smallWorld.zs (unitWrite 0) (w'.tx smallWorld.zs.tidMax) := by
  obtain ⟨w', h⟩ := @small_accepts (unitWrite 0) (by decide +kernel)
  exact ⟨w', h, (acceptedRange_iff smallEnv smallWorld smallWorld w' [] (unitWrite 0)
    smallWorld_mounted .start (Or.inr rfl) h).mpr (Or.inl rfl)⟩

theorem pastEnd_not_within : Mounted smallWorld ∧
    ∃ w', zstoreObjAsyncOpCall smallEnv pastEnd smallWorld = .ok (0, w') ∧
      ¬ WithinObject smallWorld.zs pastEnd (w'.tx smallWorld.zs.tidMax) ∧
      ¬ InIndexBlock smallWorld.zs pastEnd (wordAddr smallWorld.zs pastEnd 0) 4 := by
  obtain ⟨w', h⟩ := @small_accepts pastEnd (by decide +kernel)
  exact ⟨smallWorld_mounted, w', h, fun hw => absurd hw.range (by decide), by decide +kernel⟩

end ZCell.Store
