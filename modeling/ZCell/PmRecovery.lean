import ZCell.CrashAtomicity

/-! `pmem_recovery` on a log whose header is valid: what it decodes, which logs it can decode,
and that it can be started over after any crash. -/
namespace ZCell.Pm
open Bytes Persist

/-- What `pmem_recovery` asserts of an entry. -/
def Aligned (e : PmLogEntry) : Prop := e.value.length % 64 = 0 ∧ e.ofst.toNat % 64 = 0

instance (e : PmLogEntry) : Decidable (Aligned e) := inferInstanceAs (Decidable (_ ∧ _))

/-- The writes of a replay that comes to its end. -/
def recoveryOps (pmem : Pmem) (es : List PmLogEntry) : List PmOp :=
  persists (targets es) ++ persist pmem.logRegionOfst PmLogHeader.zero.bytes

theorem targets_cons (e : PmLogEntry) (es : List PmLogEntry) :
    persists (targets (e :: es)) = pmemWrite true e.value e.ofst.toNat ++ persists (targets es) := rfl

section Walk
variable {m : Image} {es : List PmLogEntry} {e : PmLogEntry} {p n : Nat}

theorem load_append (m : Image) (p i j : Nat) : load m p (i + j) = load m p i ++ load m (p + i) j := by
  have hshift : ∀ k, m (p + (i + k)) = m (p + i + k) := fun k => congrArg m (Nat.add_assoc p i k).symm
  simp only [load, List.range_add, List.map_append, List.map_map, Function.comp_def, hshift]

/-- One round of the replay. -/
theorem replay_round (m : Image) (n p : Nat) : replay m (n + 1) p =
    let e := PmLogEntry.read m p
    if 4096 < p + 24 then .error .workArray
    else if ¬ Aligned e then .error .assertion
    else if 4096 < p + e.size then .error .workArray
    else (replay m n (p + e.size)).map (pmemWrite true e.value e.ofst.toNat ++ ·) := by
  rw [replay]
  generalize PmLogEntry.read m p = e
  dsimp only
  by_cases h1 : 4096 < p + 24
  · rw [if_pos h1, if_pos h1]
    rfl
  · rw [if_neg h1, if_neg h1]
    by_cases h2 : e.value.length % 64 = 0
    · rw [if_neg (not_not.mpr h2)]
      by_cases h3 : e.ofst.toNat % 64 = 0
      · have hal : ¬ ¬ Aligned e := not_not.mpr ⟨h2, h3⟩
        rw [if_neg (not_not.mpr h3), if_neg hal]
        by_cases h4 : 4096 < p + e.size
        · rw [if_pos h4, if_pos h4]
          rfl
        · rw [if_neg h4, if_neg h4]
          cases replay m n (p + e.size) <;> rfl
      · have hal : ¬ Aligned e := fun h => h3 h.2
        rw [if_pos h3, if_pos hal]
        rfl
    · have hal : ¬ Aligned e := fun h => h2 h.1
      rw [if_pos hal, if_pos h2]
      rfl

/-- The replay goes through exactly when every entry is aligned and they all lie in the buffer,
and then it writes them in order. -/
theorem replay_iff (hp : p ≤ 4096) (hsmall : logSize es < 2 ^ 64)
    (h : load m p (logSize es) = logBytes es) (ops : List PmOp) :
    replay m es.length p = .ok ops ↔
      (∀ e ∈ es, Aligned e) ∧ p + logSize es ≤ 4096 ∧ ops = persists (targets es) := by
  induction es generalizing p ops with
  | nil =>
    have hnil : replay m 0 p = .ok [] := rfl
    rw [List.length_nil, hnil, Except.ok.injEq]
    constructor
    · rintro rfl
      exact ⟨fun e he => absurd he List.not_mem_nil, hp, rfl⟩
    · rintro ⟨_, _, rfl⟩
      rfl
  | cons e es ih =>
    have hsize : logSize (e :: es) = e.size + logSize es := by simp [logSize]
    have hbytes : logBytes (e :: es) = e.bytes ++ logBytes es := by simp [logBytes]
    have hcut : e.size = 24 + e.value.length := rfl
    rw [hsize, load_append, hbytes] at h
    obtain ⟨hhead, htail⟩ := List.append_inj h (by rw [load_length, entry_bytes_length])
    have hread := read_of_load m p e (by omega) hhead
    rw [List.length_cons, replay_round, hread, List.forall_mem_cons, targets_cons, hsize]
    dsimp only
    constructor
    · intro hrun
      split_ifs at hrun with h1 hal h2
      cases hrest : replay m es.length (p + e.size) with
      | error f =>
        rw [hrest] at hrun
        cases hrun
      | ok rest =>
        rw [hrest] at hrun
        obtain ⟨hall, hfit, hops⟩ := (ih (by omega) (by omega) htail rest).mp hrest
        refine ⟨⟨hal, hall⟩, by omega, ?_⟩
        rw [← Except.ok.inj hrun, hops]
    · rintro ⟨⟨hal, hall⟩, hfit, rfl⟩
      have hrest := (ih (by omega) (by omega) htail _).mpr ⟨hall, by omega, rfl⟩
      rw [if_neg (by omega), if_neg (not_not.mpr hal), if_neg (by omega), hrest]
      rfl

end Walk

/-- A committed log waits in the region of the core; its entries are `es`, inside the payload. -/
structure LogHolds (pmem : Pmem) (m : Image) (es : List PmLogEntry) : Prop where
  valid : (PmLogHeader.read m pmem.logRegionOfst).valid = true
  nrLogs : (PmLogHeader.read m pmem.logRegionOfst).nrLogs.toNat = es.length
  body : load m (pmem.logRegionOfst + 64) (logSize es) = logBytes es
  fits : logSize es ≤ (PmLogHeader.read m pmem.logRegionOfst).alignLength.toNat

section Recovery
variable {pmem : Pmem} {m : Image} {es : List PmLogEntry} {stk : Image}

theorem pmemRecovery_valid (hvalid : (PmLogHeader.read m pmem.logRegionOfst).valid = true) :
    pmemRecovery pmem stk m =
      let lh := PmLogHeader.read m pmem.logRegionOfst
      let len := lh.alignLength.toNat
      if len % 256 ≠ 0 then .error .assertion
      else if 4096 < len then .error .workArray
      else (replay (store stk 0 (load m (pmem.logRegionOfst + 64) len)) lh.nrLogs.toNat 0).map
        (· ++ pmemWrite true PmLogHeader.zero.bytes pmem.logRegionOfst) := by
  rw [pmemRecovery]
  dsimp only
  rw [if_pos hvalid]
  generalize PmLogHeader.read m pmem.logRegionOfst = lh
  by_cases h1 : lh.alignLength.toNat % 256 = 0
  · rw [if_neg (not_not.mpr h1), if_neg (not_not.mpr h1)]
    by_cases h2 : 4096 < lh.alignLength.toNat
    · rw [if_pos h2, if_pos h2]
      rfl
    · rw [if_neg h2, if_neg h2, pmemRead]
      cases replay _ _ _ <;> rfl
  · rw [if_pos h1, if_pos h1]
    rfl

/-- Recovery comes to its end exactly when its assertions hold and the payload fits into its
buffer. -/
theorem pmemRecovery_iff (h : LogHolds pmem m es) (ops : List PmOp) :
    pmemRecovery pmem stk m = .ok ops ↔
      (PmLogHeader.read m pmem.logRegionOfst).alignLength.toNat % 256 = 0 ∧
      (PmLogHeader.read m pmem.logRegionOfst).alignLength.toNat ≤ 4096 ∧
      (∀ e ∈ es, Aligned e) ∧ ops = recoveryOps pmem es := by
  have hfits := h.fits
  have hbody := h.body
  rw [pmemRecovery_valid h.valid]
  dsimp only
  rw [h.nrLogs]
  generalize (PmLogHeader.read m pmem.logRegionOfst).alignLength.toNat = len at hfits ⊢
  have hload : load (store stk 0 (load m (pmem.logRegionOfst + 64) len)) 0 (logSize es) =
      logBytes es := by
    have hpart := load_store_part stk 0 (load m (pmem.logRegionOfst + 64) len) 0 (logSize es)
      (by rw [load_length]; omega)
    have hcut := load_part m (pmem.logRegionOfst + 64) len 0 (logSize es) (by omega)
    rw [Nat.add_zero] at hpart hcut
    rw [hpart, hcut, hbody]
  constructor
  · intro hrun
    split_ifs at hrun with h1 h2
    have hlen : logSize es ≤ 4096 := by omega
    cases hrest : replay (store stk 0 (load m (pmem.logRegionOfst + 64) len)) es.length 0 with
    | error f =>
      rw [hrest] at hrun
      cases hrun
    | ok rest =>
      rw [hrest] at hrun
      obtain ⟨hall, _, hops⟩ := (replay_iff (Nat.zero_le _) (by omega) hload rest).mp hrest
      refine ⟨not_not.mp h1, by omega, hall, ?_⟩
      rw [← Except.ok.inj hrun, hops]
      rfl
  · rintro ⟨h1, h2, hall, rfl⟩
    have hrest := (replay_iff (Nat.zero_le _) (by omega) hload _).mpr ⟨hall, by omega, rfl⟩
    rw [if_neg (not_not.mpr h1), if_neg (by omega), hrest]
    rfl

end Recovery

/-- The log of `tx` as steps 1 and 2 of `pmem_transaction_apply` write it, with `valid` set. -/
structure Committed (pmem : Pmem) (tx : PmemTransaction) (m : Image) : Prop where
  body : load m (pmem.logRegionOfst + 64) tx.sealed.alignLength.toNat =
    load tx.le 0 tx.sealed.alignLength.toNat
  header : load m pmem.logRegionOfst 64 = { tx.sealed with valid := true }.bytes

/-- The entries that the store logs: bitmap entries and onodes of 64 bytes, and `n` words from
word `k` on of an index block. -/
def StoreEntry (e : PmLogEntry) : Prop :=
  (e.value.length = 64 ∧ e.ofst.toNat % 64 = 0) ∨
  ∃ block k n, k + n ≤ 1024 ∧ e.value.length = 4 * n ∧ e.ofst.toNat = 4096 * block + 4 * k

/-- Recovery passes its assertions and stays in its buffer, writes the entries in the order in
which they were added, and then clears the header. -/
def Decodes (pmem : Pmem) (stk m : Image) (es : List PmLogEntry) : Prop :=
  pmemRecovery pmem stk m = .ok (recoveryOps pmem es) ∧
  load (finish m (recoveryOps pmem es)) pmem.logRegionOfst 64 = PmLogHeader.zero.bytes

theorem StoreEntry.length_le {e : PmLogEntry} (h : StoreEntry e) : e.value.length ≤ 4096 := by
  obtain ⟨h, _⟩ | ⟨_, k, n, hn, h, _⟩ := h
  · omega
  · omega

/-- Adds that all return true, as long as no single value overflows the counters. -/
theorem built_of_addAll {tx tx' : PmemTransaction} {es fs : List PmLogEntry} (h : Built tx es)
    (hlen : ∀ e ∈ fs, 24 + e.value.length < 2 ^ 32 - pmLogRegionSize)
    (hadd : addAll tx fs = some tx') : Built tx' (es ++ fs) := by
  induction fs generalizing tx es with
  | nil =>
    obtain rfl := Option.some.inj hadd
    rwa [List.append_nil]
  | cons f fs ih =>
    have hf := hlen f (List.mem_cons_self ..)
    have hfits := h.fits
    have hregion : pmLogRegionSize = 8192 := rfl
    have hsum : (tx.lh.alignLength + BitVec.ofNat 32 (24 + f.value.length)).toNat =
        logSize es + (24 + f.value.length) := by
      rw [BitVec.toNat_add, BitVec.toNat_ofNat, h.alignLength]
      omega
    simp only [addAll] at hadd
    split at hadd
    · rename_i hok
      have hfit : logSize es + (24 + f.value.length) ≤ pmLogRegionSize := by
        by_contra hbig
        have hgt : pmLogRegionSize <
            (tx.lh.alignLength + BitVec.ofNat 32 (24 + f.value.length)).toNat := by omega
        simp only [pmemTransactionAdd, if_pos hgt] at hok
        cases hok
      have hb := (h.add f.ofst f.paddr f.value hfit).2
      have hrest := ih hb (fun e he => hlen e (List.mem_cons_of_mem f he)) hadd
      rwa [List.append_assoc] at hrest
    · cases hadd

/-- A header is read back from its own bytes. -/
theorem header_read {m : Image} {o : Nat} {lh : PmLogHeader} (h : load m o 64 = lh.bytes) :
    PmLogHeader.read m o = lh := by
  have hword : loadLe m o 8 = lh.word := by
    have hrsv := lh.rsv.isLt
    have hlogs := lh.nrLogs.isLt
    have hlen := lh.alignLength.isLt
    have hvalid : lh.valid.toNat ≤ 1 := Bool.toNat_le lh.valid
    have hpart := load_part m o 64 0 8 (by decide)
    have hhead : (lh.bytes.drop 0).take 8 = leBytes 8 lh.word := by
      rw [List.drop_zero, PmLogHeader.bytes, List.take_append_of_le_length (by simp),
        List.take_of_length_le (by simp)]
    rw [h, hhead, Nat.add_zero] at hpart
    rw [loadLe, ← hpart, leValue_leBytes, Nat.mod_eq_of_lt]
    rw [PmLogHeader.word]
    omega
  obtain ⟨valid, rsv, nrLogs, alignLength⟩ := lh
  have hrsv := rsv.isLt
  have hlogs := nrLogs.isLt
  have hlen := alignLength.isLt
  have hvalid : valid.toNat ≤ 1 := Bool.toNat_le valid
  rw [PmLogHeader.read, hword]
  simp only [PmLogHeader.word, PmLogHeader.mk.injEq]
  refine ⟨?_, ?_, ?_, ?_⟩
  · cases valid
    · simp only [Bool.toNat_false, beq_eq_false_iff_ne]
      omega
    · simp only [Bool.toNat_true, beq_iff_eq]
      omega
  · apply BitVec.eq_of_toNat_eq
    rw [BitVec.toNat_ofNat]
    omega
  · apply BitVec.eq_of_toNat_eq
    rw [BitVec.toNat_ofNat]
    omega
  · apply BitVec.eq_of_toNat_eq
    rw [BitVec.toNat_ofNat]
    omega

theorem Built.sealed_toNat {tx : PmemTransaction} {es : List PmLogEntry} (h : Built tx es) :
    tx.sealed.alignLength.toNat = ceilAlign (logSize es) 256 := by
  have hfits := h.fits
  have hregion : pmLogRegionSize = 8192 := rfl
  simp only [PmemTransaction.sealed, h.alignLength, BitVec.toNat_ofNat, ceilAlign]
  omega

theorem Committed.logHolds {pmem : Pmem} {tx : PmemTransaction} {m : Image} {es : List PmLogEntry}
    (h : Committed pmem tx m) (hb : Built tx es) : LogHolds pmem m es ∧
    (PmLogHeader.read m pmem.logRegionOfst).alignLength.toNat = ceilAlign (logSize es) 256 := by
  have hread := header_read h.header
  have hlen := hb.sealed_toNat
  have hle := ceilAlign_le (logSize es)
  have hbody := h.body
  have hpart := load_part m (pmem.logRegionOfst + 64) tx.sealed.alignLength.toNat 0 (logSize es)
    (by omega)
  have hpart' := load_part tx.le 0 tx.sealed.alignLength.toNat 0 (logSize es) (by omega)
  rw [hbody, hpart', Nat.add_zero, Nat.add_zero, hb.body] at hpart
  refine ⟨⟨by rw [hread], ?_, hpart.symm, ?_⟩, by rw [hread]; exact hlen⟩
  · rw [hread]
    exact hb.nrLogs
  · rw [hread]
    exact hlen ▸ hle

/-- The replay of a committed log does what the log says exactly when all its entries are whole
and aligned lines and its payload fits into the buffer of `pmem_recovery`. -/
theorem decodes_iff (pmem : Pmem) (g stk m : Image) (es : List PmLogEntry) (tx : PmemTransaction)
    (hes : ∀ e ∈ es, StoreEntry e) (hadd : addAll (pmemTransactionAlloc g) es = some tx)
    (hm : Committed pmem tx m) :
    Decodes pmem stk m es ↔
      (∀ e ∈ es, e.value.length % 64 = 0 ∧ e.ofst.toNat % 64 = 0) ∧
      ceilAlign (logSize es) 256 ≤ 4096 := by
  have hb : Built tx es := by
    refine built_of_addAll (built_alloc g) (fun e he => ?_) hadd
    have hle := (hes e he).length_le
    have hregion : pmLogRegionSize = 8192 := rfl
    omega
  obtain ⟨hlog, hlen⟩ := hm.logHolds hb
  have hclear : load (finish m (recoveryOps pmem es)) pmem.logRegionOfst 64 =
      PmLogHeader.zero.bytes := by
    have hsame := load_store_same (storeAll m (targets es)) pmem.logRegionOfst
      PmLogHeader.zero.bytes
    rw [header_length] at hsame
    rw [finish, recoveryOps, copies_append, copies_persists, copies_persist, storeAll_append]
    exact hsame
  rw [Decodes, pmemRecovery_iff hlog, hlen]
  constructor
  · rintro ⟨⟨_, hfit, hall, _⟩, _⟩
    exact ⟨hall, hfit⟩
  · rintro ⟨hall, hfit⟩
    refine ⟨⟨?_, hfit, hall, rfl⟩, hclear⟩
    rw [ceilAlign, Nat.mul_mod_left]

/-- The image `img` with the log of `tx` written and its header valid. -/
def commitLog (pmem : Pmem) (tx : PmemTransaction) (img : Image) : Image :=
  store (store img (pmem.logRegionOfst + 64) (load tx.le 0 tx.sealed.alignLength.toNat))
    pmem.logRegionOfst { tx.sealed with valid := true }.bytes

theorem commitLog_committed (pmem : Pmem) (tx : PmemTransaction) (img : Image) :
    Committed pmem tx (commitLog pmem tx img) := by
  have hhead := header_length { tx.sealed with valid := true }
  constructor
  · have hsame := load_store_same img (pmem.logRegionOfst + 64)
      (load tx.le 0 tx.sealed.alignLength.toNat)
    rw [load_length] at hsame
    rw [commitLog, load_store_disjoint _ _ _ _ _ (by omega), hsame]
  · have hsame := load_store_same (store img (pmem.logRegionOfst + 64)
      (load tx.le 0 tx.sealed.alignLength.toNat)) pmem.logRegionOfst
      { tx.sealed with valid := true }.bytes
    rwa [hhead] at hsame

/-- A transaction of one bitmap entry. -/
def bitmapEntry : PmLogEntry := ⟨0, 0x100000, 1 :: List.replicate 63 0⟩

theorem bitmapEntry_decodes : ∃ tx, addAll (pmemTransactionAlloc fun _ => 0) [bitmapEntry] = some tx ∧
    Decodes (pmemOpen 0) (fun _ => 0) (commitLog (pmemOpen 0) tx fun _ => 0) [bitmapEntry] := by
  refine ⟨_, rfl, (decodes_iff (pmemOpen 0) (fun _ => 0) _ _ _ _ (fun e he => ?_) rfl
    (commitLog_committed ..)).mpr (by decide)⟩
  obtain rfl := List.mem_singleton.mp he
  exact Or.inl (by decide)

/-- The index word of a first write has 4 bytes. -/
theorem firstWrite_not_decodes :
    addAll (pmemTransactionAlloc fun _ => 0) firstWriteEntries = some firstWriteTransaction ∧
    (∀ e ∈ firstWriteEntries, StoreEntry e) ∧
    ¬ Decodes (pmemOpen 0) (fun _ => 0) (commitLog (pmemOpen 0) firstWriteTransaction firstWriteImage)
      firstWriteEntries := by
  have hadd : addAll (pmemTransactionAlloc fun _ => 0) firstWriteEntries =
      some firstWriteTransaction := rfl
  have hentries : ∀ e ∈ firstWriteEntries, StoreEntry e := by
    intro e he
    simp only [firstWriteEntries, List.mem_cons, List.not_mem_nil, or_false] at he
    obtain rfl | rfl := he
    · exact Or.inl (by decide)
    · exact Or.inr ⟨0x6200, 0, 1, by decide, rfl, rfl⟩
  have hb : Built firstWriteTransaction ([] ++ firstWriteEntries) :=
    built_of_addAll (built_alloc _) (by decide) hadd
  obtain ⟨hlog, _⟩ := (commitLog_committed (pmemOpen 0) firstWriteTransaction
    firstWriteImage).logHolds hb
  refine ⟨hadd, hentries, fun h => ?_⟩
  obtain ⟨_, _, hall, _⟩ := (pmemRecovery_iff hlog _).mp h.1
  exact absurd (hall _ (List.mem_cons_of_mem _ (List.mem_cons_self ..))).1 (by decide)

section Restart
variable {pmem : Pmem} {m m' : Image} {es : List PmLogEntry} {stk stk' : Image}

/-- The bytes of the header behind its first word, which no code reads. -/
def Padding (pmem : Pmem) (a : Nat) : Prop :=
  pmem.logRegionOfst + 8 ≤ a ∧ a < pmem.logRegionOfst + 64

/-- A log that recovery can replay, and whose entries lie outside the log region. -/
structure Replayable (pmem : Pmem) (m : Image) (es : List PmLogEntry) : Prop where
  holds : LogHolds pmem m es
  rounded : (PmLogHeader.read m pmem.logRegionOfst).alignLength.toNat % 256 = 0
  buffer : (PmLogHeader.read m pmem.logRegionOfst).alignLength.toNat ≤ 4096
  aligned : ∀ e ∈ es, Aligned e
  outside : ∀ a, Covers (targets es) a → ¬ InLog pmem a

/-- The log depends on the first word of the header and on the payload. -/
theorem Replayable.congr (h : Replayable pmem m es)
    (heq : ∀ a, InLog pmem a → ¬ Padding pmem a → m' a = m a) : Replayable pmem m' es := by
  have hsize : logSize es ≤ 4096 := h.holds.fits.trans h.buffer
  have hregion : pmLogRegionSize = 8192 := rfl
  have hread : PmLogHeader.read m' pmem.logRegionOfst = PmLogHeader.read m pmem.logRegionOfst := by
    have hword : loadLe m' pmem.logRegionOfst 8 = loadLe m pmem.logRegionOfst 8 := by
      apply loadLe_congr
      intro i hi
      exact heq _ ⟨by omega, by omega⟩ (fun hp => by have h1 := hp.1; omega)
    rw [PmLogHeader.read, hword, PmLogHeader.read]
  have hbody : load m' (pmem.logRegionOfst + 64) (logSize es) =
      load m (pmem.logRegionOfst + 64) (logSize es) := by
    apply load_congr
    intro i hi
    exact heq _ ⟨by omega, by omega⟩ (fun hp => by have h2 := hp.2; omega)
  obtain ⟨⟨h1, h2, h3, h4⟩, h5, h6, h7, h8⟩ := h
  rw [← hread] at h1 h2 h4 h5 h6
  exact ⟨⟨h1, h2, hbody.trans h3, h4⟩, h5, h6, h7, h8⟩

theorem Replayable.recovered (h : Replayable pmem m es) (stk : Image) :
    recovered pmem stk m = .ok (finish m (recoveryOps pmem es)) := by
  have hrun := (@pmemRecovery_iff _ _ _ stk h.holds _).mpr ⟨h.rounded, h.buffer, h.aligned, rfl⟩
  rw [Pm.recovered, hrun]
  rfl

theorem finish_recoveryOps (m : Image) (es : List PmLogEntry) :
    finish m (recoveryOps pmem es) =
      store (storeAll m (targets es)) pmem.logRegionOfst PmLogHeader.zero.bytes := by
  rw [finish, recoveryOps, copies_append, copies_persists, copies_persist, storeAll_append]
  rfl

theorem zero_bytes : PmLogHeader.zero.bytes = List.replicate 64 0 := rfl

/-- An image in which the first word of the header is cleared. -/
theorem cleared_clean {m : Image} (h : m pmem.logRegionOfst = 0) : LogClean pmem m := by
  rw [logClean_iff, h]
  rfl

theorem finish_header (m : Image) (es : List PmLogEntry) {a : Nat} (h1 : pmem.logRegionOfst ≤ a)
    (h2 : a < pmem.logRegionOfst + 64) : finish m (recoveryOps pmem es) a = 0 := by
  have hlen : PmLogHeader.zero.bytes.length = 64 := header_length _
  rw [finish_recoveryOps, store_at _ _ _ _ h1 (by omega)]
  simp only [zero_bytes, List.getElem_replicate]

theorem finish_clean (m : Image) (es : List PmLogEntry) :
    LogClean pmem (finish m (recoveryOps pmem es)) := by
  rw [finish_recoveryOps]
  exact clean_header _ rfl

/-- A replay started over on an image that differs from the first one where the replay writes. -/
theorem finish_again
    (h : ∀ a, ¬ Covers (targets es) a →
      ¬ (pmem.logRegionOfst ≤ a ∧ a < pmem.logRegionOfst + 64) → m' a = m a) :
    finish m' (recoveryOps pmem es) = finish m (recoveryOps pmem es) := by
  have hlen : PmLogHeader.zero.bytes.length = 64 := header_length _
  funext a
  by_cases hh : pmem.logRegionOfst ≤ a ∧ a < pmem.logRegionOfst + 64
  · rw [finish_header m' es hh.1 hh.2, finish_header m es hh.1 hh.2]
  · rw [finish_recoveryOps, finish_recoveryOps, store_outside _ _ _ _ (by omega),
      store_outside _ _ _ _ (by omega)]
    by_cases hc : Covers (targets es) a
    · exact storeAll_covered hc
    · rw [storeAll_outside _ _ _ hc, storeAll_outside _ _ _ hc, h a hc hh]

/-- What is left of a torn header that recovery has been clearing: the first word is cleared as a
whole, or not at all. -/
theorem torn_clear {d : Image} (halign : pmem.logRegionOfst % 8 = 0)
    (ht : Torn d [(pmem.logRegionOfst, PmLogHeader.zero.bytes)] m') :
    (∀ a, ¬ (pmem.logRegionOfst ≤ a ∧ a < pmem.logRegionOfst + 64) → m' a = d a) ∧
    (∀ a, Padding pmem a → m' a = 0 ∨ m' a = d a) ∧
    ((∀ a, pmem.logRegionOfst ≤ a → a < pmem.logRegionOfst + 8 → m' a = 0) ∨
      ∀ a, pmem.logRegionOfst ≤ a → a < pmem.logRegionOfst + 8 → m' a = d a) := by
  have hlen : PmLogHeader.zero.bytes.length = 64 := header_length _
  have hzero : ∀ a, pmem.logRegionOfst ≤ a → a < pmem.logRegionOfst + 64 →
      store d pmem.logRegionOfst PmLogHeader.zero.bytes a = 0 := by
    intro a h1 h2
    rw [store_at _ _ _ _ h1 (by omega)]
    simp only [zero_bytes, List.getElem_replicate]
  refine ⟨fun a ha => ht.outside a ?_, ?_⟩
  · rintro ⟨w, hw, h1, h2⟩
    obtain rfl := List.mem_singleton.mp hw
    rw [hlen] at h2
    exact ha ⟨h1, h2⟩
  · cases ht with
    | cons _ W _ _ _ _ ht =>
      cases ht
      constructor
      · rintro a ⟨h1, h2⟩
        obtain h | h := storeWords_or d W pmem.logRegionOfst PmLogHeader.zero.bytes a
        · exact Or.inl (h.trans (hzero a (by omega) h2))
        · exact Or.inr h
      · have hsame : ∀ a, pmem.logRegionOfst ≤ a → a < pmem.logRegionOfst + 8 →
            a / 8 = pmem.logRegionOfst / 8 := by
          intro a h1 h2
          omega
        by_cases hW : W (pmem.logRegionOfst / 8) = true
        · refine Or.inl fun a h1 h2 => ?_
          rw [storeWords, hsame a h1 h2, if_pos hW]
          exact hzero a h1 (by omega)
        · refine Or.inr fun a h1 h2 => ?_
          rw [storeWords, hsame a h1 h2, if_neg hW]

/-- After a crash the log can be replayed as before, and to the same end; or it has been
replayed, and only the padding of the header is still to be cleared. -/
theorem Replayable.crash (h : Replayable pmem m es) (halign : pmem.logRegionOfst % 8 = 0)
    (hc : Crash m [] (recoveryOps pmem es) m') :
    (Replayable pmem m' es ∧
      finish m' (recoveryOps pmem es) = finish m (recoveryOps pmem es)) ∨
    (LogClean pmem m' ∧
      (∀ a, ¬ Padding pmem a → m' a = finish m (recoveryOps pmem es) a) ∧
      ∀ a, Padding pmem a → m' a = 0 ∨ m' a = m a) := by
  have hregion : pmLogRegionSize = 8192 := rfl
  have hlen : PmLogHeader.zero.bytes.length = 64 := header_length _
  have hlog : ∀ a, InLog pmem a → storeAll m (targets es) a = m a :=
    fun a ha => storeAll_outside m _ a fun hcov => h.outside a hcov ha
  have hfin : ∀ a, ¬ (pmem.logRegionOfst ≤ a ∧ a < pmem.logRegionOfst + 64) →
      finish m (recoveryOps pmem es) a = storeAll m (targets es) a := by
    intro a ha
    rw [finish_recoveryOps, store_outside _ _ _ _ (by omega)]
  have hops : recoveryOps pmem es = persists (targets es) ++
      (persist pmem.logRegionOfst PmLogHeader.zero.bytes ++ []) := by rw [recoveryOps, List.append_nil]
  rw [hops] at hc
  obtain hout | hc := crash_persists hc
  · exact Or.inl ⟨h.congr fun a ha _ => hout a fun hcov => h.outside a hcov ha,
      finish_again fun a ha _ => hout a ha⟩
  · rw [crash_persist, crash_nil] at hc
    obtain ht | rfl := hc
    · obtain ⟨hrest, hpad, hfirst⟩ := torn_clear halign ht
      obtain hfirst | hfirst := hfirst
      · refine Or.inr ⟨cleared_clean (hfirst _ (Nat.le_refl _) (by omega)), fun a ha => ?_,
          fun a ha => ?_⟩
        · by_cases hh : pmem.logRegionOfst ≤ a ∧ a < pmem.logRegionOfst + 64
          · have hlt : a < pmem.logRegionOfst + 8 := by
              by_contra hge
              exact ha ⟨by omega, hh.2⟩
            rw [hfirst a hh.1 hlt, finish_header m es hh.1 hh.2]
          · rw [hrest a hh, hfin a hh]
        · obtain hp | hp := hpad a ha
          · exact Or.inl hp
          · obtain ⟨h1, h2⟩ := ha
            rw [hlog a ⟨by omega, by omega⟩] at hp
            exact Or.inr hp
      · have hsame : ∀ a, ¬ Padding pmem a → m' a = storeAll m (targets es) a := by
          intro a ha
          by_cases hh : pmem.logRegionOfst ≤ a ∧ a < pmem.logRegionOfst + 64
          · have hlt : a < pmem.logRegionOfst + 8 := by
              by_contra hge
              exact ha ⟨by omega, hh.2⟩
            exact hfirst a hh.1 hlt
          · exact hrest a hh
        refine Or.inl ⟨h.congr fun a ha hp => (hsame a hp).trans (hlog a ha),
          finish_again fun a ha hh => ?_⟩
        rw [hrest a hh, storeAll_outside _ _ _ ha]
    · refine Or.inr ⟨clean_header _ rfl, fun a _ => by rw [finish_recoveryOps], fun a ha => Or.inl ?_⟩
      obtain ⟨h1, h2⟩ := ha
      have hz := @finish_header pmem m es a (by omega) h2
      rwa [finish_recoveryOps] at hz

end Restart

/-- `r` is what an uninterrupted recovery leaves, but for those bytes of the padding that are not zero
in `m`. -/
def SameImage (pmem : Pmem) (m done r : Image) : Prop :=
  ∀ a, ¬ (Padding pmem a ∧ m a ≠ 0) → r a = done a

/-- Recovery of `m` comes to its end, and after a crash at any point of it a second recovery leaves
an image that compares to the uninterrupted one as `same` says, and that recovery leaves alone. -/
def Restartable (pmem : Pmem) (m : Image) (same : Image → Image → Prop) : Prop :=
  ∃ ops, (∀ stk, pmemRecovery pmem stk m = .ok ops) ∧
    ∀ m', Crash m [] ops m' → ∀ stk, ∃ r, recovered pmem stk m' = .ok r ∧
      same (finish m ops) r ∧ ∀ stk', recovered pmem stk' r = .ok r

/-- Recovery can be started over after a crash at any point. The image in the end is that of an
uninterrupted run, but for bytes of the padding of the log header that were not zero before. -/
theorem recovery_restartable (cpu : Nat) (m : Image) (es : List PmLogEntry)
    (h : Replayable (pmemOpen cpu) m es) :
    Restartable (pmemOpen cpu) m (SameImage (pmemOpen cpu) m) := by
  have halign : (pmemOpen cpu).logRegionOfst % 8 = 0 := by
    have hofst : (pmemOpen cpu).logRegionOfst = 4096 + cpu * 8192 := rfl
    omega
  have hrun := fun stk => (@pmemRecovery_iff _ _ _ stk h.holds _).mpr
    ⟨h.rounded, h.buffer, h.aligned, rfl⟩
  refine ⟨recoveryOps (pmemOpen cpu) es, hrun, fun m' hc stk => ?_⟩
  obtain ⟨hagain, heq⟩ | ⟨hclean, hrest, hpad⟩ := h.crash halign hc
  · refine ⟨_, hagain.recovered stk, ?_, fun stk' => recovered_clean stk' (finish_clean m' es)⟩
    rw [heq]
    exact fun _ _ => rfl
  · refine ⟨m', recovered_clean stk hclean, fun a hzero => ?_, fun stk' => recovered_clean stk' hclean⟩
    by_cases ha : Padding (pmemOpen cpu) a
    · have hm : m a = 0 := not_not.mp fun hne => hzero ⟨ha, hne⟩
      have hm' : m' a = 0 := (hpad a ha).elim id fun hp => hp.trans hm
      obtain ⟨h1, h2⟩ := ha
      rw [hm', finish_header m es (by omega) h2]
    · exact hrest a ha

/-- The log of one bitmap entry, committed. -/
theorem bitmapEntry_restartable : ∃ tx,
    addAll (pmemTransactionAlloc fun _ => 0) [bitmapEntry] = some tx ∧
    Restartable (pmemOpen 0) (commitLog (pmemOpen 0) tx fun _ => 0)
      (SameImage (pmemOpen 0) (commitLog (pmemOpen 0) tx fun _ => 0)) := by
  have hadd : addAll (pmemTransactionAlloc fun _ => 0) [bitmapEntry] =
      some (pmemTransactionAdd (pmemTransactionAlloc fun _ => 0) bitmapEntry.ofst bitmapEntry.paddr
        bitmapEntry.value).1 := rfl
  have hb := built_of_addAll (built_alloc fun _ => 0) (by decide) hadd
  obtain ⟨hlog, hlen⟩ := (commitLog_committed (pmemOpen 0) _ fun _ => 0).logHolds hb
  refine ⟨_, hadd, recovery_restartable 0 _ [bitmapEntry] ⟨hlog, ?_, ?_, by decide, ?_⟩⟩
  · rw [hlen]
    decide
  · rw [hlen]
    decide
  · rintro a ⟨w, hw, h1, h2⟩ ⟨h3, h4⟩
    obtain rfl := List.mem_singleton.mp hw
    simp [PmLogEntry.copy, bitmapEntry, pmemOpen, pmLogRegionSize] at h1 h4
    omega

/-- An empty log whose header is valid, with a byte of its padding set. -/
def paddedImage : Image := fun a => if a = 4096 ∨ a = 4104 then 1 else 0

/-- The first word of the header is cleared before the crash, the padding is not. -/
theorem padded_not_restartable : Replayable (pmemOpen 0) paddedImage [] ∧
    ¬ Restartable (pmemOpen 0) paddedImage (fun done r => r = done) := by
  have hread : PmLogHeader.read paddedImage 4096 = ⟨true, 0, 0, 0⟩ := rfl
  have h : Replayable (pmemOpen 0) paddedImage [] := by
    refine ⟨⟨?_, ?_, rfl, ?_⟩, ?_, ?_, fun e he => absurd he List.not_mem_nil, ?_⟩
    · exact congrArg PmLogHeader.valid hread
    · exact congrArg (fun lh => lh.nrLogs.toNat) hread
    · exact Nat.zero_le _
    · exact congrArg (fun lh => lh.alignLength.toNat % 256) hread
    · exact Nat.le_trans (Nat.le_of_eq (congrArg (fun lh => lh.alignLength.toNat) hread)) (by decide)
    · rintro a ⟨w, hw, _⟩
      cases hw
  refine ⟨h, ?_⟩
  rintro ⟨ops, hops, hall⟩
  obtain ⟨_, _, _, rfl⟩ := (pmemRecovery_iff h.holds ops).mp (hops fun _ => 0)
  let torn : Image := storeWords paddedImage (fun w => w == 512) 4096 PmLogHeader.zero.bytes
  have ht : Torn paddedImage [(4096, PmLogHeader.zero.bytes)] torn := Torn.one ..
  have hc : Crash paddedImage [] (recoveryOps (pmemOpen 0) []) torn := by
    have hcut := (@crash_persist paddedImage torn 4096 PmLogHeader.zero.bytes []).mpr (Or.inl ht)
    rwa [List.append_nil] at hcut
  obtain ⟨r, hr, heq, _⟩ := hall torn hc fun _ => 0
  have hclean : LogClean (pmemOpen 0) torn := cleared_clean (by decide +kernel)
  rw [recovered_clean _ hclean] at hr
  obtain rfl := Except.ok.inj hr
  have hbyte := congrFun heq 4104
  rw [finish_header paddedImage [] (by decide) (by decide)] at hbyte
  exact absurd hbyte (by decide)

end ZCell.Pm
