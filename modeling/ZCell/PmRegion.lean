import ZCell.PmRecovery

/-! The space of a redo log: which bytes of the transaction object and of the log region the
calls of pm.c touch, and what a transaction holds after some of its entries were refused. -/
namespace ZCell.Pm
open Bytes Persist

/-- `len` bytes from `start` on. -/
structure Span where
  start : Nat
  len : Nat

def Span.stop (s : Span) : Nat := s.start + s.len

def Span.Has (s : Span) (a : Nat) : Prop := s.start ≤ a ∧ a < s.stop

/-- `sizeof(union pmem_transaction_t)`. -/
def sizeofTransaction : Nat := pmLogRegionSize

/-- What a call of `pmem_transaction_add` writes of the object: the counters, and the entry if it
is accepted. -/
def addWrites (tx : PmemTransaction) (newValue : List Byte) : List Span :=
  let logLen := BitVec.ofNat 32 (24 + newValue.length)
  ⟨0, 8⟩ :: if pmLogRegionSize < (tx.lh.alignLength + logLen).toNat then []
    else [⟨64 + tx.lh.alignLength.toNat, 24 + newValue.length⟩]

/-- The same for a list of calls. -/
def addsWrites : PmemTransaction → List PmLogEntry → List Span
  | _, [] => []
  | tx, e::es => addWrites tx e.value ++ addsWrites (pmemTransactionAdd tx e.ofst e.paddr e.value).1 es

/-- The entries of a walk that begins at position `p` of the object. -/
def entrySpans : Nat → List PmLogEntry → List Span
  | _, [] => []
  | p, e::es => ⟨p, e.size⟩ :: entrySpans (p + e.size) es

/-- What `pmem_transaction_apply` reads of the object: the header, the rounded payload, and the
entries of its two walks. -/
def applyReads (tx : PmemTransaction) : List Span :=
  ⟨0, 64⟩ :: ⟨64, tx.sealed.alignLength.toNat⟩ :: entrySpans 64 tx.entries

/-- What it writes into the log region. -/
def logCopies (pmem : Pmem) (tx : PmemTransaction) : List (Nat × List Byte) :=
  [(pmem.logRegionOfst + 64, load tx.le 0 tx.sealed.alignLength.toNat),
    (pmem.logRegionOfst, tx.sealed.bytes), (pmem.logRegionOfst, PmLogHeader.zero.bytes)]

section Touched
variable {tx : PmemTransaction} {es fs : List PmLogEntry} {e : PmLogEntry}

/-- Bytes of the object that are not among the written ones stay. -/
theorem add_outside (tx : PmemTransaction) (o a : BitVec 64) (v : List Byte) {i : Nat}
    (h : ∀ s ∈ addWrites tx v, ¬ s.Has (64 + i)) : (pmemTransactionAdd tx o a v).1.le i = tx.le i := by
  unfold pmemTransactionAdd
  dsimp only
  split
  · rfl
  · rename_i hroom
    apply store_outside
    rw [entry_bytes_length]
    have hs := h ⟨64 + tx.lh.alignLength.toNat, 24 + v.length⟩ (by
      simp only [addWrites, if_neg hroom]
      exact List.mem_cons_of_mem _ (List.mem_cons_self ..))
    simp only [Span.Has, Span.stop] at hs
    simp only [PmLogEntry.size]
    omega

theorem read_congr {m m' : Image} {p : Nat}
    (h : ∀ i, p ≤ i → i < p + (PmLogEntry.read m p).size → m' i = m i) :
    PmLogEntry.read m' p = PmLogEntry.read m p := by
  have hlen : (PmLogEntry.read m p).value.length = loadLe m (p + 16) 8 := by
    rw [PmLogEntry.read, load_length]
  have hsize : (PmLogEntry.read m p).size = 24 + loadLe m (p + 16) 8 := by
    rw [PmLogEntry.size, hlen]
  have hword : ∀ k, k + 8 ≤ 24 → loadLe m' (p + k) 8 = loadLe m (p + k) 8 := fun k hk =>
    loadLe_congr fun i hi => h _ (by omega) (by omega)
  have h0 := hword 0 (by omega)
  rw [Nat.add_zero] at h0
  have hvalue : load m' (p + 24) (loadLe m (p + 16) 8) = load m (p + 24) (loadLe m (p + 16) 8) :=
    load_congr fun i hi => h _ (by omega) (by omega)
  rw [PmLogEntry.read, h0, hword 8 (by omega), hword 16 (by omega), hvalue, PmLogEntry.read]

/-- The walk reads the entries it finds and nothing else. -/
theorem logEntries_congr {m m' : Image} (n p : Nat)
    (h : ∀ s ∈ entrySpans (64 + p) (logEntries m n p), ∀ i, s.Has (64 + i) → m' i = m i) :
    logEntries m' n p = logEntries m n p := by
  induction n generalizing p with
  | zero => rfl
  | succ n ih =>
    have hread : PmLogEntry.read m' p = PmLogEntry.read m p := by
      refine read_congr fun i h1 h2 => h _ (List.mem_cons_self ..) i ?_
      simp only [Span.Has, Span.stop]
      omega
    rw [logEntries, hread]
    refine congrArg (PmLogEntry.read m p :: ·) (ih _ fun s hs => h s ?_)
    rw [← Nat.add_assoc] at hs
    exact List.mem_cons_of_mem _ hs

/-- `pmem_transaction_apply` does the same for objects that agree on what it reads. -/
theorem applyOps_congr (pmem : Pmem) (lh : PmLogHeader) {le le' : Image}
    (h : ∀ s ∈ applyReads ⟨lh, le⟩, ∀ i, s.Has (64 + i) → le' i = le i) :
    applyOps pmem ⟨lh, le'⟩ = applyOps pmem ⟨lh, le⟩ := by
  have hentries : (PmemTransaction.mk lh le').entries = (PmemTransaction.mk lh le).entries :=
    logEntries_congr lh.nrLogs.toNat 0 fun s hs =>
      h s (List.mem_cons_of_mem _ (List.mem_cons_of_mem _ hs))
  have hsealed : (PmemTransaction.mk lh le').sealed = (PmemTransaction.mk lh le).sealed := rfl
  have hbody : load le' 0 (PmemTransaction.mk lh le).sealed.alignLength.toNat =
      load le 0 (PmemTransaction.mk lh le).sealed.alignLength.toNat := by
    refine load_congr fun i hi => h _ (List.mem_cons_of_mem _ (List.mem_cons_self ..)) _ ?_
    simp only [Span.Has, Span.stop]
    omega
  rw [applyOps, applyOps, hentries, hsealed, hbody]

/-- The copies of a transaction: its log, its entries in place, and the cleared header. -/
theorem copies_applyOps (pmem : Pmem) (tx : PmemTransaction) : copies (applyOps pmem tx) =
    (logCopies pmem tx).take 2 ++ targets tx.entries ++ (logCopies pmem tx).drop 2 := by
  have hmap : ∀ es : List PmLogEntry, copies (es.flatMap fun e => pmemWrite false e.value e.ofst.toNat) =
      targets es := by
    intro es
    induction es with
    | nil => rfl
    | cons e es ih =>
      rw [List.flatMap_cons, copies_append, ih]
      rfl
  rw [applyOps, copies_append, copies_append, copies_append, copies_append, hmap]
  simp only [pmemWrite, if_true, copies_persist, logCopies, copies, List.take_succ_cons,
    List.take_zero, List.drop_succ_cons, List.drop_zero, List.append_nil, List.cons_append,
    List.nil_append]

theorem entrySpans_stop (p : Nat) (es : List PmLogEntry) :
    ∀ s ∈ entrySpans p es, s.stop ≤ p + logSize es := by
  induction es generalizing p with
  | nil =>
    intro s hs
    cases hs
  | cons e es ih =>
    have hsize : logSize (e :: es) = e.size + logSize es := by simp [logSize]
    intro s hs
    obtain rfl | hs := List.mem_cons.mp hs
    · simp only [Span.stop]
      omega
    · have hle := ih (p + e.size) s hs
      omega

/-- An accepted entry lies behind those before it. -/
theorem addWrites_accepted (h : (pmemTransactionAdd tx e.ofst e.paddr e.value).2 = true) :
    addWrites tx e.value = [⟨0, 8⟩, ⟨64 + tx.lh.alignLength.toNat, e.size⟩] := by
  simp only [pmemTransactionAdd] at h
  split at h
  · cases h
  · rename_i hroom
    simp only [addWrites, if_neg hroom]
    rfl

end Touched

/-- Nothing outside the transaction object is written or read, and nothing outside the log region
of the core is written as log, so that the header of the next one stays. -/
structure StaysInside (cpu : Nat) (g : Image) (es : List PmLogEntry) (tx : PmemTransaction) : Prop where
  added : ∀ s ∈ ⟨0, 64⟩ :: addsWrites (pmemTransactionAlloc g) es, s.stop ≤ sizeofTransaction
  read : ∀ s ∈ applyReads tx, s.stop ≤ sizeofTransaction
  logged : ∀ a, Covers (logCopies (pmemOpen cpu) tx) a → InLog (pmemOpen cpu) a
  next : ∀ a, (pmemOpen (cpu + 1)).logRegionOfst ≤ a → a < (pmemOpen (cpu + 1)).logRegionOfst + 64 →
    ¬ Covers (logCopies (pmemOpen cpu) tx) a

section Region
variable {tx tx' : PmemTransaction} {es fs : List PmLogEntry} {g : Image}

theorem built_of_inside (h : Built tx es) (hadd : addAll tx fs = some tx')
    (hin : ∀ s ∈ addsWrites tx fs, s.stop ≤ sizeofTransaction) : Built tx' (es ++ fs) := by
  induction fs generalizing tx es with
  | nil =>
    obtain rfl := Option.some.inj hadd
    rwa [List.append_nil]
  | cons f fs ih =>
    simp only [addAll] at hadd
    split at hadd
    · rename_i hok
      have hspan := hin ⟨64 + tx.lh.alignLength.toNat, f.size⟩ (by
        rw [addsWrites, addWrites_accepted hok]
        exact List.mem_append_left _ (List.mem_cons_of_mem _ (List.mem_cons_self ..)))
      have hsize : f.size = 24 + f.value.length := rfl
      simp only [Span.stop, sizeofTransaction, h.alignLength] at hspan
      have hb := (h.add f.ofst f.paddr f.value (by omega)).2
      have hrest := ih hb hadd fun s hs => hin s (List.mem_append_right _ hs)
      rwa [List.append_assoc] at hrest
    · cases hadd

theorem adds_inside (h : Built tx es) (hadd : addAll tx fs = some tx')
    (hfit : 64 + logSize (es ++ fs) ≤ sizeofTransaction) :
    ∀ s ∈ addsWrites tx fs, s.stop ≤ sizeofTransaction := by
  induction fs generalizing tx es with
  | nil =>
    intro s hs
    cases hs
  | cons f fs ih =>
    have hsize : f.size = 24 + f.value.length := rfl
    have hcut : logSize (es ++ f :: fs) = logSize es + f.size + logSize fs := by
      simp [logSize, Nat.add_assoc]
    have htotal : sizeofTransaction = 8192 := rfl
    have hregion : pmLogRegionSize = 8192 := rfl
    simp only [addAll] at hadd
    split at hadd
    · rename_i hok
      have hb := (h.add f.ofst f.paddr f.value (by omega)).2
      have hassoc : es ++ [⟨f.paddr, f.ofst, f.value⟩] ++ fs = es ++ f :: fs := by simp
      have hrest := ih hb hadd (by rw [hassoc]; exact hfit)
      intro s hs
      rw [addsWrites, addWrites_accepted hok] at hs
      obtain hs | hs := List.mem_append.mp hs
      · simp only [List.mem_cons, List.not_mem_nil, or_false] at hs
        obtain rfl | rfl := hs
        · simp only [Span.stop]
          omega
        · simp only [Span.stop, h.alignLength]
          omega
      · exact hrest s hs
    · cases hadd

end Region

/-- A transaction stays inside its object and its log region exactly when the header and the
rounded payload fit into 8192 bytes. -/
theorem staysInside_iff (cpu : Nat) (g : Image) (es : List PmLogEntry) (tx : PmemTransaction)
    (hadd : addAll (pmemTransactionAlloc g) es = some tx) :
    StaysInside cpu g es tx ↔ 64 + ceilAlign (logSize es) 256 ≤ 8192 := by
  have hregion : pmLogRegionSize = 8192 := rfl
  have htotal : sizeofTransaction = 8192 := rfl
  have hofst : (pmemOpen cpu).logRegionOfst = 4096 + cpu * 8192 := rfl
  have hnext : (pmemOpen (cpu + 1)).logRegionOfst = 4096 + (cpu + 1) * 8192 := rfl
  constructor
  · intro h
    have hb : Built tx es := built_of_inside (built_alloc g) hadd
      fun s hs => h.added s (List.mem_cons_of_mem _ hs)
    have hspan := h.read ⟨64, tx.sealed.alignLength.toNat⟩
      (List.mem_cons_of_mem _ (List.mem_cons_self ..))
    simp only [Span.stop, hb.sealed_toNat] at hspan
    omega
  · intro hfit
    have hle := ceilAlign_le (logSize es)
    obtain ⟨tx', htx, hb⟩ := (built_alloc g).addAll es (by rw [List.nil_append]; omega)
    rw [hadd] at htx
    obtain rfl := Option.some.inj htx
    rw [List.nil_append] at hb
    have hin : ∀ a, Covers (logCopies (pmemOpen cpu) tx) a → InLog (pmemOpen cpu) a := by
      rintro a ⟨w, hw, h1, h2⟩
      simp only [logCopies, List.mem_cons, List.not_mem_nil, or_false] at hw
      obtain rfl | rfl | rfl := hw
      · simp only [load_length, hb.sealed_toNat] at h1 h2
        exact ⟨by omega, by omega⟩
      · simp only [header_length] at h1 h2
        exact ⟨by omega, by omega⟩
      · simp only [header_length] at h1 h2
        exact ⟨by omega, by omega⟩
    refine ⟨fun s hs => ?_, fun s hs => ?_, hin, fun a h1 h2 hc => ?_⟩
    · obtain rfl | hs := List.mem_cons.mp hs
      · simp only [Span.stop]
        omega
      · exact adds_inside (built_alloc g) hadd (by rw [List.nil_append]; omega) s hs
    · simp only [applyReads, List.mem_cons, hb.entries] at hs
      obtain rfl | rfl | hs := hs
      · simp only [Span.stop]
        omega
      · simp only [Span.stop, hb.sealed_toNat]
        omega
      · have hstop := entrySpans_stop 64 es s hs
        omega
    · have hlt := (hin a hc).2
      omega

theorem bitmapEntry_inside : ∃ tx, addAll (pmemTransactionAlloc fun _ => 0) [bitmapEntry] = some tx ∧
    StaysInside 0 (fun _ => 0) [bitmapEntry] tx :=
  ⟨_, rfl, (staysInside_iff 0 (fun _ => 0) [bitmapEntry] _ rfl).mpr (by decide)⟩

/-- A whole page of the index and a part of the next one. -/
def fullEntries : List PmLogEntry :=
  [⟨0, 0x6200000, List.replicate 4096 0⟩, ⟨0, 0x6201000, List.replicate 4032 0⟩]

theorem fullEntries_size : logSize fullEntries = 8176 := by
  simp only [logSize, fullEntries, List.map_cons, List.map_nil, List.sum_cons, List.sum_nil,
    PmLogEntry.size, List.length_replicate, Nat.reduceAdd]

/-- Both entries are accepted, and the log reaches the header of the next core. -/
theorem fullEntries_not_inside :
    ∃ tx, addAll (pmemTransactionAlloc fun _ => 0) fullEntries = some tx ∧
      Covers (logCopies (pmemOpen 0) tx) (pmemOpen 1).logRegionOfst ∧
      ¬ StaysInside 0 (fun _ => 0) fullEntries tx := by
  have hfit : logSize ([] ++ fullEntries) ≤ pmLogRegionSize := by
    rw [List.nil_append, fullEntries_size]
    decide
  obtain ⟨tx, hadd, hb⟩ := (built_alloc fun _ => 0).addAll fullEntries hfit
  rw [List.nil_append] at hb
  have hlen : tx.sealed.alignLength.toNat = 8192 := by
    rw [hb.sealed_toNat, fullEntries_size]
    rfl
  have hcover : Covers (logCopies (pmemOpen 0) tx) (pmemOpen 1).logRegionOfst := by
    have hnext : (pmemOpen 1).logRegionOfst = (pmemOpen 0).logRegionOfst + 8192 := rfl
    refine ⟨_, List.mem_cons_self .., ?_, ?_⟩
    · rw [hnext]
      exact Nat.add_le_add_left (by decide) _
    · rw [load_length, hlen, hnext]
      exact Nat.add_lt_add_right (Nat.lt_add_of_pos_right (by decide)) _
  exact ⟨tx, hadd, hcover, fun h => h.next _ (Nat.le_refl _) (by decide) hcover⟩

/-- The calls one after the other whatever they return, and the entries that were accepted. -/
def addEach (tx : PmemTransaction) : List PmLogEntry → PmemTransaction × List PmLogEntry
  | [] => (tx, [])
  | e::es =>
    let r := pmemTransactionAdd tx e.ofst e.paddr e.value
    let rest := addEach r.1 es
    (rest.1, if r.2 then e :: rest.2 else rest.2)

/-- The updates of ordinary memory that the entries ask for. -/
def deferred : List PmLogEntry → List (Nat × List Byte)
  | [] => []
  | e::es => if e.paddr ≠ 0 then (e.paddr.toNat, e.value) :: deferred es else deferred es

theorem applyMem_deferred (es : List PmLogEntry) (mem : Image) :
    applyMem es mem = storeAll mem (deferred es) := by
  induction es generalizing mem with
  | nil => rfl
  | cons e es ih =>
    rw [deferred, applyMem, List.foldl_cons]
    split
    · exact ih _
    · exact ih _

/-- Every call that is refused leaves the transaction as it was. -/
def RefusedUnchanged : PmemTransaction → List PmLogEntry → Prop
  | _, [] => True
  | tx, e::es =>
    let r := pmemTransactionAdd tx e.ofst e.paddr e.value
    (r.2 = false → r.1 = tx) ∧ RefusedUnchanged r.1 es

/-- Apply writes the accepted entries to persistent memory and to memory, in order, and nothing
else but the log. -/
structure OnlyAccepted (pmem : Pmem) (g : Image) (es : List PmLogEntry) : Prop where
  unchanged : RefusedUnchanged (pmemTransactionAlloc g) es
  written : let r := addEach (pmemTransactionAlloc g) es
    copies (applyOps pmem r.1) =
      (logCopies pmem r.1).take 2 ++ targets r.2 ++ (logCopies pmem r.1).drop 2
  updated : let r := addEach (pmemTransactionAlloc g) es
    ∀ img mem, (pmemTransactionApply pmem r.1 img mem).2.1 = storeAll mem (deferred r.2)

section Refused
variable {tx : PmemTransaction} {es fs : List PmLogEntry} {e : PmLogEntry}

/-- The length that the counter shows when an entry does not fit. -/
theorem Built.refused_length (h : Built tx es) (hsmall : e.size < 2 ^ 32 - pmLogRegionSize)
    (hfull : pmLogRegionSize < logSize es + e.size) :
    pmLogRegionSize < (tx.lh.alignLength + BitVec.ofNat 32 (24 + e.value.length)).toNat := by
  have hfits := h.fits
  have hregion : pmLogRegionSize = 8192 := rfl
  have hsize : e.size = 24 + e.value.length := rfl
  rw [BitVec.toNat_add, BitVec.toNat_ofNat, h.alignLength]
  omega

/-- An entry that does not fit is refused, but it has been counted. -/
theorem Built.refuse (h : Built tx es) (hsmall : e.size < 2 ^ 32 - pmLogRegionSize)
    (hfull : pmLogRegionSize < logSize es + e.size) :
    let r := pmemTransactionAdd tx e.ofst e.paddr e.value
    r.2 = false ∧ r.1.le = tx.le ∧ r.1.lh.nrLogs.toNat = es.length + 1 := by
  have hlen := h.refused_length hsmall hfull
  have hfits := h.fits
  have hregion : pmLogRegionSize = 8192 := rfl
  have hcount := length_le_logSize es
  have hone : (1 : BitVec 16).toNat = 1 := rfl
  simp only [pmemTransactionAdd, if_pos hlen, true_and]
  rw [BitVec.toNat_add, h.nrLogs, hone]
  omega

theorem logEntries_append (m : Image) (i j p : Nat) : logEntries m (i + j) p =
    logEntries m i p ++ logEntries m j (p + logSize (logEntries m i p)) := by
  induction i generalizing p with
  | zero =>
    rw [Nat.zero_add]
    rfl
  | succ i ih =>
    have hsize : logSize (logEntries m (i + 1) p) = (PmLogEntry.read m p).size +
        logSize (logEntries m i (p + (PmLogEntry.read m p).size)) := by
      simp [logEntries, logSize]
    rw [Nat.succ_add, logEntries, ih, hsize, ← Nat.add_assoc]
    rfl

/-- After a refused entry apply takes the bytes behind the accepted ones for an entry. -/
theorem Built.refuse_entries (h : Built tx es) (hsmall : e.size < 2 ^ 32 - pmLogRegionSize)
    (hfull : pmLogRegionSize < logSize es + e.size) :
    (pmemTransactionAdd tx e.ofst e.paddr e.value).1.entries =
      es ++ [PmLogEntry.read tx.le (logSize es)] := by
  obtain ⟨_, hle, hcount⟩ := h.refuse hsmall hfull
  have hprev := h.entries
  rw [PmemTransaction.entries, h.nrLogs] at hprev
  rw [PmemTransaction.entries, hcount, hle, logEntries_append, hprev, Nat.zero_add]
  rfl

theorem Built.fits_of_unchanged (h : Built tx es)
    (hsmall : ∀ e ∈ fs, e.size < 2 ^ 32 - pmLogRegionSize) (hun : RefusedUnchanged tx fs) :
    logSize (es ++ fs) ≤ pmLogRegionSize := by
  induction fs generalizing tx es with
  | nil =>
    rw [List.append_nil]
    exact h.fits
  | cons f fs ih =>
    have hsize : f.size = 24 + f.value.length := rfl
    obtain ⟨hrefused, hrest⟩ := hun
    by_cases hfull : pmLogRegionSize < logSize es + f.size
    · obtain ⟨hfalse, _, hcount⟩ := h.refuse (hsmall f (List.mem_cons_self ..)) hfull
      rw [hrefused hfalse, h.nrLogs] at hcount
      omega
    · obtain ⟨_, hb⟩ := h.add f.ofst f.paddr f.value (by omega)
      have hle := ih hb (fun e he => hsmall e (List.mem_cons_of_mem _ he)) hrest
      rwa [List.append_assoc] at hle

/-- When everything fits, everything is accepted. -/
theorem Built.addEach (h : Built tx es) (hfit : logSize (es ++ fs) ≤ pmLogRegionSize) :
    RefusedUnchanged tx fs ∧ (addEach tx fs).2 = fs ∧ Built (addEach tx fs).1 (es ++ fs) := by
  induction fs generalizing tx es with
  | nil => exact ⟨trivial, rfl, by rwa [List.append_nil]⟩
  | cons f fs ih =>
    have hcut : logSize (es ++ f :: fs) = logSize es + (24 + f.value.length) + logSize fs := by
      simp [logSize, PmLogEntry.size, Nat.add_assoc]
    obtain ⟨hok, hb⟩ := h.add f.ofst f.paddr f.value (by omega)
    have hassoc : es ++ [f] ++ fs = es ++ f :: fs := by simp
    obtain ⟨hun, hall, hb'⟩ := ih hb (by rw [hassoc]; exact hfit)
    refine ⟨⟨fun hfalse => ?_, hun⟩, ?_, ?_⟩
    · rw [hok] at hfalse
      cases hfalse
    · simp only [Pm.addEach, hok, if_true]
      rw [hall]
    · rwa [hassoc] at hb'

end Refused

/-- Exactly the accepted entries are applied when and only when none is refused. -/
theorem onlyAccepted_iff (pmem : Pmem) (g : Image) (es : List PmLogEntry)
    (hsmall : ∀ e ∈ es, e.size < 2 ^ 32 - pmLogRegionSize) :
    OnlyAccepted pmem g es ↔ logSize es ≤ 8192 := by
  constructor
  · intro h
    exact (built_alloc g).fits_of_unchanged hsmall h.unchanged
  · intro hfit
    obtain ⟨hun, hall, hb⟩ := (built_alloc g).addEach (by rwa [List.nil_append])
    rw [List.nil_append] at hb
    refine ⟨hun, ?_, fun img mem => ?_⟩
    · dsimp only
      rw [copies_applyOps, hb.entries, hall]
    · rw [pmemTransactionApply, hb.entries, hall]
      exact applyMem_deferred es mem

theorem bitmapEntry_onlyAccepted : OnlyAccepted (pmemOpen 0) (fun _ => 0) [bitmapEntry] :=
  (onlyAccepted_iff (pmemOpen 0) (fun _ => 0) [bitmapEntry] (by decide)).mpr (by decide)

/-- What a transaction before left in the buffer, behind the first entry of the next one. -/
def staleEntry : PmLogEntry := ⟨0, 0x200000, [7]⟩

def staleBuffer : Image := store (fun _ => 0) 88 staleEntry.bytes

def refusedEntry : PmLogEntry := ⟨0, 0x6200000, List.replicate 8192 0⟩

/-- An entry is refused, and apply writes one that nobody added. -/
theorem refused_not_onlyAccepted :
    (addEach (pmemTransactionAlloc staleBuffer) [bitmapEntry, refusedEntry]).2 = [bitmapEntry] ∧
    staleEntry.copy ∈ copies (applyOps (pmemOpen 0)
      (addEach (pmemTransactionAlloc staleBuffer) [bitmapEntry, refusedEntry]).1) ∧
    ¬ OnlyAccepted (pmemOpen 0) staleBuffer [bitmapEntry, refusedEntry] := by
  let tx := (pmemTransactionAdd (pmemTransactionAlloc staleBuffer) bitmapEntry.ofst
    bitmapEntry.paddr bitmapEntry.value).1
  obtain ⟨hok, hb⟩ := (built_alloc staleBuffer).add bitmapEntry.ofst bitmapEntry.paddr
    bitmapEntry.value (by decide +kernel)
  have hb : Built tx [bitmapEntry] := hb
  have hlen : refusedEntry.size = 8216 := by
    rw [PmLogEntry.size, refusedEntry, List.length_replicate]
  have hone : logSize [bitmapEntry] = 88 := rfl
  have hregion : pmLogRegionSize = 8192 := rfl
  obtain ⟨hfalse, _⟩ := @Built.refuse tx [bitmapEntry] refusedEntry hb (by omega) (by omega)
  have hentries := @Built.refuse_entries tx [bitmapEntry] refusedEntry hb (by omega) (by omega)
  have hstale : PmLogEntry.read tx.le 88 = staleEntry := by
    refine read_of_load _ _ _ (by decide) ?_
    have hle : tx.le = store staleBuffer 0 bitmapEntry.bytes := rfl
    have hbytes : bitmapEntry.bytes.length = 88 := rfl
    have hsize : staleEntry.size = staleEntry.bytes.length := rfl
    rw [hle, load_store_disjoint _ _ _ _ _ (by omega), staleBuffer, hsize, load_store_same]
  rw [hone, hstale] at hentries
  have htx : addEach (pmemTransactionAlloc staleBuffer) [bitmapEntry, refusedEntry] =
      ((pmemTransactionAdd tx refusedEntry.ofst refusedEntry.paddr refusedEntry.value).1,
        [bitmapEntry]) := by
    simp only [addEach, hok, if_true]
    rw [hfalse]
    rfl
  have hcopies := copies_applyOps (pmemOpen 0)
    (pmemTransactionAdd tx refusedEntry.ofst refusedEntry.paddr refusedEntry.value).1
  rw [hentries] at hcopies
  refine ⟨by rw [htx], ?_, fun h => ?_⟩
  · rw [htx, hcopies]
    exact List.mem_append_left _ (List.mem_append_right _
      (List.mem_cons_of_mem _ (List.mem_cons_self ..)))
  · have hwritten := h.written
    rw [htx] at hwritten
    dsimp only at hwritten
    rw [hcopies] at hwritten
    exact absurd (congrArg List.length hwritten) (by simp [logCopies, targets])

end ZCell.Pm
