import ZCell.Pm

/-! What a transaction holds after its entries were added: the encoded entries one behind
the other, and a header that counts them. -/
namespace ZCell.Pm
open Bytes Persist

def logSize (es : List PmLogEntry) : Nat := (es.map PmLogEntry.size).sum

def logBytes (es : List PmLogEntry) : List Byte := es.flatMap PmLogEntry.bytes

@[simp] theorem entry_bytes_length (e : PmLogEntry) : e.bytes.length = e.size := by
  simp [PmLogEntry.bytes, PmLogEntry.size]
  omega

@[simp] theorem logBytes_length (es : List PmLogEntry) : (logBytes es).length = logSize es := by
  induction es with
  | nil => rfl
  | cons e es ih =>
    simp only [logBytes, logSize, List.flatMap_cons, List.length_append, entry_bytes_length,
      List.map_cons, List.sum_cons] at ih ⊢
    rw [ih]

theorem logSize_append (es fs : List PmLogEntry) : logSize (es ++ fs) = logSize es + logSize fs := by
  simp [logSize]

theorem logBytes_append (es fs : List PmLogEntry) :
    logBytes (es ++ fs) = logBytes es ++ logBytes fs := by
  simp [logBytes]

theorem length_le_logSize (es : List PmLogEntry) : 24 * es.length ≤ logSize es := by
  induction es with
  | nil => simp [logSize]
  | cons e es ih =>
    simp only [logSize, List.map_cons, List.sum_cons, List.length_cons, PmLogEntry.size] at ih ⊢
    omega

theorem load_part (m : Image) (p n k j : Nat) (h : k + j ≤ n) :
    ((load m p n).drop k).take j = load m (p + k) j := by
  apply List.ext_getElem
  · simp; omega
  · intro i h1 h2
    simp [Nat.add_assoc]

/-- An entry is read back from its own encoding. -/
theorem read_of_load (m : Image) (p : Nat) (e : PmLogEntry) (hlen : e.value.length < 2 ^ 64)
    (h : load m p e.size = e.bytes) : PmLogEntry.read m p = e := by
  have hsize : e.size = 24 + e.value.length := rfl
  have hpart : ∀ k j, k + j ≤ e.size → load m (p + k) j = (e.bytes.drop k).take j := by
    intro k j hk
    rw [← h, load_part m p e.size k j hk]
  have h0 : load m p 8 = leBytes 8 e.paddr.toNat := by
    simpa [PmLogEntry.bytes, List.take_append, List.take_of_length_le,
      List.drop_of_length_le] using hpart 0 8 (by omega)
  have h8 : load m (p + 8) 8 = leBytes 8 e.ofst.toNat := by
    simpa [PmLogEntry.bytes, List.drop_append, List.take_append, List.take_of_length_le,
      List.drop_of_length_le]
      using hpart 8 8 (by omega)
  have h16 : load m (p + 16) 8 = leBytes 8 e.value.length := by
    simpa [PmLogEntry.bytes, List.drop_append, List.take_append, List.take_of_length_le,
      List.drop_of_length_le]
      using hpart 16 8 (by omega)
  have h24 : load m (p + 24) e.value.length = e.value := by
    simpa [PmLogEntry.bytes, List.drop_append, List.take_append, List.take_of_length_le,
      List.drop_of_length_le]
      using hpart 24 e.value.length (by omega)
  have hp := e.paddr.isLt
  have ho := e.ofst.isLt
  unfold PmLogEntry.read loadLe
  rw [h0, h8, h16, leValue_leBytes, leValue_leBytes, leValue_leBytes]
  rw [Nat.mod_eq_of_lt (by omega : e.value.length < 256 ^ 8), h24,
    Nat.mod_eq_of_lt (by omega : e.paddr.toNat < 256 ^ 8),
    Nat.mod_eq_of_lt (by omega : e.ofst.toNat < 256 ^ 8)]
  simp

/-- The walk finds the encoded entries and nothing else. -/
theorem logEntries_of_load (m : Image) (es : List PmLogEntry) (p : Nat)
    (hlen : logSize es < 2 ^ 64) (h : load m p (logSize es) = logBytes es) :
    logEntries m es.length p = es := by
  induction es generalizing p with
  | nil => rfl
  | cons e es ih =>
    have hs : logSize (e :: es) = e.size + logSize es := by simp [logSize]
    have hb : logBytes (e :: es) = e.bytes ++ logBytes es := by simp [logBytes]
    have hsize : e.size = 24 + e.value.length := rfl
    have hhead : load m p e.size = e.bytes := by
      have h1 := load_part m p (logSize (e :: es)) 0 e.size (by omega)
      rw [h, hb] at h1
      simpa [List.take_append, List.take_of_length_le,
      List.drop_of_length_le] using h1.symm
    have htail : load m (p + e.size) (logSize es) = logBytes es := by
      have h1 := load_part m p (logSize (e :: es)) e.size (logSize es) (by omega)
      rw [h, hb] at h1
      simpa [List.drop_append, List.take_of_length_le] using h1.symm
    have hread := read_of_load m p e (by omega) hhead
    simp only [List.length_cons, logEntries, hread]
    rw [ih (p + e.size) (by omega) htail]

/-- The transaction holds exactly the entries `es`, all of them inside its region. -/
structure Built (tx : PmemTransaction) (es : List PmLogEntry) : Prop where
  valid : tx.lh.valid = false
  rsv : tx.lh.rsv = 0
  alignLength : tx.lh.alignLength.toNat = logSize es
  nrLogs : tx.lh.nrLogs.toNat = es.length
  body : load tx.le 0 (logSize es) = logBytes es
  fits : logSize es ≤ pmLogRegionSize

theorem built_alloc (g : Image) : Built (pmemTransactionAlloc g) [] where
  valid := rfl
  rsv := rfl
  alignLength := rfl
  nrLogs := rfl
  body := rfl
  fits := by simp [logSize]

theorem Built.entries {tx : PmemTransaction} {es : List PmLogEntry} (h : Built tx es) :
    tx.entries = es := by
  have hf : logSize es ≤ 8192 := h.fits
  rw [PmemTransaction.entries, h.nrLogs]
  exact logEntries_of_load tx.le es 0 (by omega) h.body

/-- An entry that still fits is accepted and appended. -/
theorem Built.add {tx : PmemTransaction} {es : List PmLogEntry} (h : Built tx es)
    (o a : BitVec 64) (v : List Byte) (hfit : logSize es + (24 + v.length) ≤ pmLogRegionSize) :
    (pmemTransactionAdd tx o a v).2 = true ∧
      Built (pmemTransactionAdd tx o a v).1 (es ++ [⟨a, o, v⟩]) := by
  have hf : logSize es + (24 + v.length) ≤ 8192 := hfit
  have hsize : logSize (es ++ [⟨a, o, v⟩]) = logSize es + (24 + v.length) := by
    simp [logSize, PmLogEntry.size]
  have hlen : (tx.lh.alignLength + BitVec.ofNat 32 (24 + v.length)).toNat =
      logSize es + (24 + v.length) := by
    rw [BitVec.toNat_add, BitVec.toNat_ofNat, h.alignLength]
    omega
  have hcount : (tx.lh.nrLogs + 1).toNat = es.length + 1 := by
    have hn := length_le_logSize es
    have hone : (1 : BitVec 16).toNat = 1 := rfl
    rw [BitVec.toNat_add, h.nrLogs, hone]
    omega
  have hroom : ¬ pmLogRegionSize < (tx.lh.alignLength + BitVec.ofNat 32 (24 + v.length)).toNat := by
    rw [hlen]
    omega
  simp only [pmemTransactionAdd, if_neg hroom, true_and]
  refine ⟨h.valid, h.rsv, ?_, ?_, ?_, ?_⟩
  · rw [hsize]
    exact hlen
  · rw [List.length_append]
    exact hcount
  · rw [h.alignLength, hsize, logBytes_append]
    have hb : logBytes [PmLogEntry.mk a o v] = (PmLogEntry.mk a o v).bytes := by simp [logBytes]
    have hprev : store tx.le 0 (logBytes es) = tx.le := by
      rw [← h.body, store_load]
    have happ := store_append tx.le 0 (logBytes es) (PmLogEntry.mk a o v).bytes
    rw [hprev, Nat.zero_add, logBytes_length] at happ
    have hl := load_store_same tx.le 0 (logBytes es ++ (PmLogEntry.mk a o v).bytes)
    rw [List.length_append, logBytes_length, entry_bytes_length] at hl
    rw [happ, hb]
    exact hl
  · rw [hsize]
    exact hfit

/-- A list of `pmem_transaction_add` calls, all of which have to return true. -/
def addAll (tx : PmemTransaction) : List PmLogEntry → Option PmemTransaction
  | [] => some tx
  | e::es =>
    let r := pmemTransactionAdd tx e.ofst e.paddr e.value
    if r.2 then addAll r.1 es else none

theorem Built.addAll {tx : PmemTransaction} {es : List PmLogEntry} (h : Built tx es)
    (fs : List PmLogEntry) (hfit : logSize (es ++ fs) ≤ pmLogRegionSize) :
    ∃ tx', addAll tx fs = some tx' ∧ Built tx' (es ++ fs) := by
  induction fs generalizing tx es with
  | nil => exact ⟨tx, rfl, by simpa using h⟩
  | cons f fs ih =>
    have hcut : logSize (es ++ f :: fs) = logSize es + (24 + f.value.length) + logSize fs := by
      simp [logSize, PmLogEntry.size, Nat.add_assoc]
    obtain ⟨hok, hb⟩ := h.add f.ofst f.paddr f.value (by omega)
    have hassoc : es ++ [f] ++ fs = es ++ f :: fs := by simp
    obtain ⟨tx', htx, hb'⟩ := ih hb (by rw [hassoc]; exact hfit)
    refine ⟨tx', ?_, by rwa [hassoc] at hb'⟩
    simp only [Pm.addAll, hok, if_true]
    exact htx

end ZCell.Pm
