import Mathlib.Tactic.Linarith

/-! Byte-addressed memories: range copies, their frame laws, and the
little-endian view of a range as a number. -/
namespace ZCell.Bytes

abbrev Byte := BitVec 8

/-- The contents of a memory, indexed by byte address. -/
abbrev Image := Nat → Byte

/-- Copy `bs` into `m` at address `o`. -/
def store (m : Image) (o : Nat) (bs : List Byte) : Image :=
  fun a => if o ≤ a then (bs[a - o]?).getD (m a) else m a

def load (m : Image) (o n : Nat) : List Byte := (List.range n).map fun i => m (o + i)

theorem store_outside (m : Image) (o : Nat) (bs : List Byte) (a : Nat)
    (h : a < o ∨ o + bs.length ≤ a) : store m o bs a = m a := by
  unfold store
  split
  · rw [List.getElem?_eq_none (by omega), Option.getD_none]
  · rfl

theorem store_inside (m : Image) (o : Nat) (bs : List Byte) (i : Nat) (h : i < bs.length) :
    store m o bs (o + i) = bs[i] := by
  simp [store, h]

theorem store_at (m : Image) (o : Nat) (bs : List Byte) (a : Nat)
    (h1 : o ≤ a) (h2 : a - o < bs.length) : store m o bs a = bs[a - o] := by
  have h := store_inside m o bs (a - o) h2
  rwa [Nat.add_sub_cancel' h1] at h

@[simp] theorem store_nil (m : Image) (o : Nat) : store m o [] = m := by
  funext a
  exact store_outside m o [] a (by simp; omega)

/-- A copy reads only the old contents of the addresses it does not cover. -/
theorem store_congr {m m' : Image} {a : Nat} (o : Nat) (bs : List Byte) (h : m a = m' a) :
    store m o bs a = store m' o bs a := by
  simp only [store, h]

theorem store_append (m : Image) (o : Nat) (bs cs : List Byte) :
    store (store m o bs) (o + bs.length) cs = store m o (bs ++ cs) := by
  funext a
  by_cases h1 : a < o + bs.length
  · rw [store_outside _ _ cs a (Or.inl h1)]
    by_cases h0 : a < o
    · rw [store_outside _ _ _ a (Or.inl h0), store_outside _ _ _ a (Or.inl h0)]
    · rw [store_at m o bs a (by omega) (by omega), store_at m o (bs ++ cs) a (by omega) (by simp; omega),
        List.getElem_append_left]
  · by_cases h2 : a < o + bs.length + cs.length
    · rw [store_at _ _ cs a (by omega) (by omega),
        store_at m o (bs ++ cs) a (by omega) (by simp; omega), List.getElem_append_right (by omega)]
      congr 1
      omega
    · rw [store_outside _ _ cs a (by omega), store_outside _ _ bs a (by omega),
        store_outside _ _ (bs ++ cs) a (by simp; omega)]

@[simp] theorem load_length (m : Image) (o n : Nat) : (load m o n).length = n := by
  simp [load]

@[simp] theorem load_getElem (m : Image) (o n i : Nat) (h : i < (load m o n).length) :
    (load m o n)[i] = m (o + i) := by
  simp [load]

theorem load_congr {m m' : Image} {o n : Nat} (h : ∀ i, i < n → m (o + i) = m' (o + i)) :
    load m o n = load m' o n := by
  apply List.map_congr_left
  intro i hi
  exact h i (List.mem_range.mp hi)

theorem load_store_same (m : Image) (o : Nat) (bs : List Byte) :
    load (store m o bs) o bs.length = bs := by
  apply List.ext_getElem (by simp)
  intro i h1 h2
  rw [load_getElem, store_inside m o bs i h2]

theorem load_store_disjoint (m : Image) (o : Nat) (bs : List Byte) (p n : Nat)
    (h : p + n ≤ o ∨ o + bs.length ≤ p) : load (store m o bs) p n = load m p n := by
  apply load_congr
  intro i hi
  exact store_outside m o bs (p + i) (by omega)

/-- Reading a part of a range that was just copied. -/
theorem load_store_part (m : Image) (o : Nat) (bs : List Byte) (k n : Nat)
    (h : k + n ≤ bs.length) : load (store m o bs) (o + k) n = (bs.drop k).take n := by
  apply List.ext_getElem
  · simp; omega
  · intro i h1 h2
    have hi : i < n := by simpa using h1
    rw [load_getElem, Nat.add_assoc, store_inside m o bs (k + i) (by omega)]
    simp

theorem store_load (m : Image) (o n : Nat) : store m o (load m o n) = m := by
  funext a
  by_cases h : o ≤ a ∧ a < o + n
  · rw [store_at m o _ a h.1 (by simp; omega), load_getElem, Nat.add_sub_cancel' h.1]
  · exact store_outside m o _ a (by rw [load_length]; omega)

/-- The low `n` bytes of `v`, least significant first. -/
def leBytes : Nat → Nat → List Byte
  | 0, _ => []
  | n+1, v => BitVec.ofNat 8 v :: leBytes n (v / 256)

def leValue : List Byte → Nat
  | [] => 0
  | b::bs => b.toNat + 256 * leValue bs

@[simp] theorem leBytes_length (n v : Nat) : (leBytes n v).length = n := by
  induction n generalizing v with
  | zero => rfl
  | succ n ih => simp [leBytes, ih]

theorem leValue_leBytes (n v : Nat) : leValue (leBytes n v) = v % 256 ^ n := by
  induction n generalizing v with
  | zero => simp [leBytes, leValue, Nat.mod_one]
  | succ n ih =>
    have hm : v % 256 ^ (n + 1) = v % 256 + 256 * (v / 256 % 256 ^ n) := by
      rw [Nat.pow_succ', Nat.mod_mul]
    simp only [leBytes, leValue, ih, BitVec.toNat_ofNat, hm]

theorem leValue_lt (bs : List Byte) : leValue bs < 256 ^ bs.length := by
  induction bs with
  | nil => simp [leValue]
  | cons b bs ih =>
    have hb : b.toNat < 256 := b.isLt
    simp only [leValue, List.length_cons, Nat.pow_succ']
    omega

theorem leBytes_leValue (bs : List Byte) : leBytes bs.length (leValue bs) = bs := by
  induction bs with
  | nil => rfl
  | cons b bs ih =>
    have hb : b.toNat < 256 := b.isLt
    have hd : (b.toNat + 256 * leValue bs) / 256 = leValue bs := by omega
    have h0 : BitVec.ofNat 8 (b.toNat + 256 * leValue bs) = b := by
      apply BitVec.eq_of_toNat_eq
      simp only [BitVec.toNat_ofNat]
      omega
    simp only [List.length_cons, leValue, leBytes, hd, h0, ih]

/-- The number held little-endian in `n` bytes at address `o`. -/
def loadLe (m : Image) (o n : Nat) : Nat := leValue (load m o n)

theorem loadLe_lt (m : Image) (o n : Nat) : loadLe m o n < 256 ^ n := by
  have h := leValue_lt (load m o n)
  rwa [load_length] at h

theorem loadLe_store_same (m : Image) (o n v : Nat) (h : v < 256 ^ n) :
    loadLe (store m o (leBytes n v)) o n = v := by
  have hl := load_store_same m o (leBytes n v)
  rw [leBytes_length] at hl
  rw [loadLe, hl, leValue_leBytes, Nat.mod_eq_of_lt h]

theorem loadLe_congr {m m' : Image} {o n : Nat} (h : ∀ i, i < n → m (o + i) = m' (o + i)) :
    loadLe m o n = loadLe m' o n := by
  rw [loadLe, load_congr h, loadLe]

theorem loadLe_store_disjoint (m : Image) (o : Nat) (bs : List Byte) (p n : Nat)
    (h : p + n ≤ o ∨ o + bs.length ≤ p) : loadLe (store m o bs) p n = loadLe m p n := by
  rw [loadLe, load_store_disjoint m o bs p n h, loadLe]

/-- Apply a list of copies from the oldest to the newest. -/
def storeAll (m : Image) (ws : List (Nat × List Byte)) : Image :=
  ws.foldl (fun m w => store m w.1 w.2) m

@[simp] theorem storeAll_nil (m : Image) : storeAll m [] = m := rfl

@[simp] theorem storeAll_cons (m : Image) (w : Nat × List Byte) (ws : List (Nat × List Byte)) :
    storeAll m (w :: ws) = storeAll (store m w.1 w.2) ws := rfl

theorem storeAll_append (m : Image) (us ws : List (Nat × List Byte)) :
    storeAll m (us ++ ws) = storeAll (storeAll m us) ws := by
  simp [storeAll, List.foldl_append]

/-- Some copy of the list covers the address. -/
def Covers (ws : List (Nat × List Byte)) (a : Nat) : Prop :=
  ∃ w ∈ ws, w.1 ≤ a ∧ a < w.1 + w.2.length

theorem storeAll_outside (m : Image) (ws : List (Nat × List Byte)) (a : Nat)
    (h : ¬ Covers ws a) : storeAll m ws a = m a := by
  induction ws generalizing m with
  | nil => rfl
  | cons w ws ih =>
    have hw : ¬ Covers ws a := fun ⟨u, hu, hb⟩ => h ⟨u, List.mem_cons_of_mem w hu, hb⟩
    have ho : ¬ (w.1 ≤ a ∧ a < w.1 + w.2.length) := fun hb => h ⟨w, by simp, hb⟩
    rw [storeAll_cons, ih _ hw, store_outside _ _ _ _ (by omega)]

/-- What a list of copies leaves where it covers the memory does not depend on what was there. -/
theorem storeAll_covered {m m' : Image} {ws : List (Nat × List Byte)} {a : Nat} (h : Covers ws a) :
    storeAll m ws a = storeAll m' ws a := by
  induction ws generalizing m m' with
  | nil =>
    obtain ⟨w, hw, _⟩ := h
    cases hw
  | cons w ws ih =>
    by_cases hrest : Covers ws a
    · exact ih hrest
    · have hhead : w.1 ≤ a ∧ a < w.1 + w.2.length := by
        obtain ⟨u, hu, hr⟩ := h
        obtain rfl | hu := List.mem_cons.mp hu
        · exact hr
        · exact absurd ⟨u, hu, hr⟩ hrest
      rw [storeAll_cons, storeAll_cons, storeAll_outside _ _ _ hrest, storeAll_outside _ _ _ hrest,
        store_at m w.1 w.2 a hhead.1 (by omega), store_at m' w.1 w.2 a hhead.1 (by omega)]

theorem storeAll_congr {m m' : Image} {a : Nat} (ws : List (Nat × List Byte))
    (h : m a = m' a) : storeAll m ws a = storeAll m' ws a := by
  induction ws generalizing m m' with
  | nil => exact h
  | cons w ws ih =>
    simp only [storeAll_cons]
    exact ih (store_congr w.1 w.2 h)

end ZCell.Bytes
