import ZCell.DataIndex

/-! Arrays of 64-byte lines and of 4-byte words in a memory, and what a copy into one of them
does to the elements. -/
namespace ZCell.Store
open Bytes Persist Pm Allocator

theorem load_storeAll_disjoint (m : Image) (ws : List (Nat × List Byte)) (p n : Nat)
    (h : ∀ w ∈ ws, p + n ≤ w.1 ∨ w.1 + w.2.length ≤ p) :
    load (storeAll m ws) p n = load m p n := by
  induction ws generalizing m with
  | nil => rfl
  | cons w ws ih =>
    rw [storeAll_cons, ih _ fun u hu => h u (List.mem_cons_of_mem w hu)]
    exact load_store_disjoint m w.1 w.2 p n (h w (List.mem_cons_self ..))

theorem lineAt_of_load {m m' : Image} {a : Nat} (h : load m a 64 = load m' a 64) :
    lineAt m a = lineAt m' a := by
  rw [lineAt, loadLe, h, lineAt, loadLe]

theorem wordAt_of_load {m m' : Image} {a : Nat} (h : load m a 4 = load m' a 4) :
    wordAt m a = wordAt m' a := by
  rw [wordAt, loadLe, h, wordAt, loadLe]

theorem lineAt_storeAll_disjoint (m : Image) (ws : List (Nat × List Byte)) (a : Nat)
    (h : ∀ w ∈ ws, a + 64 ≤ w.1 ∨ w.1 + w.2.length ≤ a) :
    lineAt (storeAll m ws) a = lineAt m a :=
  lineAt_of_load (load_storeAll_disjoint m ws a 64 h)

theorem wordAt_storeAll_disjoint (m : Image) (ws : List (Nat × List Byte)) (a : Nat)
    (h : ∀ w ∈ ws, a + 4 ≤ w.1 ∨ w.1 + w.2.length ≤ a) :
    wordAt (storeAll m ws) a = wordAt m a :=
  wordAt_of_load (load_storeAll_disjoint m ws a 4 h)

theorem lineAt_store_disjoint (m : Image) (o : Nat) (bs : List Byte) (a : Nat)
    (h : a + 64 ≤ o ∨ o + bs.length ≤ a) : lineAt (store m o bs) a = lineAt m a :=
  lineAt_of_load (load_store_disjoint m o bs a 64 h)

theorem wordAt_store_disjoint (m : Image) (o : Nat) (bs : List Byte) (a : Nat)
    (h : a + 4 ≤ o ∨ o + bs.length ≤ a) : wordAt (store m o bs) a = wordAt m a :=
  wordAt_of_load (load_store_disjoint m o bs a 4 h)

theorem line_range : 256 ^ 64 = 2 ^ 512 := (Nat.pow_mul 2 8 64).symm

theorem lineAt_store_same (m : Image) (a : Nat) (v : BitVec 512) :
    lineAt (store m a (lineBytes v)) a = v := by
  have hv : v.toNat < 256 ^ 64 := by
    rw [line_range]
    exact v.isLt
  rw [lineAt, lineBytes, loadLe_store_same m a 64 _ hv, BitVec.ofNat_toNat, BitVec.setWidth_eq]

/-- The element of an array of lines after one of them was copied in. -/
theorem lineAt_store_line (m : Image) (base i j : Nat) (v : BitVec 512) :
    lineAt (store m (base + 64 * i) (lineBytes v)) (base + 64 * j) =
      if j = i then v else lineAt m (base + 64 * j) := by
  split
  · rename_i h
    rw [h, lineAt_store_same]
  · rename_i h
    apply lineAt_store_disjoint
    rw [lineBytes_length]
    omega

theorem lineBytes_lineAt (m : Image) (a : Nat) : lineBytes (lineAt m a) = load m a 64 := by
  have hlt : loadLe m a 64 < 2 ^ 512 := by
    rw [← line_range]
    exact loadLe_lt m a 64
  have h := leBytes_leValue (load m a 64)
  rw [load_length] at h
  rw [lineBytes, lineAt, BitVec.toNat_ofNat, Nat.mod_eq_of_lt hlt, loadLe, h]

/-- The words of an array after a run of them was copied in. -/
theorem wordAt_store_words (m : Image) (base s n : Nat) (ws : List (BitVec 32)) :
    wordAt (store m (base + 4 * s) (wordsBytes ws)) (base + 4 * n) =
      if s ≤ n ∧ n < s + ws.length then ws.getD (n - s) 0 else wordAt m (base + 4 * n) := by
  induction ws generalizing m s with
  | nil =>
    have hno : ¬ (s ≤ n ∧ n < s + ([] : List (BitVec 32)).length) := by
      rw [List.length_nil]
      omega
    rw [if_neg hno]
    simp [wordsBytes]
  | cons w ws ih =>
    have hb : wordsBytes (w :: ws) = leBytes 4 w.toNat ++ wordsBytes ws := by simp [wordsBytes]
    have hcut := store_append m (base + 4 * s) (leBytes 4 w.toNat) (wordsBytes ws)
    rw [leBytes_length, show base + 4 * s + 4 = base + 4 * (s + 1) by omega] at hcut
    rw [hb, ← hcut, ih, List.length_cons]
    by_cases hs : n = s
    · subst hs
      have hw : w.toNat < 256 ^ 4 := w.isLt
      rw [if_neg (by omega), if_pos (by omega), wordAt, loadLe_store_same _ _ 4 _ hw]
      simp
    · by_cases hr : s + 1 ≤ n ∧ n < s + 1 + ws.length
      · have hidx : n - s = n - (s + 1) + 1 := by omega
        rw [if_pos hr, if_pos (by omega), hidx, List.getD_cons_succ]
      · rw [if_neg hr, if_neg (by omega)]
        apply wordAt_store_disjoint
        rw [leBytes_length]
        omega

theorem copy_bitmapLog (base : Nat) (bs : Nat → BitVec 512) (k : Nat) (h : base + 64 * k < 2 ^ 64) :
    (bitmapLog base bs k).copy = (base + 64 * k, lineBytes (bs k)) := by
  simp only [bitmapLog, PmLogEntry.copy, BitVec.toNat_ofNat, Nat.mod_eq_of_lt h]

/-- The lines of a bitmap region after some entries were logged and copied. -/
theorem lineAt_storeAll_bitmapLogs (m : Image) (base : Nat) (bs : Nat → BitVec 512)
    (ks : List Nat) (hks : ∀ k ∈ ks, base + 64 * k < 2 ^ 64) (j : Nat) :
    lineAt (storeAll m ((ks.map (bitmapLog base bs)).map PmLogEntry.copy)) (base + 64 * j) =
      if j ∈ ks then bs j else lineAt m (base + 64 * j) := by
  induction ks generalizing m with
  | nil => simp
  | cons k ks ih =>
    have hk := hks k (List.mem_cons_self ..)
    rw [List.map_cons, List.map_cons, storeAll_cons, copy_bitmapLog base bs k hk,
      ih _ fun k' hk' => hks k' (List.mem_cons_of_mem k hk'), lineAt_store_line]
    by_cases h1 : j ∈ ks
    · simp [h1]
    · by_cases h2 : j = k
      · subst h2
        simp
      · simp [h1, h2]

end ZCell.Store
