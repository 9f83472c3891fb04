import ZCell.Store
import ZCell.AllocatorSpec

/-! Data-index words and the extents made of them: what `object_lba_merge_to` returns, and how
many extents a list of words or a call of the allocator can give. -/
namespace ZCell.Store
open Bytes Persist Pm Allocator

/-- The blocks that a list of index words maps, in order. -/
def mapped (ws : List (BitVec 32)) : List Nat := (ws.filter fun w => w ≠ unmapped).map BitVec.toNat

theorem mapped_cons_hole (ws : List (BitVec 32)) : mapped (unmapped :: ws) = mapped ws := by
  simp [mapped]

theorem mapped_cons {w : BitVec 32} (ws : List (BitVec 32)) (h : w ≠ unmapped) :
    mapped (w :: ws) = w.toNat :: mapped ws := by
  simp [mapped, h]

theorem mem_mapped {ws : List (BitVec 32)} {b : Nat} :
    b ∈ mapped ws ↔ ∃ w ∈ ws, w ≠ unmapped ∧ w.toNat = b := by
  simp [mapped, and_assoc]

theorem mapped_length_le (ws : List (BitVec 32)) : (mapped ws).length ≤ ws.length := by
  rw [mapped, List.length_map]
  exact List.length_filter_le _ _

/-- A word joins the newest extent or opens one. -/
theorem mergeRound_blocks (s : Merge) {ba : BitVec 32} (h : ba ≠ unmapped) :
    blocks (mergeRound s ba).ex.reverse = blocks s.ex.reverse ++ [ba.toNat] ∧
    (mergeRound s ba).ex.length ≤ s.ex.length + 1 ∧ (mergeRound s ba).ex ≠ [] ∧
    (mergeRound s ba).mbLen = s.mbLen + 1 := by
  have hnew : ∀ ex : List Extent, blocks (⟨ba.toNat, 1⟩ :: ex).reverse =
      blocks ex.reverse ++ [ba.toNat] := by
    intro ex
    simp [blocks, Extent.blocks]
  simp only [mergeRound, if_neg h]
  split
  · split
    · rename_i p ps hex
      split
      · rename_i hjoin
        refine ⟨?_, by simp [hex], by simp, rfl⟩
        simp only [hex, List.reverse_cons, blocks_append]
        simp [blocks, Extent.blocks, List.range'_1_concat, ← hjoin.1, Nat.add_comm]
      · exact ⟨hnew _, by simp, by simp, rfl⟩
    · rename_i hex
      simp [hex, blocks, Extent.blocks]
  · exact ⟨hnew _, by simp, by simp, rfl⟩

theorem foldl_mergeRound (bi : List (BitVec 32)) (s : Merge) :
    blocks (bi.foldl mergeRound s).ex.reverse = blocks s.ex.reverse ++ mapped bi ∧
    (bi.foldl mergeRound s).ex.length ≤ s.ex.length + bi.length ∧
    ((bi.foldl mergeRound s).ex = [] ↔ s.ex = [] ∧ mapped bi = []) ∧
    (bi.foldl mergeRound s).mbLen = s.mbLen + (mapped bi).length := by
  induction bi generalizing s with
  | nil => simp [mapped]
  | cons ba bi ih =>
    obtain ⟨h1, h2, h3, h4⟩ := ih (mergeRound s ba)
    rw [List.foldl_cons, h1, h3, h4]
    by_cases h : ba = unmapped
    · subst h
      have hs : mergeRound s unmapped = { s with inFoundCtx := false } := by simp [mergeRound]
      rw [hs] at h2 ⊢
      simp only [mapped_cons_hole, List.length_cons, and_true, true_and] at h2 ⊢
      omega
    · obtain ⟨g1, g2, g3, g4⟩ := mergeRound_blocks s h
      rw [g1, g4, mapped_cons bi h]
      simp only [g3, false_and, reduceCtorEq, and_false, List.length_cons, List.append_assoc,
        List.singleton_append, true_and]
      omega

theorem mergeRound_lba (s : Merge) (ba : BitVec 32) :
    (mergeRound s ba).ex.map Extent.lba = s.ex.map Extent.lba ∨
    ba ≠ unmapped ∧ (mergeRound s ba).ex.map Extent.lba = ba.toNat :: s.ex.map Extent.lba := by
  unfold mergeRound
  split
  · exact Or.inl rfl
  · rename_i hne
    split
    · split
      · rename_i p ps hex
        split
        · left
          simp [hex]
        · exact Or.inr ⟨hne, rfl⟩
      · rename_i hex
        right
        simp [hne, hex]
    · exact Or.inr ⟨hne, rfl⟩

/-- Every merged extent starts at a mapped block. -/
theorem foldl_mergeRound_lba (bi : List (BitVec 32)) (s : Merge) :
    ∀ d ∈ (bi.foldl mergeRound s).ex, d.lba ∈ mapped bi ∨ d.lba ∈ s.ex.map Extent.lba := by
  induction bi generalizing s with
  | nil =>
    intro d hd
    exact Or.inr (List.mem_map_of_mem hd)
  | cons ba bi ih =>
    intro d hd
    have hmono : ∀ b ∈ mapped bi, b ∈ mapped (ba :: bi) := by
      intro b hb
      obtain ⟨w, hw, h⟩ := mem_mapped.mp hb
      exact mem_mapped.mpr ⟨w, List.mem_cons_of_mem ba hw, h⟩
    obtain h | h := ih (mergeRound s ba) d hd
    · exact Or.inl (hmono _ h)
    · obtain hex | ⟨hne, hex⟩ := mergeRound_lba s ba
      · rw [hex] at h
        exact Or.inr h
      · rw [hex] at h
        obtain h | h := List.mem_cons.mp h
        · exact Or.inl (mem_mapped.mpr ⟨ba, List.mem_cons_self .., hne, h.symm⟩)
        · exact Or.inr h

theorem merge_lba (bi : List (BitVec 32)) : ∀ d ∈ (objectLbaMergeTo bi).1, d.lba ∈ mapped bi := by
  intro d hd
  obtain h | h := foldl_mergeRound_lba bi ⟨[], false, 0⟩ d (List.mem_reverse.mp hd)
  · exact h
  · exact absurd h (by simp)

theorem blocks_merge (bi : List (BitVec 32)) : blocks (objectLbaMergeTo bi).1 = mapped bi := by
  have h := (foldl_mergeRound bi ⟨[], false, 0⟩).1
  simpa [objectLbaMergeTo, blocks] using h

theorem merge_length (bi : List (BitVec 32)) : (objectLbaMergeTo bi).1.length ≤ bi.length := by
  have h := (foldl_mergeRound bi ⟨[], false, 0⟩).2.1
  simpa [objectLbaMergeTo] using h

theorem merge_nil_iff (bi : List (BitVec 32)) : (objectLbaMergeTo bi).1 = [] ↔ mapped bi = [] := by
  have h := (foldl_mergeRound bi ⟨[], false, 0⟩).2.2.1
  simpa [objectLbaMergeTo] using h

theorem lbaToBitmapId_aux (e : List Extent) (bid : List Nat) :
    let r := e.foldl (fun bid d => if d.lba / 512 ∈ bid then bid else bid ++ [d.lba / 512]) bid
    r.length ≤ bid.length + e.length ∧ ∀ k, k ∈ r ↔ k ∈ bid ∨ ∃ d ∈ e, k = d.lba / 512 := by
  induction e generalizing bid with
  | nil => simp
  | cons d e ih =>
    simp only [List.foldl_cons, List.length_cons]
    split
    · rename_i hin
      obtain ⟨h1, h2⟩ := ih bid
      refine ⟨by omega, fun k => ?_⟩
      rw [h2]
      simp only [List.mem_cons, exists_eq_or_imp]
      constructor
      · rintro (h | h)
        · exact Or.inl h
        · exact Or.inr (Or.inr h)
      · rintro (h | rfl | h)
        · exact Or.inl h
        · exact Or.inl hin
        · exact Or.inr h
    · obtain ⟨h1, h2⟩ := ih (bid ++ [d.lba / 512])
      rw [List.length_append, List.length_singleton] at h1
      refine ⟨by omega, fun k => ?_⟩
      rw [h2]
      simp [or_assoc]

theorem lbaToBitmapId_length (e : List Extent) : (lbaToBitmapId e).length ≤ e.length := by
  simpa [lbaToBitmapId] using (lbaToBitmapId_aux e []).1

theorem mem_lbaToBitmapId {e : List Extent} {k : Nat} :
    k ∈ lbaToBitmapId e ↔ ∃ d ∈ e, k = d.lba / 512 := by
  simpa [lbaToBitmapId] using (lbaToBitmapId_aux e []).2 k

@[simp] theorem readWords_length (m : Image) (a n : Nat) : (readWords m a n).length = n := by
  simp [readWords]

@[simp] theorem wordsBytes_length (ws : List (BitVec 32)) :
    (wordsBytes ws).length = 4 * ws.length := by
  induction ws with
  | nil => rfl
  | cons w ws ih =>
    simp only [wordsBytes, List.flatMap_cons, List.length_append, leBytes_length,
      List.length_cons] at ih ⊢
    omega

@[simp] theorem lineBytes_length (v : BitVec 512) : (lineBytes v).length = 64 := by
  simp [lineBytes]

end ZCell.Store
