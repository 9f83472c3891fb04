import ZCell.Runs
import ZCell.Slots

/-! bitmap.h: what one search of a bitmap finds, and what repeated searches hand out. The index
leaves `bitmap_next_set` as an `int`, so that a bit from 2^31 on is not found. -/
namespace ZCell.Liboss
open Runs

/-- No bit of any word is set. -/
def Bitmap.NoneSet (b : Bitmap) : Prop := ∀ i < 64 * b.wordsLength, b.getBit i = false

/-- Bit `i` was set, and `b'` is `b` without it. -/
structure Bitmap.Cleared (b b' : Bitmap) (i : Nat) : Prop where
  lt : i < 64 * b.wordsLength
  set : b.getBit i = true
  length : b'.wordsLength = b.wordsLength
  bits : ∀ j, b'.getBit j = (b.getBit j && decide (j ≠ i))

/-- A search fails without a change exactly if nothing is set, and clears the bit that it returns
otherwise. -/
def SearchComplete (b : Bitmap) (hint : Nat) : Prop :=
  (b.findNextSetAndClr hint = (-1, b) ↔ b.NoneSet) ∧
    (¬ b.NoneSet → ∃ i : Nat, (b.findNextSetAndClr hint).1 = i ∧
      b.Cleared (b.findNextSetAndClr hint).2 i)

/-- The lower half of the index of the first set bit is not negative, and is a set bit too. -/
def Fits (b : Bitmap) (hint : Nat) : Prop :=
  ∀ i ∈ (b.searchOrder hint).find? b.getBit, i % 2 ^ 32 < 2 ^ 31 ∧ b.getBit (i % 2 ^ 32) = true

section Search
variable {b : Bitmap} {hint i : Nat}

theorem fits_of_short (hlen : 64 * b.wordsLength ≤ 2 ^ 31) (hhint : hint ≤ 64 * b.wordsLength) :
    Fits b hint := by
  intro i hi
  have hlt := (mem_searchOrder hhint).mp (List.mem_of_find?_eq_some hi)
  rw [Nat.mod_eq_of_lt (by omega)]
  exact ⟨by omega, List.find?_some hi⟩

theorem noneSet_of_find (hhint : hint ≤ 64 * b.wordsLength)
    (h : (b.searchOrder hint).find? b.getBit = none) : b.NoneSet := fun i hi => by
  simpa using List.find?_eq_none.mp h i ((mem_searchOrder hhint).mpr hi)

theorem find_of_noneSet (hhint : hint ≤ 64 * b.wordsLength) (h : b.NoneSet) :
    (b.searchOrder hint).find? b.getBit = none := by
  rw [List.find?_eq_none]
  intro i hi
  rw [h i ((mem_searchOrder hhint).mp hi)]
  decide

theorem searchComplete_iff (hhint : hint ≤ 64 * b.wordsLength) : SearchComplete b hint ↔ Fits b hint := by
  obtain ⟨hfind, hneg⟩ | ⟨i, hi, hpos, hfind⟩ := findNextSetAndClr_cases b hint
  · rw [nextSetIndex_eq] at hneg
    constructor
    · intro hc i hi
      rw [find_of_noneSet hhint (hc.1.mp hfind)] at hi
      cases hi
    · intro hfits
      have hnone : b.NoneSet := by
        apply noneSet_of_find hhint
        by_contra hsome
        obtain ⟨i, hi⟩ := Option.ne_none_iff_exists'.mp hsome
        have hlt := (hfits i hi).1
        have hge := hneg i hi
        omega
      exact ⟨⟨fun _ => hnone, fun _ => hfind⟩, fun hsome => absurd hnone hsome⟩
  · rw [nextSetIndex_eq] at hi
    have hmem := (mem_searchOrder hhint).mp (List.mem_of_find?_eq_some hi)
    have hset : b.getBit i = true := List.find?_some hi
    have hsome : ¬ b.NoneSet := fun hnone => by
      rw [hnone i hmem] at hset
      cases hset
    have hne : b.findNextSetAndClr hint ≠ (-1, b) := by
      rw [hfind]
      intro he
      have hcode := congrArg Prod.fst he
      dsimp only at hcode
      omega
    constructor
    · intro hc j hj
      obtain rfl := Option.some.inj (hi.symm.trans hj)
      obtain ⟨k, hk, hcleared⟩ := hc.2 hsome
      rw [hfind] at hk
      rw [Int.ofNat.inj hk]
      exact ⟨by rw [← Int.ofNat.inj hk]; exact hpos, hcleared.set⟩
    · intro hfits
      have hle : i % 2 ^ 32 ≤ i := Nat.mod_le ..
      refine ⟨⟨fun he => absurd he hne, fun hnone => absurd hnone hsome⟩, fun _ => ⟨i % 2 ^ 32, ?_, ?_⟩⟩
      · rw [hfind]
      · rw [hfind]
        exact ⟨hle.trans_lt hmem, (hfits i hi).2, rfl, getBit_clrBit b _⟩

end Search

/-- A bitmap from which bits are taken and put back. -/
structure Handing where
  bitmap : Bitmap
  /-- History: the bits that are out, and all that have been set in between. -/
  out : List Nat
  put : List Nat

inductive Use where
  | take (hint : Nat)
  | put (i : Nat)

def Handing.use : Use → Handing → Option Handing
  | .take hint, s =>
    let r := s.bitmap.findNextSetAndClr hint
    if r.1 < 0 then some s else some ⟨r.2, r.1.toNat :: s.out, s.put⟩
  | .put i, s => some ⟨s.bitmap.setBit i, s.out.erase i, i :: s.put⟩

/-- Every search finds an index that fits; any bit of the words may be set. -/
def Handing.ok (s : Handing) : Use → Prop
  | .take hint => hint ≤ 64 * s.bitmap.wordsLength ∧ Fits s.bitmap hint
  | .put i => i < 64 * s.bitmap.wordsLength

/-- No bit is out twice, and a bit is set exactly if it was set before and is not out, so that a
search that fails has handed out all of them. -/
structure Handing.Exact (b : Bitmap) (s : Handing) : Prop where
  nodup : s.out.Nodup
  length : s.bitmap.wordsLength = b.wordsLength
  bits : ∀ i, s.bitmap.getBit i = true ↔ (b.getBit i = true ∨ i ∈ s.put) ∧ i ∉ s.out
  failing : ∀ hint, s.ok (.take hint) → s.bitmap.findNextSetAndClr hint = (-1, s.bitmap) →
    ∀ i < 64 * b.wordsLength, b.getBit i = true ∨ i ∈ s.put → i ∈ s.out

section Run
variable {b : Bitmap} {s s' : Handing} {u : Use}

theorem Handing.exact_of_bits (hnodup : s.out.Nodup) (hlength : s.bitmap.wordsLength = b.wordsLength)
    (hbits : ∀ i, s.bitmap.getBit i = true ↔ (b.getBit i = true ∨ i ∈ s.put) ∧ i ∉ s.out) :
    s.Exact b := by
  refine ⟨hnodup, hlength, hbits, fun hint hok hfail i hi hslot => ?_⟩
  have hnone := ((searchComplete_iff hok.1).mpr hok.2).1.mp hfail
  by_contra hout
  have hset := (hbits i).mpr ⟨hslot, hout⟩
  rw [hnone i (by rw [hlength]; exact hi)] at hset
  cases hset

theorem Handing.Exact.use (h : s.Exact b) (hok : s.ok u) (hs : Handing.use u s = some s') : s'.Exact b := by
  cases u with
  | take hint =>
    have hc := (searchComplete_iff hok.1).mpr hok.2
    simp only [Handing.use] at hs
    by_cases hnone : s.bitmap.NoneSet
    · have hneg : (s.bitmap.findNextSetAndClr hint).1 < 0 := by
        rw [hc.1.mpr hnone]
        exact Int.negSucc_lt_zero 0
      rw [if_pos hneg] at hs
      obtain rfl := Option.some.inj hs
      exact h
    · obtain ⟨i, hi, hcl⟩ := hc.2 hnone
      rw [hi, if_neg (by omega), Int.toNat_natCast] at hs
      obtain rfl := Option.some.inj hs
      obtain ⟨_, hout⟩ := (h.bits i).mp hcl.set
      apply exact_of_bits
      · exact List.nodup_cons.mpr ⟨hout, h.nodup⟩
      · exact hcl.length.trans h.length
      · intro j
        simp only [hcl.bits, Bool.and_eq_true, decide_eq_true_eq, h.bits, List.mem_cons, not_or]
        exact ⟨fun ⟨⟨hslot, ho⟩, hne⟩ => ⟨hslot, hne, ho⟩, fun ⟨hslot, hne, ho⟩ => ⟨⟨hslot, ho⟩, hne⟩⟩
  | put i =>
    obtain rfl := Option.some.inj hs
    apply exact_of_bits
    · exact h.nodup.erase i
    · exact h.length
    · intro j
      simp only [getBit_setBit, Bool.or_eq_true, decide_eq_true_eq, h.bits, h.nodup.mem_erase_iff,
        List.mem_cons]
      by_cases hj : j = i
      · simp [hj]
      · simp [hj]

/-- A search is complete exactly when the index that it finds fits, and searches that do hand out
every set bit before they fail. -/
theorem search_complete (b : Bitmap) :
    (∀ hint ≤ 64 * b.wordsLength, SearchComplete b hint ↔ Fits b hint) ∧
      ∀ s, Run Handing.use Handing.ok ⟨b, [], []⟩ s → s.Exact b := by
  refine ⟨fun hint hhint => searchComplete_iff hhint, fun s hrun => ?_⟩
  apply hrun.invariant
  · exact Handing.exact_of_bits List.nodup_nil rfl fun i => by simp
  · exact fun s u s' h hok hs => h.use hok hs

/-- A channel of depth 64: the bitmap hands out bit 0 first. -/
theorem first_take_complete : SearchComplete (bitmapConstructor 64) 0 ∧
    ∃ s, Run Handing.use Handing.ok ⟨bitmapConstructor 64, [], []⟩ s ∧ s.out = [0] ∧
      s.Exact (bitmapConstructor 64) := by
  have hshort : 64 * (bitmapConstructor 64).wordsLength ≤ 2 ^ 31 := by decide
  obtain ⟨hone, hruns⟩ := search_complete (bitmapConstructor 64)
  have hrun : Run Handing.use Handing.ok ⟨bitmapConstructor 64, [], []⟩
      ⟨((bitmapConstructor 64).findNextSetAndClr 0).2, [0], []⟩ :=
    .next (.take 0) .start ⟨Nat.zero_le _, fits_of_short hshort (Nat.zero_le _)⟩ rfl
  exact ⟨(hone 0 (Nat.zero_le _)).mpr (fits_of_short hshort (Nat.zero_le _)), _, hrun, rfl, hruns _ hrun⟩

end Run

/-- With a hint of 2^31 a bitmap that is one word longer is searched in vain, with all bits set. -/
theorem bit31_not_found : ¬ SearchComplete (bitmapConstructor 0x80000040) 0x80000000 := by
  have hlen : (bitmapConstructor 0x80000040).wordsLength = 0x2000001 := rfl
  have hfind : ((bitmapConstructor 0x80000040).searchOrder 0x80000000).find?
      (bitmapConstructor 0x80000040).getBit = some 0x80000000 := by
    have hhead : (List.range' (64 * (0x80000000 / 64)) (64 * 0x2000001 - 64 * (0x80000000 / 64))).find?
        (bitmapConstructor 0x80000040).getBit = some 0x80000000 := by
      rw [List.find?_range'_eq_some, List.mem_range'_1]
      exact ⟨getBit_bitmapConstructor _ _, by decide, fun j hj hlt => by omega⟩
    rw [Bitmap.searchOrder, hlen, List.find?_append, hhead, Option.some_or]
  intro hc
  have hfits := (searchComplete_iff (by rw [hlen]; decide)).mp hc
  exact absurd (hfits _ hfind).1 (by decide)

end ZCell.Liboss
