import ZCell.Allocator

/-! Loading a bitmap entry by entry, as mount does: the bits are those of the image and the
free count is the number of zero bits below `nrTotal`. -/
namespace ZCell.Allocator

/-- The zero bits at positions `i` to `i+n-1`. -/
def zeroCount (bs : Nat → BitVec 512) (i n : Nat) : Nat :=
  ((List.range' i n).filter fun j => !bit bs j).length

theorem zeroCount_add (bs : Nat → BitVec 512) (i m n : Nat) :
    zeroCount bs i (m + n) = zeroCount bs i m + zeroCount bs (i + m) n := by
  have h : List.range' i (m + n) = List.range' i m ++ List.range' (i + m) n := by
    simp
  rw [zeroCount, h, List.filter_append, List.length_append]
  rfl

theorem zeroCount_one (bs : Nat → BitVec 512) (i : Nat) :
    zeroCount bs i 1 = if bit bs i then 0 else 1 := by
  cases h : bit bs i <;> simp [zeroCount, h]

theorem zeroCount_clear {bs : Nat → BitVec 512} {i n : Nat}
    (h : ∀ j, i ≤ j → j < i + n → bit bs j = false) : zeroCount bs i n = n := by
  rw [zeroCount, List.filter_eq_self.mpr]
  · simp
  · intro j hj
    rw [List.mem_range'_1] at hj
    simp [h j hj.1 hj.2]

theorem zeroCount_congr {bs bs' : Nat → BitVec 512} {i n : Nat}
    (h : ∀ j, i ≤ j → j < i + n → bit bs j = bit bs' j) :
    zeroCount bs i n = zeroCount bs' i n := by
  unfold zeroCount
  congr 1
  apply List.filter_congr
  intro j hj
  rw [List.mem_range'_1] at hj
  rw [h j hj.1 hj.2]

theorem freeCount_eq (bs : Nat → BitVec 512) (n : Nat) : freeCount bs n = zeroCount bs 0 n := by
  rw [freeCount, zeroCount, List.range_eq_range']

/-- The bits of an empty word are zero. -/
theorem bit_of_wordEmpty {bs : Nat → BitVec 512} {i j : Nat} (h : wordEmpty bs i = true)
    (hj : j / 64 = i / 64) : bit bs j = false := by
  have he : (bs (i / 512)).extractLsb' (64 * (i % 512 / 64)) 64 = 0 := by
    simpa [wordEmpty] using h
  have hb := congrArg (fun v => v.getLsbD (j % 64)) he
  have hm : j % 64 < 64 := Nat.mod_lt _ (by decide)
  have hpos : 64 * (i % 512 / 64) + j % 64 = j % 512 := by omega
  have hent : i / 512 = j / 512 := by omega
  simp only [BitVec.getLsbD_extractLsb', hm, hpos, hent] at hb
  simpa [bit] using hb

/-- The loop counts the zero bits of its range. Inside a word it is only when the word is not
empty or reaches the end of the range. -/
theorem countFree_eq (bs : Nat → BitVec 512) (stop n i : Nat) (hn : stop ≤ i + n)
    (hi : i % 64 = 0 ∨ wordEmpty bs i = false ∨ stop ≤ i / 64 * 64 + 64) :
    countFree bs stop n i = zeroCount bs i (stop - i) := by
  induction n generalizing i with
  | zero =>
    have hz : stop - i = 0 := by omega
    simp [countFree, hz, zeroCount]
  | succ n ih =>
    unfold countFree
    split
    · rename_i hlt
      split
      · rename_i hskip
        have hal : i % 64 = 0 := by
          obtain h | h | h := hi
          · exact h
          · rw [h] at hskip
            exact absurd hskip.2 (by decide)
          · omega
        have hcut : stop - i = 64 + (stop - (i + 64)) := by omega
        have hword : zeroCount bs i 64 = 64 := by
          apply zeroCount_clear
          intro j h1 h2
          exact bit_of_wordEmpty hskip.2 (by omega)
        rw [ih (i + 64) (by omega) (Or.inl (by omega)), hcut, zeroCount_add, hword]
      · rename_i hno
        have hcut : stop - i = 1 + (stop - (i + 1)) := by omega
        rw [hcut, zeroCount_add, zeroCount_one, ih (i + 1) (by omega)]
        by_cases hal : (i + 1) % 64 = 0
        · exact Or.inl hal
        · right
          have hw : wordEmpty bs (i + 1) = wordEmpty bs i := by
            have h1 : (i + 1) / 512 = i / 512 := by omega
            have h2 : (i + 1) % 512 / 64 = i % 512 / 64 := by omega
            simp only [wordEmpty, h1, h2]
          rw [hw]
          obtain h | h | h := hi
          · by_cases hempty : wordEmpty bs i = true
            · right
              have hend : ¬ i + 64 < stop := fun h => hno ⟨h, hempty⟩
              omega
            · exact Or.inl (by simpa using hempty)
          · exact Or.inl h
          · right
            omega
    · have hz : stop - i = 0 := by omega
      simp [hz, zeroCount]

/-- The loop of mount over the first `n` entries of a bitmap. -/
def loadEntries (src : Nat → BitVec 512) (n : Nat) (a : StupidAllocator) : StupidAllocator :=
  (List.range n).foldl (fun a i => stupidAllocatorInitBitmapEntry a i (src i)) a

theorem loadEntries_spec (b src : Nat → BitVec 512) (nrTotal n : Nat)
    (hn : n ≤ (nrTotal + 511) / 512) :
    loadEntries src n (stupidAllocatorConstructor b nrTotal) =
      { stupidAllocatorConstructor b nrTotal with
        bs := fun k => if k < n then src k else b k
        nrFree := zeroCount (fun k => if k < n then src k else b k) 0 (min (n * 512) nrTotal) } := by
  induction n with
  | zero => simp [loadEntries, stupidAllocatorConstructor, zeroCount]
  | succ n ih =>
    have hih := ih (by omega)
    unfold loadEntries at hih ⊢
    rw [List.range_succ, List.foldl_append, hih]
    have hbs : Function.update (fun k => if k < n then src k else b k) n (src n) =
        fun k => if k < n + 1 then src k else b k := by
      funext k
      by_cases hk : k = n
      · subst hk
        simp
      · rw [Function.update_of_ne hk]
        have hiff : k < n + 1 ↔ k < n := by omega
        simp only [hiff]
    have hstop : (if nrTotal < (n + 1) * 512 then nrTotal else (n + 1) * 512) =
        min ((n + 1) * 512) nrTotal := by
      split <;> omega
    have hprev : zeroCount (fun k => if k < n then src k else b k) 0 (min (n * 512) nrTotal) =
        zeroCount (fun k => if k < n + 1 then src k else b k) 0 (n * 512) := by
      rw [Nat.min_eq_left (by omega)]
      apply zeroCount_congr
      intro j _ hj
      have h1 : j / 512 < n := by omega
      have h2 : j / 512 < n + 1 := by omega
      simp only [bit, h1, h2, if_true]
    have hcut : min ((n + 1) * 512) nrTotal = n * 512 + (min ((n + 1) * 512) nrTotal - n * 512) := by
      omega
    simp only [List.foldl_cons, List.foldl_nil, stupidAllocatorInitBitmapEntry,
      stupidAllocatorConstructor, hbs, hstop]
    rw [countFree_eq _ _ _ _ (by omega) (Or.inl (by omega)), hprev, hcut, zeroCount_add]
    simp

/-- Once every entry has been loaded, the free count is the number of zero bits of the image at the
positions below `nrTotal`, whatever the other bits are. -/
theorem load_nrFree (b src : Nat → BitVec 512) (nrTotal : Nat) :
    (loadEntries src (stupidAllocatorConstructor b nrTotal).nrEntrys
      (stupidAllocatorConstructor b nrTotal)).nrFree = freeCount src nrTotal := by
  have hentrys : (stupidAllocatorConstructor b nrTotal).nrEntrys = (nrTotal + 511) / 512 := rfl
  have hall : min ((nrTotal + 511) / 512 * 512) nrTotal = nrTotal := by omega
  rw [hentrys, loadEntries_spec b src nrTotal _ (Nat.le_refl _), freeCount_eq]
  simp only [hall]
  apply zeroCount_congr
  intro j _ hj
  have hk : j / 512 < (nrTotal + 511) / 512 := by omega
  simp only [bit, hk, if_true]

/-- A device of 70 blocks: the first word is empty and is counted in one step, and of the second one
only 6 bits count. -/
example : (loadEntries (fun _ => BitVec.twoPow 512 65 ||| BitVec.twoPow 512 70) 1
    (stupidAllocatorConstructor (fun _ => 0) 70)).nrFree = 69 := by decide +kernel

end ZCell.Allocator
