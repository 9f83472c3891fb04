import Mathlib.Data.List.Perm.Subperm
import ZCell.AllocatorSpec

/-! The free count through an allocation and a release: `nr_free_` follows the zero bits as long
as only marked blocks are released, each once. How many free blocks a scan gets to see, and with
it when an allocation succeeds. -/
namespace ZCell.Allocator

/-- The blocks are marked blocks of the device, and none is listed twice. -/
def Releasable (a : StupidAllocator) (l : List Nat) : Prop :=
  l.Nodup ∧ ∀ b ∈ l, b < a.nrTotal ∧ bit a.bs b = true

instance (a : StupidAllocator) (l : List Nat) : Decidable (Releasable a l) :=
  inferInstanceAs (Decidable (_ ∧ _))

/-- `nr_free_` is the number of zero bits below `nr_total_`. -/
def Counted (a : StupidAllocator) : Prop := a.nrFree = freeCount a.bs a.nrTotal

section Bits
variable {bs bs' : Nat → BitVec 512} {i n : Nat} {l : List Nat}

theorem freeCount_succ (bs : Nat → BitVec 512) (n : Nat) :
    freeCount bs (n + 1) = freeCount bs n + if bit bs n then 0 else 1 := by
  rw [freeCount, List.range_succ, List.filter_append, List.length_append]
  cases hb : bit bs n <;> simp [freeCount, hb]

theorem freeCount_congr (h : ∀ j < n, bit bs j = bit bs' j) : freeCount bs n = freeCount bs' n := by
  unfold freeCount
  congr 1
  apply List.filter_congr
  intro j hj
  rw [h j (List.mem_range.mp hj)]

theorem freeCount_clearBit (bs : Nat → BitVec 512) (i n : Nat) : freeCount (clearBit bs i) n =
    freeCount bs n + if i < n ∧ bit bs i = true then 1 else 0 := by
  induction n with
  | zero => simp [freeCount]
  | succ n ih =>
    rw [freeCount_succ, freeCount_succ, ih, bit_clearBit]
    by_cases hi : n = i
    · subst hi
      cases hb : bit bs n <;> simp
    · have hiff : i < n + 1 ↔ i < n := by omega
      simp only [hi, hiff, ne_eq, not_false_eq_true, decide_true, Bool.and_true]
      omega

/-- A release adds at most as many zero bits as it lists blocks. -/
theorem freeCount_clearAll_le (bs : Nat → BitVec 512) (l : List Nat) (n : Nat) :
    freeCount (clearAll bs l) n ≤ freeCount bs n + l.length := by
  induction l generalizing bs with
  | nil => exact Nat.le_refl _
  | cons i l ih =>
    have h := ih (clearBit bs i)
    rw [freeCount_clearBit] at h
    simp only [clearAll, List.foldl_cons, List.length_cons] at h ⊢
    split at h <;> omega

/-- It adds as many exactly when they were all set, below the bound, and listed once. -/
theorem freeCount_clearAll_iff (bs : Nat → BitVec 512) (l : List Nat) (n : Nat) :
    freeCount (clearAll bs l) n = freeCount bs n + l.length ↔
      l.Nodup ∧ ∀ b ∈ l, b < n ∧ bit bs b = true := by
  induction l generalizing bs with
  | nil => simp [clearAll]
  | cons i l ih =>
    have h := ih (clearBit bs i)
    have hle := freeCount_clearAll_le (clearBit bs i) l n
    have htail : clearAll bs (i :: l) = clearAll (clearBit bs i) l := rfl
    rw [freeCount_clearBit] at h hle
    rw [htail, List.length_cons, List.nodup_cons, List.forall_mem_cons]
    by_cases hi : i < n ∧ bit bs i = true
    · rw [if_pos hi] at h
      have hcount : freeCount (clearAll (clearBit bs i) l) n = freeCount bs n + (l.length + 1) ↔
          freeCount (clearAll (clearBit bs i) l) n = freeCount bs n + 1 + l.length := by omega
      rw [hcount, h]
      constructor
      · rintro ⟨hnd, hall⟩
        refine ⟨⟨fun hin => ?_, hnd⟩, hi, fun b hb => ?_⟩
        · have hbit := (hall i hin).2
          rw [bit_clearBit] at hbit
          simp at hbit
        · obtain ⟨hlt, hbit⟩ := hall b hb
          rw [bit_clearBit] at hbit
          exact ⟨hlt, (Bool.and_eq_true_iff.mp hbit).1⟩
      · rintro ⟨⟨hno, hnd⟩, -, hall⟩
        refine ⟨hnd, fun b hb => ⟨(hall b hb).1, ?_⟩⟩
        have hne : b ≠ i := by
          rintro rfl
          exact hno hb
        rw [bit_clearBit, (hall b hb).2, decide_eq_true hne]
        rfl
    · rw [if_neg hi] at hle
      constructor
      · intro heq
        omega
      · rintro ⟨-, h1, -⟩
        exact absurd h1 hi

theorem freeCount_setAll (hnd : l.Nodup) (hfree : ∀ b ∈ l, b < n ∧ bit bs b = false) :
    freeCount (setAll bs l) n + l.length = freeCount bs n := by
  have hback : clearAll (setAll bs l) l = bs := by
    apply bitmap_ext
    intro b
    rw [bit_clearAll, bit_setAll]
    by_cases hb : b ∈ l
    · simp [hb, (hfree b hb).2]
    · simp [hb]
  have h := (freeCount_clearAll_iff (setAll bs l) l n).mpr ⟨hnd, fun b hb => ⟨(hfree b hb).1, by
    rw [bit_setAll, decide_eq_true hb, Bool.or_true]⟩⟩
  rw [hback] at h
  exact h.symm

end Bits

section Calls
variable {a : StupidAllocator} {sz : Nat} {ex : List Extent}

/-- A successful call keeps the distance between the free count and the zero bits. -/
theorem alloc_counted (hsz : 1 ≤ sz) (h : HasRoom a sz) :
    (stupidAllocSpace a sz).2.1.nrFree + freeCount a.bs a.nrTotal =
      a.nrFree + freeCount (stupidAllocSpace a sz).2.1.bs a.nrTotal := by
  obtain ⟨i, _, hi⟩ := alloc_of_room hsz h
  have hcount := freeCount_setAll (takes_nodup a sz) (fun b hb => takes_free hb)
  have hlen := takes_length h
  have hle := h.1
  rw [hi]
  simp only
  omega

theorem release_counted (ex : List Extent) (h : freeCount a.bs a.nrTotal ≤ a.nrFree) :
    freeCount (stupidFreeSpace a ex).bs a.nrTotal ≤ (stupidFreeSpace a ex).nrFree ∧
    (Counted (stupidFreeSpace a ex) ↔ Counted a ∧ Releasable a (blocks ex)) := by
  have hle := freeCount_clearAll_le a.bs (blocks ex) a.nrTotal
  have hiff := freeCount_clearAll_iff a.bs (blocks ex) a.nrTotal
  simp only [stupidFreeSpace, Counted, Releasable, ← hiff]
  omega

end Calls

/-- The free blocks on the path of the scan: it marks every free block it comes to, and at a full
word it goes 65 positions ahead. -/
def freeOnPath (nrTotal last : Nat) : Nat → (Nat → BitVec 512) → Nat → List Nat
  | 0, _, _ => []
  | n+1, bs, it =>
    if last ≤ it then []
    else if wordFull bs (it % nrTotal) then freeOnPath nrTotal last n bs (it + 65)
    else if bit bs (it % nrTotal) then freeOnPath nrTotal last n bs (it + 1)
    else it % nrTotal :: freeOnPath nrTotal last n (setBit bs (it % nrTotal)) (it + 1)

/-- The free blocks that a scan of the whole device comes to. -/
def freeMet (a : StupidAllocator) : List Nat :=
  freeOnPath a.nrTotal (a.nrTotal + a.hint) a.nrTotal a.bs a.hint

section Met
variable {nrTotal last : Nat}

/-- A call takes the first ones. -/
theorem walk_takes (n : Nat) (bs : Nat → BitVec 512) (it need : Nat) (prev : Option Nat) :
    (walk nrTotal last n bs it need prev).map Prod.snd =
      (freeOnPath nrTotal last n bs it).take need := by
  induction n generalizing bs it need prev with
  | zero => simp [walk, freeOnPath]
  | succ n ih =>
    cases need with
    | zero => simp [walk]
    | succ need =>
      by_cases hl : last ≤ it
      · simp [walk, freeOnPath, hl]
      · have hgo : ¬ (need + 1 = 0 ∨ last ≤ it) := by omega
        simp only [walk, freeOnPath, if_neg hgo, if_neg hl]
        split
        · exact ih bs (it + 65) (need + 1) prev
        · split
          · exact ih bs (it + 1) (need + 1) none
          · rw [List.map_cons, List.take_succ_cons, ih]
            rfl

theorem freeOnPath_length (n : Nat) (bs : Nat → BitVec 512) (it : Nat) :
    (freeOnPath nrTotal last n bs it).length ≤ n := by
  induction n generalizing bs it with
  | zero => exact Nat.le_refl _
  | succ n ih =>
    simp only [freeOnPath]
    split
    · exact Nat.zero_le _
    · split
      · exact Nat.le_succ_of_le (ih bs (it + 65))
      · split
        · exact Nat.le_succ_of_le (ih bs (it + 1))
        · exact Nat.succ_le_succ (ih _ (it + 1))

end Met

theorem takes_freeMet (a : StupidAllocator) (sz : Nat) : takes a sz = (freeMet a).take sz :=
  walk_takes a.nrTotal a.bs a.hint sz none

theorem freeMet_takes (a : StupidAllocator) : freeMet a = takes a a.nrTotal := by
  have hlen : (freeMet a).length ≤ a.nrTotal := freeOnPath_length ..
  rw [takes_freeMet, List.take_of_length_le hlen]

/-- The scan sees no block twice, so it sees at most the free ones. -/
theorem freeMet_le (a : StupidAllocator) : (freeMet a).length ≤ freeCount a.bs a.nrTotal := by
  rw [freeMet_takes]
  refine (List.Nodup.subperm (takes_nodup a a.nrTotal) fun b hb => ?_).length_le
  obtain ⟨hlt, hbit⟩ := takes_free hb
  exact List.mem_filter.mpr ⟨List.mem_range.mpr hlt, by rw [hbit]; rfl⟩

theorem hasRoom_iff (a : StupidAllocator) (sz : Nat) :
    HasRoom a sz ↔ sz ≤ a.nrFree ∧ sz < (freeMet a).length := by
  have hlen : (reach a (sz + 1)).length = min (sz + 1) (freeMet a).length := by
    have h := congrArg List.length (takes_freeMet a (sz + 1))
    rwa [takes, List.length_map, List.length_take] at h
  rw [HasRoom, hlen]
  omega

/-- An allocation succeeds exactly when the scan comes to one free block more than it has to take;
so it never succeeds for all of them. -/
theorem alloc_succeeds_iff (a : StupidAllocator) (sz : Nat)
    (hcount : a.nrFree = freeCount a.bs a.nrTotal) (hsz : 1 ≤ sz) (hfree : sz ≤ a.nrFree) :
    ((stupidAllocSpace a sz).1 = 0 ↔ sz < (freeMet a).length) ∧
    (freeMet a).length ≤ a.nrFree := by
  refine ⟨?_, hcount ▸ freeMet_le a⟩
  rw [alloc_zero_iff hsz, hasRoom_iff]
  exact ⟨fun h => h.2, fun h => ⟨hfree, h⟩⟩

theorem sparse_succeeds : (stupidAllocSpace sparse 5).1 = 0 :=
  ((alloc_succeeds_iff sparse 5 (by decide +kernel) (by decide) (by decide)).1).mpr
    (by decide +kernel)

/-- An empty device of 512 blocks. -/
def small : StupidAllocator := ⟨fun _ => 0, 512, 512, 1, 0⟩

/-- Blocks 64 and 70 are the free ones of 512. The word before them is full, and the scan goes on
behind block 64. -/
def hidden : StupidAllocator :=
  ⟨fun _ => ~~~(BitVec.twoPow 512 64 ||| BitVec.twoPow 512 70), 2, 512, 1, 0⟩

theorem small_not_succeeds : Counted small ∧ small.hint < small.nrTotal ∧
    (stupidAllocSpace small 512).1 ≠ 0 ∧
    Counted hidden ∧ hidden.hint < hidden.nrTotal ∧ (stupidAllocSpace hidden 1).1 ≠ 0 := by
  refine ⟨?_, by decide, by decide +kernel, ?_, by decide, by decide +kernel⟩
  · unfold Counted
    decide +kernel
  · unfold Counted
    decide +kernel

end ZCell.Allocator
