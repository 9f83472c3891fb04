import ZCell.AllocatorCount

/-! A call of `stupid_alloc_space` that fails. The scan sets bits as it goes, and those it has set
before it runs out of positions stay set. -/
namespace ZCell.Allocator

/-- A call that returns an error leaves the bitmap, the free count and the hint as they were. -/
def FailsClean (a : StupidAllocator) (sz : Nat) : Prop :=
  (stupidAllocSpace a sz).1 ≠ 0 →
    (∀ i, bit (stupidAllocSpace a sz).2.1.bs i = bit a.bs i) ∧
    (stupidAllocSpace a sz).2.1.nrFree = a.nrFree ∧ (stupidAllocSpace a sz).2.1.hint = a.hint

/-- Outside of full words the scan comes to a free block first. -/
def freeFirst (nrTotal last : Nat) : Nat → (Nat → BitVec 512) → Nat → Bool
  | 0, _, _ => false
  | n+1, bs, it =>
    if last ≤ it then false
    else if wordFull bs (it % nrTotal) then freeFirst nrTotal last n bs (it + 65)
    else !bit bs (it % nrTotal)

def StupidAllocator.freeFirst (a : StupidAllocator) : Bool :=
  Allocator.freeFirst a.nrTotal (a.nrTotal + a.hint) a.nrTotal a.bs a.hint

section Zero
variable {nrTotal last : Nat}

/-- A scan for no blocks that has taken one never gets to its end: the counter is past zero. -/
theorem scanLoop_past (n : Nat) (s : Scan) (hend : s.endFlag = false) (hrsv : 0 < s.rsvLen) :
    (scanLoop nrTotal last 0 n s).2 = none ∧
    (scanLoop nrTotal last 0 n s).1.bs = setAll s.bs (freeOnPath nrTotal last n s.bs s.it) := by
  induction n generalizing s with
  | zero => simp [scanLoop, freeOnPath, setAll]
  | succ n ih =>
    by_cases hit : s.it < last
    · have hgo : ¬ last ≤ s.it := by omega
      simp only [freeOnPath, if_neg hgo]
      cases hfull : wordFull s.bs (s.it % nrTotal) with
      | true =>
        rw [scanLoop_go hit (scanRound_full hfull)]
        exact ih { s with it := s.it + 65 } hend hrsv
      | false =>
        cases hbit : bit s.bs (s.it % nrTotal) with
        | true =>
          have hne : (s.rsvLen == 0) = false := beq_eq_false_iff_ne.mpr (by omega)
          rw [scanLoop_go hit (scanRound_close hfull hend hbit)]
          exact ih { s with it := s.it + 1, inFoundCtx := false, endFlag := s.rsvLen == 0 } hne hrsv
        | false =>
          rw [scanLoop_go hit (scanRound_take hfull hend hbit)]
          obtain ⟨h1, h2⟩ := ih { s with
            it := s.it + 1
            bs := setBit s.bs (s.it % nrTotal)
            ex := grow (if s.inFoundCtx then s.ex else ⟨s.it % nrTotal, 0⟩ :: s.ex)
            inFoundCtx := true
            rsvLen := s.rsvLen + 1
            endFlag := s.rsvLen + 1 == 0 } (beq_eq_false_iff_ne.mpr (by omega)) (Nat.succ_pos _)
          exact ⟨h1, h2⟩
    · simp [scanLoop, freeOnPath, hit, Nat.le_of_not_lt, setAll]

/-- A scan for no blocks: it takes everything it comes to, or nothing. -/
theorem scanLoop_zero (n : Nat) (s : Scan) (hend : s.endFlag = false) (hrsv : s.rsvLen = 0) :
    if freeFirst nrTotal last n s.bs s.it then
      (scanLoop nrTotal last 0 n s).2 = none ∧
        (scanLoop nrTotal last 0 n s).1.bs = setAll s.bs (freeOnPath nrTotal last n s.bs s.it)
    else (scanLoop nrTotal last 0 n s).1.bs = s.bs := by
  induction n generalizing s with
  | zero => simp [scanLoop, freeFirst]
  | succ n ih =>
    by_cases hit : s.it < last
    · have hgo : ¬ last ≤ s.it := by omega
      simp only [freeFirst, freeOnPath, if_neg hgo]
      cases hfull : wordFull s.bs (s.it % nrTotal) with
      | true =>
        rw [scanLoop_go hit (scanRound_full hfull)]
        exact ih { s with it := s.it + 65 } hend hrsv
      | false =>
        cases hbit : bit s.bs (s.it % nrTotal) with
        | true =>
          rw [scanLoop_go hit (scanRound_close hfull hend hbit)]
          obtain ⟨_, hbs, _⟩ := @scanLoop_end nrTotal last 0 n
            { s with it := s.it + 1, inFoundCtx := false, endFlag := s.rsvLen == 0 }
            (beq_iff_eq.mpr hrsv) none
          exact hbs
        | false =>
          rw [scanLoop_go hit (scanRound_take hfull hend hbit)]
          exact scanLoop_past n { s with
            it := s.it + 1
            bs := setBit s.bs (s.it % nrTotal)
            ex := grow (if s.inFoundCtx then s.ex else ⟨s.it % nrTotal, 0⟩ :: s.ex)
            inFoundCtx := true
            rsvLen := s.rsvLen + 1
            endFlag := s.rsvLen + 1 == 0 } (beq_eq_false_iff_ne.mpr (by omega)) (Nat.succ_pos _)
    · simp [scanLoop, freeFirst, hit, Nat.le_of_not_lt]

theorem freeFirst_met (n : Nat) (bs : Nat → BitVec 512) (it : Nat)
    (h : freeFirst nrTotal last n bs it = true) : freeOnPath nrTotal last n bs it ≠ [] := by
  induction n generalizing it with
  | zero => simp [freeFirst] at h
  | succ n ih =>
    simp only [freeFirst, freeOnPath] at h ⊢
    split at h
    · cases h
    · rename_i hgo
      rw [if_neg hgo]
      split at h
      · rename_i hfull
        rw [if_pos hfull]
        exact ih _ h
      · rename_i hfull
        have hbit : bit bs (it % nrTotal) = false := by simpa using h
        simp [hfull, hbit]

end Zero

section Failed
variable {a : StupidAllocator} {sz : Nat}

theorem freeMet_free {b : Nat} (h : b ∈ freeMet a) : bit a.bs b = false := by
  rw [freeMet_takes] at h
  exact (takes_free h).2

/-- Nothing is asked for. -/
theorem failsClean_zero (a : StupidAllocator) : FailsClean a 0 ↔ a.freeFirst = false := by
  have hspec := @scanLoop_zero a.nrTotal (a.nrTotal + a.hint) a.nrTotal
    ⟨a.bs, a.hint, 0, [], false, false⟩ rfl rfl
  have hmet := @freeFirst_met a.nrTotal (a.nrTotal + a.hint) a.nrTotal a.bs a.hint
  have hfree : ∀ b ∈ freeMet a, bit a.bs b = false := fun b hb => freeMet_free hb
  unfold FailsClean stupidAllocSpace StupidAllocator.freeFirst
  rw [if_neg (Nat.not_lt_zero _)]
  unfold freeMet at hfree
  generalize freeFirst a.nrTotal (a.nrTotal + a.hint) a.nrTotal a.bs a.hint = first at hspec hmet ⊢
  generalize scanLoop a.nrTotal (a.nrTotal + a.hint) 0 a.nrTotal ⟨a.bs, a.hint, 0, [], false, false⟩ =
    res at hspec ⊢
  obtain ⟨s, r⟩ := res
  cases first with
  | true =>
    simp only [if_true] at hspec
    obtain ⟨rfl, hbs⟩ := hspec
    simp only [hbs, Bool.true_eq_false, iff_false]
    intro h
    exact hmet rfl ((setAll_same_iff hfree).mp (h (by decide)).1)
  | false =>
    simp only [Bool.false_eq_true, if_false] at hspec
    simp only [iff_true]
    cases r with
    | none => exact fun _ => ⟨fun i => congrArg (bit · i) hspec, rfl, rfl⟩
    | some i => exact fun h => absurd rfl h

/-- A failed call leaves the allocator alone exactly when it looks at nothing, because the count is too
low, or finds nothing to take on its way. -/
theorem failsClean_iff (a : StupidAllocator) (sz : Nat) : FailsClean a sz ↔
    a.nrFree < sz ∨ freeMet a = [] ∨ (0 < sz ∧ sz < (freeMet a).length) ∨
      (sz = 0 ∧ a.freeFirst = false) := by
  obtain rfl | hsz := Nat.eq_zero_or_pos sz
  · have hnil : freeMet a = [] → a.freeFirst = false := by
      intro h
      rw [Bool.eq_false_iff]
      exact fun hf => freeFirst_met _ _ _ hf h
    rw [failsClean_zero]
    constructor
    · exact fun h => Or.inr (Or.inr (Or.inr ⟨rfl, h⟩))
    · rintro (h | h | ⟨h, _⟩ | ⟨_, h⟩)
      · exact absurd h (Nat.not_lt_zero _)
      · exact hnil h
      · exact absurd h (Nat.lt_irrefl 0)
      · exact h
  · by_cases hfew : a.nrFree < sz
    · refine iff_of_true (fun _ => ?_) (Or.inl hfew)
      rw [alloc_of_few hfew]
      exact ⟨fun _ => rfl, rfl, rfl⟩
    · by_cases hroom : HasRoom a sz
      · have hlt := ((hasRoom_iff a sz).mp hroom).2
        exact iff_of_true (fun h => absurd ((alloc_zero_iff hsz).mpr hroom) h)
          (Or.inr (Or.inr (Or.inl ⟨hsz, hlt⟩)))
      · have hge : ¬ sz < (freeMet a).length := fun h =>
          hroom ((hasRoom_iff a sz).mpr ⟨Nat.le_of_not_lt hfew, h⟩)
        have hnil : takes a sz = [] ↔ freeMet a = [] := by
          rw [takes_freeMet, List.take_of_length_le (Nat.le_of_not_lt hge)]
        have hsame := setAll_same_iff (a := a) (l := takes a sz) fun b hb => (takes_free hb).2
        rw [FailsClean, alloc_of_no_room hsz (Nat.le_of_not_lt hfew) hroom, hsame, hnil]
        constructor
        · exact fun h => Or.inr (Or.inl (h (by simp [Status.code])).1)
        · rintro (h | h | ⟨_, h⟩ | ⟨h, _⟩)
          · exact absurd h hfew
          · exact fun _ => ⟨h, rfl, rfl⟩
          · exact absurd h hge
          · omega

/-- All blocks of an empty device are asked for: there is none left for the next hint, and all of them
stay marked while `nr_free_` still counts them. -/
theorem small_not_failsClean : Counted small ∧ small.hint < small.nrTotal ∧
    (stupidAllocSpace small 512).1 = Status.ostoreNoSpace.code ∧
    (stupidAllocSpace small 512).2.1.nrFree = 512 ∧
    freeCount (stupidAllocSpace small 512).2.1.bs 512 = 0 ∧ ¬ FailsClean small 512 := by
  refine ⟨?_, by decide, by decide +kernel, by decide +kernel, by decide +kernel, fun h => ?_⟩
  · unfold Counted
    decide +kernel
  · have hbit := (h (by decide +kernel)).1 0
    revert hbit
    decide +kernel

end Failed

end ZCell.Allocator
