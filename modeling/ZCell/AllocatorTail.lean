import ZCell.AllocatorSpec

/-! A bitmap that is free from some position on: a call for one block takes what the scan finds in
front of it, or its first block, and the next hint is the block behind. -/
namespace ZCell.Allocator

/-- All blocks from `start` on are free. -/
def FreeFrom (bs : Nat → BitVec 512) (start nrTotal : Nat) : Prop :=
  ∀ i, start ≤ i → i < nrTotal → bit bs i = false

theorem FreeFrom.mono {bs : Nat → BitVec 512} {start start' nrTotal : Nat} (h : FreeFrom bs start nrTotal)
    (hle : start ≤ start') : FreeFrom bs start' nrTotal := fun i hi => h i (Nat.le_trans hle hi)

theorem FreeFrom.setBit {bs : Nat → BitVec 512} {start b nrTotal : Nat} (h : FreeFrom bs start nrTotal)
    (hb : b < start) : FreeFrom (setBit bs b) start nrTotal := by
  intro i hi hlt
  rw [bit_setBit, h i hi hlt, decide_eq_false (by omega)]
  rfl

theorem FreeFrom.clearBit {bs : Nat → BitVec 512} {start nrTotal : Nat} (h : FreeFrom bs start nrTotal)
    (b : Nat) : FreeFrom (clearBit bs b) start nrTotal := by
  intro i hi hlt
  rw [bit_clearBit, h i hi hlt]
  rfl

section Scans
variable {nrTotal last sz start stop : Nat}

/-- How far a scan from `it` gets: a full word in front of `start` takes it at most 65 positions
ahead. -/
structure Reaches (start nrTotal it stop : Nat) : Prop where
  le : it ≤ stop
  jump : it < start → start + 64 ≤ stop
  lt : stop < nrTotal

theorem Reaches.advance {it k : Nat} (h : Reaches start nrTotal it stop) (hit : it < start) (hk : k ≤ 65) :
    Reaches start nrTotal (it + k) stop := by
  have hj := h.jump hit
  exact ⟨by omega, fun _ => hj, h.lt⟩

/-- A block that is not free is in front of `start`. -/
theorem lt_of_bit {bs : Nat → BitVec 512} {it : Nat} (hfree : FreeFrom bs start nrTotal)
    (hr : Reaches start nrTotal it stop) (hb : bit bs (it % nrTotal) = true) : it < start := by
  by_contra hge
  have hlt := Nat.lt_of_le_of_lt hr.le hr.lt
  rw [Nat.mod_eq_of_lt hlt, hfree it (Nat.le_of_not_lt hge) hlt] at hb
  cases hb

/-- Once the block has been taken, the scan ends at the next free one. -/
theorem scanLoop_seek {n : Nat} {s : Scan} (hend : s.endFlag = true) (hfree : FreeFrom s.bs start nrTotal)
    (hr : Reaches start nrTotal s.it stop) (hlast : nrTotal ≤ last) (hn : stop < s.it + n) :
    ∃ s' i, scanLoop nrTotal last sz n s = (s', some i) ∧ s'.bs = s.bs ∧ s'.ex = s.ex ∧
      s.it ≤ i ∧ i ≤ stop := by
  induction n generalizing s with
  | zero => exact absurd hr.le (by omega)
  | succ n ih =>
    have hlt := Nat.lt_of_le_of_lt hr.le hr.lt
    have hit : s.it < last := by omega
    cases hfull : wordFull s.bs (s.it % nrTotal) with
    | true =>
      have hs := lt_of_bit hfree hr (bit_of_wordFull hfull)
      rw [scanLoop_go hit (scanRound_full hfull)]
      obtain ⟨s', i, h1, h2, h3, h4, h5⟩ := ih (s := { s with it := s.it + 65 }) hend hfree
        (hr.advance hs (Nat.le_refl 65)) (by simp only; omega)
      exact ⟨s', i, h1, h2, h3, by simp only at h4; omega, h5⟩
    | false =>
      cases hbit : bit s.bs (s.it % nrTotal) with
      | true =>
        have hs := lt_of_bit hfree hr hbit
        rw [scanLoop_go hit (scanRound_seek hfull hend hbit)]
        obtain ⟨s', i, h1, h2, h3, h4, h5⟩ := ih (s := { s with it := s.it + 1 }) hend hfree
          (hr.advance hs (by omega)) (by simp only; omega)
        exact ⟨s', i, h1, h2, h3, by simp only at h4; omega, h5⟩
      | false =>
        refine ⟨s, s.it % nrTotal, ?_, rfl, rfl, ?_, ?_⟩
        · simp [scanLoop, hit, scanRound_hit hfull hend hbit]
        · exact Nat.le_of_eq (Nat.mod_eq_of_lt hlt).symm
        · exact Nat.le_trans (Nat.le_of_eq (Nat.mod_eq_of_lt hlt)) hr.le

/-- The scan for one block, up to the round that takes it. -/
theorem scanLoop_first {n : Nat} {s : Scan} (hend : s.endFlag = false) (hctx : s.inFoundCtx = false)
    (hrsv : s.rsvLen = 0) (hfree : FreeFrom s.bs start nrTotal) (hr : Reaches start nrTotal s.it stop)
    (hlast : nrTotal ≤ last) (hn : stop < s.it + n) :
    ∃ b m, s.it ≤ b ∧ b ≤ stop ∧ s.it + n ≤ b + 1 + m ∧ scanLoop nrTotal last 1 n s =
      scanLoop nrTotal last 1 m ⟨setBit s.bs b, b + 1, 1, ⟨b, 1⟩ :: s.ex, true, true⟩ := by
  induction n generalizing s with
  | zero => exact absurd hr.le (by omega)
  | succ n ih =>
    have hlt := Nat.lt_of_le_of_lt hr.le hr.lt
    have hit : s.it < last := by omega
    cases hfull : wordFull s.bs (s.it % nrTotal) with
    | true =>
      have hs := lt_of_bit hfree hr (bit_of_wordFull hfull)
      rw [scanLoop_go hit (scanRound_full hfull)]
      obtain ⟨b, m, h1, h2, h3, h4⟩ := ih (s := { s with it := s.it + 65 }) hend hctx hrsv hfree
        (hr.advance hs (Nat.le_refl 65)) (by simp only; omega)
      simp only at h1 h3
      exact ⟨b, m, by omega, h2, by omega, h4⟩
    | false =>
      cases hbit : bit s.bs (s.it % nrTotal) with
      | true =>
        have hs := lt_of_bit hfree hr hbit
        have hnot : (s.rsvLen == 1) = false := by rw [hrsv]; rfl
        rw [scanLoop_go hit (scanRound_close hfull hend hbit)]
        obtain ⟨b, m, h1, h2, h3, h4⟩ := ih
          (s := { s with it := s.it + 1, inFoundCtx := false, endFlag := s.rsvLen == 1 }) hnot rfl hrsv
          hfree (hr.advance hs (by omega)) (by simp only; omega)
        simp only at h1 h3
        exact ⟨b, m, by omega, h2, by omega, h4⟩
      | false =>
        refine ⟨s.it, n, Nat.le_refl _, hr.le, by omega, ?_⟩
        rw [scanLoop_go hit (scanRound_take hfull hend hbit)]
        simp [hrsv, hctx, grow, Nat.mod_eq_of_lt hlt]

/-- The end of a scan from `it`, in terms of the two positions. -/
theorem reaches_stop {it : Nat} (h : max (start + 64) it < nrTotal) :
    Reaches start nrTotal it (if it < start then start + 64 else it) := by
  split
  · exact ⟨by omega, fun _ => Nat.le_refl _, by omega⟩
  · rename_i hge
    exact ⟨Nat.le_refl _, fun hlt => absurd hlt hge, by omega⟩

end Scans

/-- One block of a device that is free from `start` on. With the hint behind `start` it is the block of
the hint. -/
theorem alloc_tail {a : StupidAllocator} {start : Nat} (hpos : 1 ≤ a.nrFree)
    (hfree : FreeFrom a.bs start a.nrTotal) (hroom : max (start + 64) a.hint + 1 < a.nrTotal) :
    ∃ b h, stupidAllocSpace a 1 =
        (0, { a with bs := setBit a.bs b, hint := h, nrFree := a.nrFree - 1 }, [⟨b, 1⟩]) ∧
      a.hint ≤ b ∧ b ≤ (if a.hint < start then start + 64 else a.hint) ∧
      b < h ∧ h ≤ (if b + 1 < start then start + 64 else b + 1) := by
  have hr := @reaches_stop a.nrTotal start a.hint (by omega)
  have hlast : a.nrTotal ≤ a.nrTotal + a.hint := Nat.le_add_right _ _
  obtain ⟨b, m, h1, h2, hm, hfirst⟩ := @scanLoop_first a.nrTotal (a.nrTotal + a.hint) start _ a.nrTotal
    ⟨a.bs, a.hint, 0, [], false, false⟩ rfl rfl rfl hfree hr hlast
    (Nat.lt_of_lt_of_le hr.lt (Nat.le_add_left _ _))
  -- what is free behind the block that has been taken
  obtain ⟨start', hfree', hstop⟩ : ∃ start', FreeFrom (setBit a.bs b) start' a.nrTotal ∧
      Reaches start' a.nrTotal (b + 1) (if b + 1 < start then start + 64 else b + 1) := by
    have hb : b + 1 < a.nrTotal := by
      split at h2
      · omega
      · omega
    by_cases hlt : b + 1 < start
    · rw [if_pos hlt]
      exact ⟨start, hfree.setBit (by omega), ⟨by omega, fun _ => Nat.le_refl _, by omega⟩⟩
    · rw [if_neg hlt]
      exact ⟨b + 1, (hfree.mono (Nat.le_of_not_lt hlt)).setBit (Nat.lt_succ_self b),
        ⟨Nat.le_refl _, fun h => absurd h (Nat.lt_irrefl _), hb⟩⟩
  obtain ⟨s', h, hloop, hbs, hex, h3, h4⟩ := @scanLoop_seek a.nrTotal (a.nrTotal + a.hint) 1 start' _ m
    ⟨setBit a.bs b, b + 1, 1, [⟨b, 1⟩], true, true⟩ rfl hfree' hstop hlast (by
      have hlt := hstop.lt
      simp only at hm ⊢
      omega)
  refine ⟨b, h, ?_, h1, h2, h3, h4⟩
  have hno : ¬ a.nrFree < 1 := by omega
  simp only [stupidAllocSpace, if_neg hno, hfirst, hloop, hbs, hex]
  rfl

/-- One block, when the block of the hint and the one behind it, round the end of the device, are
free. -/
theorem alloc_next {a : StupidAllocator} (hpos : 1 ≤ a.nrFree) (htwo : 2 ≤ a.nrTotal)
    (hlt : a.hint < a.nrTotal) (hfree : bit a.bs a.hint = false)
    (hnext : bit a.bs ((a.hint + 1) % a.nrTotal) = false) :
    stupidAllocSpace a 1 = (0, { a with
      bs := setBit a.bs a.hint
      hint := (a.hint + 1) % a.nrTotal
      nrFree := a.nrFree - 1 }, [⟨a.hint, 1⟩]) := by
  have hmod : a.hint % a.nrTotal = a.hint := Nat.mod_eq_of_lt hlt
  have hne : (a.hint + 1) % a.nrTotal ≠ a.hint := by
    obtain hin | hend : a.hint + 1 < a.nrTotal ∨ a.hint + 1 = a.nrTotal := by omega
    · rw [Nat.mod_eq_of_lt hin]
      omega
    · rw [hend, Nat.mod_self]
      omega
  have hbit : bit (setBit a.bs a.hint) ((a.hint + 1) % a.nrTotal) = false := by
    rw [bit_setBit, hnext, decide_eq_false hne]
    rfl
  have hopen : ∀ {bs : Nat → BitVec 512} {i : Nat}, bit bs i = false → wordFull bs i = false := by
    intro bs i h
    by_contra hfull
    rw [bit_of_wordFull (by simpa using hfull)] at h
    cases h
  -- the first round takes the block, the second one finds where the next call starts
  obtain ⟨n, hn⟩ : ∃ n, a.nrTotal = n + 1 + 1 := ⟨a.nrTotal - 2, by omega⟩
  have hscan : scanLoop a.nrTotal (a.nrTotal + a.hint) 1 (n + 1 + 1) ⟨a.bs, a.hint, 0, [], false, false⟩ =
      (⟨setBit a.bs a.hint, a.hint + 1, 1, [⟨a.hint, 1⟩], true, true⟩,
        some ((a.hint + 1) % a.nrTotal)) := by
    rw [scanLoop_go (by simp only; omega) (scanRound_take (by simp only [hmod]; exact hopen hfree) rfl
      (by simp only [hmod]; exact hfree))]
    simp only [hmod, grow, Bool.false_eq_true, if_false]
    rw [scanLoop, if_pos (by simp only; omega), scanRound_hit (hopen hbit) rfl hbit]
    rfl
  have hno : ¬ a.nrFree < 1 := by omega
  rw [← hn] at hscan
  simp only [stupidAllocSpace, if_neg hno, hscan]
  rfl

end ZCell.Allocator
