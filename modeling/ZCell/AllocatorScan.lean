import ZCell.Allocator

/-! What `stupid_alloc_space` does in terms of the bitmap it is called on: which free blocks
the scan reaches, when it succeeds, and when the extents it returns describe these blocks. -/
namespace ZCell.Allocator

/-- The first `need` free blocks the scan reaches from position `it`, each with the block taken
before it if no allocated block was examined in between. A full word is skipped unexamined,
together with the first position behind it. -/
def walk (nrTotal last : Nat) : Nat → (Nat → BitVec 512) → Nat → Nat → Option Nat →
    List (Option Nat × Nat)
  | 0, _, _, _, _ => []
  | n+1, bs, it, need, prev =>
    if need = 0 ∨ last ≤ it then []
    else if wordFull bs (it % nrTotal) then walk nrTotal last n bs (it + 65) need prev
    else if bit bs (it % nrTotal) then walk nrTotal last n bs (it + 1) need none
    else (prev, it % nrTotal) ::
      walk nrTotal last n (setBit bs (it % nrTotal)) (it + 1) (need - 1) (some (it % nrTotal))

/-- The first `n` free blocks in the order in which a scan of `a` reaches them. -/
def reach (a : StupidAllocator) (n : Nat) : List (Option Nat × Nat) :=
  walk a.nrTotal (a.nrTotal + a.hint) a.nrTotal a.bs a.hint n none

/-- The blocks a call for `sz` blocks takes. -/
def takes (a : StupidAllocator) (sz : Nat) : List Nat := (reach a sz).map Prod.snd

/-- There are `sz` blocks to take, and one more free block for the next hint. -/
def HasRoom (a : StupidAllocator) (sz : Nat) : Prop :=
  sz ≤ a.nrFree ∧ (reach a (sz + 1)).length = sz + 1

/-- A block taken while an extent is open is the neighbour of the block taken before it: between
the two the scan neither skips a full word nor wraps to block 0. -/
def Neighbours (a : StupidAllocator) (sz : Nat) : Prop :=
  ∀ e ∈ reach a sz, ∀ p, e.1 = some p → e.2 = p + 1

instance (a : StupidAllocator) (sz : Nat) : Decidable (HasRoom a sz) :=
  inferInstanceAs (Decidable (_ ∧ _))

instance (a : StupidAllocator) (sz : Nat) : Decidable (Neighbours a sz) :=
  decidable_of_iff (((reach a sz).all fun e => e.1.all fun p => e.2 == p + 1) = true) (by
    simp only [List.all_eq_true, Option.all_eq_true, beq_iff_eq, Neighbours])

/-- How the scan builds its extents from the blocks it takes. -/
def stitch : List (Option Nat × Nat) → List Extent → List Extent
  | [], ex => ex
  | (none, i)::w, ex => stitch w (⟨i, 1⟩ :: ex)
  | (some _, _)::w, ex => stitch w (grow ex)

section Walk
variable {nrTotal last : Nat}

theorem walk_length (n : Nat) (bs : Nat → BitVec 512) (it need : Nat) (prev : Option Nat) :
    (walk nrTotal last n bs it need prev).length ≤ need := by
  induction n generalizing bs it need prev with
  | zero => simp [walk]
  | succ n ih =>
    simp only [walk]
    split
    · simp
    · rename_i hgo
      split
      · exact ih bs (it + 65) need prev
      · split
        · exact ih bs (it + 1) need none
        · have h := ih (setBit bs (it % nrTotal)) (it + 1) (need - 1) (some (it % nrTotal))
          simp only [List.length_cons]
          omega

/-- Every block taken lies below `nrTotal` and was free, and none is taken twice. -/
theorem walk_free (n : Nat) (bs : Nat → BitVec 512) (it need : Nat) (prev : Option Nat)
    (hlast : last ≤ it + nrTotal) :
    (∀ e ∈ walk nrTotal last n bs it need prev, e.2 < nrTotal ∧ bit bs e.2 = false) ∧
    ((walk nrTotal last n bs it need prev).map Prod.snd).Nodup := by
  induction n generalizing bs it need prev with
  | zero => simp [walk]
  | succ n ih =>
    simp only [walk]
    split
    · simp
    · rename_i hgo
      split
      · exact ih bs (it + 65) need prev (by omega)
      · split
        · exact ih bs (it + 1) need none (by omega)
        · rename_i hbit
          obtain ⟨h1, h2⟩ := ih (setBit bs (it % nrTotal)) (it + 1) (need - 1)
            (some (it % nrTotal)) (by omega)
          have hlt : it % nrTotal < nrTotal := Nat.mod_lt _ (by omega)
          have hb : bit bs (it % nrTotal) = false := by simpa using hbit
          refine ⟨fun e he => ?_, ?_⟩
          · obtain rfl | he := List.mem_cons.mp he
            · exact ⟨hlt, hb⟩
            · obtain ⟨h3, h4⟩ := h1 e he
              rw [bit_setBit] at h4
              simp only [Bool.or_eq_false_iff] at h4
              exact ⟨h3, h4.1⟩
          · rw [List.map_cons, List.nodup_cons]
            refine ⟨fun hmem => ?_, h2⟩
            obtain ⟨e, he, heq⟩ := List.mem_map.mp hmem
            have h4 := (h1 e he).2
            rw [heq, bit_setBit] at h4
            simp at h4

/-- Where the scan goes on behind a gap, the block behind the one taken last is out of range or
was allocated before the call. `bs0` is the bitmap of the call, `hint` its first position. -/
theorem walk_gap (bs0 : Nat → BitVec 512) (hint : Nat) (hlast : last = nrTotal + hint) (n : Nat)
    (bs : Nat → BitVec 512) (it need : Nat) (prev : Option Nat)
    (hset : ∀ j, bit bs j = true → bit bs0 j = true ∨
      ∃ y, hint ≤ y ∧ y < it ∧ y % nrTotal = j)
    (hhint : hint ≤ it)
    (hprev : ∀ p, prev = some p → nrTotal ≤ p + 1 ∨ it % nrTotal = p + 1 ∨ bit bs0 (p + 1) = true) :
    ∀ e ∈ walk nrTotal last n bs it need prev, ∀ p, e.1 = some p → e.2 ≠ p + 1 →
      nrTotal ≤ p + 1 ∨ bit bs0 (p + 1) = true := by
  induction n generalizing bs it need prev with
  | zero => simp [walk]
  | succ n ih =>
    -- a position of the scan is visited once, so an unvisited set bit is an old one
    have hold : it < last → bit bs (it % nrTotal) = true → bit bs0 (it % nrTotal) = true := by
      intro hlt hb
      obtain h | ⟨y, hy1, hy2, hy3⟩ := hset _ hb
      · exact h
      · have hdiff : (it - y) % nrTotal = 0 := Nat.sub_mod_eq_zero_of_mod_eq hy3.symm
        rw [Nat.mod_eq_of_lt (by omega)] at hdiff
        omega
    have hset' : ∀ k, ∀ j, bit bs j = true → bit bs0 j = true ∨
        ∃ y, hint ≤ y ∧ y < it + k ∧ y % nrTotal = j := by
      intro k j hj
      obtain h | ⟨y, hy1, hy2, hy3⟩ := hset j hj
      · exact Or.inl h
      · exact Or.inr ⟨y, hy1, by omega, hy3⟩
    simp only [walk]
    split
    · simp
    · rename_i hgo
      have hlt : it < last := by omega
      split
      · rename_i hfull
        apply ih bs (it + 65) need prev (hset' 65) (by omega)
        intro p hp
        obtain h | h | h := hprev p hp
        · exact Or.inl h
        · right; right
          have hb := hold hlt (bit_of_wordFull hfull)
          rwa [h] at hb
        · exact Or.inr (Or.inr h)
      · split
        · exact ih bs (it + 1) need none (hset' 1) (by omega) (by simp)
        · intro e he
          obtain rfl | he := List.mem_cons.mp he
          · intro p hp hne
            obtain h | h | h := hprev p hp
            · exact Or.inl h
            · exact absurd h hne
            · exact Or.inr h
          · apply ih (setBit bs (it % nrTotal)) (it + 1) (need - 1) (some (it % nrTotal)) _ (by omega)
              _ e he
            · intro j hj
              rw [bit_setBit] at hj
              obtain hj | hj := Bool.or_eq_true_iff.mp hj
              · exact hset' 1 j hj
              · exact Or.inr ⟨it, hhint, by omega, (of_decide_eq_true hj).symm⟩
            · intro p hp
              obtain rfl := Option.some.inj hp
              have hmod : it % nrTotal < nrTotal := Nat.mod_lt _ (by omega)
              by_cases hedge : it % nrTotal + 1 = nrTotal
              · exact Or.inl (by omega)
              · right; left
                rw [Nat.add_mod, Nat.mod_eq_of_lt (by omega : 1 < nrTotal), Nat.mod_eq_of_lt (by omega)]

/-- Asking for more blocks only prolongs the walk. -/
theorem walk_prefix (n : Nat) (bs : Nat → BitVec 512) (it need : Nat) (prev : Option Nat) :
    walk nrTotal last n bs it need prev = (walk nrTotal last n bs it (need + 1) prev).take need := by
  induction n generalizing bs it need prev with
  | zero => simp [walk]
  | succ n ih =>
    cases need with
    | zero => simp [walk]
    | succ need =>
      by_cases hl : last ≤ it
      · simp [walk, hl]
      · have h1 : ¬ (need + 1 = 0 ∨ last ≤ it) := by omega
        have h2 : ¬ (need + 1 + 1 = 0 ∨ last ≤ it) := by omega
        simp only [walk, if_neg h1, if_neg h2]
        split
        · exact ih bs (it + 65) (need + 1) prev
        · split
          · exact ih bs (it + 1) (need + 1) none
          · simp only [Nat.add_sub_cancel, List.take_succ_cons]
            rw [ih]

end Walk

section Loop
variable {nrTotal last sz : Nat}

theorem scanRound_full {s : Scan} (h : wordFull s.bs (s.it % nrTotal) = true) :
    scanRound nrTotal sz s = .go { s with it := s.it + 65 } := by
  simp [scanRound, h]

theorem scanRound_seek {s : Scan} (hf : wordFull s.bs (s.it % nrTotal) = false)
    (he : s.endFlag = true) (hb : bit s.bs (s.it % nrTotal) = true) :
    scanRound nrTotal sz s = .go { s with it := s.it + 1 } := by
  simp [scanRound, hf, he, hb]

theorem scanRound_hit {s : Scan} (hf : wordFull s.bs (s.it % nrTotal) = false)
    (he : s.endFlag = true) (hb : bit s.bs (s.it % nrTotal) = false) :
    scanRound nrTotal sz s = .hit s (s.it % nrTotal) := by
  simp [scanRound, hf, he, hb]

theorem scanRound_close {s : Scan} (hf : wordFull s.bs (s.it % nrTotal) = false)
    (he : s.endFlag = false) (hb : bit s.bs (s.it % nrTotal) = true) :
    scanRound nrTotal sz s =
      .go { s with it := s.it + 1, inFoundCtx := false, endFlag := s.rsvLen == sz } := by
  simp [scanRound, hf, he, hb]

theorem scanRound_take {s : Scan} (hf : wordFull s.bs (s.it % nrTotal) = false)
    (he : s.endFlag = false) (hb : bit s.bs (s.it % nrTotal) = false) :
    scanRound nrTotal sz s = .go { s with
      it := s.it + 1
      bs := setBit s.bs (s.it % nrTotal)
      ex := grow (if s.inFoundCtx then s.ex else ⟨s.it % nrTotal, 0⟩ :: s.ex)
      inFoundCtx := true
      rsvLen := s.rsvLen + 1
      endFlag := s.rsvLen + 1 == sz } := by
  simp [scanRound, hf, he, hb]

theorem scanLoop_go {n : Nat} {s s' : Scan} (hit : s.it < last)
    (h : scanRound nrTotal sz s = .go s') :
    scanLoop nrTotal last sz (n + 1) s = scanLoop nrTotal last sz n s' := by
  simp [scanLoop, hit, h]

/-- After the last block was taken the loop only looks for one more free block. -/
theorem scanLoop_end (n : Nat) (s : Scan) (hend : s.endFlag = true) (prev : Option Nat) :
    (scanLoop nrTotal last sz n s).1.ex = s.ex ∧ (scanLoop nrTotal last sz n s).1.bs = s.bs ∧
    ((scanLoop nrTotal last sz n s).2.isSome = true ↔
      (walk nrTotal last n s.bs s.it 1 prev).length = 1) := by
  induction n generalizing s prev with
  | zero => simp [scanLoop, walk]
  | succ n ih =>
    by_cases hit : s.it < last
    · have hgo : ¬ (1 = 0 ∨ last ≤ s.it) := by omega
      cases hfull : wordFull s.bs (s.it % nrTotal) with
      | true =>
        rw [scanLoop_go hit (scanRound_full hfull)]
        simp only [walk, if_neg hgo, hfull, if_true]
        exact ih { s with it := s.it + 65 } hend prev
      | false =>
        cases hbit : bit s.bs (s.it % nrTotal) with
        | true =>
          rw [scanLoop_go hit (scanRound_seek hfull hend hbit)]
          simp only [walk, if_neg hgo, hfull, hbit, if_true, Bool.false_eq_true, if_false]
          exact ih { s with it := s.it + 1 } hend none
        | false =>
          have hw : walk nrTotal last n (setBit s.bs (s.it % nrTotal)) (s.it + 1) 0
              (some (s.it % nrTotal)) = [] := List.eq_nil_of_length_eq_zero
            (Nat.le_zero.mp (walk_length n _ _ 0 _))
          simp [scanLoop, hit, scanRound_hit hfull hend hbit, walk, hfull, hbit,
            Nat.not_le_of_lt hit, hw]
    · simp [scanLoop, walk, hit, Nat.le_of_not_lt]

/-- The loop takes the blocks of the walk, stitches them in order, and ends with a hint exactly
when the walk finds one block more. -/
theorem scanLoop_walk (n : Nat) (s : Scan) (prev : Option Nat) (hend : s.endFlag = false)
    (hlt : s.rsvLen < sz) (hctx : s.inFoundCtx = prev.isSome) :
    (scanLoop nrTotal last sz n s).1.ex =
      stitch (walk nrTotal last n s.bs s.it (sz - s.rsvLen) prev) s.ex ∧
    (scanLoop nrTotal last sz n s).1.bs =
      setAll s.bs ((walk nrTotal last n s.bs s.it (sz - s.rsvLen) prev).map Prod.snd) ∧
    ((scanLoop nrTotal last sz n s).2.isSome = true ↔
      (walk nrTotal last n s.bs s.it (sz - s.rsvLen + 1) prev).length = sz - s.rsvLen + 1) := by
  induction n generalizing s prev with
  | zero => simp [scanLoop, walk, stitch, setAll]
  | succ n ih =>
    by_cases hit : s.it < last
    · have hgo : ¬ (sz - s.rsvLen = 0 ∨ last ≤ s.it) := by omega
      have hgo1 : ¬ (sz - s.rsvLen + 1 = 0 ∨ last ≤ s.it) := by omega
      cases hfull : wordFull s.bs (s.it % nrTotal) with
      | true =>
        rw [scanLoop_go hit (scanRound_full hfull)]
        simp only [walk, if_neg hgo, if_neg hgo1, hfull, if_true]
        exact ih { s with it := s.it + 65 } prev hend hlt hctx
      | false =>
        cases hbit : bit s.bs (s.it % nrTotal) with
        | true =>
          rw [scanLoop_go hit (scanRound_close hfull hend hbit)]
          simp only [walk, if_neg hgo, if_neg hgo1, hfull, hbit, if_true, Bool.false_eq_true,
            if_false]
          have hne : (s.rsvLen == sz) = false := beq_eq_false_iff_ne.mpr (by omega)
          exact ih { s with it := s.it + 1, inFoundCtx := false, endFlag := s.rsvLen == sz } none
            hne hlt rfl
        | false =>
          rw [scanLoop_go hit (scanRound_take hfull hend hbit)]
          simp only [walk, if_neg hgo, if_neg hgo1, hfull, hbit, Bool.false_eq_true, if_false,
            Nat.add_sub_cancel, List.map_cons, List.length_cons]
          -- the block joins the open extent, or opens one
          have hst : ∀ w, stitch ((prev, s.it % nrTotal) :: w) s.ex =
              stitch w (grow (if s.inFoundCtx then s.ex else ⟨s.it % nrTotal, 0⟩ :: s.ex)) := by
            intro w
            cases prev <;> simp [hctx, stitch, grow]
          rw [hst]
          generalize hs' : ({ s with
            it := s.it + 1
            bs := setBit s.bs (s.it % nrTotal)
            ex := grow (if s.inFoundCtx then s.ex else ⟨s.it % nrTotal, 0⟩ :: s.ex)
            inFoundCtx := true
            rsvLen := s.rsvLen + 1
            endFlag := s.rsvLen + 1 == sz } : Scan) = s'
          have hrsv : s'.rsvLen = s.rsvLen + 1 := by rw [← hs']
          have hit' : s'.it = s.it + 1 := by rw [← hs']
          have hbs' : s'.bs = setBit s.bs (s.it % nrTotal) := by rw [← hs']
          have hex' : s'.ex = grow (if s.inFoundCtx then s.ex else ⟨s.it % nrTotal, 0⟩ :: s.ex) := by
            rw [← hs']
          have hend' : s'.endFlag = (s.rsvLen + 1 == sz) := by rw [← hs']
          have hctx' : s'.inFoundCtx = true := by rw [← hs']
          rw [← hbs', ← hit', ← hex']
          by_cases hfin : s.rsvLen + 1 = sz
          · have hone : sz - s.rsvLen = 1 := by omega
            have hw : walk nrTotal last n s'.bs s'.it 0 (some (s.it % nrTotal)) = [] :=
              List.eq_nil_of_length_eq_zero (Nat.le_zero.mp (walk_length n _ _ 0 _))
            obtain ⟨h1, h2, h3⟩ := @scanLoop_end nrTotal last sz n s'
              (hend'.trans (beq_iff_eq.mpr hfin)) (some (s.it % nrTotal))
            rw [hone, h1, h2, h3, Nat.sub_self, hw]
            simp [stitch, setAll, hbs']
          · have hstep : sz - s.rsvLen - 1 = sz - s'.rsvLen := by omega
            have hstep1 : sz - s.rsvLen = sz - s'.rsvLen + 1 := by omega
            obtain ⟨h1, h2, h3⟩ := ih s' (some (s.it % nrTotal))
              (hend'.trans (beq_eq_false_iff_ne.mpr hfin)) (by omega) hctx'
            rw [h1, h2, h3, hstep, hstep1]
            refine ⟨rfl, ?_, by omega⟩
            simp [setAll, hbs']
    · simp [scanLoop, walk, hit, Nat.le_of_not_lt, stitch, setAll]

end Loop

section Stitch
variable {nrTotal last : Nat}

theorem mem_grow {ex : List Extent} {b : Nat} (h : b ∈ blocks ex) : b ∈ blocks (grow ex) := by
  cases ex with
  | nil => exact h
  | cons e es =>
    rw [mem_blocks] at h ⊢
    obtain ⟨d, hd, h1, h2⟩ := h
    obtain rfl | hd := List.mem_cons.mp hd
    · exact ⟨⟨d.lba, d.len + 1⟩, by simp [grow], h1, by simp only; omega⟩
    · exact ⟨d, List.mem_cons_of_mem _ hd, h1, h2⟩

/-- Blocks once covered stay covered while the scan goes on. -/
theorem mem_stitch {ex : List Extent} {b : Nat} (w : List (Option Nat × Nat)) (h : b ∈ blocks ex) :
    b ∈ blocks (stitch w ex) := by
  induction w generalizing ex with
  | nil => exact h
  | cons e w ih =>
    obtain ⟨prev, i⟩ := e
    cases prev with
    | none =>
      apply ih
      rw [mem_blocks] at h ⊢
      obtain ⟨d, hd, hb⟩ := h
      exact ⟨d, List.mem_cons_of_mem _ hd, hb⟩
    | some p => exact ih (mem_grow h)

/-- The extents of the scan, in order, while every block taken in an open extent is the
neighbour of the last one. -/
theorem blocks_stitch (n : Nat) (bs : Nat → BitVec 512) (it need : Nat) (prev : Option Nat)
    (ex : List Extent)
    (hopen : ∀ p, prev = some p → ∃ e es, ex = e :: es ∧ e.lba + e.len = p + 1)
    (hnb : ∀ e ∈ walk nrTotal last n bs it need prev, ∀ p, e.1 = some p → e.2 = p + 1) :
    blocks (stitch (walk nrTotal last n bs it need prev) ex).reverse =
      blocks ex.reverse ++ (walk nrTotal last n bs it need prev).map Prod.snd := by
  induction n generalizing bs it need prev ex with
  | zero => simp [walk, stitch]
  | succ n ih =>
    simp only [walk] at hnb ⊢
    split
    · simp [stitch]
    · rename_i hgo
      simp only [if_neg hgo] at hnb
      split
      · rename_i hfull
        simp only [if_pos hfull] at hnb
        exact ih bs (it + 65) need prev ex hopen hnb
      · rename_i hfull
        simp only [if_neg hfull] at hnb
        split
        · rename_i hbit
          simp only [if_pos hbit] at hnb
          exact ih bs (it + 1) need none ex (by simp) hnb
        · rename_i hbit
          simp only [if_neg hbit] at hnb
          have hnb' := fun e he => hnb e (List.mem_cons_of_mem _ he)
          cases prev with
          | none =>
            rw [stitch, ih _ _ _ _ _ _ hnb']
            · simp [blocks, Extent.blocks]
            · intro p hp
              obtain rfl := Option.some.inj hp
              exact ⟨_, ex, rfl, rfl⟩
          | some p =>
            obtain ⟨e, es, rfl, he⟩ := hopen p rfl
            have hi : it % nrTotal = p + 1 := hnb _ (List.mem_cons_self ..) p rfl
            rw [stitch, ih _ _ _ _ _ _ hnb']
            · simp only [grow, List.reverse_cons, blocks_append, List.map_cons, hi]
              simp [blocks, Extent.blocks, List.range'_1_concat, he]
            · intro q hq
              obtain rfl := Option.some.inj hq
              exact ⟨⟨e.lba, e.len + 1⟩, es, rfl, by simp only; omega⟩

/-- Behind a gap the open extent grows over the block that follows the last one taken. -/
theorem stitch_gap (n : Nat) (bs : Nat → BitVec 512) (it need : Nat) (prev : Option Nat)
    (ex : List Extent)
    (hopen : ∀ p, prev = some p → ∃ e es, ex = e :: es ∧ e.lba + e.len = p + 1 ∧ 0 < e.len)
    (hgap : ∃ e ∈ walk nrTotal last n bs it need prev, ∃ p, e.1 = some p ∧ e.2 ≠ p + 1) :
    ∃ e ∈ walk nrTotal last n bs it need prev, ∃ p, e.1 = some p ∧ e.2 ≠ p + 1 ∧
      p + 1 ∈ blocks (stitch (walk nrTotal last n bs it need prev) ex) := by
  induction n generalizing bs it need prev ex with
  | zero =>
    obtain ⟨e, he, _⟩ := hgap
    simp [walk] at he
  | succ n ih =>
    simp only [walk] at hgap ⊢
    split
    · rename_i hstop
      obtain ⟨e, he, _⟩ := hgap
      simp [hstop] at he
    · rename_i hgo
      simp only [if_neg hgo] at hgap
      split
      · rename_i hfull
        simp only [if_pos hfull] at hgap
        exact ih bs (it + 65) need prev ex hopen hgap
      · rename_i hfull
        simp only [if_neg hfull] at hgap
        split
        · rename_i hbit
          simp only [if_pos hbit] at hgap
          exact ih bs (it + 1) need none ex (by simp) hgap
        · rename_i hbit
          simp only [if_neg hbit] at hgap
          by_cases hfirst : ∃ p, prev = some p ∧ it % nrTotal ≠ p + 1
          · obtain ⟨p, rfl, hne⟩ := hfirst
            obtain ⟨d, es, rfl, hd, _⟩ := hopen p rfl
            refine ⟨_, List.mem_cons_self .., p, rfl, hne, ?_⟩
            rw [stitch]
            apply mem_stitch
            rw [mem_blocks]
            exact ⟨⟨d.lba, d.len + 1⟩, by simp [grow], by simp only; omega, by simp only; omega⟩
          · obtain ⟨e, he, p, hp, hne⟩ := hgap
            have he' := (List.mem_cons.mp he).resolve_left (by
              intro h
              subst h
              exact hfirst ⟨p, hp, hne⟩)
            have hstep : ∀ ex', (∀ q, some (it % nrTotal) = some q → ∃ (e : Extent) (es : List Extent),
                ex' = e :: es ∧ e.lba + e.len = q + 1 ∧ 0 < e.len) → _ := fun ex' ho =>
              ih (setBit bs (it % nrTotal)) (it + 1) (need - 1) (some (it % nrTotal)) ex' ho
                ⟨e, he', p, hp, hne⟩
            cases prev with
            | none =>
              obtain ⟨e, he, p, h1, h2, h3⟩ := hstep (⟨it % nrTotal, 1⟩ :: ex) (by
                intro q hq
                obtain rfl := Option.some.inj hq
                exact ⟨_, ex, rfl, rfl, by simp⟩)
              exact ⟨e, List.mem_cons_of_mem _ he, p, h1, h2, h3⟩
            | some p0 =>
              obtain ⟨d, es, rfl, hd, _⟩ := hopen p0 rfl
              have hi : it % nrTotal = p0 + 1 := by
                by_contra hne
                exact hfirst ⟨p0, rfl, hne⟩
              obtain ⟨e, he, p, h1, h2, h3⟩ := hstep (grow (d :: es)) (by
                intro q hq
                obtain rfl := Option.some.inj hq
                exact ⟨⟨d.lba, d.len + 1⟩, es, rfl, by simp only; omega, by simp⟩)
              exact ⟨e, List.mem_cons_of_mem _ he, p, h1, h2, h3⟩

theorem grow_blocks_length {ex : List Extent} (h : ex ≠ []) :
    (blocks (grow ex)).length = (blocks ex).length + 1 := by
  cases ex with
  | nil => exact absurd rfl h
  | cons e es => simp [blocks, Extent.blocks, grow]; omega

/-- The extents cover as many blocks as were taken, in at most as many pieces. -/
theorem stitch_count (w : List (Option Nat × Nat)) (ex : List Extent)
    (hopen : ex = [] → ∀ e, w.head? = some e → e.1 = none) :
    (blocks (stitch w ex)).length = (blocks ex).length + w.length ∧
    (stitch w ex).length ≤ ex.length + w.length ∧
    (stitch w ex = [] ↔ ex = [] ∧ w = []) := by
  induction w generalizing ex with
  | nil => simp [stitch]
  | cons e w ih =>
    obtain ⟨prev, i⟩ := e
    cases prev with
    | none =>
      obtain ⟨h1, h2, h3⟩ := ih (⟨i, 1⟩ :: ex) (by simp)
      simp only [stitch, h1, h3, List.length_cons] at h2 ⊢
      refine ⟨?_, by omega, by simp⟩
      simp [blocks, Extent.blocks]
      omega
    | some p =>
      have hne : ex ≠ [] := by
        intro h
        simpa using hopen h _ rfl
      have hgne : grow ex ≠ [] := by
        cases ex with
        | nil => exact absurd rfl hne
        | cons d es => simp [grow]
      have hlen : (grow ex).length = ex.length := by
        cases ex with
        | nil => rfl
        | cons d es => rfl
      obtain ⟨h1, h2, h3⟩ := ih (grow ex) (fun h => absurd h hgne)
      simp only [stitch, h1, h3, List.length_cons, grow_blocks_length hne, hlen] at h2 ⊢
      refine ⟨by omega, by omega, by simp [hgne]⟩

/-- Every extent starts at a block that was taken. -/
theorem stitch_lba (w : List (Option Nat × Nat)) (ex : List Extent) :
    ∀ d ∈ stitch w ex, d.lba ∈ w.map Prod.snd ∨ d.lba ∈ ex.map Extent.lba := by
  induction w generalizing ex with
  | nil =>
    intro d hd
    exact Or.inr (List.mem_map_of_mem hd)
  | cons e w ih =>
    obtain ⟨prev, i⟩ := e
    intro d hd
    cases prev with
    | none =>
      obtain h | h := ih _ d hd
      · exact Or.inl (List.mem_cons_of_mem _ h)
      · obtain h | h := List.mem_cons.mp h
        · exact Or.inl (by simp [h])
        · exact Or.inr h
    | some p =>
      have hlba : (grow ex).map Extent.lba = ex.map Extent.lba := by
        cases ex with
        | nil => rfl
        | cons d es => rfl
      obtain h | h := ih _ d hd
      · exact Or.inl (List.mem_cons_of_mem _ h)
      · rw [hlba] at h
        exact Or.inr h

theorem walk_head (n : Nat) (bs : Nat → BitVec 512) (it need : Nat) :
    ∀ e, (walk nrTotal last n bs it need none).head? = some e → e.1 = none := by
  induction n generalizing it with
  | zero => simp [walk]
  | succ n ih =>
    intro e he
    simp only [walk] at he
    split at he
    · simp at he
    · split at he
      · exact ih (it + 65) e he
      · split at he
        · exact ih (it + 1) e he
        · obtain rfl := Option.some.inj he
          rfl

end Stitch
end ZCell.Allocator
