import ZCell.AllocatorScan

/-! The specification of `stupid_alloc_space` in terms of the allocator it is called on, and
the exact condition under which the extents it returns describe the blocks it took. -/
namespace ZCell.Allocator
variable {a : StupidAllocator} {sz : Nat}

theorem takes_nodup (a : StupidAllocator) (sz : Nat) : (takes a sz).Nodup :=
  (walk_free a.nrTotal a.bs a.hint sz none (by omega)).2

theorem takes_free {b : Nat} (h : b ∈ takes a sz) : b < a.nrTotal ∧ bit a.bs b = false := by
  obtain ⟨e, he, rfl⟩ := List.mem_map.mp h
  exact (walk_free a.nrTotal a.bs a.hint sz none (by omega)).1 e he

theorem takes_length (h : HasRoom a sz) : (takes a sz).length = sz := by
  have hp : reach a sz = (reach a (sz + 1)).take sz := walk_prefix a.nrTotal a.bs a.hint sz none
  rw [takes, List.length_map, hp, List.length_take, h.2]
  omega

theorem scanLoop_hit_lt {nrTotal last n i : Nat} {s : Scan} (hpos : 0 < nrTotal)
    (h : (scanLoop nrTotal last sz n s).2 = some i) : i < nrTotal := by
  induction n generalizing s with
  | zero => simp [scanLoop] at h
  | succ n ih =>
    unfold scanLoop at h
    split at h
    · cases hr : scanRound nrTotal sz s with
      | go s' =>
        rw [hr] at h
        exact ih h
      | hit s' j =>
        rw [hr] at h
        obtain rfl := Option.some.inj h
        unfold scanRound at hr
        have hj : s.it % nrTotal < nrTotal := Nat.mod_lt _ hpos
        grind
    · simp at h

/-- The loop as the call starts it. -/
theorem scan_spec (a : StupidAllocator) (h : 1 ≤ sz) :
    ∃ s r, scanLoop a.nrTotal (a.nrTotal + a.hint) sz a.nrTotal
        ⟨a.bs, a.hint, 0, [], false, false⟩ = (s, r) ∧
      s.ex = stitch (reach a sz) [] ∧ s.bs = setAll a.bs (takes a sz) ∧
      (r.isSome = true ↔ (reach a (sz + 1)).length = sz + 1) ∧
      ∀ i, r = some i → i < a.nrTotal := by
  obtain ⟨h1, h2, h3⟩ := @scanLoop_walk a.nrTotal (a.nrTotal + a.hint) sz a.nrTotal
    ⟨a.bs, a.hint, 0, [], false, false⟩ none rfl h rfl
  refine ⟨_, _, rfl, h1, h2, h3, fun i hi => ?_⟩
  obtain hz | hpos := Nat.eq_zero_or_pos a.nrTotal
  · rw [hz] at hi
    simp [scanLoop] at hi
  · exact scanLoop_hit_lt hpos hi

theorem alloc_of_room (hsz : 1 ≤ sz) (h : HasRoom a sz) : ∃ hint < a.nrTotal,
    stupidAllocSpace a sz = (0, { a with
      bs := setAll a.bs (takes a sz), hint := hint, nrFree := a.nrFree - sz },
      (stitch (reach a sz) []).reverse) := by
  obtain ⟨s, r, hrun, hex, hbs, hr, hlt⟩ := scan_spec a hsz
  obtain ⟨i, rfl⟩ := Option.isSome_iff_exists.mp (hr.mpr h.2)
  refine ⟨i, hlt i rfl, ?_⟩
  have hfree : ¬ a.nrFree < sz := Nat.not_lt_of_le h.1
  simp only [stupidAllocSpace, if_neg hfree, hrun, hex, hbs]

theorem alloc_of_few (h : a.nrFree < sz) : stupidAllocSpace a sz = (-1, a, []) := by
  simp [stupidAllocSpace, h]

/-- A call that runs out of blocks keeps the bits it has set. -/
theorem alloc_of_no_room (hsz : 1 ≤ sz) (hfree : sz ≤ a.nrFree) (h : ¬ HasRoom a sz) :
    stupidAllocSpace a sz = (Status.ostoreNoSpace.code, { a with
      bs := setAll a.bs (takes a sz) }, (stitch (reach a sz) []).reverse) := by
  obtain ⟨s, r, hrun, hex, hbs, hr, _⟩ := scan_spec a hsz
  have hnone : r = none := by
    rw [← Option.not_isSome_iff_eq_none]
    exact fun hs => h ⟨hfree, hr.mp hs⟩
  subst hnone
  simp only [stupidAllocSpace, if_neg (Nat.not_lt_of_le hfree), hrun, hex, hbs]

/-- Marking free blocks changes the bitmap unless there are none. -/
theorem setAll_same_iff {l : List Nat} (hfree : ∀ b ∈ l, bit a.bs b = false) :
    (∀ i, bit (setAll a.bs l) i = bit a.bs i) ↔ l = [] := by
  constructor
  · intro h
    rw [List.eq_nil_iff_forall_not_mem]
    intro b hb
    have hb' := h b
    rw [bit_setAll, decide_eq_true hb, Bool.or_true, hfree b hb] at hb'
    cases hb'
  · rintro rfl i
    rfl

theorem alloc_zero_iff (hsz : 1 ≤ sz) : (stupidAllocSpace a sz).1 = 0 ↔ HasRoom a sz := by
  constructor
  · intro h
    by_contra hno
    by_cases hfree : a.nrFree < sz
    · simp [alloc_of_few hfree] at h
    · simp [alloc_of_no_room hsz (by omega) hno, Status.code] at h
  · intro h
    obtain ⟨i, _, hi⟩ := alloc_of_room hsz h
    rw [hi]

/-- The extents of a successful call: at most one for each block, and `sz` blocks in all. -/
theorem alloc_extents (hsz : 1 ≤ sz) (h : HasRoom a sz) :
    (blocks (stupidAllocSpace a sz).2.2).length = sz ∧
    (stupidAllocSpace a sz).2.2.length ≤ sz ∧ (stupidAllocSpace a sz).2.2 ≠ [] := by
  obtain ⟨i, _, hi⟩ := alloc_of_room hsz h
  obtain ⟨h1, h2, h3⟩ := stitch_count (reach a sz) []
    (fun _ => walk_head a.nrTotal a.bs a.hint sz)
  have hlen : (reach a sz).length = sz := by
    have ht := takes_length h
    rwa [takes, List.length_map] at ht
  have hperm : ∀ ex : List Extent, (blocks ex.reverse).length = (blocks ex).length := by
    intro ex
    simp only [blocks, List.length_flatMap, List.map_reverse, List.sum_reverse]
  rw [hi]
  simp only [hperm, h1, List.length_reverse, List.reverse_eq_nil_iff, ne_eq, h3, not_and]
  refine ⟨by simp [blocks, hlen], by simpa [hlen] using h2, fun _ hnil => ?_⟩
  rw [hnil] at hlen
  simp at hlen
  omega

theorem alloc_lba (hsz : 1 ≤ sz) (h : HasRoom a sz) :
    ∀ d ∈ (stupidAllocSpace a sz).2.2, d.lba ∈ takes a sz := by
  obtain ⟨i, _, hi⟩ := alloc_of_room hsz h
  rw [hi]
  intro d hd
  obtain h | h := stitch_lba (reach a sz) [] d (List.mem_reverse.mp hd)
  · exact h
  · exact absurd h (by simp)

theorem blocks_of_neighbours (h : Neighbours a sz) :
    blocks (stitch (reach a sz) []).reverse = takes a sz := by
  have hb := blocks_stitch a.nrTotal a.bs a.hint sz none [] (by simp) h
  exact hb.trans (List.nil_append _)

/-- The extents of a successful call cover exactly the `sz` blocks that it has marked as
allocated, all of which were free blocks of the device. -/
def AllocSound (a : StupidAllocator) (sz : Nat) : Prop :=
  (stupidAllocSpace a sz).1 = 0 →
    let a' := (stupidAllocSpace a sz).2.1
    let bl := blocks (stupidAllocSpace a sz).2.2
    bl.length = sz ∧ bl.Nodup ∧ (∀ b ∈ bl, b < a.nrTotal ∧ bit a.bs b = false) ∧
    (∀ i, bit a'.bs i = (bit a.bs i || decide (i ∈ bl))) ∧ a'.nrFree + sz = a.nrFree

theorem allocSound_of_neighbours (hsz : 1 ≤ sz) (h : Neighbours a sz) : AllocSound a sz := by
  intro hz
  have hroom := (alloc_zero_iff hsz).mp hz
  obtain ⟨i, _, hi⟩ := alloc_of_room hsz hroom
  rw [hi]
  simp only [blocks_of_neighbours h]
  refine ⟨takes_length hroom, takes_nodup a sz, fun b hb => takes_free hb, bit_setAll a.bs _, ?_⟩
  have hle := hroom.1
  omega

theorem neighbours_of_allocSound (hsz : 1 ≤ sz) (hroom : HasRoom a sz) (h : AllocSound a sz) :
    Neighbours a sz := by
  intro e he p hp
  by_contra hne
  obtain ⟨i, _, hi⟩ := alloc_of_room hsz hroom
  have hs := h ((alloc_zero_iff hsz).mpr hroom)
  rw [hi] at hs
  obtain ⟨_, _, hfree, _, _⟩ := hs
  obtain ⟨d, hd, q, hq, hqne, hmem⟩ := stitch_gap a.nrTotal a.bs a.hint sz none [] (by simp)
    ⟨e, he, p, hp, hne⟩
  -- the block behind the gap is covered, but it was never free
  have hcov : q + 1 ∈ blocks (stitch (reach a sz) []).reverse := by
    obtain ⟨c, hc, hb⟩ := mem_blocks.mp hmem
    exact mem_blocks.mpr ⟨c, List.mem_reverse.mpr hc, hb⟩
  obtain ⟨hlt, hbit⟩ := hfree _ hcov
  obtain hout | hset := walk_gap a.bs a.hint rfl a.nrTotal a.bs a.hint sz none
    (fun j hj => Or.inl hj) (Nat.le_refl _) (by simp) d hd q hq hqne
  · omega
  · rw [hset] at hbit
    exact absurd hbit (by decide)

/-- `stupid_alloc_space` is sound exactly on the calls that fail and on those whose scan takes
only neighbouring blocks into an open extent. -/
theorem allocSound_iff (a : StupidAllocator) (sz : Nat) (hsz : 1 ≤ sz) :
    AllocSound a sz ↔ (HasRoom a sz → Neighbours a sz) := by
  constructor
  · exact fun h hroom => neighbours_of_allocSound hsz hroom h
  · intro h hz
    exact allocSound_of_neighbours hsz (h ((alloc_zero_iff hsz).mp hz)) hz

/-- Blocks 3 and 4 of an otherwise empty device of 512 blocks are taken. -/
def sparse : StupidAllocator := ⟨fun _ => BitVec.ofNat 512 24, 510, 512, 1, 0⟩

theorem sparse_allocSound : AllocSound sparse 5 :=
  (allocSound_iff sparse 5 (by decide)).mpr fun _ => by decide +kernel

/-- Blocks 61, 127 and 128 are the free ones. Once block 61 is taken its word is full, and the
scan goes on at block 127 with the extent still open. -/
def wordEnd : StupidAllocator :=
  ⟨fun _ => ~~~(BitVec.twoPow 512 61 ||| BitVec.twoPow 512 127 ||| BitVec.twoPow 512 128),
    3, 512, 1, 61⟩

/-- The call succeeds with the single extent `{61, 2}`, which covers the allocated block 62. -/
theorem wordEnd_not_allocSound :
    wordEnd.nrFree = freeCount wordEnd.bs wordEnd.nrTotal ∧ wordEnd.hint < wordEnd.nrTotal ∧
    ¬ AllocSound wordEnd 2 := by
  refine ⟨by decide +kernel, by decide, fun h => ?_⟩
  obtain ⟨_, _, hfree, _⟩ := h (by decide +kernel)
  exact absurd (hfree 62 (by decide +kernel)).2 (by decide +kernel)

end ZCell.Allocator
