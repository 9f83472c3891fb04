import Mathlib.Logic.Function.Basic
import Mathlib.Data.List.Basic
import ZCell.Errcode

/-! zstore_allocator.h: the bitmap allocator. A bitmap entry, eight 64-bit words, is one
512-bit vector: word `w` is its bits `64*w` to `64*w+63`. -/
namespace ZCell.Allocator

structure Extent where
  lba : Nat
  len : Nat
  deriving DecidableEq, Repr

structure StupidAllocator where
  bs : Nat → BitVec 512
  nrFree : Nat
  nrTotal : Nat
  nrEntrys : Nat
  hint : Nat

def bit (bs : Nat → BitVec 512) (i : Nat) : Bool := (bs (i / 512)).getLsbD (i % 512)

def setBit (bs : Nat → BitVec 512) (i : Nat) : Nat → BitVec 512 :=
  Function.update bs (i / 512) (bs (i / 512) ||| BitVec.twoPow 512 (i % 512))

def clearBit (bs : Nat → BitVec 512) (i : Nat) : Nat → BitVec 512 :=
  Function.update bs (i / 512) (bs (i / 512) &&& ~~~BitVec.twoPow 512 (i % 512))

/-- `~(*v) == 0` for the word `v` that holds block `i`. -/
def wordFull (bs : Nat → BitVec 512) (i : Nat) : Bool :=
  (bs (i / 512)).extractLsb' (64 * (i % 512 / 64)) 64 == BitVec.allOnes 64

/-- `!(*v)`. -/
def wordEmpty (bs : Nat → BitVec 512) (i : Nat) : Bool :=
  (bs (i / 512)).extractLsb' (64 * (i % 512 / 64)) 64 == 0

/-- `b` is what `calloc` returned, or happens to lie behind it. -/
def stupidAllocatorConstructor (b : Nat → BitVec 512) (nrTotal : Nat) : StupidAllocator where
  bs := b
  nrTotal := nrTotal
  nrFree := 0
  nrEntrys := (nrTotal + 511) / 512
  hint := 0

/-- The counting loop of `stupid_allocator_init_bitmap_entry` from position `i` on. Each round
advances by at least one, so `n` rounds are enough for a range of `n`. -/
def countFree (bs : Nat → BitVec 512) (stop : Nat) : Nat → Nat → Nat
  | 0, _ => 0
  | n+1, i =>
    if i < stop then
      if i + 64 < stop ∧ wordEmpty bs i = true then 64 + countFree bs stop n (i + 64)
      else (if bit bs i then 0 else 1) + countFree bs stop n (i + 1)
    else 0

def stupidAllocatorInitBitmapEntry (a : StupidAllocator) (entryIndex : Nat) (src : BitVec 512) :
    StupidAllocator :=
  let bs := Function.update a.bs entryIndex src
  let stop := if a.nrTotal < (entryIndex + 1) * 512 then a.nrTotal else (entryIndex + 1) * 512
  { a with bs := bs, nrFree := a.nrFree + countFree bs stop 512 (entryIndex * 512) }

/-- The local variables of the scan. `ex` lists the extents from the newest to the oldest;
`p_ex` is its head while `inFoundCtx` holds. -/
structure Scan where
  bs : Nat → BitVec 512
  it : Nat
  rsvLen : Nat
  ex : List Extent
  endFlag : Bool
  inFoundCtx : Bool

/-- `p_ex->len_++`. -/
def grow : List Extent → List Extent
  | [] => []
  | e::es => ⟨e.lba, e.len + 1⟩ :: es

inductive ScanResult where
  | go (s : Scan)
  | hit (s : Scan) (i : Nat)

/-- One round of the loop of `stupid_alloc_space`. -/
def scanRound (nrTotal sz : Nat) (s : Scan) : ScanResult :=
  let i := s.it % nrTotal
  -- `it += 64; continue`, and the `++it` of the loop on top of it
  if wordFull s.bs i then .go { s with it := s.it + 65 }
  else if s.endFlag then
    if bit s.bs i then .go { s with it := s.it + 1 } else .hit s i
  else if bit s.bs i then
    .go { s with it := s.it + 1, inFoundCtx := false, endFlag := s.rsvLen == sz }
  else
    .go { s with
      it := s.it + 1
      bs := setBit s.bs i
      ex := grow (if s.inFoundCtx then s.ex else ⟨i, 0⟩ :: s.ex)
      inFoundCtx := true
      rsvLen := s.rsvLen + 1
      endFlag := s.rsvLen + 1 == sz }

/-- The loop, `it` running up to `last`; every round advances it. -/
def scanLoop (nrTotal last sz : Nat) : Nat → Scan → Scan × Option Nat
  | 0, s => (s, none)
  | n+1, s =>
    if s.it < last then
      match scanRound nrTotal sz s with
      | .go s' => scanLoop nrTotal last sz n s'
      | .hit s' i => (s', some i)
    else (s, none)

/-- Return code, allocator and the extents `ex[0..ex_nr)`. -/
def stupidAllocSpace (a : StupidAllocator) (sz : Nat) : Int × StupidAllocator × List Extent :=
  if a.nrFree < sz then (-1, a, [])
  else
    match scanLoop a.nrTotal (a.nrTotal + a.hint) sz a.nrTotal ⟨a.bs, a.hint, 0, [], false, false⟩ with
    | (s, some i) => (0, { a with bs := s.bs, hint := i, nrFree := a.nrFree - sz }, s.ex.reverse)
    | (s, none) => (Status.ostoreNoSpace.code, { a with bs := s.bs }, s.ex.reverse)

def Extent.blocks (e : Extent) : List Nat := List.range' e.lba e.len

/-- The blocks the extents cover, in order. -/
def blocks (ex : List Extent) : List Nat := ex.flatMap Extent.blocks

def clearAll (bs : Nat → BitVec 512) (l : List Nat) : Nat → BitVec 512 := l.foldl clearBit bs

def setAll (bs : Nat → BitVec 512) (l : List Nat) : Nat → BitVec 512 := l.foldl setBit bs

def stupidFreeSpace (a : StupidAllocator) (ex : List Extent) : StupidAllocator :=
  { a with bs := clearAll a.bs (blocks ex), nrFree := a.nrFree + (blocks ex).length }

/-- The zero bits among the blocks `0..nrTotal-1`. -/
def freeCount (bs : Nat → BitVec 512) (nrTotal : Nat) : Nat :=
  ((List.range nrTotal).filter fun i => !bit bs i).length

theorem bit_setBit (bs : Nat → BitVec 512) (i j : Nat) :
    bit (setBit bs i) j = (bit bs j || decide (j = i)) := by
  unfold bit setBit
  by_cases hk : j / 512 = i / 512
  · rw [hk, Function.update_self, BitVec.getLsbD_or, BitVec.getLsbD_twoPow]
    have hj : j % 512 < 512 := Nat.mod_lt _ (by decide)
    by_cases hij : j = i
    · subst hij
      simp [hj]
    · have hne : i % 512 ≠ j % 512 := by omega
      simp [hij, hne]
  · have hij : j ≠ i := by
      intro h
      exact hk (by rw [h])
    rw [Function.update_of_ne hk]
    simp [hij]

theorem bit_clearBit (bs : Nat → BitVec 512) (i j : Nat) :
    bit (clearBit bs i) j = (bit bs j && decide (j ≠ i)) := by
  unfold bit clearBit
  by_cases hk : j / 512 = i / 512
  · have hj : j % 512 < 512 := Nat.mod_lt _ (by decide)
    rw [hk, Function.update_self, BitVec.getLsbD_and, BitVec.getLsbD_not, BitVec.getLsbD_twoPow]
    by_cases hij : j = i
    · subst hij
      simp [hj]
    · have hne : i % 512 ≠ j % 512 := by omega
      simp [hij, hne, hj]
  · have hij : j ≠ i := by
      intro h
      exact hk (by rw [h])
    rw [Function.update_of_ne hk]
    simp [hij]

theorem bit_setAll (bs : Nat → BitVec 512) (l : List Nat) (j : Nat) :
    bit (setAll bs l) j = (bit bs j || decide (j ∈ l)) := by
  induction l generalizing bs with
  | nil => simp [setAll]
  | cons i l ih =>
    have h := ih (setBit bs i)
    simp only [setAll, List.foldl_cons] at h ⊢
    rw [h, bit_setBit]
    simp [Bool.or_assoc]

theorem bit_clearAll (bs : Nat → BitVec 512) (l : List Nat) (j : Nat) :
    bit (clearAll bs l) j = (bit bs j && decide (j ∉ l)) := by
  induction l generalizing bs with
  | nil => simp [clearAll]
  | cons i l ih =>
    have h := ih (clearBit bs i)
    simp only [clearAll, List.foldl_cons] at h ⊢
    rw [h, bit_clearBit]
    simp [Bool.and_assoc]

/-- Two bitmaps with the same bits are the same bitmap. -/
theorem bitmap_ext {bs bs' : Nat → BitVec 512} (h : ∀ i, bit bs i = bit bs' i) : bs = bs' := by
  funext k
  apply BitVec.eq_of_getLsbD_eq
  intro j hj
  have hk := h (512 * k + j)
  unfold bit at hk
  rwa [show (512 * k + j) / 512 = k by omega, show (512 * k + j) % 512 = j by omega] at hk

/-- A bit in a full word is set. -/
theorem bit_of_wordFull {bs : Nat → BitVec 512} {i : Nat} (h : wordFull bs i = true) :
    bit bs i = true := by
  have he : (bs (i / 512)).extractLsb' (64 * (i % 512 / 64)) 64 = BitVec.allOnes 64 := by
    simpa [wordFull] using h
  have hb := congrArg (fun v => v.getLsbD (i % 64)) he
  have hm : i % 64 < 64 := Nat.mod_lt _ (by decide)
  have hpos : 64 * (i % 512 / 64) + i % 64 = i % 512 := by omega
  simp only [BitVec.getLsbD_extractLsb', BitVec.getLsbD_allOnes, hm, hpos] at hb
  simpa [bit] using hb

theorem blocks_append (us vs : List Extent) : blocks (us ++ vs) = blocks us ++ blocks vs := by
  simp [blocks]

@[simp] theorem mem_blocks_extent {e : Extent} {b : Nat} :
    b ∈ e.blocks ↔ e.lba ≤ b ∧ b < e.lba + e.len := by
  simp only [Extent.blocks, List.mem_range'_1]

theorem mem_blocks {ex : List Extent} {b : Nat} :
    b ∈ blocks ex ↔ ∃ e ∈ ex, e.lba ≤ b ∧ b < e.lba + e.len := by
  simp [blocks]

end ZCell.Allocator
