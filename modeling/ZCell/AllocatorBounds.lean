import ZCell.AllocatorSpec
import ZCell.AllocatorLoad
import ZCell.Runs

/-! The bitmap entries that the allocator touches, and the entries that it has memory for: the
constructor rounds the size of the memory down, and the number of entries up. -/
namespace ZCell.Allocator
open Runs

/-- The entries that the constructor gets from `calloc`. -/
def storageEntrys (nrTotal : Nat) : Nat := nrTotal / 512

/-- The entries that the counting loop looks at from position `i` on. -/
def countAccesses (bs : Nat → BitVec 512) (stop : Nat) : Nat → Nat → List Nat
  | 0, _ => []
  | n+1, i =>
    if i < stop then
      i / 512 :: if i + 64 < stop ∧ wordEmpty bs i = true then countAccesses bs stop n (i + 64)
        else countAccesses bs stop n (i + 1)
    else []

/-- The entries that `stupid_allocator_init_bitmap_entry` copies to and counts in. -/
def initAccesses (a : StupidAllocator) (entryIndex : Nat) (src : BitVec 512) : List Nat :=
  let stop := if a.nrTotal < (entryIndex + 1) * 512 then a.nrTotal else (entryIndex + 1) * 512
  entryIndex :: countAccesses (Function.update a.bs entryIndex src) stop 512 (entryIndex * 512)

/-- Each round of the scan reads the word of its position, and may set a bit in it. -/
def scanAccesses (nrTotal last sz : Nat) : Nat → Scan → List Nat
  | 0, _ => []
  | n+1, s =>
    if s.it < last then
      s.it % nrTotal / 512 :: match scanRound nrTotal sz s with
        | .go s' => scanAccesses nrTotal last sz n s'
        | .hit _ _ => []
    else []

def allocAccesses (a : StupidAllocator) (sz : Nat) : List Nat :=
  if a.nrFree < sz then []
  else scanAccesses a.nrTotal (a.nrTotal + a.hint) sz a.nrTotal ⟨a.bs, a.hint, 0, [], false, false⟩

def freeAccesses (ex : List Extent) : List Nat := (blocks ex).map (· / 512)

inductive Call where
  | alloc (sz : Nat)
  | free (ex : List Extent)

/-- Blocks are given back that the device has. -/
def call (c : Call) (a : StupidAllocator) : Option StupidAllocator :=
  match c with
  | .alloc sz => some (stupidAllocSpace a sz).2.1
  | .free ex => if ∀ b ∈ blocks ex, b < a.nrTotal then some (stupidFreeSpace a ex) else none

/-- The states after the load loop of mount and any calls; `b` is the memory at `bs_`, also behind
what is allocated, and `src` the image of the bitmap. -/
def Reached (b src : Nat → BitVec 512) (nrTotal : Nat) : StupidAllocator → Prop :=
  Run call (fun _ _ => True) (loadEntries src (stupidAllocatorConstructor b nrTotal).nrEntrys
    (stupidAllocatorConstructor b nrTotal))

/-- No access is behind the memory of the bitmap. -/
structure InBounds (nrTotal : Nat) : Prop where
  init : ∀ b src, ∀ i < (stupidAllocatorConstructor b nrTotal).nrEntrys,
    ∀ k ∈ initAccesses (loadEntries src i (stupidAllocatorConstructor b nrTotal)) i (src i),
      k < storageEntrys nrTotal
  alloc : ∀ b src a, Reached b src nrTotal a → ∀ sz, ∀ k ∈ allocAccesses a sz,
    k < storageEntrys nrTotal
  free : ∀ b src a, Reached b src nrTotal a → ∀ ex, (∀ i ∈ blocks ex, i < nrTotal) →
    ∀ k ∈ freeAccesses ex, k < storageEntrys nrTotal

section Accesses
variable {nrTotal last sz : Nat}

theorem countAccesses_entry {bs : Nat → BitVec 512} {stop e : Nat} (hstop : stop ≤ (e + 1) * 512)
    (n i : Nat) (hi : e * 512 ≤ i) : ∀ k ∈ countAccesses bs stop n i, k = e := by
  induction n generalizing i with
  | zero => simp [countAccesses]
  | succ n ih =>
    intro k hk
    simp only [countAccesses] at hk
    split at hk
    · obtain rfl | hk := List.mem_cons.mp hk
      · omega
      · split at hk
        · exact ih (i + 64) (by omega) k hk
        · exact ih (i + 1) (by omega) k hk
    · cases hk

/-- Loading an entry touches this entry only. -/
theorem mem_initAccesses (a : StupidAllocator) (e : Nat) (src : BitVec 512) :
    ∀ k ∈ initAccesses a e src, k = e := by
  intro k hk
  obtain rfl | hk := List.mem_cons.mp hk
  · rfl
  · exact countAccesses_entry (by split <;> omega) 512 (e * 512) (Nat.le_refl _) k hk

theorem scanAccesses_lt (hpos : 0 < nrTotal) (n : Nat) (s : Scan) :
    ∀ k ∈ scanAccesses nrTotal last sz n s, ∃ i < nrTotal, k = i / 512 := by
  induction n generalizing s with
  | zero => simp [scanAccesses]
  | succ n ih =>
    intro k hk
    simp only [scanAccesses] at hk
    split at hk
    · obtain rfl | hk := List.mem_cons.mp hk
      · exact ⟨_, Nat.mod_lt _ hpos, rfl⟩
      · split at hk
        · exact ih _ k hk
        · cases hk
    · cases hk

/-- Whatever the hint is, a call looks at entries of blocks of the device. -/
theorem mem_allocAccesses (a : StupidAllocator) (sz : Nat) :
    ∀ k ∈ allocAccesses a sz, ∃ i < a.nrTotal, k = i / 512 := by
  intro k hk
  unfold allocAccesses at hk
  split at hk
  · cases hk
  · obtain hz | hpos := Nat.eq_zero_or_pos a.nrTotal
    · rw [hz] at hk
      cases hk
    · exact scanAccesses_lt hpos _ _ k hk

theorem alloc_nrTotal (a : StupidAllocator) (sz : Nat) :
    (stupidAllocSpace a sz).2.1.nrTotal = a.nrTotal := by
  unfold stupidAllocSpace
  split
  · rfl
  · split <;> rfl

theorem call_nrTotal {c : Call} {a a' : StupidAllocator} (h : call c a = some a') :
    a'.nrTotal = a.nrTotal := by
  cases c with
  | alloc sz =>
    obtain rfl := Option.some.inj h
    exact alloc_nrTotal a sz
  | free ex =>
    simp only [call] at h
    split at h
    · obtain rfl := Option.some.inj h
      rfl
    · cases h

theorem reached_nrTotal {b src : Nat → BitVec 512} {a : StupidAllocator}
    (h : Reached b src nrTotal a) : a.nrTotal = nrTotal := by
  refine h.invariant ?_ fun s c s' hs _ hstep => (call_nrTotal hstep).trans hs
  exact congrArg StupidAllocator.nrTotal (loadEntries_spec b src nrTotal _ (Nat.le_refl _))

end Accesses

/-- The accesses stay in bounds exactly for the sizes that fill their last entry. -/
theorem inBounds_iff (nrTotal : Nat) : InBounds nrTotal ↔ nrTotal % 512 = 0 := by
  constructor
  · intro h
    by_contra hne
    -- the last entry that mount loads holds the blocks behind the last full entry
    have hlast := h.init (fun _ => 0) (fun _ => 0) (nrTotal / 512) (by
      simp only [stupidAllocatorConstructor]
      omega) (nrTotal / 512) (List.mem_cons_self ..)
    exact Nat.lt_irrefl _ hlast
  · intro h
    have hentry : ∀ i < nrTotal, i / 512 < storageEntrys nrTotal := by
      intro i hi
      rw [storageEntrys]
      omega
    constructor
    · intro b src i hi k hk
      obtain rfl := mem_initAccesses _ _ _ k hk
      simp only [stupidAllocatorConstructor, storageEntrys] at hi ⊢
      omega
    · intro b src a ha sz k hk
      obtain ⟨i, hi, rfl⟩ := mem_allocAccesses a sz k hk
      exact hentry i (reached_nrTotal ha ▸ hi)
    · intro b src a _ ex hex k hk
      obtain ⟨i, hi, rfl⟩ := List.mem_map.mp hk
      exact hentry i (hex i hi)

/-- A device of 1000 blocks has memory for one entry and two to load. -/
theorem thousand_not_inBounds : (stupidAllocatorConstructor (fun _ => 0) 1000).nrEntrys = 2 ∧
    storageEntrys 1000 = 1 ∧ ¬ InBounds 1000 := by
  refine ⟨by decide, by decide, fun h => ?_⟩
  have hinit := h.init (fun _ => 0) (fun _ => 0) 1 (by decide) 1 (List.mem_cons_self ..)
  exact absurd hinit (by decide)

end ZCell.Allocator
