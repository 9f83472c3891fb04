import ZCell.ObjectRange
import ZCell.Bdev
import ZCell.Server

/-! The work arrays of `_tx_prep_rw_common`, 32 elements each: the elements that a request uses,
and the requests that stay within them. -/
namespace ZCell.Store
open Bytes Persist Pm Allocator Runs

inductive WorkArray where
  | dib
  | e
  | enew
  | bid
  | bid2
  deriving DecidableEq, Repr

/-- The use of an element of a work array. -/
structure Access where
  array : WorkArray
  index : Nat
  deriving DecidableEq, Repr

def accesses (array : WorkArray) (n : Nat) : List Access := (List.range n).map fun i => ⟨array, i⟩

/-- The words that `object_lba_range_get` copies to `dib`. -/
def copiedWords (zs : ZstoreContext) (r : Request) : List (BitVec 32) :=
  let words := readWords zs.pm (objectDataIndexBlock zs (zs.onode r.oid.toNat) +
    4 * (r.ofst.toNat / 2 ^ zs.zsb.ssdMinAllocSizeShift))
    (r.len.toNat / 2 ^ zs.zsb.ssdMinAllocSizeShift)
  if r.op = .write then words else words.map fun w => if w = unmapped then 0 else w

/-- What a write uses behind the lookup; `e` are the extents that it has found. -/
def writeAccesses (zs : ZstoreContext) (r : Request) (e : List Extent) : List Access :=
  if zstoreObjMaxSizeBytes < (r.ofst + r.len).toNat then []
  else
    let (rc, _, enew) := stupidAllocSpace (stupidFreeSpace zs.ssdAllocator e)
      (r.len.toNat / zstorePageSize % 2 ^ 32)
    let trims := if zs.mntFlag &&& zstoreEnableTrim ≠ 0 then
      (List.range' enew.length e.length).map fun i => ⟨.e, i⟩ else []
    accesses .bid (lbaToBitmapId e).length ++ accesses .enew enew.length ++
      if rc ≠ 0 then []
      else trims ++ accesses .bid2 (lbaToBitmapId enew).length ++ accesses .dib (blocks enew).length

/-- The elements that `_tx_prep_rw_common` uses, as if the arrays had no end. -/
def workAccesses (zs : ZstoreContext) (r : Request) : List Access :=
  if (r.op ≠ .read ∧ r.op ≠ .write) ∨ ReadRefused zs r then []
  else
    let words := copiedWords zs r
    -- the number of words to merge has 32 bits
    let e := (objectLbaMergeTo (words.take (words.length % 2 ^ 32))).1
    accesses .dib words.length ++ accesses .e e.length ++
      if r.op = .write then writeAccesses zs r e else []

/-- The word continues the extent that ends with the word before it. -/
def Follows (prev : Option (BitVec 32)) (w : BitVec 32) : Prop :=
  ∃ p ∈ prev, p.toNat + 1 = w.toNat ∧ p.toNat / 512 = w.toNat / 512

instance (prev : Option (BitVec 32)) (w : BitVec 32) : Decidable (Follows prev w) :=
  decidable_of_iff ((prev.any fun p => decide (p.toNat + 1 = w.toNat ∧
    p.toNat / 512 = w.toNat / 512)) = true) (by
      simp only [Option.any_eq_true, decide_eq_true_eq, Follows, Option.mem_def])

/-- The number of runs of neighbouring blocks in a list of index words. -/
def runs : Option (BitVec 32) → List (BitVec 32) → Nat
  | _, [] => 0
  | prev, w::ws =>
    if w = unmapped then runs none ws
    else (if Follows prev w then 0 else 1) + runs (some w) ws

/-- The number of runs of free blocks that a call for `sz` blocks takes. -/
def freeRuns (a : StupidAllocator) (sz : Nat) : Nat :=
  ((reach a sz).filter fun e => e.1.isNone).length

/-- With TRIM the extents of an overwrite, new and old, fit into one array. -/
def TrimsFit (zs : ZstoreContext) (r : Request) : Prop :=
  zs.mntFlag &&& zstoreEnableTrim ≠ 0 → ¬ zstoreObjMaxSizeBytes < (r.ofst + r.len).toNat →
  HasRoom (released zs r) r.blen → mapped (rangeWords zs r) ≠ [] →
  freeRuns (released zs r) r.blen + runs none (rangeWords zs r) ≤ 32

instance (zs : ZstoreContext) (r : Request) : Decidable (TrimsFit zs r) :=
  inferInstanceAs (Decidable (_ → _))

section Runs
variable {a : StupidAllocator} {sz : Nat}

/-- The state of the merge behind the word `prev`, with `n` words to come. -/
def EndsAt (s : Merge) (n : Nat) : Option (BitVec 32) → Prop
  | none => s.inFoundCtx = false
  | some w => s.inFoundCtx = true ∧ ∃ p ps, s.ex = p :: ps ∧ p.lba + p.len = w.toNat + 1 ∧
      1 ≤ p.len ∧ p.lba / 512 = w.toNat / 512 ∧ p.len + n ≤ zstoreIoUnitMax

theorem mergeRound_endsAt {s : Merge} {n : Nat} {prev : Option (BitVec 32)} {ba : BitVec 32}
    (h : EndsAt s (n + 1) prev) (hne : ba ≠ unmapped) (hn : n + 1 ≤ zstoreIoUnitMax) :
    EndsAt (mergeRound s ba) n (some ba) ∧
      (mergeRound s ba).ex.length = s.ex.length + if Follows prev ba then 0 else 1 := by
  have hone : 1 + n ≤ zstoreIoUnitMax := by omega
  cases prev with
  | none =>
    have hctx : s.inFoundCtx = false := h
    have hno : ¬ Follows none ba := by simp [Follows]
    simp only [mergeRound, if_neg hne, hctx, Bool.false_eq_true, if_false, if_neg hno]
    exact ⟨⟨rfl, _, _, rfl, rfl, Nat.le_refl 1, rfl, hone⟩, rfl⟩
  | some w =>
    obtain ⟨hctx, p, ps, hex, hend, hpos, hentry, hlen⟩ := h
    have hfol : Follows (some w) ba ↔ p.len + p.lba = ba.toNat ∧ p.lba / 512 = ba.toNat / 512 ∧
        p.len < zstoreIoUnitMax := by
      simp only [Follows, Option.mem_def, Option.some.injEq, exists_eq_left']
      omega
    simp only [mergeRound, if_neg hne, hctx, hex, if_true]
    by_cases hf : Follows (some w) ba
    · rw [if_pos hf, if_pos (hfol.mp hf)]
      obtain ⟨h1, h2, _⟩ := hfol.mp hf
      have hlen' : p.len + 1 + n ≤ zstoreIoUnitMax := by omega
      have hend' : p.lba + (p.len + 1) = ba.toNat + 1 := by omega
      exact ⟨⟨rfl, _, _, rfl, hend', Nat.le_add_left 1 p.len, h2, hlen'⟩, rfl⟩
    · rw [if_neg hf, if_neg fun hj => hf (hfol.mpr hj)]
      exact ⟨⟨rfl, _, _, rfl, rfl, Nat.le_refl 1, rfl, hone⟩, rfl⟩

theorem foldl_mergeRound_runs (bi : List (BitVec 32)) (s : Merge) (prev : Option (BitVec 32))
    (h : EndsAt s bi.length prev) (hlen : bi.length ≤ zstoreIoUnitMax) :
    (bi.foldl mergeRound s).ex.length = s.ex.length + runs prev bi := by
  induction bi generalizing s prev with
  | nil => rfl
  | cons ba bi ih =>
    rw [List.length_cons] at h hlen
    rw [List.foldl_cons, runs]
    by_cases hne : ba = unmapped
    · have hs : mergeRound s ba = { s with inFoundCtx := false } := by rw [mergeRound, if_pos hne]
      rw [if_pos hne, ih _ none (by rw [hs]; rfl) (by omega), hs]
    · obtain ⟨h1, h2⟩ := mergeRound_endsAt h hne hlen
      rw [if_neg hne, ih _ _ h1 (by omega), h2, Nat.add_assoc]

/-- The merge returns one extent for each run. -/
theorem merge_runs {ws : List (BitVec 32)} (h : ws.length ≤ zstoreIoUnitMax) :
    (objectLbaMergeTo ws).1.length = runs none ws := by
  have hr := foldl_mergeRound_runs ws ⟨[], false, 0⟩ none rfl h
  simpa [objectLbaMergeTo] using hr

theorem grow_length (ex : List Extent) : (grow ex).length = ex.length := by
  cases ex with
  | nil => rfl
  | cons d es => rfl

theorem stitch_length (w : List (Option Nat × Nat)) (ex : List Extent) :
    (stitch w ex).length = ex.length + (w.filter fun e => e.1.isNone).length := by
  induction w generalizing ex with
  | nil => rfl
  | cons e w ih =>
    obtain ⟨prev, i⟩ := e
    cases prev with
    | none =>
      rw [stitch, ih, List.filter_cons_of_pos rfl]
      simp only [List.length_cons]
      omega
    | some p =>
      rw [stitch, ih, grow_length, List.filter_cons_of_neg (by simp)]

/-- The allocator returns one extent for each run of free blocks. -/
theorem alloc_runs (hsz : 1 ≤ sz) (h : HasRoom a sz) :
    (stupidAllocSpace a sz).2.2.length = freeRuns a sz := by
  obtain ⟨i, _, hi⟩ := alloc_of_room hsz h
  rw [hi, List.length_reverse, stitch_length, freeRuns]
  exact Nat.zero_add _

theorem alloc_length_le (hsz : 1 ≤ sz) : (stupidAllocSpace a sz).2.2.length ≤ sz := by
  by_cases h : HasRoom a sz
  · exact (alloc_extents hsz h).2.1
  · by_cases hfew : a.nrFree < sz
    · rw [alloc_of_few hfew]
      exact Nat.zero_le sz
    · rw [alloc_of_no_room hsz (Nat.le_of_not_lt hfew) h, List.length_reverse, stitch_length]
      have h1 := List.length_filter_le (fun e : Option Nat × Nat => e.1.isNone) (reach a sz)
      have h2 : (reach a sz).length ≤ sz := walk_length ..
      exact (Nat.zero_add _).le.trans (h1.trans h2)

end Runs

section Bounds
variable {g : Uninit} {zs zs' : ZstoreContext} {r : Request} {tx tx' : ZstoreTransaction} {rc : Int}

/-- Every index is one of the 32 of the array. -/
def InArrays (l : List Access) : Prop := ∀ a ∈ l, a.index < zstoreTxIovMax

instance (l : List Access) : Decidable (InArrays l) := inferInstanceAs (Decidable (∀ a ∈ l, _))

theorem inArrays_append (l l' : List Access) : InArrays (l ++ l') ↔ InArrays l ∧ InArrays l' := by
  simp only [InArrays, List.mem_append, or_imp, forall_and]

theorem inArrays_nil : InArrays [] := by simp [InArrays]

theorem inArrays_accesses (array : WorkArray) (n : Nat) : InArrays (accesses array n) ↔ n ≤ 32 := by
  rw [InArrays, accesses, List.forall_mem_map]
  simp only [List.mem_range, zstoreTxIovMax]
  constructor
  · intro h
    by_contra hn
    exact absurd (h 32 (by omega)) (by decide)
  · intro h i hi
    omega

/-- An index that runs on from `m` for `n` elements. -/
theorem inArrays_range' (array : WorkArray) (m n : Nat) :
    InArrays ((List.range' m n).map fun i => ⟨array, i⟩) ↔ n = 0 ∨ m + n ≤ 32 := by
  rw [InArrays, List.forall_mem_map]
  simp only [List.mem_range'_1, zstoreTxIovMax]
  constructor
  · intro h
    by_contra hn
    have hlast := h (m + n - 1) (by omega)
    omega
  · intro h i hi
    omega

theorem copiedWords_length (hshift : zs.zsb.ssdMinAllocSizeShift = 12) :
    (copiedWords zs r).length = r.blen := by
  have hb : r.len.toNat / 2 ^ 12 = r.blen := rfl
  simp only [copiedWords, hshift, hb]
  split <;> simp

theorem copiedWords_write (hshift : zs.zsb.ssdMinAllocSizeShift = 12) (hop : r.op = .write) :
    copiedWords zs r = rangeWords zs r := by
  have hb : r.len.toNat / 2 ^ 12 = r.blen := rfl
  have ho : r.ofst.toNat / 2 ^ 12 = r.bofst := rfl
  simp only [copiedWords, hshift, hb, ho, if_pos hop]
  rfl

/-- A write of at most 32 blocks overruns an array with its trims only. -/
theorem writeAccesses_iff (hpos : 1 ≤ r.blen) (hle : r.blen ≤ 32) :
    InArrays (writeAccesses zs r (oldExtents zs r)) ↔ TrimsFit zs r := by
  have hmod : r.len.toNat / zstorePageSize % 2 ^ 32 = r.blen := blen_mod hle
  have hwords : (rangeWords zs r).length = r.blen := readWords_length ..
  have hold : (oldExtents zs r).length = runs none (rangeWords zs r) :=
    merge_runs (by rw [hwords]; unfold zstoreIoUnitMax; omega)
  have holdle : (oldExtents zs r).length ≤ 32 := by
    have h := merge_length (rangeWords zs r)
    exact h.trans (by omega)
  have hnil : (oldExtents zs r).length = 0 ↔ mapped (rangeWords zs r) = [] := by
    rw [List.length_eq_zero_iff]
    exact merge_nil_iff _
  have hzero := @alloc_zero_iff (released zs r) r.blen hpos
  have hruns := @alloc_runs (released zs r) r.blen hpos
  have hlen := @alloc_length_le (released zs r) r.blen hpos
  have hsum := @alloc_extents (released zs r) r.blen hpos
  have hb1 := lbaToBitmapId_length (oldExtents zs r)
  have hb2 := lbaToBitmapId_length (stupidAllocSpace (released zs r) r.blen).2.2
  rw [released] at hzero hruns hlen hsum hb2
  unfold writeAccesses TrimsFit
  rw [hmod, released]
  generalize stupidAllocSpace (stupidFreeSpace zs.ssdAllocator (oldExtents zs r)) r.blen = res at *
  obtain ⟨rc, a, enew⟩ := res
  simp only at hzero hruns hlen hsum hb2 ⊢
  split
  · rename_i hbig
    exact ⟨fun _ _ hsmall => absurd hbig hsmall, fun _ => inArrays_nil⟩
  · rename_i hsmall
    rw [inArrays_append, inArrays_append, inArrays_accesses, inArrays_accesses]
    split
    · rename_i hne
      simp only [inArrays_nil, and_true]
      exact ⟨fun _ _ _ hroom => absurd (hzero.mpr hroom) hne, fun _ => ⟨by omega, by omega⟩⟩
    · rename_i hz
      have hroom := hzero.mp (not_not.mp hz)
      obtain ⟨hcount, _, _⟩ := hsum hroom
      rw [inArrays_append, inArrays_append, inArrays_accesses, inArrays_accesses, ← hold, ← hruns hroom]
      split
      · rename_i htrim
        rw [inArrays_range', hnil]
        constructor
        · rintro ⟨_, ⟨h, _⟩, _⟩ _ _ _ hne
          exact h.resolve_left hne
        · intro h
          refine ⟨⟨by omega, by omega⟩, ⟨?_, by omega⟩, by omega⟩
          by_cases hm : mapped (rangeWords zs r) = []
          · exact Or.inl hm
          · exact Or.inr (h htrim hsmall hroom hm)
      · rename_i htrim
        refine ⟨fun _ ht => absurd ht htrim, fun _ => ⟨⟨by omega, by omega⟩, ⟨inArrays_nil, by omega⟩,
          by omega⟩⟩

theorem workAccesses_iff (hshift : zs.zsb.ssdMinAllocSizeShift = 12) (hop : r.op = .read ∨ r.op = .write) :
    InArrays (workAccesses zs r) ↔
      ReadRefused zs r ∨ r.blen ≤ 32 ∧ (r.op = .write → TrimsFit zs r) := by
  have hwords := @copiedWords_length zs r hshift
  have hrw : ¬ (r.op ≠ .read ∧ r.op ≠ .write) := by
    rintro ⟨hr, hw⟩
    exact hop.elim hr hw
  simp only [workAccesses, hrw, false_or]
  split
  · rename_i href
    simp [inArrays_nil, href]
  · rename_i hchk
    simp only [hchk, false_or]
    rw [inArrays_append, inArrays_append, inArrays_accesses, inArrays_accesses, hwords]
    constructor
    · rintro ⟨⟨hle, _⟩, h⟩
      refine ⟨hle, fun hop => ?_⟩
      rw [if_pos hop, blen_mod hle, List.take_of_length_le hwords.le, copiedWords_write hshift hop] at h
      exact (writeAccesses_iff (checked_blen hchk) hle).mp h
    · rintro ⟨hle, h⟩
      have hmerge := merge_length (copiedWords zs r)
      rw [blen_mod hle, List.take_of_length_le hwords.le]
      refine ⟨⟨hle, by omega⟩, ?_⟩
      split
      · rename_i hop
        rw [copiedWords_write hshift hop]
        exact (writeAccesses_iff (checked_blen hchk) hle).mpr (h hop)
      · exact inArrays_nil

/-- A request that passes the first checks and comes back has been looked up. -/
theorem prepare_lookup (hshift : zs.zsb.ssdMinAllocSizeShift = 12) (hop : r.op = .read ∨ r.op = .write)
    (hchk : ¬ ReadRefused zs r) (h : zstoreTxPrepare g zs r tx = .ok (rc, zs', tx')) :
    r.blen ≤ 32 ∧
      objectDataIndexBlock zs (zs.onode r.oid.toNat) + 4 * r.bofst + 4 * r.blen ≤ zs.pmem.size := by
  simp only [ReadRefused, not_or] at hchk
  obtain ⟨h1, h2, h3, h4⟩ := hchk
  have hcommon : ∀ {tx : ZstoreTransaction},
      txPrepRwCommon g { zs with tidMax := zs.tidMax + 1 } r tx = .ok (rc, zs', tx') →
      ∃ b res, objectLbaRangeGet { zs with tidMax := zs.tidMax + 1 } (zs.onode r.oid.toNat) r.ofst r.len b =
        .ok res := by
    intro tx h
    have hno : ¬ (r.op ≠ .read ∧ r.op ≠ .write) := by
      rintro ⟨hr, hw⟩
      exact hop.elim hr hw
    simp only [txPrepRwCommon] at h
    rw [if_neg hno, if_neg (not_or.mpr ⟨h1, h2⟩), if_neg h3, if_neg h4] at h
    split at h
    · cases h
    · rename_i hget
      exact ⟨_, _, hget⟩
  have hget : ∃ b res, objectLbaRangeGet { zs with tidMax := zs.tidMax + 1 } (zs.onode r.oid.toNat)
      r.ofst r.len b = .ok res := by
    unfold zstoreTxPrepare at h
    obtain hop | hop := hop
    · simp only [hop] at h
      exact hcommon (assertState_ok h).1
    · simp only [hop] at h
      exact hcommon (assertState_ok h).1
  obtain ⟨b, res, hget⟩ := hget
  obtain ⟨hle, hpm, _⟩ := @objectLbaRangeGet_ok { zs with tidMax := zs.tidMax + 1 } r _ _ _ hshift hget
  exact ⟨hle, hpm⟩

theorem objectLbaRangeGet_eq (hshift : zs.zsb.ssdMinAllocSizeShift = 12) (hle : r.blen ≤ 32)
    (hpm : objectDataIndexBlock zs (zs.onode r.oid.toNat) + 4 * r.bofst + 4 * r.blen ≤ zs.pmem.size) :
    objectLbaRangeGet zs (zs.onode r.oid.toNat) r.ofst r.len true =
      .ok (oldExtents zs r, (objectLbaMergeTo (rangeWords zs r)).2, rangeWords zs r) := by
  have hb : r.len.toNat / 2 ^ 12 = r.blen := rfl
  have ho : r.ofst.toNat / 2 ^ 12 = r.bofst := rfl
  have hmax : ¬ zstoreTxIovMax < r.blen := Nat.not_lt_of_le hle
  simp only [objectLbaRangeGet, hshift, hb, ho, if_neg hmax, if_neg (Nat.not_lt_of_le hpm), if_true]
  rfl

theorem txPrepRwCommon_write (hshift : zs.zsb.ssdMinAllocSizeShift = 12) (hop : r.op = .write)
    (hchk : ¬ ReadRefused zs r) (hle : r.blen ≤ 32)
    (hpm : objectDataIndexBlock zs (zs.onode r.oid.toNat) + 4 * r.bofst + 4 * r.blen ≤ zs.pmem.size) :
    txPrepRwCommon g zs r tx = txPrepWrite g zs r { tx with dataBuffer := r.dataBuffer }
      (zs.onode r.oid.toNat) (oldExtents zs r) r.blen := by
  have hmod : r.len.toNat / zstorePageSize % 2 ^ 32 = r.blen := blen_mod hle
  simp only [ReadRefused, not_or] at hchk
  obtain ⟨h1, h2, h3, h4⟩ := hchk
  simp only [txPrepRwCommon, hop, ne_eq, not_true_eq_false, and_false, if_false, hmod, decide_true,
    objectLbaRangeGet_eq hshift hle hpm, reduceCtorEq]
  rw [if_neg (not_or.mpr ⟨h1, h2⟩), if_neg h3, if_neg h4]

theorem Written.runs_eq (h : Written zs r zs' tx) :
    (newExtents zs r).length = freeRuns (released zs r) r.blen ∧
      (oldExtents zs r).length = runs none (rangeWords zs r) := by
  have hle := h.blen_le
  refine ⟨alloc_runs h.blen_pos h.room, merge_runs ?_⟩
  rw [rangeWords, readWords_length, zstoreIoUnitMax]
  omega

/-- A call that comes back has stayed within the arrays. -/
theorem prepare_inArrays (hshift : zs.zsb.ssdMinAllocSizeShift = 12) (hop : r.op = .read ∨ r.op = .write)
    (h : zstoreTxPrepare g zs r tx = .ok (rc, zs', tx')) : InArrays (workAccesses zs r) := by
  rw [workAccesses_iff hshift hop]
  by_cases hchk : ReadRefused zs r
  · exact Or.inl hchk
  · refine Or.inr ⟨(prepare_lookup hshift hop hchk h).1, fun hw htrim hsmall hroom hne => ?_⟩
    obtain ⟨_, href, _⟩ | ⟨_, _, _, hno, _⟩ | ⟨_, hok⟩ := prepare_write hshift hw h
    · obtain h1 | h1 | h1 | h1 | h1 := href
      · exact absurd (Or.inl h1) hchk
      · exact absurd (Or.inr (Or.inl h1)) hchk
      · exact absurd (Or.inr (Or.inr (Or.inl h1))) hchk
      · exact absurd (Or.inr (Or.inr (Or.inr h1))) hchk
      · exact absurd h1 hsmall
    · exact absurd hroom hno
    · rw [← hok.runs_eq.1, ← hok.runs_eq.2]
      exact hok.trims htrim fun hnil => hne ((merge_nil_iff _).mp hnil)

theorem txPrepWrite_workArray {oe : OtableEntry} {e : List Extent} {blen : Nat}
    (h : txPrepWrite g zs r tx oe e blen = .error .workArray) :
    ¬ zstoreObjMaxSizeBytes < (r.ofst + r.len).toNat ∧
    (stupidAllocSpace (stupidFreeSpace zs.ssdAllocator e) blen).1 = 0 ∧
    zs.mntFlag &&& zstoreEnableTrim ≠ 0 ∧ e ≠ [] ∧
    32 < (stupidAllocSpace (stupidFreeSpace zs.ssdAllocator e) blen).2.2.length + e.length := by
  have hfree : (if e = [] then zs.ssdAllocator else stupidFreeSpace zs.ssdAllocator e) =
      stupidFreeSpace zs.ssdAllocator e := by
    split
    · rename_i hnil
      rw [hnil, stupidFreeSpace_nil]
    · rfl
  simp only [txPrepWrite, hfree] at h
  split at h
  · cases h
  · rename_i hsmall
    split at h
    · cases h
    · split at h
      · cases h
      · rename_i hz
        split at h
        · rename_i hov
          exact ⟨hsmall, not_not.mp hz, hov⟩
        · split at h
          · cases h
          · split at h
            · cases h
            · cases h

theorem assertState_workArray {state : TxState} {p : Prepared}
    (h : assertState state p = .error .workArray) : p = .error .workArray := by
  unfold assertState at h
  split at h
  · split at h
    · cases h
    · cases h
  · exact h

theorem txPrepRwCommon_workArray (hshift : zs.zsb.ssdMinAllocSizeShift = 12)
    (hop : r.op = .read ∨ r.op = .write) (h : txPrepRwCommon g zs r tx = .error .workArray) :
    ¬ InArrays (workAccesses zs r) := by
  rw [workAccesses_iff hshift hop]
  rintro (hchk | ⟨hle, hfit⟩)
  · -- a refused request returns a code
    simp only [txPrepRwCommon] at h
    split at h
    · cases h
    · split at h
      · cases h
      · rename_i hlen
        split at h
        · cases h
        · rename_i hofst
          split at h
          · cases h
          · rename_i hoid
            obtain h1 | h1 | h1 | h1 := hchk
            · exact hlen (Or.inl h1)
            · exact hlen (Or.inr h1)
            · exact hofst h1
            · exact hoid h1
  · have hmod : r.len.toNat / zstorePageSize % 2 ^ 32 = r.blen := blen_mod hle
    simp only [txPrepRwCommon, hmod] at h
    split at h
    · cases h
    · split at h
      · cases h
      · rename_i hlen
        split at h
        · cases h
        · split at h
          · cases h
          · split at h
            · rename_i f hget
              have hb : r.len.toNat / 2 ^ 12 = r.blen := rfl
              have hmax : ¬ zstoreTxIovMax < r.blen := Nat.not_lt_of_le hle
              cases h
              simp only [objectLbaRangeGet, hshift, hb, if_neg hmax] at hget
              split at hget
              · cases hget
              · cases hget
            · rename_i e mb dib hget
              split at h
              · split at h
                · cases h
                · cases h
              · rename_i hnr
                have hw : r.op = .write := hop.resolve_left hnr
                obtain ⟨_, _, hres⟩ := objectLbaRangeGet_ok hshift hget
                simp only [hw, decide_true, if_true, Prod.mk.injEq] at hres
                obtain ⟨rfl, _, _⟩ := hres
                rw [not_or, not_not] at hlen
                have hpos := blen_pos hlen.1 hlen.2
                obtain ⟨hsmall, hz, htrim, hne, hov⟩ := txPrepWrite_workArray h
                have hroom : HasRoom (released zs r) r.blen := (alloc_zero_iff hpos).mp hz
                have hruns := alloc_runs hpos hroom
                have hold : (oldExtents zs r).length = runs none (rangeWords zs r) := by
                  apply merge_runs
                  rw [rangeWords, readWords_length, zstoreIoUnitMax]
                  omega
                have hsum := hfit hw htrim hsmall hroom fun hm => hne ((merge_nil_iff _).mpr hm)
                rw [← hruns, ← hold] at hsum
                exact absurd hov (Nat.not_lt_of_le hsum)

/-- The fault of the model is an index behind the arrays. -/
theorem prepare_workArray (hshift : zs.zsb.ssdMinAllocSizeShift = 12) (hop : r.op = .read ∨ r.op = .write)
    (h : zstoreTxPrepare g zs r tx = .error .workArray) : ¬ InArrays (workAccesses zs r) := by
  have hsame : workAccesses { zs with tidMax := zs.tidMax + 1 } r = workAccesses zs r := rfl
  rw [← hsame]
  unfold zstoreTxPrepare at h
  obtain hr | hw := hop
  · simp only [hr] at h
    exact txPrepRwCommon_workArray hshift (Or.inl hr) (assertState_workArray h)
  · simp only [hw] at h
    exact txPrepRwCommon_workArray hshift (Or.inr hw) (assertState_workArray h)

end Bounds

/-- In every reachable state a read or write that is not refused stays within the work arrays exactly
when it is for at most 32 blocks and, where it trims, its extents fit. -/
theorem workArrays_iff (env : Env) (w0 w : World) (r : Request) (hm : Mounted w0)
    (hrun : Run (step env) (fun _ _ => True) w0 w) (hop : r.op = .read ∨ r.op = .write) :
    InArrays (workAccesses w.zs r) ↔
      ReadRefused w.zs r ∨ r.blen ≤ 32 ∧ (r.op = .write → TrimsFit w.zs r) := by
  have hw := hrun.invariant hm.wf fun _ _ _ hi _ hs => step_wf hi hs
  exact workAccesses_iff hw.formatted.shift hop

theorem unitWrite_workArrays : InArrays (workAccesses smallWorld.zs (unitWrite 0)) :=
  (workArrays_iff smallEnv smallWorld smallWorld (unitWrite 0) smallWorld_mounted .start
    (Or.inr rfl)).mpr (Or.inr ⟨by decide, fun _ => by decide +kernel⟩)

section Stripe
open Bdev Server Messager

/-- The call of the store for a write message: `op_write_t` is read from the meta buffer. -/
def writeRequest (h : Heap (BitVec 64)) (m : Message (BitVec 64)) : Option Request :=
  m.metaBuffer.map fun op => ⟨.write, BitVec.ofNat 64 (h.field op 0 8), BitVec.ofNat 64 (h.field op 8 8),
    BitVec.ofNat 64 (h.opLen op), m.dataBuffer.getD 0⟩

/-- The first stripe of a disk of 1 GiB, written at once. -/
def stripeIo : BdevIo := ⟨false, 0, 1024, 1, 0x1000⟩

def stripeHeap : Heap (BitVec 64) :=
  ⟨fun _ o _ => if o = 16 then 4 * 2 ^ 20 else 0, fun n => some (BitVec.ofNat 64 n), BitVec.ofNat 64⟩

def stripeMessage : Message (BitVec 64) :=
  ⟨⟨0, 0, 0⟩, MsgHdr.zero.put 8 [14, 0, 0x11, 32, 0, 0, 0x40, 0], some 0x2000, some 0x1000, 7⟩

def stripeWrite : Request := ⟨.write, 0, 0, 4 * 2 ^ 20, 0x1000⟩

/-- The disk sends the I/O as it is, the server takes its message, and the store copies 1024 words. -/
theorem stripeWrite_overruns : Mounted smallWorld ∧ Inside (.ofSize 0 1) stripeIo ∧
    bdevZcellGetBufCb (.ofSize 0 1) stripeIo true =
      .ok (.submitted ⟨false, 0, stripeWrite.oid, stripeWrite.ofst, 4 * 2 ^ 20, stripeWrite.dataBuffer⟩) ∧
    ossOpValid stripeHeap stripeMessage = true ∧ writeRequest stripeHeap stripeMessage = some stripeWrite ∧
    ¬ InArrays (workAccesses smallWorld.zs stripeWrite) := by
  refine ⟨smallWorld_mounted, ⟨by decide, by decide, by decide⟩, by decide, by decide, by decide, ?_⟩
  rw [workAccesses_iff rfl (Or.inr rfl)]
  decide

end Stripe
end ZCell.Store
