import ZCell.Holding
import ZCell.OnodeHistory
import ZCell.Reserve
import Mathlib.Data.List.Pairwise
import Mathlib.Data.List.Find

/-! Which block belongs to which entry of which object, when the queued writes are counted as
done: the invariant of runs in which requests that wait for each other are apart. -/
namespace ZCell.Store
open Bytes Persist Pm Allocator Runs Holding

/-- The request writes entry `j` of the index of object `o`. -/
def Request.Covers (r : Request) (o j : Nat) : Prop :=
  r.op = .write ∧ r.object = o ∧ r.bofst ≤ j ∧ j < r.bofst + r.blen

/-- The requests are about different objects, or write different entries. -/
def Request.Apart (r s : Request) : Prop :=
  r.object ≠ s.object ∨ r.op = .write ∧ s.op = .write ∧
    (r.bofst + r.blen ≤ s.bofst ∨ s.bofst + s.blen ≤ r.bofst)

/-- The second request may wait behind the first one: they are apart, or it deletes the object
that the first one writes. -/
def Request.Before (r s : Request) : Prop := r.Apart s ∨ r.op = .write ∧ s.op = .delete

instance (r : Request) (o j : Nat) : Decidable (r.Covers o j) := inferInstanceAs (Decidable (_ ∧ _))

instance (r s : Request) : Decidable (r.Apart s) := inferInstanceAs (Decidable (_ ∨ _))

instance (r s : Request) : Decidable (r.Before s) := inferInstanceAs (Decidable (_ ∨ _))

instance (onode : Nat → OtableEntry) (o : Nat) : Decidable (Valid onode o) :=
  inferInstanceAs (Decidable (_ ∧ _))

/-- The word that the queued write `t` has for entry `j`. -/
def newEntry (w : World) (t j : Nat) : BitVec 32 :=
  (newWords (w.before t) (w.tx t).request).getD (j - (w.tx t).request.bofst) 0

/-- Entry `j` of the index of object `o` once the queue has been worked off. -/
def entryWord (w : World) (o j : Nat) : BitVec 32 :=
  match w.zs.txList.find? fun t => (w.tx t).request.Covers o j with
  | some t => newEntry w t j
  | none => indexWord w.zs.pm (1024 * (w.zs.onode o).dataIdxId + j)

/-- The SSD blocks, and the entries of the valid objects that hold them. -/
def holding (w : World) : Ledger (Nat × Nat) Nat where
  marked := {b | b < w.zs.ssdAllocator.nrTotal ∧ bit w.zs.ssdAllocator.bs b = true}
  holds s :=
    if Valid w.zs.onode s.1 ∧ s.2 < 1024 ∧ entryWord w s.1 s.2 ≠ unmapped then
      some (entryWord w s.1 s.2).toNat
    else none

/-- No queued transaction gets in the way of the request. -/
def ApartFromQueue (w : World) (r : Request) : Prop :=
  ∀ t ∈ w.zs.txList, (w.tx t).request.Apart r

/-- A write that passes its checks is to a valid object and apart from the queue; its scan opens
no extent over a gap; and if there is no room it has not released anything before. -/
def WriteFits (w : World) (r : Request) : Prop :=
  (w.zs.onode r.object).valid = true ∧ ApartFromQueue w r ∧
    if HasRoom (released w.zs r) r.blen then Neighbours (released w.zs r) r.blen
    else mapped (rangeWords w.zs r) = []

/-- The index block that a create takes was not released by a delete that is still queued. With
`rsv`, it is no block that mkfs reserved without marking it, either. -/
def IndexFits (rsv : Bool) (w : World) : Prop :=
  (∀ t ∈ w.zs.txList, (w.tx t).request.op = .delete → oldIndex w t ≠ newIndex w.zs) ∧
    ¬ (rsv = true ∧ Unmarked w (newIndex w.zs))

/-- Each request that is going to be accepted can wait behind the queue, and gets blocks that
nothing else still depends on. -/
def Orderly (rsv : Bool) (w : World) (a : Act) : Prop :=
  ∀ r ∈ callOf w a,
    (r.op = .write → ¬ Refused w.zs r → WriteFits w r) ∧
    (r.op = .create → (w.zs.onode r.object).valid = false → HasRoom w.zs.pmAllocator 1 →
      ApartFromQueue w r ∧ IndexFits rsv w) ∧
    (r.op = .delete → (w.zs.onode r.object).valid = true →
      ∀ t ∈ w.zs.txList, (w.tx t).request.Before r)

instance (w : World) (r : Request) : Decidable (ApartFromQueue w r) :=
  inferInstanceAs (Decidable (∀ t ∈ w.zs.txList, _))

instance (w : World) (r : Request) : Decidable (WriteFits w r) :=
  inferInstanceAs (Decidable (_ ∧ _ ∧ _))

instance (rsv : Bool) (w : World) : Decidable (IndexFits rsv w) :=
  inferInstanceAs (Decidable (_ ∧ _))

instance (rsv : Bool) (w : World) (a : Act) : Decidable (Orderly rsv w a) :=
  inferInstanceAs (Decidable (∀ r ∈ callOf w a, _))

/-- How two queued transactions stand to each other. -/
def Separate (w : World) (t u : Nat) : Prop :=
  (w.tx t).request.Before (w.tx u).request ∧
    ((w.tx t).request.op = .create → (w.tx u).request.op = .create →
      newIndex (w.before t) ≠ newIndex (w.before u))

/-- A queued create has an index block to itself, in which nothing is mapped yet. -/
structure IndexReady (w : World) (t : Nat) : Prop where
  bit : bit w.zs.pmAllocator.bs (newIndex (w.before t)) = true
  own : ∀ o, Valid w.zs.onode o → (w.zs.onode o).dataIdxId ≠ newIndex (w.before t)
  empty : ∀ j < 1024, indexWord w.zs.pm (1024 * newIndex (w.before t) + j) = unmapped

structure Owned (rsv : Bool) (w : World) : Prop where
  wf : WF w
  logged : Logged w
  separate : w.zs.txList.Pairwise (Separate w)
  snapshot : ∀ t ∈ w.zs.txList,
    (w.before t).onode (w.tx t).request.object = w.zs.onode (w.tx t).request.object ∧
    ((w.zs.onode (w.tx t).request.object).valid = true ↔ (w.tx t).request.op ≠ .create)
  created : ∀ t ∈ w.zs.txList, (w.tx t).request.op = .create → IndexReady w t
  index : ∀ o u, Valid w.zs.onode o → Valid w.zs.onode u →
    (w.zs.onode o).dataIdxId = (w.zs.onode u).dataIdxId → o = u
  marked : ∀ o, Valid w.zs.onode o →
    (∀ t ∈ w.zs.txList, (w.tx t).request.op = .delete → (w.tx t).request.object ≠ o) →
    bit w.zs.pmAllocator.bs (w.zs.onode o).dataIdxId = true ∨
      (rsv = true ∧ Unmarked w o ∧ (w.zs.onode o).dataIdxId = o)
  sound : Sound (holding w)

section Requests
variable {r s : Request} {o j : Nat}

theorem Request.Apart.symm (h : r.Apart s) : s.Apart r := by
  obtain h | ⟨h1, h2, h3⟩ := h
  · exact Or.inl (Ne.symm h)
  · exact Or.inr ⟨h2, h1, h3.symm⟩

theorem Request.Apart.covers (h : r.Apart s) (hr : r.Covers o j) : ¬ s.Covers o j := by
  intro hs
  obtain ⟨_, h2, h3, h4⟩ := hr
  obtain ⟨_, g2, g3, g4⟩ := hs
  obtain h | ⟨_, _, h⟩ := h
  · exact h (h2.trans g2.symm)
  · omega

theorem Request.Before.covers (h : r.Before s) (hr : r.Covers o j) : ¬ s.Covers o j := by
  obtain h | ⟨_, hd⟩ := h
  · exact h.covers hr
  · rintro ⟨hw, -⟩
    rw [hd] at hw
    cases hw

end Requests

section Entries
variable {w w' : World} {o j : Nat}

theorem separate_covers (hsep : w.zs.txList.Pairwise (Separate w)) {t u : Nat}
    (ht : t ∈ w.zs.txList) (hu : u ∈ w.zs.txList) (hne : t ≠ u)
    (hc : (w.tx t).request.Covers o j) : ¬ (w.tx u).request.Covers o j := by
  have hp : w.zs.txList.Pairwise fun t u =>
      ¬ ((w.tx t).request.Covers o j ∧ (w.tx u).request.Covers o j) :=
    hsep.imp fun h hcov => h.1.covers hcov.1 hcov.2
  have hsymm : Std.Symm fun t u =>
      ¬ ((w.tx t).request.Covers o j ∧ (w.tx u).request.Covers o j) :=
    ⟨fun _ _ h hcov => h ⟨hcov.2, hcov.1⟩⟩
  exact fun hcu => hp.forall ht hu hne ⟨hc, hcu⟩

theorem entryWord_covered (hsep : w.zs.txList.Pairwise (Separate w)) {t : Nat}
    (ht : t ∈ w.zs.txList) (hc : (w.tx t).request.Covers o j) :
    entryWord w o j = newEntry w t j := by
  unfold entryWord
  split
  · rename_i u hu
    have hcu : (w.tx u).request.Covers o j := by simpa using List.find?_some hu
    by_cases hne : t = u
    · rw [hne]
    · exact absurd hcu (separate_covers hsep ht (List.mem_of_find?_eq_some hu) hne hc)
  · rename_i hnone
    have hno := List.find?_eq_none.mp hnone t ht
    exact absurd hc (by simpa using hno)

theorem entryWord_free (h : ∀ t ∈ w.zs.txList, ¬ (w.tx t).request.Covers o j) :
    entryWord w o j = indexWord w.zs.pm (1024 * (w.zs.onode o).dataIdxId + j) := by
  have hnone : w.zs.txList.find? (fun t => (w.tx t).request.Covers o j) = none := by
    rw [List.find?_eq_none]
    intro t ht
    simpa using h t ht
  rw [entryWord, hnone]

/-- The entries only depend on the queue, the onodes and the index. -/
theorem entryWord_congr (hlist : w'.zs.txList = w.zs.txList)
    (hkeep : ∀ t ∈ w.zs.txList, (w'.tx t).request = (w.tx t).request ∧ w'.before t = w.before t)
    (hon : w'.zs.onode o = w.zs.onode o)
    (hword : indexWord w'.zs.pm (1024 * (w.zs.onode o).dataIdxId + j) =
      indexWord w.zs.pm (1024 * (w.zs.onode o).dataIdxId + j)) :
    entryWord w' o j = entryWord w o j := by
  have hfind : w'.zs.txList.find? (fun t => (w'.tx t).request.Covers o j) =
      w.zs.txList.find? (fun t => (w.tx t).request.Covers o j) := by
    rw [hlist]
    apply List.find?_congr
    intro t ht
    rw [(hkeep t ht).1]
  rw [entryWord, entryWord, hfind]
  split
  · rename_i t ht
    obtain ⟨h1, h2⟩ := hkeep t (List.mem_of_find?_eq_some ht)
    rw [newEntry, newEntry, h1, h2]
  · rw [hon, hword]

theorem holding_some {s : Nat × Nat} {b : Nat} : (holding w).holds s = some b ↔
    Valid w.zs.onode s.1 ∧ s.2 < 1024 ∧ entryWord w s.1 s.2 ≠ unmapped ∧
      (entryWord w s.1 s.2).toNat = b := by
  unfold holding
  simp only
  split
  · rename_i h
    simp [h]
  · rename_i h
    constructor
    · intro hb
      cases hb
    · rintro ⟨h1, h2, h3, _⟩
      exact absurd ⟨h1, h2, h3⟩ h

theorem holds_congr {s : Nat × Nat} (hval : Valid w'.zs.onode s.1 ↔ Valid w.zs.onode s.1)
    (hword : Valid w.zs.onode s.1 → s.2 < 1024 → entryWord w' s.1 s.2 = entryWord w s.1 s.2) :
    (holding w').holds s = (holding w).holds s := by
  apply Option.ext
  intro b
  rw [holding_some, holding_some, hval]
  constructor
  · rintro ⟨h1, h2, h3⟩
    rw [hword h1 h2] at h3
    exact ⟨h1, h2, h3⟩
  · rintro ⟨h1, h2, h3⟩
    rw [← hword h1 h2] at h3
    exact ⟨h1, h2, h3⟩

theorem holding_congr (hholds : (holding w').holds = (holding w).holds)
    (hal : w'.zs.ssdAllocator = w.zs.ssdAllocator) : holding w' = holding w := by
  have hmark : (holding w').marked = (holding w).marked := by
    simp only [holding, hal]
  generalize holding w' = l' at hholds hmark
  cases l'
  simp only at hholds hmark
  rw [hholds, hmark]

end Entries

section Blocks
variable {zs zs' : ZstoreContext} {r : Request} {tx : ZstoreTransaction} {b i : Nat}

/-- The words of a range, by entry. -/
theorem rangeWords_eq (hf : Formatted zs) : rangeWords zs r = (List.range r.blen).map fun i =>
    indexWord zs.pm (1024 * (zs.onode r.oid.toNat).dataIdxId + (r.bofst + i)) := by
  have haddr : ∀ i, objectDataIndexBlock zs (zs.onode r.oid.toNat) + 4 * r.bofst + 4 * i =
      98 * 2 ^ 20 + 4 * (1024 * (zs.onode r.oid.toNat).dataIdxId + (r.bofst + i)) := by
    intro i
    simp only [objectDataIndexBlock, hf.dySpace, zstorePageSize]
    omega
  simp only [rangeWords, readWords, haddr, indexWord]

/-- The blocks that a write releases, by entry. -/
theorem mem_mapped_range (hf : Formatted zs) : b ∈ mapped (rangeWords zs r) ↔
    ∃ j, r.bofst ≤ j ∧ j < r.bofst + r.blen ∧
      indexWord zs.pm (1024 * (zs.onode r.oid.toNat).dataIdxId + j) ≠ unmapped ∧
      (indexWord zs.pm (1024 * (zs.onode r.oid.toNat).dataIdxId + j)).toNat = b := by
  simp only [mem_mapped, rangeWords_eq hf, List.mem_map, List.mem_range]
  constructor
  · rintro ⟨v, ⟨i, hi, rfl⟩, hv⟩
    exact ⟨r.bofst + i, Nat.le_add_right _ _, by omega, hv⟩
  · rintro ⟨j, h1, h2, h3⟩
    obtain ⟨i, rfl⟩ := Nat.exists_eq_add_of_le h1
    exact ⟨_, ⟨i, by omega, rfl⟩, h3⟩

theorem bit_released : bit (released zs r).bs b =
    (bit zs.ssdAllocator.bs b && decide (b ∉ mapped (rangeWords zs r))) := by
  rw [released, stupidFreeSpace, bit_clearAll, oldExtents, blocks_merge]

theorem Written.newSsd_bs (h : Written zs r zs' tx) :
    (newSsd zs r).bs = setAll (released zs r).bs (takes (released zs r) r.blen) := by
  obtain ⟨i, _, hi⟩ := alloc_of_room h.blen_pos h.room
  rw [newSsd, hi]

theorem Written.newWords_eq (h : Written zs r zs' tx) (hn : Neighbours (released zs r) r.blen) :
    newWords zs r = (takes (released zs r) r.blen).map (BitVec.ofNat 32) := by
  obtain ⟨i, _, hi⟩ := alloc_of_room h.blen_pos h.room
  rw [newWords, newExtents, hi]
  simp only [blocks_of_neighbours hn]

/-- The new word of an entry is a block that the scan took. -/
theorem Written.newWord (hf : Formatted zs) (h : Written zs r zs' tx)
    (hn : Neighbours (released zs r) r.blen) (hi : i < r.blen) :
    ∃ hlt : i < (takes (released zs r) r.blen).length,
      ((newWords zs r).getD i 0).toNat = (takes (released zs r) r.blen)[i] ∧
      (newWords zs r).getD i 0 ≠ unmapped := by
  have hlen : i < (takes (released zs r) r.blen).length := by
    rw [takes_length h.room]
    exact hi
  have hlt := (takes_free (List.getElem_mem hlen)).1
  have htot := hf.ssdTotal
  rw [released_total] at hlt
  have hval : ((newWords zs r).getD i 0).toNat = (takes (released zs r) r.blen)[i] := by
    rw [h.newWords_eq hn, List.getD_eq_getElem?_getD, List.getElem?_map,
      List.getElem?_eq_getElem hlen, Option.map_some, Option.getD_some, BitVec.toNat_ofNat,
      Nat.mod_eq_of_lt (by omega)]
  refine ⟨hlen, hval, ?_⟩
  intro hun
  rw [hun] at hval
  have hbig : unmapped.toNat = 2 ^ 32 - 1 := by decide
  omega

theorem setAll_grows (bs : Nat → BitVec 512) (l : List Nat) {b : Nat} (h : bit bs b = true) :
    bit (setAll bs l) b = true := by
  rw [bit_setAll, h, Bool.true_or]

/-- A failing scan only sets bits. -/
theorem alloc_grows {a : StupidAllocator} {sz : Nat} (hsz : 1 ≤ sz) (hno : ¬ HasRoom a sz) {b : Nat}
    (h : bit a.bs b = true) : bit (stupidAllocSpace a sz).2.1.bs b = true := by
  by_cases hfew : a.nrFree < sz
  · rw [alloc_of_few hfew]
    exact h
  · rw [alloc_of_no_room hsz (Nat.le_of_not_lt hfew) hno]
    exact setAll_grows _ _ h

/-- A rejected call unmarks nothing but what a write has released. -/
theorem Rejects.grows {env : Env} {w w' : World} {rc : Int} (hf : Formatted w.zs)
    (h : Rejects env r w w' rc tx) (b : Nat) :
    (bit w.zs.pmAllocator.bs b = true → bit w'.zs.pmAllocator.bs b = true) ∧
    ((r.op = .write → ¬ Refused w.zs r → ¬ HasRoom (released w.zs r) r.blen →
        b ∉ mapped (rangeWords w.zs r)) →
      bit w.zs.ssdAllocator.bs b = true → bit w'.zs.ssdAllocator.bs b = true) := by
  have hprep := h.prepare
  cases hop : r.op with
  | create =>
    obtain ⟨_, al, hal, hzs⟩ | ⟨h0, _⟩ := prepare_create hop hprep
    · rw [hzs]
      refine ⟨fun hb => ?_, fun _ hb => hb⟩
      obtain rfl | ⟨rfl, hno, _⟩ := hal
      · exact hb
      · exact alloc_grows (Nat.le_refl 1) hno hb
    · exact absurd h0 h.rc_ne
  | delete =>
    obtain ⟨_, hzs⟩ | ⟨h0, _⟩ := prepare_delete hop hprep
    · rw [hzs]
      exact ⟨fun hb => hb, fun _ hb => hb⟩
    · exact absurd h0 h.rc_ne
  | read =>
    obtain ⟨_, hzs⟩ | ⟨h0, _⟩ := prepare_read hf.shift hop hprep
    · rw [hzs]
      exact ⟨fun hb => hb, fun _ hb => hb⟩
    · exact absurd h0 h.rc_ne
  | write =>
    obtain ⟨_, _, hzs⟩ | ⟨_, hchk, hpos, hno, hzs⟩ | ⟨h0, _⟩ := prepare_write hf.shift hop hprep
    · rw [hzs]
      exact ⟨fun hb => hb, fun _ hb => hb⟩
    · rw [hzs]
      refine ⟨fun hb => hb, fun hold hb => alloc_grows hpos hno ?_⟩
      rw [bit_released, decide_eq_true (hold rfl hchk hno), hb]
      rfl
    · exact absurd h0 h.rc_ne
  | other =>
    obtain ⟨_, hzs⟩ := prepare_other hop hprep
    rw [hzs]
    exact ⟨fun hb => hb, fun _ hb => hb⟩

/-- Only a write that passed its checks and found no room leaves another allocator. -/
theorem Rejects.ssd {env : Env} {w w' : World} {rc : Int} (hf : Formatted w.zs)
    (h : Rejects env r w w' rc tx) : w'.zs.ssdAllocator = w.zs.ssdAllocator ∨
      r.op = .write ∧ ¬ Refused w.zs r ∧ 1 ≤ r.blen ∧ ¬ HasRoom (released w.zs r) r.blen ∧
        w'.zs.ssdAllocator = newSsd w.zs r := by
  have hprep := h.prepare
  cases hop : r.op with
  | create =>
    obtain ⟨_, _, _, hzs⟩ | ⟨h0, _⟩ := prepare_create hop hprep
    · exact Or.inl (by rw [hzs])
    · exact absurd h0 h.rc_ne
  | delete =>
    obtain ⟨_, hzs⟩ | ⟨h0, _⟩ := prepare_delete hop hprep
    · exact Or.inl (by rw [hzs])
    · exact absurd h0 h.rc_ne
  | read =>
    obtain ⟨_, hzs⟩ | ⟨h0, _⟩ := prepare_read hf.shift hop hprep
    · exact Or.inl (by rw [hzs])
    · exact absurd h0 h.rc_ne
  | write =>
    obtain ⟨_, _, hzs⟩ | ⟨_, hchk, hpos, hno, hzs⟩ | ⟨h0, _⟩ := prepare_write hf.shift hop hprep
    · exact Or.inl (by rw [hzs])
    · exact Or.inr ⟨rfl, hchk, hpos, hno, by rw [hzs]⟩
    · exact absurd h0 h.rc_ne
  | other =>
    obtain ⟨_, hzs⟩ := prepare_other hop hprep
    exact Or.inl (by rw [hzs])

end Blocks
end ZCell.Store
