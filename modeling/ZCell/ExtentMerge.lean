import Mathlib.Data.List.SplitBy
import ZCell.DataIndex

/-! How `object_lba_merge_to` cuts an array of index words into extents. -/
namespace ZCell.Store
open Bytes Persist Pm Allocator

/-- Neighbouring words that make one extent: the second block follows the first in its bitmap entry. -/
def Joins (a b : BitVec 32) : Prop :=
  a ≠ unmapped ∧ b ≠ unmapped ∧ a.toNat + 1 = b.toNat ∧ a.toNat / 512 = b.toNat / 512

instance (a b : BitVec 32) : Decidable (Joins a b) := inferInstanceAs (Decidable (_ ∧ _))

/-- The pieces that the array falls into where two neighbours do not join. -/
def pieces (bi : List (BitVec 32)) : List (List (BitVec 32)) := bi.splitBy fun a b => decide (Joins a b)

/-- The extent of a piece; a hole has none. -/
def pieceExtent : List (BitVec 32) → Option Extent
  | [] => none
  | w::ws => if w = unmapped then none else some ⟨w.toNat, ws.length + 1⟩

/-- `++p` and `++j`: the word opens an extent. -/
def Opens (s : Merge) (ba : BitVec 32) : Prop :=
  ba ≠ unmapped ∧ ¬ (s.inFoundCtx = true ∧ ∃ p ∈ s.ex.head?,
    p.len + p.lba = ba.toNat ∧ p.lba / 512 = ba.toNat / 512 ∧ p.len < zstoreIoUnitMax)

instance (s : Merge) (ba : BitVec 32) : Decidable (Opens s ba) := inferInstanceAs (Decidable (_ ∧ ¬ (_ ∧ _)))

/-- The loop with its counter `j`, which goes to `*n`. -/
def mergeCounter (bi : List (BitVec 32)) : Nat :=
  (bi.foldl (fun t ba => (mergeRound t.1 ba, if Opens t.1 ba then t.2 + 1 else t.2))
    ((⟨[], false, 0⟩ : Merge), 0)).2

section Loop
variable {s : Merge} {a b : BitVec 32} {g bi : List (BitVec 32)} {p : Extent} {ps : List Extent}

theorem mergeRound_opens (s : Merge) (ba : BitVec 32) :
    (mergeRound s ba).ex.length = if Opens s ba then s.ex.length + 1 else s.ex.length := by
  obtain ⟨ex, ctx, n⟩ := s
  by_cases hun : ba = unmapped
  · simp [mergeRound, Opens, hun]
  · cases ctx with
    | false => simp [mergeRound, Opens, hun]
    | true =>
      cases ex with
      | nil => simp [mergeRound, Opens, hun]
      | cons p ps =>
        by_cases hj : p.len + p.lba = ba.toNat ∧ p.lba / 512 = ba.toNat / 512 ∧ p.len < zstoreIoUnitMax
        · simp [mergeRound, Opens, hun, hj]
        · have hopens : Opens ⟨p :: ps, true, n⟩ ba := by
            refine ⟨hun, fun hold => ?_⟩
            obtain ⟨_, q, hq, hc⟩ := hold
            exact hj (Option.some.inj hq ▸ hc)
          simp only [mergeRound, if_neg hun, if_true, if_neg hj, if_pos hopens, List.length_cons]

/-- The counter is the number of extents. -/
theorem mergeCounter_eq (bi : List (BitVec 32)) : mergeCounter bi = (objectLbaMergeTo bi).1.length := by
  have hfold : ∀ (s : Merge) (j : Nat), j = s.ex.length →
      (bi.foldl (fun t ba => (mergeRound t.1 ba, if Opens t.1 ba then t.2 + 1 else t.2)) (s, j)).2 =
        (bi.foldl mergeRound s).ex.length := by
    induction bi with
    | nil => exact fun s j h => h
    | cons ba bi ih =>
      intro s j h
      rw [List.foldl_cons, List.foldl_cons]
      apply ih
      rw [mergeRound_opens, h]
  rw [mergeCounter, hfold ⟨[], false, 0⟩ 0 rfl, objectLbaMergeTo, List.length_reverse]

/-- `p` is the extent of the piece `g`, which ends with the word `a`. -/
structure Grows (g : List (BitVec 32)) (a : BitVec 32) (p : Extent) : Prop where
  chain : g.IsChain fun x y => Joins x y
  last : g.getLast? = some a
  extent : pieceExtent g = some p
  word : a ≠ unmapped
  stop : p.lba + p.len = a.toNat + 1
  entry : p.lba / 512 = a.toNat / 512

theorem Grows.single (h : b ≠ unmapped) : Grows [b] b ⟨b.toNat, 1⟩ where
  chain := List.isChain_singleton b
  last := rfl
  extent := by rw [pieceExtent, if_neg h]; rfl
  word := h
  stop := rfl
  entry := rfl

/-- The cap on the length never cuts a piece, which lies within one bitmap entry. -/
theorem Grows.joins_iff (h : Grows g a p) (hb : b ≠ unmapped) : Joins a b ↔
    p.len + p.lba = b.toNat ∧ p.lba / 512 = b.toNat / 512 ∧ p.len < zstoreIoUnitMax := by
  have hstop := h.stop
  have hentry := h.entry
  simp only [Joins, h.word, hb, ne_eq, not_false_eq_true, true_and, zstoreIoUnitMax]
  omega

theorem Grows.append (h : Grows g a p) (hj : Joins a b) : Grows (g ++ [b]) b ⟨p.lba, p.len + 1⟩ where
  chain := by
    refine List.isChain_append.mpr ⟨h.chain, List.isChain_singleton b, fun x hx y hy => ?_⟩
    rw [h.last] at hx
    obtain rfl := Option.some.inj hx
    obtain rfl := Option.some.inj hy
    exact hj
  last := List.getLast?_concat
  extent := by
    have hext := h.extent
    cases g with
    | nil => cases hext
    | cons w ws =>
      rw [List.cons_append, pieceExtent] at *
      split at hext
      · cases hext
      · rename_i hw
        obtain rfl := Option.some.inj hext
        rw [if_neg hw, List.length_append, List.length_singleton]
  word := hj.2.1
  stop := by
    have hstop := h.stop
    have hnext := hj.2.2.1
    dsimp only
    omega
  entry := h.entry.trans hj.2.2.2

/-- Behind a word that does not join, the cut begins anew. -/
theorem pieces_append_cons (hlast : g.getLast? = some a) (hno : ¬ Joins a b) :
    pieces (g ++ b :: bi) = pieces g ++ pieces (b :: bi) := by
  refine List.splitBy_append_cons bi fun x hx => ?_
  rw [hlast] at hx
  obtain rfl := Option.some.inj hx
  exact decide_eq_false hno

theorem Grows.pieces (h : Grows g a p) : pieces g = [g] := by
  refine List.splitBy_of_isChain (fun hnil => ?_) (h.chain.imp fun _ _ hj => decide_eq_true hj)
  have hlast := h.last
  rw [hnil] at hlast
  cases hlast

theorem pieces_hole (bi : List (BitVec 32)) : pieces (unmapped :: bi) = [unmapped] :: pieces bi := by
  cases bi with
  | nil => rfl
  | cons b bi =>
    exact @pieces_append_cons unmapped b [unmapped] bi rfl fun hj => hj.1 rfl

theorem pieceExtent_hole : pieceExtent [unmapped] = none := by rw [pieceExtent, if_pos rfl]

/-- The induction is on the words to come: behind a hole, or behind the word `a` of the piece `g`. -/
theorem foldl_pieces (bi : List (BitVec 32)) :
    (∀ s : Merge, s.inFoundCtx = false → (bi.foldl mergeRound s).ex.reverse =
      s.ex.reverse ++ (pieces bi).filterMap pieceExtent) ∧
    ∀ (s : Merge) (g : List (BitVec 32)) (a : BitVec 32) (p : Extent) (ps : List Extent),
      Grows g a p → s.ex = p :: ps → s.inFoundCtx = true → (bi.foldl mergeRound s).ex.reverse =
        ps.reverse ++ (pieces (g ++ bi)).filterMap pieceExtent := by
  induction bi with
  | nil =>
    refine ⟨fun s _ => by simp [pieces], fun s g a p ps hg hex _ => ?_⟩
    rw [List.append_nil, hg.pieces, List.foldl_nil, hex, List.reverse_cons,
      List.filterMap_cons_some hg.extent, List.filterMap_nil]
  | cons b bi ih =>
    obtain ⟨ihOut, ihIn⟩ := ih
    constructor
    · intro s hctx
      rw [List.foldl_cons]
      by_cases hb : b = unmapped
      · subst hb
        have hround : mergeRound s unmapped = { s with inFoundCtx := false } := by simp [mergeRound]
        rw [hround, ihOut _ rfl, pieces_hole, List.filterMap_cons_none pieceExtent_hole]
      · have hround : mergeRound s b = ⟨⟨b.toNat, 1⟩ :: s.ex, true, s.mbLen + 1⟩ := by
          simp [mergeRound, hb, hctx]
        rw [hround, ihIn _ [b] b _ _ (.single hb) rfl rfl, List.singleton_append]
    · intro s g a p ps hg hex hctx
      rw [List.foldl_cons]
      by_cases hb : b = unmapped
      · subst hb
        have hround : mergeRound s unmapped = { s with inFoundCtx := false } := by simp [mergeRound]
        rw [hround, ihOut _ rfl, pieces_append_cons hg.last fun hj => hj.2.1 rfl, hg.pieces, pieces_hole,
          hex, List.reverse_cons, List.filterMap_append, List.filterMap_cons_some hg.extent,
          List.filterMap_nil, List.filterMap_cons_none pieceExtent_hole, List.append_assoc]
      · by_cases hj : Joins a b
        · have hround : mergeRound s b = ⟨⟨p.lba, p.len + 1⟩ :: ps, s.inFoundCtx, s.mbLen + 1⟩ := by
            simp only [mergeRound, if_neg hb, hctx, if_true, hex, if_pos ((hg.joins_iff hb).mp hj)]
          rw [hround, ihIn ⟨⟨p.lba, p.len + 1⟩ :: ps, s.inFoundCtx, s.mbLen + 1⟩ _ b _ ps (hg.append hj) rfl
            hctx, List.append_assoc, List.singleton_append]
        · have hround : mergeRound s b = ⟨⟨b.toNat, 1⟩ :: s.ex, s.inFoundCtx, s.mbLen + 1⟩ := by
            simp only [mergeRound, if_neg hb, hctx, if_true, hex,
              if_neg fun hc => hj ((hg.joins_iff hb).mpr hc)]
          rw [hround, ihIn ⟨⟨b.toNat, 1⟩ :: s.ex, s.inFoundCtx, s.mbLen + 1⟩ [b] b _ s.ex (.single hb) rfl
            hctx, pieces_append_cons hg.last hj, hg.pieces, hex, List.reverse_cons,
            List.filterMap_append, List.filterMap_cons_some hg.extent, List.filterMap_nil,
            List.append_assoc, List.singleton_append]
          rfl

/-- The extents are those of the pieces. -/
theorem merge_pieces (bi : List (BitVec 32)) :
    (objectLbaMergeTo bi).1 = (pieces bi).filterMap pieceExtent := by
  have h := (foldl_pieces bi).1 ⟨[], false, 0⟩ rfl
  simpa [objectLbaMergeTo] using h

/-- Along a piece the blocks are consecutive and stay in one bitmap entry. -/
theorem chain_grows (hg : g.IsChain fun x y => Joins x y) (hext : pieceExtent g = some p) :
    ∃ a, Grows g a p := by
  induction g using List.reverseRecOn generalizing p with
  | nil => cases hext
  | append_singleton g b ih =>
    obtain ⟨hchain, _, hjoin⟩ := List.isChain_append.mp hg
    cases hlast : g.getLast? with
    | none =>
      obtain rfl := List.getLast?_eq_none_iff.mp hlast
      rw [List.nil_append, pieceExtent] at hext
      split at hext
      · cases hext
      · rename_i hb
        obtain rfl := Option.some.inj hext
        exact ⟨b, .single hb⟩
    | some a =>
      have hj : Joins a b := hjoin a (by rw [hlast]; rfl) b rfl
      obtain ⟨q, hq⟩ : ∃ q, pieceExtent g = some q := by
        cases g with
        | nil => cases hlast
        | cons w ws =>
          rw [List.cons_append, pieceExtent] at hext
          rw [pieceExtent]
          split at hext
          · cases hext
          · rename_i hw
            exact ⟨_, if_neg hw⟩
      obtain ⟨a', hgr⟩ := ih hchain hq
      obtain rfl := Option.some.inj (hgr.last.symm.trans hlast)
      have happ := hgr.append hj
      obtain rfl := Option.some.inj (happ.extent.symm.trans hext)
      exact ⟨b, happ⟩

end Loop

/-- The array is cut into pieces exactly where neighbours do not join; a hole is a piece of its own. -/
structure Cut (bi : List (BitVec 32)) (gs : List (List (BitVec 32))) : Prop where
  flatten : gs.flatten = bi
  nonempty : [] ∉ gs
  inside : ∀ g ∈ gs, g.IsChain fun a b => Joins a b
  between : gs.IsChain fun g g' => ∃ hg hg', ¬ Joins (g.getLast hg) (g'.head hg')

theorem pieces_cut (bi : List (BitVec 32)) : Cut bi (pieces bi) where
  flatten := List.flatten_splitBy ..
  nonempty := List.nil_notMem_splitBy _ bi
  inside _ hg := (List.isChain_of_mem_splitBy hg).imp fun _ _ h => of_decide_eq_true h
  between := (List.isChain_getLast_head_splitBy _ bi).imp fun _ _ ⟨hg, hg', h⟩ =>
    ⟨hg, hg', of_decide_eq_false h⟩

/-- The extents list exactly the mapped words, in order, with their number and that of the words; they
are those of the pieces between which neighbours do not join, and none leaves its bitmap entry. -/
theorem merge_exact (bi : List (BitVec 32)) :
    blocks (objectLbaMergeTo bi).1 = mapped bi ∧ (objectLbaMergeTo bi).2 = (mapped bi).length ∧
    mergeCounter bi = (objectLbaMergeTo bi).1.length ∧
    (∃ gs, Cut bi gs ∧ (objectLbaMergeTo bi).1 = gs.filterMap pieceExtent) ∧
    ∀ e ∈ (objectLbaMergeTo bi).1, 1 ≤ e.len ∧ e.len ≤ zstoreIoUnitMax ∧
      (e.lba + e.len - 1) / 512 = e.lba / 512 := by
  have hcount := (foldl_mergeRound bi ⟨[], false, 0⟩).2.2.2
  refine ⟨blocks_merge bi, by simpa [objectLbaMergeTo] using hcount, mergeCounter_eq bi,
    ⟨pieces bi, pieces_cut bi, merge_pieces bi⟩, fun e he => ?_⟩
  rw [merge_pieces] at he
  obtain ⟨g, hg, hext⟩ := List.mem_filterMap.mp he
  obtain ⟨a, hgr⟩ := chain_grows ((pieces_cut bi).inside g hg) hext
  have hstop := hgr.stop
  have hentry := hgr.entry
  have hpos : 1 ≤ e.len := by
    cases g with
    | nil => cases hext
    | cons w ws =>
      rw [pieceExtent] at hext
      split at hext
      · cases hext
      · obtain rfl := Option.some.inj hext
        exact Nat.le_add_left 1 ws.length
  have hsub : e.lba + e.len - 1 = a.toNat := by omega
  refine ⟨hpos, ?_, by rw [hsub, hentry]⟩
  unfold zstoreIoUnitMax
  omega

example : (objectLbaMergeTo [5, 6, unmapped, 7, 9, 511, 512]).1 =
    [⟨5, 2⟩, ⟨7, 1⟩, ⟨9, 1⟩, ⟨511, 1⟩, ⟨512, 1⟩] := by decide

end ZCell.Store
