import ZCell.OwnershipStep

/-! The ownership of the blocks through a commit, and through any step. -/
namespace ZCell.Store
open Bytes Persist Pm Allocator Runs Holding

variable {env : Env} {rsv : Bool} {w w' : World} {a : Act} {tid : Nat} {p : PmemTransaction}

/-- The commit of the head of the queue, with what it finds. -/
structure Committing (w w' : World) (tid : Nat) : Prop where
  list : w.zs.txList = tid :: w'.zs.txList
  queued : Queued w tid
  effect : Effect (w.before tid) (w.tx tid).request w.zs w'.zs
  ssd : w'.zs.ssdAllocator = w.zs.ssdAllocator
  pma : w'.zs.pmAllocator = w.zs.pmAllocator
  keep : ∀ t ∈ w'.zs.txList, (w'.tx t).request = (w.tx t).request ∧ w'.before t = w.before t
  deleted : ∀ o, WasDeleted w' o ↔ WasDeleted w o

theorem Owned.committing (hi : Owned rsv w) (hstep : step env a w = some w')
    (hc : Commits w w' tid p) : Committing w w' tid := by
  have hq := hi.wf.queued tid (by rw [hc.head]; exact List.mem_cons_self ..)
  obtain ⟨n, hzs⟩ := hc.zs
  refine ⟨hc.head, hq, hc.effect hi.wf, by rw [hzs], by rw [hzs], fun t ht => ?_, ?_⟩
  · exact hi.wf.keeps hstep t (by rw [hc.head]; exact List.mem_cons_of_mem _ ht)
  · exact wasDeleted_other hi hstep (hc.accepted.trans (List.append_nil _).symm)
      fun t ht => absurd ht List.not_mem_nil

section Commit

theorem Committing.mem (h : Committing w w' tid) : tid ∈ w.zs.txList := by
  rw [h.list]
  exact List.mem_cons_self ..

theorem Committing.tail (h : Committing w w' tid) {t : Nat} (ht : t ∈ w'.zs.txList) :
    t ∈ w.zs.txList := by
  rw [h.list]
  exact List.mem_cons_of_mem _ ht

theorem Committing.separate (h : Committing w w' tid) (hi : Owned rsv w) :
    (∀ t ∈ w'.zs.txList, Separate w tid t) ∧ w'.zs.txList.Pairwise (Separate w') := by
  have hsep := hi.separate
  rw [h.list] at hsep
  obtain ⟨h1, h2⟩ := List.pairwise_cons.mp hsep
  exact ⟨h1, separate_congr h2 h.keep⟩

theorem Committing.ahead (h : Committing w w' tid) (hi : Owned rsv w) {t : Nat}
    (ht : t ∈ w'.zs.txList) : (w.tx tid).request.Before (w.tx t).request :=
  ((h.separate hi).1 t ht).1

/-- An entry that the head of the queue does not write. -/
theorem Committing.entryWord (h : Committing w w' tid) {o j : Nat}
    (hc : ¬ (w.tx tid).request.Covers o j)
    (hword : indexWord w'.zs.pm (1024 * (w'.zs.onode o).dataIdxId + j) =
      indexWord w.zs.pm (1024 * (w.zs.onode o).dataIdxId + j)) :
    Store.entryWord w' o j = Store.entryWord w o j := by
  have hfind : w.zs.txList.find? (fun t => (w.tx t).request.Covers o j) =
      w'.zs.txList.find? (fun t => (w'.tx t).request.Covers o j) := by
    rw [h.list, List.find?_cons_of_neg (by simpa using hc)]
    apply List.find?_congr
    intro t ht
    rw [(h.keep t ht).1]
  rw [Store.entryWord, Store.entryWord, hfind]
  split
  · rename_i t ht
    obtain ⟨h1, h2⟩ := h.keep t (List.mem_of_find?_eq_some ht)
    rw [newEntry, newEntry, h1, h2]
  · exact hword

theorem Owned.dequeue (hi : Owned rsv w) (hstep : step env a w = some w')
    (h : Committing w w' tid)
    (hsnap : ∀ t ∈ w'.zs.txList,
      w'.zs.onode (w.tx t).request.object = w.zs.onode (w.tx t).request.object)
    (hready : ∀ t ∈ w'.zs.txList, (w.tx t).request.op = .create → IndexReady w' t)
    (hindex : ∀ o u, Valid w'.zs.onode o → Valid w'.zs.onode u →
      (w'.zs.onode o).dataIdxId = (w'.zs.onode u).dataIdxId → o = u)
    (hmarked : ∀ o, Valid w'.zs.onode o →
      (∀ t ∈ w'.zs.txList, (w.tx t).request.op = .delete → (w.tx t).request.object ≠ o) →
      bit w.zs.pmAllocator.bs (w'.zs.onode o).dataIdxId = true ∨
        (rsv = true ∧ Unmarked w o ∧ (w'.zs.onode o).dataIdxId = o))
    (hsound : Sound (holding w')) : Owned rsv w' := by
  refine ⟨step_wf hi.wf hstep, step_logged hi.wf hi.logged hstep, (h.separate hi).2, ?_, ?_, hindex,
    ?_, hsound⟩
  · intro t ht
    obtain ⟨h1, h2⟩ := h.keep t ht
    rw [h1, h2, hsnap t ht]
    exact hi.snapshot t (h.tail ht)
  · intro t ht hop
    rw [(h.keep t ht).1] at hop
    exact hready t ht hop
  · intro o ho hno
    have hno' : ∀ t ∈ w'.zs.txList, (w.tx t).request.op = .delete →
        (w.tx t).request.object ≠ o := by
      intro t ht
      have hn := hno t ht
      rw [(h.keep t ht).1] at hn
      exact hn
    rw [h.pma, unmarked_congr h.deleted]
    exact hmarked o ho hno'

/-- The object of a queued request, in the onode table of its snapshot. -/
theorem Owned.object_lt (hi : Owned rsv w) {t : Nat} (ht : t ∈ w.zs.txList) :
    (w.tx t).request.object < 2 ^ 20 := by
  have hq := hi.wf.queued t ht
  obtain ⟨tx, hacc, _⟩ := hq.accepted
  exact hacc.object_lt hq.formatted

theorem Owned.commitWrite (hi : Owned rsv w) (hstep : step env a w = some w')
    (h : Committing w w' tid) (hop : (w.tx tid).request.op = .write) :
    Owned rsv w' ∧ holding w' = holding w := by
  obtain ⟨tx, hacc, _⟩ := h.queued.accepted
  have hf := h.queued.formatted
  have hwr : Written (w.before tid) (w.tx tid).request (w.after tid) tx := by
    cases hacc with
    | write _ hwr => exact hwr
    | create hop' _ => rw [hop] at hop'; cases hop'
    | delete hop' _ => rw [hop] at hop'; cases hop'
  have hobj := hwr.object_eq hf
  have hlt := hi.object_lt h.mem
  obtain ⟨hsnap, hvalid⟩ := hi.snapshot tid h.mem
  have hval : Valid w.zs.onode (w.tx tid).request.object :=
    ⟨hlt, hvalid.mpr (by rw [hop]; decide)⟩
  have hfirst : firstWord (w.before tid) (w.tx tid).request =
      1024 * (w.zs.onode (w.tx tid).request.object).dataIdxId + (w.tx tid).request.bofst := by
    rw [firstWord, ← hobj, hsnap]
  have hrange := hwr.range_le hf
  -- the onode that is logged is the one in the table
  have hon : ∀ o < 2 ^ 20, w'.zs.onode o = w.zs.onode o := by
    intro o ho
    rw [h.effect.onode o ho]
    split
    · rename_i heq
      simp only [loggedOnode, hop]
      rw [hsnap, heq]
    · rfl
  have hvalid' : ∀ o, Valid w'.zs.onode o ↔ Valid w.zs.onode o := valid_congr hon
  have hword : ∀ i j, j < 1024 →
      (i = (w.zs.onode (w.tx tid).request.object).dataIdxId →
        ¬ ((w.tx tid).request.bofst ≤ j ∧
          j < (w.tx tid).request.bofst + (w.tx tid).request.blen)) →
      indexWord w'.zs.pm (1024 * i + j) = indexWord w.zs.pm (1024 * i + j) := by
    intro i j hj hout
    rw [h.effect.index, if_neg]
    rintro ⟨-, h1, h2⟩
    rw [hfirst] at h1 h2
    exact hout (by omega) (by omega)
  have hholds : holding w' = holding w := by
    refine holding_congr (funext fun s => holds_congr (hvalid' _) fun ho hj => ?_) ?_
    · by_cases hc : (w.tx tid).request.Covers s.1 s.2
      · have hfree : ∀ t ∈ w'.zs.txList, ¬ (w'.tx t).request.Covers s.1 s.2 := by
          intro t ht
          rw [(h.keep t ht).1]
          exact (h.ahead hi ht).covers hc
        rw [entryWord_covered hi.separate h.mem hc, entryWord_free hfree, hon _ ho.1,
          h.effect.index, newEntry, hfirst]
        obtain ⟨_, hs, h1, h2⟩ := hc
        rw [← hs, if_pos ⟨hop, by omega, by omega⟩]
        congr 1
        omega
      · refine h.entryWord hc ?_
        rw [hon _ ho.1]
        refine hword _ _ hj fun heq hin => hc ⟨hop, ?_, hin⟩
        exact (hi.index _ _ ho hval heq).symm
    · rw [h.ssd]
  refine ⟨hi.dequeue hstep h ?_ ?_ ?_ ?_ (hholds ▸ hi.sound), hholds⟩
  · intro t ht
    exact hon _ (hi.object_lt (h.tail ht))
  · intro t ht hc
    have hready := hi.created t (h.tail ht) hc
    have hb := (h.keep t ht).2
    refine ⟨?_, ?_, ?_⟩
    · rw [hb, h.pma]
      exact hready.bit
    · intro o ho
      rw [hb, hon o ho.1]
      exact hready.own o ((hvalid' o).mp ho)
    · intro j hj
      rw [hb, hword _ _ hj fun heq _ => hready.own _ hval heq.symm]
      exact hready.empty j hj
  · intro o u ho hu
    rw [hon o ho.1, hon u hu.1]
    exact hi.index o u ((hvalid' o).mp ho) ((hvalid' u).mp hu)
  · intro o ho hno
    rw [hon o ho.1]
    refine hi.marked o ((hvalid' o).mp ho) fun t ht hd => ?_
    rw [h.list] at ht
    obtain rfl | ht := List.mem_cons.mp ht
    · rw [hop] at hd
      cases hd
    · exact hno t ht hd

theorem Committing.created (h : Committing w w' tid) (hop : (w.tx tid).request.op = .create) :
    newIndex (w.before tid) < 2 ^ 20 ∧ ∀ n, indexWord w'.zs.pm n = indexWord w.zs.pm n := by
  obtain ⟨tx, hacc, _⟩ := h.queued.accepted
  have hf := h.queued.formatted
  constructor
  · cases hacc with
    | write hop' _ => rw [hop] at hop'; cases hop'
    | create _ hcr =>
      have hmem : newIndex (w.before tid) ∈ takes (w.before tid).pmAllocator 1 := by
        rw [hcr.takes]
        exact List.mem_singleton_self _
      rw [← hf.pmTotal]
      exact (takes_free hmem).1
    | delete hop' _ => rw [hop] at hop'; cases hop'
  · intro n
    rw [h.effect.index, if_neg]
    rintro ⟨hw, -⟩
    rw [hop] at hw
    cases hw

theorem Owned.commitCreate (hi : Owned rsv w) (hstep : step env a w = some w')
    (h : Committing w w' tid) (hop : (w.tx tid).request.op = .create) :
    Owned rsv w' ∧ holding w' = holding w := by
  obtain ⟨hidx, hword⟩ := h.created hop
  have hlt := hi.object_lt h.mem
  obtain ⟨_, hvalid⟩ := hi.snapshot tid h.mem
  have hready := hi.created tid h.mem hop
  have hinv : ¬ Valid w.zs.onode (w.tx tid).request.object := by
    rintro ⟨-, hv⟩
    exact hvalid.mp hv hop
  have hnew : w'.zs.onode (w.tx tid).request.object =
      otableEntry (w.tx tid).request.object (newIndex (w.before tid)) := by
    rw [h.effect.onode _ hlt, if_pos rfl]
    simp only [loggedOnode, hop]
  have hnewIdx : (w'.zs.onode (w.tx tid).request.object).dataIdxId = newIndex (w.before tid) := by
    rw [hnew, otableEntry_index _ (by omega)]
  have hon : ∀ o < 2 ^ 20, o ≠ (w.tx tid).request.object → w'.zs.onode o = w.zs.onode o := by
    intro o ho hne
    rw [h.effect.onode o ho, if_neg hne]
  have hvalid' : ∀ o, Valid w'.zs.onode o →
      o = (w.tx tid).request.object ∨ Valid w.zs.onode o ∧ w'.zs.onode o = w.zs.onode o := by
    intro o ho
    by_cases hne : o = (w.tx tid).request.object
    · exact Or.inl hne
    · have hsame := hon o ho.1 hne
      exact Or.inr ⟨⟨ho.1, hsame ▸ ho.2⟩, hsame⟩
  have hclear : ∀ t ∈ w'.zs.txList, (w.tx t).request.object ≠ (w.tx tid).request.object := by
    intro t ht heq
    obtain (hne | ⟨hw, -⟩) | ⟨hw, -⟩ := h.ahead hi ht
    · exact hne heq.symm
    · rw [hop] at hw
      cases hw
    · rw [hop] at hw
      cases hw
  have hnocov : ∀ o j, ¬ (w.tx tid).request.Covers o j := by
    rintro o j ⟨hw, -⟩
    rw [hop] at hw
    cases hw
  have hholds : holding w' = holding w := by
    refine holding_congr (funext fun s => ?_) (by rw [h.ssd])
    by_cases hs : s.1 = (w.tx tid).request.object
    · -- a new object maps nothing yet
      have hnone : (holding w).holds s = none := by
        rw [Option.eq_none_iff_forall_ne_some]
        intro b hb
        exact hinv (hs ▸ (holding_some.mp hb).1)
      rw [hnone, Option.eq_none_iff_forall_ne_some]
      intro b hb
      obtain ⟨_, hj, hne, _⟩ := holding_some.mp hb
      have hfree : ∀ t ∈ w'.zs.txList, ¬ (w'.tx t).request.Covers s.1 s.2 := by
        rintro t ht ⟨-, ho, -⟩
        rw [(h.keep t ht).1] at ho
        exact hclear t ht (ho.trans hs)
      rw [entryWord_free hfree, hs, hnewIdx, hword] at hne
      exact hne (hready.empty _ hj)
    · refine holds_congr ?_ fun ho hj => ?_
      · constructor
        · intro ho
          exact ((hvalid' _ ho).resolve_left hs).1
        · rintro ⟨h1, h2⟩
          exact ⟨h1, (hon _ h1 hs).symm ▸ h2⟩
      · refine h.entryWord (hnocov _ _) ?_
        rw [hon _ ho.1 hs, hword]
  refine ⟨hi.dequeue hstep h ?_ ?_ ?_ ?_ (hholds ▸ hi.sound), hholds⟩
  · intro t ht
    exact hon _ (hi.object_lt (h.tail ht)) (hclear t ht)
  · intro t ht hc
    have hr := hi.created t (h.tail ht) hc
    have hb := (h.keep t ht).2
    refine ⟨?_, ?_, ?_⟩
    · rw [hb, h.pma]
      exact hr.bit
    · intro o ho
      rw [hb]
      obtain rfl | ⟨ho', heq⟩ := hvalid' o ho
      · rw [hnewIdx]
        exact ((h.separate hi).1 t ht).2 hop hc
      · rw [heq]
        exact hr.own o ho'
    · intro j hj
      rw [hb, hword]
      exact hr.empty j hj
  · intro o u ho hu heq
    obtain rfl | ⟨ho', h1⟩ := hvalid' o ho
    · obtain rfl | ⟨hu', h2⟩ := hvalid' u hu
      · rfl
      · rw [hnewIdx, h2] at heq
        exact absurd heq.symm (hready.own u hu')
    · obtain rfl | ⟨hu', h2⟩ := hvalid' u hu
      · rw [hnewIdx, h1] at heq
        exact absurd heq (hready.own o ho')
      · rw [h1, h2] at heq
        exact hi.index o u ho' hu' heq
  · intro o ho hno
    obtain rfl | ⟨ho', heq⟩ := hvalid' o ho
    · rw [hnewIdx]
      exact Or.inl hready.bit
    · rw [heq]
      refine hi.marked o ho' fun t ht hd => ?_
      rw [h.list] at ht
      obtain rfl | ht := List.mem_cons.mp ht
      · rw [hop] at hd
        cases hd
      · exact hno t ht hd

/-- With the object go the blocks that it maps. -/
theorem Owned.commitDelete (hi : Owned rsv w) (hstep : step env a w = some w')
    (h : Committing w w' tid) (hop : (w.tx tid).request.op = .delete) :
    Owned rsv w' ∧ (holding w').marked = (holding w).marked ∧
      (∀ s, s.1 = (w.tx tid).request.object → (holding w').holds s = none) ∧
      ∀ s, s.1 ≠ (w.tx tid).request.object → (holding w').holds s = (holding w).holds s := by
  have hlt := hi.object_lt h.mem
  have hword : ∀ n, indexWord w'.zs.pm n = indexWord w.zs.pm n := by
    intro n
    rw [h.effect.index, if_neg]
    rintro ⟨hw, -⟩
    rw [hop] at hw
    cases hw
  have hon : ∀ o < 2 ^ 20, o ≠ (w.tx tid).request.object → w'.zs.onode o = w.zs.onode o := by
    intro o ho hne
    rw [h.effect.onode o ho, if_neg hne]
  have hgone : ¬ Valid w'.zs.onode (w.tx tid).request.object := by
    rintro ⟨-, hv⟩
    rw [h.effect.onode _ hlt, if_pos rfl] at hv
    simp only [loggedOnode, hop] at hv
    rw [zero_valid] at hv
    cases hv
  have hvalid' : ∀ o, Valid w'.zs.onode o → o ≠ (w.tx tid).request.object ∧
      Valid w.zs.onode o ∧ w'.zs.onode o = w.zs.onode o := by
    intro o ho
    have hne : o ≠ (w.tx tid).request.object := by
      rintro rfl
      exact hgone ho
    have hsame := hon o ho.1 hne
    exact ⟨hne, ⟨ho.1, hsame ▸ ho.2⟩, hsame⟩
  have hclear : ∀ t ∈ w'.zs.txList, (w.tx t).request.object ≠ (w.tx tid).request.object := by
    intro t ht heq
    obtain (hne | ⟨hw, -⟩) | ⟨hw, -⟩ := h.ahead hi ht
    · exact hne heq.symm
    · rw [hop] at hw
      cases hw
    · rw [hop] at hw
      cases hw
  have hnone : ∀ s, s.1 = (w.tx tid).request.object → (holding w').holds s = none := by
    intro s hs
    rw [Option.eq_none_iff_forall_ne_some]
    intro b hb
    exact hgone (hs ▸ (holding_some.mp hb).1)
  have hsame : ∀ s, s.1 ≠ (w.tx tid).request.object →
      (holding w').holds s = (holding w).holds s := by
    intro s hs
    refine holds_congr ?_ fun ho _ => ?_
    · constructor
      · exact fun ho => (hvalid' _ ho).2.1
      · rintro ⟨h1, h2⟩
        exact ⟨h1, (hon _ h1 hs).symm ▸ h2⟩
    · refine h.entryWord ?_ (by rw [hon _ ho.1 hs, hword])
      rintro ⟨hw, -⟩
      rw [hop] at hw
      cases hw
  have hmark : (holding w').marked = (holding w).marked := by
    simp only [holding, h.ssd]
  have hforget : Forgets (holding w) (holding w') := by
    refine ⟨fun s => ?_, hmark.symm.subset⟩
    by_cases hs : s.1 = (w.tx tid).request.object
    · exact Or.inl (hnone s hs)
    · exact Or.inr (hsame s hs)
  refine ⟨hi.dequeue hstep h ?_ ?_ ?_ ?_ (hi.sound.forgets hforget), hmark, hnone, hsame⟩
  · intro t ht
    exact hon _ (hi.object_lt (h.tail ht)) (hclear t ht)
  · intro t ht hc
    have hr := hi.created t (h.tail ht) hc
    have hb := (h.keep t ht).2
    refine ⟨?_, ?_, ?_⟩
    · rw [hb, h.pma]
      exact hr.bit
    · intro o ho
      rw [hb, (hvalid' o ho).2.2]
      exact hr.own o (hvalid' o ho).2.1
    · intro j hj
      rw [hb, hword]
      exact hr.empty j hj
  · intro o u ho hu
    rw [(hvalid' o ho).2.2, (hvalid' u hu).2.2]
    exact hi.index o u (hvalid' o ho).2.1 (hvalid' u hu).2.1
  · intro o ho hno
    obtain ⟨hne, ho', heq⟩ := hvalid' o ho
    rw [heq]
    refine hi.marked o ho' fun t ht hd => ?_
    rw [h.list] at ht
    obtain rfl | ht := List.mem_cons.mp ht
    · exact Ne.symm hne
    · exact hno t ht hd

end Commit
/-- What a step does to the ownership of the blocks. -/
inductive Turn (w w' : World) (a : Act) : Prop
  | same (h : holding w' = holding w) (hssd : w'.zs.ssdAllocator = w.zs.ssdAllocator)
  | failed (r : Request) (hr : callOf w a = some r) (hop : r.op = .write)
      (hchk : ¬ Refused w.zs r) (hpos : 1 ≤ r.blen) (hno : ¬ HasRoom (released w.zs r) r.blen)
      (hholds : (holding w').holds = (holding w).holds)
      (hssd : w'.zs.ssdAllocator = newSsd w.zs r)
  | written (r : Request) (zs : ZstoreContext) (tx : ZstoreTransaction)
      (hr : callOf w a = some r) (hop : r.op = .write) (hwr : Written w.zs r zs tx)
      (hm : Moved {s | r.Covers s.1 s.2} (holding w) (holding w'))
      (hssd : w'.zs.ssdAllocator = newSsd w.zs r)
  | deleted (t : Nat) (ht : w.zs.txList.head? = some t) (hop : (w.tx t).request.op = .delete)
      (hgone : ∀ s, s.1 = (w.tx t).request.object → (holding w').holds s = none)
      (hstay : ∀ s, s.1 ≠ (w.tx t).request.object → (holding w').holds s = (holding w).holds s)
      (hssd : w'.zs.ssdAllocator = w.zs.ssdAllocator)

theorem Owned.accept {r : Request} {zs : ZstoreContext} {tx : ZstoreTransaction}
    (hi : Owned rsv w) (hok : Orderly rsv w a) (hr : callOf w a = some r)
    (hstep : step env a w = some w') (ha : Accepts r w w' zs tx) :
    Owned rsv w' ∧ Turn w w' a := by
  have hf := hi.wf.formatted
  obtain ⟨hwrite, hcreate, hdelete⟩ := hok r hr
  obtain ⟨hop, hread, n, l, hzs⟩ | ⟨hacc, n, hzs⟩ := ha.kind
  · obtain ⟨h1, h2⟩ := hi.acceptRead hstep ha hop hread hzs
    exact ⟨h1, .same h2 (by rw [hzs, hread.store])⟩
  · have he := ha.enqueued hi.wf hstep hacc hzs
    have hnodel : r.op ≠ .delete → ∀ o, WasDeleted w' o ↔ WasDeleted w o := by
      intro hne
      refine wasDeleted_other hi hstep ha.accepted fun t ht => ?_
      obtain rfl := List.mem_singleton.mp ht
      rw [he.request]
      exact hne
    cases hacc with
    | write hop hwr =>
      obtain ⟨h1, h2⟩ := hi.acceptWrite hstep he hop hwr hzs (hnodel (by rw [hop]; decide))
        (hwrite hop hwr.checked)
      exact ⟨h1, .written r zs tx hr hop hwr h2 (by rw [hzs, hwr.store])⟩
    | create hop hcr =>
      obtain ⟨hapart, hfit⟩ := hcreate hop hcr.invalid hcr.room
      obtain ⟨h1, h2⟩ := hi.acceptCreate hstep he hop hcr hzs (hnodel (by rw [hop]; decide))
        hapart hfit
      exact ⟨h1, .same h2 (by rw [hzs, hcr.store])⟩
    | delete hop hdl =>
      obtain ⟨h1, h2⟩ := hi.acceptDelete hstep he ha hop hdl hzs (hdelete hop hdl.valid)
      exact ⟨h1, .same h2 (by rw [hzs, hdl.store])⟩

theorem Owned.commit (hi : Owned rsv w) (hstep : step env a w = some w')
    (hc : Commits w w' tid p) : Owned rsv w' ∧ Turn w w' a := by
  have h := hi.committing hstep hc
  obtain ⟨tx, hacc, _⟩ := h.queued.accepted
  cases hacc with
  | write hop _ =>
    obtain ⟨h1, h2⟩ := hi.commitWrite hstep h hop
    exact ⟨h1, .same h2 h.ssd⟩
  | create hop _ =>
    obtain ⟨h1, h2⟩ := hi.commitCreate hstep h hop
    exact ⟨h1, .same h2 h.ssd⟩
  | delete hop _ =>
    obtain ⟨h1, _, h3, h4⟩ := hi.commitDelete hstep h hop
    refine ⟨h1, .deleted tid ?_ hop h3 h4 h.ssd⟩
    rw [h.list]
    rfl

/-- Every step under the condition keeps the ownership. -/
theorem Owned.step (hi : Owned rsv w) (hok : Orderly rsv w a) (hstep : step env a w = some w') :
    Owned rsv w' ∧ Turn w w' a := by
  obtain hq | ⟨r, hr, ⟨rc, tx, hrej⟩ | ⟨zs, tx, ha⟩⟩ | ⟨tid, p, hc⟩ := step_cases hi.wf hstep
  · obtain ⟨h1, h2⟩ := hi.quiet hstep hq
    exact ⟨h1, .same h2 hq.zs.ssdAllocator⟩
  · obtain ⟨h1, h2, _⟩ := hi.reject hok hr hstep hrej
    refine ⟨h1, ?_⟩
    obtain hssd | ⟨hop, hchk, hpos, hno, hssd⟩ := hrej.ssd hi.wf.formatted
    · exact .same (holding_congr h2 (by rw [hssd])) hssd
    · exact .failed r hr hop hchk hpos hno h2 hssd
  · exact hi.accept hok hr hstep ha
  · exact hi.commit hstep hc

end ZCell.Store
