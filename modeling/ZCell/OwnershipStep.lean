import ZCell.Ownership

/-! The ownership of the blocks through each kind of step. -/
namespace ZCell.Store
open Bytes Persist Pm Allocator Runs Holding

variable {env : Env} {rsv : Bool} {w w' : World} {a : Act}

section Keep

theorem separate_congr {l : List Nat} (hsep : l.Pairwise (Separate w))
    (hkeep : ∀ t ∈ l, (w'.tx t).request = (w.tx t).request ∧ w'.before t = w.before t) :
    l.Pairwise (Separate w') := by
  refine hsep.imp_of_mem fun {t u} ht hu h => ?_
  obtain ⟨h1, h2⟩ := hkeep t ht
  obtain ⟨g1, g2⟩ := hkeep u hu
  rwa [Separate, h1, h2, g1, g2]

theorem indexReady_congr {t : Nat} (h : IndexReady w t) (hb : w'.before t = w.before t)
    (hbits : ∀ b, bit w.zs.pmAllocator.bs b = true → bit w'.zs.pmAllocator.bs b = true)
    (hon : w'.zs.onode = w.zs.onode) (hpm : w'.zs.pm = w.zs.pm) : IndexReady w' t := by
  refine ⟨?_, ?_, ?_⟩
  · rw [hb]
    exact hbits _ h.bit
  · rw [hb, hon]
    exact h.own
  · rw [hb, hpm]
    exact h.empty

theorem unmarked_congr (hdel : ∀ o, WasDeleted w' o ↔ WasDeleted w o) (o : Nat) :
    Unmarked w' o ↔ Unmarked w o := by
  rw [Unmarked, Unmarked, hdel]

/-- Requests that are accepted without being a delete. -/
theorem wasDeleted_other {l : List Nat} (hi : Owned rsv w) (hstep : step env a w = some w')
    (hacc : w'.accepted = w.accepted ++ l) (hl : ∀ t ∈ l, (w'.tx t).request.op ≠ .delete)
    (o : Nat) : WasDeleted w' o ↔ WasDeleted w o := by
  rw [wasDeleted_append hacc fun t ht =>
    ((step_keeps hi.wf hstep).2 t (hi.logged.1 t ht)).1.1]
  constructor
  · rintro (h | ⟨t, ht, hop, _⟩)
    · exact h
    · exact absurd hop (hl t ht)
  · exact Or.inl

/-- Nothing changes but marks that are added. -/
theorem Owned.keep (hi : Owned rsv w) (hstep : step env a w = some w')
    (hlist : w'.zs.txList = w.zs.txList) (hon : w'.zs.onode = w.zs.onode)
    (hpm : w'.zs.pm = w.zs.pm)
    (hbits : ∀ b, bit w.zs.pmAllocator.bs b = true → bit w'.zs.pmAllocator.bs b = true)
    (htotal : w'.zs.ssdAllocator.nrTotal = w.zs.ssdAllocator.nrTotal)
    (hssd : ∀ b, bit w.zs.ssdAllocator.bs b = true → bit w'.zs.ssdAllocator.bs b = true)
    (hdel : ∀ o, WasDeleted w' o ↔ WasDeleted w o) :
    Owned rsv w' ∧ (holding w').holds = (holding w).holds := by
  have hkeep := hi.wf.keeps hstep
  have hholds : (holding w').holds = (holding w).holds := by
    funext s
    refine holds_congr (by rw [hon]) fun _ _ => ?_
    exact entryWord_congr hlist hkeep (by rw [hon]) (by rw [hpm])
  refine ⟨⟨step_wf hi.wf hstep, step_logged hi.wf hi.logged hstep, ?_, ?_, ?_, ?_, ?_, ?_⟩, hholds⟩
  · rw [hlist]
    exact separate_congr hi.separate hkeep
  · intro t ht
    rw [hlist] at ht
    obtain ⟨h1, h2⟩ := hkeep t ht
    rw [h1, h2, hon]
    exact hi.snapshot t ht
  · intro t ht hop
    rw [hlist] at ht
    obtain ⟨h1, h2⟩ := hkeep t ht
    rw [h1] at hop
    exact indexReady_congr (hi.created t ht hop) h2 hbits hon hpm
  · rw [hon]
    exact hi.index
  · intro o ho hno
    rw [hon] at ho ⊢
    rw [hlist] at hno
    rw [unmarked_congr hdel]
    have hno' : ∀ t ∈ w.zs.txList, (w.tx t).request.op = .delete →
        (w.tx t).request.object ≠ o := by
      intro t ht hop
      have h1 := (hkeep t ht).1
      rw [← h1] at hop ⊢
      exact hno t ht hop
    exact (hi.marked o ho hno').imp_left (hbits _)
  · refine hi.sound.forgets ⟨fun s => Or.inr (congrFun hholds s), ?_⟩
    exact fun b hb => ⟨htotal ▸ hb.1, hssd b hb.2⟩

theorem Owned.quiet (hi : Owned rsv w) (hstep : step env a w = some w') (hq : Quiet w w') :
    Owned rsv w' ∧ holding w' = holding w := by
  have hon : w'.zs.onode = w.zs.onode := funext (onode_congr hq.zs.mem hq.zs.otable)
  have hdel := wasDeleted_other hi hstep (hq.accepted.trans (List.append_nil _).symm)
    (fun t ht => absurd ht List.not_mem_nil)
  obtain ⟨h1, h2⟩ := hi.keep hstep hq.zs.txList hon hq.zs.pm
    (fun b hb => by rw [hq.zs.pmAllocator]; exact hb) (by rw [hq.zs.ssdAllocator])
    (fun b hb => by rw [hq.zs.ssdAllocator]; exact hb) hdel
  exact ⟨h1, holding_congr h2 (by rw [hq.zs.ssdAllocator])⟩

theorem Owned.reject {r : Request} {rc : Int} {tx : ZstoreTransaction} (hi : Owned rsv w)
    (hok : Orderly rsv w a) (hr : callOf w a = some r) (hstep : step env a w = some w')
    (hrej : Rejects env r w w' rc tx) :
    Owned rsv w' ∧ (holding w').holds = (holding w).holds ∧
      ∀ b, bit w.zs.ssdAllocator.bs b = true → bit w'.zs.ssdAllocator.bs b = true := by
  have hf := hi.wf.formatted
  have hfr := (prepare_rejected hf.shift hrej.rc_ne hrej.prepare).frame
  have hon : w'.zs.onode = w.zs.onode := funext (onode_congr (by rw [hfr]) (by rw [hfr]))
  have hdel := wasDeleted_other hi hstep (hrej.accepted.trans (List.append_nil _).symm)
    (fun t ht => absurd ht List.not_mem_nil)
  have hold : ∀ b, r.op = .write → ¬ Refused w.zs r → ¬ HasRoom (released w.zs r) r.blen →
      b ∉ mapped (rangeWords w.zs r) := by
    intro b hop hchk hno
    obtain ⟨_, _, hfit⟩ := (hok r hr).1 hop hchk
    rw [if_neg hno] at hfit
    rw [hfit]
    exact List.not_mem_nil
  have hssd := fun b => (hrej.grows hf b).2 (hold b)
  have htotal : w'.zs.ssdAllocator.nrTotal = w.zs.ssdAllocator.nrTotal := by
    obtain hal | ⟨_, _, _, _, hal⟩ := hrej.ssd hf
    · rw [hal]
    · rw [hal, (newSsd_total w.zs r).1]
  obtain ⟨h1, h2⟩ := hi.keep hstep (by rw [hfr]) hon (by rw [hfr])
    (fun b => (hrej.grows hf b).1) htotal hssd hdel
  exact ⟨h1, h2, hssd⟩

end Keep

section Accept
variable {r : Request} {zs : ZstoreContext} {tx : ZstoreTransaction} {n : Nat}

/-- What an accepted create, delete or write leaves of the transaction and of the queue. -/
structure Enqueued (r : Request) (w w' : World) : Prop where
  list : w'.zs.txList = w.zs.txList ++ [w.zs.tidMax]
  request : (w'.tx w.zs.tidMax).request = r
  before : w'.before w.zs.tidMax = w.zs
  onode : w'.zs.onode = w.zs.onode
  keep : ∀ t ∈ w.zs.txList, (w'.tx t).request = (w.tx t).request ∧ w'.before t = w.before t

theorem Accepts.enqueued (hw : WF w) (hstep : step env a w = some w') (ha : Accepts r w w' zs tx)
    (hacc : Accepted w.zs r zs tx) (hzs : w'.zs = { zs with
      txOutstanding := n, txList := zs.txList ++ [w.zs.tidMax] }) : Enqueued r w w' := by
  obtain ⟨_, _, hot, _, hlist, hmem⟩ := hacc.formatted hw.formatted
  refine ⟨by rw [hzs, hlist], ?_, ?_, funext (onode_congr ?_ ?_), hw.keeps hstep⟩
  · exact ha.request_self
  · exact ha.before_self
  · rw [hzs]
    exact hmem
  · rw [hzs]
    exact hot

/-- An entry that the new transaction does not write stays as it is. -/
theorem Enqueued.entryWord (he : Enqueued r w w') {o j : Nat} (hc : ¬ r.Covers o j)
    (hword : indexWord w'.zs.pm (1024 * (w.zs.onode o).dataIdxId + j) =
      indexWord w.zs.pm (1024 * (w.zs.onode o).dataIdxId + j)) :
    Store.entryWord w' o j = Store.entryWord w o j := by
  have hlast : ([w.zs.tidMax].find? fun t => (w'.tx t).request.Covers o j) = none := by
    simp [he.request, hc]
  have hfind : w'.zs.txList.find? (fun t => (w'.tx t).request.Covers o j) =
      w.zs.txList.find? (fun t => (w.tx t).request.Covers o j) := by
    rw [he.list, List.find?_append, hlast, Option.or_none]
    apply List.find?_congr
    intro t ht
    rw [(he.keep t ht).1]
  rw [Store.entryWord, Store.entryWord, hfind]
  split
  · rename_i t ht
    obtain ⟨h1, h2⟩ := he.keep t (List.mem_of_find?_eq_some ht)
    rw [newEntry, newEntry, h1, h2]
  · rw [he.onode, hword]

theorem Owned.enqueue (hi : Owned rsv w) (hstep : step env a w = some w') (he : Enqueued r w w')
    (hbehind : ∀ t ∈ w.zs.txList, (w.tx t).request.Before r)
    (hvalid : (w.zs.onode r.object).valid = true ↔ r.op ≠ .create)
    (hindex : r.op = .create → ∀ t ∈ w.zs.txList, (w.tx t).request.op = .create →
      newIndex (w.before t) ≠ newIndex w.zs)
    (hold : ∀ t ∈ w.zs.txList, (w.tx t).request.op = .create → IndexReady w' t)
    (hnew : r.op = .create → IndexReady w' w.zs.tidMax)
    (hmarked : ∀ o, Valid w.zs.onode o →
      (∀ t ∈ w'.zs.txList, (w'.tx t).request.op = .delete → (w'.tx t).request.object ≠ o) →
      bit w'.zs.pmAllocator.bs (w.zs.onode o).dataIdxId = true ∨
        (rsv = true ∧ Unmarked w' o ∧ (w.zs.onode o).dataIdxId = o))
    (hsound : Sound (holding w')) : Owned rsv w' := by
  have hcases : ∀ t ∈ w'.zs.txList, t ∈ w.zs.txList ∨ t = w.zs.tidMax := by
    intro t ht
    rw [he.list] at ht
    exact (List.mem_append.mp ht).imp_right List.mem_singleton.mp
  refine ⟨step_wf hi.wf hstep, step_logged hi.wf hi.logged hstep, ?_, ?_, ?_, ?_, ?_, hsound⟩
  · rw [he.list]
    refine List.pairwise_append.mpr ⟨separate_congr hi.separate he.keep,
      List.pairwise_singleton _ _, fun t ht u hu => ?_⟩
    obtain rfl := List.mem_singleton.mp hu
    obtain ⟨h1, h2⟩ := he.keep t ht
    rw [Separate, h1, h2, he.request, he.before]
    exact ⟨hbehind t ht, fun hc hr => hindex hr t ht hc⟩
  · intro t ht
    rw [he.onode]
    obtain ht | rfl := hcases t ht
    · obtain ⟨h1, h2⟩ := he.keep t ht
      rw [h1, h2]
      exact hi.snapshot t ht
    · rw [he.request, he.before]
      exact ⟨rfl, hvalid⟩
  · intro t ht hop
    obtain ht | rfl := hcases t ht
    · rw [(he.keep t ht).1] at hop
      exact hold t ht hop
    · rw [he.request] at hop
      exact hnew hop
  · rw [he.onode]
    exact hi.index
  · rw [he.onode]
    exact hmarked

/-- The deletes in the longer queue are those of the queue before, or the new one. -/
theorem Enqueued.deletes (he : Enqueued r w w') {o : Nat}
    (hno : ∀ t ∈ w'.zs.txList, (w'.tx t).request.op = .delete → (w'.tx t).request.object ≠ o) :
    (∀ t ∈ w.zs.txList, (w.tx t).request.op = .delete → (w.tx t).request.object ≠ o) ∧
      (r.op = .delete → r.object ≠ o) := by
  constructor
  · intro t ht hop
    have h := hno t (by rw [he.list]; exact List.mem_append_left _ ht)
    rw [(he.keep t ht).1] at h
    exact h hop
  · intro hop
    have h := hno w.zs.tidMax (by rw [he.list]; simp)
    rw [he.request] at h
    exact h hop

theorem newIndex_free {zs : ZstoreContext} (h : HasRoom zs.pmAllocator 1) :
    bit zs.pmAllocator.bs (newIndex zs) = false := by
  obtain ⟨b, hb, hext⟩ := alloc_one h
  have hidx : newIndex zs = b := by
    rw [newIndex, hext]
    rfl
  refine (@takes_free zs.pmAllocator 1 _ ?_).2
  rw [hidx, hb]
  exact List.mem_singleton_self _

/-- The entries that an accepted write covers hold, before and after, what its prepare function
released and took. -/
theorem Enqueued.covered (he : Enqueued r w w') (hi : Owned rsv w)
    (hsep : w'.zs.txList.Pairwise (Separate w')) (hacc : Written w.zs r zs tx)
    (hapart : ApartFromQueue w r) (hn : Neighbours (released w.zs r) r.blen) {o j : Nat}
    (hc : r.Covers o j) :
    Store.entryWord w o j =
      indexWord w.zs.pm (1024 * (w.zs.onode r.oid.toNat).dataIdxId + j) ∧
    ∃ hlt : j - r.bofst < (takes (released w.zs r) r.blen).length,
      (Store.entryWord w' o j).toNat = (takes (released w.zs r) r.blen)[j - r.bofst] ∧
      Store.entryWord w' o j ≠ unmapped := by
  have hobj := hacc.object_eq hi.wf.formatted
  have hself : (w'.tx w.zs.tidMax).request.Covers o j := by
    rw [he.request]
    exact hc
  have hcov := entryWord_covered hsep
    (t := w.zs.tidMax) (by rw [he.list]; simp) hself
  have hclear : ∀ t ∈ w.zs.txList, ¬ (w.tx t).request.Covers o j :=
    fun t ht => (hapart t ht).symm.covers hc
  obtain ⟨_, ho, h1, h2⟩ := hc
  obtain ⟨hlt, hval, hne⟩ := hacc.newWord hi.wf.formatted hn (i := j - r.bofst) (by omega)
  constructor
  · rw [entryWord_free hclear, ← ho, hobj]
  · rw [hcov, newEntry, he.request, he.before]
    exact ⟨hlt, hval, hne⟩

theorem Owned.acceptWrite (hi : Owned rsv w) (hstep : step env a w = some w')
    (he : Enqueued r w w') (hop : r.op = .write) (hacc : Written w.zs r zs tx)
    (hzs : w'.zs = { zs with txOutstanding := n, txList := zs.txList ++ [w.zs.tidMax] })
    (hdel : ∀ o, WasDeleted w' o ↔ WasDeleted w o) (hfit : WriteFits w r) :
    Owned rsv w' ∧ Moved {s | r.Covers s.1 s.2} (holding w) (holding w') := by
  obtain ⟨hval, hapart, hn⟩ := hfit
  rw [if_pos hacc.room] at hn
  have hf := hi.wf.formatted
  have hobj := hacc.object_eq hf
  have hrange := hacc.range_le hf
  have hlt := hacc.oid_lt hf
  have hpm : w'.zs.pm = w.zs.pm := by rw [hzs, hacc.store]
  have hpma : w'.zs.pmAllocator = w.zs.pmAllocator := by rw [hzs, hacc.store]
  have hssd : w'.zs.ssdAllocator = newSsd w.zs r := by rw [hzs, hacc.store]
  have hready : ∀ t ∈ w.zs.txList, (w.tx t).request.op = .create → IndexReady w' t :=
    fun t ht hc => indexReady_congr (hi.created t ht hc) (he.keep t ht).2
      (fun b hb => by rw [hpma]; exact hb) he.onode hpm
  have hsep : w'.zs.txList.Pairwise (Separate w') := by
    rw [he.list]
    refine List.pairwise_append.mpr ⟨separate_congr hi.separate he.keep,
      List.pairwise_singleton _ _, fun t ht u hu => ?_⟩
    obtain rfl := List.mem_singleton.mp hu
    obtain ⟨h1, h2⟩ := he.keep t ht
    rw [Separate, h1, he.request]
    exact ⟨Or.inl (hapart t ht), fun _ hc => by rw [hop] at hc; cases hc⟩
  have hvalid : ∀ o, Valid w'.zs.onode o ↔ Valid w.zs.onode o := by
    intro o
    rw [he.onode]
  have hcov : ∀ o j, r.Covers o j → Valid w.zs.onode o ∧ j < 1024 := by
    rintro o j ⟨_, rfl, _, hj⟩
    exact ⟨⟨by rw [hobj]; exact hlt, hval⟩, by omega⟩
  -- what is held in the range before are the released blocks, and after it the taken ones
  have hheld : ∀ b, b ∈ (holding w).held {s | r.Covers s.1 s.2} ↔ b ∈ mapped (rangeWords w.zs r) := by
    intro b
    rw [mem_mapped_range hf]
    constructor
    · rintro ⟨⟨o, j⟩, hc, hb⟩
      obtain ⟨_, _, hne, hv⟩ := holding_some.mp hb
      have hword := (he.covered hi hsep hacc hapart hn hc).1
      rw [hword] at hne hv
      exact ⟨j, hc.2.2.1, hc.2.2.2, hne, hv⟩
    · rintro ⟨j, h1, h2, hne, hv⟩
      have hc : r.Covers r.object j := ⟨hop, rfl, h1, h2⟩
      have hword := (he.covered hi hsep hacc hapart hn hc).1
      refine ⟨(r.object, j), hc, holding_some.mpr ?_⟩
      rw [hword]
      exact ⟨(hcov _ _ hc).1, (hcov _ _ hc).2, hne, hv⟩
  have hheld' : ∀ b, b ∈ (holding w').held {s | r.Covers s.1 s.2} ↔
      b ∈ takes (released w.zs r) r.blen := by
    intro b
    constructor
    · rintro ⟨⟨o, j⟩, hc, hb⟩
      obtain ⟨_, _, _, hv⟩ := holding_some.mp hb
      obtain ⟨hj, hval', _⟩ := (he.covered hi hsep hacc hapart hn hc).2
      rw [← hv, hval']
      exact List.getElem_mem hj
    · intro hb
      obtain ⟨i, hlen, rfl⟩ := List.getElem_of_mem hb
      have hi' : i < r.blen := by
        rw [takes_length hacc.room] at hlen
        exact hlen
      have hc : r.Covers r.object (r.bofst + i) := ⟨hop, rfl, Nat.le_add_right _ _, by omega⟩
      obtain ⟨hj, hval', hne⟩ := (he.covered hi hsep hacc hapart hn hc).2
      refine ⟨(r.object, r.bofst + i), hc, holding_some.mpr ⟨(hvalid _).mpr (hcov _ _ hc).1,
        (hcov _ _ hc).2, hne, ?_⟩⟩
      rw [hval']
      simp only [Nat.add_sub_cancel_left]
  have hmoved : Moved {s | r.Covers s.1 s.2} (holding w) (holding w') := by
    constructor
    · intro s hs
      exact holds_congr (hvalid _) fun _ _ => he.entryWord hs (by rw [hpm])
    · intro s hs b hb hmark
      rw [hheld]
      have htake := (hheld' b).mp ⟨s, hs, hb⟩
      have hfree := (takes_free htake).2
      by_contra hno
      rw [bit_released, decide_eq_true hno, Bool.and_true] at hfree
      rw [hmark.2] at hfree
      cases hfree
    · intro s hs t ht b hb1 hb2
      obtain ⟨_, _, _, hv1⟩ := holding_some.mp hb1
      obtain ⟨_, _, _, hv2⟩ := holding_some.mp hb2
      obtain ⟨hj1, hval1, _⟩ := (he.covered hi hsep hacc hapart hn hs).2
      obtain ⟨hj2, hval2, _⟩ := (he.covered hi hsep hacc hapart hn ht).2
      rw [hval1] at hv1
      rw [hval2] at hv2
      have hidx := (List.getElem_inj (takes_nodup (released w.zs r) r.blen)).mp
        (hv1.trans hv2.symm)
      obtain ⟨_, ho1, h1, _⟩ := hs
      obtain ⟨_, ho2, h2, _⟩ := ht
      exact Prod.ext (ho1.symm.trans ho2) (by omega)
    · intro b
      rw [hheld, hheld']
      have hbit : b ∈ (holding w').marked ↔ b < w.zs.ssdAllocator.nrTotal ∧
          bit w'.zs.ssdAllocator.bs b = true := by
        rw [← (newSsd_total w.zs r).1, ← hssd]
        rfl
      have hbit' : b ∈ (holding w).marked ↔ b < w.zs.ssdAllocator.nrTotal ∧
          bit w.zs.ssdAllocator.bs b = true := Iff.rfl
      rw [hbit, hbit', hssd, hacc.newSsd_bs, bit_setAll, bit_released]
      simp only [Bool.or_eq_true, Bool.and_eq_true, decide_eq_true_eq]
      constructor
      · rintro ⟨hlt, ⟨h1, h2⟩ | h⟩
        · exact Or.inl ⟨⟨hlt, h1⟩, h2⟩
        · exact Or.inr h
      · rintro (⟨⟨hlt, h1⟩, h2⟩ | h)
        · exact ⟨hlt, Or.inl ⟨h1, h2⟩⟩
        · exact ⟨(takes_free h).1, Or.inr h⟩
  refine ⟨hi.enqueue hstep he (fun t ht => Or.inl (hapart t ht)) ?_ ?_ hready ?_ ?_
    (hi.sound.moved hmoved), hmoved⟩
  · rw [hval, hop]
    decide
  · intro hc
    rw [hop] at hc
    cases hc
  · intro hc
    rw [hop] at hc
    cases hc
  · intro o ho hno
    rw [hpma, unmarked_congr hdel]
    exact hi.marked o ho (he.deletes hno).1

theorem Owned.acceptRead (hi : Owned rsv w) (hstep : step env a w = some w')
    (ha : Accepts r w w' zs tx) (hop : r.op = .read) (hr : ReadOk w.zs r zs tx) {l : List Nat}
    (hzs : w'.zs = { zs with txRdonlyOutstanding := n, txRdonlyList := l }) :
    Owned rsv w' ∧ holding w' = holding w := by
  rw [hr.store] at hzs
  have hon : w'.zs.onode = w.zs.onode := funext (onode_congr (by rw [hzs]) (by rw [hzs]))
  have hdel := wasDeleted_other hi hstep ha.accepted fun t ht => by
    obtain rfl := List.mem_singleton.mp ht
    rw [ha.request_self, hop]
    decide
  obtain ⟨h1, h2⟩ := hi.keep hstep (by rw [hzs]) hon (by rw [hzs])
    (fun b hb => by rw [hzs]; exact hb) (by rw [hzs]) (fun b hb => by rw [hzs]; exact hb) hdel
  exact ⟨h1, holding_congr h2 (by rw [hzs])⟩

/-- The index block that a create takes belongs to nobody. -/
theorem Owned.newIndex_own (hi : Owned rsv w) (hroom : HasRoom w.zs.pmAllocator 1) (hfit : IndexFits rsv w)
    {o : Nat} (ho : Valid w.zs.onode o) : (w.zs.onode o).dataIdxId ≠ newIndex w.zs := by
  have hfree := newIndex_free hroom
  intro heq
  by_cases hdel : ∀ t ∈ w.zs.txList, (w.tx t).request.op = .delete → (w.tx t).request.object ≠ o
  · obtain hbit | ⟨hr, hun, hidx⟩ := hi.marked o ho hdel
    · rw [heq, hfree] at hbit
      cases hbit
    · rw [hidx] at heq
      exact hfit.2 ⟨hr, heq ▸ hun⟩
  · simp only [not_forall, not_not] at hdel
    obtain ⟨t, ht, hop, rfl⟩ := hdel
    have hne := hfit.1 t ht hop
    rw [oldIndex, (hi.snapshot t ht).1] at hne
    exact hne heq

theorem Owned.acceptCreate (hi : Owned rsv w) (hstep : step env a w = some w')
    (he : Enqueued r w w') (hop : r.op = .create) (hcr : Created w.zs r zs tx)
    (hzs : w'.zs = { zs with txOutstanding := n, txList := zs.txList ++ [w.zs.tidMax] })
    (hdel : ∀ o, WasDeleted w' o ↔ WasDeleted w o) (hapart : ApartFromQueue w r)
    (hfit : IndexFits rsv w) : Owned rsv w' ∧ holding w' = holding w := by
  have hf := hi.wf.formatted
  have hfree := newIndex_free hcr.room
  have hown : ∀ o, Valid w.zs.onode o → (w.zs.onode o).dataIdxId ≠ newIndex w.zs :=
    fun o ho => hi.newIndex_own hcr.room hfit ho
  have hpm : w'.zs.pm = zs.pm := by rw [hzs]
  have hword : ∀ i j, j < 1024 → i ≠ newIndex w.zs →
      indexWord w'.zs.pm (1024 * i + j) = indexWord w.zs.pm (1024 * i + j) := by
    intro i j hj hne
    rw [hpm, hcr.indexWord_eq hf, if_neg (by omega)]
  have hbits : ∀ b, bit w'.zs.pmAllocator.bs b =
      (bit w.zs.pmAllocator.bs b || decide (b = newIndex w.zs)) := by
    intro b
    have hpma : w'.zs.pmAllocator = newPm w.zs := by rw [hzs, hcr.store]
    rw [hpma, hcr.newPm_bs, bit_setBit]
  have hgrow : ∀ b, bit w.zs.pmAllocator.bs b = true → bit w'.zs.pmAllocator.bs b = true := by
    intro b hb
    rw [hbits, hb, Bool.true_or]
  have hne : ∀ t ∈ w.zs.txList, (w.tx t).request.op = .create →
      newIndex (w.before t) ≠ newIndex w.zs := by
    intro t ht hc heq
    have hbit := (hi.created t ht hc).bit
    rw [heq, hfree] at hbit
    cases hbit
  have hholds : holding w' = holding w := by
    refine holding_congr (funext fun s => holds_congr (by rw [he.onode]) fun ho hj => ?_) ?_
    · refine he.entryWord ?_ (hword _ _ hj (hown _ ho))
      rintro ⟨hw, -⟩
      rw [hop] at hw
      cases hw
    · rw [hzs, hcr.store]
  refine ⟨hi.enqueue hstep he (fun t ht => Or.inl (hapart t ht)) ?_ (fun _ => hne) ?_ ?_ ?_
    (hholds ▸ hi.sound), hholds⟩
  · rw [hcr.invalid, hop]
    decide
  · intro t ht hc
    have hready := hi.created t ht hc
    have hb := (he.keep t ht).2
    refine ⟨?_, ?_, ?_⟩
    · rw [hb]
      exact hgrow _ hready.bit
    · rw [hb, he.onode]
      exact hready.own
    · intro j hj
      rw [hb, hword _ _ hj (hne t ht hc)]
      exact hready.empty j hj
  · intro _
    refine ⟨?_, ?_, ?_⟩
    · rw [he.before, hbits, decide_eq_true rfl, Bool.or_true]
    · rw [he.before, he.onode]
      exact hown
    · intro j hj
      rw [he.before, hpm, hcr.indexWord_eq hf, if_pos (by omega)]
  · intro o ho hno
    rw [unmarked_congr hdel]
    exact (hi.marked o ho (he.deletes hno).1).imp_left (hgrow _)

theorem Owned.acceptDelete (hi : Owned rsv w) (hstep : step env a w = some w')
    (he : Enqueued r w w') (ha : Accepts r w w' zs tx) (hop : r.op = .delete)
    (hdl : Deleted w.zs r zs tx)
    (hzs : w'.zs = { zs with txOutstanding := n, txList := zs.txList ++ [w.zs.tidMax] })
    (hbehind : ∀ t ∈ w.zs.txList, (w.tx t).request.Before r) :
    Owned rsv w' ∧ holding w' = holding w := by
  have hf := hi.wf.formatted
  have hobj : Valid w.zs.onode r.object := ⟨hf.onodesRsv ▸ hdl.oid, hdl.valid⟩
  have hpm : w'.zs.pm = w.zs.pm := by rw [hzs, hdl.store]
  have hbits : ∀ b, bit w'.zs.pmAllocator.bs b =
      (bit w.zs.pmAllocator.bs b && decide (b ≠ (w.zs.onode r.object).dataIdxId)) := by
    intro b
    have hpma : w'.zs.pmAllocator =
        stupidFreeSpace w.zs.pmAllocator [⟨(w.zs.onode r.object).dataIdxId, 1⟩] := by
      rw [hzs, hdl.store]
    rw [hpma, freeOne_bs, bit_clearBit]
  have hstay : ∀ b, b ≠ (w.zs.onode r.object).dataIdxId → bit w.zs.pmAllocator.bs b = true →
      bit w'.zs.pmAllocator.bs b = true := by
    intro b hne hb
    rw [hbits, hb, decide_eq_true hne]
    rfl
  have hdel : ∀ o, o ≠ r.object → (Unmarked w' o ↔ Unmarked w o) := by
    intro o hne
    have hreq : ∀ t ∈ w.accepted, (w'.tx t).request = (w.tx t).request :=
      fun t ht => ((step_keeps hi.wf hstep).2 t (hi.logged.1 t ht)).1.1
    rw [Unmarked, Unmarked, wasDeleted_append ha.accepted hreq]
    have hnew : ¬ ∃ t ∈ [w.zs.tidMax], (w'.tx t).request.op = .delete ∧
        (w'.tx t).request.object = o := by
      rintro ⟨t, ht, -, hto⟩
      obtain rfl := List.mem_singleton.mp ht
      rw [he.request] at hto
      exact hne hto.symm
    simp only [hnew, or_false]
  have hholds : holding w' = holding w := by
    refine holding_congr (funext fun s => holds_congr (by rw [he.onode]) fun _ _ => ?_) ?_
    · refine he.entryWord ?_ (by rw [hpm])
      rintro ⟨hw, -⟩
      rw [hop] at hw
      cases hw
    · rw [hzs, hdl.store]
  refine ⟨hi.enqueue hstep he hbehind ?_ ?_ ?_ ?_ ?_ (hholds ▸ hi.sound), hholds⟩
  · rw [hdl.valid, hop]
    decide
  · intro hc
    rw [hop] at hc
    cases hc
  · intro t ht hc
    have hready := hi.created t ht hc
    have hb := (he.keep t ht).2
    refine ⟨?_, ?_, ?_⟩
    · rw [hb]
      exact hstay _ (Ne.symm (hready.own _ hobj)) hready.bit
    · rw [hb, he.onode]
      exact hready.own
    · rw [hb, hpm]
      exact hready.empty
  · intro hc
    rw [hop] at hc
    cases hc
  · intro o ho hno
    obtain ⟨hno', hne⟩ := he.deletes hno
    have hne' := hne hop
    rw [hdel o (Ne.symm hne')]
    refine (hi.marked o ho hno').imp_left (hstay _ fun heq => ?_)
    exact hne' (hi.index _ _ ho hobj heq).symm

end Accept
end ZCell.Store
