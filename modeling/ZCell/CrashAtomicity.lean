import ZCell.PmLog

/-! Power failure inside `pmem_transaction_apply`, followed by `pmem_recovery`.
No function of pm.c ever sets the `valid` bit of the log header, so recovery never
replays and the in-place writes of step 3 are on their own. -/
namespace ZCell.Pm
open Bytes Persist

/-- Header and rounded body of the log stay inside the region of the core. -/
def LogFits (es : List PmLogEntry) : Prop := 64 + ceilAlign (logSize es) 256 ≤ pmLogRegionSize

def InLog (pmem : Pmem) (a : Nat) : Prop :=
  pmem.logRegionOfst ≤ a ∧ a < pmem.logRegionOfst + pmLogRegionSize

/-- The copies of a transaction, in the order in which they were added. -/
def targets (es : List PmLogEntry) : List (Nat × List Byte) := es.map PmLogEntry.copy

/-- No committed log is waiting in the region. -/
def LogClean (pmem : Pmem) (m : Image) : Prop :=
  (PmLogHeader.read m pmem.logRegionOfst).valid = false

instance (es : List PmLogEntry) : Decidable (LogFits es) :=
  inferInstanceAs (Decidable (_ ≤ _))

instance (pmem : Pmem) (m : Image) : Decidable (LogClean pmem m) :=
  inferInstanceAs (Decidable (_ = false))

/-- What recovery makes of the surviving image `m'`: the bytes of the entries all old or all
new, and everything else outside the log region unchanged. -/
def RecoversTo (pmem : Pmem) (stk img m' : Image) (es : List PmLogEntry)
    (old : Prop) : Prop :=
  ∃ r, recovered pmem stk m' = .ok r ∧
    ((old ∧ ∀ a, Covers (targets es) a → r a = img a) ∨
      ∀ a, Covers (targets es) a → r a = storeAll img (targets es) a) ∧
    ∀ a, ¬ Covers (targets es) a → ¬ InLog pmem a → r a = img a

/-- Whatever a crash inside `pmem_transaction_apply` leaves, recovery shows the entries all old
or all new; after the call has returned it shows them all new. -/
def CrashAtomic (pmem : Pmem) (tx : PmemTransaction) (img : Image) (es : List PmLogEntry) : Prop :=
  ∀ stk, (∀ m', Crash img [] (applyOps pmem tx) m' → RecoversTo pmem stk img m' es True) ∧
    RecoversTo pmem stk img (finish img (applyOps pmem tx)) es False

/-- Two images agree outside the log region. -/
def EqOff (pmem : Pmem) (m m' : Image) : Prop := ∀ a, ¬ InLog pmem a → m a = m' a

theorem ceilAlign_le (v : Nat) : v ≤ ceilAlign v 256 := by
  unfold ceilAlign
  omega

theorem LogFits.size {es : List PmLogEntry} (h : LogFits es) : logSize es ≤ pmLogRegionSize := by
  have hc := ceilAlign_le (logSize es)
  unfold LogFits at h
  omega

theorem logClean_iff (pmem : Pmem) (m : Image) :
    LogClean pmem m ↔ (m pmem.logRegionOfst).toNat % 2 = 0 := by
  have hb : loadLe m pmem.logRegionOfst 8 % 2 = (m pmem.logRegionOfst).toNat % 2 := by
    have hl : load m pmem.logRegionOfst 8 =
        m pmem.logRegionOfst :: (load m pmem.logRegionOfst 8).drop 1 := by
      simp [load, List.range_succ_eq_map]
    rw [loadLe, hl, leValue]
    omega
  simp only [LogClean, PmLogHeader.read, hb, beq_eq_false_iff_ne]
  omega

theorem header_first (lh : PmLogHeader) (m : Image) (o : Nat) (h : lh.valid = false) :
    (store m o lh.bytes o).toNat % 2 = 0 := by
  have hb : lh.bytes = BitVec.ofNat 8 lh.word :: (leBytes 7 (lh.word / 256) ++
      List.replicate 56 0) := rfl
  have hlen : 0 < lh.bytes.length := by simp [hb]
  have hs := store_inside m o lh.bytes 0 hlen
  rw [Nat.add_zero] at hs
  rw [hs]
  simp only [hb, List.getElem_cons_zero, BitVec.toNat_ofNat, PmLogHeader.word, h, Bool.toNat_false]
  omega

theorem header_length (lh : PmLogHeader) : lh.bytes.length = 64 := by
  simp [PmLogHeader.bytes]

/-- Recovery leaves an image without a committed log as it is. -/
theorem recovered_clean {pmem : Pmem} {m : Image} (stk : Image) (h : LogClean pmem m) :
    recovered pmem stk m = .ok m := by
  simp only [recovered, pmemRecovery, show (PmLogHeader.read m pmem.logRegionOfst).valid = false
    from h]
  rfl

section Apply
variable {pmem : Pmem} {tx : PmemTransaction} {es : List PmLogEntry}

theorem applyOps_eq (h : Built tx es) : applyOps pmem tx =
    persist (pmem.logRegionOfst + 64) (load tx.le 0 tx.sealed.alignLength.toNat) ++
      (persist pmem.logRegionOfst tx.sealed.bytes ++
        (nodrains (targets es) ++
          .drain :: (persist pmem.logRegionOfst PmLogHeader.zero.bytes ++ []))) := by
  have hmap : es.flatMap (fun e => pmemWrite false e.value e.ofst.toNat) =
      nodrains (targets es) := by
    clear h
    induction es with
    | nil => rfl
    | cons e es ih => simpa [nodrains, targets, pmemWrite, PmLogEntry.copy] using ih
  rw [applyOps, h.entries, hmap]
  simp only [pmemWrite, if_true, List.append_assoc, List.append_nil]
  rfl

theorem sealed_length (h : Built tx es) (hfit : LogFits es) :
    tx.sealed.alignLength.toNat = ceilAlign (logSize es) 256 := by
  have hf : 64 + ceilAlign (logSize es) 256 ≤ 8192 := hfit
  simp only [PmemTransaction.sealed, h.alignLength, BitVec.toNat_ofNat]
  omega

theorem eqOff_store {m : Image} {o : Nat} {bs : List Byte}
    (h1 : pmem.logRegionOfst ≤ o) (h2 : o + bs.length ≤ pmem.logRegionOfst + pmLogRegionSize) :
    EqOff pmem (store m o bs) m := by
  intro a ha
  apply store_outside
  unfold InLog at ha
  omega

theorem eqOff_torn {m m' : Image} {o : Nat} {bs : List Byte} (ht : Torn m [(o, bs)] m')
    (h1 : pmem.logRegionOfst ≤ o) (h2 : o + bs.length ≤ pmem.logRegionOfst + pmLogRegionSize) :
    EqOff pmem m' m := by
  intro a ha
  apply ht.outside
  intro ⟨w, hw, hb⟩
  simp only [List.mem_singleton] at hw
  subst hw
  simp only [InLog] at ha hb
  omega

theorem EqOff.trans {m1 m2 m3 : Image} (h1 : EqOff pmem m1 m2) (h2 : EqOff pmem m2 m3) :
    EqOff pmem m1 m3 :=
  fun a ha => (h1 a ha).trans (h2 a ha)

theorem torn_header {m m' : Image} {lh : PmLogHeader} (ht : Torn m [(pmem.logRegionOfst, lh.bytes)] m')
    (hv : lh.valid = false) (hc : LogClean pmem m) : LogClean pmem m' := by
  rw [logClean_iff] at hc ⊢
  cases ht with
  | cons _ W _ _ _ _ ht =>
    cases ht
    obtain h | h := storeWords_or m W pmem.logRegionOfst lh.bytes pmem.logRegionOfst
    · rw [h]
      exact header_first lh m _ hv
    · rw [h]
      exact hc

theorem clean_header (m : Image) {lh : PmLogHeader} (hv : lh.valid = false) :
    LogClean pmem (store m pmem.logRegionOfst lh.bytes) :=
  (logClean_iff pmem _).mpr (header_first lh m _ hv)

theorem clean_of_eq {m m' : Image} (hc : LogClean pmem m)
    (h : m' pmem.logRegionOfst = m pmem.logRegionOfst) : LogClean pmem m' := by
  rw [logClean_iff] at hc ⊢
  rw [h]
  exact hc

variable (hb : Built tx es) (hfit : LogFits es)
  (hout : ∀ a, Covers (targets es) a → ¬ InLog pmem a)

theorem head_uncovered {us : List (Nat × List Byte)}
    (hout : ∀ a, Covers us a → ¬ InLog pmem a) : ¬ Covers us pmem.logRegionOfst :=
  fun h => hout _ h ⟨Nat.le_refl _, by simp [pmLogRegionSize]⟩

theorem covers_take {us : List (Nat × List Byte)} {k a : Nat} (h : Covers (us.take k) a) :
    Covers us a := by
  obtain ⟨w, hw, hr⟩ := h
  exact ⟨w, List.mem_of_mem_take hw, hr⟩

include hb hfit in
/-- The image at the start of step 3: the old one with the log filled in. -/
theorem before_step3 (img : Image) : ∃ d, EqOff pmem d img ∧ LogClean pmem d ∧
    (∀ m', Crash img [] (applyOps pmem tx) m' →
      (LogClean pmem img → LogClean pmem m' ∧ EqOff pmem m' img) ∨
      Crash d [] (nodrains (targets es) ++
        .drain :: (persist pmem.logRegionOfst PmLogHeader.zero.bytes ++ [])) m') ∧
    (∀ m', Crash d [] (nodrains (targets es) ++
        .drain :: (persist pmem.logRegionOfst PmLogHeader.zero.bytes ++ [])) m' →
      Crash img [] (applyOps pmem tx) m') ∧
    finish img (applyOps pmem tx) =
      store (storeAll d (targets es)) pmem.logRegionOfst PmLogHeader.zero.bytes := by
  have hlen := sealed_length hb hfit
  have hv : tx.sealed.valid = false := hb.valid
  have hbody : pmem.logRegionOfst + 64 + (load tx.le 0 tx.sealed.alignLength.toNat).length ≤
      pmem.logRegionOfst + pmLogRegionSize := by
    rw [load_length, hlen]
    have hf : 64 + ceilAlign (logSize es) 256 ≤ pmLogRegionSize := hfit
    omega
  have hhead : pmem.logRegionOfst + tx.sealed.bytes.length ≤
      pmem.logRegionOfst + pmLogRegionSize := by
    rw [header_length]
    simp [pmLogRegionSize]
  generalize hp : load tx.le 0 tx.sealed.alignLength.toNat = body at hbody
  have hops := @applyOps_eq pmem tx es hb
  rw [hp] at hops
  refine ⟨store (store img (pmem.logRegionOfst + 64) body) pmem.logRegionOfst tx.sealed.bytes,
    (eqOff_store (Nat.le_refl _) hhead).trans (eqOff_store (Nat.le_add_right _ _) hbody),
    clean_header _ hv, ?_, ?_, ?_⟩
  · intro m' hc
    rw [hops, crash_persist] at hc
    obtain ht | hc := hc
    · left
      intro hcl
      refine ⟨clean_of_eq hcl (ht.outside _ ?_), eqOff_torn ht (Nat.le_add_right _ _) hbody⟩
      intro ⟨w, hw, hr⟩
      simp only [List.mem_singleton] at hw
      subst hw
      simp only at hr
      omega
    · rw [crash_persist] at hc
      obtain ht | hc := hc
      · left
        intro hcl
        have hcl1 : LogClean pmem (store img (pmem.logRegionOfst + 64) body) :=
          clean_of_eq hcl (store_outside _ _ _ _ (by omega))
        exact ⟨torn_header ht hv hcl1, (eqOff_torn ht (Nat.le_refl _) hhead).trans
          (eqOff_store (Nat.le_add_right _ _) hbody)⟩
      · exact Or.inr hc
  · intro m' hc
    rw [hops, crash_persist, crash_persist]
    exact Or.inr (Or.inr hc)
  · rw [hops]
    simp [finish, copies_append, copies, storeAll_append]

include hb hfit hout in
/-- Every survivor is clean and, outside the log region, a torn state of a prefix of the
in-place writes. -/
theorem survivor_torn {img m' : Image} (hcl : LogClean pmem img)
    (hc : Crash img [] (applyOps pmem tx) m') : LogClean pmem m' ∧
      ∃ k s, Torn img ((targets es).take k) s ∧ EqOff pmem m' s := by
  obtain ⟨d, hd, hdc, hcrash, _, _⟩ := @before_step3 pmem tx es hb hfit img
  obtain h | h := hcrash m' hc
  · obtain ⟨h1, h2⟩ := h hcl
    exact ⟨h1, 0, img, by simpa using Torn.nil img, h2⟩
  · rw [crash_nodrains, crash_persist, crash_nil] at h
    have hdone : EqOff pmem (storeAll d (targets es)) (storeAll img (targets es)) :=
      fun a ha => storeAll_congr _ (hd a ha)
    have hall : Torn img ((targets es).take (targets es).length) (storeAll img (targets es)) := by
      rw [List.take_length]
      exact Torn.whole img (targets es)
    have hz : pmem.logRegionOfst + PmLogHeader.zero.bytes.length ≤
        pmem.logRegionOfst + pmLogRegionSize := by
      rw [header_length]
      simp [pmLogRegionSize]
    have hclean : LogClean pmem (storeAll d (targets es)) :=
      clean_of_eq hdc (storeAll_outside _ _ _ (head_uncovered hout))
    obtain ⟨k, ht⟩ | ht | rfl := h
    · obtain ⟨s, hs, hag⟩ := ht.congr img
      refine ⟨clean_of_eq hdc (ht.outside _ fun hcov => ?_), k, s, hs, fun a ha => hag a (hd a ha)⟩
      exact head_uncovered hout (covers_take hcov)
    · exact ⟨torn_header ht rfl hclean, _, _, hall,
        (eqOff_torn ht (Nat.le_refl _) hz).trans hdone⟩
    · exact ⟨clean_header _ rfl, _, _, hall, (eqOff_store (Nat.le_refl _) hz).trans hdone⟩

include hb hfit in
/-- Every torn state of a prefix of the in-place writes survives some crash. -/
theorem torn_survives {img s : Image} {k : Nat} (ht : Torn img ((targets es).take k) s) :
    ∃ m', Crash img [] (applyOps pmem tx) m' ∧ EqOff pmem m' s := by
  obtain ⟨d, hd, _, _, hcrash, _⟩ := @before_step3 pmem tx es hb hfit img
  obtain ⟨m', hm, hag⟩ := ht.congr d
  refine ⟨m', hcrash m' ?_, fun a ha => (hag a (hd a ha).symm).symm⟩
  rw [crash_nodrains]
  exact Or.inl ⟨k, hm⟩

include hb hfit hout in
theorem wordAtomic_of_crashAtomic {img : Image} (hcl : LogClean pmem img)
    (h : CrashAtomic pmem tx img es) : WordAtomic img (targets es) := by
  rw [← torn_two_states_iff]
  intro k s ht
  obtain ⟨m', hc, hs⟩ := @torn_survives pmem tx es hb hfit _ _ _ ht
  obtain ⟨hcl', _⟩ := survivor_torn hb hfit hout hcl hc
  obtain ⟨r, hr, hall, _⟩ := (h fun _ => 0).1 m' hc
  rw [recovered_clean _ hcl'] at hr
  obtain rfl := Except.ok.inj hr
  have hrest : ∀ a, ¬ Covers (targets es) a → s a = img a :=
    fun a ha => ht.outside a fun hcov => ha (covers_take hcov)
  obtain ⟨_, hold⟩ | hnew := hall
  · left
    funext a
    by_cases ha : Covers (targets es) a
    · rw [← hs a (hout a ha), hold a ha]
    · exact hrest a ha
  · right
    funext a
    by_cases ha : Covers (targets es) a
    · rw [← hs a (hout a ha), hnew a ha]
    · rw [hrest a ha, storeAll_outside img _ a ha]

include hb hfit hout in
theorem crashAtomic_of_wordAtomic {img : Image} (hcl : LogClean pmem img)
    (h : WordAtomic img (targets es)) : CrashAtomic pmem tx img es := by
  intro stk
  constructor
  · intro m' hc
    obtain ⟨hcl', k, s, ht, hs⟩ := survivor_torn hb hfit hout hcl hc
    refine ⟨m', recovered_clean stk hcl', ?_, fun a ha hlog => ?_⟩
    · obtain rfl | rfl := (torn_two_states_iff img (targets es)).mpr h k s ht
      · exact Or.inl ⟨trivial, fun a ha => hs a (hout a ha)⟩
      · exact Or.inr fun a ha => hs a (hout a ha)
    · rw [hs a hlog]
      exact ht.outside a fun hcov => ha (covers_take hcov)
  · obtain ⟨d, hd, _, _, _, hfin⟩ := @before_step3 pmem tx es hb hfit img
    rw [hfin]
    have hz : pmem.logRegionOfst + PmLogHeader.zero.bytes.length ≤
        pmem.logRegionOfst + pmLogRegionSize := by
      rw [header_length]
      simp [pmLogRegionSize]
    refine ⟨_, recovered_clean stk (clean_header _ rfl), Or.inr fun a ha => ?_, fun a ha hlog => ?_⟩
    · rw [eqOff_store (Nat.le_refl _) hz a (hout a ha)]
      exact storeAll_congr _ (hd a (hout a ha))
    · rw [eqOff_store (Nat.le_refl _) hz a hlog, storeAll_outside _ _ a ha, hd a hlog]

end Apply

/-- A transaction survives every crash point whole exactly when its whole effect is a single
8-byte word: the replay that was to cover the other ones never happens. The image holds no
committed log and the entries lie outside the log region, as they do for every transaction
the store builds. -/
theorem transaction_crashAtomic_iff (pmem : Pmem) (g img : Image) (es : List PmLogEntry)
    (tx : PmemTransaction) (hadd : addAll (pmemTransactionAlloc g) es = some tx)
    (hfit : LogFits es) (hout : ∀ a, Covers (targets es) a → ¬ InLog pmem a)
    (hcl : LogClean pmem img) :
    CrashAtomic pmem tx img es ↔ WordAtomic img (targets es) := by
  obtain ⟨tx', htx, hb⟩ := (built_alloc g).addAll es (by simpa using hfit.size)
  rw [hadd] at htx
  obtain rfl := Option.some.inj htx
  exact ⟨wordAtomic_of_crashAtomic hb hfit hout hcl, crashAtomic_of_wordAtomic hb hfit hout hcl⟩

/-- A transaction with one entry of one word. -/
def oneWordEntry : PmLogEntry := ⟨0, 0x100000, [1, 0, 0, 0, 0, 0, 0, 0]⟩

def oneWordTransaction : PmemTransaction :=
  (pmemTransactionAdd (pmemTransactionAlloc fun _ => 0) oneWordEntry.ofst oneWordEntry.paddr
    oneWordEntry.value).1

theorem oneWord_crashAtomic :
    CrashAtomic (pmemOpen 0) oneWordTransaction (fun _ => 0) [oneWordEntry] := by
  refine (transaction_crashAtomic_iff (pmemOpen 0) (fun _ => 0) (fun _ => 0) [oneWordEntry]
    oneWordTransaction rfl (by decide) ?_ (by decide)).mpr ⟨⟨0x20000, ?_⟩, ?_, ?_⟩
  · intro a ⟨w, hw, h1, h2⟩ ⟨h3, h4⟩
    simp only [targets, List.map_cons, List.map_nil, List.mem_singleton] at hw
    subst hw
    simp [PmLogEntry.copy, oneWordEntry, pmemOpen, pmLogRegionSize] at h1 h4
    omega
  · intro a ha
    by_contra hne
    apply ha
    apply storeAll_outside
    intro ⟨w, hw, h1, h2⟩
    simp only [targets, List.map_cons, List.map_nil, List.mem_singleton] at hw
    subst hw
    simp [PmLogEntry.copy, oneWordEntry] at h1 h2
    omega
  · simp [targets]
  · simp [targets]

/-- The metadata of a first write: the bitmap entry with block 0 taken, and the index word
that maps it, as the data-index block held it with no block mapped. -/
def firstWriteEntries : List PmLogEntry :=
  [⟨0, 0x100000, 1 :: List.replicate 63 0⟩, ⟨0, 0x6200000, [0, 0, 0, 0]⟩]

def firstWriteImage : Image := fun a => if 0x6200000 ≤ a then 0xff else 0

def firstWriteTransaction : PmemTransaction :=
  (pmemTransactionAdd
    (pmemTransactionAdd (pmemTransactionAlloc fun _ => 0) 0x100000 0
      (1 :: List.replicate 63 0)).1 0x6200000 0 [0, 0, 0, 0]).1

/-- The bitmap entry reaches the medium, the index word does not, and recovery keeps it so. -/
theorem firstWrite_not_crashAtomic :
    addAll (pmemTransactionAlloc fun _ => 0) firstWriteEntries = some firstWriteTransaction ∧
    LogFits firstWriteEntries ∧
    ¬ CrashAtomic (pmemOpen 0) firstWriteTransaction firstWriteImage firstWriteEntries := by
  have hfit : LogFits firstWriteEntries := by decide
  have hadd : addAll (pmemTransactionAlloc fun _ => 0) firstWriteEntries =
      some firstWriteTransaction := rfl
  refine ⟨hadd, hfit, fun h => ?_⟩
  obtain ⟨tx', htx, hb⟩ := (built_alloc fun _ => 0).addAll firstWriteEntries
    (by simpa using hfit.size)
  rw [hadd] at htx
  obtain rfl := Option.some.inj htx
  have hout : ∀ a, Covers (targets firstWriteEntries) a → ¬ InLog (pmemOpen 0) a := by
    intro a ⟨w, hw, h1, h2⟩ ⟨h3, h4⟩
    simp only [targets, firstWriteEntries, List.map_cons, List.map_nil, List.mem_cons,
      List.not_mem_nil, or_false] at hw
    obtain rfl | rfl := hw
    all_goals
      simp [PmLogEntry.copy, pmemOpen, pmLogRegionSize] at h1 h4
      omega
  obtain ⟨_, hone, _⟩ := wordAtomic_of_crashAtomic hb hfit hout (by decide) h
  obtain hold | hnew := hone _ (List.mem_cons_self ..)
  · exact absurd (congrFun hold 0x100000) (by decide)
  · exact absurd (congrFun hnew 0x6200000) (by decide)

end ZCell.Pm
