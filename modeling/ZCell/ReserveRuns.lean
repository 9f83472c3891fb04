import ZCell.IndexPlace

/-! Runs on a store with reserved objects. mkfs makes 262144 objects valid and marks the index blocks of
the first 32768 of them. -/
namespace ZCell.Store
open Bytes Persist Pm Allocator Runs

/-- On a store with reserved objects every object owns its index block exactly when all the
reserved objects whose blocks mkfs left free have been deleted, as long as no create has taken
such a block. -/
theorem indexOwned_iff (env : Env) (stk : Image) (e : Nat → OtableEntry) (nblks cpu : Nat)
    (flags mflags : BitVec 32) (m : Image) (h : MountMem) (zs : ZstoreContext)
    (heap : Nat → ZstoreTransaction) (w : World) (hflags : flags &&& zstoreMkfsReserveObjid ≠ 0)
    (hcpu : cpu < 127) (hp : h.Placed)
    (hm : zstoreMount cpu mflags h (zstoreMkfs stk e nblks flags m) = .ok zs)
    (hrun : Run (step env) SparesReserved (World.mounted zs heap) w) (hidle : w.zs.txList = []) :
    IndexOwned w.zs ↔ ∀ oid, 2 ^ 15 ≤ oid → oid < 2 ^ 18 → WasDeleted w oid := by
  have hi : ReserveInv w := hrun.invariant (reserveInv_mounted hflags hcpu hp hm heap)
    fun _ _ _ hi hok hs => hi.step hok hs
  have hdist := hi.distinct
  have hmark := hi.marked
  have hunm := hi.unmarked
  simp only [settled_idle hidle] at hdist hmark hunm
  constructor
  · rintro ⟨_, hset⟩ oid h1 h2
    by_contra hno
    have hu : Unmarked w oid := ⟨h1, h2, hno⟩
    obtain ⟨hv, _⟩ := hunm oid hu
    exact (hmark oid hv).mp (hset oid hv) hu
  · intro hall
    exact ⟨hdist, fun x hx => (hmark x hx).mpr fun hu => hu.2.2 (hall x hu.1 hu.2.1)⟩

def deletion (k : Nat) : Request := ⟨.delete, BitVec.ofNat 64 k, 0, 0, 0⟩

theorem deletion_object {k : Nat} (hk : k < 2 ^ 20) : (deletion k).object = k := by
  simp only [deletion, Request.object, BitVec.toNat_ofNat]
  omega

section Emptying
variable {env : Env} {w0 w : World} {k : Nat}

/-- The `k` reserved objects behind the marked ones have been deleted, and the store is idle. -/
structure Emptied (env : Env) (w0 : World) (k : Nat) (w : World) : Prop where
  run : Run (step env) SparesReserved w0 w
  stack : w.stack = []
  txList : w.zs.txList = []
  gone : ∀ o, 2 ^ 15 ≤ o → o < 2 ^ 15 + k → WasDeleted w o
  kept : ∀ o < 2 ^ 18, o < 2 ^ 15 ∨ 2 ^ 15 + k ≤ o →
    (w.zs.onode o).valid = true ∧ (w.zs.onode o).dataIdxId = o

theorem Emptied.succ (h : Emptied env w0 k w) (hi : ReserveInv w) (hk : 2 ^ 15 + k < 2 ^ 18) :
    ∃ w', Emptied env w0 (k + 1) w' := by
  have hf := hi.wf.formatted
  have hobj := @deletion_object (2 ^ 15 + k) (by omega)
  obtain ⟨hval, hidx⟩ := h.kept (2 ^ 15 + k) hk (Or.inr (Nat.le_refl _))
  obtain ⟨zs, tx, w', _, hset⟩ := @delete_settles env (deletion (2 ^ 15 + k)) w hi.wf h.stack h.txList rfl
    (by rw [hobj, hf.onodesRsv]; omega) (by rw [hobj]; exact hval) (by
      rw [hobj, hidx, hf.pmEntrys]
      omega)
  have hdel : SparesReserved w (.request (deletion (2 ^ 15 + k))) := by
    intro r hr
    obtain rfl := Option.some.inj hr
    exact ⟨Or.inr rfl, fun hop => by cases hop⟩
  have hresume : ∀ w, callOf w .resume = none → SparesReserved w .resume := by
    intro w hnone r hr
    rw [hnone] at hr
    cases hr
  have hwas := wasDeleted_append hset.accepted fun t ht => hset.older t (hi.logged.1 t ht)
  refine ⟨w', hset.run h.run hdel hresume, hset.stack, hset.txList, fun o h1 h2 => (hwas o).mpr ?_,
    fun o h1 h2 => ?_⟩
  · obtain hlt | heq : o < 2 ^ 15 + k ∨ o = 2 ^ 15 + k := by omega
    · exact Or.inl (h.gone o h1 hlt)
    · refine Or.inr ⟨w.zs.tidMax, List.mem_singleton_self _, by rw [hset.request]; rfl, ?_⟩
      rw [hset.request, hobj, heq]
  · rw [hset.onode o (by omega), hobj, if_neg (by omega)]
    exact h.kept o h1 (by omega)

/-- All the reserved objects whose index blocks are not marked can be deleted. -/
theorem emptied_exists (hi : ReserveInv w0) (h0 : Emptied env w0 0 w0) (hk : 2 ^ 15 + k ≤ 2 ^ 18) :
    ∃ w, Emptied env w0 k w := by
  induction k with
  | zero => exact ⟨w0, h0⟩
  | succ k ih =>
    obtain ⟨w, h⟩ := ih (by omega)
    exact h.succ (h.run.invariant hi fun _ _ _ hi hok hs => hi.step hok hs) (by omega)

end Emptying

/-- A device of 512 blocks with reserved objects, on which the objects 32768 to 262143 are deleted. -/
theorem reserved_indexOwned : ∃ (zs : ZstoreContext) (w : World),
    zstoreMount 0 0 smallMem
      (zstoreMkfs (fun _ => 0) (fun _ => 0) 512 zstoreMkfsReserveObjid fun _ => 0) = .ok zs ∧
    Run (step smallEnv) SparesReserved (World.mounted zs smallWorld.tx) w ∧
    (∀ oid < 2 ^ 15, Valid w.zs.onode oid) ∧
    (∀ oid, 2 ^ 15 ≤ oid → oid < 2 ^ 18 → WasDeleted w oid) ∧ IndexOwned w.zs := by
  obtain ⟨zs, hm⟩ := @reserved_mounts (fun _ => 0) (fun _ => 0) 512 0 zstoreMkfsReserveObjid 0
    (fun _ => 0) smallMem (by decide) (by decide) (by decide +kernel)
  obtain ⟨_, hon, _⟩ := mount_reserved (by decide) (by decide) ⟨by decide, by decide⟩ hm
  have h0 : Emptied smallEnv (World.mounted zs smallWorld.tx) 0 (World.mounted zs smallWorld.tx) := by
    refine ⟨.start, rfl, (zstoreMount_ok hm).2.2.1, fun o h1 h2 => absurd h1 (by omega), fun o h1 _ => ?_⟩
    have hline : (World.mounted zs smallWorld.tx).zs.onode o = reservedEntry 0 o :=
      (hon o (by omega)).trans (if_pos h1)
    rw [hline, reservedEntry_valid, reservedEntry_index _ (by omega)]
    exact ⟨rfl, rfl⟩
  obtain ⟨w, h⟩ := @emptied_exists smallEnv _ (2 ^ 18 - 2 ^ 15) (reserveInv_mounted (by decide) (by decide)
    ⟨by decide, by decide⟩ hm smallWorld.tx) h0 (by decide)
  have hgone : ∀ oid, 2 ^ 15 ≤ oid → oid < 2 ^ 18 → WasDeleted w oid := fun o h1 h2 =>
    h.gone o h1 (by omega)
  exact ⟨zs, w, hm, h.run, fun o ho => ⟨by omega, (h.kept o (by omega) (Or.inl ho)).1⟩, hgone,
    (indexOwned_iff smallEnv _ _ _ 0 zstoreMkfsReserveObjid 0 _ _ zs smallWorld.tx w (by decide) (by decide)
      ⟨by decide, by decide⟩ hm h.run h.txList).mpr hgone⟩

/-- One create on a device with reserved objects. The index block of object 32768 is free from the
start, and the new object gets the index block of a reserved one. -/
theorem reserved_not_indexOwned : ∃ (zs : ZstoreContext) (w : World) (oid : Nat),
    zstoreMount 0 0 smallMem
      (zstoreMkfs (fun _ => 0) (fun _ => 0) 512 zstoreMkfsReserveObjid fun _ => 0) = .ok zs ∧
    ¬ IndexOwned zs ∧
    Run (step smallEnv) (fun w a => ∀ r ∈ callOf w a, r = creation (2 ^ 18))
      (World.mounted zs smallWorld.tx) w ∧
    oid < 2 ^ 18 ∧ Valid w.zs.onode oid ∧ Valid w.zs.onode (2 ^ 18) ∧
    (w.zs.onode (2 ^ 18)).dataIdxId = (w.zs.onode oid).dataIdxId ∧ ¬ IndexOwned w.zs := by
  obtain ⟨zs, hm⟩ := @reserved_mounts (fun _ => 0) (fun _ => 0) 512 0 zstoreMkfsReserveObjid 0
    (fun _ => 0) smallMem (by decide) (by decide) (by decide +kernel)
  have hp : smallMem.Placed := ⟨by decide, by decide⟩
  obtain ⟨_, hon, hbit⟩ := mount_reserved (by decide) (by decide) hp hm
  have hline : ∀ o < 2 ^ 18, zs.onode o = reservedEntry 0 o := fun o ho =>
    (hon o (by omega)).trans (if_pos ho)
  have hi := untaken_mounted smallEnv (by decide) hp hm smallWorld.tx
  have hmarked : markedIndexes zstoreMkfsReserveObjid = 2 ^ 15 := rfl
  rw [hmarked] at hi
  obtain ⟨_, hg⟩ := hi.gets (Nat.le_refl _)
  have hhint : zs.pmAllocator.hint ≤ 2 ^ 15 + 64 := hi.hint_creates
  have hobj := @creation_object (2 ^ 18) (by decide)
  obtain ⟨zs', _, w, hc, hset⟩ := @create_settles smallEnv (creation (2 ^ 18)) (World.mounted zs smallWorld.tx)
    hi.wf rfl (zstoreMount_ok hm).2.2.1 rfl
    (by
      rw [hobj, hi.wf.formatted.onodesRsv]
      decide)
    (by
      rw [hobj]
      have hzero : zs.onode (2 ^ 18) = 0 := (hon (2 ^ 18) (by decide)).trans (if_neg (by decide))
      exact hzero ▸ zero_valid)
    (congrArg Prod.fst hg.alloc)
    ((hi.inside_iff (Nat.le_refl _)).mpr (by
      rw [dynamicSpaceSz_eq hi.wf.formatted]
      exact Nat.lt_of_le_of_lt hhint (by decide)))
  -- the block is free, so it is behind the marked ones
  obtain ⟨b, hb⟩ : ∃ b, b = newIndex zs := ⟨_, rfl⟩
  have hle : b ≤ 2 ^ 15 + 64 := by
    have h := hg.index_le
    have hfirst : firstIndex (2 ^ 15) = 2 ^ 15 + 64 := rfl
    rw [hfirst] at h
    exact hb ▸ Nat.le_trans h (Nat.max_le.mpr ⟨Nat.le_refl _, hhint⟩)
  have hge : 2 ^ 15 ≤ b := by
    have hfree := (takes_free (hc.takes ▸ List.mem_singleton_self _)).2
    have hclear : bit zs.pmAllocator.bs b = false := hb ▸ hfree
    rw [hbit b (by omega), decide_eq_false_iff_not] at hclear
    omega
  have hnew : w.zs.onode (2 ^ 18) = otableEntry (2 ^ 18) b := by
    rw [hset.onode _ (by decide), if_pos hobj.symm, loggedOnode, hobj, hb]
    rfl
  have hold : w.zs.onode b = reservedEntry 0 b := by
    rw [hset.onode _ (by omega), if_neg (by rw [hobj]; omega)]
    exact hline b (by omega)
  have hvnew : Valid w.zs.onode (2 ^ 18) := ⟨by decide, by rw [hnew, otableEntry_valid]⟩
  have hvold : Valid w.zs.onode b := ⟨by omega, by rw [hold, reservedEntry_valid]⟩
  have hsame : (w.zs.onode (2 ^ 18)).dataIdxId = (w.zs.onode b).dataIdxId := by
    rw [hnew, hold, otableEntry_index _ (by omega), reservedEntry_index _ (by omega)]
  refine ⟨zs, w, b, hm, fun hown => ?_, hset.run .start (fun r hr => (Option.some.inj hr).symm)
    (fun w hnone r hr => ?_), by omega, hvold, hvnew, hsame, fun hown => ?_⟩
  · have hset := hown.2 32768 ⟨by omega, by rw [hline 32768 (by omega), reservedEntry_valid]⟩
    rw [hline 32768 (by omega), reservedEntry_index _ (by omega), hbit 32768 (by omega)] at hset
    exact absurd hset (by decide)
  · rw [hnone] at hr
    cases hr
  · exact hown.1 _ _ hvnew hvold (by omega) hsame

end ZCell.Store
