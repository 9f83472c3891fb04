import ZCell.PmBitmap

/-! The objects that mkfs reserves. Their index blocks are 0 to 262143, but only one page of the
bitmap of the dynamic space is written, which marks the blocks 0 to 32767. -/
namespace ZCell.Store
open Bytes Persist Pm Allocator Runs

section Image
variable {stk : Image} {e : Nat → OtableEntry} {nblks : Nat} {flags : BitVec 32} {m : Image}

theorem reservedEntry_nat (e : OtableEntry) (i : Nat) : (reservedEntry e i).toNat =
    1 + 2 * (e.toNat / 2 % 2 ^ 15) + 2 ^ 16 * (i % 2 ^ 48) + 2 ^ 64 * (e.toNat / 2 ^ 64 % 2 ^ 32) +
      2 ^ 96 * (i % 2 ^ 32) + 2 ^ 128 * (e.toNat / 2 ^ 128) := by
  have he := e.isLt
  rw [reservedEntry, BitVec.toNat_ofNat, Nat.mod_eq_of_lt]
  have h1 : e.toNat / 2 ^ 128 < 2 ^ 384 := by
    rw [Nat.div_lt_iff_lt_mul (by decide)]
    exact he.trans_eq (Nat.pow_add 2 384 128)
  have h2 : 2 ^ 128 * (e.toNat / 2 ^ 128) ≤ 2 ^ 128 * (2 ^ 384 - 1) := by
    apply Nat.mul_le_mul_left
    omega
  omega

theorem reservedEntry_valid (e : OtableEntry) (i : Nat) : (reservedEntry e i).valid = true := by
  rw [OtableEntry.valid, BitVec.getLsbD, reservedEntry_nat, Nat.testBit_zero]
  simp only [decide_eq_true_eq]
  omega

theorem reservedEntry_index (e : OtableEntry) {i : Nat} (hi : i < 2 ^ 32) :
    (reservedEntry e i).dataIdxId = i := by
  rw [OtableEntry.dataIdxId, BitVec.extractLsb'_toNat, reservedEntry_nat, Nat.shiftRight_eq_div_pow]
  generalize hlow : 1 + 2 * (e.toNat / 2 % 2 ^ 15) + 2 ^ 16 * (i % 2 ^ 48) +
    2 ^ 64 * (e.toNat / 2 ^ 64 % 2 ^ 32) = low
  have hlt : low < 2 ^ 96 := by omega
  generalize e.toNat / 2 ^ 128 = hi'
  have hsum : low + 2 ^ 96 * (i % 2 ^ 32) + 2 ^ 128 * hi' = low + 2 ^ 96 * (i + 2 ^ 32 * hi') := by
    rw [Nat.mod_eq_of_lt hi]
    omega
  rw [hsum, Nat.add_mul_div_left _ _ (by decide), Nat.div_eq_of_lt hlt, Nat.zero_add,
    Nat.add_mul_mod_self_left, Nat.mod_eq_of_lt hi]

/-- The onodes of the reserved objects. -/
def reserveOnodes (e : Nat → OtableEntry) (n : Nat) : List PmOp :=
  (List.range n).flatMap fun i => pmemWrite true (lineBytes (reservedEntry (e i) i)) (34 * 2 ^ 20 + i * 64)

theorem reserveOps_eq (e : Nat → OtableEntry) : reserveOps e =
    writePages 0xff 256 1 ++ writePages 0xff 8448 1 ++ reserveOnodes e (2 ^ 18) ++
      writePages 0xff 25088 (2 ^ 18) := by
  have hn : zstoreMkfsReserveObjNr = 2 ^ 18 := rfl
  rw [reserveOps, hn, if_neg (by decide)]
  rfl

theorem reserveOnodes_succ (e : Nat → OtableEntry) (n : Nat) (m : Image) :
    finish m (reserveOnodes e (n + 1)) = store (finish m (reserveOnodes e n)) (34 * 2 ^ 20 + 64 * n)
      (lineBytes (reservedEntry (e n) n)) := by
  rw [reserveOnodes, List.range_succ, List.flatMap_append, finish_append, Nat.mul_comm 64]
  rfl

theorem finish_reserveOnodes (e : Nat → OtableEntry) (n : Nat) (m : Image) {a : Nat}
    (ha : a < 34 * 2 ^ 20 ∨ 34 * 2 ^ 20 + 64 * n ≤ a) : finish m (reserveOnodes e n) a = m a := by
  induction n with
  | zero => rfl
  | succ n ih => rw [reserveOnodes_succ, store_outside _ _ _ _ (by rw [lineBytes_length]; omega),
      ih (by omega)]

theorem onodeLine_reserveOnodes (e : Nat → OtableEntry) (n : Nat) (m : Image) (oid : Nat) :
    onodeLine (finish m (reserveOnodes e n)) oid =
      if oid < n then reservedEntry (e oid) oid else onodeLine m oid := by
  induction n with
  | zero => rfl
  | succ n ih =>
    rw [reserveOnodes_succ, onodeLine, lineAt_store_line]
    by_cases ho : oid = n
    · rw [if_pos ho, if_pos (by omega), ho]
    · have hiff : oid < n + 1 ↔ oid < n := by omega
      rw [if_neg ho]
      simp only [hiff]
      exact ih

theorem zstoreMkfs_reserved (hflags : flags &&& zstoreMkfsReserveObjid ≠ 0) :
    zstoreMkfs stk e nblks flags m =
      finish (zstoreMkfs stk e nblks 0 m) (reserveOps e) := by
  have h0 : (0 : BitVec 32) &&& zstoreMkfsReserveObjid = 0 := by decide
  simp only [zstoreMkfs, mkfsOps, hflags, h0, ne_eq, not_true_eq_false, not_false_eq_true, if_true,
    if_false, List.append_nil, finish_append]

/-- The image of a mkfs with the reserve flag: superblock, zeros, and in the four regions what
belongs to the reserved objects. -/
theorem zstoreMkfs_reserved_at (hflags : flags &&& zstoreMkfsReserveObjid ≠ 0) {a : Nat}
    (ha : a < 34 * 2 ^ 20) : zstoreMkfs stk e nblks flags m a =
      if a < 4096 then storeAll stk (superblockFields (min (2 ^ 28) nblks) (2 ^ 20)) a
      else if 2 ^ 20 ≤ a ∧ a < 2 ^ 20 + 4096 ∨ 33 * 2 ^ 20 ≤ a ∧ a < 33 * 2 ^ 20 + 4096 then 0xff
      else 0 := by
  rw [zstoreMkfs_reserved hflags, reserveOps_eq, finish_append, finish_append, finish_append,
    finish_writePages, if_neg (by omega), finish_reserveOnodes _ _ _ (Or.inl ha), finish_writePages,
    finish_writePages, zstoreMkfs_at (by decide)]
  by_cases h1 : a < 4096
  · rw [if_neg (by omega), if_neg (by omega), if_pos h1, if_pos h1]
  · have h98 : a < 98 * 2 ^ 20 := by omega
    rw [if_neg h1, if_pos h98, if_neg h1]
    by_cases h2 : 33 * 2 ^ 20 ≤ a ∧ a < 33 * 2 ^ 20 + 4096
    · rw [if_pos (by omega), if_pos (Or.inr h2)]
    · rw [if_neg (by omega)]
      by_cases h3 : 2 ^ 20 ≤ a ∧ a < 2 ^ 20 + 4096
      · rw [if_pos (by omega), if_pos (Or.inl h3)]
      · rw [if_neg (by omega), if_neg (by omega)]

theorem onodeLine_reserved (hflags : flags &&& zstoreMkfsReserveObjid ≠ 0) {oid : Nat}
    (ho : oid < 2 ^ 20) : onodeLine (zstoreMkfs stk e nblks flags m) oid =
      if oid < 2 ^ 18 then reservedEntry (e oid) oid else 0 := by
  have hlast : ∀ img : Image, onodeLine (finish img (writePages 0xff 25088 (2 ^ 18))) oid =
      onodeLine img oid := by
    intro img
    apply lineAt_of_load
    apply load_congr
    intro i hi
    rw [finish_writePages, if_neg (by omega)]
  have hfirst : onodeLine (finish (finish (zstoreMkfs stk e nblks 0 m) (writePages 0xff 256 1))
      (writePages 0xff 8448 1)) oid = 0 := by
    apply lineAt_zero
    intro i hi
    rw [finish_writePages, if_neg (by omega), finish_writePages, if_neg (by omega),
      zstoreMkfs_at (by decide), if_neg (by omega), if_pos (by omega)]
  rw [zstoreMkfs_reserved hflags, reserveOps_eq, finish_append, finish_append, finish_append, hlast,
    onodeLine_reserveOnodes, hfirst]

theorem lineAt_ones {m : Image} {a : Nat} (h : ∀ i < 64, m (a + i) = 0xff) :
    lineAt m a = BitVec.allOnes 512 := by
  have hones : load (fun _ => (0xff : Byte)) a 64 = load (fun _ => 0xff) 0 64 := rfl
  rw [lineAt, loadLe, @load_congr m (fun _ => 0xff) a 64 h, hones]
  decide +kernel

/-- One page of the bitmap is set. -/
theorem dyLine_reserved (hflags : flags &&& zstoreMkfsReserveObjid ≠ 0) {k : Nat} (hk : k < 2 ^ 14) :
    dyLine (zstoreMkfs stk e nblks flags m) k = if k < 64 then BitVec.allOnes 512 else 0 := by
  split
  · apply lineAt_ones
    intro i hi
    rw [zstoreMkfs_reserved_at hflags (by omega), if_neg (by omega), if_pos (by omega)]
  · apply lineAt_zero
    intro i hi
    rw [zstoreMkfs_reserved_at hflags (by omega), if_neg (by omega), if_neg (by omega)]

end Image

section Mount
variable {stk : Image} {e : Nat → OtableEntry} {nblks cpu : Nat} {flags mflags : BitVec 32}
  {m : Image} {h : MountMem} {zs : ZstoreContext}

theorem reserved_idle (hflags : flags &&& zstoreMkfsReserveObjid ≠ 0) (hcpu : cpu < 127) :
    recovered (pmemOpen cpu) h.stk (zstoreMkfs stk e nblks flags m) =
      .ok (zstoreMkfs stk e nblks flags m) := by
  apply recovered_idle
  intro i hi
  have hofst : (pmemOpen cpu).logRegionOfst = 4096 + cpu * 8192 := rfl
  rw [hofst, zstoreMkfs_reserved_at hflags (by omega), if_neg (by omega), if_neg (by omega)]

/-- A store mounted behind a mkfs with the reserve flag. -/
theorem mount_reserved (hflags : flags &&& zstoreMkfsReserveObjid ≠ 0) (hcpu : cpu < 127)
    (hp : h.Placed) (hm : zstoreMount cpu mflags h (zstoreMkfs stk e nblks flags m) = .ok zs) :
    Formatted zs ∧
    (∀ oid < 2 ^ 20, zs.onode oid = if oid < 2 ^ 18 then reservedEntry (e oid) oid else 0) ∧
    ∀ i < 2 ^ 20, bit zs.pmAllocator.bs i = decide (i < 2 ^ 15) := by
  have hzsb : Superblock.read (zstoreMkfs stk e nblks flags m) =
      mkfsSuperblock (min (2 ^ 28) nblks) := by
    apply superblock_read (by omega)
    intro a ha
    rw [zstoreMkfs_reserved_at hflags (by omega), if_pos ha]
  have hf := zstoreMount_formatted hm hcpu hp (Nat.min_le_left ..) hzsb
  obtain ⟨h1, h2, hrec⟩ := zstoreMount_image hm
  rw [reserved_idle hflags hcpu, Except.ok.injEq] at hrec
  refine ⟨hf, fun oid ho => ?_, fun i hi => ?_⟩
  · rw [← zstoreMount_coherent hm hf oid ho, ← hrec, onodeLine_reserved hflags ho]
  · have hbs := zstoreMount_persisted hm hf (i / 512) (by omega)
    rw [bit, ← hbs, ← hrec, dyLine_reserved hflags (by omega)]
    by_cases hk : i / 512 < 64
    · have hlt : i < 2 ^ 15 := by omega
      have hm : i % 512 < 512 := Nat.mod_lt _ (by decide)
      simp only [hk, if_true, hlt, decide_true, BitVec.getLsbD_allOnes, hm]
    · have hge : ¬ i < 2 ^ 15 := by omega
      simp only [hk, if_false, hge, decide_false]
      exact BitVec.getLsbD_zero

/-- Such a mount succeeds. -/
theorem reserved_mounts (hflags : flags &&& zstoreMkfsReserveObjid ≠ 0) (hcpu : cpu < 127)
    (hfull : min (2 ^ 28) nblks % 512 = 0) :
    ∃ zs, zstoreMount cpu mflags h (zstoreMkfs stk e nblks flags m) = .ok zs := by
  have hzsb : Superblock.read (zstoreMkfs stk e nblks flags m) =
      mkfsSuperblock (min (2 ^ 28) nblks) := by
    apply superblock_read (by omega)
    intro a ha
    rw [zstoreMkfs_reserved_at hflags (by omega), if_pos ha]
  obtain ⟨zs, hm, _⟩ := mount_recovered hzsb hfull (reserved_idle hflags hcpu) mflags
  exact ⟨zs, hm⟩

end Mount

section Alone
variable {env : Env} {w w' : World} {a : Act} {r : Request} {rc : Int}

def IsChange (r : Request) : Prop := r.op = .create ∨ r.op = .delete

instance (r : Request) : Decidable (IsChange r) := inferInstanceAs (Decidable (_ ∨ _))

/-- A queued transaction is the only one, and is about to be committed. -/
def Alone (w : World) : Prop :=
  w.flight = [] ∧ (w.zs.txList = [] ∨ ∃ t, w.zs.txList = [t] ∧ w.stack.head? = some .drain ∧
    (w.tx t).state = .pmTx)

theorem Accepted.change {zs zs' : ZstoreContext} {tx : ZstoreTransaction}
    (h : Accepted zs r zs' tx) (hr : IsChange r) :
    tx.state = .pmTx ∧ tx.txType = .write := by
  cases h with
  | write hop _ => simp [IsChange, hop] at hr
  | create _ h => exact ⟨h.tx.state, h.tx.txType⟩
  | delete _ h => exact ⟨h.tx.state, h.tx.txType⟩

theorem call_alone (hf : Formatted w.zs) (hr : IsChange r) (hfl : w.flight = [])
    (hlist : w.zs.txList = []) (h : zstoreObjAsyncOpCall env r w = .ok (rc, w')) : Alone w' := by
  simp only [zstoreObjAsyncOpCall] at h
  split at h
  · cases h
  · rename_i rc0 zs tx hp
    split at h
    · rename_i hne
      simp only [Except.ok.injEq, Prod.mk.injEq] at h
      obtain ⟨_, rfl⟩ := h
      have hfr := (prepare_rejected hf.shift hne hp).frame
      refine ⟨hfl, Or.inl ?_⟩
      simp only [World.note, World.setTx]
      rw [hfr]
      exact hlist
    · rename_i hz
      obtain rfl := not_not.mp hz
      split at h
      · cases h
      · rename_i w2 hex
        simp only [Except.ok.injEq, Prod.mk.injEq] at h
        obtain ⟨_, rfl⟩ := h
        obtain ⟨hop, _⟩ | hacc := prepare_accepted hf hp
        · simp [IsChange, hop] at hr
        · obtain ⟨hst, htype⟩ := hacc.change hr
          have hzl : zs.txList = [] := by rw [(hacc.formatted hf).2.2.2.2.1, hlist]
          simp only [zstoreTxExecute, zstoreTxEnqueue, World.note, World.setTx,
            Function.update_self, hst, htype, reduceCtorEq, if_false, hzl, List.nil_append] at hex
          have hw2 := metadata_pmTx (by simp [hst]) (by simp [htype]) hex
          simp only [List.head?_cons, if_true] at hw2
          subst hw2
          exact ⟨hfl, Or.inr ⟨w.zs.tidMax, rfl, rfl, by simp [World.push, hst]⟩⟩

theorem drain_alone {s : List Frame} (hw : WF w) (hi : Alone w)
    (h : drainRound env s w = .ok w') : Alone w' := by
  obtain ⟨hfl, hlist | ⟨t, hlist, _, hst⟩⟩ := hi
  · simp only [drainRound, hlist, Except.ok.injEq] at h
    subst h
    exact ⟨hfl, Or.inl hlist⟩
  · have htype := (hw.queued t (by simp [hlist])).txType
    simp only [drainRound, hlist, hst, ne_eq, not_true_eq_false, if_false] at h
    split at h
    · cases h
    · simp only [Except.ok.injEq] at h
      subst h
      have hend : ∀ v : World, (v.tx t).txType = .write → v.zs.txList = [t] → v.flight = [] →
          Alone (zstoreTxEnd env t v) := by
        intro v hv hl hf
        obtain ⟨hzs, _, _, _, hfl', _⟩ := @end_write env v t hv
        refine ⟨hfl'.trans hf, Or.inl ?_⟩
        rw [hzs]
        simp [hl]
      exact hend _ (by simp [World.setTx, World.note, htype]) rfl hfl

theorem stack_of_enabled (hne : (a == Act.resume) = false) (h : enabled w a = true) :
    w.stack = [] := by
  simp only [enabled, hne] at h
  simpa using h

theorem step_alone (hw : WF w) (hi : Alone w) (hok : ∀ r ∈ callOf w a, IsChange r)
    (h : step env a w = some w') : Alone w' := by
  have hfl := hi.1
  have hidle : w.stack.head? ≠ some .drain → w.zs.txList = [] := by
    intro hne
    obtain hl | ⟨_, _, hd, _⟩ := hi.2
    · exact hl
    · exact absurd hd hne
  unfold step at h
  split at h
  · rename_i hen
    have h := toOption_eq_some h
    cases a with
    | request r =>
      have hstack := stack_of_enabled rfl hen
      simp only [act] at h
      split at h
      · cases h
      · rename_i rc w2 hcall
        obtain rfl := Except.ok.inj h
        exact call_alone hw.formatted (hok r rfl) hfl (hidle (by simp [hstack])) hcall
    | bioDone k success =>
      simp only [act, hfl, List.getElem?_nil, Except.ok.injEq] at h
      exact h ▸ hi
    | message k =>
      have hstack := stack_of_enabled rfl hen
      have hl := hidle (by simp [hstack])
      simp only [act] at h
      split at h
      · exact Except.ok.inj h ▸ hi
      · obtain rfl := Except.ok.inj h
        exact ⟨hfl, Or.inl hl⟩
    | resume =>
      simp only [act, resume] at h
      split at h
      · exact Except.ok.inj h ▸ hi
      · rename_i s hs
        obtain rfl := Except.ok.inj h
        exact ⟨hfl, Or.inl (hidle (by simp [hs]))⟩
      · rename_i r rs s hs
        split at h
        · cases h
        · rename_i rc w2 hcall
          obtain rfl := Except.ok.inj h
          have hr : IsChange r := hok r (by simp [callOf, hs])
          exact @call_alone env { w with stack := .userCb rs :: s } _ r rc hw.formatted hr hfl
            (hidle (by simp [hs])) hcall
      · exact drain_alone hw hi h
  · cases h

end Alone

/-- An object of the onode table. -/
def Valid (onode : Nat → OtableEntry) (oid : Nat) : Prop := oid < 2 ^ 20 ∧ (onode oid).valid = true

/-- Every object has an index block of its own, which is marked as allocated. -/
def IndexOwned (zs : ZstoreContext) : Prop :=
  (∀ a b, Valid zs.onode a → Valid zs.onode b → a ≠ b →
    (zs.onode a).dataIdxId ≠ (zs.onode b).dataIdxId) ∧
  ∀ a, Valid zs.onode a → bit zs.pmAllocator.bs (zs.onode a).dataIdxId = true

/-- A delete of the object has been accepted. -/
def WasDeleted (w : World) (oid : Nat) : Prop :=
  ∃ t ∈ w.accepted, (w.tx t).request.op = .delete ∧ (w.tx t).request.object = oid

/-- A reserved object whose index block mkfs did not mark. -/
def Unmarked (w : World) (oid : Nat) : Prop := 2 ^ 15 ≤ oid ∧ oid < 2 ^ 18 ∧ ¬ WasDeleted w oid

instance (w : World) (oid : Nat) : Decidable (WasDeleted w oid) :=
  inferInstanceAs (Decidable (∃ t ∈ w.accepted, _))

instance (w : World) (oid : Nat) : Decidable (Unmarked w oid) :=
  inferInstanceAs (Decidable (_ ∧ _))

/-- Only creates and deletes are called, and the free block that a create finds first is not the
index block of a reserved object that mkfs did not mark. -/
def SparesReserved (w : World) (a : Act) : Prop :=
  ∀ r ∈ callOf w a, IsChange r ∧
    (r.op = .create → (w.zs.onode r.object).valid = false → r.object < w.zs.zsb.onodesRsv →
      ∀ b ∈ takes w.zs.pmAllocator 1, ¬ Unmarked w b)

instance (w : World) (a : Act) : Decidable (SparesReserved w a) :=
  inferInstanceAs (Decidable (∀ r ∈ callOf w a, _))

/-- The onode once the queue is empty. -/
def settledOnode (w : World) (oid : Nat) : OtableEntry :=
  match w.zs.txList with
  | [] => w.zs.onode oid
  | t :: _ =>
    if oid = (w.tx t).request.object then loggedOnode (w.before t) (w.tx t).request
    else w.zs.onode oid

structure ReserveInv (w : World) : Prop where
  wf : WF w
  logged : Logged w
  alone : Alone w
  distinct : ∀ a b, Valid (settledOnode w) a → Valid (settledOnode w) b → a ≠ b →
    (settledOnode w a).dataIdxId ≠ (settledOnode w b).dataIdxId
  marked : ∀ a, Valid (settledOnode w) a →
    (bit w.zs.pmAllocator.bs (settledOnode w a).dataIdxId = true ↔ ¬ Unmarked w a)
  unmarked : ∀ a, Unmarked w a → Valid (settledOnode w) a ∧ (settledOnode w a).dataIdxId = a

section Steps
variable {env : Env} {w w' : World} {a : Act}

theorem valid_congr {f g : Nat → OtableEntry} (h : ∀ oid < 2 ^ 20, f oid = g oid) (oid : Nat) :
    Valid f oid ↔ Valid g oid := by
  unfold Valid
  constructor
  · rintro ⟨h1, h2⟩
    exact ⟨h1, h oid h1 ▸ h2⟩
  · rintro ⟨h1, h2⟩
    exact ⟨h1, h oid h1 ▸ h2⟩

theorem otableEntry_index (oid : Nat) {i : Nat} (hi : i < 2 ^ 32) :
    (otableEntry oid i).dataIdxId = i := by
  have hlow : 1 + 2 ^ 16 * (oid % 2 ^ 48) < 2 ^ 96 := by omega
  have hsmall : 1 + 2 ^ 16 * (oid % 2 ^ 48) + 2 ^ 96 * i < 2 ^ 128 := by omega
  rw [OtableEntry.dataIdxId, BitVec.extractLsb'_toNat, otableEntry, BitVec.toNat_ofNat,
    Nat.mod_eq_of_lt hi, Nat.mod_eq_of_lt (hsmall.trans (Nat.pow_lt_pow_right (by decide)
      (by decide))), Nat.shiftRight_eq_div_pow, Nat.add_mul_div_left _ _ (by decide),
    Nat.div_eq_of_lt hlow, Nat.zero_add, Nat.mod_eq_of_lt hi]

/-- The deletes after some more requests have been accepted. -/
theorem wasDeleted_append {l : List Nat} (hacc : w'.accepted = w.accepted ++ l)
    (hreq : ∀ t ∈ w.accepted, (w'.tx t).request = (w.tx t).request) (oid : Nat) :
    WasDeleted w' oid ↔ WasDeleted w oid ∨
      ∃ t ∈ l, (w'.tx t).request.op = .delete ∧ (w'.tx t).request.object = oid := by
  rw [WasDeleted, WasDeleted, hacc]
  constructor
  · rintro ⟨t, ht, h1, h2⟩
    obtain ht | ht := List.mem_append.mp ht
    · exact Or.inl ⟨t, ht, hreq t ht ▸ h1, hreq t ht ▸ h2⟩
    · exact Or.inr ⟨t, ht, h1, h2⟩
  · rintro (⟨t, ht, h1, h2⟩ | ⟨t, ht, h1, h2⟩)
    · exact ⟨t, List.mem_append_left _ ht, (hreq t ht).symm ▸ h1, (hreq t ht).symm ▸ h2⟩
    · exact ⟨t, List.mem_append_right _ ht, h1, h2⟩

theorem ReserveInv.requests (hi : ReserveInv w) (hstep : step env a w = some w') :
    ∀ t ∈ w.accepted, (w'.tx t).request = (w.tx t).request :=
  fun t ht => ((step_keeps hi.wf hstep).2 t (hi.logged.1 t ht)).1.1

/-- The settled onodes, the bits of their blocks and the accepted requests stay. -/
theorem ReserveInv.keep (hi : ReserveInv w) (hok : SparesReserved w a)
    (hstep : step env a w = some w')
    (hon : ∀ oid < 2 ^ 20, settledOnode w' oid = settledOnode w oid)
    (hal : ∀ oid, Valid (settledOnode w) oid →
      bit w'.zs.pmAllocator.bs (settledOnode w oid).dataIdxId =
        bit w.zs.pmAllocator.bs (settledOnode w oid).dataIdxId)
    (hacc : w'.accepted = w.accepted) : ReserveInv w' := by
  have hun : ∀ oid, Unmarked w' oid ↔ Unmarked w oid := by
    intro oid
    rw [Unmarked, Unmarked, wasDeleted_append (hacc.trans (List.append_nil _).symm)
      (hi.requests hstep)]
    simp
  have hval := valid_congr hon
  refine ⟨step_wf hi.wf hstep, step_logged hi.wf hi.logged hstep,
    step_alone hi.wf hi.alone (fun r hr => (hok r hr).1) hstep,
    fun x y hx hy hne => ?_, fun x hx => ?_, fun x hx => ?_⟩
  · rw [hon x hx.1, hon y hy.1]
    exact hi.distinct x y ((hval x).mp hx) ((hval y).mp hy) hne
  · rw [hon x hx.1, hal x ((hval x).mp hx), hun]
    exact hi.marked x ((hval x).mp hx)
  · obtain ⟨hv, hidx⟩ := hi.unmarked x ((hun x).mp hx)
    exact ⟨(hval x).mpr hv, by rw [hon x hv.1, hidx]⟩

/-- A request is called with an empty queue. -/
theorem Alone.idle {r : Request} (hi : Alone w) (hr : callOf w a = some r) (hen : enabled w a = true) :
    w.zs.txList = [] := by
  obtain hl | ⟨_, _, hd, _⟩ := hi.2
  · exact hl
  · cases a with
    | request _ =>
      rw [stack_of_enabled rfl hen] at hd
      cases hd
    | resume =>
      simp only [callOf] at hr
      split at hr
      · rename_i hs
        rw [hs] at hd
        cases hd
      · cases hr
    | bioDone _ _ => cases hr
    | message _ => cases hr

theorem settled_idle (hidle : w.zs.txList = []) : settledOnode w = w.zs.onode := by
  funext oid
  rw [settledOnode, hidle]

/-- A free block that is the index block of an object is that of an unmarked one. -/
theorem ReserveInv.free_unmarked (hi : ReserveInv w) {b oid : Nat}
    (hb : b ∈ takes w.zs.pmAllocator 1) (hv : Valid (settledOnode w) oid)
    (hidx : (settledOnode w oid).dataIdxId = b) : Unmarked w b := by
  have hclear := (takes_free hb).2
  have hm := hi.marked oid hv
  rw [hidx, hclear] at hm
  have hu : Unmarked w oid := by
    by_contra hno
    exact absurd (hm.mpr hno) (by decide)
  obtain ⟨_, hself⟩ := hi.unmarked oid hu
  rwa [← hidx, hself]

theorem ReserveInv.create {r : Request} {zs : ZstoreContext} {tx : ZstoreTransaction} {n : Nat}
    (hi : ReserveInv w) (hok : SparesReserved w a) (hr : callOf w a = some r)
    (hstep : step env a w = some w') (ha : Accepts r w w' zs tx) (hop : r.op = .create)
    (hidle : w.zs.txList = []) (h : Created w.zs r zs tx)
    (hzs : w'.zs = { zs with txOutstanding := n, txList := zs.txList ++ [w.zs.tidMax] }) :
    ReserveInv w' := by
  have hf := hi.wf.formatted
  have hreq : (w'.tx w.zs.tidMax).request = r := ha.request_self
  have hbefore : w'.before w.zs.tidMax = w.zs := ha.before_self
  have hold := settled_idle hidle
  have htake : newIndex w.zs ∈ takes w.zs.pmAllocator 1 := by simp [h.takes]
  have hspare := (hok r hr).2 hop h.invalid h.oid (newIndex w.zs) htake
  have hfree : ∀ oid, Valid w.zs.onode oid → (w.zs.onode oid).dataIdxId ≠ newIndex w.zs := by
    intro oid hv hidx
    rw [← hold] at hv hidx
    exact hspare (hi.free_unmarked htake hv hidx)
  have hidx : newIndex w.zs < 2 ^ 20 := by
    have hlt := (takes_free htake).1
    rwa [hf.pmTotal] at hlt
  have hlist : w'.zs.txList = [w.zs.tidMax] := by rw [hzs, h.store, hidle]; rfl
  have hmem : ∀ oid, w'.zs.onode oid = w.zs.onode oid := by
    intro oid
    rw [hzs, h.store]
    rfl
  have hon : ∀ oid, settledOnode w' oid = if oid = r.object then
      otableEntry r.object (newIndex w.zs) else w.zs.onode oid := by
    intro oid
    simp only [settledOnode, hlist, hreq, hbefore, hmem, loggedOnode, hop]
  have hbs : ∀ i, bit w'.zs.pmAllocator.bs i =
      (bit w.zs.pmAllocator.bs i || decide (i = newIndex w.zs)) := by
    intro i
    rw [hzs, h.store]
    simp only [h.newPm_bs, bit_setBit]
  have hun : ∀ oid, Unmarked w' oid ↔ Unmarked w oid := by
    intro oid
    rw [Unmarked, Unmarked, wasDeleted_append ha.accepted (hi.requests hstep)]
    simp [hreq, hop]
  have hdist := hi.distinct
  have hmark := hi.marked
  have hunm := hi.unmarked
  simp only [hold] at hdist hmark hunm
  have hother : ∀ oid, oid ≠ r.object → Valid (settledOnode w') oid → Valid w.zs.onode oid := by
    intro oid hne hv
    rw [Valid, hon, if_neg hne] at hv
    exact hv
  have hentry : (otableEntry r.object (newIndex w.zs)).dataIdxId = newIndex w.zs :=
    otableEntry_index r.object (by omega)
  -- the object did not exist, so it is none of the unmarked ones
  have hnew : ¬ Unmarked w r.object := by
    intro hu
    have hv := (hunm r.object hu).1.2
    rw [h.invalid] at hv
    cases hv
  refine ⟨step_wf hi.wf hstep, step_logged hi.wf hi.logged hstep,
    step_alone hi.wf hi.alone (fun r hr => (hok r hr).1) hstep, fun x y hx hy hne => ?_,
    fun x hx => ?_, fun x hx => ?_⟩
  · rw [hon, hon]
    by_cases hxo : x = r.object
    · have hyo : y ≠ r.object := fun hyo => hne (hxo.trans hyo.symm)
      rw [if_pos hxo, if_neg hyo, hentry]
      exact (hfree y (hother y hyo hy)).symm
    · rw [if_neg hxo]
      by_cases hyo : y = r.object
      · rw [if_pos hyo, hentry]
        exact hfree x (hother x hxo hx)
      · rw [if_neg hyo]
        exact hdist x y (hother x hxo hx) (hother y hyo hy) hne
  · rw [hon, hbs, hun]
    by_cases hxo : x = r.object
    · rw [if_pos hxo, hentry, hxo]
      simp [hnew]
    · rw [if_neg hxo]
      have hv := hother x hxo hx
      rw [← hmark x hv]
      simp [hfree x hv]
  · obtain ⟨hv, hself⟩ := hunm x ((hun x).mp hx)
    have hxo : x ≠ r.object := by
      rintro rfl
      exact hnew ((hun r.object).mp hx)
    rw [Valid, hon, if_neg hxo]
    exact ⟨hv, hself⟩

theorem ReserveInv.delete {r : Request} {zs : ZstoreContext} {tx : ZstoreTransaction} {n : Nat}
    (hi : ReserveInv w) (hok : SparesReserved w a)
    (hstep : step env a w = some w') (ha : Accepts r w w' zs tx) (hop : r.op = .delete)
    (hidle : w.zs.txList = []) (h : Deleted w.zs r zs tx)
    (hzs : w'.zs = { zs with txOutstanding := n, txList := zs.txList ++ [w.zs.tidMax] }) :
    ReserveInv w' := by
  have hreq : (w'.tx w.zs.tidMax).request = r := ha.request_self
  have hold := settled_idle hidle
  have hlist : w'.zs.txList = [w.zs.tidMax] := by rw [hzs, h.store, hidle]; rfl
  have hmem : ∀ oid, w'.zs.onode oid = w.zs.onode oid := by
    intro oid
    rw [hzs, h.store]
    rfl
  have hon : ∀ oid, settledOnode w' oid = if oid = r.object then 0 else w.zs.onode oid := by
    intro oid
    simp only [settledOnode, hlist, hreq, hmem, loggedOnode, hop]
  have hbs : ∀ i, bit w'.zs.pmAllocator.bs i =
      (bit w.zs.pmAllocator.bs i && decide (i ≠ (w.zs.onode r.object).dataIdxId)) := by
    intro i
    rw [hzs, h.store]
    simp only [freeOne_bs, bit_clearBit]
  have hun : ∀ oid, Unmarked w' oid ↔ Unmarked w oid ∧ oid ≠ r.object := by
    intro oid
    rw [Unmarked, Unmarked, wasDeleted_append ha.accepted (hi.requests hstep)]
    simp only [List.mem_singleton, exists_eq_left, hreq, hop, true_and, not_or]
    rw [and_assoc, and_assoc, ne_comm]
  have hdist := hi.distinct
  have hmark := hi.marked
  have hunm := hi.unmarked
  simp only [hold] at hdist hmark hunm
  have hobj : Valid w.zs.onode r.object :=
    ⟨hi.wf.formatted.onodesRsv ▸ h.oid, h.valid⟩
  have hother : ∀ oid, Valid (settledOnode w') oid → oid ≠ r.object ∧ Valid w.zs.onode oid := by
    intro oid hv
    rw [Valid, hon] at hv
    by_cases ho : oid = r.object
    · rw [if_pos ho] at hv
      exact absurd hv.2 (by simp [OtableEntry.valid])
    · rw [if_neg ho] at hv
      exact ⟨ho, hv⟩
  refine ⟨step_wf hi.wf hstep, step_logged hi.wf hi.logged hstep,
    step_alone hi.wf hi.alone (fun r hr => (hok r hr).1) hstep, fun x y hx hy hne => ?_,
    fun x hx => ?_, fun x hx => ?_⟩
  · obtain ⟨hxo, hx⟩ := hother x hx
    obtain ⟨hyo, hy⟩ := hother y hy
    rw [hon, hon, if_neg hxo, if_neg hyo]
    exact hdist x y hx hy hne
  · obtain ⟨hxo, hx⟩ := hother x hx
    have hne := hdist x r.object hx hobj hxo
    rw [hon, hbs, hun, if_neg hxo]
    simp only [hne, ne_eq, not_false_eq_true, decide_true, Bool.and_true, hxo, and_true]
    exact hmark x hx
  · obtain ⟨hu, hxo⟩ := (hun x).mp hx
    rw [Valid, hon, if_neg hxo]
    exact hunm x hu

/-- A rejected request sets no bit of an object's index block. -/
theorem ReserveInv.reject {r : Request} {rc : Int} {tx : ZstoreTransaction} (hi : ReserveInv w)
    (hok : SparesReserved w a) (hr : callOf w a = some r) (hstep : step env a w = some w')
    (hrej : Rejects env r w w' rc tx) (hidle : w.zs.txList = []) : ReserveInv w' := by
  have hfr := (prepare_rejected hi.wf.formatted.shift hrej.rc_ne hrej.prepare).frame
  have hold := settled_idle hidle
  have hlist : w'.zs.txList = [] := by rw [hfr, hidle]
  have hon : ∀ oid < 2 ^ 20, settledOnode w' oid = settledOnode w oid := by
    intro oid _
    rw [hold, settled_idle hlist]
    exact onode_congr (by rw [hfr]) (by rw [hfr]) oid
  refine hi.keep hok hstep hon (fun oid hv => ?_) hrej.accepted
  cases hop : r.op with
  | create =>
    obtain ⟨_, al, rfl | ⟨rfl, hno, hinv, hobj⟩, hzs⟩ | ⟨h0, _⟩ := prepare_create hop hrej.prepare
    · rw [hzs]
    · rw [hzs]
      have hspare := (hok r hr).2 hop hinv hobj
      have hout : (settledOnode w oid).dataIdxId ∉ takes w.zs.pmAllocator 1 :=
        fun hm => hspare _ hm (hi.free_unmarked hm hv rfl)
      by_cases hfree : 1 ≤ w.zs.pmAllocator.nrFree
      · simp only [newPm, alloc_of_no_room (Nat.le_refl 1) hfree hno, bit_setAll, hout, decide_false,
          Bool.or_false]
      · rw [newPm, alloc_of_few (Nat.lt_of_not_le hfree)]
    · exact absurd h0 hrej.rc_ne
  | delete =>
    obtain ⟨_, hzs⟩ | ⟨h0, _⟩ := prepare_delete hop hrej.prepare
    · rw [hzs]
    · exact absurd h0 hrej.rc_ne
  | read => exact absurd (hok r hr).1 (by simp [IsChange, hop])
  | write => exact absurd (hok r hr).1 (by simp [IsChange, hop])
  | other => exact absurd (hok r hr).1 (by simp [IsChange, hop])

/-- A commit brings the onodes to where they were going. -/
theorem ReserveInv.commit {tid : Nat} {t : PmemTransaction} (hi : ReserveInv w)
    (hok : SparesReserved w a) (hstep : step env a w = some w') (hc : Commits w w' tid t) :
    ReserveInv w' := by
  have heff := hc.effect hi.wf
  obtain ⟨n, hzs⟩ := hc.zs
  have hal : w'.zs.pmAllocator = w.zs.pmAllocator := by rw [hzs]
  have hlist : w'.zs.txList = [] := by
    obtain hl | ⟨u, hl, _⟩ := hi.alone.2
    · rw [hc.head] at hl
      cases hl
    · rw [hc.head] at hl
      exact (List.cons.inj hl).2
  refine hi.keep hok hstep (fun oid ho => ?_) (fun oid _ => by rw [hal]) hc.accepted
  rw [settled_idle hlist, heff.onode oid ho, settledOnode, hc.head]

theorem enabled_of_step (h : step env a w = some w') : enabled w a = true := by
  unfold step at h
  split at h
  · assumption
  · cases h

theorem ReserveInv.step (hi : ReserveInv w) (hok : SparesReserved w a)
    (hstep : Store.step env a w = some w') : ReserveInv w' := by
  obtain hq | ⟨r, hr, ⟨rc, tx, hrej⟩ | ⟨zs, tx, ha⟩⟩ | ⟨tid, t, hc⟩ := step_cases hi.wf hstep
  · refine hi.keep hok hstep (fun oid _ => ?_) (fun _ _ => by rw [hq.zs.pmAllocator]) hq.accepted
    rw [settledOnode, settledOnode, hq.zs.txList]
    have hon := onode_congr hq.zs.mem hq.zs.otable oid
    split
    · exact hon
    · rename_i u _ _
      rw [(hq.heap u).1, hq.before, hon]
  · exact hi.reject hok hr hstep hrej (hi.alone.idle hr (enabled_of_step hstep))
  · have hidle := hi.alone.idle hr (enabled_of_step hstep)
    obtain ⟨hop, _⟩ | ⟨hacc, n, hzs⟩ := ha.kind
    · exact absurd (hok r hr).1 (by simp [IsChange, hop])
    · cases hacc with
      | write hop _ => exact absurd (hok r hr).1 (by simp [IsChange, hop])
      | create hop h => exact hi.create hok hr hstep ha hop hidle h hzs
      | delete hop h => exact hi.delete hok hstep ha hop hidle h hzs
  · exact hi.commit hok hstep hc

end Steps

section Mounting
variable {stk : Image} {e : Nat → OtableEntry} {nblks cpu : Nat} {flags mflags : BitVec 32}
  {m : Image} {h : MountMem} {zs : ZstoreContext}

theorem reserveInv_mounted (hflags : flags &&& zstoreMkfsReserveObjid ≠ 0) (hcpu : cpu < 127)
    (hp : h.Placed) (hm : zstoreMount cpu mflags h (zstoreMkfs stk e nblks flags m) = .ok zs)
    (heap : Nat → ZstoreTransaction) : ReserveInv (World.mounted zs heap) := by
  obtain ⟨hf, hon, hbit⟩ := mount_reserved hflags hcpu hp hm
  have hw := zstoreMount_mounted hm hf heap
  have hold := settled_idle hw.txList
  have hzs : (World.mounted zs heap).zs = zs := rfl
  have hnone : ∀ oid, ¬ WasDeleted (World.mounted zs heap) oid := by
    rintro oid ⟨t, ht, _⟩
    cases ht
  have hres : ∀ oid, Valid zs.onode oid ↔ oid < 2 ^ 18 := by
    intro oid
    constructor
    · rintro ⟨h1, h2⟩
      by_contra hge
      rw [hon oid h1, if_neg hge] at h2
      exact absurd h2 (by simp [OtableEntry.valid])
    · intro hlt
      refine ⟨by omega, ?_⟩
      rw [hon oid (by omega), if_pos hlt]
      exact reservedEntry_valid (e oid) oid
  have hidx : ∀ oid < 2 ^ 18, (zs.onode oid).dataIdxId = oid := by
    intro oid hlt
    rw [hon oid (by omega), if_pos hlt]
    exact reservedEntry_index (e oid) (by omega)
  refine ⟨hw.wf, hw.logged, ⟨hw.flight, Or.inl hw.txList⟩, fun x y hx hy hne => ?_,
    fun x hx => ?_, fun x hx => ?_⟩
  · rw [hold, hzs] at hx hy ⊢
    rw [hidx x ((hres x).mp hx), hidx y ((hres y).mp hy)]
    exact hne
  · rw [hold, hzs] at hx ⊢
    have hlt := (hres x).mp hx
    rw [hidx x hlt, hbit x (by omega), decide_eq_true_eq, Unmarked]
    simp only [hnone, not_false_eq_true, and_true, hlt, not_le]
  · rw [hold, hzs]
    exact ⟨(hres x).mpr hx.2.1, hidx x hx.2.1⟩

end Mounting

end ZCell.Store
