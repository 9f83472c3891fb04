import ZCell.StoreStep
import Mathlib.Data.List.Perm.Basic

/-! The transaction queue on its own: what is known of each transaction, the two lists, the bios
in flight and the posted messages, with one transition for everything that can happen to them. -/
namespace ZCell.Store

/-- The transaction that an observation is about. -/
def Obs.tid : Obs → Nat
  | .accept t | .reject t _ | .submit t | .done t | .apply t | .callback t | .post t | .deliver t => t

def Obs.endedTid : Obs → Option Nat
  | .callback t | .post t => some t
  | _ => none

structure Item where
  rdonly : Bool
  sync : Bool
  /-- In state PM_TX. -/
  ready : Bool
  bios : Nat

structure TxQueue where
  next : Nat
  item : Nat → Item
  writes : List Nat
  writesOut : Nat
  reads : List Nat
  readsOut : Nat
  flight : List Nat
  posted : List Nat
  /-- The loop of `zstore_tx_metadata` is active. -/
  draining : Bool
  log : List Obs

namespace TxQueue

def accepted (q : TxQueue) : List Nat := q.log.filterMap Obs.acceptedTid

def applied (q : TxQueue) : List Nat := q.log.filterMap Obs.appliedTid

/-- The transactions whose callback was invoked or posted. -/
def ended (q : TxQueue) : List Nat := q.log.filterMap Obs.endedTid

/-- A request becomes the transaction `next`, and `m` of its bios are submitted. -/
def enter (q : TxQueue) (it : Item) (m : Nat) : TxQueue := { q with
  next := q.next + 1
  item := Function.update q.item q.next it
  writes := if it.rdonly then q.writes else q.writes ++ [q.next]
  writesOut := if it.rdonly then q.writesOut else q.writesOut + 1
  reads := if it.rdonly then q.reads ++ [q.next] else q.reads
  readsOut := if it.rdonly then q.readsOut + 1 else q.readsOut
  flight := q.flight ++ List.replicate m q.next
  log := q.log ++ .accept q.next :: List.replicate m (.submit q.next) }

/-- Transaction `t` leaves its list and its callback is invoked or posted. -/
def leave (q : TxQueue) (t : Nat) : TxQueue := { q with
  writes := if (q.item t).rdonly then q.writes else q.writes.erase t
  writesOut := if (q.item t).rdonly then q.writesOut else q.writesOut - 1
  reads := if (q.item t).rdonly then q.reads.erase t else q.reads
  readsOut := if (q.item t).rdonly then q.readsOut - 1 else q.readsOut
  posted := if (q.item t).sync then q.posted ++ [t] else q.posted
  log := q.log ++ [if (q.item t).sync then .post t else .callback t] }

/-- Bio `k`, one of transaction `t`, completes, and `t` is `it` from then on. -/
def complete (q : TxQueue) (k t : Nat) (it : Item) : TxQueue := { q with
  item := Function.update q.item t it
  flight := q.flight.eraseIdx k
  log := q.log ++ [.done t] }

/-- Of `n` bios that are waited for, `m` are at the device. With `full` it refuses none. -/
def InFlight (full : Prop) (m n : Nat) : Prop := m ≤ n ∧ (full → m = n)

theorem InFlight.pred {full : Prop} {m n : Nat} (h : InFlight full m n) :
    InFlight full (m - 1) (n - 1) :=
  ⟨Nat.sub_le_sub_right h.1 1, fun hf => by rw [h.2 hf]⟩

theorem InFlight.zero {full : Prop} {m : Nat} (h : InFlight full m 0) : m = 0 :=
  Nat.le_zero.mp h.1

inductive Step (full : Prop) (q : TxQueue) : TxQueue → Prop
  | reject (it : Item) (rc : Int) : Step full q { q with
      next := q.next + 1
      item := Function.update q.item q.next it
      log := q.log ++ [.reject q.next rc] }
  | data (rdonly : Bool) (n m : Nat) (hn : 0 < n) (hm : InFlight full m n) :
      Step full q (q.enter ⟨rdonly, false, false, n⟩ m)
  | change : Step full q { q.enter ⟨false, true, true, 0⟩ 0 with
      draining := q.draining || q.writes.isEmpty }
  | bio (k t : Nat) (hk : q.flight[k]? = some t) (hb : (q.item t).bios ≠ 1) :
      Step full q (q.complete k t { q.item t with bios := (q.item t).bios - 1 })
  | lastWrite (k t : Nat) (hk : q.flight[k]? = some t) (hb : (q.item t).bios = 1)
      (hw : (q.item t).rdonly = false) :
      Step full q { q.complete k t { q.item t with ready := true, bios := 0 } with
        draining := q.draining || q.writes.head? == some t }
  | lastRead (k t : Nat) (hk : q.flight[k]? = some t) (hb : (q.item t).bios = 1)
      (hr : (q.item t).rdonly = true) :
      Step full q ((q.complete k t { q.item t with ready := true, bios := 0 }).leave t)
  | deliver (k t : Nat) (hk : q.posted[k]? = some t) : Step full q { q with
      posted := q.posted.eraseIdx k
      log := q.log ++ [.deliver t] }
  | pause (d : Bool) (hd : d = q.draining ∨ ∀ t, q.writes.head? = some t → (q.item t).ready = false) :
      Step full q { q with draining := d }
  | commit (t : Nat) (ht : q.writes.head? = some t) (hr : (q.item t).ready = true) :
      Step full q (leave { q with log := q.log ++ [.apply t] } t)

/-- An observation that may come after `pre`. -/
def Okay (item : Nat → Item) (pre : List Obs) : Obs → Prop
  | .submit t => .accept t ∈ pre ∧ .apply t ∉ pre
  | .apply t => .accept t ∈ pre ∧ .apply t ∉ pre ∧ pre.count (.done t) = pre.count (.submit t)
  | .callback t => (item t).sync = false ∧ .callback t ∉ pre ∧
      ((item t).rdonly = false → .apply t ∈ pre) ∧ pre.count (.done t) = pre.count (.submit t)
  | .post t => (item t).sync = true ∧ .post t ∉ pre ∧
      ((item t).rdonly = false → .apply t ∈ pre) ∧ pre.count (.done t) = pre.count (.submit t)
  | _ => True

/-- Every observation of the log may come where it stands. -/
inductive Ordered (item : Nat → Item) : List Obs → Prop
  | nil : Ordered item []
  | snoc {l : List Obs} {o : Obs} (h : Ordered item l) (ho : Okay item l o) : Ordered item (l ++ [o])

theorem Ordered.at {item : Nat → Item} {l pre suf : List Obs} {o : Obs} (h : Ordered item l)
    (hl : l = pre ++ o :: suf) : Okay item pre o := by
  induction h generalizing suf with
  | nil => simp at hl
  | @snoc l o' _ ho ih =>
    obtain rfl | ⟨suf, x, rfl⟩ := List.eq_nil_or_concat suf
    · obtain ⟨rfl, h2⟩ := List.append_inj' hl rfl
      obtain rfl := List.head_eq_of_cons_eq h2
      exact ho
    · have hl' : l ++ [o'] = (pre ++ o :: suf) ++ [x] := by simpa using hl
      exact ih (List.append_inj' hl' rfl).1

/-- Only the fixed parts of the transactions in the log matter. -/
theorem Ordered.congr {item item' : Nat → Item} {l : List Obs} (h : Ordered item l)
    (hk : ∀ o ∈ l, (item' o.tid).sync = (item o.tid).sync ∧
      (item' o.tid).rdonly = (item o.tid).rdonly) : Ordered item' l := by
  induction h with
  | nil => exact .nil
  | @snoc l o _ ho ih =>
    refine .snoc (ih fun o' h' => hk o' (List.mem_append_left _ h')) ?_
    have hk := hk o (by simp)
    cases o <;> simp only [Okay, Obs.tid] at ho hk ⊢ <;> simpa only [hk.1, hk.2] using ho

theorem Ordered.append {item : Nat → Item} {l os : List Obs} (h : Ordered item l)
    (hos : ∀ pre o suf, os = pre ++ o :: suf → Okay item (l ++ pre) o) : Ordered item (l ++ os) := by
  induction os generalizing l with
  | nil => simpa using h
  | cons o os ih =>
    have hsnoc : Ordered item (l ++ [o]) := h.snoc (by simpa using hos [] o os rfl)
    have hrest := ih hsnoc fun pre x suf hx => by
      have h' := hos (o :: pre) x suf (by rw [hx]; rfl)
      simpa using h'
    simpa using hrest

/-- The books: which transactions were accepted, committed and ended, and what is left of them. -/
structure Ledger (q : TxQueue) : Prop where
  known : ∀ o ∈ q.log, o.tid < q.next
  once : q.accepted.Nodup
  fifo : q.accepted.filter (fun t => !(q.item t).rdonly) = q.applied ++ q.writes
  ended : q.ended.filter (fun t => !(q.item t).rdonly) = q.applied
  balance : ∀ t, q.accepted.count t = q.ended.count t + q.writes.count t + q.reads.count t
  writes : ∀ t ∈ q.writes, (q.item t).rdonly = false
  reads : ∀ t ∈ q.reads, (q.item t).rdonly = true
  writesOut : q.writesOut = q.writes.length
  readsOut : q.readsOut = q.reads.length
  bios : ∀ t, q.log.count (.submit t) = q.log.count (.done t) + q.flight.count t
  posts : ∀ t, q.log.count (.post t) = q.log.count (.deliver t) + q.posted.count t
  ordered : Ordered q.item q.log

/-- What the transactions in the lists wait for. -/
structure Live (full : Prop) (q : TxQueue) : Prop where
  flight : ∀ t ∈ q.flight, t ∈ q.writes ∨ t ∈ q.reads
  count : ∀ t, t ∈ q.writes ∨ t ∈ q.reads → InFlight full (q.flight.count t) (q.item t).bios
  ready : ∀ t, t ∈ q.writes ∨ t ∈ q.reads → ((q.item t).ready = true ↔ (q.item t).bios = 0)
  waiting : ∀ t ∈ q.reads, (q.item t).ready = false
  head : ∀ t, q.writes.head? = some t → (q.item t).ready = true → q.draining = true

section Ledger
variable {q : TxQueue} {t : Nat}

theorem mem_accepted : t ∈ q.accepted ↔ Obs.accept t ∈ q.log := by
  simp only [accepted, List.mem_filterMap]
  constructor
  · rintro ⟨o, ho, h⟩
    cases o <;> simp_all [Obs.acceptedTid]
  · exact fun h => ⟨_, h, rfl⟩

theorem mem_applied : t ∈ q.applied ↔ Obs.apply t ∈ q.log := by
  simp only [applied, List.mem_filterMap]
  constructor
  · rintro ⟨o, ho, h⟩
    cases o <;> simp_all [Obs.appliedTid]
  · exact fun h => ⟨_, h, rfl⟩

theorem mem_ended : t ∈ q.ended ↔ Obs.callback t ∈ q.log ∨ Obs.post t ∈ q.log := by
  simp only [ended, List.mem_filterMap]
  constructor
  · rintro ⟨o, ho, h⟩
    cases o <;> simp_all [Obs.endedTid]
  · rintro (h | h)
    · exact ⟨_, h, rfl⟩
    · exact ⟨_, h, rfl⟩

theorem Ledger.live_accepted (h : Ledger q) (ht : t ∈ q.writes ∨ t ∈ q.reads) : t ∈ q.accepted := by
  have hb := h.balance t
  rw [← List.count_pos_iff]
  obtain ht | ht := ht
  · have hpos := List.count_pos_iff.mpr ht
    omega
  · have hpos := List.count_pos_iff.mpr ht
    omega

theorem Ledger.live_lt (h : Ledger q) (ht : t ∈ q.writes ∨ t ∈ q.reads) : t < q.next :=
  h.known _ (mem_accepted.mp (h.live_accepted ht))

/-- A transaction in a list has not ended. -/
theorem Ledger.live_running (h : Ledger q) (ht : t ∈ q.writes ∨ t ∈ q.reads) : t ∉ q.ended := by
  intro hend
  have hb := h.balance t
  have hle := List.nodup_iff_count.mp h.once t
  have h1 := List.count_pos_iff.mpr hend
  obtain ht | ht := ht
  · have hpos := List.count_pos_iff.mpr ht
    omega
  · have hpos := List.count_pos_iff.mpr ht
    omega

/-- A queued transaction has not been committed. -/
theorem Ledger.queued_pending (h : Ledger q) (ht : t ∈ q.writes) : t ∉ q.applied := by
  have hnd : (q.applied ++ q.writes).Nodup := h.fifo ▸ h.once.filter _
  exact fun happ => (List.nodup_append.mp hnd).2.2 t happ t ht rfl

theorem Ledger.fresh (h : Ledger q) {o : Obs} (ho : q.next ≤ o.tid) : q.log.count o = 0 :=
  List.count_eq_zero.mpr fun hm => Nat.not_lt_of_le ho (h.known o hm)

/-- The next transaction is in none of the lists. -/
theorem Ledger.next_fresh (h : Ledger q) :
    q.next ∉ q.accepted ∧ q.next ∉ q.writes ∧ q.next ∉ q.reads ∧ q.next ∉ q.flight := by
  refine ⟨fun hm => ?_, fun hm => ?_, fun hm => ?_, fun hm => ?_⟩
  · exact Nat.lt_irrefl _ (h.known _ (mem_accepted.mp hm))
  · exact Nat.lt_irrefl _ (h.live_lt (Or.inl hm))
  · exact Nat.lt_irrefl _ (h.live_lt (Or.inr hm))
  · have hpos := List.count_pos_iff.mpr hm
    have hsub := h.bios q.next
    rw [h.fresh (o := .submit q.next) (Nat.le_refl _)] at hsub
    omega

/-- Transactions may change, but not in kind. -/
theorem Ledger.setItem (h : Ledger q) {item : Nat → Item}
    (hk : ∀ t < q.next, (item t).sync = (q.item t).sync ∧ (item t).rdonly = (q.item t).rdonly) :
    Ledger { q with item := item } := by
  have hkind : ∀ l : List Nat, (∀ t ∈ l, t < q.next) →
      l.filter (fun t => !(item t).rdonly) = l.filter (fun t => !(q.item t).rdonly) := by
    intro l hl
    apply List.filter_congr
    intro t ht
    rw [(hk t (hl t ht)).2]
  have hended : ∀ t ∈ q.ended, t < q.next := by
    intro t ht
    obtain h' | h' := mem_ended.mp ht
    · exact h.known _ h'
    · exact h.known _ h'
  exact {
    known := h.known
    once := h.once
    fifo := (hkind q.accepted fun t ht => h.known _ (mem_accepted.mp ht)).trans h.fifo
    ended := (hkind q.ended hended).trans h.ended
    balance := h.balance
    writes := fun t ht => (hk t (h.live_lt (Or.inl ht))).2.trans (h.writes t ht)
    reads := fun t ht => (hk t (h.live_lt (Or.inr ht))).2.trans (h.reads t ht)
    writesOut := h.writesOut
    readsOut := h.readsOut
    bios := h.bios
    posts := h.posts
    ordered := h.ordered.congr fun o ho => hk _ (h.known o ho) }

theorem Ledger.enter (h : Ledger q) (it : Item) (m : Nat) : Ledger (q.enter it m) := by
  have h1 : Ledger { q with item := Function.update q.item q.next it } := by
    apply h.setItem
    intro t ht
    rw [Function.update_of_ne (Nat.ne_of_lt ht)]
    exact ⟨rfl, rfl⟩
  have hacc : (q.enter it m).accepted = q.accepted ++ [q.next] := by
    simp [accepted, TxQueue.enter, Obs.acceptedTid]
  have happ : (q.enter it m).applied = q.applied := by
    simp [applied, TxQueue.enter, Obs.appliedTid]
  have hend : (q.enter it m).ended = q.ended := by
    simp [TxQueue.ended, TxQueue.enter, Obs.endedTid]
  obtain ⟨fa, fw, fr, ff⟩ := h.next_fresh
  have hself : (q.enter it m).item q.next = it := Function.update_self ..
  constructor
  · intro o ho
    simp only [TxQueue.enter, List.mem_append, List.mem_cons, List.mem_replicate] at ho ⊢
    obtain ho | rfl | ⟨_, rfl⟩ := ho
    · exact Nat.lt_succ_of_lt (h.known o ho)
    · exact Nat.lt_succ_self _
    · exact Nat.lt_succ_self _
  · rw [hacc]
    refine List.nodup_append.mpr ⟨h.once, by simp, fun a ha b hb hab => ?_⟩
    obtain rfl := List.mem_singleton.mp hb
    exact fa (hab ▸ ha)
  · have hold : q.accepted.filter (fun t => !((q.enter it m).item t).rdonly) =
        q.applied ++ q.writes := h1.fifo
    rw [hacc, happ, List.filter_append, hold, List.filter_cons, hself]
    cases hr : it.rdonly <;> simp [TxQueue.enter, hr]
  · rw [hend, happ]
    exact h1.ended
  · intro t
    have hb := h.balance t
    rw [hacc, hend]
    cases hr : it.rdonly <;> simp [TxQueue.enter, hr, List.count_append] <;> omega
  · intro t ht
    by_cases hn : t = q.next
    · subst hn
      rw [hself]
      cases hr : it.rdonly
      · rfl
      · simp only [TxQueue.enter, hr, if_true] at ht
        exact absurd ht fw
    · refine h1.writes t ?_
      cases hr : it.rdonly <;> simp [TxQueue.enter, hr, hn] at ht <;> exact ht
  · intro t ht
    by_cases hn : t = q.next
    · subst hn
      rw [hself]
      cases hr : it.rdonly
      · simp only [TxQueue.enter, hr] at ht
        exact absurd ht fr
      · rfl
    · refine h1.reads t ?_
      cases hr : it.rdonly <;> simp [TxQueue.enter, hr, hn] at ht <;> exact ht
  · have hw := h.writesOut
    cases hr : it.rdonly <;> simp [TxQueue.enter, hr, hw]
  · have hw := h.readsOut
    cases hr : it.rdonly <;> simp [TxQueue.enter, hr, hw]
  · intro t
    have hb := h.bios t
    simp only [TxQueue.enter, List.count_append, List.count_cons, List.count_replicate, beq_iff_eq,
      reduceCtorEq, if_false, Obs.submit.injEq]
    omega
  · intro t
    have hb := h.posts t
    simp only [TxQueue.enter, List.count_append, List.count_cons, List.count_replicate, beq_iff_eq,
      reduceCtorEq, if_false]
    omega
  · refine h1.ordered.append fun pre o suf hos => ?_
    cases pre with
    | nil =>
      obtain rfl := List.head_eq_of_cons_eq hos
      trivial
    | cons a pre =>
      have hrep : List.replicate m (Obs.submit q.next) = pre ++ o :: suf := (List.cons.inj hos).2
      obtain rfl := List.head_eq_of_cons_eq hos
      have hmem : ∀ x ∈ pre ++ o :: suf, x = Obs.submit q.next := by
        intro x hx
        rw [← hrep] at hx
        exact (List.mem_replicate.mp hx).2
      obtain rfl := hmem o (by simp)
      refine ⟨by simp, fun happly => ?_⟩
      obtain hl | hl := List.mem_append.mp happly
      · exact Nat.lt_irrefl _ (h.known _ hl)
      · obtain h0 | hl := List.mem_cons.mp hl
        · cases h0
        · cases hmem _ (List.mem_append_left _ hl)

theorem count_eraseIdx {l : List Nat} {k t : Nat} (h : l[k]? = some t) (x : Nat) :
    l.count x = (l.eraseIdx k).count x + if t = x then 1 else 0 := by
  obtain ⟨hk, rfl⟩ := List.getElem?_eq_some_iff.mp h
  rw [← (List.getElem_cons_eraseIdx_perm hk).count_eq x, List.count_cons]
  simp only [beq_iff_eq]

/-- A completion, whatever becomes of the transaction. -/
theorem Ledger.complete (h : Ledger q) {k : Nat} (hk : q.flight[k]? = some t) (it : Item)
    (hs : it.sync = (q.item t).sync) (hr : it.rdonly = (q.item t).rdonly) :
    Ledger (q.complete k t it) := by
  have h1 : Ledger { q with item := Function.update q.item t it } := by
    apply h.setItem
    intro i _
    by_cases hi : i = t
    · subst hi
      rw [Function.update_self]
      exact ⟨hs, hr⟩
    · rw [Function.update_of_ne hi]
      exact ⟨rfl, rfl⟩
  have ht : t < q.next := by
    have hpos := List.count_pos_iff.mpr (List.mem_of_getElem? hk)
    have hb := h.bios t
    exact h.known (.submit t) (List.count_pos_iff.mp (by omega))
  have hacc : (q.complete k t it).accepted = q.accepted := by
    simp [accepted, TxQueue.complete, Obs.acceptedTid]
  have happ : (q.complete k t it).applied = q.applied := by
    simp [applied, TxQueue.complete, Obs.appliedTid]
  have hend : (q.complete k t it).ended = q.ended := by
    simp [TxQueue.ended, TxQueue.complete, Obs.endedTid]
  constructor
  · intro o ho
    obtain ho | ho := List.mem_append.mp ho
    · exact h.known o ho
    · obtain rfl := List.mem_singleton.mp ho
      exact ht
  · rw [hacc]
    exact h.once
  · rw [hacc, happ]
    exact h1.fifo
  · rw [hend, happ]
    exact h1.ended
  · intro i
    rw [hacc, hend]
    exact h.balance i
  · exact h1.writes
  · exact h1.reads
  · exact h.writesOut
  · exact h.readsOut
  · intro i
    have hb := h.bios i
    have hc := count_eraseIdx hk i
    simp only [TxQueue.complete, List.count_append, List.count_singleton, beq_iff_eq, reduceCtorEq,
      if_false, Obs.done.injEq]
    omega
  · intro i
    have hb := h.posts i
    simp only [TxQueue.complete, List.count_append, List.count_singleton, beq_iff_eq, reduceCtorEq,
      if_false]
    omega
  · exact h1.ordered.snoc trivial

/-- The observation that transaction `t` ends with. -/
def ending (q : TxQueue) (t : Nat) : Obs := if (q.item t).sync then .post t else .callback t

theorem ending_tid (q : TxQueue) (t : Nat) : (q.ending t).tid = t := by
  unfold ending
  split <;> rfl

theorem filterMap_ending (q : TxQueue) (t : Nat) :
    [q.ending t].filterMap Obs.acceptedTid = [] ∧ [q.ending t].filterMap Obs.appliedTid = [] ∧
    [q.ending t].filterMap Obs.endedTid = [t] := by
  unfold ending
  split <;> exact ⟨rfl, rfl, rfl⟩

theorem count_ending (q : TxQueue) (t x : Nat) : [q.ending t].count (.submit x) = 0 ∧
    [q.ending t].count (.done x) = 0 ∧ [q.ending t].count (.deliver x) = 0 ∧
    (if (q.item t).sync then q.posted ++ [t] else q.posted).count x =
      q.posted.count x + [q.ending t].count (.post x) := by
  unfold ending
  split <;> simp [List.count_append, List.count_singleton]

/-- A transaction may end once its bios are done and, if it writes, it is committed. -/
theorem Ledger.ending_okay (h : Ledger q) (hend : t ∉ q.ended) (hbios : q.flight.count t = 0)
    {pre : List Obs} (hpre : pre = q.log ∨ pre = q.log ++ [.apply t])
    (happ : (q.item t).rdonly = false → .apply t ∈ pre) : Okay q.item pre (q.ending t) := by
  have hno : Obs.callback t ∉ pre ∧ Obs.post t ∉ pre := by
    rw [mem_ended, not_or] at hend
    obtain rfl | rfl := hpre
    · exact hend
    · simpa using hend
  have hcount : pre.count (.done t) = pre.count (.submit t) := by
    have hb := h.bios t
    obtain rfl | rfl := hpre
    · omega
    · simp only [List.count_append, List.count_singleton, beq_iff_eq, reduceCtorEq, if_false]
      omega
  unfold ending
  cases hs : (q.item t).sync
  · exact ⟨hs, hno.1, happ, hcount⟩
  · exact ⟨hs, hno.2, happ, hcount⟩

/-- The head of the queue is committed and ends. -/
theorem Ledger.commit (h : Ledger q) (ht : q.writes.head? = some t) (hbios : q.flight.count t = 0) :
    Ledger (leave { q with log := q.log ++ [.apply t] } t) := by
  obtain ⟨ws, hws⟩ := List.head?_eq_some_iff.mp ht
  have hlive : t ∈ q.writes := by simp [hws]
  have hr : (q.item t).rdonly = false := h.writes t hlive
  have hlog : (leave { q with log := q.log ++ [.apply t] } t).log =
      (q.log ++ [.apply t]) ++ [q.ending t] := rfl
  have hwrites : (leave { q with log := q.log ++ [.apply t] } t).writes = ws := by
    simp [leave, hr, hws]
  have hreads : (leave { q with log := q.log ++ [.apply t] } t).reads = q.reads := by
    simp [leave, hr]
  obtain ⟨e1, e2, e3⟩ := filterMap_ending q t
  have hacc : (leave { q with log := q.log ++ [.apply t] } t).accepted = q.accepted := by
    rw [accepted, hlog, List.filterMap_append, List.filterMap_append, e1]
    simp [accepted, Obs.acceptedTid]
  have happ : (leave { q with log := q.log ++ [.apply t] } t).applied = q.applied ++ [t] := by
    rw [applied, hlog, List.filterMap_append, List.filterMap_append, e2]
    simp [applied, Obs.appliedTid]
  have hend : (leave { q with log := q.log ++ [.apply t] } t).ended = q.ended ++ [t] := by
    rw [TxQueue.ended, hlog, List.filterMap_append, List.filterMap_append, e3]
    simp [TxQueue.ended, Obs.endedTid]
  constructor
  · intro o ho
    rw [hlog] at ho
    simp only [List.mem_append, List.mem_singleton] at ho
    obtain (ho | rfl) | rfl := ho
    · exact h.known o ho
    · exact h.live_lt (Or.inl hlive)
    · rw [ending_tid]
      exact h.live_lt (Or.inl hlive)
  · rw [hacc]
    exact h.once
  · rw [hacc, happ, hwrites, List.append_assoc, List.singleton_append, ← hws]
    exact h.fifo
  · rw [hend, happ, List.filter_append]
    have hone : [t].filter (fun i => !(q.item i).rdonly) = [t] := by simp [hr]
    exact congr (congrArg _ h.ended) hone
  · intro x
    have hb := h.balance x
    rw [hacc, hend, hwrites, hreads]
    simp only [hws, List.count_append, List.count_cons, List.count_nil] at hb ⊢
    omega
  · intro x hx
    rw [hwrites] at hx
    exact h.writes x (by simp [hws, hx])
  · intro x hx
    rw [hreads] at hx
    exact h.reads x hx
  · have hw := h.writesOut
    rw [hwrites]
    simp [leave, hr, hw, hws]
  · have hw := h.readsOut
    simp [leave, hr, hw]
  · intro x
    obtain ⟨c1, c2, _, _⟩ := count_ending q t x
    have hb := h.bios x
    rw [hlog, List.count_append, List.count_append, List.count_append, List.count_append, c1, c2]
    simpa [List.count_singleton, leave] using hb
  · intro x
    obtain ⟨_, _, c3, c4⟩ := count_ending q t x
    have hb := h.posts x
    have hposted : (leave { q with log := q.log ++ [.apply t] } t).posted =
      if (q.item t).sync then q.posted ++ [t] else q.posted := rfl
    rw [hlog, List.count_append, List.count_append, List.count_append, List.count_append, c3,
      hposted, c4]
    simp only [List.count_singleton, beq_iff_eq, reduceCtorEq, if_false]
    omega
  · have hb := h.bios t
    have happly : Okay q.item q.log (.apply t) :=
      ⟨mem_accepted.mp (h.live_accepted (Or.inl hlive)),
        fun hm => h.queued_pending hlive (mem_applied.mpr hm), by omega⟩
    exact (h.ordered.snoc happly).snoc
      (h.ending_okay (h.live_running (Or.inl hlive)) hbios (Or.inr rfl) fun _ => by simp)

/-- A read ends. -/
theorem Ledger.leaveRead (h : Ledger q) (ht : t ∈ q.reads) (hbios : q.flight.count t = 0) :
    Ledger (q.leave t) := by
  have hr : (q.item t).rdonly = true := h.reads t ht
  have hlog : (q.leave t).log = q.log ++ [q.ending t] := rfl
  have hwrites : (q.leave t).writes = q.writes := by simp [leave, hr]
  have hreads : (q.leave t).reads = q.reads.erase t := by simp [leave, hr]
  obtain ⟨e1, e2, e3⟩ := filterMap_ending q t
  have hacc : (q.leave t).accepted = q.accepted := by
    rw [accepted, hlog, List.filterMap_append, e1, List.append_nil, accepted]
  have happ : (q.leave t).applied = q.applied := by
    rw [applied, hlog, List.filterMap_append, e2, List.append_nil, applied]
  have hend : (q.leave t).ended = q.ended ++ [t] := by
    rw [TxQueue.ended, hlog, List.filterMap_append, e3, TxQueue.ended]
  constructor
  · intro o ho
    rw [hlog] at ho
    obtain ho | ho := List.mem_append.mp ho
    · exact h.known o ho
    · obtain rfl := List.mem_singleton.mp ho
      rw [ending_tid]
      exact h.live_lt (Or.inr ht)
  · rw [hacc]
    exact h.once
  · rw [hacc, happ, hwrites]
    exact h.fifo
  · rw [hend, happ, List.filter_append]
    have hnone : [t].filter (fun i => !(q.item i).rdonly) = [] := by simp [hr]
    have hold := h.ended
    refine (congr (congrArg _ hold) hnone).trans (List.append_nil _)
  · intro x
    have hb := h.balance x
    have hc := (List.perm_cons_erase ht).count_eq x
    rw [hacc, hend, hwrites, hreads]
    simp only [List.count_append, List.count_cons, List.count_nil] at hb hc ⊢
    omega
  · intro x hx
    rw [hwrites] at hx
    exact h.writes x hx
  · intro x hx
    rw [hreads] at hx
    exact h.reads x (List.mem_of_mem_erase hx)
  · have hw := h.writesOut
    simp [leave, hr, hw]
  · have hw := h.readsOut
    have hlen := List.length_erase_of_mem ht
    rw [hreads, hlen]
    simp [leave, hr, hw]
  · intro x
    obtain ⟨c1, c2, _, _⟩ := count_ending q t x
    have hb := h.bios x
    rw [hlog, List.count_append, List.count_append, c1, c2]
    exact hb
  · intro x
    obtain ⟨_, _, c3, c4⟩ := count_ending q t x
    have hb := h.posts x
    have hposted : (q.leave t).posted =
      if (q.item t).sync then q.posted ++ [t] else q.posted := rfl
    rw [hlog, List.count_append, List.count_append, c3, hposted, c4]
    omega
  · exact h.ordered.snoc (h.ending_okay (h.live_running (Or.inr ht)) hbios (Or.inl rfl)
      fun hw => by rw [hr] at hw; cases hw)

theorem Ledger.deliver (h : Ledger q) {k : Nat} (hk : q.posted[k]? = some t) :
    Ledger { q with posted := q.posted.eraseIdx k, log := q.log ++ [.deliver t] } := by
  have ht : t < q.next := by
    have hpos := List.count_pos_iff.mpr (List.mem_of_getElem? hk)
    have hb := h.posts t
    exact h.known (.post t) (List.count_pos_iff.mp (by omega))
  have hacc : (q.log ++ [Obs.deliver t]).filterMap Obs.acceptedTid = q.accepted := by
    simp [accepted, Obs.acceptedTid]
  have happ : (q.log ++ [Obs.deliver t]).filterMap Obs.appliedTid = q.applied := by
    simp [applied, Obs.appliedTid]
  have hend : (q.log ++ [Obs.deliver t]).filterMap Obs.endedTid = q.ended := by
    simp [TxQueue.ended, Obs.endedTid]
  constructor
  · intro o ho
    obtain ho | ho := List.mem_append.mp ho
    · exact h.known o ho
    · obtain rfl := List.mem_singleton.mp ho
      exact ht
  · rw [accepted, hacc]
    exact h.once
  · rw [accepted, applied, hacc, happ]
    exact h.fifo
  · rw [TxQueue.ended, applied, hend, happ]
    exact h.ended
  · intro x
    rw [accepted, TxQueue.ended, hacc, hend]
    exact h.balance x
  · exact h.writes
  · exact h.reads
  · exact h.writesOut
  · exact h.readsOut
  · intro x
    simpa [List.count_append, List.count_singleton] using h.bios x
  · intro x
    have hb := h.posts x
    have hc := count_eraseIdx hk x
    simp only [List.count_append, List.count_singleton, beq_iff_eq, reduceCtorEq, if_false,
      Obs.deliver.injEq]
    omega
  · exact h.ordered.snoc trivial

theorem Ledger.reject (h : Ledger q) (it : Item) (rc : Int) : Ledger { q with
    next := q.next + 1
    item := Function.update q.item q.next it
    log := q.log ++ [.reject q.next rc] } := by
  have h1 : Ledger { q with item := Function.update q.item q.next it } := by
    apply h.setItem
    intro t ht
    rw [Function.update_of_ne (Nat.ne_of_lt ht)]
    exact ⟨rfl, rfl⟩
  have hacc : (q.log ++ [Obs.reject q.next rc]).filterMap Obs.acceptedTid = q.accepted := by
    simp [accepted, Obs.acceptedTid]
  have happ : (q.log ++ [Obs.reject q.next rc]).filterMap Obs.appliedTid = q.applied := by
    simp [applied, Obs.appliedTid]
  have hend : (q.log ++ [Obs.reject q.next rc]).filterMap Obs.endedTid = q.ended := by
    simp [TxQueue.ended, Obs.endedTid]
  constructor
  · intro o ho
    obtain ho | ho := List.mem_append.mp ho
    · exact Nat.lt_succ_of_lt (h.known o ho)
    · obtain rfl := List.mem_singleton.mp ho
      exact Nat.lt_succ_self _
  · rw [accepted, hacc]
    exact h.once
  · rw [accepted, applied, hacc, happ]
    exact h1.fifo
  · rw [TxQueue.ended, applied, hend, happ]
    exact h1.ended
  · intro x
    rw [accepted, TxQueue.ended, hacc, hend]
    exact h.balance x
  · exact h1.writes
  · exact h1.reads
  · exact h.writesOut
  · exact h.readsOut
  · intro x
    simpa [List.count_append, List.count_singleton] using h.bios x
  · intro x
    simpa [List.count_append, List.count_singleton] using h.posts x
  · exact h1.ordered.snoc trivial

end Ledger

section Live
variable {full : Prop} {q : TxQueue} {t : Nat}

theorem mem_enter (it : Item) (m : Nat) : t ∈ (q.enter it m).writes ∨ t ∈ (q.enter it m).reads ↔
    (t ∈ q.writes ∨ t ∈ q.reads) ∨ t = q.next := by
  cases hr : it.rdonly
  · simp only [enter, hr, List.mem_append, List.mem_singleton, Bool.false_eq_true, if_false]
    tauto
  · simp only [enter, hr, List.mem_append, List.mem_singleton, if_true]
    tauto

theorem Live.enter {m : Nat} (h : Live full q) (hl : Ledger q) {it : Item} (hm : InFlight full m it.bios)
    (hit : it.ready = true ↔ it.bios = 0)
    (hwait : it.rdonly = true → it.ready = false) {d : Bool} (hd : q.draining = true → d = true)
    (hempty : q.writes = [] → it.ready = true → d = true) :
    Live full { q.enter it m with draining := d } := by
  obtain ⟨_, fw, fr, ff⟩ := hl.next_fresh
  have hself : (q.enter it m).item q.next = it := Function.update_self ..
  have hold : ∀ t, t ∈ q.writes ∨ t ∈ q.reads → t ≠ q.next ∧ (q.enter it m).item t = q.item t := by
    intro t ht
    have hne := Nat.ne_of_lt (hl.live_lt ht)
    exact ⟨hne, Function.update_of_ne hne ..⟩
  constructor
  · intro f hf
    apply (mem_enter it m).mpr
    obtain hf | hf := List.mem_append.mp hf
    · exact Or.inl (h.flight f hf)
    · exact Or.inr (List.mem_replicate.mp hf).2
  · intro t ht
    have hcount : (q.enter it m).flight.count t =
        q.flight.count t + if q.next = t then m else 0 := by
      simp [TxQueue.enter, List.count_append, List.count_replicate]
    obtain ht | rfl := (mem_enter it m).mp ht
    · obtain ⟨hne, hitem⟩ := hold t ht
      rw [hcount, if_neg (Ne.symm hne), hitem]
      exact h.count t ht
    · rw [hcount, if_pos rfl, hself, List.count_eq_zero.mpr ff, Nat.zero_add]
      exact hm
  · intro t ht
    obtain ht | rfl := (mem_enter it m).mp ht
    · rw [(hold t ht).2]
      exact h.ready t ht
    · rw [hself]
      exact hit
  · intro t ht
    obtain hin | rfl := (mem_enter it m).mp (Or.inr ht)
    · rw [(hold t hin).2]
      refine h.waiting t ?_
      have hne := (hold t hin).1
      cases hr : it.rdonly <;> simpa [TxQueue.enter, hr, hne] using ht
    · rw [hself]
      apply hwait
      by_contra hr
      simp only [TxQueue.enter, hr] at ht
      exact fr ht
  · intro t ht hready
    cases hw : q.writes with
    | nil =>
      refine hempty hw ?_
      cases hr : it.rdonly
      · simp only [TxQueue.enter, hr, hw] at ht
        obtain rfl : q.next = t := by simpa using ht
        rwa [hself] at hready
      · simp [TxQueue.enter, hr, hw] at ht
    | cons i ws =>
      have hti : i = t := by
        cases hr : it.rdonly <;> simpa [TxQueue.enter, hr, hw] using ht
      subst hti
      rw [(hold i (Or.inl (by simp [hw]))).2] at hready
      exact hd (h.head i (by simp [hw]) hready)

/-- The bios in flight after a completion. -/
theorem count_complete {k : Nat} (hk : q.flight[k]? = some t) (it : Item) (x : Nat) :
    (q.complete k t it).flight.count x = q.flight.count x - if x = t then 1 else 0 := by
  have hc := count_eraseIdx hk x
  by_cases hx : x = t
  · subst hx
    simp only [if_true] at hc ⊢
    rw [hc]
    exact (Nat.add_sub_cancel ..).symm
  · rw [if_neg hx, hc, if_neg (Ne.symm hx)]
    rfl

/-- A completion that leaves the transaction in its list. -/
theorem Live.complete (h : Live full q) {k : Nat} (hk : q.flight[k]? = some t) (it : Item)
    (hbios : it.bios = (q.item t).bios - 1) (hit : it.ready = true ↔ it.bios = 0)
    (hwait : t ∈ q.reads → it.ready = false) {d : Bool} (hd : q.draining = true → d = true)
    (hhead : q.writes.head? = some t → it.ready = true → d = true) :
    Live full { q.complete k t it with draining := d } := by
  have hself : (q.complete k t it).item t = it := Function.update_self ..
  have hother : ∀ x, x ≠ t → (q.complete k t it).item x = q.item x :=
    fun x hx => Function.update_of_ne hx ..
  constructor
  · exact fun f hf => h.flight f (List.mem_of_mem_eraseIdx hf)
  · intro x hx
    have hc := count_complete hk it x
    have hold := h.count x hx
    by_cases hxt : x = t
    · subst hxt
      rw [if_pos rfl] at hc
      rw [hself, hbios, hc]
      exact hold.pred
    · rw [if_neg hxt, Nat.sub_zero] at hc
      rw [hother x hxt, hc]
      exact hold
  · intro x hx
    by_cases hxt : x = t
    · subst hxt
      rw [hself]
      exact hit
    · rw [hother x hxt]
      exact h.ready x hx
  · intro x hx
    by_cases hxt : x = t
    · subst hxt
      rw [hself]
      exact hwait hx
    · rw [hother x hxt]
      exact h.waiting x hx
  · intro x hx hready
    by_cases hxt : x = t
    · subst hxt
      rw [hself] at hready
      exact hhead hx hready
    · rw [hother x hxt] at hready
      exact hd (h.head x hx hready)

theorem Ledger.writes_nodup (h : Ledger q) : q.writes.Nodup :=
  (List.nodup_append.mp (h.fifo ▸ h.once.filter _)).2.1

/-- A read is in its list once, and not among the writes. -/
theorem Ledger.read_once (h : Ledger q) (ht : t ∈ q.reads) :
    t ∉ q.reads.erase t ∧ t ∉ q.writes := by
  have hb := h.balance t
  have hle := List.nodup_iff_count.mp h.once t
  have hpos := List.count_pos_iff.mpr ht
  have hc := List.count_erase_self (a := t) (l := q.reads)
  constructor
  · intro hm
    have h1 := List.count_pos_iff.mpr hm
    omega
  · intro hm
    have h1 := List.count_pos_iff.mpr hm
    omega

/-- What the departure of a transaction whose bios are done leaves. -/
theorem Live.leave (h : Live full q) {q' : TxQueue} (hitem : q'.item = q.item)
    (hflight : q'.flight = q.flight) (hbios : q.flight.count t = 0)
    (hmem : ∀ x, x ∈ q'.writes ∨ x ∈ q'.reads ↔ (x ∈ q.writes ∨ x ∈ q.reads) ∧ x ≠ t)
    (hreads : ∀ x ∈ q'.reads, x ∈ q.reads)
    (hhead : ∀ x, q'.writes.head? = some x → (q.item x).ready = true → q'.draining = true) :
    Live full q' where
  flight := by
    intro f hf
    rw [hflight] at hf
    apply (hmem f).mpr
    refine ⟨h.flight f hf, ?_⟩
    rintro rfl
    exact List.count_eq_zero.mp hbios hf
  count := by
    intro x hx
    rw [hflight, hitem]
    exact h.count x ((hmem x).mp hx).1
  ready := by
    intro x hx
    rw [hitem]
    exact h.ready x ((hmem x).mp hx).1
  waiting := by
    intro x hx
    rw [hitem]
    exact h.waiting x (hreads x hx)
  head := by
    intro x hx hready
    rw [hitem] at hready
    exact hhead x hx hready

end Live

/-- The invariant of the queue. -/
structure Inv (full : Prop) (q : TxQueue) : Prop where
  ledger : Ledger q
  live : Live full q

theorem Inv.commit {full : Prop} {q : TxQueue} {t : Nat} (h : Inv full q) (ht : q.writes.head? = some t)
    (hr : (q.item t).ready = true) : Inv full (leave { q with log := q.log ++ [.apply t] } t) := by
  obtain ⟨ws, hws⟩ := List.head?_eq_some_iff.mp ht
  have hlive : t ∈ q.writes := by simp [hws]
  have hwr := h.ledger.writes t hlive
  have hbios : q.flight.count t = 0 := by
    have hc := h.live.count t (Or.inl hlive)
    rw [(h.live.ready t (Or.inl hlive)).mp hr] at hc
    exact hc.zero
  have hwrites : (leave { q with log := q.log ++ [.apply t] } t).writes = ws := by
    simp [leave, hwr, hws]
  have hreads : (leave { q with log := q.log ++ [.apply t] } t).reads = q.reads := by
    simp [leave, hwr]
  have hnot : t ∉ ws ∧ t ∉ q.reads := by
    have hnd := h.ledger.writes_nodup
    rw [hws] at hnd
    exact ⟨(List.nodup_cons.mp hnd).1, fun hm => (h.ledger.read_once hm).2 hlive⟩
  refine ⟨h.ledger.commit ht hbios, h.live.leave rfl rfl hbios (fun x => ?_) (fun x hx => ?_)
    fun _ _ _ => h.live.head t ht hr⟩
  · rw [hwrites, hreads, hws, List.mem_cons]
    by_cases hx : x = t
    · subst hx
      simp [hnot]
    · simp [hx]
  · rwa [hreads] at hx

theorem Inv.lastRead {full : Prop} {q : TxQueue} {k t : Nat} (h : Inv full q) (hk : q.flight[k]? = some t)
    (hb : (q.item t).bios = 1) (hr : (q.item t).rdonly = true) :
    Inv full ((q.complete k t { q.item t with ready := true, bios := 0 }).leave t) := by
  have hlive : t ∈ q.reads := by
    obtain hw | hr' := h.live.flight t (List.mem_of_getElem? hk)
    · rw [h.ledger.writes t hw] at hr
      cases hr
    · exact hr'
  obtain ⟨hnot, hnw⟩ := h.ledger.read_once hlive
  have hself : (q.complete k t { q.item t with ready := true, bios := 0 }).item t =
      { q.item t with ready := true, bios := 0 } := Function.update_self ..
  have hcount := count_complete hk { q.item t with ready := true, bios := 0 } t
  have hone := h.live.count t (Or.inr hlive)
  rw [hb] at hone
  rw [if_pos rfl, Nat.sub_eq_zero_of_le hone.1] at hcount
  have hwrites : ((q.complete k t { q.item t with ready := true, bios := 0 }).leave t).writes =
      q.writes := by
    simp [leave, hr, complete]
  have hreads : ((q.complete k t { q.item t with ready := true, bios := 0 }).leave t).reads =
      q.reads.erase t := by
    simp [leave, hr, complete]
  have hl := h.ledger.complete hk { q.item t with ready := true, bios := 0 } rfl rfl
  have hother : ∀ x, x ≠ t → (q.complete k t { q.item t with ready := true, bios := 0 }).item x =
      q.item x := fun x hx => Function.update_of_ne hx ..
  have hmem : ∀ x, x ∈ q.writes ∨ x ∈ q.reads.erase t ↔ (x ∈ q.writes ∨ x ∈ q.reads) ∧ x ≠ t := by
    intro x
    by_cases hx : x = t
    · subst hx
      simp [hnot, hnw]
    · simp [hx, List.mem_erase_of_ne hx]
  refine ⟨hl.leaveRead hlive hcount, ?_⟩
  constructor
  · intro f hf
    rw [hwrites, hreads]
    refine (hmem f).mpr ⟨h.live.flight f (List.mem_of_mem_eraseIdx hf), ?_⟩
    rintro rfl
    exact List.count_eq_zero.mp hcount hf
  · intro x hx
    rw [hwrites, hreads] at hx
    obtain ⟨hx, hne⟩ := (hmem x).mp hx
    have hc := count_complete hk { q.item t with ready := true, bios := 0 } x
    rw [if_neg hne, Nat.sub_zero] at hc
    have hold := h.live.count x hx
    rw [← hc, ← hother x hne] at hold
    exact hold
  · intro x hx
    rw [hwrites, hreads] at hx
    obtain ⟨hx, hne⟩ := (hmem x).mp hx
    have hready := h.live.ready x hx
    rw [← hother x hne] at hready
    exact hready
  · intro x hx
    rw [hreads] at hx
    have hne := ((hmem x).mp (Or.inr hx)).2
    have hwait := h.live.waiting x (List.mem_of_mem_erase hx)
    rw [← hother x hne] at hwait
    exact hwait
  · intro x hx hready
    rw [hwrites] at hx
    have hin : x ∈ q.writes := List.mem_of_mem_head? hx
    have hne : x ≠ t := fun he => hnw (he ▸ hin)
    have hready' : ((q.complete k t { q.item t with ready := true, bios := 0 }).item x).ready = true :=
      hready
    rw [hother x hne] at hready'
    exact h.live.head x hx hready'

/-- Every transition keeps the invariant. -/
theorem Inv.step {full : Prop} {q q' : TxQueue} (h : Inv full q) (hs : Step full q q') : Inv full q' := by
  cases hs with
  | reject it rc =>
    refine ⟨h.ledger.reject it rc, ?_⟩
    have hold : ∀ t, t ∈ q.writes ∨ t ∈ q.reads →
        Function.update q.item q.next it t = q.item t :=
      fun t ht => Function.update_of_ne (Nat.ne_of_lt (h.ledger.live_lt ht)) ..
    constructor
    · exact h.live.flight
    · intro t ht
      simp only [hold t ht]
      exact h.live.count t ht
    · intro t ht
      simp only [hold t ht]
      exact h.live.ready t ht
    · intro t ht
      simp only [hold t (Or.inr ht)]
      exact h.live.waiting t ht
    · intro t ht hready
      simp only [hold t (Or.inl (List.mem_of_mem_head? ht))] at hready
      exact h.live.head t ht hready
  | data rdonly n m hn hm =>
    refine ⟨h.ledger.enter _ m, h.live.enter h.ledger hm ?_ (fun _ => rfl) (fun hd => hd) ?_⟩
    · simp only [Bool.false_eq_true, false_iff]
      exact Nat.ne_of_gt hn
    · intro _ hr
      cases hr
  | change =>
    refine ⟨?_, h.live.enter h.ledger ⟨Nat.le_refl 0, fun _ => rfl⟩ (by simp)
      (fun hr => by cases hr) (fun hd => ?_) fun he _ => ?_⟩
    · have hl := h.ledger.enter ⟨false, true, true, 0⟩ 0
      exact ⟨hl.known, hl.once, hl.fifo, hl.ended, hl.balance, hl.writes, hl.reads, hl.writesOut,
        hl.readsOut, hl.bios, hl.posts, hl.ordered⟩
    · simp [hd]
    · simp [he]
  | bio k t hk hb =>
    have hmem := h.live.flight t (List.mem_of_getElem? hk)
    have hpos := List.count_pos_iff.mpr (List.mem_of_getElem? hk)
    have hc := h.live.count t hmem
    have hready := h.live.ready t hmem
    have hno : (q.item t).ready = false := by
      rw [← Bool.not_eq_true]
      intro hr
      rw [hready.mp hr] at hc
      have hz := hc.zero
      omega
    refine ⟨h.ledger.complete hk _ rfl rfl, h.live.complete hk
      { q.item t with bios := (q.item t).bios - 1 } rfl ?_ (fun _ => hno) (fun hd => hd) ?_⟩
    · have hle := hc.1
      simp only [hno, Bool.false_eq_true, false_iff]
      omega
    · intro _ hr
      rw [hno] at hr
      cases hr
  | lastWrite k t hk hb hw =>
    have hl := h.ledger.complete hk { q.item t with ready := true, bios := 0 } rfl rfl
    refine ⟨⟨hl.known, hl.once, hl.fifo, hl.ended, hl.balance, hl.writes, hl.reads, hl.writesOut,
      hl.readsOut, hl.bios, hl.posts, hl.ordered⟩, h.live.complete hk _ (by simp [hb]) (by simp) ?_
      (fun hd => by simp [hd]) fun hh _ => by simp [hh]⟩
    intro hr
    rw [h.ledger.reads t hr] at hw
    cases hw
  | lastRead k t hk hb hr => exact h.lastRead hk hb hr
  | deliver k t hk =>
    exact ⟨h.ledger.deliver hk, h.live.flight, h.live.count, h.live.ready, h.live.waiting,
      h.live.head⟩
  | pause d hd =>
    have hl := h.ledger
    refine ⟨⟨hl.known, hl.once, hl.fifo, hl.ended, hl.balance, hl.writes, hl.reads, hl.writesOut,
      hl.readsOut, hl.bios, hl.posts, hl.ordered⟩, h.live.flight, h.live.count, h.live.ready,
      h.live.waiting, fun t ht hr => ?_⟩
    obtain rfl | hd := hd
    · exact h.live.head t ht hr
    · have hno := hd t ht
      rw [hno] at hr
      cases hr
  | commit t ht hr => exact h.commit ht hr

end TxQueue
end ZCell.Store
