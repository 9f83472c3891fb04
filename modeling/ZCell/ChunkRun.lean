import Mathlib.Data.List.Nodup
import Mathlib.Logic.Function.Basic
import ZCell.Chunkstore
import ZCell.Runs

/-! Whole runs of a chunkstore. The device moves the blocks of its I/Os in any order and may fail any of
them; the handlers that do not reach it send an event. -/
namespace ZCell.Chunkstore
open Server Runs

variable {β : Type}

/-- `op_stat_result_t`. -/
structure OpStatResult where
  type : BitVec 32
  capcityGib : BitVec 32
  objBlkSzKib : BitVec 32
  maxOid : BitVec 32
  maxObjSizeKib : BitVec 32
  deriving DecidableEq, Repr

/-- What `_do_stat` puts in the data buffer. -/
def doStat (s : Stat) : OpStatResult := ⟨1, s.dataGb.setWidth 32, 0x1000, s.maxOid.setWidth 32, 0x1000⟩

/-- A message in the hands of the store, with the blocks of its data buffer. -/
structure ChunkMsg (β : Type) where
  id : Nat
  request : Request
  data : Nat → β
  stat : Option OpStatResult

/-- An I/O in the device, and which of its blocks have been moved. -/
structure Flight (β : Type) where
  msg : ChunkMsg β
  io : BlockIo
  moved : List Nat

/-- The store of a thread with its device. -/
structure Chunks (β : Type) where
  stat : Stat
  disk : Nat → β
  flights : List (Flight β)
  /-- Sent by `fake_async_cb`. -/
  events : List (ChunkMsg β)
  /-- The messages that are back, by the code that the call returned or by the callback. -/
  answered : List (ChunkMsg β × Int)
  calls : Nat
  fault : Option Fault

def chunkstoreMount (blockSize : BitVec 32) (numBlocks : BitVec 64) (disk : Nat → β) :
    Except Fault (Chunks β) :=
  (hardcodeStat blockSize numBlocks).map fun s => ⟨s, disk, [], [], [], 0, none⟩

/-- `chunkstore_obj_async_op_call`; `rc` is what the device returns when it is handed an I/O. -/
def Chunks.call (c : Chunks β) (r : Request) (data : Nat → β) (rc : Int) : Chunks β :=
  let m : ChunkMsg β := ⟨c.calls, r, data, if r.op = msgOssOpStat then some (doStat c.stat) else none⟩
  let c := { c with calls := c.calls + 1 }
  match chunkstoreObjAsyncOpCall (fun _ => rc) r with
  | .error f => { c with fault := some f }
  | .ok (_, some io) => { c with flights := c.flights ++ [⟨m, io, []⟩] }
  | .ok (code, none) =>
    if code = Status.success.code then { c with events := c.events ++ [m] }
    else { c with answered := c.answered ++ [(m, code)] }

def Chunks.find (c : Chunks β) (id : Nat) : Option (Flight β) :=
  c.flights.find? fun f => f.msg.id = id

def Flight.move (f : Flight β) (disk : Nat → β) (i : Nat) : Flight β :=
  { f with
    msg := if f.io.isRead then
        { f.msg with data := Function.update f.msg.data i (disk (f.io.bdevOfst.toNat + i)) }
      else f.msg
    moved := i :: f.moved }

/-- Block `i` of an I/O gets to the buffer or to the disk. -/
def Chunks.move (c : Chunks β) (f : Flight β) (i : Nat) : Chunks β :=
  { c with
    disk := if f.io.isRead then c.disk
      else Function.update c.disk (f.io.bdevOfst.toNat + i) (f.msg.data i)
    flights := c.flights.map fun g => if g.msg.id = f.msg.id then g.move c.disk i else g }

/-- `rw_cb`: the code that the callback is given. -/
def rwCb (success : Bool) : Int :=
  if success then Status.success.code else Status.ostoreIoError.code

def Chunks.done (c : Chunks β) (f : Flight β) (success : Bool) : Chunks β :=
  { c with
    flights := c.flights.filter fun g => decide (g.msg.id ≠ f.msg.id)
    answered := c.answered ++ [(f.msg, rwCb success)] }

/-- `fake_async_cb_wrapper`. -/
def Chunks.event (c : Chunks β) (m : ChunkMsg β) : Chunks β :=
  { c with
    events := c.events.tail
    answered := c.answered ++ [(m, Status.success.code)] }

inductive ChunkAct (β : Type) where
  | call (r : Request) (data : Nat → β) (rc : Int)
  | move (id i : Nat)
  | done (id : Nat) (success : Bool)
  | event

def chunkStep (a : ChunkAct β) (c : Chunks β) : Option (Chunks β) :=
  match a with
  | .call r data rc => some (c.call r data rc)
  | .move id i => (c.find id).map fun f => c.move f i
  | .done id success => (c.find id).map fun f => c.done f success
  | .event => c.events.head?.map c.event

/-- An operation that reaches the device. -/
def Request.IsRw (r : Request) : Prop := r.op = msgOssOpRead ∨ r.op = msgOssOpWrite

instance (r : Request) : Decidable r.IsRw := inferInstanceAs (Decidable (_ ∨ _))

/-- The operations of `obj_op_table`. -/
def Request.InTable (r : Request) : Prop :=
  r.op = msgOssOpStat ∨ r.op = msgOssOpCreate ∨ r.op = msgOssOpDelete ∨ r.IsRw

instance (r : Request) : Decidable r.InTable := inferInstanceAs (Decidable (_ ∨ _))

/-- The I/Os that the device takes lie in one object, and it reports success only for an I/O all of
whose blocks it has moved. -/
def ChunkFits (c : Chunks β) : ChunkAct β → Prop
  | .call r _ rc => r.InTable ∧ (r.IsRw → rc = 0 → Inside c.stat r)
  | .move id i => ∀ f ∈ c.find id, i < f.io.bdevLen.toNat
  | .done id success => success = true → ∀ f ∈ c.find id, ∀ i < f.io.bdevLen.toNat, i ∈ f.moved
  | .event => True

instance (c : Chunks β) (a : ChunkAct β) : Decidable (ChunkFits c a) := by
  cases a with
  | call r _ rc => exact inferInstanceAs (Decidable (_ ∧ _))
  | move id i => exact inferInstanceAs (Decidable (∀ f ∈ c.find id, i < f.io.bdevLen.toNat))
  | done id success =>
    exact inferInstanceAs (Decidable (success = true → ∀ f ∈ c.find id, ∀ i < f.io.bdevLen.toNat, i ∈ f.moved))
  | event => exact inferInstanceAs (Decidable True)

/-- The I/O of a read or write. -/
def Request.io (r : Request) : BlockIo :=
  ⟨decide (r.op = msgOssOpRead), BitVec.ofNat 64 (firstBlock r), BitVec.ofNat 64 (blockCount r)⟩

section Call
variable (c : Chunks β) {r : Request} (data : Nat → β) (rc : Int)

theorem asyncOpCall_eq (ht : r.InTable) : chunkstoreObjAsyncOpCall (fun _ => rc) r =
    .ok (if r.IsRw ∧ rc ≠ 0 then Status.ostoreIoError.code else Status.success.code,
      if r.IsRw ∧ rc = 0 then some r.io else none) := by
  by_cases hrw : r.IsRw
  · rw [@call_rw (fun _ => rc) r hrw]
    by_cases hrc : rc = 0
    · rw [if_pos (show Taken (fun _ => rc) r from hrc), if_neg (fun h => h.2 hrc), if_pos ⟨hrw, hrc⟩]
      rfl
    · rw [if_neg (show ¬ Taken (fun _ => rc) r from hrc), if_pos ⟨hrw, hrc⟩, if_neg (fun h => hrc h.2)]
  · rw [if_neg (fun h => hrw h.1), if_neg (fun h => hrw h.1)]
    obtain h | h | h | h := ht
    · simp only [chunkstoreObjAsyncOpCall, h]
      rfl
    · simp only [chunkstoreObjAsyncOpCall, h]
      rfl
    · simp only [chunkstoreObjAsyncOpCall, h]
      rfl
    · exact absurd h hrw

theorem call_cases (ht : r.InTable) :
    (r.IsRw ∧ rc = 0 ∧ c.call r data rc = { c with
      calls := c.calls + 1, flights := c.flights ++ [⟨⟨c.calls, r, data, none⟩, r.io, []⟩] }) ∨
    (r.IsRw ∧ rc ≠ 0 ∧ c.call r data rc = { c with
      calls := c.calls + 1
      answered := c.answered ++ [(⟨c.calls, r, data, none⟩, Status.ostoreIoError.code)] }) ∨
    (¬ r.IsRw ∧ ∃ stat, c.call r data rc = { c with
      calls := c.calls + 1, events := c.events ++ [⟨c.calls, r, data, stat⟩] }) := by
  have hcall := asyncOpCall_eq rc ht
  by_cases hrw : r.IsRw
  · have hstat : r.op ≠ msgOssOpStat := by
      obtain h | h := hrw
      · rw [h]
        decide
      · rw [h]
        decide
    by_cases hrc : rc = 0
    · rw [if_neg (fun h => h.2 hrc), if_pos ⟨hrw, hrc⟩] at hcall
      refine Or.inl ⟨hrw, hrc, ?_⟩
      simp only [Chunks.call, hcall, if_neg hstat]
    · rw [if_pos ⟨hrw, hrc⟩, if_neg (fun h => hrc h.2)] at hcall
      refine Or.inr (Or.inl ⟨hrw, hrc, ?_⟩)
      simp only [Chunks.call, hcall, if_neg hstat]
      rfl
  · refine Or.inr (Or.inr ⟨hrw, if r.op = msgOssOpStat then some (doStat c.stat) else none, ?_⟩)
    rw [if_neg (fun h => hrw h.1), if_neg (fun h => hrw h.1)] at hcall
    simp only [Chunks.call, hcall, if_true]

end Call

section Find
variable {c : Chunks β} {f : Flight β} {id : Nat}

theorem find_some (h : c.find id = some f) : f ∈ c.flights ∧ f.msg.id = id := by
  unfold Chunks.find at h
  have hid := List.find?_some h
  exact ⟨List.mem_of_find?_eq_some h, of_decide_eq_true hid⟩

@[simp] theorem move_id (f : Flight β) (disk : Nat → β) (i : Nat) : (f.move disk i).msg.id = f.msg.id := by
  unfold Flight.move
  split
  · rfl
  · rfl

@[simp] theorem move_request (f : Flight β) (disk : Nat → β) (i : Nat) :
    (f.move disk i).msg.request = f.msg.request := by
  unfold Flight.move
  split
  · rfl
  · rfl

end Find

theorem perm_filter_ne {α : Type} (f : α → Nat) {l : List α} {a : α} (hn : (l.map f).Nodup)
    (ha : a ∈ l) : l.Perm (a :: l.filter fun b => decide (f b ≠ f a)) := by
  induction l with
  | nil => cases ha
  | cons b l ih =>
    obtain ⟨hb, hn⟩ := List.nodup_cons.mp hn
    obtain rfl | ha := List.mem_cons.mp ha
    · have hall : l.filter (fun b => decide (f b ≠ f a)) = l := by
        rw [List.filter_eq_self]
        intro c hc
        have hne : f c ≠ f a := fun h => hb (h ▸ List.mem_map_of_mem hc)
        exact decide_eq_true hne
      rw [List.filter_cons_of_neg (by simp), hall]
    · have hne : f b ≠ f a := fun h => hb (h ▸ List.mem_map_of_mem ha)
      have hfilter : (b :: l).filter (fun b => decide (f b ≠ f a)) =
          b :: l.filter fun b => decide (f b ≠ f a) := List.filter_cons_of_pos (decide_eq_true hne)
      rw [hfilter]
      exact ((ih hn ha).cons b).trans (List.Perm.swap ..)

/-- Each call is in the device, waits as an event or is back, and is in one of these places once. -/
structure Counted (c : Chunks β) : Prop where
  fault : c.fault = none
  ids : (c.flights.map (·.msg.id) ++ c.events.map (·.id) ++ c.answered.map (·.1.id)).Perm
    (List.range c.calls)

section Counts
variable {c c' : Chunks β} {a : ChunkAct β} {f g : Flight β}

theorem Counted.nodup (hc : Counted c) :
    (c.flights.map (·.msg.id) ++ c.events.map (·.id) ++ c.answered.map (·.1.id)).Nodup :=
  hc.ids.nodup_iff.mpr List.nodup_range

theorem Counted.flights_nodup (hc : Counted c) : (c.flights.map (·.msg.id)).Nodup :=
  (List.nodup_append.mp (List.nodup_append.mp hc.nodup).1).1

theorem Counted.lt (hc : Counted c) (hf : f ∈ c.flights) : f.msg.id < c.calls := by
  apply List.mem_range.mp
  apply hc.ids.mem_iff.mp
  exact List.mem_append_left _ (List.mem_append_left _ (List.mem_map_of_mem hf))

theorem Counted.answered_lt (hc : Counted c) {x : ChunkMsg β × Int} (hx : x ∈ c.answered) :
    x.1.id < c.calls := by
  apply List.mem_range.mp
  apply hc.ids.mem_iff.mp
  exact List.mem_append_right _ (List.mem_map_of_mem hx)

theorem Counted.answered_gone (hc : Counted c) {x : ChunkMsg β × Int} (hx : x ∈ c.answered) :
    x.1.id ∉ c.flights.map (·.msg.id) := fun hf =>
  (List.nodup_append.mp hc.nodup).2.2 _ (List.mem_append_left _ hf) _ (List.mem_map_of_mem hx) rfl

theorem Counted.eq_of_id (hc : Counted c) (hf : f ∈ c.flights) (hg : g ∈ c.flights)
    (h : g.msg.id = f.msg.id) : g = f :=
  List.inj_on_of_nodup_map hc.flights_nodup hg hf h

theorem done_ids (hc : Counted c) (hf : f ∈ c.flights) :
    (c.flights.map (·.msg.id)).Perm (f.msg.id :: (c.flights.filter fun g =>
      decide (g.msg.id ≠ f.msg.id)).map (·.msg.id)) :=
  (perm_filter_ne (fun g : Flight β => g.msg.id) hc.flights_nodup hf).map fun g => g.msg.id

theorem step_counted (hc : Counted c) (hok : ChunkFits c a) (hs : chunkStep a c = some c') :
    Counted c' := by
  cases a with
  | call r data rc =>
    obtain rfl := Option.some.inj hs
    obtain ⟨_, _, h⟩ | ⟨_, _, h⟩ | ⟨_, _, h⟩ := call_cases c data rc hok.1
    all_goals
      rw [h]
      refine ⟨hc.fault, ?_⟩
      rw [List.range_succ, List.perm_iff_count]
      intro x
      have := hc.ids.count_eq x
      simp only [List.map_append, List.map_cons, List.map_nil, List.count_append] at this ⊢
      omega
  | move id i =>
    simp only [chunkStep, Option.map_eq_some_iff] at hs
    obtain ⟨f, hf, rfl⟩ := hs
    refine ⟨hc.fault, ?_⟩
    have hids : (c.flights.map fun g => if g.msg.id = f.msg.id then g.move c.disk i else g).map
        (·.msg.id) = c.flights.map (·.msg.id) := by
      rw [List.map_map]
      apply List.map_congr_left
      intro g _
      simp only [Function.comp_apply]
      split
      · exact move_id ..
      · rfl
    simp only [Chunks.move, hids]
    exact hc.ids
  | done id success =>
    simp only [chunkStep, Option.map_eq_some_iff] at hs
    obtain ⟨f, hf, rfl⟩ := hs
    refine ⟨hc.fault, ?_⟩
    rw [List.perm_iff_count]
    intro x
    have h1 := hc.ids.count_eq x
    have h2 := (done_ids hc (find_some hf).1).count_eq x
    simp only [Chunks.done, List.map_append, List.map_cons, List.map_nil, List.count_append,
      List.count_cons, List.count_nil] at h1 h2 ⊢
    omega
  | event =>
    simp only [chunkStep, Option.map_eq_some_iff] at hs
    obtain ⟨m, hm, rfl⟩ := hs
    refine ⟨hc.fault, ?_⟩
    obtain ⟨events, he⟩ := List.head?_eq_some_iff.mp hm
    rw [List.perm_iff_count]
    intro x
    have h1 := hc.ids.count_eq x
    simp only [he] at h1
    simp only [Chunks.event, he, List.tail_cons, List.map_append, List.map_cons, List.map_nil,
      List.count_append, List.count_cons, List.count_nil] at h1 ⊢
    omega

theorem mount_counted {blockSize : BitVec 32} {numBlocks : BitVec 64} {disk : Nat → β}
    (hm : chunkstoreMount blockSize numBlocks disk = .ok c) : Counted c := by
  unfold chunkstoreMount at hm
  cases hs : hardcodeStat blockSize numBlocks with
  | error f =>
    rw [hs] at hm
    cases hm
  | ok s =>
    rw [hs] at hm
    obtain rfl := Except.ok.inj hm
    exact ⟨rfl, List.Perm.refl _⟩

end Counts

/-- Whatever is called, and in whichever order the device serves it: each call is in the device, waits
as an event or is back, once, and none runs into a fault. -/
theorem calls_answered_once (blockSize : BitVec 32) (numBlocks : BitVec 64) (disk : Nat → β)
    (c0 c : Chunks β) (hm : chunkstoreMount blockSize numBlocks disk = .ok c0)
    (h : Run chunkStep ChunkFits c0 c) : c.fault = none ∧
      (c.flights.map (·.msg.id) ++ c.events.map (·.id) ++ c.answered.map (·.1.id)).Perm
        (List.range c.calls) := by
  have hc : Counted c := h.invariant (mount_counted hm) fun _ _ _ hi hok hs => step_counted hi hok hs
  exact ⟨hc.fault, hc.ids⟩

/-- The device of 1 GiB whose blocks hold their own numbers. -/
def numbered : Chunks Nat := ⟨gibStat, fun b => b, [], [], [], 0, none⟩

/-- A write that fails, a stat, and a read that the device does not take. -/
theorem threeCalls_answered : ∃ c : Chunks Nat, c.fault = none ∧
    c.answered.map (fun x => (x.1.id, x.2)) = [(2, 26), (0, 26), (1, 0)] ∧
    (c.flights.map (·.msg.id) ++ c.events.map (·.id) ++ c.answered.map (·.1.id)).Perm
      (List.range c.calls) := by
  have hsteps : (runActs chunkStep ChunkFits
      [.call ⟨msgOssOpWrite, 1, 0, 4096⟩ (fun _ => 7) 0, .call ⟨msgOssOpStat, 0, 0, 0⟩ (fun _ => 0) 0,
        .move 0 0, .call ⟨msgOssOpRead, 1, 0, 4096⟩ (fun _ => 0) (-12), .done 0 false, .event]
      numbered).map (fun c => c.answered.map (fun x => (x.1.id, x.2))) =
        some [(2, 26), (0, 26), (1, 0)] := by
    decide +kernel
  obtain ⟨c, hc, hans⟩ := Option.map_eq_some_iff.mp hsteps
  obtain ⟨hf, hperm⟩ := calls_answered_once 4096 262144 (fun b => b) numbered c rfl
    (run_of_runActs .start hc)
  exact ⟨c, hf, hans, hperm⟩

end ZCell.Chunkstore
