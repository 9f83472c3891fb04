import ZCell.Response
import ZCell.Runs

/-! The server with its sessions over time. A request is copied with the pointer to its session
while the store works on it, and sessions come and go meanwhile. -/
namespace ZCell.Server
open Messager Runs

variable {β : Type}

/-- A response given to a messager: whether its session was in `session_q` then, and whether
it had been destroyed before. -/
structure Push where
  kind : Kind
  session : Nat
  live : Bool
  destroyed : Bool
  deriving DecidableEq, Repr

/-- A session is numbered when it is made. The IPC sessions stay for as long as the server runs. -/
structure World (β : Type) where
  netSessions : List Nat
  ipcSessions : List Nat
  destroyed : List Nat
  nextSession : Nat
  /-- The requests that the store works on. -/
  pending : List (Message β)
  pushes : List Push

def World.sessionQ (w : World β) : Kind → List Nat
  | .ipc => w.ipcSessions
  | .net => w.netSessions

/-- The messagers are called for the responses among the events. -/
def World.push (w : World β) (events : List (Event β)) : World β :=
  { w with pushes := w.pushes ++ (responses events).map fun x =>
      ⟨x.1, x.2.privCtx, x.2.privCtx ∈ w.sessionQ x.1, x.2.privCtx ∈ w.destroyed⟩ }

/-- A connection is accepted; a request arrives on a session in `session_q`; the store calls back
for the `i`-th of its requests; a session is destroyed, from the read side or while flushing. -/
inductive Act (β : Type) where
  | accept
  | recv (k : Kind) (m : Message β) (rc : Int)
  | complete (i : Nat) (statusCode : Int)
  | close (s : Nat)

def step (h : Heap β) (a : Act β) (w : World β) : Option (World β) :=
  match a with
  | .accept => some { w with
      netSessions := w.netSessions ++ [w.nextSession]
      nextSession := w.nextSession + 1 }
  | .recv k m rc =>
    if m.privCtx ∈ w.sessionQ k then
      let (events, pending) := onRecvMessage h rc m
      some { w.push events with pending := w.pending ++ pending.toList }
    else none
  | .complete i statusCode =>
    match w.pending[i]? with
    | none => none
    | some request =>
      some { w.push (ossOpCb request statusCode) with pending := w.pending.eraseIdx i }
  | .close s =>
    if s ∈ w.netSessions then some { w with
      netSessions := w.netSessions.erase s
      destroyed := s :: w.destroyed }
    else none

/-- The server after its boot, with `n` IPC sessions. -/
def World.start (n : Nat) : World β := ⟨[], List.range n, [], n, [], []⟩

def Kind.other : Kind → Kind
  | .ipc => .net
  | .net => .ipc

/-- No request names the messager it did not come through, and no session is destroyed while the
store has a request to be answered on it. -/
def Outlives (w : World β) : Act β → Prop
  | .recv k m _ => m.header.magic ≠ k.other.magic
  | .close s => ∀ r ∈ w.pending, r.header.magic = Kind.net.magic → r.privCtx ≠ s
  | _ => True

instance (w : World β) (a : Act β) : Decidable (Outlives w a) :=
  match a with
  | .recv _ _ _ => inferInstanceAs (Decidable (_ ≠ _))
  | .close s => inferInstanceAs (Decidable
      (∀ r ∈ w.pending, r.header.magic = Kind.net.magic → r.privCtx ≠ s))
  | .accept => inferInstanceAs (Decidable True)
  | .complete _ _ => inferInstanceAs (Decidable True)

section Answering
variable {m : Message β} {events : List (Event β)}

/-- Each response goes where the magic and the session of the request say. -/
theorem Answers.of_mem (ha : Answers m events) {x : Kind × Message β} (hx : x ∈ responses events) :
    m.header.magic = x.1.magic ∧ x.2.privCtx = m.privCtx := by
  obtain ⟨r, hr, hmagic, hctx⟩ := ha
  rw [hr, sendResponse] at hx
  split at hx
  · rename_i hipc
    obtain rfl := List.mem_singleton.mp hx
    exact ⟨hmagic.symm.trans hipc, hctx⟩
  · split at hx
    · rename_i hnet
      obtain rfl := List.mem_singleton.mp hx
      exact ⟨hmagic.symm.trans hnet, hctx⟩
    · cases hx

theorem ossOpCb_answers (m : Message β) (statusCode : Int) : Answers m (ossOpCb m statusCode) := by
  unfold ossOpCb
  split
  · exact responseBrokenOp_answers statusCode m
  · exact responseWithReusingRequest_answers statusCode m

/-- A request is answered at once, or goes to the store and keeps its magic and its session. -/
theorem onRecvMessage_cases (h : Heap β) (rc : Int) (m : Message β) :
    (∃ events, onRecvMessage h rc m = (events, none) ∧ Answers m events) ∨
    (∃ r, onRecvMessage h rc m = ([], some r) ∧ r.header.magic = m.header.magic ∧
      r.privCtx = m.privCtx) := by
  unfold onRecvMessage opExecute
  by_cases hping : m.header.type = msgPing
  · exact .inl ⟨_, by simp only [if_pos hping]; rfl, responseWithReusingRequest_answers _ m⟩
  · simp only [if_neg hping]
    by_cases hoss : msgTypeOss m.header.type
    · simp only [if_pos hoss, doOpOss]
      by_cases hvalid : ossOpValid h m
      · have hans : answered h m = ossOpRefillRequestWithReponse h m := if_pos hvalid
        simp only [if_pos hvalid, ← hans]
        by_cases hrc : rc = Status.success.code
        · exact .inr ⟨answered h m, by rw [if_pos hrc], answered_magic h m, answered_privCtx h m⟩
        · exact .inl ⟨_, by rw [if_neg hrc], (responseBrokenOp_answers rc _).of_answered⟩
      · exact .inl ⟨_, by rw [if_neg hvalid], responseBrokenOp_answers _ m⟩
    · exact .inl ⟨_, by rw [if_neg hoss]; rfl, responseBrokenOp_answers _ m⟩

end Answering

/-- The sessions of the two kinds and the destroyed ones are different numbers, each waiting
request is to be answered on a session that lives, and so was every one before. -/
structure Sound (w : World β) : Prop where
  nodup : w.netSessions.Nodup
  fresh : ∀ s, s ∈ w.netSessions ∨ s ∈ w.ipcSessions ∨ s ∈ w.destroyed → s < w.nextSession
  apart : ∀ s ∈ w.destroyed, ∀ k, s ∉ w.sessionQ k
  kinds : ∀ s ∈ w.netSessions, s ∉ w.ipcSessions
  waiting : ∀ r ∈ w.pending, ∀ k : Kind, r.header.magic = k.magic → r.privCtx ∈ w.sessionQ k
  pushed : ∀ p ∈ w.pushes, p.live = true ∧ p.destroyed = false

namespace Sound
variable {w : World β}

/-- Answering a request that can be answered. -/
theorem push (hw : Sound w) {m : Message β} {events : List (Event β)}
    (hm : ∀ k : Kind, m.header.magic = k.magic → m.privCtx ∈ w.sessionQ k)
    (ha : Answers m events) : Sound (w.push events) := by
  refine ⟨hw.nodup, hw.fresh, hw.apart, hw.kinds, hw.waiting, ?_⟩
  intro p hp
  rcases List.mem_append.mp hp with hp | hp
  · exact hw.pushed p hp
  · obtain ⟨x, hx, rfl⟩ := List.mem_map.mp hp
    obtain ⟨hmagic, hctx⟩ := ha.of_mem hx
    have hlive : x.2.privCtx ∈ w.sessionQ x.1 := by
      rw [hctx]
      exact hm x.1 hmagic
    have hkept : x.2.privCtx ∉ w.destroyed := fun hd => hw.apart _ hd x.1 hlive
    exact ⟨decide_eq_true hlive, decide_eq_false hkept⟩

/-- The store takes a request. -/
theorem submit (hw : Sound w) {r : Message β}
    (hr : ∀ k : Kind, r.header.magic = k.magic → r.privCtx ∈ w.sessionQ k) :
    Sound { w with pending := w.pending ++ [r] } := by
  refine ⟨hw.nodup, hw.fresh, hw.apart, hw.kinds, ?_, hw.pushed⟩
  intro x hx
  rcases List.mem_append.mp hx with hx | hx
  · exact hw.waiting x hx
  · obtain rfl := List.mem_singleton.mp hx
    exact hr

theorem accept (hw : Sound w) : Sound { w with
    netSessions := w.netSessions ++ [w.nextSession]
    nextSession := w.nextSession + 1 } := by
  have hnew : ∀ s, s ∈ w.netSessions ∨ s ∈ w.ipcSessions ∨ s ∈ w.destroyed → s ≠ w.nextSession :=
    fun s hs => Nat.ne_of_lt (hw.fresh s hs)
  refine ⟨?_, ?_, ?_, ?_, ?_, hw.pushed⟩
  · refine List.nodup_append.mpr ⟨hw.nodup, List.pairwise_singleton _ _, ?_⟩
    intro s hs t ht
    obtain rfl := List.mem_singleton.mp ht
    exact hnew s (.inl hs)
  · rintro s (hs | hs)
    · rcases List.mem_append.mp hs with hs | hs
      · exact Nat.lt_succ_of_lt (hw.fresh s (.inl hs))
      · obtain rfl := List.mem_singleton.mp hs
        exact Nat.lt_succ_self _
    · exact Nat.lt_succ_of_lt (hw.fresh s (.inr hs))
  · intro s hs k
    cases k with
    | ipc => exact hw.apart s hs .ipc
    | net =>
      intro hmem
      rcases List.mem_append.mp hmem with hmem | hmem
      · exact hw.apart s hs .net hmem
      · exact hnew s (.inr (.inr hs)) (List.mem_singleton.mp hmem)
  · intro s hs hipc
    rcases List.mem_append.mp hs with hs | hs
    · exact hw.kinds s hs hipc
    · exact hnew s (.inr (.inl hipc)) (List.mem_singleton.mp hs)
  · intro r hr k hk
    cases k with
    | ipc => exact hw.waiting r hr .ipc hk
    | net => exact List.mem_append_left _ (hw.waiting r hr .net hk)

/-- A session is destroyed that no waiting request has to be answered on. -/
theorem close (hw : Sound w) {s : Nat} (hs : s ∈ w.netSessions)
    (hok : ∀ r ∈ w.pending, r.header.magic = Kind.net.magic → r.privCtx ≠ s) :
    Sound { w with netSessions := w.netSessions.erase s, destroyed := s :: w.destroyed } := by
  refine ⟨hw.nodup.erase s, ?_, ?_, ?_, ?_, hw.pushed⟩
  · rintro t (ht | ht | ht)
    · exact hw.fresh t (.inl (List.mem_of_mem_erase ht))
    · exact hw.fresh t (.inr (.inl ht))
    · rcases List.mem_cons.mp ht with rfl | ht
      · exact hw.fresh _ (.inl hs)
      · exact hw.fresh t (.inr (.inr ht))
  · intro t ht k
    rcases List.mem_cons.mp ht with rfl | ht
    · cases k with
      | ipc => exact hw.kinds _ hs
      | net => exact hw.nodup.not_mem_erase
    · cases k with
      | ipc => exact hw.apart t ht .ipc
      | net => exact fun hmem => hw.apart t ht .net (List.mem_of_mem_erase hmem)
  · exact fun t ht => hw.kinds t (List.mem_of_mem_erase ht)
  · intro r hr k hk
    cases k with
    | ipc => exact hw.waiting r hr .ipc hk
    | net => exact (List.mem_erase_of_ne (hok r hr hk)).mpr (hw.waiting r hr .net hk)

theorem recv (hw : Sound w) (h : Heap β) {k : Kind} {m : Message β} (rc : Int)
    (hk : m.privCtx ∈ w.sessionQ k) (hok : m.header.magic ≠ k.other.magic) :
    Sound { w.push (onRecvMessage h rc m).1 with
      pending := w.pending ++ (onRecvMessage h rc m).2.toList } := by
  have hm : ∀ k' : Kind, m.header.magic = k'.magic → m.privCtx ∈ w.sessionQ k' := by
    intro k' hk'
    cases k <;> cases k'
    · exact hk
    · exact absurd hk' hok
    · exact absurd hk' hok
    · exact hk
  obtain ⟨events, he, ha⟩ | ⟨r, he, hmagic, hctx⟩ := onRecvMessage_cases h rc m
  · rw [he, Option.toList_none, List.append_nil]
    exact hw.push hm ha
  · rw [he, Option.toList_some]
    have hpush : w.push ([] : List (Event β)) = w := by
      simp [World.push, responses]
    rw [hpush]
    exact hw.submit fun k' hk' => by
      rw [hctx]
      exact hm k' (hmagic ▸ hk')

theorem complete (hw : Sound w) {i : Nat} {r : Message β} (hi : w.pending[i]? = some r)
    (statusCode : Int) :
    Sound { w.push (ossOpCb r statusCode) with pending := w.pending.eraseIdx i } := by
  have hp := hw.push (hw.waiting r (List.mem_of_getElem? hi)) (ossOpCb_answers r statusCode)
  exact ⟨hp.nodup, hp.fresh, hp.apart, hp.kinds,
    fun x hx => hp.waiting x (List.mem_of_mem_eraseIdx hx), hp.pushed⟩

theorem step {h : Heap β} {a : Act β} {w' : World β} (hw : Sound w) (hok : Outlives w a)
    (hs : Server.step h a w = some w') : Sound w' := by
  cases a with
  | accept =>
    obtain rfl := Option.some.inj hs
    exact hw.accept
  | recv k m rc =>
    simp only [Server.step] at hs
    split at hs
    · rename_i hk
      obtain rfl := Option.some.inj hs
      exact hw.recv h rc hk hok
    · cases hs
  | complete i statusCode =>
    simp only [Server.step] at hs
    split at hs
    · cases hs
    · rename_i r hi
      obtain rfl := Option.some.inj hs
      exact hw.complete hi statusCode
  | close s =>
    simp only [Server.step] at hs
    split at hs
    · rename_i hmem
      obtain rfl := Option.some.inj hs
      exact hw.close hmem hok
    · cases hs

theorem start (n : Nat) : Sound (World.start n : World β) := by
  refine ⟨List.nodup_nil, ?_, ?_, ?_, ?_, ?_⟩
  · rintro s (hs | hs | hs)
    · cases hs
    · exact List.mem_range.mp hs
    · cases hs
  all_goals
    intro x hx
    cases hx

end Sound

/-- When requests name their own messager and sessions outlive them, every response is queued on
a session in `session_q` that has never been destroyed. -/
theorem pushes_live (h : Heap β) (n : Nat) (w : World β)
    (hrun : Run (step h) Outlives (World.start n) w) :
    ∀ p ∈ w.pushes, p.live = true ∧ p.destroyed = false :=
  (hrun.invariant (Sound.start n) fun _ _ _ hi hok hs => hi.step hok hs : Sound w).pushed

/-- A stat from the network, on the session 0. -/
def statRequest : Message Nat :=
  ⟨⟨0, 0, 0⟩, MsgHdr.zero.put 8 [11, 0, 0x22], none, none, 0⟩

theorem statThenClose_live : ∃ w : World Nat, w.pushes.length = 1 ∧ w.destroyed = [0] ∧
    ∀ p ∈ w.pushes, p.live = true ∧ p.destroyed = false := by
  have hrun : (runActs (step testHeap) Outlives
      [.accept, .recv .net statRequest 0, .complete 0 0, .close 0]
      (World.start 0)).map (fun w => (w.pushes.length, w.destroyed)) = some (1, [0]) := by
    decide +kernel
  obtain ⟨w, hw, hval⟩ := Option.map_eq_some_iff.mp hrun
  obtain ⟨hlen, hd⟩ := Prod.mk.inj hval
  exact ⟨w, hlen, hd, pushes_live testHeap 0 w (run_of_runActs .start hw)⟩

/-- The session is closed before the store calls back. -/
theorem closeThenStat_dead : ∃ w : World Nat,
    Run (step testHeap) (fun _ _ => True) (World.start 0) w ∧
      w.pushes = [⟨.net, 0, false, true⟩] := by
  have hrun : (runActs (step testHeap) (fun _ _ => True)
      [.accept, .recv .net statRequest 0, .close 0, .complete 0 0]
      (World.start 0)).map World.pushes = some [⟨.net, 0, false, true⟩] := by
    decide +kernel
  obtain ⟨w, hw, hval⟩ := Option.map_eq_some_iff.mp hrun
  exact ⟨w, run_of_runActs .start hw, hval⟩

end ZCell.Server
