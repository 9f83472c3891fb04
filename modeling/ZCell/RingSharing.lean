import Mathlib.Data.List.Nodup
import ZCell.LibossRun
import ZCell.ServerRun

/-! Local channels side by side. The rings belong to a pair of cores and not to a channel: a poll
takes whatever is in the ring, and stamps it with its own session. -/
namespace ZCell.Liboss
open Bytes Messager Server Runs

/-- Every response reached the channel that its request came from. -/
def OwnResponses (w : World) : Prop :=
  ∀ chan sender op holder state, Obs.received chan sender op holder state ∈ w.log → chan = sender

/-- Channel `c` has the link `links[c]`, and the messages of a link are those of its channels. -/
structure Routed (links : List Nat) (w : World) : Prop where
  chans : w.chans.map Chan.link = links
  sent : ∀ l, ∀ x ∈ w.flight l, links[x.chan]? = some l
  held : ∀ l, ∀ x ∈ w.batch l ++ w.pending l, x.msg.privCtx = l
  own : OwnResponses w

section Queues
variable {kind : Kind} {q : List Sent} {x y : Sent}

theorem mem_enqueue (h : x ∈ enqueue kind q y) : x ∈ q ∨ x = y := by
  unfold enqueue at h
  split at h
  · exact Or.inl h
  · simpa using h

end Queues

section Channel
variable {w w' : World} {c : Nat} {ch : Chan}

theorem setChan_links (hc : w.chans[c]? = some ch) {ch' : Chan} (hl : ch'.link = ch.link) :
    (w.setChan c ch').chans.map Chan.link = w.chans.map Chan.link := by
  obtain ⟨hlt, rfl⟩ := List.getElem?_eq_some_iff.mp hc
  apply List.ext_getElem
  · simp [World.setChan]
  · intro i h1 h2
    simp only [World.setChan, List.getElem_map, List.getElem_set]
    split
    · rename_i he
      subst he
      exact hl
    · rfl

theorem recvAll_link (kind : Kind) (c : Nat) (ch : Chan) (xs : List Sent) :
    (World.recvAll kind c ch xs).1.link = ch.link := by
  induction xs generalizing ch with
  | nil => rfl
  | cons x xs ih =>
    rw [World.recvAll]
    split
    · rfl
    · exact ih _

/-- What is observed of a poll are its messages. -/
theorem recvAll_log (kind : Kind) (c : Nat) (ch : Chan) (xs : List Sent) :
    ∀ o ∈ (World.recvAll kind c ch xs).2.1, ∃ x ∈ xs, ∃ holder state,
      o = .received c x.chan x.op holder state := by
  induction xs generalizing ch with
  | nil => exact fun o ho => nomatch ho
  | cons x xs ih =>
    intro o ho
    rw [World.recvAll] at ho
    split at ho
    · obtain rfl := List.mem_singleton.mp ho
      exact ⟨x, List.mem_cons_self .., _, _, rfl⟩
    · cases List.mem_cons.mp ho with
      | inl he => exact ⟨x, List.mem_cons_self .., _, _, he⟩
      | inr ho =>
        obtain ⟨y, hy, hrest⟩ := ih _ o ho
        exact ⟨y, List.mem_cons_of_mem _ hy, hrest⟩

theorem Routed.link_of_chan {links : List Nat} (hr : Routed links w) (hc : w.chans[c]? = some ch) :
    links[c]? = some ch.link := by
  rw [← hr.chans, List.getElem?_map, hc]
  rfl

end Channel

section Step
variable {links : List Nat} {w w' : World} {h : Heap (List Byte)} {a : Act}

/-- A step of the client that moves no message. -/
theorem Routed.client (hr : Routed links w) (hchans : w'.chans.map Chan.link = w.chans.map Chan.link)
    (hc : w'.c2s = w.c2s) (hb : w'.batch = w.batch) (hp : w'.pending = w.pending) (hs : w'.s2c = w.s2c)
    (hown : OwnResponses w') : Routed links w' where
  chans := hchans.trans hr.chans
  sent l x hx := by
    rw [World.flight, hc, hb, hp, hs] at hx
    exact hr.sent l x hx
  held l x hx := by
    rw [hb, hp] at hx
    exact hr.held l x hx
  own := hown

variable {c l : Nat} {ch : Chan}

theorem Routed.prepare (hr : Routed links w) (hc : w.chans[c]? = some ch) (call : Call) :
    Routed links (w.prepare c ch call) := by
  unfold World.prepare
  split
  · exact hr.client rfl rfl rfl rfl rfl hr.own
  · split
    · exact hr.client (setChan_links hc rfl) rfl rfl rfl rfl hr.own
    · exact hr.client (setChan_links hc rfl) rfl rfl rfl rfl hr.own

theorem Routed.claim (hr : Routed links w) (hc : w.chans[c]? = some ch) (id : Nat) :
    Routed links (w.claim c ch id) := by
  refine hr.client (setChan_links hc rfl) rfl rfl rfl rfl fun chan sender op holder state ho => ?_
  simp only [World.claim, List.mem_append, List.mem_map] at ho
  rcases ho with ho | ⟨x, -, ho⟩
  · exact hr.own chan sender op holder state ho
  · cases ho

theorem Routed.send (hr : Routed links w) (hc : w.chans[c]? = some ch) (id : Nat) (rest all : List Nat) :
    Routed links (w.send c ch id rest all) where
  chans := hr.chans
  sent l x hx := by
    have hx := mem_flight.mp hx
    by_cases hl : l = ch.link
    · subst hl
      simp only [World.send, Function.update_self] at hx
      rcases hx with hx | hx
      · rcases mem_enqueue hx with hx | rfl
        · exact hr.sent _ x (mem_flight.mpr (Or.inl hx))
        · exact hr.link_of_chan hc
      · exact hr.sent _ x (mem_flight.mpr (Or.inr hx))
    · simp only [World.send, Function.update_of_ne hl] at hx
      exact hr.sent l x (mem_flight.mpr hx)
  held := hr.held
  own := hr.own

theorem Routed.wait (hr : Routed links w) (hnd : links.Nodup) (hc : w.chans[c]? = some ch)
    (min max n : Nat) (retry : Bool) (j : Nat) : Routed links (w.wait c ch min max n retry j) where
  chans := (setChan_links hc (recvAll_link ..)).trans hr.chans
  sent l x hx := by
    have hx := mem_flight.mp hx
    by_cases hl : l = ch.link
    · subst hl
      simp only [World.wait, World.receive, World.setChan, Function.update_self] at hx
      exact hr.sent _ x (mem_flight.mpr (hx.imp_right (Or.imp_right (Or.imp_right List.mem_of_mem_drop))))
    · simp only [World.wait, World.receive, World.setChan, Function.update_of_ne hl] at hx
      exact hr.sent l x (mem_flight.mpr hx)
  held := hr.held
  own chan sender op holder state ho := by
    simp only [World.wait, World.receive, World.setChan, List.mem_append] at ho
    rcases ho with ho | ho
    · exact hr.own chan sender op holder state ho
    · obtain ⟨x, hx, _, _, heq⟩ := recvAll_log _ _ _ _ _ ho
      injection heq with h1 h2
      -- only one channel has this link
      have hx' := hr.sent ch.link x (mem_flight.mpr (Or.inr (Or.inr (Or.inr (List.mem_of_mem_take hx)))))
      have hc' := hr.link_of_chan hc
      obtain ⟨hlt, hget⟩ := List.getElem?_eq_some_iff.mp hx'
      obtain ⟨hlt', hget'⟩ := List.getElem?_eq_some_iff.mp hc'
      have hidx := (List.Nodup.getElem_inj_iff hnd).mp (hget.trans hget'.symm)
      rw [h1, h2, hidx]

theorem Routed.take (hr : Routed links w) (l j : Nat) : Routed links (w.take l j) where
  chans := hr.chans
  sent l' x hx := by
    have hx := mem_flight.mp hx
    by_cases hl : l' = l
    · subst hl
      simp only [World.take, World.arrive, Function.update_self, List.mem_append, List.mem_map] at hx
      rcases hx with hx | (hx | ⟨y, hy, rfl⟩) | hx
      · exact hr.sent _ x (mem_flight.mpr (Or.inl (List.mem_of_mem_drop hx)))
      · exact hr.sent _ x (mem_flight.mpr (Or.inr (Or.inl hx)))
      · exact hr.sent l' y (mem_flight.mpr (Or.inl (List.mem_of_mem_take hy)))
      · exact hr.sent _ x (mem_flight.mpr (Or.inr (Or.inr hx)))
    · simp only [World.take, World.arrive, Function.update_of_ne hl] at hx
      exact hr.sent l' x (mem_flight.mpr hx)
  held l' x hx := by
    by_cases hl : l' = l
    · subst hl
      simp only [World.take, World.arrive, Function.update_self, List.mem_append, List.mem_map] at hx
      rcases hx with (hx | ⟨y, _, rfl⟩) | hx
      · exact hr.held l' x (List.mem_append_left _ hx)
      · cases w.kind <;> rfl
      · exact hr.held l' x (List.mem_append_right _ hx)
    · simp only [World.take, World.arrive, Function.update_of_ne hl] at hx
      exact hr.held l' x hx
  own := hr.own

/-- The response to a message of the link `l` goes back on it. -/
theorem Routed.answer (hr : Routed links w) {x : Sent} {code : Int} {events : List (Event (List Byte))}
    (hlink : links[x.chan]? = some l) (hctx : ∀ kr ∈ responses events, kr.2.privCtx = l) :
    Routed links (World.answer w x code events) := by
  unfold World.answer
  generalize responses events = krs at hctx
  induction krs generalizing w with
  | nil => exact hr
  | cons kr krs ih =>
    rw [List.foldl_cons]
    refine ih ?_ fun kr' hkr => hctx kr' (List.mem_cons_of_mem _ hkr)
    split
    · have hl := hctx kr (List.mem_cons_self ..)
      dsimp only
      rw [hl]
      refine ⟨hr.chans, fun l' y hy => ?_, hr.held, fun chan sender op holder state ho => ?_⟩
      · have hy := mem_flight.mp hy
        by_cases he : l' = l
        · subst he
          simp only [Function.update_self] at hy
          rcases hy with hy | hy | hy | hy
          · exact hr.sent _ y (mem_flight.mpr (Or.inl hy))
          · exact hr.sent _ y (mem_flight.mpr (Or.inr (Or.inl hy)))
          · exact hr.sent _ y (mem_flight.mpr (Or.inr (Or.inr (Or.inl hy))))
          · rcases mem_enqueue hy with hy | rfl
            · exact hr.sent _ y (mem_flight.mpr (Or.inr (Or.inr (Or.inr hy))))
            · exact hlink
        · simp only [Function.update_of_ne he] at hy
          exact hr.sent l' y (mem_flight.mpr hy)
      · simp only [List.mem_append, List.mem_singleton] at ho
        rcases ho with ho | ho
        · exact hr.own chan sender op holder state ho
        · cases ho
    · exact hr

theorem Routed.handle (hr : Routed links w) {x : Sent} {xs : List Sent} {rc : Int}
    (hb : w.batch l = x :: xs) : Routed links (World.handle h w l x xs rc) := by
  have hx : x ∈ w.batch l := by rw [hb]; exact List.mem_cons_self ..
  have hsent := hr.sent l x (mem_flight.mpr (Or.inr (Or.inl hx)))
  have hctx := hr.held l x (List.mem_append_left _ hx)
  obtain ⟨hres, hpend⟩ : (∀ kr ∈ responses (onRecvMessage h rc x.msg).1, kr.2.privCtx = l) ∧
      ∀ m ∈ (onRecvMessage h rc x.msg).2, m.privCtx = l := by
    rcases onRecvMessage_cases h rc x.msg with ⟨events, heq, hans⟩ | ⟨m, heq, -, hm⟩
    · rw [heq]
      exact ⟨fun kr hkr => (hans.of_mem hkr).2.trans hctx, fun m hm => (nomatch hm)⟩
    · rw [heq]
      refine ⟨fun kr hkr => (nomatch hkr), fun m' hm' => ?_⟩
      obtain rfl := Option.some.inj hm'
      exact hm.trans hctx
  have hcons : ∀ y ∈ xs, y ∈ w.batch l := by
    intro y hy
    rw [hb]
    exact List.mem_cons_of_mem _ hy
  unfold World.handle
  refine Routed.answer ?_ hsent hres
  refine ⟨hr.chans, fun l' y hy => ?_, fun l' y hy => ?_, hr.own⟩
  · have hy := mem_flight.mp hy
    by_cases hl : l' = l
    · subst hl
      simp only [Function.update_self, List.mem_append, List.mem_map] at hy
      rcases hy with hy | hy | (hy | ⟨m, -, rfl⟩) | hy
      · exact hr.sent _ y (mem_flight.mpr (Or.inl hy))
      · exact hr.sent _ y (mem_flight.mpr (Or.inr (Or.inl (hcons y hy))))
      · exact hr.sent _ y (mem_flight.mpr (Or.inr (Or.inr (Or.inl hy))))
      · exact hsent
      · exact hr.sent _ y (mem_flight.mpr (Or.inr (Or.inr (Or.inr hy))))
    · simp only [Function.update_of_ne hl] at hy
      exact hr.sent l' y (mem_flight.mpr hy)
  · by_cases hl : l' = l
    · subst hl
      simp only [Function.update_self, List.mem_append, List.mem_map] at hy
      rcases hy with hy | hy | ⟨m, hm, rfl⟩
      · exact hr.held l' y (List.mem_append_left _ (hcons y hy))
      · exact hr.held l' y (List.mem_append_right _ hy)
      · exact hpend m (by simpa using hm)
    · simp only [Function.update_of_ne hl] at hy
      exact hr.held l' y hy

theorem Routed.complete (hr : Routed links w) {i : Nat} {x : Sent} {code : Int}
    (hp : (w.pending l)[i]? = some x) : Routed links (World.complete w l i x code) := by
  have hx : x ∈ w.pending l := List.mem_of_getElem? hp
  have hsent := hr.sent l x (mem_flight.mpr (Or.inr (Or.inr (Or.inl hx))))
  have hctx := hr.held l x (List.mem_append_right _ hx)
  unfold World.complete
  refine Routed.answer ?_ hsent fun kr hkr =>
    ((ossOpCb_answers x.msg code).of_mem hkr).2.trans hctx
  refine ⟨hr.chans, fun l' y hy => ?_, fun l' y hy => ?_, hr.own⟩
  · have hy := mem_flight.mp hy
    by_cases hl : l' = l
    · subst hl
      simp only [Function.update_self] at hy
      exact hr.sent _ y (mem_flight.mpr
        (hy.imp_right (Or.imp_right (Or.imp_left List.mem_of_mem_eraseIdx))))
    · simp only [Function.update_of_ne hl] at hy
      exact hr.sent l' y (mem_flight.mpr hy)
  · by_cases hl : l' = l
    · subst hl
      simp only [Function.update_self, List.mem_append] at hy
      exact hr.held l' y (List.mem_append.mpr (hy.imp_right List.mem_of_mem_eraseIdx))
    · simp only [Function.update_of_ne hl] at hy
      exact hr.held l' y hy

theorem routed_call {f : Chan → World} (hs : w.call c f = some w')
    (hf : ∀ ch, w.chans[c]? = some ch → Routed links (f ch)) : Routed links w' := by
  unfold World.call at hs
  split at hs
  · obtain ⟨ch, hc, rfl⟩ := Option.map_eq_some_iff.mp hs
    exact hf ch hc
  · cases hs

theorem Routed.step (hr : Routed links w) (hnd : links.Nodup) (hs : step h a w = some w') :
    Routed links w' := by
  obtain ⟨-, hs⟩ := step_act hs
  cases a with
  | prepare c call => exact routed_call hs fun ch hc => hr.prepare hc call
  | submit c ops =>
    refine routed_call hs fun ch hc => ?_
    unfold World.submit
    split <;> exact hr.client rfl rfl rfl rfl rfl hr.own
  | poll c min max =>
    refine routed_call hs fun ch hc => ?_
    unfold World.poll
    split
    · exact hr
    · split <;> exact hr.client rfl rfl rfl rfl rfl hr.own
  | claim c id => exact routed_call hs fun ch hc => hr.claim hc id
  | destroy c id =>
    refine routed_call hs fun ch hc => ?_
    unfold World.destroy
    split
    · exact hr.client rfl rfl rfl rfl rfl hr.own
    · exact hr.client (setChan_links hc rfl) rfl rfl rfl rfl hr.own
  | send =>
    simp only [World.act] at hs
    split at hs
    · rename_i c id rest all _
      obtain ⟨ch, hc, rfl⟩ := Option.map_eq_some_iff.mp hs
      exact hr.send hc id rest all
    · rename_i c all _
      obtain ⟨ch, hc, rfl⟩ := Option.map_eq_some_iff.mp hs
      exact hr.client (setChan_links hc rfl) rfl rfl rfl rfl hr.own
    · cases hs
  | wait j =>
    simp only [World.act] at hs
    split at hs
    · split at hs
      · rename_i ch hc
        split at hs
        · obtain rfl := Option.some.inj hs
          exact hr.wait hnd hc ..
        · cases hs
      · cases hs
    · cases hs
  | reap =>
    simp only [World.act] at hs
    split at hs
    · obtain ⟨ch, hc, rfl⟩ := Option.map_eq_some_iff.mp hs
      exact hr.client (setChan_links hc rfl) rfl rfl rfl rfl hr.own
    · cases hs
  | take l j =>
    simp only [World.act] at hs
    split at hs
    · obtain rfl := Option.some.inj hs
      exact hr.take l j
    · cases hs
  | handle l rc =>
    simp only [World.act] at hs
    split at hs
    · rename_i x xs hb
      obtain rfl := Option.some.inj hs
      exact hr.handle hb
    · cases hs
  | complete l i code =>
    obtain ⟨x, hx, rfl⟩ := Option.map_eq_some_iff.mp hs
    exact hr.complete hx

end Step

theorem Routed.start (kind : Kind) (opened : List (Nat × BitVec 32)) :
    Routed (opened.map Prod.fst) (World.start kind opened) where
  chans := by
    apply List.ext_getElem
    · simp [World.start]
    · intro i h1 h2
      simp [World.start]
  sent l x hx := nomatch hx
  held l x hx := nomatch hx
  own chan sender op holder state ho := nomatch ho

/-- Channels to different cores each get the responses to their own requests. -/
theorem run_ownResponses (h : Heap (List Byte)) (opened : List (Nat × BitVec 32)) (w : World)
    (hnd : (opened.map Prod.fst).Nodup)
    (hrun : Run (step h) (fun _ _ => True) (World.start .ipc opened) w) : OwnResponses w := by
  have hr : Routed (opened.map Prod.fst) w := by
    induction hrun with
    | start => exact Routed.start .ipc opened
    | next a _ _ hs ih => exact ih.step hnd hs
  exact hr.own

/-- Two channels with a request each, both answered and polled. -/
theorem run_ownResponses_two : ∃ w, Obs.received 1 1 1 1 .inProgress ∈ w.log ∧
    Obs.received 0 0 0 0 .inProgress ∈ w.log ∧ OwnResponses w := by
  have hrun : (runActs (step byteHeap) (fun _ _ => True) [.prepare 0 .stat, .prepare 1 (.create 7),
      .submit 1 [0], .send, .send, .submit 0 [0], .send, .send, .take 1 1, .handle 1 0, .take 2 1,
      .handle 2 0, .complete 2 0 0, .complete 1 0 0, .poll 1 1 1, .wait 1, .reap, .poll 0 0 1, .wait 1]
      (World.start .ipc [(1, 64), (2, 64)])).map (fun w =>
        decide (Obs.received 1 1 1 1 .inProgress ∈ w.log ∧ Obs.received 0 0 0 0 .inProgress ∈ w.log)) =
      some true := by
    decide +kernel
  obtain ⟨w, hw, hend⟩ := Option.map_eq_some_iff.mp hrun
  obtain ⟨h1, h0⟩ := of_decide_eq_true hend
  exact ⟨w, h1, h0, run_ownResponses byteHeap [(1, 64), (2, 64)] w (by decide)
    (run_of_runActs .start hw)⟩

/-- Two channels to one core: the second polls first and takes the response to the first, which
fits its own operation, so that no assertion fails. -/
theorem shared_ring_misdelivers : ∃ w,
    Run (step byteHeap) (fun _ _ => True) (World.start .ipc [(1, 64), (1, 64)]) w ∧
    w.fault = none ∧ ¬ OwnResponses w := by
  have hrun : (runActs (step byteHeap) (fun _ _ => True) [.prepare 0 .stat, .submit 0 [0], .send, .send,
      .prepare 1 .stat, .submit 1 [0], .send, .send, .take 1 2, .handle 1 0, .complete 1 0 0,
      .poll 1 1 1, .wait 1] (World.start .ipc [(1, 64), (1, 64)])).map (fun w =>
        decide (w.fault = none ∧ Obs.received 1 0 0 1 .inProgress ∈ w.log)) = some true := by
    decide +kernel
  obtain ⟨w, hw, hend⟩ := Option.map_eq_some_iff.mp hrun
  obtain ⟨hfault, hlog⟩ := of_decide_eq_true hend
  refine ⟨w, run_of_runActs .start hw, hfault, fun hown => ?_⟩
  exact absurd (hown 1 0 0 1 .inProgress hlog) (by decide)

end ZCell.Liboss
