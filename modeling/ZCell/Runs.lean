import Mathlib.Data.List.Basic

/-! Runs of a deterministic system whose every step is allowed by a condition on the state it
is taken in, the rule by which an invariant holds along them, the rule by which they come to an end, and the
value that the latest event of a kind leaves. -/
namespace ZCell.Runs
variable {σ α : Type*}

/-- The states reached from `s0` by steps that `ok` allows. -/
inductive Run (step : α → σ → Option σ) (ok : σ → α → Prop) (s0 : σ) : σ → Prop
  | start : Run step ok s0 s0
  | next {s s' : σ} (a : α) (h : Run step ok s0 s) (hok : ok s a) (hs : step a s = some s') :
      Run step ok s0 s'

variable {step : α → σ → Option σ} {ok : σ → α → Prop} {s0 : σ}

theorem Run.invariant {inv : σ → Prop} (h0 : inv s0)
    (hstep : ∀ s a s', inv s → ok s a → step a s = some s' → inv s') {s : σ}
    (h : Run step ok s0 s) : inv s := by
  induction h with
  | start => exact h0
  | next a _ hok hs ih => exact hstep _ a _ ih hok hs

/-- Along an invariant one condition may imply another. -/
theorem Run.mono_of_invariant {inv : σ → Prop} {ok' : σ → α → Prop} (h0 : inv s0)
    (hstep : ∀ s a s', inv s → ok s a → step a s = some s' → inv s')
    (hle : ∀ s a, inv s → ok s a → ok' s a) {s : σ} (h : Run step ok s0 s) :
    Run step ok' s0 s := by
  induction h with
  | start => exact .start
  | next a h hok hs ih => exact .next a ih (hle _ a (h.invariant h0 hstep) hok) hs

theorem Run.trans {s1 s : σ} (h : Run step ok s0 s1) (h' : Run step ok s1 s) : Run step ok s0 s := by
  induction h' with
  | start => exact h
  | next a _ hok hs ih => exact .next a ih hok hs

/-- Forward simulation: where every step is matched by one of another system or by none, a run of the
one leads to a related state of the other. -/
theorem Run.simulate {τ β : Type*} {step' : β → τ → Option τ} {ok' : τ → β → Prop} {t0 : τ}
    {R : σ → τ → Prop} (h0 : R s0 t0)
    (hstep : ∀ s t a s', R s t → ok s a → step a s = some s' →
      R s' t ∨ ∃ b t', ok' t b ∧ step' b t = some t' ∧ R s' t') {s : σ} (h : Run step ok s0 s) :
    ∃ t, Run step' ok' t0 t ∧ R s t := by
  induction h with
  | start => exact ⟨t0, .start, h0⟩
  | next a _ hok hs ih =>
    obtain ⟨t, hrun, hr⟩ := ih
    rcases hstep _ t a _ hr hok hs with hr' | ⟨b, t', hok', hs', hr'⟩
    · exact ⟨t, hrun, hr'⟩
    · exact ⟨t', .next b hrun hok' hs', hr'⟩

/-- Where an allowed step lowers the load as long as there is any, a run takes all of it away. -/
theorem Run.unload {inv : σ → Prop} (load : σ → Nat)
    (hstep : ∀ s, inv s → load s ≠ 0 →
      ∃ a s', ok s a ∧ step a s = some s' ∧ inv s' ∧ load s' < load s)
    {s : σ} (h : inv s) : ∃ s', Run step ok s s' ∧ inv s' ∧ load s' = 0 := by
  generalize hn : load s = n
  induction n using Nat.strongRecOn generalizing s with
  | ind n ih =>
    by_cases hzero : load s = 0
    · exact ⟨s, .start, h, hzero⟩
    · obtain ⟨a, s1, hok, hs, h1, hlt⟩ := hstep s h hzero
      obtain ⟨s2, hrun, h2, hload⟩ := ih _ (hn ▸ hlt) h1 rfl
      have hfirst : Run step ok s s1 := .next a .start hok hs
      exact ⟨s2, hfirst.trans hrun, h2, hload⟩

section Lists
variable [∀ s a, Decidable (ok s a)]

/-- The state after a list of steps, all of which have to be allowed. -/
def runActs (step : α → σ → Option σ) (ok : σ → α → Prop) [∀ s a, Decidable (ok s a)] :
    List α → σ → Option σ
  | [], s => some s
  | a::as, s => if ok s a then (step a s).bind (runActs step ok as) else none

theorem run_of_runActs {as : List α} {s s' : σ} (h : Run step ok s0 s)
    (hs : runActs step ok as s = some s') : Run step ok s0 s' := by
  induction as generalizing s with
  | nil =>
    obtain rfl := Option.some.inj hs
    exact h
  | cons a as ih =>
    unfold runActs at hs
    split at hs
    · rename_i hok
      obtain ⟨s1, h1, h2⟩ := Option.bind_eq_some_iff.mp hs
      exact ih (.next a h hok h1) h2
    · cases hs

end Lists

section Latest
variable {β : Type*} {p q : α → Prop} [DecidablePred p] [DecidablePred q] {f g : α → β}
  {l : List α}

/-- The value at the last element with the property, after one more element. -/
theorem latest_snoc (p : α → Prop) [DecidablePred p] (f : α → β) (init : β) (l : List α) (t : α) :
    (((l ++ [t]).filter fun t => decide (p t)).getLast?.map f).getD init =
      if p t then f t else ((l.filter fun t => decide (p t)).getLast?.map f).getD init := by
  rw [List.filter_append]
  by_cases h : p t
  · simp [h]
  · simp [h]

theorem latest_congr (init : β) (hp : ∀ t ∈ l, (p t ↔ q t)) (hf : ∀ t ∈ l, f t = g t) :
    ((l.filter fun t => decide (p t)).getLast?.map f).getD init =
      ((l.filter fun t => decide (q t)).getLast?.map g).getD init := by
  have hfilter : l.filter (fun t => decide (p t)) = l.filter (fun t => decide (q t)) := by
    apply List.filter_congr
    intro t ht
    rw [decide_eq_decide]
    exact hp t ht
  rw [hfilter]
  cases hlast : (l.filter fun t => decide (q t)).getLast? with
  | none => rfl
  | some t =>
    have ht := List.mem_of_mem_filter (List.mem_of_getLast? hlast)
    simp only [Option.map_some, hf t ht]

end Latest

end ZCell.Runs
