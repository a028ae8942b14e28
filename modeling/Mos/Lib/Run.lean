import Mathlib.Data.List.Forall2
import Mathlib.Logic.Function.Basic

/-!
# Runs of a partial step function

A system has initial states and a partial step function on events.  `Reach ok s` says that `s` ends a run whose
every step met the side condition `ok`; a step that is undefined ends the run.  An invariant is proved once, by
`Reach.invariant`, from what a single step does.
-/

/-- Initial states and a partial step function: `none` means that the step has no successor. -/
structure System (σ ε : Type) where
  init : σ → Prop
  step : σ → ε → Option σ

namespace System

variable {σ ε : Type} {T : System σ ε} {ok ok' : σ → ε → Prop}

/-- The states at the end of a run all of whose steps meet `ok`. -/
inductive Reach (T : System σ ε) (ok : σ → ε → Prop) : σ → Prop
  | start {s : σ} (h : T.init s) : Reach T ok s
  | next {s s' : σ} {e : ε} (h : Reach T ok s) (hok : ok s e) (hs : T.step s e = some s') : Reach T ok s'

/-- A property of the initial states that every admitted step preserves holds of every state reached. -/
theorem Reach.invariant {I : σ → Prop} (h0 : ∀ s, T.init s → I s)
    (hstep : ∀ s e s', I s → ok s e → T.step s e = some s' → I s') {s : σ} (h : Reach T ok s) : I s := by
  induction h with
  | start h => exact h0 _ h
  | next _ hok hs ih => exact hstep _ _ _ ih hok hs

/-- Weaker side conditions admit more runs. -/
theorem Reach.mono (hok : ∀ s e, ok s e → ok' s e) {s : σ} (h : Reach T ok s) : Reach T ok' s := by
  induction h with
  | start h => exact .start h
  | next _ ho hs ih => exact .next ih (hok _ _ ho) hs

/-- The state after a list of events; `none` if a step is not admitted or has no successor. -/
def run (T : System σ ε) (ok : σ → ε → Bool) (s : σ) : List ε → Option σ
  | [] => some s
  | e :: es => if ok s e then (T.step s e).bind fun s' => T.run ok s' es else none

theorem run_append (T : System σ ε) (ok : σ → ε → Bool) (s : σ) (es es' : List ε) :
    T.run ok s (es ++ es') = (T.run ok s es).bind fun t => T.run ok t es' := by
  induction es generalizing s with
  | nil => rfl
  | cons e es ih =>
    simp only [List.cons_append, run]
    split
    · rw [Option.bind_assoc]
      exact congrArg _ (funext ih)
    · rfl

/-- A run over a list of events ends in a reached state. -/
theorem Reach.run {p : σ → ε → Bool} {s t : σ} {l : List ε} (h : Reach T (fun s e => p s e) s)
    (ht : T.run p s l = some t) : Reach T (fun s e => p s e) t := by
  induction l generalizing s with
  | nil => exact Option.some.inj ht ▸ h
  | cons e l ih =>
    unfold System.run at ht
    split at ht
    case isFalse => cases ht
    case isTrue hok =>
      obtain ⟨s', hs, ht⟩ := Option.bind_eq_some_iff.1 ht
      exact ih (.next h hok hs) ht

/-! ### Accounts of a run -/

/-- The admitted steps from `s` to `t`, each as the state in which it is made and the event. -/
inductive Steps (T : System σ ε) (ok : σ → ε → Prop) (s : σ) : List (σ × ε) → σ → Prop
  | refl : Steps T ok s [] s
  | snoc {l : List (σ × ε)} {t u : σ} {e : ε} (h : Steps T ok s l t) (hok : ok t e) (hs : T.step t e = some u) :
      Steps T ok s (l ++ [(t, e)]) u

/-- An invariant of the state and the steps made so far. -/
theorem Steps.invariant {I : List (σ × ε) → σ → Prop} {s t : σ} {l : List (σ × ε)} (h0 : I [] s)
    (hstep : ∀ l t e u, I l t → ok t e → T.step t e = some u → I (l ++ [(t, e)]) u) (h : Steps T ok s l t) : I l t := by
  induction h with
  | refl => exact h0
  | snoc _ hok hs ih => exact hstep _ _ _ _ ih hok hs

/-- Weaker side conditions admit more steps. -/
theorem Steps.mono (hok : ∀ s e, ok s e → ok' s e) {s t : σ} {l : List (σ × ε)} (h : Steps T ok s l t) :
    Steps T ok' s l t := by
  induction h with
  | refl => exact .refl
  | snoc _ ho hs ih => exact ih.snoc (hok _ _ ho) hs

/-- Steps after steps. -/
theorem Steps.append {s t u : σ} {l l' : List (σ × ε)} (h : Steps T ok s l t) (h' : Steps T ok t l' u) :
    Steps T ok s (l ++ l') u := by
  induction h' with
  | refl => rwa [List.append_nil]
  | snoc _ hok hs ih =>
    rw [← List.append_assoc]
    exact ih.snoc hok hs

/-- A run over a list of events makes steps. -/
theorem Steps.run {ok : σ → ε → Bool} {s t u : σ} {l : List (σ × ε)} {es : List ε}
    (h : Steps T (fun s e => ok s e) s l t) (ht : T.run ok t es = some u) :
    ∃ l', Steps T (fun s e => ok s e) s (l ++ l') u := by
  induction es generalizing t l with
  | nil => exact ⟨[], by rw [List.append_nil]; exact Option.some.inj ht ▸ h⟩
  | cons e es ih =>
    unfold System.run at ht
    split at ht
    case isFalse => cases ht
    case isTrue hok =>
      obtain ⟨s', hs, ht⟩ := Option.bind_eq_some_iff.1 ht
      obtain ⟨l', hl⟩ := ih (h.snoc hok hs) ht
      exact ⟨(t, e) :: l', by simpa using hl⟩

/-- The steps after a list of events. -/
def trace (T : System σ ε) (ok : σ → ε → Bool) (s : σ) : List ε → Option (List (σ × ε) × σ)
  | [] => some ([], s)
  | e :: es => if ok s e then (T.step s e).bind fun s' => (T.trace ok s' es).map fun r => ((s, e) :: r.1, r.2) else none

private theorem Steps.cons {s s' t : σ} {e : ε} {l : List (σ × ε)} (hok : ok s e) (hs : T.step s e = some s')
    (h : Steps T ok s' l t) : Steps T ok s ((s, e) :: l) t := by
  induction h with
  | refl => exact .snoc (l := []) .refl hok hs
  | snoc _ hok' hs' ih => exact .snoc ih hok' hs'

theorem Steps.of_trace {ok : σ → ε → Bool} {s t : σ} {es : List ε} {l : List (σ × ε)}
    (h : T.trace ok s es = some (l, t)) : Steps T (fun s e => ok s e) s l t := by
  induction es generalizing s l with
  | nil =>
    simp only [trace, Option.some.injEq, Prod.mk.injEq] at h
    obtain ⟨rfl, rfl⟩ := h
    exact .refl
  | cons e es ih =>
    unfold trace at h
    split at h
    case isFalse => cases h
    case isTrue hok =>
      obtain ⟨s', hs, h⟩ := Option.bind_eq_some_iff.1 h
      obtain ⟨⟨l', t'⟩, hl, h⟩ := Option.map_eq_some_iff.1 h
      simp only [Prod.mk.injEq] at h
      obtain ⟨rfl, rfl⟩ := h
      exact .cons hok hs (ih hl)

/-- If every step takes the view along by labels of its own, so does the run by the labels of its steps, one after the other. -/
theorem Steps.simulates {α β : Type} {I : σ → Prop} {label : σ × ε → List β → Prop} {V : σ → α} {act : α → β → α}
    (hstep : ∀ s e s', I s → ok s e → T.step s e = some s' → I s' ∧ ∃ L, label (s, e) L ∧ V s' = L.foldl act (V s))
    {s t : σ} {l : List (σ × ε)} (h : Steps T ok s l t) (hI : I s) :
    I t ∧ ∃ LL, List.Forall₂ label l LL ∧ V t = LL.flatten.foldl act (V s) := by
  induction h with
  | refl => exact ⟨hI, [], .nil, rfl⟩
  | @snoc l t u e _ hok hs ih =>
    obtain ⟨hIt, LL, hLL, ht⟩ := ih
    obtain ⟨hIu, L, hL, hu⟩ := hstep t e u hIt hok hs
    refine ⟨hIu, LL ++ [L], List.rel_append hLL (.cons hL .nil), ?_⟩
    rw [hu, ht, List.flatten_append, List.foldl_append, List.flatten_singleton]

/-- If every step gets out of the contents `C` and what comes in, `f`, exactly what goes out, `g`, and the new
contents, then so does the run. -/
theorem Steps.account {β : Type} {I : σ → Prop} {C : σ → List β} {f g : σ × ε → List β}
    (hstep : ∀ s e s', I s → ok s e → T.step s e = some s' → I s' ∧ (C s ++ f (s, e)).Perm (g (s, e) ++ C s'))
    {s t : σ} {l : List (σ × ε)} (h : Steps T ok s l t) (hI : I s) :
    I t ∧ (C s ++ l.flatMap f).Perm (l.flatMap g ++ C t) := by
  induction h with
  | refl => exact ⟨hI, by simp⟩
  | @snoc l t u e _ hok hs ih =>
    obtain ⟨hIt, hl⟩ := ih
    obtain ⟨hIu, hu⟩ := hstep t e u hIt hok hs
    refine ⟨hIu, ?_⟩
    simp only [List.flatMap_append, List.flatMap_cons, List.flatMap_nil, List.append_nil]
    calc C s ++ (l.flatMap f ++ f (t, e))
        = C s ++ l.flatMap f ++ f (t, e) := (List.append_assoc ..).symm
      _ |>.Perm (l.flatMap g ++ C t ++ f (t, e)) := hl.append_right _
      _ |>.Perm (l.flatMap g ++ (g (t, e) ++ C u)) := by
        rw [List.append_assoc]
        exact hu.append_left _
      _ = l.flatMap g ++ g (t, e) ++ C u := (List.append_assoc ..).symm

end System
