import Mathlib.Order.Basic

/-!
# Loops that may not end

A loop is run with fuel, and each round may fail.  A computation with fuel returns `r` when it gives `r` for all large
amounts of fuel, and it is stuck when it gives nothing for any.
-/

namespace While

variable {σ τ υ : Type}

/-- `while (cond s) s = body s;`, where a round may have loops of its own. -/
def nested (cond : σ → Bool) (body : Nat → σ → Option σ) : Nat → σ → Option σ
  | 0, _ => none
  | fuel + 1, s => if cond s then (body fuel s).bind (nested cond body fuel) else some s

/-- A loop with rounds that need no fuel. -/
def loop (cond : σ → Bool) (body : σ → Option σ) : Nat → σ → Option σ := nested cond fun _ => body

/-- With enough fuel the result is `r`. -/
def Returns (f : Nat → Option τ) (r : τ) : Prop := ∃ N, ∀ fuel ≥ N, f fuel = some r

/-- No fuel is enough. -/
def Stuck (f : Nat → Option τ) : Prop := ∀ fuel, f fuel = none

/-- A result does not change with more fuel. -/
def Steady (f : Nat → Option τ) : Prop := ∀ fuel r, f fuel = some r → ∀ fuel' ≥ fuel, f fuel' = some r

/-! ### Computations with fuel -/

section

variable {f : Nat → Option τ} {g : τ → Nat → Option υ} {r r' : τ} {u : υ}

theorem Returns.unique (h : Returns f r) (h' : Returns f r') : r = r' := by
  obtain ⟨N, hN⟩ := h
  obtain ⟨N', hN'⟩ := h'
  have hr := hN (max N N') (Nat.le_max_left ..)
  rw [hN' (max N N') (Nat.le_max_right ..)] at hr
  exact (Option.some.inj hr).symm

theorem Stuck.not_returns (h : Stuck f) : ¬Returns f r := by
  rintro ⟨N, hN⟩
  have hr := hN N (Nat.le_refl N)
  rw [h N] at hr
  cases hr

theorem returns_pure (r : τ) : Returns (fun _ => some r) r := ⟨0, fun _ _ => rfl⟩

theorem Returns.bind (hf : Returns f r) (hg : Returns (g r) u) : Returns (fun fuel => f fuel >>= fun s => g s fuel) u := by
  obtain ⟨N, hN⟩ := hf
  obtain ⟨N', hN'⟩ := hg
  refine ⟨max N N', fun fuel hfuel => ?_⟩
  have hr := hN fuel (by omega)
  have hu := hN' fuel (by omega)
  simp [hr, hu]

theorem Stuck.bind (hf : Stuck f) : Stuck (fun fuel => f fuel >>= fun s => g s fuel) := by
  intro fuel
  simp [hf fuel]

/-- What comes before cannot return anything else, so it does not help. -/
theorem Returns.bind_stuck (hs : Steady f) (hf : Returns f r) (hg : Stuck (g r)) :
    Stuck (fun fuel => f fuel >>= fun s => g s fuel) := by
  intro fuel
  refine Option.bind_eq_none_iff.2 fun s hr => ?_
  have hsr : s = r := Returns.unique ⟨fuel, hs fuel s hr⟩ hf
  subst hsr
  exact hg fuel

theorem Steady.bind (hf : Steady f) (hg : ∀ s, Steady (g s)) : Steady (fun fuel => f fuel >>= fun s => g s fuel) := by
  intro fuel u h fuel' hfuel
  obtain ⟨s, hs, hu⟩ := Option.bind_eq_some_iff.1 h
  have hs' := hf fuel s hs fuel' hfuel
  have hu' := hg s fuel u hu fuel' hfuel
  simp [hs', hu']

end

/-! ### Loops -/

section

variable {cond : σ → Bool} {s s' r : σ}

section

variable {body : Nat → σ → Option σ}

theorem nested_of_not (hc : cond s = false) (fuel : Nat) : nested cond body (fuel + 1) s = some s := by simp [nested, hc]

theorem nested_of_cond (hc : cond s = true) {fuel : Nat} (hb : body fuel s = some s') :
    nested cond body (fuel + 1) s = nested cond body fuel s' := by simp [nested, hc, hb]

theorem nested_returns_of_not (hc : cond s = false) : Returns (fun fuel => nested cond body fuel s) s := by
  refine ⟨1, fun fuel hfuel => ?_⟩
  obtain ⟨fuel, rfl⟩ : ∃ k, fuel = k + 1 := ⟨fuel - 1, by omega⟩
  exact nested_of_not hc fuel

theorem nested_returns_of_cond (hc : cond s = true) (hb : Returns (fun fuel => body fuel s) s')
    (h : Returns (fun fuel => nested cond body fuel s') r) : Returns (fun fuel => nested cond body fuel s) r := by
  obtain ⟨N, hN⟩ := h
  obtain ⟨N', hN'⟩ := hb
  refine ⟨max N N' + 1, fun fuel hfuel => ?_⟩
  obtain ⟨fuel, rfl⟩ : ∃ k, fuel = k + 1 := ⟨fuel - 1, by omega⟩
  have hr := hN fuel (by omega)
  have hs' := hN' fuel (by omega)
  simpa only [nested_of_cond hc hs'] using hr

/-- Total correctness: a round keeps the invariant `I` and makes `v` smaller. -/
theorem nested_returns {I : σ → Prop} {v : σ → Nat}
    (hstep : ∀ s, I s → cond s = true → ∃ s', Returns (fun fuel => body fuel s) s' ∧ I s' ∧ v s' < v s) (hs : I s) :
    ∃ s', Returns (fun fuel => nested cond body fuel s) s' ∧ I s' ∧ cond s' = false := by
  induction hv : v s using Nat.strongRecOn generalizing s with
  | ind n ih =>
    cases hc : cond s with
    | false => exact ⟨s, nested_returns_of_not hc, hs, hc⟩
    | true =>
      obtain ⟨s', hb, hs', hlt⟩ := hstep s hs hc
      obtain ⟨r, hr, hIr, hcr⟩ := ih (v s') (by omega) hs' rfl
      exact ⟨r, nested_returns_of_cond hc hb hr, hIr, hcr⟩

end

section

variable {body : σ → Option σ}

theorem loop_steady (cond : σ → Bool) (body : σ → Option σ) (s : σ) : Steady (fun fuel => loop cond body fuel s) := by
  intro fuel r h
  induction fuel generalizing s with
  | zero => cases h
  | succ fuel ih =>
    intro fuel' hfuel
    obtain ⟨fuel', rfl⟩ : ∃ k, fuel' = k + 1 := ⟨fuel' - 1, by omega⟩
    cases hc : cond s with
    | false =>
      simp only [loop, nested_of_not hc] at h ⊢
      exact h
    | true =>
      simp only [loop, nested, hc, if_true] at h ⊢
      obtain ⟨s', hs', hr⟩ := Option.bind_eq_some_iff.1 h
      rw [hs']
      exact ih s' hr fuel' (by omega)

theorem returns_of_not (hc : cond s = false) : Returns (fun fuel => loop cond body fuel s) s := nested_returns_of_not hc

theorem returns_of_cond (hc : cond s = true) (hb : body s = some s')
    (h : Returns (fun fuel => loop cond body fuel s') r) : Returns (fun fuel => loop cond body fuel s) r :=
  nested_returns_of_cond hc ⟨0, fun _ _ => hb⟩ h

/-- A loop that goes through the states `P 0`, `P 1` and so on, and stops at `P k`. -/
theorem returns_path (P : Nat → σ) (k : Nat) (hstep : ∀ i < k, cond (P i) = true ∧ body (P i) = some (P (i + 1)))
    (hend : cond (P k) = false) : Returns (fun fuel => loop cond body fuel (P 0)) (P k) := by
  induction k generalizing P with
  | zero => exact returns_of_not hend
  | succ k ih =>
    obtain ⟨hc, hb⟩ := hstep 0 (by omega)
    have hrest := ih (fun i => P (i + 1)) (fun i hi => hstep (i + 1) (by omega)) hend
    exact returns_of_cond hc hb hrest

/-- A loop whose condition is kept by every round that does not fail. -/
theorem stuck_of_invariant {I : σ → Prop} (hcond : ∀ s, I s → cond s = true)
    (hbody : ∀ s s', I s → body s = some s' → I s') (hs : I s) : Stuck (fun fuel => loop cond body fuel s) := by
  intro fuel
  induction fuel generalizing s with
  | zero => rfl
  | succ fuel ih =>
    simp only [loop, nested, hcond s hs, if_true]
    refine Option.bind_eq_none_iff.2 fun s' hb => ?_
    exact ih (hbody s s' hs hb)

end

end

end While
