import Mathlib.Logic.Function.Basic

/-!
# Weighted round robin

A processor is shared by tasks that take turns.  The task at the head of the queue gets the processor and keeps it for
`max 1 (w a)` ticks, where `w a` is its weight.  When its turn ends, or when it yields, it goes to the tail of the
queue; a task that blocks leaves the queue until it is woken, and comes back at the tail.
-/

/-- The task that has the processor, the ticks that it may still keep it, and the tasks that wait, in order. -/
structure RoundRobin (α : Type) where
  running : Option α
  left : Nat
  waiting : List α

namespace RoundRobin

variable {α : Type}

inductive Event (α : Type) where
  | tick
  | yield
  | block
  | wake (a : α)

/-- After every other event the processor is given to a task, the same as before or another. -/
def Event.isWake : Event α → Bool
  | .wake _ => true
  | _ => false

/-- The head of the queue starts its turn; the tick that starts it is the first of `max 1 (w a)`. -/
def dispatch (w : α → Nat) : List α → Option (RoundRobin α)
  | [] => none
  | a :: l => some ⟨some a, max 1 (w a) - 1, l⟩

/-- `none` means that no task is left. -/
def step (w : α → Nat) (r : RoundRobin α) : Event α → Option (RoundRobin α)
  | .tick =>
    match r.running, r.left with
    | some a, n + 1 => some ⟨some a, n, r.waiting⟩
    | _, _ => dispatch w (r.waiting ++ r.running.toList)
  | .yield => dispatch w (r.waiting ++ r.running.toList)
  | .block => dispatch w r.waiting
  | .wake a => some { r with waiting := r.waiting ++ [a] }

/-- The tasks that the processor is given to in a run, one for each event that is not a wake-up. -/
def trace (w : α → Nat) (r : RoundRobin α) : List (Event α) → List α
  | [] => []
  | ev :: evs =>
    match r.step w ev with
    | none => []
    | some r' => (if ev.isWake then [] else r'.running.toList) ++ trace w r' evs

theorem trace_cons {w : α → Nat} {r r' : RoundRobin α} {ev : Event α} (h : r.step w ev = some r')
    (evs : List (Event α)) :
    r.trace w (ev :: evs) = (if ev.isWake then [] else r'.running.toList) ++ r'.trace w evs := by
  simp only [trace, h]

theorem trace_stuck {w : α → Nat} {r : RoundRobin α} {ev : Event α} (h : r.step w ev = none) (evs : List (Event α)) :
    r.trace w (ev :: evs) = [] := by
  simp only [trace, h]

/-- The number of events that are not wake-ups. -/
def ticks (evs : List (Event α)) : Nat := (evs.filter fun ev => !ev.isWake).length

/-- The tasks that are woken, in order. -/
def woken : List (Event α) → List α
  | [] => []
  | .wake a :: evs => a :: woken evs
  | _ :: evs => woken evs

/-- Ticks and wake-ups alone do not take the processor from a task before its turn is over. -/
theorem trace_slice {w : α → Nat} {a : α} {evs : List (Event α)} {n : Nat} {l : List α}
    (hevs : ∀ ev ∈ evs, ev = .tick ∨ ev.isWake) (hn : ticks evs ≤ n) (rest : List (Event α)) :
    trace w ⟨some a, n, l⟩ (evs ++ rest) =
      List.replicate (ticks evs) a ++ trace w ⟨some a, n - ticks evs, l ++ woken evs⟩ rest := by
  induction evs generalizing n l with
  | nil => simp [woken, ticks]
  | cons ev evs ih =>
    have hevs' : ∀ ev ∈ evs, ev = .tick ∨ ev.isWake := fun ev hev => hevs ev (List.mem_cons_of_mem _ hev)
    rcases hevs ev (List.mem_cons_self ..) with rfl | hwake
    · have hlen : ticks (Event.tick :: evs) = ticks evs + 1 := by simp [ticks, Event.isWake]
      rw [hlen] at hn ⊢
      -- the turn is not over, so the tick only counts down
      obtain ⟨m, rfl⟩ : ∃ m, n = m + 1 := ⟨n - 1, by omega⟩
      have hstep : (⟨some a, m + 1, l⟩ : RoundRobin α).step w .tick = some ⟨some a, m, l⟩ := rfl
      rw [List.cons_append, trace_cons hstep, ih hevs' (by omega), List.replicate_succ, Nat.add_sub_add_right]
      simp [Event.isWake, woken]
    · cases ev with
      | wake b =>
        have hlen : ticks (Event.wake b :: evs) = ticks evs := by simp [ticks, Event.isWake]
        rw [hlen] at hn ⊢
        have hstep : (⟨some a, n, l⟩ : RoundRobin α).step w (.wake b) = some ⟨some a, n, l ++ [b]⟩ := rfl
        rw [List.cons_append, trace_cons hstep, ih hevs' hn]
        simp [Event.isWake, woken]
      | tick => cases hwake
      | yield => cases hwake
      | block => cases hwake

/-- A task that yields and gets the processor back was not followed by another one. -/
theorem yield_same {w : α → Nat} {r r' : RoundRobin α} {a : α} (h : r.step w .yield = some r')
    (hr : r'.running = some a) (ha : a ∉ r.waiting) : r.waiting = [] := by
  simp only [step] at h
  cases hw : r.waiting with
  | nil => rfl
  | cons b l =>
    rw [hw] at h ha
    simp only [List.cons_append, dispatch, Option.some.injEq] at h
    subst h
    have hba : b = a := Option.some.inj hr
    exact absurd (hba ▸ List.mem_cons_self ..) ha

end RoundRobin
