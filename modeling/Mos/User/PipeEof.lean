import Mos.User.PipeRef

/-!
# Which steps make a pipe look closed

`close` and `dup` keep the pipe mapped wherever an end of it is open.  `fork` and `spawn` go through the pages in the
order of their addresses, so that the child has the `Fd` pages before any data: the difference of the counts that
`_pipe_is_closed` looks at is what they have done halfway.
-/

namespace Mos

namespace FdState

variable {ι : Type}

/-! ### Addresses -/

private theorem all_nodup : FdVa.all.Nodup := by decide

private theorem mem_all (va : FdVa) : va ∈ FdVa.all := by
  cases va with
  | fd i => exact List.mem_append_left _ (List.mem_map_of_mem (List.mem_finRange i))
  | data i => exact List.mem_append_right _ (List.mem_map_of_mem (List.mem_finRange i))

private theorem update_fd_data {α : Type} (m : FdVa → α) (i j : Fin MAXFD) (q : α) :
    Function.update m (.fd i) q (.data j) = m (.data j) := Function.update_of_ne (by simp) ..

private theorem update_data_fd {α : Type} (m : FdVa → α) (i j : Fin MAXFD) (q : α) :
    Function.update m (.data i) q (.fd j) = m (.fd j) := Function.update_of_ne (by simp) ..

/-! ### Invariants -/

/-- What holds of an environment that runs: an open end has the pipe. -/
structure EnvInv (m : FdVa → Option FdPage) (o : Option (FdOp ι)) : Prop where
  fdPage : ∀ i, m (.fd i) ≠ some .pipe
  dataPage : ∀ i side, m (.data i) ≠ some (.fd side)
  whole : ∀ i side, m (.fd i) = some (.fd side) → m (.data i) = some .pipe
  closeData : ∀ i old, o = some (.closeData i old) → m (.fd i) = none
  dupData : ∀ old new, o = some (.dupData old new) → m (.fd new) = none
  dupFd : ∀ old new p, o = some (.dupFd old new) → m (.data old) = some p → m (.data new) = some p

/-- What holds of a child that gets its pages: it has what it is due, and nothing else. -/
structure Copying (s : FdState ι) (e c : ι) (left : List FdVa) : Prop where
  parent : s.status e = .RUNNABLE
  child : s.status c = .NOT_RUNNABLE
  suffix : left <:+ FdVa.all
  done : ∀ va, va ∉ left → s.map c va = s.map e va
  due : ∀ va, va ∈ left → s.map c va = none

structure FdInv (s : FdState ι) : Prop where
  own : ∀ e, s.status e = .RUNNABLE → EnvInv (s.map e) (s.op e)
  free : ∀ e, s.status e = .FREE → ∀ va, s.map e va = none
  busy : ∀ e, s.status e ≠ .RUNNABLE → s.op e = none
  child : ∀ c, s.status c = .NOT_RUNNABLE → ∃ e spawn left, s.op e = some (.copy spawn c left)
  copying : ∀ e spawn c left, s.op e = some (.copy spawn c left) → Copying s e c left
  one : ∀ e e' spawn spawn' c left left', s.op e = some (.copy spawn c left) → s.op e' = some (.copy spawn' c left') →
    e = e'

/-- `fork` always has the memory for its mappings. -/
def admits (s : FdState ι) : FdEvent ι → Bool
  | .syscall e ok => match s.op e with
    | some (.copy false _ _) => ok
    | _ => true
  | _ => true

/-! ### One environment -/

namespace EnvInv

variable {m : FdVa → Option FdPage} {o o' : Option (FdOp ι)} {i old new : Fin MAXFD} {p : FdPage}

/-- The next call asks for nothing that is not known. -/
private theorem setOp (h : EnvInv m o) (hclose : ∀ i old, o' = some (.closeData i old) → m (.fd i) = none)
    (hdup : ∀ old new, o' = some (.dupData old new) → m (.fd new) = none)
    (hfd : ∀ old new p, o' = some (.dupFd old new) → m (.data old) = some p → m (.data new) = some p) :
    EnvInv m o' :=
  ⟨h.fdPage, h.dataPage, h.whole, hclose, hdup, hfd⟩

/-- A call that begins to close, or ends. -/
private theorem closeFd {k : Option (Fin MAXFD)} (h : EnvInv m o) : EnvInv m (some (.closeFd i k) : Option (FdOp ι)) :=
  h.setOp nofun nofun nofun

private theorem unmapFd {k : Option (Fin MAXFD)} (h : EnvInv m o) :
    EnvInv (Function.update m (.fd i) none) (some (.closeData i k) : Option (FdOp ι)) := by
  refine ⟨?_, ?_, ?_, ?_, nofun, nofun⟩
  · intro j
    by_cases hj : j = i
    · rw [hj, Function.update_self]
      exact nofun
    · rw [Function.update_of_ne (by simpa using hj)]
      exact h.fdPage j
  · intro j side
    rw [update_fd_data]
    exact h.dataPage j side
  · intro j side hj
    by_cases heq : j = i
    · rw [heq, Function.update_self] at hj
      cases hj
    · rw [Function.update_of_ne (by simpa using heq)] at hj
      rw [update_fd_data]
      exact h.whole j side hj
  · intro j old' hj
    cases hj
    exact Function.update_self ..

/-- The data goes where the `Fd` page is not mapped. -/
private theorem setData {q : Option FdPage} (h : EnvInv m o) (hfd : m (.fd i) = none) (hq : ∀ side, q ≠ some (.fd side))
    (hdup : ∀ old new, o' = some (.dupData old new) → m (.fd new) = none)
    (hnext : ∀ old new p, o' = some (.dupFd old new) → Function.update m (.data i) q (.data old) = some p →
      Function.update m (.data i) q (.data new) = some p)
    (hclose : ∀ i old, o' = some (.closeData i old) → m (.fd i) = none) :
    EnvInv (Function.update m (.data i) q) o' := by
  refine ⟨?_, ?_, ?_, ?_, ?_, hnext⟩
  · intro j
    rw [update_data_fd]
    exact h.fdPage j
  · intro j side
    by_cases hj : j = i
    · rw [hj, Function.update_self]
      exact hq side
    · rw [Function.update_of_ne (by simpa using hj)]
      exact h.dataPage j side
  · intro j side hj
    rw [update_data_fd] at hj
    by_cases heq : j = i
    · rw [heq, hfd] at hj
      cases hj
    · rw [Function.update_of_ne (by simpa using heq)]
      exact h.whole j side hj
  · intro j k hj
    rw [update_data_fd]
    exact hclose j k hj
  · intro j k hj
    rw [update_data_fd]
    exact hdup j k hj

private theorem mapFd (h : EnvInv m (some (.dupFd old new) : Option (FdOp ι))) (hp : m (.fd old) = some p) :
    EnvInv (Function.update m (.fd new) (some p)) (none : Option (FdOp ι)) := by
  refine ⟨?_, ?_, ?_, nofun, nofun, nofun⟩
  · intro j
    by_cases hj : j = new
    · rw [hj, Function.update_self, ← hp]
      exact h.fdPage old
    · rw [Function.update_of_ne (by simpa using hj)]
      exact h.fdPage j
  · intro j side
    rw [update_fd_data]
    exact h.dataPage j side
  · intro j side hj
    rw [update_fd_data]
    by_cases heq : j = new
    · rw [heq, Function.update_self, ← hp] at hj
      rw [heq]
      exact h.dupFd old new .pipe rfl (h.whole old side hj)
    · rw [Function.update_of_ne (by simpa using heq)] at hj
      exact h.whole j side hj

end EnvInv

/-! ### All environments -/

variable {s s' : FdState ι} {e c : ι} {spawn : Bool} {va : FdVa} {left : List FdVa}

private theorem FdInv.runnable (h : FdInv s) {o : FdOp ι} (hop : s.op e = some o) : s.status e = .RUNNABLE := by
  by_contra hne
  rw [h.busy e hne] at hop
  cases hop

/-- What a child has, its parent has. -/
private theorem FdInv.map_eq (h : FdInv s) (e : ι) (va : FdVa) :
    s.map e va = none ∨ ∃ e', s.status e' = .RUNNABLE ∧ s.map e va = s.map e' va := by
  cases hst : s.status e with
  | RUNNABLE => exact .inr ⟨e, hst, rfl⟩
  | FREE => exact .inl (h.free e hst va)
  | NOT_RUNNABLE =>
    obtain ⟨e', spawn, left, hop⟩ := h.child e hst
    have hcp := h.copying _ _ _ _ hop
    by_cases hleft : va ∈ left
    · exact .inl (hcp.due va hleft)
    · exact .inr ⟨e', hcp.parent, hcp.done va hleft⟩

private theorem FdInv.fdPage (h : FdInv s) (e : ι) (i : Fin MAXFD) : s.map e (.fd i) ≠ some .pipe := by
  rcases h.map_eq e (.fd i) with hnone | ⟨e', hrun, heq⟩
  · rw [hnone]
    exact nofun
  · rw [heq]
    exact (h.own e' hrun).fdPage i

private theorem FdInv.dataPage (h : FdInv s) (e : ι) (i : Fin MAXFD) (side : PipeEnd) :
    s.map e (.data i) ≠ some (.fd side) := by
  rcases h.map_eq e (.data i) with hnone | ⟨e', hrun, heq⟩
  · rw [hnone]
    exact nofun
  · rw [heq]
    exact (h.own e' hrun).dataPage i side

/-- A child whose `fork` or `spawn` is halfway with a descriptor. -/
private theorem FdInv.halfway_child (h : FdInv s) {side : PipeEnd} {i : Fin MAXFD} (hx : s.halfway side (e, i) = true) :
    ∃ spawn c left, s.op e = some (.copy spawn c left) ∧ s.map c (.fd i) = some (.fd side) ∧ s.map c (.data i) = none := by
  unfold halfway at hx
  split at hx
  case h_1 spawn c left hop =>
    have hcp := h.copying _ _ _ _ hop
    simp only [Bool.and_eq_true, decide_eq_true_eq] at hx
    obtain ⟨⟨hdata, hfd⟩, hmap⟩ := hx
    refine ⟨spawn, c, left, hop, ?_, hcp.due _ hdata⟩
    rw [hcp.done _ hfd]
    exact hmap
  case h_2 => cases hx

/-- Where an end is without the pipe, a `fork` or `spawn` is halfway. -/
private theorem FdInv.halfway_parent (h : FdInv s) {side : PipeEnd} {i : Fin MAXFD}
    (hfd : s.map c (.fd i) = some (.fd side))
    (hdata : s.map c (.data i) ≠ some .pipe) :
    ∃ e spawn left, s.op e = some (.copy spawn c left) ∧ s.halfway side (e, i) = true := by
  cases hst : s.status c with
  | RUNNABLE => exact absurd ((h.own c hst).whole i side hfd) hdata
  | FREE =>
    rw [h.free c hst] at hfd
    cases hfd
  | NOT_RUNNABLE =>
    obtain ⟨e, spawn, left, hop⟩ := h.child c hst
    have hcp := h.copying _ _ _ _ hop
    have hnfd : FdVa.fd i ∉ left := by
      intro hmem
      rw [hcp.due _ hmem] at hfd
      cases hfd
    have hmap : s.map e (.fd i) = some (.fd side) := by
      rw [← hcp.done _ hnfd]
      exact hfd
    have hleft : FdVa.data i ∈ left := by
      by_contra hnot
      apply hdata
      rw [hcp.done _ hnot]
      exact (h.own e hcp.parent).whole i side hmap
    refine ⟨e, spawn, left, hop, ?_⟩
    unfold halfway
    rw [hop]
    simp [hleft, hnfd, hmap]

/-- The environment that gets pages from `e`. -/
def childOf (s : FdState ι) (e : ι) : ι :=
  match s.op e with
  | some (.copy _ c _) => c
  | _ => e

private theorem childOf_eq (hop : s.op e = some (.copy spawn c left)) : s.childOf e = c := by
  unfold childOf
  rw [hop]

private theorem idle_iff : s.idle e = true ↔ s.status e = .RUNNABLE ∧ s.op e = none := by
  simp [idle]

/-! ### Counting -/

section Counting

variable [Fintype ι] {side : PipeEnd}

namespace FdInv

/-- The descriptors without the pipe are those that a `fork` or `spawn` is halfway with. -/
private theorem card_halfway (h : FdInv s) :
    (Finset.univ.filter fun x : ι × Fin MAXFD => s.halfway side x = true).card =
      (Finset.univ.filter fun x : ι × Fin MAXFD =>
        s.map x.1 (.fd x.2) = some (.fd side) ∧ s.map x.1 (.data x.2) ≠ some .pipe).card := by
  apply Finset.card_bij fun x _ => (s.childOf x.1, x.2)
  · rintro ⟨e, i⟩ hx
    rw [Finset.mem_filter] at hx
    obtain ⟨spawn, c, left, hop, hfd, hdata⟩ := h.halfway_child hx.2
    rw [Finset.mem_filter, childOf_eq hop, hdata]
    exact ⟨Finset.mem_univ _, hfd, nofun⟩
  · rintro ⟨e, i⟩ hx ⟨e', i'⟩ hx' heq
    rw [Finset.mem_filter] at hx hx'
    obtain ⟨spawn, c, left, hop, -, -⟩ := h.halfway_child hx.2
    obtain ⟨spawn', c', left', hop', -, -⟩ := h.halfway_child hx'.2
    rw [childOf_eq hop, childOf_eq hop', Prod.mk.injEq] at heq
    obtain ⟨rfl, rfl⟩ := heq
    rw [h.one _ _ _ _ _ _ _ hop hop']
  · rintro ⟨c, i⟩ hx
    rw [Finset.mem_filter] at hx
    obtain ⟨e, spawn, left, hop, hhalf⟩ := h.halfway_parent hx.2.1 hx.2.2
    refine ⟨(e, i), ?_, ?_⟩
    · rw [Finset.mem_filter]
      exact ⟨Finset.mem_univ _, hhalf⟩
    · rw [childOf_eq hop]

/-- The count of the `Fd` pages of an end: with the pipe and without. -/
private theorem pageref_fd (h : FdInv s) :
    s.pageref (.fd side) =
      (Finset.univ.filter fun x : ι × Fin MAXFD =>
        s.map x.1 (.fd x.2) = some (.fd side) ∧ s.map x.1 (.data x.2) = some .pipe).card +
      (Finset.univ.filter fun x : ι × Fin MAXFD => s.halfway side x = true).card := by
  have hdata : (Finset.univ.filter fun x : ι × Fin MAXFD => s.map x.1 (.data x.2) = some (.fd side)) = ∅ :=
    Finset.filter_eq_empty_iff.2 fun x _ => h.dataPage x.1 x.2 side
  rw [h.card_halfway, pageref, hdata, Finset.card_empty, Nat.add_zero, ← Finset.filter_filter, ← Finset.filter_filter]
  exact (Finset.card_filter_add_card_filter_not ..).symm

/-- The count of the pipe: for the end and besides. -/
private theorem pageref_pipe (h : FdInv s) (side : PipeEnd) :
    s.pageref .pipe =
      (Finset.univ.filter fun x : ι × Fin MAXFD =>
        s.map x.1 (.fd x.2) = some (.fd side) ∧ s.map x.1 (.data x.2) = some .pipe).card +
      (Finset.univ.filter fun x : ι × Fin MAXFD => s.beside side x = true).card := by
  have hfd : (Finset.univ.filter fun x : ι × Fin MAXFD => s.map x.1 (.fd x.2) = some .pipe) = ∅ :=
    Finset.filter_eq_empty_iff.2 fun x _ => h.fdPage x.1 x.2
  have hbeside : (Finset.univ.filter fun x : ι × Fin MAXFD => s.beside side x = true) =
      Finset.univ.filter fun x : ι × Fin MAXFD =>
        s.map x.1 (.data x.2) = some .pipe ∧ ¬ s.map x.1 (.fd x.2) = some (.fd side) :=
    Finset.filter_congr fun x _ => by simp [beside]
  have hcomm : (Finset.univ.filter fun x : ι × Fin MAXFD =>
        s.map x.1 (.fd x.2) = some (.fd side) ∧ s.map x.1 (.data x.2) = some .pipe) =
      Finset.univ.filter fun x : ι × Fin MAXFD =>
        s.map x.1 (.data x.2) = some .pipe ∧ s.map x.1 (.fd x.2) = some (.fd side) :=
    Finset.filter_congr fun x _ => And.comm
  rw [hbeside, hcomm, pageref, hfd, Finset.card_empty, Nat.zero_add, ← Finset.filter_filter, ← Finset.filter_filter]
  exact (Finset.card_filter_add_card_filter_not ..).symm

end FdInv

end Counting

/-! ### Steps -/

variable [DecidableEq ι]

/-- A step of an environment that concerns itself only. -/
def setEnv (s : FdState ι) (e : ι) (m : FdVa → Option FdPage) (o : Option (FdOp ι)) : FdState ι :=
  ⟨Function.update s.map e m, s.status, Function.update s.op e o⟩

private theorem setOp_eq (o : Option (FdOp ι)) : s.setOp e o = s.setEnv e (s.map e) o := by
  unfold setOp setEnv
  rw [Function.update_eq_self]

namespace FdInv

/-- A step of `close` or `dup`. -/
private theorem setEnv (h : FdInv s) (hrun : s.status e = .RUNNABLE) {m : FdVa → Option FdPage} {o : Option (FdOp ι)}
    (hop : ∀ spawn c left, s.op e ≠ some (.copy spawn c left)) (ho : ∀ spawn c left, o ≠ some (.copy spawn c left))
    (hinv : EnvInv m o) : FdInv (s.setEnv e m o) := by
  have hcopy : ∀ {e' c spawn left}, (s.setEnv e m o).op e' = some (.copy spawn c left) →
      e' ≠ e ∧ s.op e' = some (.copy spawn c left) := by
    intro e' c spawn left he'
    by_cases heq : e' = e
    · rw [heq] at he'
      change Function.update s.op e o e = _ at he'
      rw [Function.update_self] at he'
      exact absurd he' (ho _ _ _)
    · change Function.update s.op e o e' = _ at he'
      rw [Function.update_of_ne heq] at he'
      exact ⟨heq, he'⟩
  -- `e` copies nothing, neither before nor after, so that the copies in progress are those of others.
  refine ⟨?_, ?_, ?_, ?_, ?_, ?_⟩
  · intro x hx
    by_cases heq : x = e
    · rw [heq]
      show EnvInv (Function.update s.map e m e) (Function.update s.op e o e)
      rw [Function.update_self, Function.update_self]
      exact hinv
    · show EnvInv (Function.update s.map e m x) (Function.update s.op e o x)
      rw [Function.update_of_ne heq, Function.update_of_ne heq]
      exact h.own x hx
  · intro x hx va
    have hne : x ≠ e := by
      intro heq
      rw [heq] at hx
      cases hrun.symm.trans hx
    show Function.update s.map e m x va = none
    rw [Function.update_of_ne hne]
    exact h.free x hx va
  · intro x hx
    have hne : x ≠ e := fun heq => hx (heq ▸ hrun)
    show Function.update s.op e o x = none
    rw [Function.update_of_ne hne]
    exact h.busy x hx
  · intro x hx
    obtain ⟨e', spawn, left, he'⟩ := h.child x hx
    have hne : e' ≠ e := fun heq => hop _ _ _ (heq ▸ he')
    refine ⟨e', spawn, left, ?_⟩
    show Function.update s.op e o e' = _
    rw [Function.update_of_ne hne]
    exact he'
  · intro e' spawn c left he'
    obtain ⟨hne, hold⟩ := hcopy he'
    have hc := h.copying _ _ _ _ hold
    have hce : c ≠ e := by
      intro heq
      rw [heq] at hc
      cases hrun.symm.trans hc.child
    refine ⟨hc.parent, hc.child, hc.suffix, ?_, ?_⟩
    · intro va hva
      show Function.update s.map e m c va = Function.update s.map e m e' va
      rw [Function.update_of_ne hce, Function.update_of_ne hne]
      exact hc.done va hva
    · intro va hva
      show Function.update s.map e m c va = none
      rw [Function.update_of_ne hce]
      exact hc.due va hva
  · intro e₁ e₂ sp₁ sp₂ c l₁ l₂ h₁ h₂
    exact h.one _ _ _ _ _ _ _ (hcopy h₁).2 (hcopy h₂).2

/-- A step of `fork` or `spawn`: `e` is the parent, and `c` the only child that it works on. -/
private theorem setChild (h : FdInv s) (hrun : s.status e = .RUNNABLE) (hc : s.status c ≠ .RUNNABLE)
    (hold : ∀ e' spawn left, s.op e' = some (.copy spawn c left) → e' = e)
    (honly : ∀ spawn c' left, s.op e = some (.copy spawn c' left) → c' = c) {m : FdVa → Option FdPage}
    {k : EnvStatus} {o : Option (FdOp ι)} (hown : k = .RUNNABLE → EnvInv m (none : Option (FdOp ι)))
    (hfree : k = .FREE → ∀ va, m va = none) (hnot : k = .NOT_RUNNABLE → ∃ spawn left, o = some (.copy spawn c left))
    (ho : ∀ spawn c' left, o = some (.copy spawn c' left) → c' = c ∧ k = .NOT_RUNNABLE ∧ left <:+ FdVa.all ∧
      (∀ va, va ∉ left → m va = s.map e va) ∧ ∀ va, va ∈ left → m va = none)
    (he : EnvInv (s.map e) o) :
    FdInv ⟨Function.update s.map c m, Function.update s.status c k, Function.update s.op e o⟩ := by
  have hce : c ≠ e := fun heq => hc (heq ▸ hrun)
  have hopc : s.op c = none := h.busy c hc
  -- A copy in progress is that of `e`, into `c`, or one of others that has nothing to do with the two.
  have hcopy : ∀ {e' c' spawn left}, Function.update s.op e o e' = some (.copy spawn c' left) →
      (e' = e ∧ o = some (.copy spawn c' left)) ∨ (e' ≠ e ∧ c' ≠ c ∧ s.op e' = some (.copy spawn c' left)) := by
    intro e' c' spawn left he'
    by_cases heq : e' = e
    · rw [heq, Function.update_self] at he'
      exact .inl ⟨heq, he'⟩
    · rw [Function.update_of_ne heq] at he'
      exact .inr ⟨heq, fun hcc => heq (hold e' spawn left (hcc ▸ he')), he'⟩
  refine ⟨?_, ?_, ?_, ?_, ?_, ?_⟩
  · intro x hx
    change Function.update s.status c k x = _ at hx
    show EnvInv (Function.update s.map c m x) (Function.update s.op e o x)
    by_cases hxc : x = c
    · rw [hxc, Function.update_self] at hx
      rw [hxc, Function.update_self, Function.update_of_ne hce, hopc]
      exact hown hx
    · rw [Function.update_of_ne hxc] at hx
      rw [Function.update_of_ne hxc]
      by_cases hxe : x = e
      · rw [hxe, Function.update_self]
        exact he
      · rw [Function.update_of_ne hxe]
        exact h.own x hx
  · intro x hx va
    change Function.update s.status c k x = _ at hx
    show Function.update s.map c m x va = none
    by_cases hxc : x = c
    · rw [hxc, Function.update_self] at hx
      rw [hxc, Function.update_self]
      exact hfree hx va
    · rw [Function.update_of_ne hxc] at hx
      rw [Function.update_of_ne hxc]
      exact h.free x hx va
  · intro x hx
    change Function.update s.status c k x ≠ _ at hx
    show Function.update s.op e o x = none
    by_cases hxc : x = c
    · rw [hxc, Function.update_of_ne hce]
      exact hopc
    · rw [Function.update_of_ne hxc] at hx
      have hne : x ≠ e := fun heq => hx (heq ▸ hrun)
      rw [Function.update_of_ne hne]
      exact h.busy x hx
  · intro x hx
    change Function.update s.status c k x = _ at hx
    by_cases hxc : x = c
    · rw [hxc, Function.update_self] at hx
      obtain ⟨spawn, left, hsome⟩ := hnot hx
      refine ⟨e, spawn, left, ?_⟩
      show Function.update s.op e o e = _
      rw [Function.update_self, hxc]
      exact hsome
    · rw [Function.update_of_ne hxc] at hx
      obtain ⟨e', spawn, left, he'⟩ := h.child x hx
      have hne : e' ≠ e := fun heq => hxc (honly spawn x left (heq ▸ he'))
      refine ⟨e', spawn, left, ?_⟩
      show Function.update s.op e o e' = _
      rw [Function.update_of_ne hne]
      exact he'
  · intro e' spawn c' left he'
    rcases hcopy he' with ⟨rfl, hsome⟩ | ⟨hne, hcc, hsome⟩
    · obtain ⟨rfl, hst, hsuf, hdone, hdue⟩ := ho spawn c' left hsome
      refine ⟨?_, ?_, hsuf, ?_, ?_⟩
      · show Function.update s.status c' k e' = _
        rw [Function.update_of_ne hce.symm]
        exact hrun
      · show Function.update s.status c' k c' = _
        rw [Function.update_self]
        exact hst
      · intro va hva
        show Function.update s.map c' m c' va = Function.update s.map c' m e' va
        rw [Function.update_self, Function.update_of_ne hce.symm]
        exact hdone va hva
      · intro va hva
        show Function.update s.map c' m c' va = none
        rw [Function.update_self]
        exact hdue va hva
    · have hcp := h.copying e' spawn c' left hsome
      have hec : e' ≠ c := fun heq => hc (heq ▸ hcp.parent)
      refine ⟨?_, ?_, hcp.suffix, ?_, ?_⟩
      · show Function.update s.status c k e' = _
        rw [Function.update_of_ne hec]
        exact hcp.parent
      · show Function.update s.status c k c' = _
        rw [Function.update_of_ne hcc]
        exact hcp.child
      · intro va hva
        show Function.update s.map c m c' va = Function.update s.map c m e' va
        rw [Function.update_of_ne hcc, Function.update_of_ne hec]
        exact hcp.done va hva
      · intro va hva
        show Function.update s.map c m c' va = none
        rw [Function.update_of_ne hcc]
        exact hcp.due va hva
  · intro e₁ e₂ sp₁ sp₂ c' l₁ l₂ h₁ h₂
    rcases hcopy h₁ with ⟨rfl, hs₁⟩ | ⟨_, hcc₁, hs₁⟩
    · rcases hcopy h₂ with ⟨rfl, _⟩ | ⟨_, hcc₂, _⟩
      · rfl
      · exact absurd (ho _ _ _ hs₁).1 hcc₂
    · rcases hcopy h₂ with ⟨rfl, hs₂⟩ | ⟨_, _, hs₂⟩
      · exact absurd (ho _ _ _ hs₂).1 hcc₁
      · exact h.one _ _ _ _ _ _ _ hs₁ hs₂

/-! ### The functions -/

private theorem close (h : FdInv s) {i : Fin MAXFD} (hs : s.close e i = some s') : FdInv s' := by
  obtain ⟨⟨hidle, _⟩, hs⟩ := Option.ite_none_right_eq_some.1 hs
  obtain ⟨hrun, hop⟩ := idle_iff.1 hidle
  obtain rfl := Option.some.inj hs
  rw [setOp_eq]
  exact h.setEnv hrun (by rw [hop]; exact nofun) nofun (h.own e hrun).closeFd

private theorem dup (h : FdInv s) {old new : Fin MAXFD} (hs : s.dup e old new = some s') : FdInv s' := by
  obtain ⟨⟨hidle, _⟩, hs⟩ := Option.ite_none_right_eq_some.1 hs
  obtain ⟨hrun, hop⟩ := idle_iff.1 hidle
  obtain rfl := Option.some.inj hs
  rw [setOp_eq]
  by_cases hnew : (s.map e (.fd new)).isSome
  · rw [if_pos hnew]
    exact h.setEnv hrun (by rw [hop]; exact nofun) nofun (h.own e hrun).closeFd
  · rw [if_neg hnew]
    refine h.setEnv hrun (by rw [hop]; exact nofun) nofun ((h.own e hrun).setOp nofun ?_ nofun)
    intro old' new' heq
    cases heq
    exact Option.not_isSome_iff_eq_none.1 hnew

private theorem copy (h : FdInv s) (hs : s.copy e spawn c = some s') : FdInv s' := by
  obtain ⟨⟨hidle, hfree⟩, hs⟩ := Option.ite_none_right_eq_some.1 hs
  obtain ⟨hrun, hop⟩ := idle_iff.1 hidle
  obtain rfl := Option.some.inj hs
  have hc : s.status c ≠ .RUNNABLE := by
    rw [hfree]
    exact nofun
  have hnew := h.setChild (c := c) (m := s.map c) (k := .NOT_RUNNABLE) (o := some (.copy spawn c FdVa.all)) hrun hc
    ?_ ?_ nofun nofun (fun _ => ⟨spawn, _, rfl⟩) ?_ ((h.own e hrun).setOp nofun nofun nofun)
  · rw [Function.update_eq_self] at hnew
    exact hnew
  · intro e' spawn' left' he'
    have hchild := (h.copying _ _ _ _ he').child
    rw [hfree] at hchild
    cases hchild
  · intro spawn' c' left' he
    rw [hop] at he
    cases he
  · intro spawn' c' left' heq
    cases heq
    exact ⟨rfl, rfl, List.suffix_refl _, fun va hva => absurd (mem_all va) hva, fun va _ => h.free c hfree va⟩

/-- The child gets a page, if the parent has it. -/
private theorem advance (h : FdInv s) (hop : s.op e = some (.copy spawn c (va :: left))) :
    FdInv ((s.setMap c va (s.map e va)).setOp e (some (.copy spawn c left))) := by
  have hcp := h.copying _ _ _ _ hop
  have hc : s.status c ≠ .RUNNABLE := by
    rw [hcp.child]
    exact nofun
  have hnodup := (hcp.suffix.sublist.nodup all_nodup)
  have hnew := h.setChild (c := c) (m := Function.update (s.map c) va (s.map e va)) (k := .NOT_RUNNABLE)
    (o := some (.copy spawn c left)) hcp.parent hc ?_ ?_ nofun nofun (fun _ => ⟨spawn, _, rfl⟩) ?_
    ((h.own e hcp.parent).setOp nofun nofun nofun)
  · rw [← hcp.child, Function.update_eq_self] at hnew
    exact hnew
  · intro e' spawn' left' he'
    exact h.one _ _ _ _ _ _ _ he' hop
  · intro spawn' c' left' he
    rw [hop] at he
    cases he
    rfl
  · intro spawn' c' left' heq
    cases heq
    refine ⟨rfl, rfl, (List.suffix_cons va left).trans hcp.suffix, ?_, ?_⟩
    · intro va' hva'
      by_cases hv : va' = va
      · rw [hv, Function.update_self]
      · rw [Function.update_of_ne hv]
        exact hcp.done va' (by simp [hv, hva'])
    · intro va' hva'
      have hv : va' ≠ va := by
        intro heq
        rw [heq] at hva'
        exact (List.nodup_cons.1 hnodup).1 hva'
      rw [Function.update_of_ne hv]
      exact hcp.due va' (List.mem_cons_of_mem _ hva')

private theorem share (h : FdInv s) {ok : Bool} (hop : s.op e = some (.copy spawn c (va :: left)))
    (hok : spawn = false → ok = true) : FdInv (s.share e spawn c va left ok) := by
  have hcp := h.copying _ _ _ _ hop
  have hadv := h.advance hop
  unfold FdState.share
  cases hp : s.map e va with
  | none =>
    have hsame : s.setMap c va (s.map e va) = s := by
      unfold setMap
      rw [hp, ← hcp.due va List.mem_cons_self, Function.update_eq_self, Function.update_eq_self]
    rw [hsame] at hadv
    exact hadv
  | some p =>
    rw [hp] at hadv
    cases ok with
    | true => exact hadv
    | false =>
      have hsp : spawn = true := by
        by_contra hne
        cases hok (Bool.eq_false_iff.2 hne)
      rw [hsp]
      have hc : s.status c ≠ .RUNNABLE := by
        rw [hcp.child]
        exact nofun
      refine h.setChild (m := fun _ => none) (k := .FREE) (o := none) hcp.parent hc ?_ ?_ nofun (fun _ _ => rfl) nofun
        nofun ((h.own e hcp.parent).setOp nofun nofun nofun)
      · intro e' spawn' left' he'
        exact h.one _ _ _ _ _ _ _ he' hop
      · intro spawn' c' left' he
        rw [hop] at he
        cases he
        rfl

/-- The child has everything, and runs. -/
private theorem finish (h : FdInv s) (hop : s.op e = some (.copy spawn c [])) :
    FdInv ((s.setStatus c .RUNNABLE).setOp e none) := by
  have hcp := h.copying _ _ _ _ hop
  have hc : s.status c ≠ .RUNNABLE := by
    rw [hcp.child]
    exact nofun
  have hsame : s.map c = s.map e := funext fun va => hcp.done va List.not_mem_nil
  have hown : EnvInv (s.map e) (none : Option (FdOp ι)) := (h.own e hcp.parent).setOp nofun nofun nofun
  have hnew := h.setChild (c := c) (m := s.map c) (k := .RUNNABLE) (o := none) hcp.parent hc ?_ ?_
    (fun _ => by rw [hsame]; exact hown) nofun nofun nofun hown
  · rw [Function.update_eq_self] at hnew
    exact hnew
  · intro e' spawn' left' he'
    exact h.one _ _ _ _ _ _ _ he' hop
  · intro spawn' c' left' he
    rw [hop] at he
    cases he
    rfl

/-- The error path of `dup`. -/
private theorem dupFail (h : FdInv s) {o : FdOp ι} {new : Fin MAXFD} (hop : s.op e = some o)
    (ho : ∀ spawn c left, o ≠ .copy spawn c left) : FdInv (s.setOp e (some (.closeFd new none))) := by
  have hrun := h.runnable hop
  rw [setOp_eq]
  refine h.setEnv hrun ?_ nofun (h.own e hrun).closeFd
  intro spawn c left heq
  exact ho spawn c left (Option.some.inj (hop.symm.trans heq))

private theorem syscall (h : FdInv s) {ok : Bool} (hok : s.admits (.syscall e ok)) (hs : s.syscall e ok = some s') :
    FdInv s' := by
  obtain ⟨o, hop, hs⟩ := Option.map_eq_some_iff.1 hs
  have hrun := h.runnable hop
  have hinv := h.own e hrun
  rw [hop] at hinv
  cases o with
  | closeFd i old =>
    obtain rfl := hs
    exact h.setEnv hrun (by rw [hop]; exact nofun) nofun hinv.unmapFd
  | closeData i old =>
    obtain rfl := hs
    have hfd := hinv.closeData i old rfl
    refine h.setEnv hrun (by rw [hop]; exact nofun) (by cases old <;> exact nofun) (hinv.setData hfd nofun ?_ ?_ ?_)
    · intro old' new' heq
      cases old with
      | none => cases heq
      | some k =>
        cases heq
        exact hfd
    · intro old' new' p heq
      cases old <;> cases heq
    · intro i' k heq
      cases old <;> cases heq
  -- In `dup` the data page goes first, so that a failure leaves only a descriptor to close.
  | dupData old new =>
    dsimp only at hs
    have hclose : FdInv (s.setOp e (some (.closeFd new none))) := h.dupFail hop nofun
    have hfd := hinv.dupData old new rfl
    cases hp : s.map e (.data old) with
    | none =>
      rw [hp] at hs
      obtain rfl := hs
      rw [setOp_eq]
      refine h.setEnv hrun (by rw [hop]; exact nofun) nofun (hinv.setOp nofun nofun ?_)
      intro old' new' p heq hp'
      cases heq
      rw [hp] at hp'
      cases hp'
    | some p =>
      rw [hp] at hs
      cases ok with
      | false =>
        obtain rfl := hs
        exact hclose
      | true =>
        obtain rfl := hs
        refine h.setEnv hrun (by rw [hop]; exact nofun) nofun (hinv.setData hfd ?_ nofun ?_ nofun)
        · intro side
          rw [← hp]
          exact hinv.dataPage old side
        · intro old' new' p' heq hp'
          cases heq
          rw [Function.update_self]
          by_cases hon : old = new
          · rw [hon, Function.update_self] at hp'
            exact hp'
          · rw [Function.update_of_ne (by simpa using hon), hp] at hp'
            exact hp'
  | dupFd old new =>
    dsimp only at hs
    have hclose : FdInv (s.setOp e (some (.closeFd new none))) := h.dupFail hop nofun
    cases hp : s.map e (.fd old) with
    | none =>
      rw [hp] at hs
      obtain rfl := hs
      exact hclose
    | some p =>
      rw [hp] at hs
      cases ok with
      | false =>
        obtain rfl := hs
        exact hclose
      | true =>
        obtain rfl := hs
        exact h.setEnv hrun (by rw [hop]; exact nofun) nofun (hinv.mapFd hp)
  | copy spawn c left =>
    cases left with
    | nil =>
      obtain rfl := hs
      exact h.finish hop
    | cons va left =>
      obtain rfl := hs
      refine h.share hop fun hsp => ?_
      dsimp only [admits] at hok
      rw [hop, hsp] at hok
      exact hok

private theorem step (h : FdInv s) {ev : FdEvent ι} (hok : s.admits ev) (hs : s.step ev = some s') : FdInv s' := by
  cases ev with
  | close e i => exact h.close hs
  | dup e old new => exact h.dup hs
  | copy e spawn c => exact h.copy hs
  | syscall e ok => exact h.syscall hok hs

private theorem start {others : ι → FdVa → Option Nat} {alive : ι → Bool} {i j : Fin MAXFD}
    (he : alive e = true) : FdInv (FdState.start others alive e i j) := by
  refine ⟨?_, ?_, fun _ _ => rfl, ?_, nofun, nofun⟩
  · intro x _
    refine ⟨?_, ?_, ?_, nofun, nofun, nofun⟩
    · intro k
      simp only [FdState.start]
      split_ifs <;> simp_all
    · intro k side
      simp only [FdState.start]
      split_ifs <;> simp_all
    · intro k side hk
      simp only [FdState.start] at hk ⊢
      split_ifs at hk ⊢ <;> simp_all
  · intro x hx va
    simp only [FdState.start] at hx ⊢
    split_ifs at hx ⊢ <;> simp_all
  · intro x hx
    simp only [FdState.start] at hx
    split_ifs at hx

end FdInv

private theorem fdInv (h : (pipeRef ι).Reach (fun s ev => s.admits ev) s) : FdInv s := by
  induction h with
  | start h =>
    obtain ⟨others, alive, e, i, j, _, he, rfl⟩ := h
    exact .start he
  | next _ hok hs ih => exact ih.step hok hs

/-! ### Every run -/

variable [Fintype ι] {side : PipeEnd}

omit [DecidableEq ι] in
private theorem FdInv.eofOk_iff_card (hinv : FdInv s) : s.EofOk side ↔ (s.IsOpen side.opposite →
    (Finset.univ.filter fun x => s.halfway side x = true).card <
      (Finset.univ.filter fun x => s.beside side x = true).card) := by
  have hfd : s.pageref (.fd side) = _ := hinv.pageref_fd
  have hpipe := hinv.pageref_pipe side
  constructor
  · intro hok hopen
    have hlt := (hok hopen).1
    omega
  · intro hlt hopen
    have hless : s.pageref (.fd side) < s.pageref .pipe := by
      have hlt' := hlt hopen
      omega
    exact ⟨hless, beq_eq_false_iff_ne.2 (Nat.ne_of_lt hless)⟩

/-- A pipe whose opposite end is open does not look closed, exactly if fewer descriptors are halfway to a child than there
are other mappings of the pipe. -/
theorem eofOk_iff (h : (pipeRef ι).Reach (fun s ev => s.admits ev) s) :
    s.EofOk side ↔ (s.IsOpen side.opposite →
      (Finset.univ.filter fun x => s.halfway side x = true).card <
        (Finset.univ.filter fun x => s.beside side x = true).card) := (fdInv h).eofOk_iff_card

/-- `close` and `dup` alone are right. -/
theorem eofOk_of_no_copy (h : (pipeRef ι).Reach (fun s ev => s.admits ev) s)
    (hop : ∀ e spawn c left, s.op e ≠ some (.copy spawn c left)) : s.EofOk side := by
  have hinv := fdInv h
  rw [hinv.eofOk_iff_card]
  rintro ⟨e, i, hfd⟩
  have hnone : (Finset.univ.filter fun x => s.halfway side x = true) = ∅ := by
    apply Finset.filter_eq_empty_iff.2
    rintro ⟨e', i'⟩ _ hhalf
    obtain ⟨spawn, c, left, hcopy, -, -⟩ := hinv.halfway_child hhalf
    exact hop _ _ _ _ hcopy
  have hdata : s.map e (.data i) = some .pipe := by
    by_contra hnot
    obtain ⟨e', spawn, left, hcopy, -⟩ := hinv.halfway_parent hfd hnot
    exact hop _ _ _ _ hcopy
  have hne : side.opposite ≠ side := by cases side <;> exact nofun
  rw [hnone, Finset.card_empty]
  apply Finset.card_pos.2
  exact ⟨(e, i), Finset.mem_filter.2 ⟨Finset.mem_univ _, by simp [beside, hdata, hfd, hne]⟩⟩

/-- A parent in the middle of `fork`. -/
theorem eofOk_iff_fork : ∃ s : FdState (Fin 2), s.halfway .wr (0, 1) = true ∧ (s.EofOk .rd ↔
    (s.IsOpen .wr → (Finset.univ.filter fun x => s.halfway .rd x = true).card <
      (Finset.univ.filter fun x => s.beside .rd x = true).card)) := by
  have h0 : (pipeRef (Fin 2)).Reach (fun s ev => s.admits ev) (.start (fun _ _ => none) (fun e => e == 0) 0 0 1) :=
    .start ⟨_, _, _, _, _, by decide, rfl, rfl⟩
  have h := h0.run (l := [.copy 0 false 1, .syscall 0 true, .syscall 0 true]) rfl
  exact ⟨_, rfl, eofOk_iff h⟩

/-- A pipe, a child that only reads, and another child that has got its `Fd` pages. -/
def raceEvents : List (FdEvent (Fin 3)) :=
  .copy 0 false 1 :: List.replicate 65 (.syscall 0 true) ++ [.close 1 1, .syscall 1 true, .syscall 1 true,
    .copy 0 false 2, .syscall 0 true, .syscall 0 true]

/-- The child that reads finds the pipe closed, although the parent has the end that writes. -/
theorem exists_closed_open : ∃ s : FdState (Fin 3), (pipeRef (Fin 3)).Reach (fun _ _ => True) s ∧ s.idle 1 = true ∧
    s.map 1 (.fd 0) = some (.fd .rd) ∧ ¬ s.EofOk .rd := by
  have hrun : (((pipeRef (Fin 3)).run (fun _ _ => true) (.start (fun _ _ => none) (fun e => e == 0) 0 0 1)
      raceEvents).any fun s => s.idle 1 && s.map 1 (.fd 0) == some (.fd .rd) && s.map 0 (.fd 1) == some (.fd .wr) &&
        s.pipeIsClosed .rd) = true := by decide +kernel
  rw [Option.any_eq_true] at hrun
  obtain ⟨s, hs, hcond⟩ := hrun
  simp only [Bool.and_eq_true, beq_iff_eq] at hcond
  obtain ⟨⟨⟨hidle, hrd⟩, hwr⟩, hclosed⟩ := hcond
  have h0 : (pipeRef (Fin 3)).Reach (fun _ _ => true = true) (.start (fun _ _ => none) (fun e => e == 0) 0 0 1) :=
    .start ⟨_, _, _, _, _, by decide, rfl, rfl⟩
  refine ⟨s, (h0.run hs).mono fun _ _ _ => trivial, hidle, hrd, fun hok => ?_⟩
  rw [(hok ⟨0, 1, hwr⟩).2] at hclosed
  cases hclosed

end FdState

end Mos
