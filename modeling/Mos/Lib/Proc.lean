import Mathlib.Logic.Basic

/-!
# Programs with a state, errors and a log

`Proc σ ω ε α` is a program that works on a state `σ`, keeps a log of what it does, and ends with a value or an error;
an error keeps the state as it is, and a program may also stop for good.  `Proc.Spec` is partial correctness: what holds
at the end of every execution whose log has only entries that are allowed.
-/

def Proc (σ ω ε α : Type) := σ → Option (List ω × Except ε α × σ)

namespace Proc

variable {σ ω ε α β : Type}

instance : Monad (Proc σ ω ε) where
  pure a := fun s => some ([], .ok a, s)
  bind x f := fun s => (x s).bind fun p => match p.2.1 with
    | .ok a => (f a p.2.2).map fun q => (p.1 ++ q.1, q.2)
    | .error e => some (p.1, .error e, p.2.2)

/-- Returning an error. -/
def fail (e : ε) : Proc σ ω ε α := fun s => some ([], .error e, s)

/-- The end of the program. -/
def stop : Proc σ ω ε α := fun _ => none

/-- Looking at the state; `none` stops. -/
def read (f : σ → Option α) : Proc σ ω ε α := fun s => (f s).map fun a => ([], .ok a, s)

/-- Changing the state; `none` stops. -/
def update (f : σ → Option σ) : Proc σ ω ε Unit := fun s => (f s).map fun t => ([], .ok (), t)

def write (o : ω) : Proc σ ω ε Unit := fun s => some ([o], .ok (), s)

/-- The result, also where it is an error. -/
def attempt (x : Proc σ ω ε α) : Proc σ ω ε (Except ε α) := fun s => (x s).map fun p => (p.1, .ok p.2.1, p.2.2)

/-- An `if` without `else`. -/
def when (c : Prop) [Decidable c] (x : Proc σ ω ε Unit) : Proc σ ω ε Unit := if c then x else pure ()

/-- A loop over a list, up to the first error. -/
def each (f : β → Proc σ ω ε Unit) : List β → Proc σ ω ε Unit
  | [] => pure ()
  | b :: bs => do
    f b
    each f bs

/-! ### Executions -/

variable {x : Proc σ ω ε α} {f : α → Proc σ ω ε β} {s t : σ} {l : List ω} {r : Except ε β}

theorem attempt_some {q : Except ε (Except ε α)} (h : attempt x s = some (l, q, t)) :
    ∃ r, x s = some (l, r, t) ∧ q = .ok r := by
  obtain ⟨⟨l₁, r, u⟩, hx, h⟩ := Option.map_eq_some_iff.1 h
  simp only [Prod.mk.injEq] at h
  obtain ⟨rfl, rfl, rfl⟩ := h
  exact ⟨r, hx, rfl⟩

theorem bind_some (h : (x >>= f) s = some (l, r, t)) :
    (∃ e, x s = some (l, .error e, t) ∧ r = .error e) ∨
      ∃ l₁ a u l₂, x s = some (l₁, .ok a, u) ∧ f a u = some (l₂, r, t) ∧ l = l₁ ++ l₂ := by
  obtain ⟨⟨l₁, r₁, u⟩, hx, h⟩ := Option.bind_eq_some_iff.1 h
  cases r₁ with
  | error e =>
    simp only [Option.some.injEq, Prod.mk.injEq] at h
    obtain ⟨rfl, rfl, rfl⟩ := h
    exact .inl ⟨e, hx, rfl⟩
  | ok a =>
    obtain ⟨⟨l₂, r₂, v⟩, hf, h⟩ := Option.map_eq_some_iff.1 h
    simp only [Prod.mk.injEq] at h
    obtain ⟨rfl, rfl, rfl⟩ := h
    exact .inr ⟨l₁, a, u, l₂, hx, hf, rfl⟩

theorem bind_of_ok {a : α} {u : σ} {l₁ l₂ : List ω} (hx : x s = some (l₁, .ok a, u)) (hf : f a u = some (l₂, r, t)) :
    (x >>= f) s = some (l₁ ++ l₂, r, t) := by
  show (x s).bind _ = _
  rw [hx, Option.bind_some]
  show (f a u).map _ = _
  rw [hf]
  rfl

/-- The sequence after a first part that ends with a value. -/
theorem bind_ok (h : (x >>= f) s = some (l, r, t)) (hx : ∀ l e t, x s ≠ some (l, .error e, t)) :
    ∃ l₁ a u l₂, x s = some (l₁, .ok a, u) ∧ f a u = some (l₂, r, t) ∧ l = l₁ ++ l₂ := by
  rcases bind_some h with ⟨e, hxs, -⟩ | h
  · exact absurd hxs (hx _ _ _)
  · exact h

/-- The sequence after a look at the state. -/
theorem read_bind_some {g : σ → Option α} (h : (read g >>= f) s = some (l, r, t)) :
    ∃ a, g s = some a ∧ f a s = some (l, r, t) := by
  obtain ⟨l₁, a, u, l₂, hx, hf, rfl⟩ := bind_ok h fun l e t h => by
    obtain ⟨a, -, h⟩ := Option.map_eq_some_iff.1 h
    cases h
  obtain ⟨b, hb, hx⟩ := Option.map_eq_some_iff.1 hx
  cases hx
  exact ⟨a, hb, hf⟩

/-- The sequence after a change of the state. -/
theorem update_bind_some {g : σ → Option σ} {f : Unit → Proc σ ω ε β} (h : (update g >>= f) s = some (l, r, t)) :
    ∃ u, g s = some u ∧ f () u = some (l, r, t) := by
  obtain ⟨l₁, a, u, l₂, hx, hf, rfl⟩ := bind_ok h fun l e t h => by
    obtain ⟨a, -, h⟩ := Option.map_eq_some_iff.1 h
    cases h
  obtain ⟨v, hv, hx⟩ := Option.map_eq_some_iff.1 hx
  cases hx
  exact ⟨u, hv, hf⟩

/-- The sequence after a result that may be an error. -/
theorem attempt_bind_some {g : Except ε α → Proc σ ω ε β} (h : (attempt x >>= g) s = some (l, r, t)) :
    ∃ l₁ q u l₂, x s = some (l₁, q, u) ∧ g q u = some (l₂, r, t) ∧ l = l₁ ++ l₂ := by
  rcases bind_some h with ⟨e, hxs, -⟩ | ⟨l₁, a, u, l₂, hxs, hg, hl⟩
  · obtain ⟨q, -, hq⟩ := attempt_some hxs
    cases hq
  · obtain ⟨q, hx, hq⟩ := attempt_some hxs
    cases hq
    exact ⟨l₁, a, u, l₂, hx, hg, hl⟩

/-- The sequence after a first part that is known. -/
theorem bind_eq {a : α} {u : σ} (hx : x s = some ([], .ok a, u)) : (x >>= f) s = f a u := by
  show (x s).bind _ = _
  rw [hx, Option.bind_some]
  show (f a u).map _ = _
  cases f a u with
  | none => rfl
  | some q => rfl

/-- What follows only depends on what the first part does. -/
theorem bind_congr {y : Proc σ ω ε α} (h : x s = y t) : (x >>= f) s = (y >>= f) t :=
  congrArg (fun p => Option.bind p _) h

/-- The rest, after a first part that adds something to the log. -/
theorem bind_bind_after {γ : Type} {g : β → Proc σ ω ε γ} {a : α} {u : σ} (hx : x s = some (l, .ok a, u)) :
    ((x >>= f) >>= g) s = ((f a >>= g) u).map fun p => (l ++ p.1, p.2) := by
  have hfirst : (x >>= f) s = (f a u).map fun p => (l ++ p.1, p.2) := by
    show (x s).bind _ = _
    rw [hx]
    rfl
  show ((x >>= f) s).bind _ = ((f a u).bind _).map _
  rw [hfirst]
  cases f a u with
  | none => rfl
  | some p =>
    obtain ⟨l', q, v⟩ := p
    cases q with
    | error _ => rfl
    | ok b =>
      show (g b v).map _ = ((g b v).map _).map _
      rw [Option.map_map]
      exact congrArg (fun k => Option.map k (g b v)) (funext fun p => by simp [List.append_assoc])

/-- A loop of changes that keeps an invariant, from one round on. -/
theorem each_update {g : Nat → σ → Option σ} {J : Nat → σ → Prop} {n : Nat}
    (hJ : ∀ j s t, j < n → J j s → g j s = some t → J (j + 1) t) {k m : Nat} (hkm : k + m ≤ n) (hs : J k s)
    {q : Except ε Unit} (h : each (fun j => update (g j)) (List.range' k m) s = some (l, q, t)) :
    l = [] ∧ q = .ok () ∧ J (k + m) t := by
  induction m generalizing k s l with
  | zero =>
    cases h
    exact ⟨rfl, rfl, hs⟩
  | succ m ih =>
    obtain ⟨u, hu, hrest⟩ := update_bind_some h
    have hend := ih (k := k + 1) (by omega) (hJ k s u (by omega) hs hu) hrest
    rwa [show k + 1 + m = k + (m + 1) by omega] at hend

/-- Such a loop ends if every round does. -/
theorem each_update_ends {g : Nat → σ → Option σ} {J : Nat → σ → Prop} {n : Nat}
    (hJ : ∀ j s, j < n → J j s → ∃ t, g j s = some t ∧ J (j + 1) t) {k m : Nat} (hkm : k + m ≤ n) (hs : J k s) :
    ∃ t, (each (fun j => update (g j)) (List.range' k m) : Proc σ ω ε Unit) s = some ([], .ok (), t) ∧ J (k + m) t := by
  induction m generalizing k s with
  | zero => exact ⟨s, rfl, hs⟩
  | succ m ih =>
    obtain ⟨u, hu, hJu⟩ := hJ k s (by omega) hs
    obtain ⟨t, ht, hJt⟩ := ih (k := k + 1) (by omega) hJu
    refine ⟨t, ?_, by rwa [show k + 1 + m = k + (m + 1) by omega] at hJt⟩
    rw [← ht]
    have hround : (update (g k) : Proc σ ω ε Unit) s = some ([], .ok (), u) := by
      show (g k s).map _ = _
      rw [hu]
      rfl
    exact bind_eq hround

/-! ### Errors -/

/-- Every error is one of these. -/
def Fails (E : ε → Prop) (x : Proc σ ω ε α) : Prop := ∀ s l e t, x s = some (l, .error e, t) → E e

namespace Fails

variable {E : ε → Prop}

theorem pure (a : α) : Fails E (Pure.pure a : Proc σ ω ε α) := nofun

theorem any (x : Proc σ ω ε α) : Fails (fun _ => True) x := fun _ _ _ _ _ => trivial

theorem fail {e : ε} (h : E e) : Fails E (Proc.fail e : Proc σ ω ε α) := by
  intro s l e' t hx
  cases hx
  exact h

theorem stop : Fails E (Proc.stop : Proc σ ω ε α) := nofun

theorem read (f : σ → Option α) : Fails E (Proc.read f : Proc σ ω ε α) := by
  intro s l e t hx
  obtain ⟨a, -, hx⟩ := Option.map_eq_some_iff.1 hx
  cases hx

theorem update (f : σ → Option σ) : Fails E (Proc.update f : Proc σ ω ε Unit) := by
  intro s l e t hx
  obtain ⟨u, -, hx⟩ := Option.map_eq_some_iff.1 hx
  cases hx

theorem write (o : ω) : Fails E (Proc.write o : Proc σ ω ε Unit) := nofun

theorem bind (hx : Fails E x) (hf : ∀ a, Fails E (f a)) : Fails E (x >>= f) := by
  intro s l e t h
  rcases bind_some h with ⟨e', hxs, he⟩ | ⟨l₁, a, u, l₂, -, hfu, -⟩
  · cases he
    exact hx s l e t hxs
  · exact hf a u l₂ e t hfu

/-- The result of the first part may be an error; what is done about it depends on that. -/
theorem attempt_bind {E' : ε → Prop} {g : Except ε α → Proc σ ω ε β} (hx : Fails E' x) (hok : ∀ a, Fails E (g (.ok a)))
    (herr : ∀ e, E' e → Fails E (g (.error e))) : Fails E (Proc.attempt x >>= g) := by
  intro s l e t h
  obtain ⟨l₁, q, u, l₂, hxs, hgu, -⟩ := attempt_bind_some h
  cases q with
  | ok a => exact hok a u l₂ e t hgu
  | error e' => exact herr e' (hx s l₁ e' u hxs) u l₂ e t hgu

theorem when {c : Prop} [Decidable c] {x : Proc σ ω ε Unit} (hx : Fails E x) : Fails E (Proc.when c x) := by
  unfold Proc.when
  split
  · exact hx
  · exact pure ()

theorem each {g : β → Proc σ ω ε Unit} (hg : ∀ b, Fails E (g b)) (bs : List β) : Fails E (Proc.each g bs) := by
  induction bs with
  | nil => exact pure ()
  | cons b bs ih => exact bind (hg b) fun _ => ih

end Fails

/-! ### What executions do -/

/-- A relation that holds of doing nothing, and of one thing after the other. -/
structure Composes (R : σ → List ω → σ → Prop) : Prop where
  nil : ∀ s, R s [] s
  append : ∀ {s l u l' t}, R s l u → R u l' t → R s (l ++ l') t

/-- Every execution relates the state before, the log and the state after. -/
def Does (R : σ → List ω → σ → Prop) (x : Proc σ ω ε α) : Prop := ∀ s l r t, x s = some (l, r, t) → R s l t

namespace Does

variable {R R' : σ → List ω → σ → Prop}

theorem pure (hR : Composes R) (a : α) : Does R (Pure.pure a : Proc σ ω ε α) := by
  intro s l r t h
  cases h
  exact hR.nil s

theorem fail (hR : Composes R) (e : ε) : Does R (Proc.fail e : Proc σ ω ε α) := by
  intro s l r t h
  cases h
  exact hR.nil s

theorem stop : Does R (Proc.stop : Proc σ ω ε α) := nofun

theorem read (hR : Composes R) (f : σ → Option α) : Does R (Proc.read f : Proc σ ω ε α) := by
  intro s l r t h
  obtain ⟨a, -, h⟩ := Option.map_eq_some_iff.1 h
  cases h
  exact hR.nil s

theorem update {f : σ → Option σ} (hf : ∀ s t, f s = some t → R s [] t) :
    Does R (Proc.update f : Proc σ ω ε Unit) := by
  intro s l r t h
  obtain ⟨u, hu, h⟩ := Option.map_eq_some_iff.1 h
  cases h
  exact hf s _ hu

theorem write {o : ω} (ho : ∀ s, R s [o] s) : Does R (Proc.write o : Proc σ ω ε Unit) := by
  intro s l r t h
  cases h
  exact ho s

theorem bind (hR : Composes R) (hx : Does R x) (hf : ∀ a, Does R (f a)) : Does R (x >>= f) := by
  intro s l r t h
  rcases bind_some h with ⟨e, hxs, -⟩ | ⟨l₁, a, u, l₂, hxs, hfu, rfl⟩
  · exact hx s l _ t hxs
  · exact hR.append (hx s l₁ _ u hxs) (hf a u l₂ r t hfu)

theorem attempt (hx : Does R x) : Does R (Proc.attempt x) := by
  intro s l q t h
  obtain ⟨r, hxs, -⟩ := attempt_some h
  exact hx s l r t hxs

theorem when (hR : Composes R) {c : Prop} [Decidable c] {x : Proc σ ω ε Unit} (hx : c → Does R x) :
    Does R (Proc.when c x) := by
  unfold Proc.when
  split
  · next hc => exact hx hc
  · exact pure hR ()

theorem each (hR : Composes R) {g : β → Proc σ ω ε Unit} (hg : ∀ b, Does R (g b)) :
    ∀ bs : List β, Does R (Proc.each g bs)
  | [] => pure hR ()
  | b :: bs => bind hR (hg b) fun _ => each hR hg bs

theorem weaken (hx : Does R x) (h : ∀ {s l t}, R s l t → R' s l t) : Does R' x :=
  fun s l r t hxs => h (hx s l r t hxs)

end Does

/-! ### Specifications -/

/-- From `P`, an execution whose log entries are all `ok` ends in `Q`. -/
def Spec (ok : ω → Prop) (P : σ → Prop) (x : Proc σ ω ε α) (Q : Except ε α → σ → Prop) : Prop :=
  ∀ s l r t, P s → x s = some (l, r, t) → (∀ o ∈ l, ok o) → Q r t

/-- The postcondition with a part for values and a part for errors. -/
def Ends (Q : α → σ → Prop) (E : σ → Prop) : Except ε α → σ → Prop
  | .ok a, t => Q a t
  | .error _, t => E t

namespace Spec

variable {ok : ω → Prop} {P P' E : σ → Prop} {Q : β → σ → Prop} {R : α → σ → Prop} {S S' : Except ε α → σ → Prop}

theorem pure {a : α} (h : ∀ s, P s → R a s) : Spec (ε := ε) ok P (Pure.pure a) (Ends R E) := by
  intro s l r t hs hx _
  cases hx
  exact h s hs

theorem fail {e : ε} (h : ∀ s, P s → E s) : Spec (α := α) ok P (Proc.fail e) (Ends R E) := by
  intro s l r t hs hx _
  cases hx
  exact h s hs

theorem stop : Spec ok P (Proc.stop : Proc σ ω ε α) S := nofun

theorem read {f : σ → Option α} (h : ∀ s a, P s → f s = some a → R a s) :
    Spec (ε := ε) ok P (Proc.read f) (Ends R E) := by
  intro s l r t hs hx _
  obtain ⟨a, ha, hx⟩ := Option.map_eq_some_iff.1 hx
  cases hx
  exact h s a hs ha

theorem update {f : σ → Option σ} {T : Unit → σ → Prop} (h : ∀ s t, P s → f s = some t → T () t) :
    Spec (ε := ε) ok P (Proc.update f) (Ends T E) := by
  intro s l r t hs hx _
  obtain ⟨u, hu, hx⟩ := Option.map_eq_some_iff.1 hx
  cases hx
  exact h s _ hs hu

theorem write {o : ω} {T : Unit → σ → Prop} (h : ∀ s, P s → ok o → T () s) :
    Spec (ε := ε) ok P (Proc.write o) (Ends T E) := by
  intro s l r t hs hx hok
  cases hx
  exact h s hs (hok o List.mem_cons_self)

/-- The sequence. -/
theorem bind (hx : Spec ok P x (Ends R E)) (hf : ∀ a, Spec ok (R a) (f a) (Ends Q E)) :
    Spec ok P (x >>= f) (Ends Q E) := by
  intro s l r t hs hr hok
  rcases bind_some hr with ⟨e, hxs, rfl⟩ | ⟨l₁, a, u, l₂, hxs, hfu, rfl⟩
  · exact hx s l _ t hs hxs hok
  · have hR : R a u := hx s l₁ _ u hs hxs fun o ho => hok o (List.mem_append_left _ ho)
    exact hf a u l₂ r t hR hfu fun o ho => hok o (List.mem_append_right _ ho)

theorem attempt (hx : Spec ok P x S) :
    Spec ok P (Proc.attempt x) (Ends (fun r s => S r s) E) := by
  intro s l r t hs hr hok
  obtain ⟨⟨l₁, r₁, u⟩, hxs, hr⟩ := Option.map_eq_some_iff.1 hr
  simp only [Prod.mk.injEq] at hr
  obtain ⟨rfl, rfl, rfl⟩ := hr
  exact hx s l₁ r₁ u hs hxs hok

/-- Less is asked before, and more is promised after. -/
theorem weaken (hx : Spec ok P x S) (hpre : ∀ s, P' s → P s) (hpost : ∀ r s, S r s → S' r s) : Spec ok P' x S' :=
  fun s l r t hs hr hok => hpost r t (hx s l r t (hpre s hs) hr hok)

/-- Less is asked before. -/
theorem pre (hx : Spec ok P x S) (hpre : ∀ s, P' s → P s) : Spec ok P' x S := hx.weaken hpre fun _ _ h => h

/-- More is promised of a value. -/
theorem post {R' : α → σ → Prop} (hx : Spec ok P x (Ends R E)) (h : ∀ a s, R a s → R' a s) :
    Spec ok P x (Ends R' E) := by
  refine hx.weaken (fun _ hs => hs) fun r s hr => ?_
  cases r with
  | ok a => exact h a s hr
  | error e => exact hr

/-- Less is promised of an error. -/
theorem err {E' : σ → Prop} (hx : Spec ok P x (Ends R E)) (h : ∀ s, E s → E' s) : Spec ok P x (Ends R E') := by
  refine hx.weaken (fun _ hs => hs) fun r s hr => ?_
  cases r with
  | ok a => exact hr
  | error e => exact h s hr

theorem when {c : Prop} [Decidable c] {x : Proc σ ω ε Unit} {I : σ → Prop}
    (hx : c → Spec ok I x (Ends (fun _ => I) I)) : Spec ok I (Proc.when c x) (Ends (fun _ => I) I) := by
  unfold Proc.when
  split
  · next hc => exact hx hc
  · exact .pure fun _ h => h

/-- A loop whose body keeps the invariant. -/
theorem each {I : σ → Prop} {g : β → Proc σ ω ε Unit} (hg : ∀ b, Spec ok I (g b) (Ends (fun _ => I) E)) :
    ∀ bs : List β, Spec ok I (Proc.each g bs) (Ends (fun _ => I) E)
  | [] => .pure fun _ h => h
  | b :: bs => .bind (hg b) fun _ => each hg bs

/-- A loop whose invariant says what has been done so far. -/
theorem each_done {J : List β → σ → Prop} {g : β → Proc σ ω ε Unit}
    (hg : ∀ done b, Spec ok (J done) (g b) (Ends (fun _ => J (done ++ [b])) E)) : ∀ bs done : List β,
    Spec ok (J done) (Proc.each g bs) (Ends (fun _ => J (done ++ bs)) E)
  | [], done => .pure fun s h => by rwa [List.append_nil]
  | b :: bs, done => by
    refine .bind (hg done b) fun _ => ?_
    have hrest := each_done hg bs (done ++ [b])
    rwa [List.append_assoc] at hrest

end Spec

/-! ### Specifications of one execution -/

/-- From `s`, the program only ends in `Q`; where `G` holds it does end, and `G` holds at the end. -/
structure Runs (G : σ → Prop) (s : σ) (x : Proc σ ω ε α) (Q : Except ε α → σ → Prop) : Prop where
  post : ∀ l r t, x s = some (l, r, t) → Q r t
  keeps : ∀ l r t, x s = some (l, r, t) → G s → G t
  ends : G s → ∃ l r t, x s = some (l, r, t)

namespace Runs

variable {G : σ → Prop} {Q Q' : Except ε α → σ → Prop} {R : Except ε β → σ → Prop}

theorem pure {a : α} (h : Q (.ok a) s) : Runs (ω := ω) G s (Pure.pure a) Q where
  post l r t hx := by
    cases hx
    exact h
  keeps l r t hx hG := by
    cases hx
    exact hG
  ends _ := ⟨_, _, _, rfl⟩

theorem fail {e : ε} (h : Q (.error e) s) : Runs (ω := ω) G s (Proc.fail e) Q where
  post l r t hx := by
    cases hx
    exact h
  keeps l r t hx hG := by
    cases hx
    exact hG
  ends _ := ⟨_, _, _, rfl⟩

theorem read {f : σ → Option α} (h : ∀ a, f s = some a → Q (.ok a) s) (hG : G s → ∃ a, f s = some a) :
    Runs (ω := ω) G s (Proc.read f) Q where
  post l r t hx := by
    obtain ⟨a, ha, hx⟩ := Option.map_eq_some_iff.1 hx
    cases hx
    exact h a ha
  keeps l r t hx hG := by
    obtain ⟨a, ha, hx⟩ := Option.map_eq_some_iff.1 hx
    cases hx
    exact hG
  ends hs := by
    obtain ⟨a, ha⟩ := hG hs
    exact ⟨[], .ok a, s, by rw [Proc.read, ha]; rfl⟩

theorem update {f : σ → Option σ} {T : Except ε Unit → σ → Prop} (h : ∀ t, f s = some t → T (.ok ()) t ∧ (G s → G t))
    (hG : G s → ∃ t, f s = some t) : Runs (ω := ω) G s (Proc.update f) T where
  post l r t hx := by
    obtain ⟨u, hu, hx⟩ := Option.map_eq_some_iff.1 hx
    cases hx
    exact (h _ hu).1
  keeps l r t hx hs := by
    obtain ⟨u, hu, hx⟩ := Option.map_eq_some_iff.1 hx
    cases hx
    exact (h _ hu).2 hs
  ends hs := by
    obtain ⟨t, ht⟩ := hG hs
    exact ⟨[], .ok (), t, by rw [Proc.update, ht]; rfl⟩

theorem write {o : ω} {T : Except ε Unit → σ → Prop} (h : T (.ok ()) s) : Runs G s (Proc.write o) T where
  post l r t hx := by
    cases hx
    exact h
  keeps l r t hx hG := by
    cases hx
    exact hG
  ends _ := ⟨_, _, _, rfl⟩

theorem weaken (hx : Runs G s x Q) (h : ∀ r t, Q r t → Q' r t) : Runs G s x Q' :=
  ⟨fun l r t hxs => h r t (hx.post l r t hxs), hx.keeps, hx.ends⟩

/-- The sequence. -/
theorem bind (hx : Runs G s x Q) (hf : ∀ a u, Q (.ok a) u → Runs G u (f a) R)
    (he : ∀ e u, Q (.error e) u → R (.error e) u) : Runs G s (x >>= f) R where
  post l r t h := by
    rcases bind_some h with ⟨e, hxs, rfl⟩ | ⟨l₁, a, u, l₂, hxs, hfu, rfl⟩
    · exact he e t (hx.post l _ t hxs)
    · exact (hf a u (hx.post l₁ _ u hxs)).post l₂ r t hfu
  keeps l r t h hG := by
    rcases bind_some h with ⟨e, hxs, rfl⟩ | ⟨l₁, a, u, l₂, hxs, hfu, rfl⟩
    · exact hx.keeps l _ t hxs hG
    · exact (hf a u (hx.post l₁ _ u hxs)).keeps l₂ r t hfu (hx.keeps l₁ _ u hxs hG)
  ends hG := by
    obtain ⟨l, q, u, hxs⟩ := hx.ends hG
    cases q with
    | error e => exact ⟨l, .error e, u, by show (x s).bind _ = _; rw [hxs]; rfl⟩
    | ok a =>
      obtain ⟨l₂, r, t, hfu⟩ := (hf a u (hx.post l _ u hxs)).ends (hx.keeps l _ u hxs hG)
      exact ⟨l ++ l₂, r, t, bind_of_ok hxs hfu⟩

/-- The sequence after a first part with a known value. -/
theorem bind_value {a : α} {P : σ → Prop} (hx : Runs G s x fun r t => r = .ok a ∧ P t) (hf : ∀ u, P u → Runs G u (f a) R) :
    Runs G s (x >>= f) R := by
  refine hx.bind (fun b u hu => ?_) fun e u hu => by cases hu.1
  obtain ⟨hb, hP⟩ := hu
  cases hb
  exact hf u hP

/-- The sequence after a result that may be an error. -/
theorem attempt_bind {g : Except ε α → Proc σ ω ε β} (hx : Runs G s x Q) (hg : ∀ r u, Q r u → Runs G u (g r) R) :
    Runs G s (Proc.attempt x >>= g) R where
  post l r t h := by
    obtain ⟨l₁, q, u, l₂, hxs, hgu, rfl⟩ := attempt_bind_some h
    exact (hg q u (hx.post l₁ q u hxs)).post l₂ r t hgu
  keeps l r t h hG := by
    obtain ⟨l₁, q, u, l₂, hxs, hgu, rfl⟩ := attempt_bind_some h
    exact (hg q u (hx.post l₁ q u hxs)).keeps l₂ r t hgu (hx.keeps l₁ q u hxs hG)
  ends hG := by
    obtain ⟨l, q, u, hxs⟩ := hx.ends hG
    obtain ⟨l₂, r, t, hgu⟩ := (hg q u (hx.post l q u hxs)).ends (hx.keeps l q u hxs hG)
    exact ⟨l ++ l₂, r, t, bind_of_ok (by rw [Proc.attempt, hxs]; rfl) hgu⟩

end Runs

end Proc
