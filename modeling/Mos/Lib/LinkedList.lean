import Mos.Lib.SList

/-!
# Doubly linked lists in a heap

A head has a pointer to the first element of its list.  Every element has a pointer to the next one and the address of
the pointer that points to it (`prev`), so that it can be taken out of its list without looking for the element in
front of it.  A heap may have any number of heads.

`Holds q h l` says that the list at the head `h` is well formed with content `l`.  Wherever an element is put, the same
four pointers are written (`Spliced`), and two where one is taken out (`Cut`).
-/

/-- The address of a pointer to an element: in a head, or in an element. -/
inductive LinkAddr (η α : Type) where
  | first (h : η)
  | next (a : α)
  deriving DecidableEq

/-- The pointers of all heads and of all elements. -/
structure LinkedLists (η α : Type) where
  first : η → Option α
  next : α → Option α
  prev : α → Option (LinkAddr η α)

namespace LinkedLists

variable {η α : Type}

/-- Reading a pointer. -/
def load (q : LinkedLists η α) : LinkAddr η α → Option α
  | .first h => q.first h
  | .next a => q.next a

/-! ### Well-formed lists -/

/-- From the pointer at `r` on, the elements of `l` follow each other and point back, and then comes null. -/
def Chain (q : LinkedLists η α) : LinkAddr η α → List α → Prop
  | r, [] => q.load r = none
  | r, a :: l => q.load r = some a ∧ q.prev a = some r ∧ Chain q (.next a) l

/-- The list at the head `h` is well formed, and `l` is its content. -/
def Holds (q : LinkedLists η α) (h : η) (l : List α) : Prop := q.Chain (.first h) l

/-- The address of the pointer behind the elements of `l`. -/
def endAddr : LinkAddr η α → List α → LinkAddr η α
  | r, [] => r
  | _, a :: l => endAddr (.next a) l

section

variable {q q' : LinkedLists η α} {r s : LinkAddr η α} {l l₁ l₂ : List α} {a b c : α} {h : η}

theorem Chain.slist (hc : q.Chain r l) : SList q.next (q.load r) l := by
  induction l generalizing r with
  | nil => exact hc
  | cons a l ih => exact ⟨hc.1, ih hc.2.2⟩

/-- The elements are different, since the list ends. -/
theorem Chain.nodup (hc : q.Chain r l) : l.Nodup := hc.slist.nodup

theorem Chain.load_eq (hc : q.Chain r l) : q.load r = l.head? := hc.slist.head_eq

/-- The content of a well-formed list is determined by the pointers. -/
theorem Holds.unique {l' : List α} (hl : q.Holds h l) (hl' : q.Holds h l') : l = l' := hl.slist.unique hl'.slist

theorem Holds.first_eq (hl : q.Holds h l) : q.first h = l.head? := Chain.load_eq hl

/-- A chain depends on the pointer at `r` and on the links of its elements. -/
theorem Chain.congr (hc : q.Chain r l) (hr : q'.load r = q.load r)
    (hl : ∀ c ∈ l, q'.next c = q.next c ∧ q'.prev c = q.prev c) : q'.Chain r l := by
  induction l generalizing r with
  | nil => exact hr.trans hc
  | cons a l ih =>
    obtain ⟨hnext, hprev⟩ := hl a (List.mem_cons_self ..)
    exact ⟨hr.trans hc.1, hprev.trans hc.2.1, ih hc.2.2 hnext fun c hm => hl c (List.mem_cons_of_mem _ hm)⟩

theorem endAddr_append (r : LinkAddr η α) (l₁ l₂ : List α) : endAddr r (l₁ ++ l₂) = endAddr (endAddr r l₁) l₂ := by
  induction l₁ generalizing r with
  | nil => rfl
  | cons a l₁ ih => exact ih _

theorem endAddr_cases (r : LinkAddr η α) (l : List α) : endAddr r l = r ∨ ∃ c ∈ l, endAddr r l = .next c := by
  induction l generalizing r with
  | nil => exact .inl rfl
  | cons a l ih =>
    rcases ih (.next a) with h | ⟨c, hc, h⟩
    · exact .inr ⟨a, List.mem_cons_self .., h⟩
    · exact .inr ⟨c, List.mem_cons_of_mem _ hc, h⟩

/-- The rest of a chain is a chain. -/
theorem Chain.rest (hc : q.Chain r (l₁ ++ l₂)) : q.Chain (endAddr r l₁) l₂ := by
  induction l₁ generalizing r with
  | nil => exact hc
  | cons a l₁ ih => exact ih hc.2.2

/-- Every element has the address of the pointer that points to it: that of the element in front of it, or of the head. -/
theorem Chain.prev_eq (hc : q.Chain r (l₁ ++ a :: l₂)) : q.prev a = some (endAddr r l₁) := hc.rest.2.1

/-! ### The writes of an insertion -/

/-- The element `a` is put behind the pointer at `r`. -/
structure Spliced (q q' : LinkedLists η α) (r : LinkAddr η α) (a : α) : Prop where
  here : q'.load r = some a
  back : q'.prev a = some r
  next : q'.next a = q.load r
  link : ∀ b, q.load r = some b → q'.prev b = some (.next a)
  load : ∀ x, x ≠ r → x ≠ .next a → q'.load x = q.load x
  prev : ∀ c, c ≠ a → q.load r ≠ some c → q'.prev c = q.prev c

/-- An address that is not in an element of `l`. -/
def Outside (r : LinkAddr η α) (l : List α) : Prop := ∀ c ∈ l, r ≠ .next c

theorem outside_first (h : η) (l : List α) : Outside (.first h) l := fun _ _ => nofun

theorem Outside.of_nodup (h : (a :: l).Nodup) : Outside (.next a : LinkAddr η α) l := by
  intro c hc e
  cases e
  exact (List.nodup_cons.1 h).1 hc

/-- The address behind some elements of a list is not that in front of them. -/
theorem ne_endAddr (hr : Outside r (b :: l₁)) : r ≠ endAddr (.next b) l₁ := by
  rcases endAddr_cases (LinkAddr.next b : LinkAddr η α) l₁ with e | ⟨c, hc, e⟩
  · rw [e]
    exact hr b (List.mem_cons_self ..)
  · rw [e]
    exact hr c (List.mem_cons_of_mem _ hc)

theorem Spliced.chain_head {l : List α} (hc : q.Chain r l) (hr : Outside r l) (ha : a ∉ l) (hs : Spliced q q' r a) :
    q'.Chain r (a :: l) := by
  have hnd := hc.nodup
  refine ⟨hs.here, hs.back, ?_⟩
  cases l with
  | nil => exact hs.next.trans hc
  | cons b l =>
    have hb := (List.nodup_cons.1 hnd).1
    have hba : b ≠ a := fun e => ha (e ▸ List.mem_cons_self ..)
    refine ⟨hs.next.trans hc.1, hs.link b hc.1, hc.2.2.congr ?_ fun c hm => ?_⟩
    · exact hs.load _ (hr b (List.mem_cons_self ..)).symm fun e => hba (LinkAddr.next.inj e)
    · have hca : c ≠ a := fun e => ha (e ▸ List.mem_cons_of_mem _ hm)
      have hcb : q.load r ≠ some c := fun e => hb (Option.some.inj (hc.1.symm.trans e) ▸ hm)
      refine ⟨hs.load (.next c) (hr c (List.mem_cons_of_mem _ hm)).symm fun e => hca (LinkAddr.next.inj e), ?_⟩
      exact hs.prev c hca hcb

theorem Spliced.chain (hc : q.Chain r (l₁ ++ l₂)) (hr : Outside r (l₁ ++ l₂)) (hra : r ≠ .next a) (ha : a ∉ l₁ ++ l₂)
    (hs : Spliced q q' (endAddr r l₁) a) : q'.Chain r (l₁ ++ a :: l₂) := by
  have hnd := hc.nodup
  induction l₁ generalizing r with
  | nil => exact hs.chain_head hc hr ha
  | cons b l₁ ih =>
    -- `b` is in front of the place, so neither the pointer at `r` nor the back pointer of `b` is written
    have hba : b ≠ a := fun e => ha (e ▸ List.mem_cons_self ..)
    have hrs : r ≠ endAddr (.next b) l₁ := ne_endAddr fun c hm => hr c (List.mem_append_left _ hm)
    have hload : q.load (endAddr (.next b) l₁) ≠ some b := by
      intro e
      have hhead := hc.2.2.rest.load_eq
      rw [e] at hhead
      exact (List.nodup_cons.1 hnd).1 (List.mem_append_right _ (List.mem_of_head? hhead.symm))
    refine ⟨(hs.load r hrs hra).trans hc.1, (hs.prev b hba hload).trans hc.2.1, ?_⟩
    exact ih hc.2.2 (.of_nodup hnd) (fun e => hba (LinkAddr.next.inj e)) (fun hm => ha (List.mem_cons_of_mem _ hm)) hs
      (List.nodup_cons.1 hnd).2

theorem Holds.splice (hl : q.Holds h (l₁ ++ l₂)) (ha : a ∉ l₁ ++ l₂) (hs : Spliced q q' (endAddr (.first h) l₁) a) :
    q'.Holds h (l₁ ++ a :: l₂) := hs.chain hl (outside_first h _) nofun ha

/-- Lists that have neither the place nor the elements next to it are left alone. -/
theorem Spliced.other (hc : q.Chain s l) (hs : Spliced q q' r a) (hsr : s ≠ r) (hsa : s ≠ .next a) (hr : Outside r l)
    (ha : a ∉ l) (hb : ∀ c ∈ l, q.load r ≠ some c) : q'.Chain s l := by
  refine hc.congr (hs.load s hsr hsa) fun c hm => ?_
  have hca : c ≠ a := fun e => ha (e ▸ hm)
  exact ⟨hs.load (.next c) (hr c hm).symm fun e => hca (LinkAddr.next.inj e), hs.prev c hca (hb c hm)⟩

/-! ### The writes of a removal -/

/-- The element `a` behind the pointer at `r` is taken out. -/
structure Cut (q q' : LinkedLists η α) (r : LinkAddr η α) (a : α) : Prop where
  here : q'.load r = q.next a
  link : ∀ b, q.next a = some b → q'.prev b = some r
  load : ∀ x, x ≠ r → q'.load x = q.load x
  prev : ∀ c, q.next a ≠ some c → q'.prev c = q.prev c

theorem Cut.chain_head {l : List α} (hc : q.Chain r (a :: l)) (hr : Outside r (a :: l)) (hs : Cut q q' r a) :
    q'.Chain r l := by
  have hnd := (List.nodup_cons.1 hc.nodup).2
  cases l with
  | nil => exact hs.here.trans hc.2.2
  | cons b l =>
    obtain ⟨-, -, hab, -, hrest⟩ := hc
    refine ⟨hs.here.trans hab, hs.link b hab, hrest.congr ?_ fun c hm => ?_⟩
    · exact hs.load _ (hr b (by simp)).symm
    · have hcb : q.next a ≠ some c := fun e => (List.nodup_cons.1 hnd).1 (Option.some.inj (hab.symm.trans e) ▸ hm)
      exact ⟨hs.load (.next c) (hr c (by simp [hm])).symm, hs.prev c hcb⟩

theorem Cut.chain (hc : q.Chain r (l₁ ++ a :: l₂)) (hr : Outside r (l₁ ++ a :: l₂)) (hs : Cut q q' (endAddr r l₁) a) :
    q'.Chain r (l₁ ++ l₂) := by
  have hnd := hc.nodup
  induction l₁ generalizing r with
  | nil =>
    exact hs.chain_head hc hr
  | cons b l₁ ih =>
    have hrs : r ≠ endAddr (.next b) l₁ := ne_endAddr fun c hm => hr c (List.mem_append_left _ hm)
    have hload : q.next a ≠ some b := by
      intro e
      have hrest : q.Chain (endAddr (.next b) l₁) (a :: l₂) := Chain.rest hc.2.2
      have hhead : q.next a = l₂.head? := hrest.2.2.load_eq
      rw [e] at hhead
      exact (List.nodup_cons.1 hnd).1 (by simp [List.mem_of_head? hhead.symm])
    refine ⟨(hs.load r hrs).trans hc.1, (hs.prev b hload).trans hc.2.1, ?_⟩
    exact ih hc.2.2 (.of_nodup hnd) hs (List.nodup_cons.1 hnd).2

theorem Cut.other (hc : q.Chain s l) (hs : Cut q q' r a) (hsr : s ≠ r) (hr : Outside r l)
    (hb : ∀ c ∈ l, q.next a ≠ some c) : q'.Chain s l :=
  hc.congr (hs.load s hsr) fun c hm => ⟨hs.load (.next c) (hr c hm).symm, hs.prev c (hb c hm)⟩


end

/-! ### Writing -/

variable [DecidableEq α]

def setNext (q : LinkedLists η α) (a : α) (v : Option α) : LinkedLists η α :=
  { q with next := Function.update q.next a v }

def setPrev (q : LinkedLists η α) (a : α) (v : Option (LinkAddr η α)) : LinkedLists η α :=
  { q with prev := Function.update q.prev a v }

/-- `if (p != NULL) p->le_prev = v`. -/
def linkBack (q : LinkedLists η α) (p : Option α) (v : Option (LinkAddr η α)) : LinkedLists η α :=
  match p with
  | some b => q.setPrev b v
  | none => q

section

variable {q : LinkedLists η α} {a c : α} {p : Option α} {v : Option (LinkAddr η α)}

@[simp] theorem setNext_first (q : LinkedLists η α) (a : α) (p : Option α) : (q.setNext a p).first = q.first := rfl

@[simp] theorem setNext_prev (q : LinkedLists η α) (a : α) (p : Option α) : (q.setNext a p).prev = q.prev := rfl

@[simp] theorem setNext_next_self (q : LinkedLists η α) (a : α) (p : Option α) : (q.setNext a p).next a = p :=
  Function.update_self ..

@[simp] theorem setPrev_next (q : LinkedLists η α) (a : α) (v : Option (LinkAddr η α)) : (q.setPrev a v).next = q.next := rfl

@[simp] theorem setPrev_prev_self (q : LinkedLists η α) (a : α) (v : Option (LinkAddr η α)) : (q.setPrev a v).prev a = v :=
  Function.update_self ..

theorem setPrev_prev_of_ne (hc : c ≠ a) : (q.setPrev a v).prev c = q.prev c := Function.update_of_ne hc ..

@[simp] theorem load_setPrev (q : LinkedLists η α) (a : α) (v : Option (LinkAddr η α)) (r : LinkAddr η α) :
    (q.setPrev a v).load r = q.load r := by
  cases r <;> rfl

@[simp] theorem load_linkBack (q : LinkedLists η α) (p : Option α) (v : Option (LinkAddr η α)) (r : LinkAddr η α) :
    (q.linkBack p v).load r = q.load r := by
  cases p with
  | none => rfl
  | some b => exact load_setPrev q b v r

@[simp] theorem linkBack_prev_self (q : LinkedLists η α) (b : α) (v : Option (LinkAddr η α)) :
    (q.linkBack (some b) v).prev b = v := setPrev_prev_self ..

theorem linkBack_prev_of_ne (hc : p ≠ some c) : (q.linkBack p v).prev c = q.prev c := by
  cases p with
  | none => rfl
  | some b => exact setPrev_prev_of_ne fun e => hc (congrArg some e.symm)

end

variable [DecidableEq η]

/-- Writing a pointer. -/
def store (q : LinkedLists η α) (r : LinkAddr η α) (v : Option α) : LinkedLists η α :=
  match r with
  | .first h => { q with first := Function.update q.first h v }
  | .next a => q.setNext a v

section

variable {q : LinkedLists η α} {r s : LinkAddr η α}

@[simp] theorem load_store_self (q : LinkedLists η α) (r : LinkAddr η α) (p : Option α) : (q.store r p).load r = p := by
  cases r <;> simp [store, setNext, load]

theorem load_store_of_ne {p : Option α} (hs : s ≠ r) : (q.store r p).load s = q.load s := by
  cases r with
  | first h =>
    cases s with
    | first h' => exact Function.update_of_ne (fun e => hs (congrArg LinkAddr.first e)) ..
    | next b => rfl
  | next a =>
    cases s with
    | first h => rfl
    | next b => exact Function.update_of_ne (fun e => hs (congrArg LinkAddr.next e)) ..

@[simp] theorem store_prev (q : LinkedLists η α) (r : LinkAddr η α) (p : Option α) : (q.store r p).prev = q.prev := by
  cases r <;> rfl

theorem setNext_eq (q : LinkedLists η α) (a : α) (p : Option α) : q.setNext a p = q.store (.next a) p := rfl

end

end LinkedLists
