import Mos.Kern.Inversion
import Mos.Lib.LinkedList
import Mathlib.Data.List.InsertIdx

/-!
# The list macros (`include/queue.h`)

`LIST_HEAD` and `LIST_ENTRY` with the macros that change a list, and the two lists of the kernel that are made with
them, `page_free_list` and `env_free_list`.  Writing through a null `le_prev` is a fault (`none`).
-/

namespace Mos

variable {η α : Type} [DecidableEq η] [DecidableEq α]

section Macros

variable (q : LinkedLists η α) (head : η) (listelm elm : α)

def listInit : LinkedLists η α := q.store (.first head) none

def listInsertHead : LinkedLists η α :=
  let q := q.setNext elm (q.first head)
  let q := q.linkBack (q.first head) (some (.next elm))
  let q := q.store (.first head) (some elm)
  q.setPrev elm (some (.first head))

def listInsertAfter : LinkedLists η α :=
  let q := q.setPrev elm (some (.next listelm))
  let q := q.setNext elm (q.next listelm)
  let q := q.linkBack (q.next elm) (some (.next elm))
  q.setNext listelm (some elm)

def listInsertBefore : Option (LinkedLists η α) :=
  let q := q.setPrev elm (q.prev listelm)
  let q := q.setNext elm (some listelm)
  (q.prev listelm).map fun r =>
    let q := q.store r (some elm)
    q.setPrev listelm (some (.next elm))

def listRemove : Option (LinkedLists η α) :=
  let q := q.linkBack (q.next elm) (q.prev elm)
  (q.prev elm).map fun r => q.store r (q.next elm)

end Macros

/-! ### What the macros write -/

section

open LinkedLists

variable {q : LinkedLists η α} {h : η} {r : LinkAddr η α} {a b c : α}

private theorem listInit_holds (q : LinkedLists η α) (h : η) : (listInit q h).Holds h [] := load_store_self ..

private theorem listInsertHead_spliced (ha : q.first h ≠ some a) : q.Spliced (listInsertHead q h a) (.first h) a := by
  have hload (x : LinkAddr η α) (hx : x ≠ .first h) :
      (listInsertHead q h a).load x = (q.store (.next a) (q.first h)).load x := by
    simp [listInsertHead, load_store_of_ne hx, setNext_eq]
  constructor
  · simp [listInsertHead]
  · simp [listInsertHead]
  · exact (hload (.next a) nofun).trans (load_store_self ..)
  · intro b hb
    have hb : q.first h = some b := hb
    have hba : b ≠ a := fun e => ha (e ▸ hb)
    simp [listInsertHead, setPrev_prev_of_ne hba, hb]
  · intro x hx hxa
    exact (hload x hx).trans (load_store_of_ne hxa)
  · intro c hc hcb
    have hcb : q.first h ≠ some c := hcb
    simp [listInsertHead, setPrev_prev_of_ne hc, linkBack_prev_of_ne hcb]

private theorem listInsertAfter_spliced (hab : a ≠ b) (ha : q.next b ≠ some a) :
    q.Spliced (listInsertAfter q b a) (.next b) a := by
  have hne : (.next a : LinkAddr η α) ≠ .next b := fun e => hab (LinkAddr.next.inj e)
  have hload (x : LinkAddr η α) (hx : x ≠ .next b) :
      (listInsertAfter q b a).load x = ((q.setPrev a (some (.next b))).store (.next a) (q.next b)).load x := by
    simp [listInsertAfter, setNext_eq, load_store_of_ne hx]
  constructor
  · simp [listInsertAfter, setNext_eq]
  · simp [listInsertAfter, linkBack_prev_of_ne ha]
  · exact (hload (.next a) hne).trans (load_store_self ..)
  · intro c hc
    have hc : q.next b = some c := hc
    simp [listInsertAfter, hc]
  · intro x hx hxa
    exact (hload x hx).trans ((load_store_of_ne hxa).trans (load_setPrev ..))
  · intro c hc hcb
    have hcb : q.next b ≠ some c := hcb
    simp [listInsertAfter, linkBack_prev_of_ne hcb, setPrev_prev_of_ne hc]

private theorem listInsertBefore_spliced (hr : q.prev b = some r) (hb : q.load r = some b) (hab : a ≠ b)
    (hra : r ≠ .next a) :
    ∃ q', listInsertBefore q b a = some q' ∧ q.Spliced q' r a := by
  have hprev : ((q.setPrev a (q.prev b)).setNext a (some b)).prev b = some r := (setPrev_prev_of_ne hab.symm).trans hr
  refine ⟨_, by simp only [listInsertBefore, hprev, Option.map_some]; rfl, ?_⟩
  rw [hr, setNext_eq]
  constructor
  · simp
  · simp [setPrev_prev_of_ne hab]
  · rw [hb]
    have hne : (.next a : LinkAddr η α) ≠ r := hra.symm
    exact (load_setPrev ..).trans ((load_store_of_ne hne).trans (load_store_self ..))
  · intro c hc
    obtain rfl := Option.some.inj (hb.symm.trans hc)
    simp
  · intro x hx hxa
    exact (load_setPrev ..).trans ((load_store_of_ne hx).trans ((load_store_of_ne hxa).trans (load_setPrev ..)))
  · intro c hc hcb
    have hne : c ≠ b := fun e => hcb (e ▸ hb)
    simp [setPrev_prev_of_ne hne, setPrev_prev_of_ne hc]

private theorem listRemove_cut (hr : q.prev a = some r) : ∃ q', listRemove q a = some q' ∧ q.Cut q' r a := by
  have hnext : (q.linkBack (q.next a) (q.prev a)).next a = q.next a := load_linkBack q _ _ (.next a)
  have hprev : (q.linkBack (q.next a) (q.prev a)).prev a = some r := by
    by_cases ha : q.next a = some a
    · rw [ha, linkBack_prev_self, hr]
    · rw [linkBack_prev_of_ne ha, hr]
  refine ⟨_, by simp only [listRemove, hprev, hnext, Option.map_some]; rfl, ?_⟩
  constructor
  · exact load_store_self ..
  · intro b hb
    rw [store_prev, hb, linkBack_prev_self, hr]
  · intro x hx
    exact (load_store_of_ne hx).trans (load_linkBack ..)
  · intro c hc
    rw [store_prev, linkBack_prev_of_ne hc]

end

/-! ### Operations on the list at a head -/

/-- One of the macros. -/
inductive ListOp (α : Type) where
  | insertHead (elm : α)
  | insertAfter (listelm elm : α)
  | insertBefore (listelm elm : α)
  | remove (elm : α)

namespace ListOp

variable {q q' : LinkedLists η α} {h h' : η} {l l' : List α} {o : ListOp α} {a b : α}

/-- The macro in the heap, for the list at the head `h`. -/
def exec (h : η) (q : LinkedLists η α) : ListOp α → Option (LinkedLists η α)
  | insertHead elm => some (listInsertHead q h elm)
  | insertAfter listelm elm => some (listInsertAfter q listelm elm)
  | insertBefore listelm elm => listInsertBefore q listelm elm
  | remove elm => listRemove q elm

/-- The operation on a list. -/
def apply (l : List α) : ListOp α → List α
  | insertHead elm => elm :: l
  | insertAfter listelm elm => l.insertIdx (l.idxOf listelm + 1) elm
  | insertBefore listelm elm => l.insertIdx (l.idxOf listelm) elm
  | remove elm => l.erase elm

/-- Members are what an insertion is next to and what is removed, and non-members are inserted. -/
def Legal (l : List α) : ListOp α → Prop
  | insertHead elm => elm ∉ l
  | insertAfter listelm elm => listelm ∈ l ∧ elm ∉ l
  | insertBefore listelm elm => listelm ∈ l ∧ elm ∉ l
  | remove elm => elm ∈ l

instance (l : List α) : (o : ListOp α) → Decidable (o.Legal l)
  | insertHead elm => inferInstanceAs (Decidable (elm ∉ l))
  | insertAfter listelm elm => inferInstanceAs (Decidable (listelm ∈ l ∧ elm ∉ l))
  | insertBefore listelm elm => inferInstanceAs (Decidable (listelm ∈ l ∧ elm ∉ l))
  | remove elm => inferInstanceAs (Decidable (elm ∈ l))

/-- Every operation is legal for the list that it meets. -/
def AllLegal : List α → List (ListOp α) → Prop
  | _, [] => True
  | l, o :: os => o.Legal l ∧ AllLegal (o.apply l) os

instance decidableAllLegal : (l : List α) → (os : List (ListOp α)) → Decidable (AllLegal l os)
  | _, [] => inferInstanceAs (Decidable True)
  | l, o :: os =>
    have := decidableAllLegal (o.apply l) os
    inferInstanceAs (Decidable (o.Legal l ∧ AllLegal (o.apply l) os))

/-- The element is put into the list. -/
def Puts (a : α) : ListOp α → Prop
  | insertHead elm | insertAfter _ elm | insertBefore _ elm => elm = a
  | remove _ => False

/-- An operation puts an element at some place of the list or takes one out. -/
inductive Effect (q q' : LinkedLists η α) (h : η) (l : List α) : ListOp α → List α → Prop
  | put {o : ListOp α} {a : α} {l₁ l₂ : List α} (ho : o.Puts a) (ha : a ∉ l) (hl : l = l₁ ++ l₂)
      (hs : q.Spliced q' (LinkedLists.endAddr (.first h) l₁) a) : Effect q q' h l o (l₁ ++ a :: l₂)
  | takeOut {a : α} {l₁ l₂ : List α} (hl : l = l₁ ++ a :: l₂) (hs : q.Cut q' (LinkedLists.endAddr (.first h) l₁) a) :
      Effect q q' h l (remove a) (l₁ ++ l₂)

omit [DecidableEq η] [DecidableEq α] in
private theorem insertIdx_append {l₁ l₂ : List α} {a : α} : (l₁ ++ l₂).insertIdx l₁.length a = l₁ ++ a :: l₂ := by
  induction l₁ with
  | nil => exact List.insertIdx_zero
  | cons b l₁ ih => simp [ih]

omit [DecidableEq η] in
/-- A member splits its list at its position. -/
private theorem exists_split (hb : b ∈ l) : ∃ l₁ l₂, l = l₁ ++ b :: l₂ ∧ b ∉ l₁ ∧ l.idxOf b = l₁.length := by
  obtain ⟨l₁, l₂, hnot, rfl, -⟩ := List.exists_erase_eq hb
  exact ⟨l₁, l₂, rfl, hnot, by simp [List.idxOf_append, hnot]⟩

private theorem exec_effect (hl : q.Holds h l) (ho : o.Legal l) : ∃ q', o.exec h q = some q' ∧
    Effect q q' h l o (o.apply l) := by
  cases o with
  | insertHead elm =>
    have hfirst : q.first h ≠ some elm := fun e => ho (List.mem_of_head? (hl.first_eq.symm.trans e))
    have heff : Effect q (listInsertHead q h elm) h l (insertHead elm) ([] ++ elm :: l) :=
      .put rfl ho rfl (listInsertHead_spliced hfirst)
    exact ⟨_, rfl, heff⟩
  | insertAfter listelm elm =>
    obtain ⟨hmem, hnot⟩ := ho
    obtain ⟨l₁, l₂, rfl, -, hidx⟩ := exists_split hmem
    have hne : elm ≠ listelm := fun e => hnot (e ▸ hmem)
    have hnext : q.next listelm ≠ some elm := by
      intro e
      have hrest : q.Chain (LinkedLists.endAddr (.first h) l₁) (listelm :: l₂) := LinkedLists.Chain.rest hl
      have hhead : q.next listelm = l₂.head? := hrest.2.2.load_eq
      rw [e] at hhead
      exact hnot (by simp [List.mem_of_head? hhead.symm])
    have hend : LinkedLists.endAddr (.first h) (l₁ ++ [listelm]) = (.next listelm : LinkAddr η α) :=
      LinkedLists.endAddr_append ..
    have hsplit : l₁ ++ listelm :: l₂ = (l₁ ++ [listelm]) ++ l₂ := by simp
    have happly : (insertAfter listelm elm).apply (l₁ ++ listelm :: l₂) = (l₁ ++ [listelm]) ++ elm :: l₂ := by
      have hlen : l₁.length + 1 = (l₁ ++ [listelm]).length := by simp
      rw [apply, hidx, hsplit, hlen, insertIdx_append]
    rw [happly]
    exact ⟨_, rfl, .put rfl hnot hsplit (hend.symm ▸ listInsertAfter_spliced hne hnext)⟩
  | insertBefore listelm elm =>
    obtain ⟨hmem, hnot⟩ := ho
    obtain ⟨l₁, l₂, rfl, -, hidx⟩ := exists_split hmem
    have hne : elm ≠ listelm := fun e => hnot (e ▸ hmem)
    have haddr : LinkedLists.endAddr (.first h) l₁ ≠ .next elm := by
      rcases LinkedLists.endAddr_cases (LinkAddr.first h) l₁ with e | ⟨c, hc, e⟩
      · rw [e]
        exact nofun
      · rw [e]
        intro e'
        obtain rfl := LinkAddr.next.inj e'
        exact hnot (List.mem_append_left _ hc)
    have hrest : q.Chain (LinkedLists.endAddr (.first h) l₁) (listelm :: l₂) := LinkedLists.Chain.rest hl
    obtain ⟨q', hq', hs⟩ := listInsertBefore_spliced hrest.2.1 hrest.1 hne haddr
    rw [apply, hidx, insertIdx_append]
    exact ⟨q', hq', .put rfl hnot rfl hs⟩
  | remove elm =>
    obtain ⟨l₁, l₂, rfl, hnot, -⟩ := exists_split ho
    obtain ⟨q', hq', hs⟩ := listRemove_cut (LinkedLists.Chain.prev_eq hl)
    rw [apply, List.erase_append_right _ hnot, List.erase_cons_head]
    exact ⟨q', hq', .takeOut rfl hs⟩

omit [DecidableEq η] [DecidableEq α] in
private theorem Effect.holds (he : Effect q q' h l o l') (hl : q.Holds h l) : q'.Holds h l' := by
  cases he with
  | put ho ha heq hs =>
    subst heq
    exact hl.splice ha hs
  | takeOut heq hs =>
    subst heq
    exact hs.chain hl (LinkedLists.outside_first h _)

omit [DecidableEq η] [DecidableEq α] in
/-- The list at another head that shares no element with this one is left alone. -/
theorem Effect.other {l₃ : List α} (he : Effect q q' h l o l₃) (hl : q.Holds h l) (hl' : q.Holds h' l') (hh : h' ≠ h)
    (hapart : ∀ c ∈ l', c ∉ l) (hputs : ∀ a, o.Puts a → a ∉ l') : q'.Holds h' l' := by
  -- the place is in the head `h` or in an element of `l`
  have hplace (l₁ : List α) (hsub : ∀ c ∈ l₁, c ∈ l) :
      .first h' ≠ LinkedLists.endAddr (.first h) l₁ ∧ LinkedLists.Outside (LinkedLists.endAddr (.first h) l₁) l' := by
    rcases LinkedLists.endAddr_cases (LinkAddr.first h) l₁ with e | ⟨c, hc, e⟩
    · rw [e]
      exact ⟨fun e' => hh (LinkAddr.first.inj e'), LinkedLists.outside_first h l'⟩
    · rw [e]
      refine ⟨nofun, fun d hd e' => ?_⟩
      obtain rfl := LinkAddr.next.inj e'
      exact hapart c hd (hsub c hc)
  cases he with
  | @put _ a l₁ l₂ ho ha heq hs =>
    subst heq
    obtain ⟨hne, hout⟩ := hplace l₁ fun c hc => List.mem_append_left _ hc
    refine hs.other hl' hne nofun hout (hputs a ho) fun c hc e => ?_
    have hhead := (LinkedLists.Chain.rest hl).load_eq
    rw [e] at hhead
    exact hapart c hc (List.mem_append_right _ (List.mem_of_head? hhead.symm))
  | @takeOut a l₁ l₂ heq hs =>
    subst heq
    obtain ⟨hne, hout⟩ := hplace l₁ fun c hc => List.mem_append_left _ hc
    refine hs.other hl' hne hout fun c hc e => ?_
    have hrest : q.Chain (LinkedLists.endAddr (.first h) l₁) (a :: l₂) := LinkedLists.Chain.rest hl
    have hhead : q.next a = l₂.head? := hrest.2.2.load_eq
    rw [e] at hhead
    exact hapart c hc (by simp [List.mem_of_head? hhead.symm])

/-- Any sequence of operations does in the heap what it does on the list. -/
theorem run_holds (hl : q.Holds h l) {os : List (ListOp α)} (hos : AllLegal l os) :
    ∃ q', os.foldlM (exec h) q = some q' ∧ q'.Holds h (os.foldl apply l) := by
  induction os generalizing q l with
  | nil => exact ⟨q, rfl, hl⟩
  | cons o os ih =>
    obtain ⟨q₁, hq₁, he⟩ := exec_effect hl hos.1
    obtain ⟨q', hq', hl'⟩ := ih (he.holds hl) hos.2
    refine ⟨q', ?_, hl'⟩
    rw [List.foldlM_cons, hq₁]
    exact hq'

/-- A list that is built in an empty one, and loses its first element. -/
theorem run_holds_built : ∃ q' : LinkedLists Unit Nat,
    [insertHead 3, insertAfter 3 5, insertBefore 5 4, remove 3].foldlM (exec ()) (listInit ⟨fun _ => none, fun _ => none, fun _ => none⟩ ()) = some q' ∧
      q'.Holds () [4, 5] :=
  run_holds (listInit_holds _ ()) (by decide)

end ListOp

/-! ### The lists of the kernel -/

section

variable {q : LinkedLists η α} {h : η} {l l' : List α} {a : α}

/-- `LIST_EMPTY`, `LIST_FIRST` and `LIST_REMOVE`, as `page_alloc` and `env_alloc` use them; no element for an empty list. -/
def listTakeFirst (q : LinkedLists η α) (head : η) : Option (Option α × LinkedLists η α) :=
  match q.first head with
  | none => some (none, q)
  | some elm => (listRemove q elm).map fun q => (some elm, q)

private theorem listTakeFirst_holds (hl : q.Holds h l) : ∃ q', listTakeFirst q h = some (l.head?, q') ∧
    q'.Holds h l.tail := by
  cases l with
  | nil => exact ⟨q, by rw [listTakeFirst, hl.first_eq]; rfl, hl⟩
  | cons a l =>
    obtain ⟨q', hq', hs⟩ := listRemove_cut hl.2.1
    refine ⟨q', ?_, hs.chain_head hl (LinkedLists.outside_first h _)⟩
    have hfirst : q.first h = some a := hl.1
    rw [listTakeFirst, hfirst]
    dsimp only
    rw [hq']
    rfl

private theorem listInsertHead_holds (hl : q.Holds h l) (ha : a ∉ l) : (listInsertHead q h a).Holds h (a :: l) := by
  have hfirst : q.first h ≠ some a := fun e => ha (List.mem_of_head? (hl.first_eq.symm.trans e))
  exact (listInsertHead_spliced hfirst).chain_head hl (LinkedLists.outside_first h _) ha

private theorem foldl_insertHead_holds (hl : q.Holds h l) (hnd : (l' ++ l).Nodup) :
    (l'.foldl (fun q a => listInsertHead q h a) q).Holds h (l'.reverse ++ l) := by
  induction l' generalizing q l with
  | nil => exact hl
  | cons a l' ih =>
    obtain ⟨ha, hnd⟩ := List.nodup_cons.1 hnd
    have hl := listInsertHead_holds hl fun hm => ha (List.mem_append_right _ hm)
    have hperm : (l' ++ a :: l).Perm (a :: (l' ++ l)) := List.perm_middle
    have hnew := ih hl (hperm.nodup_iff.2 (List.nodup_cons.2 ⟨ha, hnd⟩))
    simpa using hnew

/-- A loop of `LIST_INSERT_HEAD` builds the list backwards. -/
private theorem built_holds (q : LinkedLists η α) (h : η) (hnd : l.Nodup) :
    (l.foldl (fun q a => listInsertHead q h a) (listInit q h)).Holds h l.reverse := by
  have hnd' : (l ++ []).Nodup := by rwa [List.append_nil]
  have hl := foldl_insertHead_holds (listInit_holds q h) hnd'
  rwa [List.append_nil] at hl

private theorem built_reverse_holds (q : LinkedLists η α) (h : η) (hnd : l.Nodup) :
    (l.reverse.foldl (fun q a => listInsertHead q h a) (listInit q h)).Holds h l := by
  have hl := built_holds q h (List.nodup_reverse.2 hnd)
  rwa [List.reverse_reverse] at hl

end

/-- The loop of `page_init` over the pages from `used` on. -/
def pageInitLists (q : LinkedLists Unit Nat) (npage used : Nat) : LinkedLists Unit Nat :=
  ((List.range npage).drop used).foldl (fun q i => listInsertHead q () i) (listInit q ())

/-- The loop of `env_init`, from the last environment to the first. -/
def envInitLists (q : LinkedLists Unit EnvPtr) : LinkedLists Unit EnvPtr :=
  (List.finRange NENV).reverse.foldl (fun q e => listInsertHead q () e) (listInit q ())

theorem pageInitLists_holds (q : LinkedLists Unit Nat) (npage used : Nat) :
    (pageInitLists q npage used).Holds () (Pmap.pageInit npage used).pageFreeList :=
  built_holds q () ((List.drop_sublist used _).nodup List.nodup_range)

theorem envInitLists_holds (q : LinkedLists Unit EnvPtr) : (envInitLists q).Holds () (List.finRange NENV) := by
  unfold envInitLists
  have hnd : (List.finRange NENV).Nodup := List.nodup_finRange NENV
  generalize List.finRange NENV = l at hnd ⊢
  exact built_reverse_holds q () hnd

namespace Pmap

variable {m m' : Pmap} {p : Nat} {q : LinkedLists Unit Nat}

/-- What `page_alloc` does to `page_free_list`. -/
theorem pageAlloc_lists (hq : q.Holds () m.pageFreeList) :
    (m.pageAlloc = none ∧ listTakeFirst q () = some (none, q)) ∨
      ∃ p m' q', m.pageAlloc = some (p, m') ∧ listTakeFirst q () = some (some p, q') ∧ q'.Holds () m'.pageFreeList := by
  obtain ⟨q', hq', htail⟩ := listTakeFirst_holds hq
  cases hl : m.pageFreeList with
  | nil =>
    left
    rw [hl] at hq
    exact ⟨by rw [pageAlloc, hl], by rw [listTakeFirst, hq.first_eq]; rfl⟩
  | cons p rest =>
    right
    rw [hl] at hq' htail
    exact ⟨p, _, q', by rw [pageAlloc, hl], hq', htail⟩

/-- What `page_free` does to it, for a page that is not free already. -/
theorem pageFree_lists (hq : q.Holds () m.pageFreeList) (hp : p ∉ m.pageFreeList) (h : m.pageFree p = some m') :
    (listInsertHead q () p).Holds () m'.pageFreeList := by
  unfold pageFree at h
  split at h
  case isTrue =>
    cases h
    exact listInsertHead_holds hq hp
  case isFalse => cases h

end Pmap

namespace Kern

variable {k k' : Kern} {e : EnvPtr} {q : LinkedLists Unit EnvPtr}

/-- What `env_alloc` does to `env_free_list`. -/
theorem envAlloc_lists (hq : q.Holds () k.envFreeList) (parentId : Word) :
    (k.envAlloc parentId = none ∧ listTakeFirst q () = some (none, q)) ∨
      ∃ e k' q', k.envAlloc parentId = some (e, k') ∧ listTakeFirst q () = some (some e, q') ∧
        q'.Holds () k'.envFreeList := by
  obtain ⟨q', hq', htail⟩ := listTakeFirst_holds hq
  cases hres : k.envAlloc parentId with
  | none =>
    rw [envAlloc_none hres] at hq
    exact .inl ⟨rfl, by rw [listTakeFirst, hq.first_eq]; rfl⟩
  | some r =>
    obtain ⟨rest, pgdir, pm, asid, bitmap, hl, -, -, hk'⟩ := envAlloc_cases hres
    have hfree : r.2.envFreeList = rest := by
      rw [hk']
      rfl
    rw [hl] at hq' htail
    exact .inr ⟨r.1, r.2, q', rfl, hq', hfree ▸ htail⟩

/-- What `env_free` does to it, for an environment that is not free already. -/
theorem envFree_lists (hq : q.Holds () k.envFreeList) (he : e ∉ k.envFreeList) (h : k.envFree e = some k') :
    (listInsertHead q () e).Holds () k'.envFreeList := by
  obtain ⟨_, _, _, -, -, -, rfl⟩ := envFree_cases h
  exact listInsertHead_holds hq he

end Kern

end Mos
