import Mos.Inv.Tree

/-!
# Reference counts and the free list

The count of a page is the number of references to it, and pages on the free list have none.  `leak` counts references
that were lost with a directory; it is zero as long as `env_free` finds every table.
-/

namespace Mos

/-- The counts are those of the references `f`, up to the lost ones. -/
structure RefOk (mc : Machine) (f : Slot → Option Nat) (leak : Nat → Nat) (m : Pmap) : Prop where
  npage : m.npage = mc.npage
  refs : ∀ p, mc.used ≤ p → (m.ppRef p).toNat = refCount f p + leak p
  nodup : m.pageFreeList.Nodup
  free : ∀ p ∈ m.pageFreeList, (mc.used ≤ p ∧ p < mc.npage) ∧ m.ppRef p = 0

namespace RefOk

variable {mc : Machine} {f : Slot → Option Nat} {leak : Nat → Nat} {m m' : Pmap} {p q : Nat} {rest : List Nat} {s : Slot}

/-- Only the counts and the free list matter. -/
theorem congr (h : RefOk mc f leak m) (hn : m'.npage = m.npage) (href : m'.ppRef = m.ppRef)
    (hfree : m'.pageFreeList = m.pageFreeList) : RefOk mc f leak m' where
  npage := hn.trans h.npage
  refs p hp := by rw [href]; exact h.refs p hp
  nodup := hfree ▸ h.nodup
  free p hp := by rw [href]; exact h.free p (hfree ▸ hp)

/-- Nothing refers to a page without references. -/
theorem unused (h : RefOk mc f leak m) (hp : mc.used ≤ p) (h0 : m.ppRef p = 0) : (∀ s, f s ≠ some p) ∧ leak p = 0 := by
  have href := h.refs p hp
  rw [h0] at href
  have hzero : (0 : BitVec 16).toNat = 0 := rfl
  rw [hzero] at href
  exact ⟨refCount_eq_zero.1 (by omega), by omega⟩

/-- A page that is referred to is not free. -/
theorem notMem_free (h : RefOk mc f leak m) (hs : f s = some p) : p ∉ m.pageFreeList := by
  intro hp
  obtain ⟨⟨hu, -⟩, h0⟩ := h.free p hp
  exact (h.unused hu h0).1 s hs

/-- Taking a page off the free list. -/
theorem take (h : RefOk mc f leak m) (hl : m.pageFreeList = q :: rest) : RefOk mc f leak (m.take q rest) where
  npage := h.npage
  refs := h.refs
  nodup := (List.nodup_cons.1 (hl ▸ h.nodup)).2
  free p hp := h.free p (hl ▸ List.mem_cons_of_mem q hp)

/-- One more reference, counted. -/
theorem incref (h : RefOk mc f leak m) (hs : f s = none) (hp : p ∉ m.pageFreeList) (hmax : m.ppRef p ≠ 65535) :
    RefOk mc (Function.update f s (some p)) leak (m.setRef p (m.ppRef p + 1)) where
  npage := h.npage
  refs q hq := by
    rw [refCount_set hs]
    by_cases hqp : q = p
    · subst hqp
      have href := h.refs q hq
      have hlt : (m.ppRef q).toNat < 65535 := by
        have hle := (m.ppRef q).isLt
        have hne : (m.ppRef q).toNat ≠ 65535 := fun heq => hmax (BitVec.eq_of_toNat_eq heq)
        omega
      simp only [Pmap.setRef, Function.update_self, if_true]
      rw [BitVec.toNat_add, show (1 : BitVec 16).toNat = 1 from rfl]
      omega
    · simp only [Pmap.setRef, Function.update_of_ne hqp, if_neg (Ne.symm hqp), Nat.add_zero]
      exact h.refs q hq
  nodup := h.nodup
  free q hq := by
    have hqp : q ≠ p := fun heq => hp (heq ▸ hq)
    simp only [Pmap.setRef, Function.update_of_ne hqp]
    exact h.free q hq

/-- One reference less, counted. -/
theorem decref (h : RefOk mc f leak m) (hs : f s = some p) (hp : mc.used ≤ p ∧ p < mc.npage)
    (hd : m.pageDecref p = some m') : RefOk mc (Function.update f s none) leak m' := by
  obtain ⟨hne, rfl⟩ := Pmap.pageDecref_cases hd
  have hpos : 0 < (m.ppRef p).toNat := by
    rw [h.refs p hp.1]
    have hcount := refCount_pos hs
    omega
  have hsub : (m.ppRef p - 1).toNat = (m.ppRef p).toNat - 1 := by
    have hlt := (m.ppRef p).isLt
    rw [BitVec.toNat_sub, show (1 : BitVec 16).toNat = 1 from rfl]
    omega
  refine ⟨h.npage, fun q hq => ?_, ?_, fun q hq => ?_⟩
  · have hcount := refCount_clear hs q
    have href := h.refs q hq
    by_cases hqp : q = p
    · subst hqp
      simp only [Pmap.setRef, Function.update_self, if_true] at hcount ⊢
      rw [hsub]
      omega
    · simp only [Pmap.setRef, Function.update_of_ne hqp]
      rw [if_neg (Ne.symm hqp)] at hcount
      omega
  · show List.Nodup (if m.ppRef p - 1 = 0 then p :: m.pageFreeList else m.pageFreeList)
    split
    · exact List.nodup_cons.2 ⟨h.notMem_free hs, h.nodup⟩
    · exact h.nodup
  · replace hq : q ∈ (if m.ppRef p - 1 = 0 then p :: m.pageFreeList else m.pageFreeList) := hq
    by_cases hqp : q = p
    · subst hqp
      refine ⟨hp, ?_⟩
      show Function.update m.ppRef q (m.ppRef q - 1) q = 0
      rw [Function.update_self]
      by_contra h0
      rw [if_neg h0] at hq
      exact h.notMem_free hs hq
    · have hmem : q ∈ m.pageFreeList := by
        split at hq
        · exact (List.mem_cons.1 hq).resolve_left hqp
        · exact hq
      refine ⟨(h.free q hmem).1, ?_⟩
      show Function.update m.ppRef p (m.ppRef p - 1) q = 0
      rw [Function.update_of_ne hqp]
      exact (h.free q hmem).2

/-- Losing references without counting them. -/
theorem lose (h : RefOk mc f leak m) {g : Slot → Option Nat} (hg : ∀ s p, g s = some p → f s = some p) :
    RefOk mc g (fun p => leak p + (refCount f p - refCount g p)) m where
  npage := h.npage
  refs p hp := by
    have href := h.refs p hp
    have hle : refCount g p ≤ refCount f p := refCount_le fun s => hg s p
    omega
  nodup := h.nodup
  free := h.free

end RefOk

end Mos
