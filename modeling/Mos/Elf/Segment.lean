import Mos.Elf.Vacant
import Mos.Inv.Insert

/-!
# What a segment looks like when it is loaded

The loop over the file part starts in the first page where the segment does not start with a page, and the one over the
rest goes on from where that one stopped.  Where the file part ends inside the first page that place is in the middle of
the page, so the page is mapped a second time.
-/

namespace Mos

/-! ### Numbers of pages -/

/-- The page of the number `n`. -/
def vpnOf (n : Nat) : Vpn := (⟨n / 1024 % 1024, Nat.mod_lt _ (by decide)⟩, ⟨n % 1024, Nat.mod_lt _ (by decide)⟩)

private theorem VPN_eq_vpnOf (va : Word) : VPN va = vpnOf (va.toNat / 4096) := by
  refine Prod.ext (Fin.ext ?_) (Fin.ext ?_)
  · simp only [VPN, PDX, vpnOf, BitVec.toNat_ushiftRight, Nat.shiftRight_eq_div_pow, Nat.div_div_eq_div_mul]
  · simp only [VPN, PTX, vpnOf, BitVec.toNat_ushiftRight, Nat.shiftRight_eq_div_pow]

private theorem vpnOf_injective {n n' : Nat} (hn : n < 2 ^ 20) (hn' : n' < 2 ^ 20) (h : vpnOf n = vpnOf n') : n = n' := by
  simp only [vpnOf, Prod.mk.injEq, Fin.mk.injEq] at h
  omega

namespace Phdr

variable {ph : Phdr} {bin : Nat → Byte}

/-! ### The pages of a segment -/

/-- The pages that the segment has bytes in, and the one that it starts in. -/
def pages (ph : Phdr) : Set Vpn := {v | ∃ j ≤ ph.pMemsz.toNat - 1, v = VPN (ph.pVaddr + BitVec.ofNat 32 j)}

/-- The `k`-th page of the segment. -/
def page (ph : Phdr) (k : Nat) : Vpn := vpnOf (ph.pVaddr.toNat / 4096 + k)

/-- The number of pages. -/
def count (ph : Phdr) : Nat := (ph.pVaddr.toNat % 4096 + (ph.pMemsz.toNat - 1)) / 4096 + 1

/-- The pages from the `k`-th one on. -/
def pagesFrom (ph : Phdr) (k : Nat) : Set Vpn := {v | ∃ k', k ≤ k' ∧ k' < ph.count ∧ v = ph.page k'}

/-- The byte at the distance `y` from the beginning of the first page. -/
def byte (ph : Phdr) (bin : Nat → Byte) (y : Nat) : Byte :=
  if ph.pVaddr.toNat % 4096 ≤ y ∧ y < ph.pVaddr.toNat % 4096 + ph.pFilesz.toNat then bin (y - ph.pVaddr.toNat % 4096) else 0

section

variable (hwrap : ph.pVaddr.toNat + ph.pMemsz.toNat ≤ 2 ^ 32)

include hwrap

/-- An address of the segment. -/
private theorem add_toNat {j : Nat} (hj : j ≤ ph.pMemsz.toNat - 1) :
    (ph.pVaddr + BitVec.ofNat 32 j).toNat = ph.pVaddr.toNat + j := by
  have hva := ph.pVaddr.isLt
  have hm := ph.pMemsz.isLt
  rw [BitVec.toNat_add, BitVec.toNat_ofNat]
  omega

private theorem VPN_add {j : Nat} (hj : j ≤ ph.pMemsz.toNat - 1) :
    VPN (ph.pVaddr + BitVec.ofNat 32 j) = ph.page ((ph.pVaddr.toNat % 4096 + j) / 4096) := by
  have hdiv : (ph.pVaddr.toNat + j) / 4096 = ph.pVaddr.toNat / 4096 + (ph.pVaddr.toNat % 4096 + j) / 4096 := by omega
  rw [VPN_eq_vpnOf, add_toNat hwrap hj, hdiv]
  rfl

private theorem page_lt {k : Nat} (hk : k < ph.count) : ph.pVaddr.toNat / 4096 + k < 2 ^ 20 := by
  have hva := ph.pVaddr.isLt
  unfold count at hk
  omega

private theorem page_injective {k k' : Nat} (hk : k < ph.count) (hk' : k' < ph.count) (h : ph.page k = ph.page k') : k =
    k' := by
  have heq := vpnOf_injective (page_lt hwrap hk) (page_lt hwrap hk') h
  omega

private theorem pagesFrom_zero : ph.pagesFrom 0 ⊆ ph.pages := by
  rintro v ⟨k, -, hk, rfl⟩
  unfold count at hk
  have hj : 4096 * k - ph.pVaddr.toNat % 4096 ≤ ph.pMemsz.toNat - 1 := by omega
  refine ⟨4096 * k - ph.pVaddr.toNat % 4096, hj, ?_⟩
  rw [VPN_add hwrap hj]
  by_cases h0 : k = 0
  · subst h0
    have hdiv : (ph.pVaddr.toNat % 4096 + (4096 * 0 - ph.pVaddr.toNat % 4096)) / 4096 = 0 := by omega
    rw [hdiv]
  · have hdiv : (ph.pVaddr.toNat % 4096 + (4096 * k - ph.pVaddr.toNat % 4096)) / 4096 = k := by omega
    rw [hdiv]

/-- A page that is mapped is not among the later ones. -/
private theorem pagesFrom_succ {k : Nat} (hk : k < ph.count) : ph.pagesFrom (k + 1) ⊆ ph.pagesFrom k \ {ph.page k} := by
  rintro v ⟨k', hle, hlt, rfl⟩
  refine ⟨⟨k', by omega, hlt, rfl⟩, fun heq => ?_⟩
  have hkk := page_injective hwrap hlt hk heq
  omega

end

private theorem mem_pagesFrom {k : Nat} (hk : k < ph.count) : ph.page k ∈ ph.pagesFrom k := ⟨k, Nat.le_refl k, hk, rfl⟩

end Phdr

/-! ### Reading the address space -/

namespace Pmap

variable {m : Pmap} {d t p : Nat} {S : Set Vpn} {va w : Word} {f : Idx → Word}

private theorem Mapped.lookup (h : Mapped m d S (VPN va) w f t p) : m.pageLookup d va = some (some (p, t, PTX va)) := by
  obtain ⟨hv, ht⟩ := entry_eq_some.1 h.pde
  obtain ⟨hw, hp⟩ := entry_eq_some.1 h.page
  have ht : PPN (m.word d (PDX va)) = t := ht
  have hpte : m.word t (PTX va) = w := h.pte
  have hlt : PPN (m.word d (PDX va)) < m.npage := ht ▸ h.lt
  rw [pageLookup, pgdirWalk_valid false hv hlt, Option.bind_some]
  dsimp only
  rw [ht, hpte, if_pos hw, pa2page, hp, if_pos h.inUse.lt]
  rfl

private theorem Mapped.byteAt (h : Mapped m d S (VPN va) w f t p) : m.byteAt d va =
    some (frameByte f (va.toNat % 4096)) := by
  rw [Pmap.byteAt, h.lookup, ← h.content]
  rfl

private theorem Mapped.pteAt (h : Mapped m d S (VPN va) w f t p) : m.pteAt d va = some w := by
  rw [Pmap.pteAt, h.lookup, ← h.pte]
  rfl

end Pmap

/-! ### A segment in the middle of loading -/

/-- The first `k` pages are there, with the requests that were made for them. -/
structure LoadedTo (ph : Phdr) (bin : Nat → Byte) (d k : Nat) (s : Pmap × List MapCall) : Prop where
  vacant : s.1.Vacant d (ph.pagesFrom k)
  room : k + s.1.pageFreeList.length ≤ 2 ^ 17
  le : k ≤ ph.count
  mapped : ∀ k' < k, ∃ f t p, s.1.Mapped d (ph.pagesFrom k) (ph.page k') (page2pa p ||| ph.perm ||| PTE_V) f t p ∧
    ∀ x < 4096, frameByte f x = ph.byte bin (4096 * k' + x)
  calls : s.2.map (fun c => VPN c.va) = (List.range k).map ph.page
  fits : ∀ c ∈ s.2, c.offset.toNat + c.len.toNat ≤ 4096

section

variable {ph : Phdr} {bin : Nat → Byte} {d k n : Nat} {s s' : Pmap × List MapCall} {asid : Asid} {i i' : Word}

/-- The free list holds no frame twice. -/
private theorem Pmap.Vacant.length_le {m : Pmap} {S : Set Vpn} (h : m.Vacant d S) : m.pageFreeList.length ≤ 2 ^ 17 := by
  have hsub : m.pageFreeList ⊆ List.range (2 ^ 17) := fun p hp =>
    List.mem_range.2 (Nat.lt_of_lt_of_le (h.bound p hp) h.kseg0)
  have hlen := (h.nodup.subperm hsub).length_le
  rwa [List.length_range] at hlen

private theorem LoadedTo.start (hwrap : ph.pVaddr.toNat + ph.pMemsz.toNat ≤ 2 ^ 32) {m : Pmap} (h : m.Vacant d ph.pages) :
    LoadedTo ph bin d 0 (m, []) where
  vacant := h.mono (Phdr.pagesFrom_zero hwrap)
  room := by
    have hlen := h.length_le
    dsimp only
    omega
  le := Nat.zero_le _
  mapped := fun _ hk => absurd hk (Nat.not_lt_zero _)
  calls := rfl
  fits := nofun

/-- A request for the next page with the bytes of the segment in it. -/
private theorem LoadedTo.step (h : LoadedTo ph bin d k s) (hwrap : ph.pVaddr.toNat + ph.pMemsz.toNat ≤ 2 ^ 32)
    (hk : k < ph.count) {va offset len : Word} {src : Option (Nat → Byte)} (hva : VPN va = ph.page k)
    (hfit : offset.toNat + len.toNat ≤ 4096)
    (himage : ∀ x < 4096, pageImage offset.toNat src len.toNat x = ph.byte bin (4096 * k + x))
    (hr : logged (Elf.loadIcodeMapper d asid) s va offset ph.perm src len = some (0, s')) :
    LoadedTo ph bin d (k + 1) s' := by
  rw [logged, Option.map_eq_some_iff] at hr
  obtain ⟨⟨r, m'⟩, hmap, heq⟩ := hr
  simp only [Prod.mk.injEq] at heq
  obtain ⟨rfl, rfl⟩ := heq
  have hmem : VPN va ∈ ph.pagesFrom k := hva ▸ Phdr.mem_pagesFrom hk
  obtain ⟨hvac, ⟨f, t, p, hnew, hbytes⟩, hkept, hlen⟩ := h.vacant.map hmem ph.PPN_perm hfit hmap
  have hsub := Phdr.pagesFrom_succ hwrap hk
  rw [hva] at hvac hnew hkept
  constructor
  · exact hvac.mono hsub
  · have hroom := h.room
    dsimp only
    omega
  · exact hk
  · intro k' hk'
    by_cases hlast : k' = k
    · subst hlast
      exact ⟨f, t, p, hnew.mono hsub, fun x hx => (hbytes x hx).trans (himage x hx)⟩
    · obtain ⟨f', t', p', hold, hbytes'⟩ := h.mapped k' (by omega)
      exact ⟨f', t', p', (hkept hold).mono hsub, hbytes'⟩
  · rw [List.map_append, h.calls, List.range_succ, List.map_append, List.map_singleton, List.map_singleton, hva]
  · intro c hc
    rcases List.mem_append.1 hc with hc | hc
    · exact h.fits c hc
    · rw [List.mem_singleton.1 hc]
      exact hfit

/-- The next index of a loop. -/
private theorem LoadedTo.next_index (h : LoadedTo ph bin d (k + 1) s) (hi : i.toNat + ph.pVaddr.toNat % 4096 = 4096 * k) :
    (i + BY2PG).toNat + ph.pVaddr.toNat % 4096 = 4096 * (k + 1) := by
  have hroom := h.room
  have hpg : BY2PG.toNat = 4096 := rfl
  rw [BitVec.toNat_add, hpg]
  omega

/-- The page of an index of a loop. -/
private theorem page_of_index (hwrap : ph.pVaddr.toNat + ph.pMemsz.toNat ≤ 2 ^ 32)
    (hi : i.toNat + ph.pVaddr.toNat % 4096 = 4096 * k) (hlt : i.toNat < ph.pMemsz.toNat) :
    VPN (ph.pVaddr + i) = ph.page k ∧ k < ph.count := by
  have hle : i.toNat ≤ ph.pMemsz.toNat - 1 := by omega
  have hpage := Phdr.VPN_add hwrap hle
  have hdiv : (ph.pVaddr.toNat % 4096 + i.toNat) / 4096 = k := by omega
  rw [BitVec.ofNat_toNat, BitVec.setWidth_eq, hdiv] at hpage
  refine ⟨hpage, ?_⟩
  unfold Phdr.count
  omega

private theorem LoadedTo.dataLoop (hwrap : ph.pVaddr.toNat + ph.pMemsz.toNat ≤ 2 ^ 32) (hsize : ph.pFilesz ≤ ph.pMemsz)
    (h : LoadedTo ph bin d k s) (hi : i.toNat + ph.pVaddr.toNat % 4096 = 4096 * k)
    (hr : dataLoop (logged (Elf.loadIcodeMapper d asid)) ph.pVaddr ph.pFilesz ph.perm bin n i s = some (0, i', s')) :
    ∃ k', LoadedTo ph bin d k' s' ∧ i'.toNat + ph.pVaddr.toNat % 4096 = 4096 * k' ∧ ph.pFilesz.toNat ≤ i'.toNat := by
  induction n generalizing k i s with
  | zero => cases hr
  | succ n ih =>
    rw [Mos.dataLoop] at hr
    by_cases hlt : i < ph.pFilesz
    · rw [if_pos hlt] at hr
      obtain ⟨s₁, hmap, hr⟩ := (orReturn_eq_zero fun _ _ => rfl).1 hr
      have hlt : i.toNat < ph.pFilesz.toNat := hlt
      have hsize : ph.pFilesz.toNat ≤ ph.pMemsz.toNat := hsize
      obtain ⟨hpage, hk⟩ := page_of_index hwrap hi (by omega)
      have hlen : (MIN (ph.pFilesz - i) BY2PG).toNat = min (ph.pFilesz.toNat - i.toNat) 4096 := by
        have hsub : (ph.pFilesz - i).toNat = ph.pFilesz.toNat - i.toNat := BitVec.toNat_sub_of_le (Nat.le_of_lt hlt)
        rw [MIN_toNat, hsub]
        rfl
      have hstep : LoadedTo ph bin d (k + 1) s₁ := by
        refine h.step hwrap hk hpage ?_ (fun x hx => ?_) hmap
        · rw [hlen]
          exact le_of_eq_of_le (Nat.zero_add _) (Nat.min_le_right _ _)
        · rw [hlen]
          have hdist : 4096 * k + x - ph.pVaddr.toNat % 4096 = i.toNat + x := by omega
          simp only [pageImage, Phdr.byte, hdist]
          by_cases hin : i.toNat + x < ph.pFilesz.toNat
          · rw [if_pos (by simp; omega), if_pos (by omega)]
            rfl
          · rw [if_neg (by simp; omega), if_neg (by omega)]
      exact ih hstep (hstep.next_index hi) hr
    · rw [if_neg hlt] at hr
      simp only [Option.some.injEq, Prod.mk.injEq, true_and] at hr
      obtain ⟨rfl, rfl⟩ := hr
      exact ⟨k, h, hi, Nat.le_of_not_lt hlt⟩

private theorem LoadedTo.bssLoop (hwrap : ph.pVaddr.toNat + ph.pMemsz.toNat ≤ 2 ^ 32)
    (h : LoadedTo ph bin d k s) (hi : i.toNat + ph.pVaddr.toNat % 4096 = 4096 * k) (hfile : ph.pFilesz.toNat ≤ i.toNat)
    (hr : bssLoop (logged (Elf.loadIcodeMapper d asid)) ph.pVaddr ph.pFilesz ph.pMemsz ph.perm n i s = some (0, s')) :
    ∃ k', LoadedTo ph bin d k' s' ∧ ph.pVaddr.toNat % 4096 + ph.pMemsz.toNat ≤ 4096 * k' := by
  induction n generalizing k i s with
  | zero => cases hr
  | succ n ih =>
    rw [Mos.bssLoop] at hr
    by_cases hlt : i < ph.pMemsz
    · rw [if_pos hlt] at hr
      obtain ⟨s₁, hmap, hr⟩ := (orReturn_eq_zero fun _ _ => rfl).1 hr
      obtain ⟨hpage, hk⟩ := page_of_index hwrap hi hlt
      have hstep : LoadedTo ph bin d (k + 1) s₁ := by
        refine h.step hwrap hk hpage ?_ (fun x hx => ?_) hmap
        · rw [MIN_toNat]
          exact le_of_eq_of_le (Nat.zero_add _) (Nat.min_le_right _ _)
        · rw [Phdr.byte, if_neg (by omega)]
          rfl
      have hnext := hstep.next_index hi
      exact ih hstep hnext (by omega) hr
    · rw [if_neg hlt] at hr
      simp only [Option.some.injEq, Prod.mk.injEq, true_and] at hr
      subst hr
      have hle : ph.pMemsz.toNat ≤ i.toNat := Nat.le_of_not_lt hlt
      exact ⟨k, h, by omega⟩

private theorem LoadedTo.rest (hwrap : ph.pVaddr.toNat + ph.pMemsz.toNat ≤ 2 ^ 32) (hsize : ph.pFilesz ≤ ph.pMemsz)
    (h : LoadedTo ph bin d k s) (hi : i.toNat + ph.pVaddr.toNat % 4096 = 4096 * k)
    (hr : elfLoadRest (logged (Elf.loadIcodeMapper d asid)) n ph bin i s = some (0, s')) :
    ∃ k', LoadedTo ph bin d k' s' ∧ ph.pVaddr.toNat % 4096 + ph.pMemsz.toNat ≤ 4096 * k' := by
  obtain ⟨⟨i₁, s₁⟩, hdata, hbss⟩ := (orReturn_eq_zero fun _ _ => rfl).1 hr
  obtain ⟨k₁, h₁, hi₁, hfile⟩ := h.dataLoop hwrap hsize hi hdata
  exact h₁.bssLoop hwrap hi₁ hfile hbss

/-- All pages of a regular segment are loaded. -/
private theorem loadedTo_of_regular (hwrap : ph.pVaddr.toNat + ph.pMemsz.toNat ≤ 2 ^ 32) (hsize : ph.pFilesz ≤ ph.pMemsz)
    (hreg : ph.offset = 0 ∨ BY2PG - ph.offset ≤ ph.pFilesz ∨ ph.pFilesz = ph.pMemsz) (h : LoadedTo ph bin d 0 s)
    (hr : elfLoadSeg (logged (Elf.loadIcodeMapper d asid)) n ph bin s = some (0, s')) :
    ∃ k', LoadedTo ph bin d k' s' ∧ ph.pVaddr.toNat % 4096 + ph.pMemsz.toNat ≤ 4096 * k' := by
  have hoff := ph.offset_toNat
  rw [elfLoadSeg] at hr
  by_cases ho : ph.offset ≠ 0
  · rw [if_pos ho] at hr
    obtain ⟨s₁, hmap, hr⟩ := (orReturn_eq_zero fun _ _ => rfl).1 hr
    have hroom := ph.room_toNat
    have hpage : VPN ph.pVaddr = ph.page 0 := VPN_eq_vpnOf _
    have h₁ : LoadedTo ph bin d 1 s₁ := by
      refine h.step hwrap (Nat.zero_lt_succ _) hpage ?_ (fun x hx => ?_) hmap
      · rw [MIN_toNat, hroom]
        omega
      · rw [MIN_toNat, hroom, hoff, Nat.mul_zero, Nat.zero_add]
        simp only [pageImage, Phdr.byte]
        by_cases hin : ph.pVaddr.toNat % 4096 ≤ x ∧ x < ph.pVaddr.toNat % 4096 + ph.pFilesz.toNat
        · rw [if_pos hin, if_pos (by omega)]
        · rw [if_neg hin, if_neg (by omega)]
    by_cases hlong : BY2PG - ph.offset ≤ ph.pFilesz
    · have hlong' : (BY2PG - ph.offset).toNat ≤ ph.pFilesz.toNat := hlong
      refine h₁.rest hwrap hsize ?_ hr
      rw [MIN_toNat, hroom]
      omega
    · -- the segment ends in its first page
      have heq : ph.pFilesz = ph.pMemsz := (hreg.resolve_left ho).resolve_left hlong
      have hshort : ph.pFilesz.toNat < (BY2PG - ph.offset).toNat := Nat.lt_of_not_le hlong
      have hmin : MIN ph.pFilesz (BY2PG - ph.offset) = ph.pFilesz := if_pos (Nat.le_of_lt hshort)
      rw [hmin] at hr
      obtain ⟨⟨i₁, s₂⟩, hdata, hbss⟩ := (orReturn_eq_zero fun _ _ => rfl).1 hr
      cases n with
      | zero => cases hdata
      | succ n =>
        have hirr : ¬ph.pFilesz < ph.pFilesz := Nat.lt_irrefl _
        rw [dataLoop, if_neg hirr] at hdata
        simp only [Option.some.injEq, Prod.mk.injEq, true_and] at hdata
        obtain ⟨rfl, rfl⟩ := hdata
        have hirr' : ¬ph.pFilesz < ph.pMemsz := heq ▸ hirr
        dsimp only at hbss
        rw [bssLoop, if_neg hirr'] at hbss
        simp only [Option.some.injEq, Prod.mk.injEq, true_and] at hbss
        subst hbss
        refine ⟨1, h₁, ?_⟩
        rw [← heq]
        omega
  · rw [if_neg ho] at hr
    have hzero : ph.pVaddr.toNat % 4096 = 0 := Phdr.offset_eq_zero.1 (not_not.1 ho)
    exact h.rest hwrap hsize (by rw [hzero]; rfl) hr

/-! ### Irregular segments -/

/-- The loop only adds requests. -/
private theorem bssLoop_calls {σ : Type} {mapPage : ElfMapper σ} {va binSize sgsize perm i r : Word}
    {s s' : σ × List MapCall}
    (hr : bssLoop (logged mapPage) va binSize sgsize perm n i s = some (r, s')) : ∃ l, s'.2 = s.2 ++ l := by
  induction n generalizing i s with
  | zero => cases hr
  | succ n ih =>
    rw [bssLoop] at hr
    split at hr
    case isTrue =>
      rw [orReturn, Option.bind_eq_some_iff] at hr
      obtain ⟨⟨r₁, s₁⟩, hmap, hr⟩ := hr
      rw [logged, Option.map_eq_some_iff] at hmap
      obtain ⟨⟨r₂, m₁⟩, -, heq⟩ := hmap
      simp only [Prod.mk.injEq] at heq
      obtain ⟨rfl, rfl⟩ := heq
      dsimp only at hr
      split at hr
      case isTrue =>
        simp only [Option.some.injEq, Prod.mk.injEq] at hr
        obtain ⟨-, rfl⟩ := hr
        exact ⟨_, rfl⟩
      case isFalse =>
        obtain ⟨l, hl⟩ := ih hr
        exact ⟨_, hl.trans (List.append_assoc ..)⟩
    case isFalse =>
      simp only [Option.some.injEq, Prod.mk.injEq] at hr
      obtain ⟨-, rfl⟩ := hr
      exact ⟨[], (List.append_nil _).symm⟩

/-- The first page is mapped again. -/
private theorem not_nodup_of_irregular {m m' : Pmap} {calls : List MapCall} (hsize : ph.pFilesz ≤ ph.pMemsz)
    (hreg : ¬(ph.offset = 0 ∨ BY2PG - ph.offset ≤ ph.pFilesz ∨ ph.pFilesz = ph.pMemsz))
    (hr : elfLoadSeg (logged (Elf.loadIcodeMapper d asid)) n ph bin (m, []) = some (0, m', calls)) :
    ¬(calls.map fun c => VPN c.va).Nodup := by
  simp only [not_or] at hreg
  obtain ⟨ho, hshort, hne⟩ := hreg
  have hoff := ph.offset_toNat
  have hshort : ph.pFilesz.toNat < (BY2PG - ph.offset).toNat := Nat.lt_of_not_le hshort
  have hmin : MIN ph.pFilesz (BY2PG - ph.offset) = ph.pFilesz := if_pos (Nat.le_of_lt hshort)
  have hbss : ph.pFilesz < ph.pMemsz := by
    have hsize : ph.pFilesz.toNat ≤ ph.pMemsz.toNat := hsize
    have hne : ph.pFilesz.toNat ≠ ph.pMemsz.toNat := fun heq => hne (BitVec.eq_of_toNat_eq heq)
    show ph.pFilesz.toNat < ph.pMemsz.toNat
    omega
  rw [elfLoadSeg, if_pos ho, hmin] at hr
  obtain ⟨s₁, hfirst, hr⟩ := (orReturn_eq_zero fun _ _ => rfl).1 hr
  obtain ⟨⟨i₁, s₂⟩, hdata, hr⟩ := (orReturn_eq_zero fun _ _ => rfl).1 hr
  cases n with
  | zero => cases hdata
  | succ n =>
    have hirr : ¬ph.pFilesz < ph.pFilesz := Nat.lt_irrefl _
    rw [dataLoop, if_neg hirr] at hdata
    simp only [Option.some.injEq, Prod.mk.injEq, true_and] at hdata
    obtain ⟨rfl, rfl⟩ := hdata
    dsimp only at hr
    rw [bssLoop, if_pos hbss] at hr
    obtain ⟨s₃, hsecond, hr⟩ := (orReturn_eq_zero fun _ _ => rfl).1 hr
    obtain ⟨l, hl⟩ := bssLoop_calls hr
    rw [logged, Option.map_eq_some_iff] at hfirst hsecond
    obtain ⟨⟨r, m₁⟩, -, heq⟩ := hfirst
    simp only [Prod.mk.injEq] at heq
    obtain ⟨-, rfl⟩ := heq
    obtain ⟨⟨r', m₂⟩, -, heq'⟩ := hsecond
    simp only [Prod.mk.injEq] at heq'
    obtain ⟨-, rfl⟩ := heq'
    have hpage : VPN (ph.pVaddr + ph.pFilesz) = VPN ph.pVaddr := by
      have hroom := ph.room_toNat
      have hva := ph.pVaddr.isLt
      have hdiv : (ph.pVaddr + ph.pFilesz).toNat / 4096 = ph.pVaddr.toNat / 4096 := by
        rw [BitVec.toNat_add]
        omega
      rw [VPN_eq_vpnOf, VPN_eq_vpnOf, hdiv]
    have hcalls : calls = _ := hl
    rw [hcalls]
    simp [hpage]

/-! ### The result -/

/-- What loading a segment is for.  The entry of a page that has bytes of the segment, or that the loader asked for, grants
writing exactly where the header says so. -/
structure SegLoaded (m : Pmap) (d : Nat) (ph : Phdr) (bin : Nat → Byte) (calls : List MapCall) : Prop where
  file : ∀ j < ph.pFilesz.toNat, m.byteAt d (ph.pVaddr + BitVec.ofNat 32 j) = some (bin j)
  bss : ∀ j, ph.pFilesz.toNat ≤ j → j < ph.pMemsz.toNat → m.byteAt d (ph.pVaddr + BitVec.ofNat 32 j) = some 0
  perm : ∀ va, (∃ j < ph.pMemsz.toNat, va = ph.pVaddr + BitVec.ofNat 32 j) ∨ (∃ c ∈ calls, va = c.va) →
    ∃ w, m.pteAt d va = some w ∧ has w PTE_V = true ∧ has w PTE_D = has ph.pFlags PF_W
  once : (calls.map fun c => VPN c.va).Nodup
  fits : ∀ c ∈ calls, c.offset.toNat + c.len.toNat ≤ 4096

private theorem LoadedTo.segLoaded (hwrap : ph.pVaddr.toNat + ph.pMemsz.toNat ≤ 2 ^ 32) (hsize : ph.pFilesz ≤ ph.pMemsz)
    (h : LoadedTo ph bin d k s) (hend : ph.pVaddr.toNat % 4096 + ph.pMemsz.toNat ≤ 4096 * k) :
    SegLoaded s.1 d ph bin s.2 := by
  have hsize : ph.pFilesz.toNat ≤ ph.pMemsz.toNat := hsize
  have hmapped : ∀ j < ph.pMemsz.toNat, ∃ f t p, s.1.Mapped d (ph.pagesFrom k) (VPN (ph.pVaddr + BitVec.ofNat 32 j))
      (page2pa p ||| ph.perm ||| PTE_V) f t p ∧
      frameByte f ((ph.pVaddr + BitVec.ofNat 32 j).toNat % 4096) = ph.byte bin (ph.pVaddr.toNat % 4096 + j) := by
    intro j hj
    have hle : j ≤ ph.pMemsz.toNat - 1 := by omega
    obtain ⟨f, t, p, hmap, hbytes⟩ := h.mapped ((ph.pVaddr.toNat % 4096 + j) / 4096) (by omega)
    rw [← Phdr.VPN_add hwrap hle] at hmap
    refine ⟨f, t, p, hmap, ?_⟩
    have hbyte := hbytes ((ph.pVaddr.toNat % 4096 + j) % 4096) (Nat.mod_lt _ (by decide))
    rw [Nat.div_add_mod] at hbyte
    have hmod : (ph.pVaddr.toNat + j) % 4096 = (ph.pVaddr.toNat % 4096 + j) % 4096 := by omega
    rw [Phdr.add_toNat hwrap hle, hmod, hbyte]
  have hread : ∀ j < ph.pMemsz.toNat, s.1.byteAt d (ph.pVaddr + BitVec.ofNat 32 j) =
      some (ph.byte bin (ph.pVaddr.toNat % 4096 + j)) := by
    intro j hj
    obtain ⟨f, t, p, hmap, hbyte⟩ := hmapped j hj
    rw [hmap.byteAt, hbyte]
  have hentry : ∀ {va f t p}, s.1.Mapped d (ph.pagesFrom k) (VPN va) (page2pa p ||| ph.perm ||| PTE_V) f t p →
      ∃ w, s.1.pteAt d va = some w ∧ has w PTE_V = true ∧ has w PTE_D = has ph.pFlags PF_W :=
    fun hmap => ⟨_, hmap.pteAt, entry_V _ _, (entry_D _ _).trans ph.has_perm_D⟩
  constructor
  · intro j hj
    rw [hread j (by omega), Phdr.byte, if_pos (by omega), Nat.add_sub_cancel_left]
  · intro j hj hlt
    rw [hread j hlt, Phdr.byte, if_neg (by omega)]
  · rintro va (⟨j, hj, rfl⟩ | ⟨c, hc, rfl⟩)
    · obtain ⟨f, t, p, hmap, -⟩ := hmapped j hj
      exact hentry hmap
    · have hmem : VPN c.va ∈ (List.range k).map ph.page := h.calls ▸ List.mem_map_of_mem hc
      obtain ⟨k', hk', hpage⟩ := List.mem_map.1 hmem
      obtain ⟨f, t, p, hmap, -⟩ := h.mapped k' (List.mem_range.1 hk')
      exact hentry (hpage ▸ hmap)
  · rw [h.calls]
    refine List.nodup_range.map_on fun k₁ h₁ k₂ h₂ heq => ?_
    have hle := h.le
    exact Phdr.page_injective hwrap (Nat.lt_of_lt_of_le (List.mem_range.1 h₁) hle)
      (Nat.lt_of_lt_of_le (List.mem_range.1 h₂) hle) heq
  · exact h.fits

/-- Loading is right unless the segment starts inside a page, has less file bytes than that page has room for, and has more
bytes than these. -/
theorem segLoaded_iff {m m' : Pmap} {calls : List MapCall} (hsize : ph.pFilesz ≤ ph.pMemsz)
    (hwrap : ph.pVaddr.toNat + ph.pMemsz.toNat ≤ 2 ^ 32) (hvacant : m.Vacant d ph.pages)
    (hr : elfLoadSeg (logged (Elf.loadIcodeMapper d asid)) n ph bin (m, []) = some (0, m', calls)) :
    SegLoaded m' d ph bin calls ↔
      ph.offset = 0 ∨ BY2PG - ph.offset ≤ ph.pFilesz ∨ ph.pFilesz = ph.pMemsz := by
  constructor
  · intro h
    by_contra hreg
    exact not_nodup_of_irregular hsize hreg hr h.once
  · intro hreg
    obtain ⟨k, h, hend⟩ := loadedTo_of_regular hwrap hsize hreg (.start hwrap hvacant) hr
    exact h.segLoaded hwrap hsize hend

end

/-! ### The address space of an environment -/

/-- Pages below `UTOP` that are not mapped can be mapped, in every state of the kernel. -/
private theorem Mem.Ok.vacant {mc : Machine} {leak : Nat → Nat} {D : Dirs} {m : Pmap} {e : EnvPtr} {d : Nat} {S : Set Vpn}
    (h : Mem.Ok mc leak ⟨D, m⟩) (hd : D e = some d) (hlow : ∀ v ∈ S, v.1 < PDX UTOP)
    (hfree : ∀ v ∈ S, Mem.user ⟨D, m⟩ e v = none) : m.Vacant d S := by
  have hpde : ∀ {v t}, v ∈ S → entry (m.word d v.1) = some t → Mos.target mc D m.word (.pde e v.1) = some t :=
    fun hv ht => (target_pde hd (userIdx_of_lt (hlow _ hv))).trans ht
  constructor
  · exact h.refs.nodup
  · intro p hp
    rw [h.npage]
    exact (h.refs.free p hp).1.2
  · rw [h.npage]
    exact mc.kseg0
  · exact h.refs.notMem_free (s := .dir e) hd
  · exact fun v hv t ht => h.refs.notMem_free (hpde hv ht)
  · intro v hv v' hv' t ht ht'
    have heq := h.tree.tree (.pde e v'.1) (.pde e v.1) t trivial (hpde hv' ht') (hpde hv ht)
    simpa using heq
  · intro v hv ht
    cases h.tree.tree (.dir e) (.pde e v.1) d trivial hd (hpde hv ht)
  · intro v hv t ht
    have hpte : Mos.target mc D m.word (.pte e v.1 v.2) = entry (m.word t v.2) := target_pte (hpde hv ht) (hlow v hv)
    rw [← hpte]
    exact Mem.target_none_of_user (hfree v hv)

/-- So can all pages of a new address space. -/
private theorem vacant_newDir (mc : Machine) {d : Nat} {m : Pmap} {S : Set Vpn}
    (hs : mc.bootPmap.envSetupVm mc.bootPgdir = some (d, m)) (hlow : ∀ v ∈ S, v.1 < PDX UTOP) : m.Vacant d S := by
  have hboot : Mem.Ok mc (fun _ => 0) ⟨mc.bootKern.dirs, mc.bootPmap⟩ := (MemOk.boot mc).mem
  have hnone : mc.bootKern.dirs 0 = none := rfl
  exact (hboot.newDir hnone hs).vacant (e := 0) (Function.update_self ..) hlow
    fun v hv => Mem.newDir_user hs (hlow v hv)

/-- Five bytes of data and five of bss, in the middle of a page. -/
def smallSeg : Phdr := ⟨PT_LOAD, 0, UTEXT + 100, 5, 10, PF_W⟩

private theorem smallSeg_low : ∀ v ∈ smallSeg.pages, v.1 < PDX UTOP := by
  rintro v ⟨j, hj, rfl⟩
  have hlow : ∀ j ≤ 9, (VPN (smallSeg.pVaddr + BitVec.ofNat 32 j)).1 < PDX UTOP := by decide
  exact hlow j hj

private theorem smallSeg_run : (Machine.gxemul.bootPmap.envSetupVm Machine.gxemul.bootPgdir).any fun r =>
    (elfLoadSeg (logged (Elf.loadIcodeMapper r.1 0)) 3 smallSeg (fun _ => 1) (r.2, [])).any fun r' =>
      r'.1 = 0 ∧ r'.2.1.byteAt r.1 smallSeg.pVaddr = some 0 := by
  decide +kernel

theorem segLoaded_iff_smallSeg : ∃ d m m' calls,
    Machine.gxemul.bootPmap.envSetupVm Machine.gxemul.bootPgdir = some (d, m) ∧
    elfLoadSeg (logged (Elf.loadIcodeMapper d 0)) 3 smallSeg (fun _ => 1) (m, []) = some (0, m', calls) ∧
    (SegLoaded m' d smallSeg (fun _ => 1) calls ↔ smallSeg.offset = 0 ∨ BY2PG - smallSeg.offset ≤ smallSeg.pFilesz ∨
      smallSeg.pFilesz = smallSeg.pMemsz) := by
  obtain ⟨⟨d, m⟩, hs, hrun⟩ := (Option.any_eq_true _ _).1 smallSeg_run
  obtain ⟨⟨r, m', calls⟩, hr, hcond⟩ := (Option.any_eq_true _ _).1 hrun
  obtain ⟨rfl, -⟩ := of_decide_eq_true hcond
  exact ⟨d, m, m', calls, hs, hr, segLoaded_iff (by decide) (by decide) (vacant_newDir _ hs smallSeg_low) hr⟩

/-- The data is lost when the page is mapped again for the bss. -/
theorem exists_segment_lost : ∃ d m m' calls,
    Machine.gxemul.bootPmap.envSetupVm Machine.gxemul.bootPgdir = some (d, m) ∧ m.Vacant d smallSeg.pages ∧
    smallSeg.pFilesz ≤ smallSeg.pMemsz ∧ smallSeg.pVaddr.toNat + smallSeg.pMemsz.toNat ≤ 2 ^ 32 ∧
    elfLoadSeg (logged (Elf.loadIcodeMapper d 0)) 3 smallSeg (fun _ => 1) (m, []) = some (0, m', calls) ∧
    m'.byteAt d smallSeg.pVaddr = some 0 ∧ ¬SegLoaded m' d smallSeg (fun _ => 1) calls := by
  obtain ⟨⟨d, m⟩, hs, hrun⟩ := (Option.any_eq_true _ _).1 smallSeg_run
  obtain ⟨⟨r, m', calls⟩, hr, hcond⟩ := (Option.any_eq_true _ _).1 hrun
  obtain ⟨rfl, hbyte⟩ := of_decide_eq_true hcond
  refine ⟨d, m, m', calls, hs, vacant_newDir _ hs smallSeg_low, by decide, by decide, hr, hbyte, fun h => ?_⟩
  have hfile := h.file 0 (by decide)
  have hva : smallSeg.pVaddr + BitVec.ofNat 32 0 = smallSeg.pVaddr := by decide
  rw [hva] at hfile
  exact absurd (hbyte.symm.trans hfile) (by decide)

end Mos
