import Mathlib.Algebra.GroupWithZero.Nat
import Mathlib.Data.Fin.Basic

/-!
# Words, addresses and page table entries (`include/mmu.h`, `include/error.h`)

Machine words are 32 bits.  The two ten-bit halves of a virtual page number are kept as a pair, so that a page is
named by its index in the directory and its index in the table.
-/

namespace Mos

abbrev Word := BitVec 32

abbrev Byte := BitVec 8

/-- An error code `-E`, as the `int` in `$v0`. -/
def E_BAD_ENV : Word := 2
def E_INVAL : Word := 3
def E_NO_MEM : Word := 4
def E_NO_SYS : Word := 5
def E_NO_FREE_ENV : Word := 6
def E_IPC_NOT_RECV : Word := 7

def BY2PG : Word := 4096
def PDMAP : Word := 0x400000
def ULIM : Word := 0x80000000
def KSEG2 : Word := 0xC0000000
def UVPT : Word := ULIM - PDMAP
def UPAGES : Word := UVPT - PDMAP
def UENVS : Word := UPAGES - PDMAP
def UTOP : Word := UENVS
def UXSTACKTOP : Word := UTOP
def USTACKTOP : Word := UTOP - 2 * BY2PG
def UTEXT : Word := PDMAP
def UCOW : Word := UTEXT - BY2PG
def UTEMP : Word := UCOW - BY2PG

/-- `ROUND` of `include/types.h`. -/
def ROUND (a n : Word) : Word := (a + n - 1) &&& ~~~(n - 1)

def PTE_G : Word := 0x0100
def PTE_V : Word := 0x0200
def PTE_D : Word := 0x0400
def PTE_LIBRARY : Word := 0x0004

/-- An index into a page directory or a page table. -/
abbrev Idx := Fin 1024

-- the literals of these indices, of registers, of signal numbers and of the three parties of a small run
instance neZeroIdx : NeZero 1024 := ⟨by decide⟩
instance neZeroReg : NeZero 32 := ⟨by decide⟩
instance neZeroSigno : NeZero 64 := ⟨by decide⟩
instance neZeroThree : NeZero 3 := ⟨by decide⟩

/-- The directory index and the table index of a virtual page. -/
abbrev Vpn := Idx × Idx

def PDX (va : Word) : Idx := ⟨(va >>> 22).toNat % 1024, Nat.mod_lt _ (by decide)⟩
def PTX (va : Word) : Idx := ⟨(va >>> 12).toNat % 1024, Nat.mod_lt _ (by decide)⟩
def VPN (va : Word) : Vpn := (PDX va, PTX va)

/-- The frame number of a physical address or of an entry. -/
def PPN (pa : Word) : Nat := (pa >>> 12).toNat
def PTE_ADDR (pte : Word) : Word := pte &&& ~~~0xFFF#32

/-- The address `pdeno << PDSHIFT | pteno << PGSHIFT`. -/
def pageVa (v : Vpn) : Word := BitVec.ofNat 32 v.1 <<< 22 ||| BitVec.ofNat 32 v.2 <<< 12

def page2pa (pp : Nat) : Word := BitVec.ofNat 32 pp <<< 12

/-- `w & flag`, as a condition. -/
def has (w flag : Word) : Bool := w &&& flag != 0#32

/-! ### The bits of an entry -/

theorem has_eq_getLsbD (w : Word) (i : Nat) (hi : i < 32) : has w (BitVec.twoPow 32 i) = w.getLsbD i := by
  unfold has
  rw [BitVec.and_twoPow]
  cases w.getLsbD i with
  | false => simp
  | true =>
    have : (BitVec.twoPow 32 i) ≠ 0#32 := by
      intro h
      have := congrArg (BitVec.getLsbD · i) h
      simp [hi] at this
    simpa using this

theorem has_V (w : Word) : has w PTE_V = w.getLsbD 9 := has_eq_getLsbD w 9 (by decide)
private theorem has_D (w : Word) : has w PTE_D = w.getLsbD 10 := has_eq_getLsbD w 10 (by decide)
private theorem has_G (w : Word) : has w PTE_G = w.getLsbD 8 := has_eq_getLsbD w 8 (by decide)

/-- The flags of an entry built from a frame, a permission word and `PTE_V`. -/
theorem getLsbD_entry (pp : Nat) (perm : Word) {i : Nat} (hi : i < 12) :
    (page2pa pp ||| perm ||| PTE_V).getLsbD i = (perm.getLsbD i || decide (i = 9)) := by
  have h9 : PTE_V = BitVec.twoPow 32 9 := by decide
  simp only [page2pa, h9, BitVec.getLsbD_or, BitVec.getLsbD_shiftLeft, BitVec.getLsbD_twoPow]
  simp [hi, show i < 32 by omega, eq_comm]

@[simp] theorem entry_V (pp : Nat) (perm : Word) : has (page2pa pp ||| perm ||| PTE_V) PTE_V = true := by
  rw [has_V, getLsbD_entry _ _ (by decide)]; simp

theorem entry_D (pp : Nat) (perm : Word) : has (page2pa pp ||| perm ||| PTE_V) PTE_D = has perm PTE_D := by
  rw [has_D, has_D, getLsbD_entry _ _ (by decide)]; simp

theorem entry_G (pp : Nat) (perm : Word) : has (page2pa pp ||| perm ||| PTE_V) PTE_G = has perm PTE_G := by
  rw [has_G, has_G, getLsbD_entry _ _ (by decide)]; simp

theorem PPN_page2pa {pp : Nat} (h : pp < 2 ^ 20) : PPN (page2pa pp) = pp := by
  simp only [PPN, page2pa, BitVec.toNat_ushiftRight, BitVec.toNat_shiftLeft, BitVec.toNat_ofNat,
    Nat.shiftLeft_eq, Nat.shiftRight_eq_div_pow]
  omega

/-- The frame that an entry really points to: the permission word is or-ed in without a mask. -/
theorem PPN_entry {pp : Nat} (h : pp < 2 ^ 20) (perm : Word) :
    PPN (page2pa pp ||| perm ||| PTE_V) = pp ||| PPN perm := by
  have hV : PPN PTE_V = 0 := by decide
  have hor : ∀ x y : Word, PPN (x ||| y) = PPN x ||| PPN y := fun x y => by
    simp [PPN, BitVec.toNat_or, Nat.shiftRight_or_distrib]
  rw [hor, hor, hV, PPN_page2pa h, Nat.or_zero]

theorem PPN_lt (w : Word) : PPN w < 2 ^ 20 := by
  have := w.isLt
  simp only [PPN, BitVec.toNat_ushiftRight, Nat.shiftRight_eq_div_pow]
  omega

/-- A zeroed entry is invalid. -/
@[simp] theorem has_zero (flag : Word) : has 0#32 flag = false := by simp [has]

/-! ### Pages and their addresses -/

@[simp] theorem VPN_pageVa (v : Vpn) : VPN (pageVa v) = v := by
  obtain ⟨⟨i, hi⟩, ⟨j, hj⟩⟩ := v
  have hva : (pageVa (⟨i, hi⟩, ⟨j, hj⟩)).toNat = i * 2 ^ 22 + j * 2 ^ 12 := by
    simp only [pageVa, BitVec.toNat_or, BitVec.toNat_shiftLeft, BitVec.toNat_ofNat, Nat.shiftLeft_eq]
    rw [Nat.mod_eq_of_lt (show i < 2 ^ 32 by omega), Nat.mod_eq_of_lt (show j < 2 ^ 32 by omega),
      Nat.mod_eq_of_lt (show i * 2 ^ 22 < 2 ^ 32 by omega), Nat.mod_eq_of_lt (show j * 2 ^ 12 < 2 ^ 32 by omega)]
    have := Nat.shiftLeft_add_eq_or_of_lt (show j * 2 ^ 12 < 2 ^ 22 by omega) i
    rw [Nat.shiftLeft_eq] at this
    exact this.symm
  simp only [VPN, PDX, PTX, BitVec.toNat_ushiftRight, Nat.shiftRight_eq_div_pow, hva, Prod.mk.injEq, Fin.mk.injEq]
  omega

theorem PDX_toNat (va : Word) : (PDX va : Nat) = va.toNat / 2 ^ 22 := by
  have := va.isLt
  simp only [PDX, BitVec.toNat_ushiftRight, Nat.shiftRight_eq_div_pow]
  omega

/-- Clearing the offset keeps the page. -/
theorem VPN_PTE_ADDR (va : Word) : VPN (PTE_ADDR va) = VPN va := by
  have hmask : ∀ n, 12 ≤ n → (va &&& ~~~0xFFF#32) >>> n = va >>> n := by
    intro n hn
    have hoff : (~~~0xFFF#32 : Word) = BitVec.allOnes 32 <<< 12 := by decide
    apply BitVec.eq_of_getLsbD_eq
    intro i hi
    simp only [hoff, BitVec.getLsbD_ushiftRight, BitVec.getLsbD_and, BitVec.getLsbD_shiftLeft, BitVec.getLsbD_allOnes]
    by_cases hlt : n + i < 32
    · have h12 : ¬n + i < 12 := by omega
      have h20 : n + i - 12 < 32 := by omega
      simp [hlt, h12, h20]
    · simp [BitVec.getLsbD_of_ge va (n + i) (by omega)]
  simp only [VPN, PDX, PTX, PTE_ADDR, hmask 22 (by decide), hmask 12 (by decide)]

end Mos
