import Mos.Kern.Bytes

/-!
# Loading a segment (`lib/elfloader.c`, `kern/env.c`)

`elf_load_seg` maps a segment page by page through the callback that it is given; `load_icode_mapper` is the one of the
kernel.  A pointer to bytes is the function from an offset to the byte there, and `none` is `NULL`.  A callback that panics
does not return; the loops are run for a number of rounds, and do not return where they need more.
-/

namespace Mos

/-- The fields of `Elf32_Phdr` that are read. -/
structure Phdr where
  pType : Word
  pOffset : Word
  pVaddr : Word
  pFilesz : Word
  pMemsz : Word
  pFlags : Word

def PT_LOAD : Word := 1
def PF_W : Word := 2

def MIN (a b : Word) : Word := if a ≤ b then a else b
def ROUNDDOWN (a n : Word) : Word := a &&& ~~~(n - 1)

/-- `elf_mapper_t`, where `data` is the state: `va`, `offset`, `perm`, `src` and `len`. -/
abbrev ElfMapper (σ : Type) := σ → Word → Word → Word → Option (Nat → Byte) → Word → Option (Word × σ)

/-- `if ((r = x) != 0) return r;`, and `f` after it. -/
def orReturn {α β : Type} (x : Option (Word × α)) (ret : Word → α → β) (f : α → Option β) : Option β :=
  x.bind fun (r, a) => if r ≠ 0 then some (ret r a) else f a

section

variable {σ : Type} (mapPage : ElfMapper σ) (va binSize sgsize perm : Word) (bin : Nat → Byte)

/-- Step 1: the result code, and the index that step 2 goes on with. -/
def dataLoop : Nat → Word → σ → Option (Word × Word × σ)
  | 0, _, _ => none
  | n + 1, i, s =>
    if i < binSize then
      orReturn (mapPage s (va + i) 0 perm (some fun j => bin (i.toNat + j)) (MIN (binSize - i) BY2PG))
        (fun r s => (r, i, s)) (dataLoop n (i + BY2PG))
    else some (0, i, s)

/-- Step 2. -/
def bssLoop : Nat → Word → σ → Option (Word × σ)
  | 0, _, _ => none
  | n + 1, i, s =>
    if i < sgsize then
      orReturn (mapPage s (va + i) 0 perm none (MIN (binSize - i) BY2PG)) Prod.mk (bssLoop n (i + BY2PG))
    else some (0, s)

end

def Phdr.perm (ph : Phdr) : Word := if has ph.pFlags PF_W then PTE_V ||| PTE_D else PTE_V

def Phdr.offset (ph : Phdr) : Word := ph.pVaddr - ROUNDDOWN ph.pVaddr BY2PG

/-- The two loops, from the index that the first page leaves. -/
def elfLoadRest {σ : Type} (mapPage : ElfMapper σ) (n : Nat) (ph : Phdr) (bin : Nat → Byte) (i : Word) (s : σ) :
    Option (Word × σ) :=
  orReturn (dataLoop mapPage ph.pVaddr ph.pFilesz ph.perm bin n i s) (fun r (_, s) => (r, s))
    fun (i, s) => bssLoop mapPage ph.pVaddr ph.pFilesz ph.pMemsz ph.perm n i s

/-- Each loop runs for less than `n` rounds. -/
def elfLoadSeg {σ : Type} (mapPage : ElfMapper σ) (n : Nat) (ph : Phdr) (bin : Nat → Byte) (s : σ) : Option (Word × σ) :=
  if ph.offset ≠ 0 then
    orReturn (mapPage s ph.pVaddr ph.offset ph.perm (some bin) (MIN ph.pFilesz (BY2PG - ph.offset))) Prod.mk
      (elfLoadRest mapPage n ph bin (MIN ph.pFilesz (BY2PG - ph.offset)))
  else elfLoadRest mapPage n ph bin 0 s

/-! ### Addresses within a page -/

theorem ROUNDDOWN_toNat (va : Word) : (ROUNDDOWN va BY2PG).toNat = va.toNat / 4096 * 4096 := by
  have hshift : ROUNDDOWN va BY2PG = (va >>> 12) <<< 12 := by
    have hmask : ~~~(BY2PG - 1) = (BitVec.allOnes 32 <<< 12 : Word) := by decide
    rw [ROUNDDOWN, hmask]
    apply BitVec.eq_of_getLsbD_eq
    intro i hi
    simp only [BitVec.getLsbD_and, BitVec.getLsbD_shiftLeft, BitVec.getLsbD_allOnes, BitVec.getLsbD_ushiftRight]
    by_cases hlt : i < 12
    · simp [hi, hlt]
    · have hsum : 12 + (i - 12) = i := by omega
      have h32 : i - 12 < 32 := by omega
      simp [hi, hlt, hsum, h32]
  have hlt := va.isLt
  rw [hshift, BitVec.toNat_shiftLeft, BitVec.toNat_ushiftRight, Nat.shiftRight_eq_div_pow, Nat.shiftLeft_eq]
  omega

theorem MIN_toNat (a b : Word) : (MIN a b).toNat = min a.toNat b.toNat := by
  unfold MIN
  split
  case isTrue h => exact (Nat.min_eq_left h).symm
  case isFalse h => exact (Nat.min_eq_right (Nat.le_of_lt (Nat.lt_of_not_le h))).symm

namespace Phdr

variable {ph : Phdr}

theorem offset_toNat (ph : Phdr) : ph.offset.toNat = ph.pVaddr.toNat % 4096 := by
  have hlt := ph.pVaddr.isLt
  rw [offset, BitVec.toNat_sub, ROUNDDOWN_toNat]
  omega

theorem offset_eq_zero : ph.offset = 0 ↔ ph.pVaddr.toNat % 4096 = 0 := by
  rw [← offset_toNat, ← BitVec.toNat_inj]
  rfl

theorem PPN_perm (ph : Phdr) : PPN ph.perm = 0 := by
  unfold perm
  split <;> decide

theorem has_perm_D (ph : Phdr) : has ph.perm PTE_D = has ph.pFlags PF_W := by
  unfold perm
  split
  case isTrue h =>
    rw [h]
    decide
  case isFalse h =>
    rw [Bool.not_eq_true] at h
    rw [h]
    decide

/-- What is left of the first page. -/
theorem room_toNat (ph : Phdr) : (BY2PG - ph.offset).toNat = 4096 - ph.pVaddr.toNat % 4096 := by
  have hoff := ph.offset_toNat
  have hle : ph.offset ≤ BY2PG := by
    show ph.offset.toNat ≤ 4096
    omega
  rw [BitVec.toNat_sub_of_le hle, hoff]
  rfl

end Phdr

/-! ### Simulation -/

theorem orReturn_eq_zero {α β : Type} {x : Option (Word × α)} {ret : Word → α → Word × β} {f : α → Option (Word × β)}
    {b : β} (hret : ∀ r a, (ret r a).1 = r) :
    orReturn x ret f = some (0, b) ↔ ∃ a, x = some (0, a) ∧ f a = some (0, b) := by
  rw [orReturn, Option.bind_eq_some_iff]
  constructor
  · rintro ⟨⟨r, a⟩, hx, hr⟩
    dsimp only at hr
    by_cases hr0 : r ≠ 0
    · rw [if_pos hr0] at hr
      have heq := congrArg Prod.fst (Option.some.inj hr)
      rw [hret] at heq
      exact absurd heq hr0
    · rw [if_neg hr0] at hr
      exact ⟨a, not_not.1 hr0 ▸ hx, hr⟩
  · rintro ⟨a, hx, hf⟩
    exact ⟨(0, a), hx, hf⟩

section

variable {σ τ : Type} {mapA : ElfMapper σ} {mapB : ElfMapper τ} {R : σ → τ → Prop} {n : Nat} {s s' : σ} {t : τ}
  {ph : Phdr} {bin : Nat → Byte}

/-- Where the first callback succeeds, the second does too, and the states stay related. -/
def Simulates (R : σ → τ → Prop) (mapA : ElfMapper σ) (mapB : ElfMapper τ) : Prop :=
  ∀ s t s' va offset perm src len, R s t → mapA s va offset perm src len = some (0, s') →
    ∃ t', mapB t va offset perm src len = some (0, t') ∧ R s' t'

variable (hsim : Simulates R mapA mapB)

include hsim

private theorem dataLoop_sim {va binSize perm i i' : Word} (hst : R s t)
    (hr : dataLoop mapA va binSize perm bin n i s = some (0, i', s')) :
    ∃ t', dataLoop mapB va binSize perm bin n i t = some (0, i', t') ∧ R s' t' := by
  induction n generalizing i s t with
  | zero => cases hr
  | succ n ih =>
    rw [dataLoop] at hr ⊢
    by_cases hi : i < binSize
    · rw [if_pos hi] at hr ⊢
      obtain ⟨s₁, hmap, hr⟩ := (orReturn_eq_zero fun _ _ => rfl).1 hr
      obtain ⟨t₁, hmap', ht₁⟩ := hsim _ _ _ _ _ _ _ _ hst hmap
      obtain ⟨t', hr', ht'⟩ := ih ht₁ hr
      exact ⟨t', (orReturn_eq_zero fun _ _ => rfl).2 ⟨t₁, hmap', hr'⟩, ht'⟩
    · rw [if_neg hi] at hr ⊢
      simp only [Option.some.injEq, Prod.mk.injEq, true_and] at hr
      obtain ⟨rfl, rfl⟩ := hr
      exact ⟨t, rfl, hst⟩

private theorem bssLoop_sim {va binSize sgsize perm i : Word} (hst : R s t)
    (hr : bssLoop mapA va binSize sgsize perm n i s = some (0, s')) :
    ∃ t', bssLoop mapB va binSize sgsize perm n i t = some (0, t') ∧ R s' t' := by
  induction n generalizing i s t with
  | zero => cases hr
  | succ n ih =>
    rw [bssLoop] at hr ⊢
    by_cases hi : i < sgsize
    · rw [if_pos hi] at hr ⊢
      obtain ⟨s₁, hmap, hr⟩ := (orReturn_eq_zero fun _ _ => rfl).1 hr
      obtain ⟨t₁, hmap', ht₁⟩ := hsim _ _ _ _ _ _ _ _ hst hmap
      obtain ⟨t', hr', ht'⟩ := ih ht₁ hr
      exact ⟨t', (orReturn_eq_zero fun _ _ => rfl).2 ⟨t₁, hmap', hr'⟩, ht'⟩
    · rw [if_neg hi] at hr ⊢
      simp only [Option.some.injEq, Prod.mk.injEq, true_and] at hr
      subst hr
      exact ⟨t, rfl, hst⟩

private theorem elfLoadRest_sim {i : Word} (hst : R s t) (hr : elfLoadRest mapA n ph bin i s = some (0, s')) :
    ∃ t', elfLoadRest mapB n ph bin i t = some (0, t') ∧ R s' t' := by
  obtain ⟨⟨i', s₁⟩, hdata, hr⟩ := (orReturn_eq_zero fun _ _ => rfl).1 hr
  obtain ⟨t₁, hdata', ht₁⟩ := dataLoop_sim hsim hst hdata
  obtain ⟨t', hr', ht'⟩ := bssLoop_sim hsim ht₁ hr
  exact ⟨t', (orReturn_eq_zero fun _ _ => rfl).2 ⟨(i', t₁), hdata', hr'⟩, ht'⟩

/-- A run with the first callback that returns 0 is followed by one with the second. -/
private theorem elfLoadSeg_sim (hst : R s t) (hr : elfLoadSeg mapA n ph bin s = some (0, s')) :
    ∃ t', elfLoadSeg mapB n ph bin t = some (0, t') ∧ R s' t' := by
  rw [elfLoadSeg] at hr ⊢
  by_cases ho : ph.offset ≠ 0
  · rw [if_pos ho] at hr ⊢
    obtain ⟨s₁, hmap, hr⟩ := (orReturn_eq_zero fun _ _ => rfl).1 hr
    obtain ⟨t₁, hmap', ht₁⟩ := hsim _ _ _ _ _ _ _ _ hst hmap
    obtain ⟨t', hr', ht'⟩ := elfLoadRest_sim hsim ht₁ hr
    exact ⟨t', (orReturn_eq_zero fun _ _ => rfl).2 ⟨t₁, hmap', hr'⟩, ht'⟩
  · rw [if_neg ho] at hr ⊢
    exact elfLoadRest_sim hsim hst hr

end

/-! ### Two runs -/

/-- What a callback copies: nothing, or the same bytes. -/
def SameSrc (len : Nat) : Option (Nat → Byte) → Option (Nat → Byte) → Prop
  | none, none => True
  | some src, some src' => ∀ j < len, src j = src' j
  | _, _ => False

/-- Where both callbacks succeed, the states stay related.  The requests are those that `elf_load_seg` makes: within a
page, and with one permission word. -/
def Couples {σ τ : Type} (R : σ → τ → Prop) (perm : Word) (mapA : ElfMapper σ) (mapB : ElfMapper τ) : Prop :=
  ∀ s t s' t' va offset src src' len, R s t → offset.toNat + len.toNat ≤ 4096 → SameSrc len.toNat src src' →
    mapA s va offset perm src len = some (0, s') → mapB t va offset perm src' len = some (0, t') → R s' t'

section

variable {σ τ : Type} {mapA : ElfMapper σ} {mapB : ElfMapper τ} {R : σ → τ → Prop} {n n' : Nat} {s s' : σ} {t t' : τ}
  {va binSize sgsize perm i i' i'' : Word} {ph : Phdr} {bin bin' : Nat → Byte}

private theorem dataLoop_couple (hcouple : Couples R perm mapA mapB) (hbin : ∀ j < binSize.toNat, bin j = bin' j)
    (hst : R s t)
    (hr : dataLoop mapA va binSize perm bin n i s = some (0, i', s'))
    (hr' : dataLoop mapB va binSize perm bin' n' i t = some (0, i'', t')) : i' = i'' ∧ R s' t' := by
  induction n generalizing n' i s t with
  | zero => cases hr
  | succ n ih =>
    cases n' with
    | zero => cases hr'
    | succ n' =>
      rw [dataLoop] at hr hr'
      by_cases hi : i < binSize
      · rw [if_pos hi] at hr hr'
        obtain ⟨s₁, hmap, hr⟩ := (orReturn_eq_zero fun _ _ => rfl).1 hr
        obtain ⟨t₁, hmap', hr'⟩ := (orReturn_eq_zero fun _ _ => rfl).1 hr'
        have hlt : i.toNat < binSize.toNat := hi
        have hlen : (MIN (binSize - i) BY2PG).toNat = min (binSize.toNat - i.toNat) 4096 := by
          rw [MIN_toNat, BitVec.toNat_sub_of_le (Nat.le_of_lt hlt)]
          rfl
        refine ih (hcouple _ _ _ _ _ _ _ _ _ hst ?_ ?_ hmap hmap') hr hr'
        · rw [hlen]
          have hzero : (0 : Word).toNat = 0 := rfl
          omega
        · rw [hlen]
          exact fun j hj => hbin _ (by omega)
      · rw [if_neg hi] at hr hr'
        simp only [Option.some.injEq, Prod.mk.injEq, true_and] at hr hr'
        obtain ⟨rfl, rfl⟩ := hr
        obtain ⟨rfl, rfl⟩ := hr'
        exact ⟨rfl, hst⟩

private theorem bssLoop_couple (hcouple : Couples R perm mapA mapB) (hst : R s t)
    (hr : bssLoop mapA va binSize sgsize perm n i s = some (0, s'))
    (hr' : bssLoop mapB va binSize sgsize perm n' i t = some (0, t')) : R s' t' := by
  induction n generalizing n' i s t with
  | zero => cases hr
  | succ n ih =>
    cases n' with
    | zero => cases hr'
    | succ n' =>
      rw [bssLoop] at hr hr'
      by_cases hi : i < sgsize
      · rw [if_pos hi] at hr hr'
        obtain ⟨s₁, hmap, hr⟩ := (orReturn_eq_zero fun _ _ => rfl).1 hr
        obtain ⟨t₁, hmap', hr'⟩ := (orReturn_eq_zero fun _ _ => rfl).1 hr'
        have hnull : SameSrc (MIN (binSize - i) BY2PG).toNat none none := trivial
        refine ih (hcouple _ _ _ _ _ _ _ _ _ hst ?_ hnull hmap hmap') hr hr'
        have hzero : (0 : Word).toNat = 0 := rfl
        have hpg : BY2PG.toNat = 4096 := rfl
        rw [MIN_toNat]
        omega
      · rw [if_neg hi] at hr hr'
        simp only [Option.some.injEq, Prod.mk.injEq, true_and] at hr hr'
        subst hr hr'
        exact hst

private theorem elfLoadRest_couple (hcouple : Couples R ph.perm mapA mapB) (hbin : ∀ j < ph.pFilesz.toNat, bin j = bin' j)
    (hst : R s t) (hr : elfLoadRest mapA n ph bin i s = some (0, s'))
    (hr' : elfLoadRest mapB n' ph bin' i t = some (0, t')) : R s' t' := by
  obtain ⟨⟨i', s₁⟩, hdata, hr⟩ := (orReturn_eq_zero fun _ _ => rfl).1 hr
  obtain ⟨⟨i'', t₁⟩, hdata', hr'⟩ := (orReturn_eq_zero fun _ _ => rfl).1 hr'
  obtain ⟨rfl, hst₁⟩ := dataLoop_couple hcouple hbin hst hdata hdata'
  exact bssLoop_couple hcouple hst₁ hr hr'

/-- Two runs that both return 0 make the same requests. -/
theorem elfLoadSeg_couple (hcouple : Couples R ph.perm mapA mapB) (hbin : ∀ j < ph.pFilesz.toNat, bin j = bin' j)
    (hst : R s t) (hr : elfLoadSeg mapA n ph bin s = some (0, s'))
    (hr' : elfLoadSeg mapB n' ph bin' t = some (0, t')) : R s' t' := by
  rw [elfLoadSeg] at hr hr'
  by_cases ho : ph.offset ≠ 0
  · rw [if_pos ho] at hr hr'
    obtain ⟨s₁, hmap, hr⟩ := (orReturn_eq_zero fun _ _ => rfl).1 hr
    obtain ⟨t₁, hmap', hr'⟩ := (orReturn_eq_zero fun _ _ => rfl).1 hr'
    have hoff := ph.offset_toNat
    have hlen : (MIN ph.pFilesz (BY2PG - ph.offset)).toNat = min ph.pFilesz.toNat (4096 - ph.pVaddr.toNat % 4096) := by
      rw [MIN_toNat, ph.room_toNat]
    refine elfLoadRest_couple hcouple hbin (hcouple _ _ _ _ _ _ _ _ _ hst ?_ ?_ hmap hmap') hr hr'
    · omega
    · rw [hlen]
      exact fun j hj => hbin j (by omega)
  · rw [if_neg ho] at hr hr'
    exact elfLoadRest_couple hcouple hbin hst hr hr'

end

/-! ### Invariants -/

section

variable {σ : Type} {mapPage : ElfMapper σ} {I : σ → Prop} {n : Nat} {s s' : σ} {ph : Phdr} {bin : Nat → Byte}

/-- What every call of the callback keeps is kept by the loader. -/
theorem elfLoadSeg_inv (hinv : ∀ s va offset src len s', I s → offset.toNat + len.toNat ≤ 4096 →
    mapPage s va offset ph.perm src len = some (0, s') → I s') (h : I s)
    (hr : elfLoadSeg mapPage n ph bin s = some (0, s')) : I s' := by
  -- beside a callback that does nothing
  have hsim : Simulates (fun (_ : σ) (_ : Unit) => True) mapPage fun t _ _ _ _ _ => some (0, t) :=
    fun _ t _ _ _ _ _ _ _ _ => ⟨t, rfl, trivial⟩
  obtain ⟨t', hr', -⟩ := elfLoadSeg_sim hsim (t := ()) trivial hr
  refine elfLoadSeg_couple (R := fun s _ => I s) (fun s t s' t' va offset src src' len hs hfit _ hA _ => ?_)
    (fun _ _ => rfl) h hr hr'
  exact hinv s va offset src len s' hs hfit hA

end

/-! ### The result -/

section

variable {σ : Type} {mapPage : ElfMapper σ} {P : Word → Prop} {n : Nat} {s s' : σ} {va binSize sgsize perm i i' r : Word}
  {ph : Phdr} {bin : Nat → Byte}

theorem orReturn_ret {α β : Type} {x : Option (Word × α)} {ret : Word → α → Word × β} {f : α → Option (Word × β)} {b : β}
    (hret : ∀ r a, (ret r a).1 = r) (hx : ∀ r a, x = some (r, a) → P r) (hf : ∀ a, f a = some (r, b) → P r)
    (h : orReturn x ret f = some (r, b)) : P r := by
  obtain ⟨⟨r₁, a⟩, hxa, h⟩ := Option.bind_eq_some_iff.1 h
  dsimp only at h
  by_cases hr : r₁ ≠ 0
  · rw [if_pos hr] at h
    have heq := congrArg Prod.fst (Option.some.inj h)
    rw [hret] at heq
    have heq : r₁ = r := heq
    exact heq ▸ hx r₁ a hxa
  · rw [if_neg hr] at h
    exact hf a h

variable (h0 : P 0) (hmap : ∀ s va offset perm src len r s', mapPage s va offset perm src len = some (r, s') → P r)

include h0 hmap

private theorem dataLoop_ret (hr : dataLoop mapPage va binSize perm bin n i s = some (r, i', s')) : P r := by
  induction n generalizing i s with
  | zero => cases hr
  | succ n ih =>
    rw [dataLoop] at hr
    by_cases hi : i < binSize
    · rw [if_pos hi] at hr
      exact orReturn_ret (fun _ _ => rfl) (fun r a => hmap _ _ _ _ _ _ r a) (fun a ha => ih ha) hr
    · rw [if_neg hi] at hr
      simp only [Option.some.injEq, Prod.mk.injEq] at hr
      exact hr.1 ▸ h0

private theorem bssLoop_ret (hr : bssLoop mapPage va binSize sgsize perm n i s = some (r, s')) : P r := by
  induction n generalizing i s with
  | zero => cases hr
  | succ n ih =>
    rw [bssLoop] at hr
    by_cases hi : i < sgsize
    · rw [if_pos hi] at hr
      exact orReturn_ret (fun _ _ => rfl) (fun r a => hmap _ _ _ _ _ _ r a) (fun a ha => ih ha) hr
    · rw [if_neg hi] at hr
      simp only [Option.some.injEq, Prod.mk.injEq] at hr
      exact hr.1 ▸ h0

private theorem elfLoadRest_ret (hr : elfLoadRest mapPage n ph bin i s = some (r, s')) : P r :=
  orReturn_ret (fun _ _ => rfl) (fun _ ⟨_, _⟩ ha => dataLoop_ret h0 hmap ha)
    (fun _ ha => bssLoop_ret h0 hmap ha) hr

/-- What `elf_load_seg` returns is 0 or comes from the callback. -/
theorem elfLoadSeg_ret (hr : elfLoadSeg mapPage n ph bin s = some (r, s')) : P r := by
  rw [elfLoadSeg] at hr
  by_cases ho : ph.offset ≠ 0
  · rw [if_pos ho] at hr
    exact orReturn_ret (fun _ _ => rfl) (fun r a => hmap _ _ _ _ _ _ r a) (fun _ ha => elfLoadRest_ret h0 hmap ha) hr
  · rw [if_neg ho] at hr
    exact elfLoadRest_ret h0 hmap hr

end

/-! ### The requests -/

/-- A request to the callback. -/
structure MapCall where
  va : Word
  offset : Word
  perm : Word
  len : Word

/-- The callback with a record of its requests. -/
def logged {σ : Type} (mapPage : ElfMapper σ) : ElfMapper (σ × List MapCall) := fun s va offset perm src len =>
  (mapPage s.1 va offset perm src len).map fun (r, m) => (r, m, s.2 ++ [⟨va, offset, perm, len⟩])

/-- Recording the requests does not change what the loader does. -/
theorem elfLoadSeg_logged {σ : Type} {mapPage : ElfMapper σ} {n : Nat} {ph : Phdr} {bin : Nat → Byte} {s s' : σ}
    (hr : elfLoadSeg mapPage n ph bin s = some (0, s')) :
    ∃ calls, elfLoadSeg (logged mapPage) n ph bin (s, []) = some (0, s', calls) := by
  have hsim : Simulates (fun s t => t.1 = s) mapPage (logged mapPage) := by
    rintro s t s' va offset perm src len rfl hmap
    exact ⟨(s', t.2 ++ [⟨va, offset, perm, len⟩]), by rw [logged, hmap]; rfl, rfl⟩
  obtain ⟨⟨_, calls⟩, ht, rfl⟩ := elfLoadSeg_sim hsim (t := (s, [])) rfl hr
  exact ⟨calls, ht⟩

/-! ### The kernel's callback -/

/-- `load_icode_mapper`, for the address space of the environment that `data` points to. -/
def Elf.loadIcodeMapper (pgdir : Nat) (asid : Asid) : ElfMapper Pmap := fun m va offset perm src len =>
  m.pageAlloc.bind fun (p, m) =>
    let m := match src with
      | some src => m.memcpy (p * 4096 + offset.toNat) src len.toNat
      | none => m
    m.pageInsert pgdir asid p va perm

namespace Pmap

/-- The byte that the address space maps at `va`. -/
def byteAt (m : Pmap) (pgdir : Nat) (va : Word) : Option Byte :=
  (m.pageLookup pgdir va).join.map fun (pp, _) => frameByte (m.word pp) (va.toNat % 4096)

/-- The entry that maps `va`. -/
def pteAt (m : Pmap) (pgdir : Nat) (va : Word) : Option Word :=
  (m.pageLookup pgdir va).join.map fun (_, pte) => m.word pte.1 pte.2

end Pmap

end Mos
