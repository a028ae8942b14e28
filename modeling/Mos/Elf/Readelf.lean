import Mos.Elf.Spawn

/-!
# Printing the section addresses of a file (`tools/readelf/readelf.c`)

The buffer is a function from an offset to the byte there; behind its end is whatever lies in memory there.
-/

namespace Mos

def sizeofEhdr : Nat := 52
def sizeofShdr : Nat := 40

/-- What a call of `readelf` does: the offsets from `binary` that it reads, the lines that it prints, and its result. -/
structure ReadelfRun where
  reads : List Nat
  out : List (Nat × Word)
  ret : Int
  deriving DecidableEq

namespace Readelf

variable (b : Nat → Byte) (size : Nat)

/-- The comparisons with `ELFMAG0` and so on, up to the first that fails, with the offsets that are read. -/
def checkMagic : List (Nat × Byte) → Bool × List Nat
  | [] => (true, [])
  | (o, x) :: rest => if b o = x then ((checkMagic rest).1, o :: (checkMagic rest).2) else (false, [o])

def isElfFormat : Bool × List Nat :=
  if sizeofEhdr ≤ size then checkMagic b [(0, 0x7f), (1, 0x45), (2, 0x4c), (3, 0x46)] else (false, [])

def eShoff : Nat := (readWord b 32).toNat
def eShentsize : Nat := (readHalf b 46).toNat
def eShnum : Nat := (readHalf b 48).toNat

/-- `sh_addr` of the header at an offset. -/
def shAddr (o : Nat) : Word := readWord b (o + 12)

/-- `(Elf32_Shdr *)sh_table + i`. -/
def shdr (i : Nat) : Nat := eShoff b + i * sizeofShdr

def readelf : ReadelfRun :=
  let (ok, magic) := isElfFormat b size
  if ok then
    { reads := magic ++ List.range' 32 4 ++ List.range' 48 2 ++ List.range' 46 2 ++
        (List.range (eShnum b)).flatMap fun i => List.range' (shdr b i + 12) 4
      out := (List.range (eShnum b)).map fun i => (i, shAddr b (shdr b i))
      ret := 0 }
  else ⟨magic, [], -1⟩

/-! ### What it is to do -/

/-- Every section header is in the buffer. -/
def TableFits : Prop := ∀ i < eShnum b, eShoff b + i * eShentsize b + sizeofShdr ≤ size

/-- Only the buffer is read; a file that is no ELF file is refused, and so is a table that does not fit; otherwise the
address of every section is printed. -/
structure ReadelfOk (run : ReadelfRun) : Prop where
  inside : ∀ o ∈ run.reads, o < size
  refused : (isElfFormat b size).1 = false → run.ret = -1
  printed : (isElfFormat b size).1 = true → TableFits b size →
    run.ret = 0 ∧ run.out = (List.range (eShnum b)).map fun i => (i, shAddr b (eShoff b + i * eShentsize b))
  misfit : (isElfFormat b size).1 = true → ¬ TableFits b size → run.ret < 0

/-- The table fits, and its entries are 40 bytes apart, as far as the addresses tell. -/
def PlainTable : Prop := TableFits b size ∧ ∀ i < eShnum b, i = 0 ∨ eShentsize b = sizeofShdr ∨
  shdr b i + 16 ≤ size ∧ shAddr b (shdr b i) = shAddr b (eShoff b + i * eShentsize b)

variable {b size}

private theorem checkMagic_reads : ∀ {l : List (Nat × Byte)} {n : Nat}, (∀ p ∈ l, p.1 < n) →
    ∀ o ∈ (checkMagic b l).2, o < n := by
  intro l n hl
  induction l with
  | nil => simp [checkMagic]
  | cons p rest ih =>
    have hrest := ih fun q hq => hl q (List.mem_cons_of_mem _ hq)
    have hp := hl p List.mem_cons_self
    unfold checkMagic
    split
    · simpa [hp] using hrest
    · simpa using hp

private theorem isElfFormat_reads : ∀ o ∈ (isElfFormat b size).2, o < size := by
  unfold isElfFormat
  split
  case isTrue h =>
    refine fun o ho => Nat.lt_of_lt_of_le (checkMagic_reads (n := 4) ?_ o ho) (Nat.le_trans (by decide) h)
    decide
  case isFalse => simp

private theorem size_of_isElfFormat (h : (isElfFormat b size).1 = true) : sizeofEhdr ≤ size := by
  unfold isElfFormat at h
  split at h
  case isTrue hsize => exact hsize
  case isFalse => cases h

/-- What is read of a file that is not refused. -/
private theorem mem_reads {o : Nat} (h : (isElfFormat b size).1 = true) : o ∈ (readelf b size).reads ↔
    o ∈ (isElfFormat b size).2 ∨ 32 ≤ o ∧ o < 36 ∨ 46 ≤ o ∧ o < 50 ∨
      ∃ i < eShnum b, shdr b i + 12 ≤ o ∧ o < shdr b i + 16 := by
  unfold readelf
  simp only [h, if_true, List.mem_append, List.mem_range'_1, List.mem_flatMap, List.mem_range]
  constructor
  · rintro ((((hmagic | ho) | ho) | ho) | ⟨i, hi, ho⟩)
    · exact .inl hmagic
    · exact .inr (.inl (by omega))
    · exact .inr (.inr (.inl (by omega)))
    · exact .inr (.inr (.inl (by omega)))
    · exact .inr (.inr (.inr ⟨i, hi, by omega⟩))
  · rintro (hmagic | ho | ho | ⟨i, hi, ho⟩)
    · exact .inl (.inl (.inl (.inl hmagic)))
    · exact .inl (.inl (.inl (.inr (by omega))))
    · by_cases h48 : 48 ≤ o
      · exact .inl (.inl (.inr (by omega)))
      · exact .inl (.inr (by omega))
    · exact .inr ⟨i, hi, by omega⟩

/-- The reads of the loop are in the buffer. -/
private theorem inside_iff (h : (isElfFormat b size).1 = true) : (∀ o ∈ (readelf b size).reads, o < size) ↔
    ∀ i < eShnum b, shdr b i + 16 ≤ size := by
  have hsize := size_of_isElfFormat h
  unfold sizeofEhdr at hsize
  constructor
  · intro hin i hi
    have hlast := hin (shdr b i + 15) ((mem_reads h).2 (.inr (.inr (.inr ⟨i, hi, by omega⟩))))
    omega
  · intro hin o ho
    rcases (mem_reads h).1 ho with hmagic | ho | ho | ⟨i, hi, -, ho⟩
    · exact isElfFormat_reads o hmagic
    · omega
    · omega
    · have hi' := hin i hi
      omega

private theorem readelf_ok (h : (isElfFormat b size).1 = true) : (readelf b size).ret = 0 ∧
    (readelf b size).out = (List.range (eShnum b)).map fun i => (i, shAddr b (shdr b i)) := by
  unfold readelf
  simp [h]

/-- Two lists of lines agree if the addresses do. -/
private theorem lines_eq_iff {n : Nat} {f g : Nat → Word} :
    ((List.range n).map fun i => (i, f i)) = ((List.range n).map fun i => (i, g i)) ↔ ∀ i < n, f i = g i := by
  simp

/-- `readelf` does what it is to do exactly on files that it refuses, and those whose table fits and has entries of 40
bytes, or looks so. -/
theorem readelfOk_iff (b : Nat → Byte) (size : Nat) :
    ReadelfOk b size (readelf b size) ↔ (isElfFormat b size).1 = false ∨ PlainTable b size := by
  cases hfmt : (isElfFormat b size).1 with
  | false =>
    refine iff_of_true ⟨?_, fun _ => ?_, fun h => ?_, fun h => ?_⟩ (.inl rfl)
    · unfold readelf
      simp only [hfmt, Bool.false_eq_true, if_false]
      exact isElfFormat_reads
    · unfold readelf
      simp [hfmt]
    · rw [hfmt] at h
      cases h
    · rw [hfmt] at h
      cases h
  | true =>
    obtain ⟨hret, hout⟩ := readelf_ok hfmt
    constructor
    · intro hok
      have hfits : TableFits b size := by
        by_contra hfits
        have hneg := hok.misfit hfmt hfits
        rw [hret] at hneg
        exact absurd hneg (by decide)
      have haddr := (hok.printed hfmt hfits).2
      rw [hout, lines_eq_iff] at haddr
      have hin := (inside_iff hfmt).1 hok.inside
      exact .inr ⟨hfits, fun i hi => .inr (.inr ⟨hin i hi, haddr i hi⟩)⟩
    · rintro (h | ⟨hfits, hplain⟩)
      · cases h
      -- the header of a section is read where the table has it, or has the same address there
      have hsame : ∀ i < eShnum b, shdr b i + 16 ≤ size ∧ shAddr b (shdr b i) = shAddr b (eShoff b + i * eShentsize b) := by
        intro i hi
        have hfit := hfits i hi
        have hentry (heq : eShoff b + i * eShentsize b = shdr b i) :
            shdr b i + 16 ≤ size ∧ shAddr b (shdr b i) = shAddr b (eShoff b + i * eShentsize b) := by
          rw [heq] at hfit ⊢
          unfold sizeofShdr at hfit
          exact ⟨by omega, rfl⟩
        rcases hplain i hi with rfl | h40 | hluck
        · exact hentry (by simp [shdr])
        · exact hentry (by rw [h40, shdr])
        · exact hluck
      refine ⟨(inside_iff hfmt).2 fun i hi => (hsame i hi).1, fun h => ?_, fun _ _ => ⟨hret, ?_⟩, fun _ h => absurd hfits h⟩
      · rw [hfmt] at h
        cases h
      · rw [hout, lines_eq_iff]
        exact fun i hi => (hsame i hi).2

/-- A header with one section at the end of the file. -/
def noTable (o : Nat) : Byte :=
  if o = 0 then 0x7f else if o = 1 then 0x45 else if o = 2 then 0x4c else if o = 3 then 0x46
  else if o = 32 then 52 else if o = 46 then 40 else if o = 48 then 1 else 0

/-- The table begins where the file ends, and is read all the same. -/
theorem exists_readelf_outside : ¬ ReadelfOk noTable 52 (readelf noTable 52) := by
  intro hok
  have hread : 64 ∈ (readelf noTable 52).reads := by decide
  exact absurd (hok.inside 64 hread) (by decide)

end Readelf

end Mos
