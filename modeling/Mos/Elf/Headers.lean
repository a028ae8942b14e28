import Mos.Elf.Stack

/-!
# The program headers

`spawn` reads every program header into the buffer in which the loop looks up the size and the number of the headers.  Both
loaders load the segments that they see one after the other, and where the headers have the size that `elf.h` gives them,
they see the same ones.
-/

namespace Mos

/-! ### Reading the file -/

namespace ElfFile

variable {f : ElfFile} {buf buf' : Nat → Byte} {pos pos' n r offset : Word}

private theorem readSize_toNat (h : offset.toNat + n.toNat < 2 ^ 32) :
    (f.readSize n offset).toNat = min n.toNat (f.size.toNat - offset.toNat) := by
  have hadd : (offset + n).toNat = offset.toNat + n.toNat := by
    rw [BitVec.toNat_add]
    exact Nat.mod_eq_of_lt h
  unfold readSize
  by_cases hlt : f.size < offset
  · rw [if_pos hlt]
    have hlt : f.size.toNat < offset.toNat := hlt
    have hzero : (0 : Word).toNat = 0 := rfl
    omega
  · rw [if_neg hlt]
    have hle : offset.toNat ≤ f.size.toNat := Nat.le_of_not_lt hlt
    by_cases hend : f.size < offset + n
    · rw [if_pos hend, BitVec.toNat_sub_of_le hle]
      have hend : f.size.toNat < (offset + n).toNat := hend
      omega
    · rw [if_neg hend]
      have hend : (offset + n).toNat ≤ f.size.toNat := Nat.le_of_not_lt hend
      omega

/-- Bytes of the file replace the beginning of the buffer. -/
theorem readn_eq (hwrap : pos.toNat + n.toNat < 2 ^ 32) (h : f.readn buf pos n = some (r, buf', pos')) :
    r.toNat = min n.toNat (f.size.toNat - pos.toNat) ∧
      ∀ x, buf' x = if x < min n.toNat (f.size.toNat - pos.toNat) then f.data (pos.toNat + x) else buf x := by
  unfold readn at h
  split at h
  case isFalse => cases h
  case isTrue hn =>
    have hn : n.toNat ≤ 512 := hn
    have hzero : (0 : Word).toNat = 0 := rfl
    by_cases h0 : n = 0
    · subst h0
      rw [readLoop, if_neg (by decide)] at h
      simp only [Option.some.injEq, Prod.mk.injEq] at h
      obtain ⟨rfl, rfl, -⟩ := h
      refine ⟨by omega, fun x => ?_⟩
      rw [if_neg (by omega)]
    · have hpos : 0 < n.toNat := Nat.pos_of_ne_zero fun heq => h0 (BitVec.eq_of_toNat_eq heq)
      obtain ⟨j, hj⟩ : ∃ j, n.toNat = j + 1 := ⟨n.toNat - 1, by omega⟩
      have hsub : n - 0 = n := BitVec.sub_zero n
      have hm := readSize_toNat (f := f) hwrap
      rw [hj, readLoop, if_pos (show (0 : Word) < n from hpos), hsub] at h
      generalize hmeq : f.readSize n pos = m at h hm
      have hpositive : m.slt 0 = false := by
        have hlt : m.toNat < 2 ^ 31 := by omega
        have hint := BitVec.toInt_eq_toNat_of_lt (x := m) (by omega)
        rw [BitVec.slt, hint]
        simp
      have hcopy : ∀ x, copyTo buf (0 : Word).toNat (shift f.data pos) m.toNat x =
          if x < min n.toNat (f.size.toNat - pos.toNat) then f.data (pos.toNat + x) else buf x := by
        intro x
        rw [← hm, hzero]
        simp only [copyTo, shift, Nat.zero_le, Nat.zero_add, true_and, Nat.sub_zero]
      dsimp only at h
      rw [hpositive, if_neg (by decide)] at h
      by_cases hm0 : m = 0
      · rw [if_pos hm0] at h
        simp only [Option.some.injEq, Prod.mk.injEq] at h
        obtain ⟨rfl, rfl, -⟩ := h
        rw [hm0] at hm
        exact ⟨hm, hcopy⟩
      · rw [if_neg hm0] at h
        have hmpos : 0 < m.toNat := Nat.pos_of_ne_zero fun heq => hm0 (BitVec.eq_of_toNat_eq heq)
        have hslt : (0 : Word).slt m = true := by
          have hint := BitVec.toInt_eq_toNat_of_lt (x := m) (by omega)
          rw [BitVec.slt, hint]
          simpa using hmpos
        have hadd : (0 : Word) + m = m := BitVec.zero_add m
        rw [hslt, if_pos rfl, hadd, readLoop] at h
        by_cases hlt : m < n
        · -- the end of the file: the next read returns nothing
          rw [if_pos hlt] at h
          have hlt : m.toNat < n.toNat := hlt
          have hposm : (pos + m).toNat = pos.toNat + m.toNat := by
            rw [BitVec.toNat_add]
            omega
          have hnm : (n - m).toNat = n.toNat - m.toNat := BitVec.toNat_sub_of_le (Nat.le_of_lt hlt)
          have hend : f.readSize (n - m) (pos + m) = 0 := by
            apply BitVec.eq_of_toNat_eq
            rw [readSize_toNat (by omega), hposm, hnm]
            omega
          dsimp only at h
          rw [hend, if_neg (by decide), if_pos rfl] at h
          simp only [Option.some.injEq, Prod.mk.injEq] at h
          obtain ⟨rfl, rfl, -⟩ := h
          refine ⟨hm, fun x => ?_⟩
          rw [← hcopy x, copyTo, if_neg (by omega)]
        · rw [if_neg hlt] at h
          simp only [Option.some.injEq, Prod.mk.injEq] at h
          obtain ⟨rfl, rfl, -⟩ := h
          exact ⟨hm, hcopy⟩

end ElfFile

/-! ### The segments that are seen -/

/-- The headers of the segments to load, with `n` more headers from `phOff` on in the image. -/
def imageLoads (b : Nat → Byte) : Nat → Word → List Phdr
  | 0, _ => []
  | n + 1, phOff =>
    (if (phdrAt (shift b phOff)).pType = PT_LOAD then [phdrAt (shift b phOff)] else []) ++
      imageLoads b n (phOff + (ehdrAt b).ePhentsize.setWidth 32)

/-- The same as it shows in the buffer that the headers are read to. -/
def ElfFile.shownLoads (f : ElfFile) : Nat → Nat → Word → (Nat → Byte) → List Phdr
  | 0, _, _, _ => []
  | n + 1, idx, phOff, elfbuf =>
    if idx < (ehdrAt elfbuf).ePhnum.toNat then
      match f.readn elfbuf phOff ((ehdrAt elfbuf).ePhentsize.setWidth 32) with
      | none => []
      | some (_, elfbuf, _) =>
        (if (phdrAt elfbuf).pType = PT_LOAD then [phdrAt elfbuf] else []) ++
          f.shownLoads n (idx + 1) (phOff + (ehdrAt elfbuf).ePhentsize.setWidth 32) elfbuf
    else []

namespace ElfFile

/-- What `load_icode` loads. -/
def imageSegs (f : ElfFile) : List Phdr := imageLoads f.data (ehdrAt f.data).ePhnum.toNat (ehdrAt f.data).ePhoff

/-- What `spawn` loads. -/
def shownSegs (f : ElfFile) : List Phdr := f.shownLoads 65536 0 (ehdrAt f.data).ePhoff f.data

/-- Where the header `i` is. -/
def phdrOff (f : ElfFile) (i : Nat) : Nat := (ehdrAt f.data).ePhoff.toNat + i * (ehdrAt f.data).ePhentsize.toNat

/-- The headers are in the file, and so are the bytes of the segments. -/
structure Inside (f : ElfFile) : Prop where
  header : ∀ i < (ehdrAt f.data).ePhnum.toNat, f.phdrOff i + 28 ≤ f.size.toNat
  bytes : ∀ ph ∈ f.imageSegs, ph.pOffset.toNat + ph.pFilesz.toNat ≤ f.size.toNat

end ElfFile

/-! ### What the headers depend on -/

section

variable {b b' : Nat → Byte} {o : Nat}

private theorem readHalf_congr (h : ∀ k < 2, b (o + k) = b' (o + k)) : readHalf b o = readHalf b' o := by
  have h0 : b o = b' o := h 0 (by decide)
  rw [readHalf, readHalf, h0, h 1 (by decide)]

/-- The six words that are used. -/
private theorem phdrAt_congr (h : ∀ x < 28, b x = b' x) : phdrAt b = phdrAt b' := by
  have hword : ∀ o, o + 4 ≤ 28 → readWord b o = readWord b' o := fun o ho => readWord_congr fun k hk => h _ (by omega)
  simp only [phdrAt, hword 0 (by decide), hword 4 (by decide), hword 8 (by decide), hword 16 (by decide),
    hword 20 (by decide), hword 24 (by decide)]

theorem ehdrAt_congr (h : ∀ x < 52, b x = b' x) : ehdrAt b = ehdrAt b' := by
  have hword : ∀ o, o + 4 ≤ 52 → readWord b o = readWord b' o := fun o ho => readWord_congr fun k hk => h _ (by omega)
  have hhalf : ∀ o, o + 2 ≤ 52 → readHalf b o = readHalf b' o := fun o ho => readHalf_congr fun k hk => h _ (by omega)
  simp only [ehdrAt, hword 24 (by decide), hword 28 (by decide), hhalf 42 (by decide), hhalf 44 (by decide)]

end

private theorem setWidth_toNat (x : BitVec 16) : (x.setWidth 32).toNat = x.toNat := by
  rw [BitVec.toNat_setWidth]
  have hlt := x.isLt
  exact Nat.mod_eq_of_lt (by omega)

namespace ElfFile

variable {f : ElfFile} {image buf buf' : Nat → Byte} {n left i idx : Nat} {phOff pos size tot : Word}

/-- The offsets do not wrap where the headers are in the file. -/
private theorem phdrOff_succ (h : f.phdrOff (i + 1) < 2 ^ 32) (hoff : phOff.toNat = f.phdrOff i) :
    (phOff + (ehdrAt f.data).ePhentsize.setWidth 32).toNat = f.phdrOff (i + 1) := by
  have hsucc : f.phdrOff (i + 1) = f.phdrOff i + (ehdrAt f.data).ePhentsize.toNat := by
    rw [phdrOff, phdrOff, Nat.succ_mul, Nat.add_assoc]
  rw [BitVec.toNat_add, setWidth_toNat, hoff, ← hsucc]
  exact Nat.mod_eq_of_lt h

/-- What lies behind the file does not matter. -/
theorem imageLoads_congr (hf : f.Inside) (himage : ∀ j < f.size.toNat, image j = f.data j)
    (hehdr : ehdrAt image = ehdrAt f.data) (hleft : i + left = (ehdrAt f.data).ePhnum.toNat)
    (hoff : i < (ehdrAt f.data).ePhnum.toNat → phOff.toNat = f.phdrOff i) :
    imageLoads image left phOff = imageLoads f.data left phOff := by
  induction left generalizing i phOff with
  | zero => rfl
  | succ left ih =>
    have hoff := hoff (by omega)
    have hph : phdrAt (shift image phOff) = phdrAt (shift f.data phOff) := by
      refine phdrAt_congr fun x hx => himage _ ?_
      have hin := hf.header i (by omega)
      omega
    rw [imageLoads, imageLoads, hph, hehdr]
    congr 1
    refine ih (i := i + 1) (by omega) fun hi => phdrOff_succ ?_ hoff
    have hin := hf.header (i + 1) hi
    have hlt := f.size.isLt
    omega

/-- Only the first 52 bytes of the buffer matter. -/
private theorem readLoop_congr (f : ElfFile) (size pos tot : Word) (rounds : Nat) (h : ∀ x < 52, buf x = buf' x) :
    (f.readLoop size rounds buf pos tot = none ∧ f.readLoop size rounds buf' pos tot = none) ∨
      ∃ r c c' p, f.readLoop size rounds buf pos tot = some (r, c, p) ∧
        f.readLoop size rounds buf' pos tot = some (r, c', p) ∧ ∀ x < 52, c x = c' x := by
  induction rounds generalizing buf buf' pos tot with
  | zero => exact .inl ⟨rfl, rfl⟩
  | succ rounds ih =>
    rw [readLoop, readLoop]
    by_cases hlt : tot < size
    · rw [if_pos hlt, if_pos hlt]
      have hcopy : ∀ m : Nat, ∀ x < 52, copyTo buf tot.toNat (shift f.data pos) m x =
          copyTo buf' tot.toNat (shift f.data pos) m x := by
        intro m x hx
        rw [copyTo, copyTo, h x hx]
      dsimp only
      split
      · exact .inr ⟨_, _, _, _, rfl, rfl, hcopy _⟩
      · split
        · exact .inr ⟨_, _, _, _, rfl, rfl, hcopy _⟩
        · exact ih _ _ (hcopy _)
    · rw [if_neg hlt, if_neg hlt]
      exact .inr ⟨_, _, _, _, rfl, rfl, h⟩

theorem shownLoads_congr (h : ∀ x < 52, buf x = buf' x) :
    f.shownLoads n idx phOff buf = f.shownLoads n idx phOff buf' := by
  induction n generalizing idx phOff buf buf' with
  | zero => rfl
  | succ n ih =>
    rw [shownLoads, shownLoads, ehdrAt_congr h]
    split
    case isFalse => rfl
    case isTrue =>
      rw [readn, readn]
      by_cases h512 : (ehdrAt buf').ePhentsize.setWidth 32 ≤ (512 : Word)
      · rw [if_pos h512, if_pos h512]
        rcases readLoop_congr f ((ehdrAt buf').ePhentsize.setWidth 32) phOff 0
          (((ehdrAt buf').ePhentsize.setWidth 32).toNat + 1) h with ⟨hnone, hnone'⟩ | ⟨r, c, c', p, hc, hc', heq⟩
        · rw [hnone, hnone']
        · rw [hc, hc']
          dsimp only
          rw [phdrAt_congr fun x hx => heq x (by omega), ehdrAt_congr heq, ih heq]
      · rw [if_neg h512, if_neg h512]

private theorem readn_full (f : ElfFile) (pos : Word) (h : pos.toNat + size.toNat ≤ f.size.toNat) (h512 : size ≤ 512)
    (buf : Nat → Byte) :
    ∃ buf' pos', f.readn buf pos size = some (size, buf', pos') := by
  have hfile := f.size.isLt
  have h512' : size.toNat ≤ 512 := h512
  rw [readn, if_pos h512]
  by_cases h0 : size = 0
  · subst h0
    exact ⟨buf, pos, rfl⟩
  · have hpos : 0 < size.toNat := Nat.pos_of_ne_zero fun heq => h0 (BitVec.eq_of_toNat_eq heq)
    obtain ⟨j, hj⟩ : ∃ j, size.toNat = j + 1 := ⟨size.toNat - 1, by omega⟩
    have hsub : size - 0 = size := BitVec.sub_zero size
    have hread : f.readSize (size - 0) pos = size := by
      rw [hsub]
      apply BitVec.eq_of_toNat_eq
      rw [readSize_toNat (by omega)]
      omega
    have hneg : size.slt 0 = false := by
      rw [BitVec.slt, BitVec.toInt_eq_toNat_of_lt (x := size) (by omega)]
      simp
    have hzero : (0 : Word) + size = size := BitVec.zero_add size
    rw [hj, readLoop, if_pos (show (0 : Word) < size from hpos), hread]
    dsimp only
    rw [hneg, if_neg (by decide), if_neg h0, hzero, readLoop, if_neg (BitVec.lt_irrefl size)]
    exact ⟨_, _, rfl⟩

/-- Where a header ends before `e_phentsize` and holds all that is used, the buffer shows what is in the image. -/
private theorem shownLoads_eq (h28 : 28 ≤ (ehdrAt f.data).ePhentsize.toNat) (h42 : (ehdrAt f.data).ePhentsize.toNat ≤ 42)
    (hin : ∀ i < (ehdrAt f.data).ePhnum.toNat, f.phdrOff (i + 1) ≤ f.size.toNat)
    (hbuf : ∀ x, (ehdrAt f.data).ePhentsize.toNat ≤ x → x < 52 → buf x = f.data x)
    (hleft : i + left = (ehdrAt f.data).ePhnum.toNat) (hn : left < n)
    (hoff : i < (ehdrAt f.data).ePhnum.toNat → phOff.toNat = f.phdrOff i) :
    f.shownLoads n i phOff buf = imageLoads f.data left phOff := by
  have hfields : ∀ {buf : Nat → Byte}, (∀ x, (ehdrAt f.data).ePhentsize.toNat ≤ x → x < 52 → buf x = f.data x) →
      (ehdrAt buf).ePhentsize = (ehdrAt f.data).ePhentsize ∧ (ehdrAt buf).ePhnum = (ehdrAt f.data).ePhnum := fun h =>
    ⟨readHalf_congr fun k hk => h _ (by omega) (by omega), readHalf_congr fun k hk => h _ (by omega) (by omega)⟩
  induction n generalizing i left phOff buf with
  | zero => exact absurd hn (Nat.not_lt_zero _)
  | succ n ih =>
    obtain ⟨hsize, hnum⟩ := hfields hbuf
    rw [shownLoads, hsize, hnum]
    cases left with
    | zero =>
      rw [if_neg (by omega)]
      rfl
    | succ left =>
      have hi : i < (ehdrAt f.data).ePhnum.toNat := by omega
      have hoff := hoff hi
      have hend := hin i hi
      have hlt := f.size.isLt
      have hsucc : f.phdrOff (i + 1) = f.phdrOff i + (ehdrAt f.data).ePhentsize.toNat := by
        rw [phdrOff, phdrOff, Nat.succ_mul, Nat.add_assoc]
      have h512 : (ehdrAt f.data).ePhentsize.setWidth 32 ≤ (512 : Word) := by
        rw [BitVec.le_def, setWidth_toNat]
        exact Nat.le_trans h42 (by decide)
      obtain ⟨buf', pos', hread⟩ := readn_full f phOff (by rw [setWidth_toNat]; omega) h512 buf
      obtain ⟨-, hbytes⟩ := readn_eq (by rw [setWidth_toNat]; omega) hread
      have hmin : min (ehdrAt f.data).ePhentsize.toNat (f.size.toNat - phOff.toNat) = (ehdrAt f.data).ePhentsize.toNat := by
        omega
      rw [setWidth_toNat, hmin] at hbytes
      have hbuf' : ∀ x, (ehdrAt f.data).ePhentsize.toNat ≤ x → x < 52 → buf' x = f.data x := by
        intro x hle hx
        rw [hbytes x, if_neg (by omega)]
        exact hbuf x hle hx
      have hph : phdrAt buf' = phdrAt (shift f.data phOff) := by
        refine phdrAt_congr fun x hx => ?_
        rw [hbytes x, if_pos (by omega)]
        rfl
      rw [if_pos hi, hread, imageLoads]
      dsimp only
      rw [hph, (hfields hbuf').1]
      congr 1
      refine ih hbuf' (by omega) (by omega) fun _ => phdrOff_succ ?_ hoff
      omega

/-- Headers of 28 to 42 bytes are seen as they are. -/
theorem shownSegs_eq (h28 : 28 ≤ (ehdrAt f.data).ePhentsize.toNat) (h42 : (ehdrAt f.data).ePhentsize.toNat ≤ 42)
    (hin : ∀ i < (ehdrAt f.data).ePhnum.toNat, f.phdrOff (i + 1) ≤ f.size.toNat) : f.shownSegs = f.imageSegs := by
  have hlt := (ehdrAt f.data).ePhnum.isLt
  exact shownLoads_eq h28 h42 hin (fun _ _ _ => rfl) (Nat.zero_add _) hlt fun _ => by
    rw [phdrOff, Nat.zero_mul, Nat.add_zero]

end ElfFile

/-! ### The loops as folds over the segments -/

/-- Segments are loaded one after the other from the bytes `b`. -/
def loadSegs {σ : Type} (mapPage : ElfMapper σ) (rounds : Nat) (b : Nat → Byte) : List Phdr → σ → Option σ
  | [], s => some s
  | ph :: l, s => (elfLoadSeg mapPage rounds ph (shift b ph.pOffset) s).bind fun x =>
    if x.1 = 0 then loadSegs mapPage rounds b l x.2 else none

section

variable {σ τ : Type} {mapA : ElfMapper σ} {mapB : ElfMapper τ} {rounds rounds' : Nat} {b b' : Nat → Byte} {l : List Phdr}
  {s s' : σ} {t t' : τ} {ph : Phdr}

private theorem loadSegs_cons : loadSegs mapA rounds b (ph :: l) s = some s' ↔
    ∃ s₁, elfLoadSeg mapA rounds ph (shift b ph.pOffset) s = some (0, s₁) ∧ loadSegs mapA rounds b l s₁ = some s' := by
  rw [loadSegs, Option.bind_eq_some_iff]
  constructor
  · rintro ⟨⟨r, s₁⟩, hseg, h⟩
    dsimp only at h
    split at h
    case isTrue hr => exact ⟨s₁, hr ▸ hseg, h⟩
    case isFalse => cases h
  · rintro ⟨s₁, hseg, h⟩
    exact ⟨(0, s₁), hseg, h⟩

/-- What every call of the callback keeps is kept. -/
theorem loadSegs_inv {I : σ → Prop} (hinv : ∀ ph s va offset src len s', I s → offset.toNat + len.toNat ≤ 4096 →
    mapA s va offset (Phdr.perm ph) src len = some (0, s') → I s') (h : I s)
    (hr : loadSegs mapA rounds b l s = some s') : I s' := by
  induction l generalizing s with
  | nil => exact Option.some.inj hr ▸ h
  | cons ph l ih =>
    obtain ⟨s₁, hseg, hr⟩ := loadSegs_cons.1 hr
    exact ih (elfLoadSeg_inv (hinv ph) h hseg) hr

/-- The same segments from the same bytes. -/
theorem loadSegs_couple {R : σ → τ → Prop} (hcouple : ∀ ph, Couples R (Phdr.perm ph) mapA mapB)
    (hb : ∀ ph ∈ l, ∀ j < ph.pFilesz.toNat, shift b ph.pOffset j = shift b' ph.pOffset j) (hst : R s t)
    (hA : loadSegs mapA rounds b l s = some s') (hB : loadSegs mapB rounds' b' l t = some t') : R s' t' := by
  induction l generalizing s t with
  | nil => exact Option.some.inj hA ▸ Option.some.inj hB ▸ hst
  | cons ph l ih =>
    obtain ⟨s₁, hsegA, hA⟩ := loadSegs_cons.1 hA
    obtain ⟨t₁, hsegB, hB⟩ := loadSegs_cons.1 hB
    exact ih (fun x hx => hb x (List.mem_cons_of_mem _ hx))
      (elfLoadSeg_couple (hcouple ph) (hb ph (List.mem_cons_self ..)) hst hsegA hsegB) hA hB

end

section

open Kern

variable {k k' : Kern} {cur : EnvPtr} {child : Word} {f : ElfFile} {rounds n idx d : Nat} {phOff : Word}
  {buf image : Nat → Byte} {asid : Asid} {m m' : Pmap}

theorem loadPhdrs_segs (h : Elf.loadPhdrs rounds d asid image n phOff m = some m') :
    loadSegs (Elf.loadIcodeMapper d asid) rounds image (imageLoads image n phOff) m = some m' := by
  induction n generalizing phOff m with
  | zero => exact h
  | succ n ih =>
    obtain ⟨m₁, hseg, h⟩ := Option.bind_eq_some_iff.1 h
    rw [imageLoads]
    split at hseg
    case isTrue hload =>
      rw [if_pos hload]
      obtain ⟨⟨r, m₂⟩, hcall, hr⟩ := Option.bind_eq_some_iff.1 hseg
      dsimp only at hr
      split at hr
      case isFalse => cases hr
      case isTrue hr0 =>
        obtain rfl := Option.some.inj hr
        exact loadSegs_cons.2 ⟨m₂, hr0 ▸ hcall, ih h⟩
    case isFalse hload =>
      rw [if_neg hload]
      obtain rfl := Option.some.inj hseg
      exact ih h

theorem spawnPhdrs_segs (h : spawnPhdrs rounds cur child f n idx phOff buf k = some (.ok (), k')) :
    loadSegs (spawnMapper cur child) rounds f.data (f.shownLoads n idx phOff buf) k = some k' := by
  induction n generalizing idx phOff buf k with
  | zero => cases h
  | succ n ih =>
    rw [spawnPhdrs] at h
    rw [ElfFile.shownLoads]
    split at h
    case isFalse hlt =>
      rw [if_neg hlt]
      simp only [Option.some.injEq, Prod.mk.injEq, true_and] at h
      exact congrArg some h
    case isTrue hlt =>
    rw [if_pos hlt]
    obtain ⟨⟨r, buf', pos⟩, hread, h⟩ := Option.bind_eq_some_iff.1 h
    rw [hread]
    dsimp only at h ⊢
    split at h
    case isTrue => simp only [Option.some.injEq, Prod.mk.injEq, reduceCtorEq, false_and] at h
    case isFalse =>
    split at h
    case isFalse hload =>
      rw [if_neg hload]
      exact ih h
    case isTrue hload =>
    rw [if_pos hload]
    split at h
    case h_1 => simp only [Option.some.injEq, Prod.mk.injEq, reduceCtorEq, false_and] at h
    case h_2 bin hbin =>
    have hbin : bin = shift f.data (phdrAt buf').pOffset := by
      unfold ElfFile.readMap at hbin
      split at hbin
      case isTrue => cases hbin
      case isFalse =>
        split at hbin
        case isTrue => exact (Except.ok.inj hbin).symm
        case isFalse => cases hbin
    subst hbin
    obtain ⟨⟨r', k₁⟩, hseg, h⟩ := Option.bind_eq_some_iff.1 h
    dsimp only at h
    split at h
    case isTrue => simp only [Option.some.injEq, Prod.mk.injEq, reduceCtorEq, false_and] at h
    case isFalse hneg =>
    obtain rfl : r' = 0 := (elfLoadSeg_ret (P := fun r => r = 0 ∨ r.slt 0 = true) (.inl rfl)
      (fun _ _ _ _ _ _ _ _ hm => spawnMapper_ret hm) hseg).resolve_right hneg
    exact loadSegs_cons.2 ⟨k₁, hseg, ih h⟩

end

end Mos
