import Mos.Kern.Step

/-!
# What the kernel touches through user addresses

The functions of `kern/syscall_all.c` that take a user address, with the bytes that they read and write through it.
Some check the range first; the pointers of `sys_sigaction` and `sys_sigprocmask` and the mask of
`sys_back_do_signal` are used as they come.
-/

namespace Mos

open Kern

/-- Bytes that the kernel reads or writes. -/
structure Access where
  write : Bool
  base : Word
  len : Nat
  deriving DecidableEq

/-- Nothing, or bytes below `UTOP`, without wrapping around. -/
def Access.InUser (x : Access) : Prop := x.len = 0 ∨ x.base.toNat + x.len ≤ UTOP.toNat

instance (x : Access) : Decidable x.InUser := inferInstanceAs (Decidable (_ ∨ _))

def Access.Covers (x : Access) (a : Word) : Prop := x.base.toNat ≤ a.toNat ∧ a.toNat < x.base.toNat + x.len

/-! ### The functions -/

/-- The result and what was read: byte by byte, for `printcharc`. -/
def sysPrintCons (s num : Word) : Word × List Access :=
  if UTOP < s + num ∨ UTOP ≤ s ∨ s + num < s then (-E_INVAL, [])
  else (0, (List.range num.toNat).map fun i => ⟨false, s + BitVec.ofNat 32 i, 1⟩)

/-- `memcpy` from or to a device; the accesses to the device itself are left out. -/
def devCopy (write : Bool) (va pa len : Word) : Word × List Access :=
  if isIllegalVaRange va len then (-E_INVAL, [])
  else if isDevice pa len then (0, [⟨write, va, len.toNat⟩])
  else (-E_INVAL, [])

def sysWriteDev (va pa len : Word) : Word × List Access := devCopy false va pa len
def sysReadDev (va pa len : Word) : Word × List Access := devCopy true va pa len

/-- `sizeof(sigset_t)`. -/
def SIGSET_SIZE : Nat := 8

/-- `sizeof(struct sigaction)`. -/
def SIGACTION_SIZE : Nat := 12

/-- A pointer that may be `NULL`. -/
def optional (write : Bool) (p : Word) (len : Nat) : List Access := if p = 0 then [] else [⟨write, p, len⟩]

def sysSigactionLog (act oldact : Word) : List Access :=
  optional false act SIGACTION_SIZE ++ optional true oldact SIGACTION_SIZE

def legalHow (how : Word) : Bool := how = SIG_BLOCK ∨ how = SIG_UNBLOCK ∨ how = SIG_SETMASK

/-- The `default` of the `switch` returns. -/
def sysSigprocmaskLog (how set oldset : Word) : List Access :=
  if set ≠ 0 ∧ ¬legalHow how then [] else optional false set SIGSET_SIZE ++ optional true oldset SIGSET_SIZE

namespace Kern

/-- The frame is copied; on the caller itself its `$v0` is read once more. -/
def sysSetTrapframeLog (k : Kern) (cur : EnvPtr) (envid tf : Word) : List Access :=
  if isIllegalVaRange tf TF_SIZE then []
  else match k.envid2env cur envid true with
    | none => []
    | some env => ⟨false, tf, TF_SIZE.toNat⟩ :: if env = cur then [⟨false, tf + 8, 4⟩] else []

/-- The result of `sys_set_trapframe`. -/
def setTrapframeRet (k : Kern) (cur : EnvPtr) (envid tf : Word) : Word :=
  if isIllegalVaRange tf TF_SIZE then -E_INVAL
  else match k.envid2env cur envid true with
    | none => -E_BAD_ENV
    | some env => if env = cur then k.umem (tf + 8) else 0

def sysBackDoSignalLog (k : Kern) (cur : EnvPtr) (envid tf originMask : Word) : List Access :=
  if envid ≠ 0 ∧ envid ≠ (k.envs cur).envId then []
  else k.sysSetTrapframeLog cur envid tf ++
    if (k.setTrapframeRet cur envid tf).slt 0 then [] else [⟨false, originMask, SIGSET_SIZE⟩]

end Kern

/-- A call of a function that takes a user address. -/
inductive AddrCall where
  | printCons (s num : Word)
  | setTrapframe (envid tf : Word)
  | writeDev (va pa len : Word)
  | readDev (va pa len : Word)
  | sigaction (signo act oldact : Word)
  | sigprocmask (how set oldset : Word)
  | backDoSignal (envid tf originMask : Word)
  deriving DecidableEq

/-- The part of `syscall_table` with these functions. -/
def addrTable (sysno : Nat) (a₁ a₂ a₃ : Word) : Option AddrCall :=
  match sysno with
  | 1 => some (.printCons a₁ a₂)
  | 11 => some (.setTrapframe a₁ a₂)
  | 16 => some (.writeDev a₁ a₂ a₃)
  | 17 => some (.readDev a₁ a₂ a₃)
  | 18 => some (.sigaction a₁ a₂ a₃)
  | 19 => some (.sigprocmask a₁ a₂ a₃)
  | 21 => some (.backDoSignal a₁ a₂ a₃)
  | _ => none

/-- What the call touches, in order. -/
def Kern.accesses (k : Kern) (cur : EnvPtr) : AddrCall → List Access
  | .printCons s num => (sysPrintCons s num).2
  | .setTrapframe envid tf => k.sysSetTrapframeLog cur envid tf
  | .writeDev va pa len => (sysWriteDev va pa len).2
  | .readDev va pa len => (sysReadDev va pa len).2
  | .sigaction _ act oldact => sysSigactionLog act oldact
  | .sigprocmask how set oldset => sysSigprocmaskLog how set oldset
  | .backDoSignal envid tf originMask => k.sysBackDoSignalLog cur envid tf originMask

/-- The ranges that the arguments stand for. -/
def AddrCall.ranges : AddrCall → List Access
  | .printCons s num => [⟨false, s, num.toNat⟩]
  | .setTrapframe _ tf => [⟨false, tf, TF_SIZE.toNat⟩]
  | .writeDev va _ len => [⟨false, va, len.toNat⟩]
  | .readDev va _ len => [⟨true, va, len.toNat⟩]
  | .sigaction _ act oldact => optional false act SIGACTION_SIZE ++ optional true oldact SIGACTION_SIZE
  | .sigprocmask _ set oldset => optional false set SIGSET_SIZE ++ optional true oldset SIGSET_SIZE
  | .backDoSignal _ tf originMask => [⟨false, tf, TF_SIZE.toNat⟩, ⟨false, originMask, SIGSET_SIZE⟩]

/-- The call touches user memory only, and nothing at all if one of its ranges is not there. -/
structure Kern.Confined (k : Kern) (cur : EnvPtr) (c : AddrCall) : Prop where
  user : ∀ x ∈ k.accesses cur c, x.InUser
  untouched : ∀ x ∈ c.ranges, ¬x.InUser → k.accesses cur c = []

/-! ### The checks -/

variable {k k' : Kern} {cur : EnvPtr}

/-- The check of `is_illegal_va_range` is enough. -/
private theorem inUser_of_legal {va len : Word} (h : isIllegalVaRange va len = false) (write : Bool) :
    (Access.mk write va len.toNat).InUser := by
  have htop : UTOP.toNat = 0x7F400000 := by decide
  unfold isIllegalVaRange at h
  split at h
  case isTrue h0 => exact .inl (by rw [h0]; rfl)
  case isFalse =>
    simp only [Bool.or_eq_false_iff, decide_eq_false_iff_not, BitVec.lt_def, BitVec.toNat_add] at h
    have hva := va.isLt
    have hlen := len.isLt
    refine .inr ?_
    show va.toNat + len.toNat ≤ UTOP.toNat
    omega

/-- So is the one of `sys_print_cons`. -/
private theorem inUser_of_print {s num : Word} (h : ¬(UTOP < s + num ∨ UTOP ≤ s ∨ s + num < s)) :
    s.toNat + num.toNat ≤ UTOP.toNat := by
  have htop : UTOP.toNat = 0x7F400000 := by decide
  simp only [not_or, BitVec.lt_def, BitVec.le_def, BitVec.toNat_add] at h
  have hs := s.isLt
  have hnum := num.isLt
  omega

private theorem confined_printCons (s num : Word) : k.Confined cur (.printCons s num) := by
  have hlog : k.accesses cur (.printCons s num) = (sysPrintCons s num).2 := rfl
  by_cases h : UTOP < s + num ∨ UTOP ≤ s ∨ s + num < s
  · rw [sysPrintCons, if_pos h] at hlog
    refine ⟨fun x hx => ?_, fun _ _ _ => hlog⟩
    rw [hlog] at hx
    cases hx
  · have hle := inUser_of_print h
    rw [sysPrintCons, if_neg h] at hlog
    constructor
    · intro x hx
      rw [hlog] at hx
      obtain ⟨i, hi, rfl⟩ := List.mem_map.1 hx
      have hi := List.mem_range.1 hi
      have hs := s.isLt
      refine .inr ?_
      show (s + BitVec.ofNat 32 i).toNat + 1 ≤ UTOP.toNat
      rw [BitVec.toNat_add, BitVec.toNat_ofNat, Nat.add_mod_mod]
      have hmod := Nat.mod_le (s.toNat + i) (2 ^ 32)
      omega
    · intro x hx hout
      rw [List.mem_singleton.1 hx] at hout
      exact absurd (.inr hle) hout

private theorem confined_devCopy {c : AddrCall} {write : Bool} {va pa len : Word}
    (hlog : k.accesses cur c = (devCopy write va pa len).2) (hranges : c.ranges = [⟨write, va, len.toNat⟩]) :
    k.Confined cur c := by
  cases h : isIllegalVaRange va len with
  | true =>
    have hnil : k.accesses cur c = [] := by rw [hlog, devCopy, if_pos h]
    refine ⟨fun x hx => ?_, fun _ _ _ => hnil⟩
    rw [hnil] at hx
    cases hx
  | false =>
    have hin := inUser_of_legal h write
    constructor
    · intro x hx
      rw [hlog, devCopy, if_neg (by simp [h])] at hx
      split at hx
      · rwa [List.mem_singleton.1 hx]
      · cases hx
    · intro x hx hout
      rw [hranges] at hx
      exact absurd (List.mem_singleton.1 hx ▸ hin) hout

/-- What `sys_set_trapframe` touches lies in the frame, which is in user memory. -/
private theorem setTrapframeLog_inUser {envid tf : Word} {x : Access} (hx : x ∈ k.sysSetTrapframeLog cur envid tf) :
    isIllegalVaRange tf TF_SIZE = false ∧ x.InUser := by
  unfold sysSetTrapframeLog at hx
  split at hx
  case isTrue => cases hx
  case isFalse h =>
    have hlegal : isIllegalVaRange tf TF_SIZE = false := by simpa using h
    have hin := inUser_of_legal hlegal false
    refine ⟨hlegal, ?_⟩
    split at hx
    · cases hx
    · rcases List.mem_cons.1 hx with rfl | hx
      · exact hin
      · split at hx
        case isFalse => cases hx
        case isTrue =>
          rw [List.mem_singleton.1 hx]
          have hsize : TF_SIZE.toNat = 152 := by decide
          have htop : UTOP.toNat = 0x7F400000 := by decide
          have hle : tf.toNat + TF_SIZE.toNat ≤ UTOP.toNat := hin.resolve_left (show ¬TF_SIZE.toNat = 0 by decide)
          have h8 : (8 : Word).toNat = 8 := by decide
          refine .inr ?_
          show (tf + 8).toNat + 4 ≤ UTOP.toNat
          rw [BitVec.toNat_add, h8]
          omega

private theorem confined_setTrapframe (envid tf : Word) : k.Confined cur (.setTrapframe envid tf) := by
  constructor
  · exact fun x hx => (setTrapframeLog_inUser hx).2
  · intro x hx hout
    cases hlog : k.sysSetTrapframeLog cur envid tf with
    | nil => exact hlog
    | cons y l =>
      have hlegal := (setTrapframeLog_inUser (hlog ▸ List.mem_cons_self .. : y ∈ k.sysSetTrapframeLog cur envid tf)).1
      rw [List.mem_singleton.1 hx] at hout
      exact absurd (inUser_of_legal hlegal false) hout

private theorem confined_nil {c : AddrCall} (h : k.accesses cur c = []) : k.Confined cur c :=
  ⟨fun _ hx => absurd (h ▸ hx) List.not_mem_nil, fun _ _ _ => h⟩

/-- A call that touches exactly its ranges has no check. -/
private theorem confined_unchecked {c : AddrCall} (h : k.accesses cur c = c.ranges) :
    k.Confined cur c ↔ ∀ x ∈ c.ranges, x.InUser := by
  constructor
  · intro hc x hx
    exact hc.user x (h ▸ hx)
  · intro hin
    exact ⟨fun x hx => hin x (h ▸ hx), fun x hx hout => absurd (hin x hx) hout⟩

/-- A pointer that is `NULL` or points to user memory. -/
def pointerOk (p : Word) (len : Nat) : Prop := p = 0 ∨ (Access.mk false p len).InUser

private theorem optional_inUser {write : Bool} {p : Word} {len : Nat} :
    (∀ x ∈ optional write p len, x.InUser) ↔ pointerOk p len := by
  unfold optional pointerOk
  by_cases hp : p = 0
  · rw [if_pos hp]
    exact iff_of_true nofun (.inl hp)
  · rw [if_neg hp]
    simp only [List.forall_mem_singleton]
    exact ⟨fun h => .inr h, fun h => h.resolve_left hp⟩

/-- The pointers that are not checked point to user memory, or the call fails before it uses them. -/
def Kern.pointersOk (k : Kern) (cur : EnvPtr) : AddrCall → Prop
  | .sigaction _ act oldact => pointerOk act SIGACTION_SIZE ∧ pointerOk oldact SIGACTION_SIZE
  | .sigprocmask how set oldset =>
    (set ≠ 0 ∧ ¬legalHow how) ∨ (pointerOk set SIGSET_SIZE ∧ pointerOk oldset SIGSET_SIZE)
  | .backDoSignal envid tf originMask => (envid ≠ 0 ∧ envid ≠ (k.envs cur).envId) ∨
    isIllegalVaRange tf TF_SIZE ∨ k.envid2env cur envid true = none ∨ (Access.mk false originMask SIGSET_SIZE).InUser
  | _ => True

private theorem confined_backDoSignal (envid tf originMask : Word) :
    k.Confined cur (.backDoSignal envid tf originMask) ↔ k.pointersOk cur (.backDoSignal envid tf originMask) := by
  have hlog : k.accesses cur (.backDoSignal envid tf originMask) = k.sysBackDoSignalLog cur envid tf originMask := rfl
  by_cases hid : envid ≠ 0 ∧ envid ≠ (k.envs cur).envId
  · rw [sysBackDoSignalLog, if_pos hid] at hlog
    exact ⟨fun _ => .inl hid, fun _ => confined_nil hlog⟩
  rw [sysBackDoSignalLog, if_neg hid] at hlog
  cases hva : isIllegalVaRange tf TF_SIZE with
  | true =>
    have hnil : k.accesses cur (.backDoSignal envid tf originMask) = [] := by
      rw [hlog, sysSetTrapframeLog, setTrapframeRet, if_pos hva, if_pos hva]
      rfl
    exact ⟨fun _ => .inr (.inl hva), fun _ => confined_nil hnil⟩
  | false =>
    have hva' : ¬isIllegalVaRange tf TF_SIZE = true := by simp [hva]
    cases he : k.envid2env cur envid true with
    | none =>
      have hnil : k.accesses cur (.backDoSignal envid tf originMask) = [] := by
        rw [hlog, sysSetTrapframeLog, setTrapframeRet, if_neg hva', if_neg hva', he]
        rfl
      exact ⟨fun _ => .inr (.inr (.inl he)), fun _ => confined_nil hnil⟩
    | some e =>
      -- the frame is read, so the mask must be in user memory
      constructor
      · intro hc
        by_contra hnot
        have hout : ¬(Access.mk false originMask SIGSET_SIZE).InUser :=
          fun hin => hnot (.inr (.inr (.inr hin)))
        have hnil := hc.untouched _ (List.mem_cons_of_mem _ (List.mem_singleton_self _)) hout
        rw [hlog, sysSetTrapframeLog, if_neg hva', he] at hnil
        cases hnil
      · intro hok
        have hmask : (Access.mk false originMask SIGSET_SIZE).InUser := by
          rcases hok with h | h | h | h
          · exact absurd h hid
          · exact absurd h hva'
          · rw [he] at h
            cases h
          · exact h
        constructor
        · intro x hx
          rw [hlog] at hx
          rcases List.mem_append.1 hx with hx | hx
          · exact (setTrapframeLog_inUser hx).2
          · split at hx
            · cases hx
            · exact List.mem_singleton.1 hx ▸ hmask
        · intro x hx hout
          have hcases : x = ⟨false, tf, TF_SIZE.toNat⟩ ∨ x = ⟨false, originMask, SIGSET_SIZE⟩ := by
            simpa [AddrCall.ranges] using hx
          rcases hcases with rfl | rfl
          · exact absurd (inUser_of_legal hva false) hout
          · exact absurd hmask hout

/-- A call is confined if and only if its unchecked pointers are right. -/
theorem confined_iff (k : Kern) (cur : EnvPtr) (c : AddrCall) : k.Confined cur c ↔ k.pointersOk cur c := by
  cases c with
  | printCons s num => exact iff_of_true (confined_printCons s num) trivial
  | setTrapframe envid tf => exact iff_of_true (confined_setTrapframe envid tf) trivial
  | writeDev va pa len => exact iff_of_true (confined_devCopy rfl rfl) trivial
  | readDev va pa len => exact iff_of_true (confined_devCopy rfl rfl) trivial
  | sigaction signo act oldact =>
    rw [confined_unchecked rfl, AddrCall.ranges, List.forall_mem_append, optional_inUser, optional_inUser]
    rfl
  | sigprocmask how set oldset =>
    by_cases hhow : set ≠ 0 ∧ ¬legalHow how
    · have hnil : k.accesses cur (.sigprocmask how set oldset) = [] := by
        rw [accesses, sysSigprocmaskLog, if_pos hhow]
      exact iff_of_true (confined_nil hnil) (.inl hhow)
    · have hall : k.accesses cur (.sigprocmask how set oldset) = (AddrCall.sigprocmask how set oldset).ranges := by
        rw [accesses, sysSigprocmaskLog, if_neg hhow]
        rfl
      rw [confined_unchecked hall, AddrCall.ranges, List.forall_mem_append, optional_inUser, optional_inUser]
      exact ⟨.inr, fun h => h.resolve_left hhow⟩
  | backDoSignal envid tf originMask => exact confined_backDoSignal envid tf originMask

/-! ### The accesses of the calls of the model -/

/-- A word that is stored lies in user memory, and so do the bytes from its address on. -/
private theorem ustore_umem {a v b : Word} (h : k.ustore a v = some k') (hb : b ≠ a) : k'.umem b = k.umem b := by
  obtain ⟨-, rfl⟩ := ustore_cases h
  exact Function.update_of_ne hb _ _

private theorem covers_add {p : Word} {len i : Nat} (hp : storable p = true) (hi : i < len) (hlen : len ≤ SIGACTION_SIZE)
    (write : Bool) : (Access.mk write p len).Covers (p + BitVec.ofNat 32 i) := by
  have hb := (storable_iff.1 hp).2.2
  have hsize : SIGACTION_SIZE = 12 := rfl
  have haddr : (p + BitVec.ofNat 32 i).toNat = p.toNat + i := by
    rw [BitVec.toNat_add, BitVec.toNat_ofNat]
    omega
  refine ⟨?_, ?_⟩
  · show p.toNat ≤ _
    omega
  · show _ < p.toNat + len
    omega

private theorem ustoreSigset_umem {a b : Word} {set : Sigset} (h : k.ustoreSigset a set = some k')
    (hb : ¬(Access.mk true a SIGSET_SIZE).Covers b) : k'.umem b = k.umem b := by
  obtain ⟨k₁, h₁, h₂⟩ := Option.bind_eq_some_iff.1 h
  have ha : storable a = true := by
    obtain ⟨ha, -⟩ := ustore_cases h₁
    simpa [storable] using ha
  have h0 : b ≠ a := by
    rintro rfl
    exact hb (by simpa using covers_add (i := 0) ha (by decide) (by decide) true)
  have h4 : b ≠ a + 4 := by
    rintro rfl
    exact hb (covers_add (i := 4) ha (by decide) (by decide) true)
  rw [ustore_umem h₂ h4, ustore_umem h₁ h0]

/-- `sys_sigaction` changes user memory only where its log says so. -/
theorem sysSigaction_umem {signo act oldact junk a : Word} {r : Option Word}
    (h : k.sysSigaction cur signo act oldact junk = some (k', r))
    (ha : ∀ x ∈ sysSigactionLog act oldact, x.write = true → ¬x.Covers a) : k'.umem a = k.umem a := by
  unfold sysSigaction at h
  split at h
  case isFalse => cases h
  case isTrue hs =>
    dsimp only at h
    obtain ⟨k₁, h₁, h⟩ := Option.bind_eq_some_iff.1 h
    have hk₁ : k₁.umem = k.umem := by
      split at h₁
      case isTrue =>
        rw [← Option.some.inj h₁]
      case isFalse =>
        obtain ⟨handler, -, h₁⟩ := Option.bind_eq_some_iff.1 h₁
        obtain ⟨mask, -, rfl⟩ := Option.map_eq_some_iff.1 h₁
        rfl
    split at h
    case isTrue =>
      rw [← hk₁]
      exact congrArg (fun q => q.1.umem a) (Option.some.inj h).symm
    case isFalse h0 =>
      obtain ⟨k₂, h₂, h⟩ := Option.bind_eq_some_iff.1 h
      obtain ⟨k₃, h₃, h⟩ := Option.map_eq_some_iff.1 h
      have hk' : k' = k₃ := (congrArg Prod.fst h).symm
      have hold : storable oldact = true := by
        obtain ⟨hold, -⟩ := ustore_cases h₂
        simpa [storable] using hold
      have hcover : ¬(Access.mk true oldact SIGACTION_SIZE).Covers a :=
        ha _ (List.mem_append_right _ (by rw [optional, if_neg h0]; exact List.mem_singleton_self _)) rfl
      have hfirst : a ≠ oldact := by
        rintro rfl
        exact hcover (by simpa using covers_add (i := 0) hold (by decide) (by decide) true)
      have hsecond : a ≠ oldact + 4 := by
        rintro rfl
        exact hcover (covers_add (i := 4) hold (by decide) (by decide) true)
      have hthird : a ≠ oldact + 4 + 4 := by
        rintro rfl
        rw [BitVec.add_assoc] at hcover
        exact hcover (covers_add (i := 8) hold (by decide) (by decide) true)
      obtain ⟨k₄, h₄, h₅⟩ := Option.bind_eq_some_iff.1 h₃
      rw [hk', ustore_umem h₅ hthird, ustore_umem h₄ hsecond, ustore_umem h₂ hfirst, hk₁]

/-- So does `sys_sigprocmask`. -/
theorem sysSigprocmask_umem {how set oldset junk a : Word} {r : Option Word}
    (h : k.sysSigprocmask cur how set oldset junk = some (k', r))
    (ha : ∀ x ∈ sysSigprocmaskLog how set oldset, x.write = true → ¬x.Covers a) : k'.umem a = k.umem a := by
  have hfinish : ∀ k₁ : Kern, k₁.umem = k.umem → ¬(set ≠ 0 ∧ ¬legalHow how = true) →
      (if oldset = 0 then some (k₁, some junk) else
        (k₁.ustoreSigset oldset (k.envs cur).envSigprocmask).map fun k => (k, some junk)) = some (k', r) →
      k'.umem a = k.umem a := by
    intro k₁ hk₁ hhow h
    split at h
    case isTrue =>
      rw [← hk₁]
      exact congrArg (fun q => q.1.umem a) (Option.some.inj h).symm
    case isFalse h0 =>
      obtain ⟨k₂, h₂, h⟩ := Option.map_eq_some_iff.1 h
      have hk' : k' = k₂ := (congrArg Prod.fst h).symm
      rw [hk', ← hk₁]
      refine ustoreSigset_umem h₂ (ha _ ?_ rfl)
      rw [sysSigprocmaskLog, if_neg hhow]
      exact List.mem_append_right _ (by rw [optional, if_neg h0]; exact List.mem_singleton_self _)
  unfold sysSigprocmask at h
  dsimp only at h
  split at h
  case isTrue h0 => exact hfinish k rfl (fun hn => hn.1 h0) h
  case isFalse h0 =>
    obtain ⟨s, -, h⟩ := Option.bind_eq_some_iff.1 h
    split at h
    case h_1 => exact congrArg (fun q => q.1.umem a) (Option.some.inj h).symm
    case h_2 mask hm =>
      refine hfinish (k.setEnv cur fun e => { e with envSigprocmask := mask }) rfl (fun hn => hn.2 ?_) h
      unfold newMask at hm
      unfold legalHow
      split at hm
      case isTrue hb => simp [hb]
      case isFalse =>
        split at hm
        case isTrue hb => simp [hb]
        case isFalse =>
          split at hm
          case isTrue hb => simp [hb]
          case isFalse => cases hm

/-- An environment asks for its old handler at an address of the kernel. -/
def sigactionKernel : List Event :=
  .create .empty 1 :: tickEvents ++ (callEvents 18 10 0 0x80001000).take 1

private theorem sigactionKernel_cond : (Machine.gxemul.after (fun _ _ => true) sigactionKernel).any fun s =>
    s.phase = .entered (.syscall 0) ∧ s.kern.curenv = some 0 ∧
    addrTable (s.kern.ktf.regs 4).toNat (s.kern.ktf.regs 5) (s.kern.ktf.regs 6) (s.kern.ktf.regs 7) =
      some (.sigaction 10 0 0x80001000) := by decide +kernel

/-- The kernel writes there. -/
theorem exists_not_confined : ∃ s cur c, kernel.Reach (fun _ _ => True) s ∧ s.phase = .entered (.syscall 0) ∧
    s.kern.curenv = some cur ∧ addrTable (s.kern.ktf.regs 4).toNat (s.kern.ktf.regs 5) (s.kern.ktf.regs 6)
      (s.kern.ktf.regs 7) = some c ∧ ¬s.kern.skipInsn.Confined cur c := by
  obtain ⟨s, hs, hcond⟩ := (Option.any_eq_true _ _).1 sigactionKernel_cond
  obtain ⟨hphase, hc, hcall⟩ := of_decide_eq_true hcond
  refine ⟨s, 0, _, (Machine.after_reach hs).mono fun _ _ _ => trivial, hphase, hc, hcall, fun h => ?_⟩
  have hout : ¬(Access.mk true 0x80001000 SIGACTION_SIZE).InUser := by decide
  exact hout (h.user _ (List.mem_singleton_self _))

end Mos
