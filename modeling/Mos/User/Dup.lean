import Mos.Kern.Syscall
import Mos.User.PipeRef

/-!
# Duplicating a descriptor (`dup`, `close` of `user/lib/fd.c`)

A descriptor is a page at `INDEX2FD` and a window of 1024 pages at `INDEX2DATA`; both addresses are computed from any
number, in 32 bits.  The state is the page table of the process, where a page that has no table is not mapped either.
-/

namespace Mos

/-- What `close` reads in a page that it takes for a descriptor: `fd_dev_id`, `f_fileid` and `f_file.f_size`. -/
structure FdHead where
  fdDevId : Word
  fFileid : Word
  fSize : Word

structure FdSpace where
  /-- The frame and the permissions. -/
  page : Vpn → Option (Nat × Word)
  head : Nat → FdHead
  /-- There is no table here, and no frame for one. -/
  noTable : Idx → Bool
  /-- The file server refuses to close the file. -/
  refuses : Word → Bool
  /-- Not in the code: the files that were closed. -/
  closed : List Word

namespace FdSpace

def setPage (s : FdSpace) (v : Vpn) (p : Option (Nat × Word)) : FdSpace :=
  { s with page := Function.update s.page v p }

/-- `syscall_mem_map` inside of the process. -/
def memMap (s : FdSpace) (srcva dstva perm : Word) : Word × FdSpace :=
  if isIllegalVa srcva || isIllegalVa dstva then (-E_INVAL, s)
  else match s.page (VPN srcva) with
    | none => (-E_INVAL, s)
    | some (pp, _) => if s.noTable (PDX dstva) then (-E_NO_MEM, s) else (0, s.setPage (VPN dstva) (some (pp, perm)))

def memUnmap (s : FdSpace) (va : Word) : Word × FdSpace :=
  if isIllegalVa va then (-E_INVAL, s) else (0, s.setPage (VPN va) none)

/-- `syscall_mem_unmap` without a look at its result. -/
def unmap (s : FdSpace) (va : Word) : FdSpace := (s.memUnmap va).2

/-! ### `fd.c` -/

def INDEX2FD (i : Word) : Word := FDTABLE + i * BY2PG
def INDEX2DATA (i : Word) : Word := FILEBASE + i * PDMAP

def fd2num (fd : Word) : Word := (fd - FDTABLE) / BY2PG

def fd2data (fd : Word) : Word := INDEX2DATA (fd2num fd)

/-- `none` is `-E_INVAL`; the number is signed. -/
def fdLookup (s : FdSpace) (fdnum : Word) : Option Word :=
  if ¬fdnum.slt 32 then none
  else if (s.page (VPN (INDEX2FD fdnum))).isSome then some (INDEX2FD fdnum) else none

/-- The content of the page at `fd`. -/
def headAt (s : FdSpace) (fd : Word) : Option FdHead := (s.page (VPN fd)).map fun p => s.head p.1

/-- `n` pages from `va` on, up to the first error. -/
def unmapPages : Nat → FdSpace → Word → FdSpace
  | 0, s, _ => s
  | n + 1, s, va => if (s.memUnmap va).1.slt 0 then s else unmapPages n (s.memUnmap va).2 (va + BY2PG)

/-- The rounds of a loop over the pages of a file. -/
def rounds (size : Word) : Nat := (size.toNat + 4095) / 4096

/-- `file_close`; the loops do not end where the last round would wrap around. -/
def fileClose (s : FdSpace) (fd : Word) (h : FdHead) : Option FdSpace :=
  if 0xFFFFF000 < h.fSize then none
  else if s.refuses h.fFileid then some s
  else some (unmapPages (rounds h.fSize) { s with closed := h.fFileid :: s.closed } (fd2data fd))

def pipeClose (s : FdSpace) (fd : Word) : FdSpace := (s.unmap fd).unmap (fd2data fd)

/-- `close`, whose result `dup` does not look at: `'f'`, `'c'` and `'p'` are the devices. -/
def close (s : FdSpace) (fdnum : Word) : Option FdSpace :=
  match s.fdLookup fdnum with
  | none => some s
  | some fd => match s.headAt fd with
    | none => some s
    | some h =>
      if h.fdDevId = 102 then (s.fileClose fd h).map fun s => s.unmap fd
      else if h.fdDevId = 99 then some (s.unmap fd)
      else if h.fdDevId = 112 then some ((s.pipeClose fd).unmap fd)
      else some s

/-- `vpt[VPN(va)] & (PTE_D | PTE_LIBRARY)`. -/
def shared (s : FdSpace) (va : Word) : Word := ((s.page (VPN va)).elim 0 Prod.snd) &&& (PTE_D ||| PTE_LIBRARY)

/-- The first loop of `dup` for the next `n` pages. -/
def copyPages : Nat → FdSpace → Word → Word → Word × FdSpace
  | 0, s, _, _ => (0, s)
  | n + 1, s, ova, nva =>
    if (s.page (VPN ova)).isSome then
      if (s.memMap ova nva (s.shared ova)).1.slt 0 then s.memMap ova nva (s.shared ova)
      else copyPages n (s.memMap ova nva (s.shared ova)).2 (ova + BY2PG) (nva + BY2PG)
    else copyPages n s (ova + BY2PG) (nva + BY2PG)

/-- The loop behind `err`. -/
def undoPages : Nat → FdSpace → Word → FdSpace
  | 0, s, _ => s
  | n + 1, s, nva => undoPages n (s.unmap nva) (nva + BY2PG)

/-- `dup` after the copy of the data. -/
def mapFd (s : FdSpace) (r : Word) (oldfd newfd newfdnum : Word) : Word × FdSpace :=
  if r.slt 0 then (r, undoPages 1024 (s.unmap newfd) (fd2data newfd))
  else
    let (r, s) := s.memMap oldfd newfd (s.shared oldfd)
    if r.slt 0 then (r, undoPages 1024 (s.unmap newfd) (fd2data newfd)) else (newfdnum, s)

def dup (s : FdSpace) (oldfdnum newfdnum : Word) : Option (Word × FdSpace) :=
  match s.fdLookup oldfdnum with
  | none => some (-E_INVAL, s)
  | some oldfd => (s.close newfdnum).map fun s =>
    let newfd := INDEX2FD newfdnum
    let (r, s) := copyPages 1024 s (fd2data oldfd) (fd2data newfd)
    s.mapFd r oldfd newfd newfdnum

/-! ### What is to happen -/

/-- The page of a descriptor, and the pages of its window. -/
def fdVpn (k : Fin MAXFD) : Vpn := (383, ⟨k, Nat.lt_of_lt_of_le k.isLt (by decide)⟩)
def dataVpn (k : Fin MAXFD) (i : Idx) : Vpn := (⟨384 + k, have : k.val < 32 := k.isLt; by omega⟩, i)

/-- The frame at a page. -/
def frame (s : FdSpace) (v : Vpn) : Option Nat := (s.page v).map Prod.fst

/-- Two numbers refer to the same pages. -/
def SameFd (s t : FdSpace) (k k' : Fin MAXFD) : Prop :=
  s.frame (fdVpn k) = t.frame (fdVpn k') ∧ ∀ i, s.frame (dataVpn k i) = t.frame (dataVpn k' i)

/-- The number of a descriptor, if it is one. -/
def number (w : Word) : Option (Fin MAXFD) := if h : w.toNat < MAXFD then some ⟨w.toNat, h⟩ else none

/-- The descriptor is a file. -/
def fileAt (s : FdSpace) (k : Fin MAXFD) : Option FdHead :=
  ((s.page (fdVpn k)).map fun p => s.head p.1).filter fun h => h.fdDevId = 102

/-- The files that are closed with a descriptor. -/
def closedWith (s : FdSpace) (k : Fin MAXFD) : List Word := ((s.fileAt k).map FdHead.fFileid).toList

/-- `dup` of an open descriptor to a number of the table. -/
structure Dups (s : FdSpace) (o n : Fin MAXFD) (t : FdSpace) : Prop where
  same : t.SameFd t n o
  old : t.SameFd s o o
  others : ∀ k, k ≠ o → k ≠ n → t.SameFd s k k
  closed : t.closed = if n = o then s.closed else s.closedWith n ++ s.closed

def DupOk (s : FdSpace) (oldfdnum newfdnum r : Word) (t : FdSpace) : Prop :=
  match (number oldfdnum).filter fun o => (s.page (fdVpn o)).isSome, number newfdnum with
  | some o, some n => r = newfdnum ∧ s.Dups o n t
  | _, _ => r.slt 0 = true ∧ t = s

/-! ### When it does -/

/-- The number of a page. -/
def pageNo (v : Vpn) : Nat := v.1 * 1024 + v.2

/-- The descriptor has one of the devices. -/
def Known (s : FdSpace) (k : Fin MAXFD) : Prop :=
  ∃ p, s.page (fdVpn k) = some p ∧ ((s.head p.1).fdDevId = 102 ∨ (s.head p.1).fdDevId = 99 ∨ (s.head p.1).fdDevId = 112)

/-- `close` unmaps the page, besides the one of the descriptor: the pages of a file, or the one of a pipe. -/
def Closes (s : FdSpace) (k : Fin MAXFD) (v : Vpn) : Prop :=
  ∃ p, s.page (fdVpn k) = some p ∧
    (((s.head p.1).fdDevId = 102 ∧ s.refuses (s.head p.1).fFileid = false ∧ pageNo (dataVpn k 0) ≤ pageNo v ∧
        pageNo v < pageNo (dataVpn k 0) + rounds (s.head p.1).fSize ∧ pageNo v < UTOP.toNat / 4096) ∨
      ((s.head p.1).fdDevId = 112 ∧ v = dataVpn k 0))

/-- The descriptor `o` can be duplicated to `n`. -/
structure Fits (s : FdSpace) (o n : Fin MAXFD) : Prop where
  /-- There are tables for the pages. -/
  table : s.noTable 383 = false ∧ ∀ i, (s.page (dataVpn o i)).isSome → s.noTable (dataVpn n i).1 = false
  /-- The window has no other pages, once it is closed. -/
  window : ∀ i, s.page (dataVpn o i) = none → (s.page (dataVpn n i)).isSome → s.Closes n (dataVpn n i)
  /-- No page of another descriptor goes with it. -/
  apart : ∀ k i, k ≠ n → (s.page (dataVpn k i)).isSome → ¬s.Closes n (dataVpn k i)
  served : ∀ h, s.fileAt n = some h → s.refuses h.fFileid = false

/-- The old number is refused, or both are in the table and differ; a page of an unknown device is not closed at all. -/
def DupHolds (s : FdSpace) (oldfdnum newfdnum : Word) : Prop :=
  s.fdLookup oldfdnum = none ∨
    ∃ o n, number oldfdnum = some o ∧ number newfdnum = some n ∧ s.Fits o n ∧ (n = o → ¬s.Known o)

/-! ### Addresses -/

variable {s t : FdSpace} {k o n : Fin MAXFD} {va w : Word} {v : Vpn} {i : Idx}

theorem pageNo_inj {v v' : Vpn} (h : pageNo v = pageNo v') : v = v' := by
  obtain ⟨⟨a, ha⟩, ⟨b, hb⟩⟩ := v
  obtain ⟨⟨a', ha'⟩, ⟨b', hb'⟩⟩ := v'
  have h : a * 1024 + b = a' * 1024 + b' := h
  simp only [Prod.mk.injEq, Fin.mk.injEq]
  omega

theorem pageNo_data (k : Fin MAXFD) (i : Idx) : pageNo (dataVpn k i) = (384 + k) * 1024 + i := rfl

private theorem pageNo_fd (k : Fin MAXFD) : pageNo (fdVpn k) = 383 * 1024 + k := rfl

theorem pageNo_VPN (va : Word) : pageNo (VPN va) = va.toNat / 4096 := by
  have := va.isLt
  simp only [pageNo, VPN, PDX, PTX, BitVec.toNat_ushiftRight, Nat.shiftRight_eq_div_pow]
  omega

private theorem number_eq (h : number w = some k) : w = BitVec.ofNat 32 k ∧ w.toNat = k := by
  unfold number at h
  split at h
  case isTrue hw =>
    cases h
    exact ⟨by simp, rfl⟩
  case isFalse => cases h

theorem INDEX2FD_toNat (h : w.toNat = k) : (INDEX2FD w).toNat = (383 * 1024 + k) * 4096 := by
  have hk : k.val < 32 := k.isLt
  have hbase : FDTABLE.toNat = 383 * 1024 * 4096 := by decide
  have hpg : BY2PG.toNat = 4096 := by decide
  unfold INDEX2FD
  rw [BitVec.toNat_add, BitVec.toNat_mul, hbase, hpg, h]
  omega

private theorem INDEX2DATA_toNat (h : w.toNat = k) : (INDEX2DATA w).toNat = (384 + k) * 1024 * 4096 := by
  have hk : k.val < 32 := k.isLt
  have hbase : FILEBASE.toNat = 384 * 1024 * 4096 := by decide
  have hpg : PDMAP.toNat = 1024 * 4096 := by decide
  unfold INDEX2DATA
  rw [BitVec.toNat_add, BitVec.toNat_mul, hbase, hpg, h]
  omega

theorem fd2data_toNat (h : w.toNat = k) : (fd2data (INDEX2FD w)).toNat = (384 + k) * 1024 * 4096 := by
  have hk : k.val < 32 := k.isLt
  have hnum : (fd2num (INDEX2FD w)).toNat = k := by
    have hsub : INDEX2FD w - FDTABLE = w * BY2PG := by
      unfold INDEX2FD
      rw [BitVec.add_comm, BitVec.add_sub_cancel]
    have hpg : BY2PG.toNat = 4096 := by decide
    have hmul : (w * BY2PG).toNat = k * 4096 := by
      rw [BitVec.toNat_mul, hpg, h]
      omega
    unfold fd2num
    rw [hsub, BitVec.toNat_udiv, hmul, hpg]
    omega
  exact INDEX2DATA_toNat hnum

theorem VPN_fd (h : w.toNat = k) : VPN (INDEX2FD w) = fdVpn k := by
  apply pageNo_inj
  rw [pageNo_VPN, INDEX2FD_toNat h]
  have : pageNo (fdVpn k) = 383 * 1024 + k := rfl
  omega

/-- The `i`-th page of a window. -/
theorem VPN_data (h : va.toNat = ((384 + k) * 1024 + i) * 4096) : VPN va = dataVpn k i := by
  apply pageNo_inj
  rw [pageNo_VPN, h]
  have : pageNo (dataVpn k i) = (384 + k) * 1024 + i := rfl
  omega

private theorem legal_iff_page : isIllegalVa va = false ↔ UTEMP.toNat ≤ va.toNat ∧ va.toNat / 4096 < UTOP.toNat / 4096 := by
  have hlow : UTEMP.toNat = 0x3FE000 := by decide
  have htop : UTOP.toNat = 0x7F400000 := by decide
  unfold isIllegalVa
  simp only [Bool.or_eq_false_iff, decide_eq_false_iff_not, BitVec.lt_def, BitVec.le_def]
  omega

theorem legal_of_toNat (va : Word) (hlow : 383 * 1024 * 4096 ≤ va.toNat) (hhigh : va.toNat < 416 * 1024 * 4096) :
    isIllegalVa va = false := by
  have hlow' : UTEMP.toNat = 0x3FE000 := by decide
  have htop : UTOP.toNat = 0x7F400000 := by decide
  rw [legal_iff_page]
  omega

/-! ### The operations -/

@[simp] theorem setPage_frame (s : FdSpace) (v v' : Vpn) (p : Option (Nat × Word)) :
    (s.setPage v p).frame v' = if v' = v then p.map Prod.fst else s.frame v' := by
  by_cases h : v' = v
  · simp [frame, setPage, h]
  · simp [frame, setPage, h]

private theorem frame_isSome (s : FdSpace) (v : Vpn) : (s.frame v).isSome = (s.page v).isSome := by simp [frame]

private theorem frame_none : s.frame v = none ↔ s.page v = none := by simp [frame]

/-- The states agree beside the pages and what has been closed. -/
structure Alike (s t : FdSpace) : Prop where
  head : t.head = s.head
  noTable : t.noTable = s.noTable
  refuses : t.refuses = s.refuses

private theorem Alike.refl (s : FdSpace) : s.Alike s := ⟨rfl, rfl, rfl⟩

theorem Alike.trans {u : FdSpace} (h : s.Alike t) (h' : t.Alike u) : s.Alike u :=
  ⟨h'.head.trans h.head, h'.noTable.trans h.noTable, h'.refuses.trans h.refuses⟩

private theorem memUnmap_legal (h : isIllegalVa va = false) : s.memUnmap va = (0, s.setPage (VPN va) none) := by
  unfold memUnmap
  rw [h]
  rfl

private theorem unmap_legal (h : isIllegalVa va = false) : s.unmap va = s.setPage (VPN va) none := by
  unfold unmap
  rw [memUnmap_legal h]

/-- The loop unmaps the pages from `va` on, up to the end of user memory. -/
private theorem unmapPages_spec (c : Nat) (va : Word) (hva : UTEMP ≤ va) :
    s.Alike (unmapPages c s va) ∧ (unmapPages c s va).closed = s.closed ∧ ∀ v, (unmapPages c s va).frame v =
      if va.toNat / 4096 ≤ pageNo v ∧ pageNo v < va.toNat / 4096 + c ∧ pageNo v < UTOP.toNat / 4096 then none
      else s.frame v := by
  induction c generalizing s va with
  | zero =>
    refine ⟨.refl s, rfl, fun v => ?_⟩
    rw [if_neg (by omega)]
    rfl
  | succ c ih =>
    unfold unmapPages
    rw [BitVec.le_def] at hva
    cases hl : isIllegalVa va with
    | true =>
      have hhigh : ¬va.toNat / 4096 < UTOP.toNat / 4096 := by
        intro hlt
        rw [legal_iff_page.2 ⟨hva, hlt⟩] at hl
        cases hl
      have hfail : s.memUnmap va = (-E_INVAL, s) := by
        unfold memUnmap
        rw [hl]
        rfl
      rw [hfail, if_pos (show (-E_INVAL).slt 0 = true by decide)]
      refine ⟨.refl s, rfl, fun v => ?_⟩
      rw [if_neg (by omega)]
    | false =>
      have hlt := (legal_iff_page.1 hl).2
      have htop : UTOP.toNat = 0x7F400000 := by decide
      have hnext : (va + BY2PG).toNat = va.toNat + 4096 := by
        have hpg : BY2PG.toNat = 4096 := by decide
        rw [BitVec.toNat_add, hpg]
        omega
      rw [memUnmap_legal hl, if_neg (show ¬(0 : Word).slt 0 = true by decide)]
      obtain ⟨ha, hc, hf⟩ := ih (s := s.setPage (VPN va) none) (va + BY2PG) (by rw [BitVec.le_def, hnext]; omega)
      refine ⟨⟨ha.head, ha.noTable, ha.refuses⟩, hc, fun v => ?_⟩
      have hdiv : (va.toNat + 4096) / 4096 = va.toNat / 4096 + 1 := by omega
      dsimp only
      rw [hf v, setPage_frame, hnext, hdiv]
      by_cases hv : v = VPN va
      · have hno : pageNo v = va.toNat / 4096 := by rw [hv, pageNo_VPN]
        rw [if_pos hv, Option.map_none, ite_self, if_pos ⟨by omega, by omega, by omega⟩]
      · have hno : pageNo v ≠ va.toNat / 4096 := by
          intro heq
          exact hv (pageNo_inj (heq.trans (pageNo_VPN va).symm))
        rw [if_neg hv]
        by_cases hin : va.toNat / 4096 + 1 ≤ pageNo v ∧ pageNo v < va.toNat / 4096 + 1 + c ∧ pageNo v < UTOP.toNat / 4096
        · rw [if_pos hin, if_pos ⟨by omega, by omega, by omega⟩]
        · rw [if_neg hin, if_neg (by omega)]

/-- `memMap` between pages of user memory. -/
private theorem memMap_legal (perm : Word) {ova nva : Word} (ho : isIllegalVa ova = false) (hn : isIllegalVa nva = false) :
    s.memMap ova nva perm = match s.page (VPN ova) with
      | none => (-E_INVAL, s)
      | some (pp, _) => if s.noTable (PDX nva) then (-E_NO_MEM, s) else (0, s.setPage (VPN nva) (some (pp, perm))) := by
  unfold memMap
  rw [ho, hn]
  rfl

/-- The frames after the copy of the pages from index `j` on. -/
def copied (s : FdSpace) (o n : Fin MAXFD) (j : Nat) (v : Vpn) : Option Nat :=
  if v.1 = (dataVpn n 0).1 ∧ j ≤ v.2.val then (s.frame (dataVpn o v.2)).or (s.frame v) else s.frame v

/-- A page is to be copied, and there is no table for it. -/
def Stuck (s : FdSpace) (o n : Fin MAXFD) (j : Nat) : Prop :=
  s.noTable (dataVpn n 0).1 = true ∧ ∃ i : Idx, j ≤ i.val ∧ (s.frame (dataVpn o i)).isSome

theorem dataVpn_inj {k k' : Fin MAXFD} {i i' : Idx} (h : dataVpn k i = dataVpn k' i') : k = k' ∧ i = i' := by
  have h₁ : 384 + k.val = 384 + k'.val := congrArg (fun v : Vpn => v.1.val) h
  exact ⟨Fin.ext (by omega), congrArg Prod.snd h⟩

theorem fdVpn_ne_dataVpn (k k' : Fin MAXFD) (i : Idx) : fdVpn k ≠ dataVpn k' i := by
  intro h
  have h₁ : 383 = 384 + k'.val := congrArg (fun v : Vpn => v.1.val) h
  omega

/-- One page has been copied. -/
private theorem copied_step {j : Nat} (hj : j < 1024) {p : Option (Nat × Word)}
    (hp : p.map Prod.fst = s.frame (dataVpn o ⟨j, hj⟩))
    (hsome : (s.frame (dataVpn o ⟨j, hj⟩)).isSome) (v : Vpn) :
    (s.setPage (dataVpn n ⟨j, hj⟩) p).copied o n (j + 1) v = s.copied o n j v := by
  unfold copied
  by_cases hw : v.1 = (dataVpn n 0).1
  · obtain ⟨a, b⟩ := v
    obtain rfl : a = (dataVpn n 0).1 := hw
    rcases Nat.lt_trichotomy b.val j with hlt | heq | hgt
    · rw [if_neg (by simp; omega), if_neg (by simp; omega), setPage_frame, if_neg]
      intro h
      have := congrArg (fun v : Vpn => v.2.val) h
      simp only [dataVpn] at this
      omega
    · obtain rfl : b = ⟨j, hj⟩ := Fin.ext heq
      have hat : ((dataVpn n 0).1, (⟨j, hj⟩ : Idx)) = dataVpn n ⟨j, hj⟩ := rfl
      rw [if_neg (by simp), if_pos ⟨rfl, Nat.le_refl _⟩, setPage_frame, if_pos hat, hp]
      obtain ⟨x, hx⟩ := Option.isSome_iff_exists.1 hsome
      rw [hx]
      rfl
    · have hne (k : Fin MAXFD) : dataVpn k b ≠ dataVpn n ⟨j, hj⟩ := by
        intro h
        have := congrArg Fin.val (dataVpn_inj h).2
        simp only at this
        omega
      have hat : ((dataVpn n 0).1, b) ≠ dataVpn n ⟨j, hj⟩ := hne n
      rw [if_pos ⟨rfl, hgt⟩, if_pos ⟨rfl, Nat.le_of_lt hgt⟩, setPage_frame, if_neg (hne o), setPage_frame, if_neg hat]
  · rw [if_neg (fun h => hw h.1), if_neg (fun h => hw h.1), setPage_frame, if_neg]
    rintro rfl
    exact hw rfl

/-- A page that is not there is passed over. -/
private theorem copied_skip {j : Nat} (hj : j < 1024) (hnone : s.frame (dataVpn o ⟨j, hj⟩) = none) (v : Vpn) :
    s.copied o n (j + 1) v = s.copied o n j v := by
  unfold copied
  by_cases hw : v.1 = (dataVpn n 0).1
  · by_cases heq : v.2.val = j
    · obtain ⟨a, b⟩ := v
      obtain rfl : b = ⟨j, hj⟩ := Fin.ext heq
      rw [if_neg (by simp), if_pos ⟨hw, Nat.le_refl _⟩, hnone, Option.none_or]
    · by_cases hle : j + 1 ≤ v.2.val
      · rw [if_pos ⟨hw, hle⟩, if_pos ⟨hw, by omega⟩]
      · rw [if_neg (fun h => hle h.2), if_neg (fun h => hle (by have := h.2; omega))]
  · rw [if_neg (fun h => hw h.1), if_neg (fun h => hw h.1)]

/-- The copy ends with an error exactly where it is stuck. -/
private theorem copyPages_spec (c : Nat) (ova nva : Word) {j : Nat} (hova : ova.toNat = ((384 + o) * 1024 + j) * 4096)
    (hnva : nva.toNat = ((384 + n) * 1024 + j) * 4096) (hc : j + c = 1024) :
    s.Alike (copyPages c s ova nva).2 ∧ (copyPages c s ova nva).2.closed = s.closed ∧
      (s.Stuck o n j → (copyPages c s ova nva).1.slt 0 = true) ∧
      (¬s.Stuck o n j → (copyPages c s ova nva).1 = 0 ∧ ∀ v, (copyPages c s ova nva).2.frame v = s.copied o n j v) := by
  -- By induction on the pages that are left; `j` of them have been done.
  induction c generalizing s ova nva j with
  | zero =>
    refine ⟨.refl s, rfl, fun hstuck => ?_, fun _ => ⟨rfl, fun v => ?_⟩⟩
    · obtain ⟨-, i, hi, -⟩ := hstuck
      have := i.isLt
      omega
    · unfold copied
      rw [if_neg fun h => by have := v.2.isLt; omega]
      rfl
  | succ c ih =>
    have hj : j < 1024 := by omega
    have ho : o.val < 32 := o.isLt
    have hn : n.val < 32 := n.isLt
    have hvo : VPN ova = dataVpn o ⟨j, hj⟩ := VPN_data hova
    have hvn : VPN nva = dataVpn n ⟨j, hj⟩ := VPN_data hnva
    have hpg : BY2PG.toNat = 4096 := by decide
    have hova' : (ova + BY2PG).toNat = ((384 + o) * 1024 + (j + 1)) * 4096 := by
      rw [BitVec.toNat_add, hpg, hova]
      omega
    have hnva' : (nva + BY2PG).toNat = ((384 + n) * 1024 + (j + 1)) * 4096 := by
      rw [BitVec.toNat_add, hpg, hnva]
      omega
    unfold copyPages
    rw [hvo]
    cases hp : s.page (dataVpn o ⟨j, hj⟩) with
    | none =>
      have hnone : s.frame (dataVpn o ⟨j, hj⟩) = none := frame_none.2 hp
      rw [if_neg (by simp)]
      obtain ⟨ha, hcl, hbad, hgood⟩ := ih (s := s) _ _ hova' hnva' (by omega)
      have hstuck : s.Stuck o n j ↔ s.Stuck o n (j + 1) := by
        refine and_congr_right fun _ => exists_congr fun i => ?_
        constructor
        · rintro ⟨hi, hsome⟩
          refine ⟨Nat.lt_of_le_of_ne hi fun heq => ?_, hsome⟩
          obtain rfl : i = ⟨j, hj⟩ := Fin.ext heq.symm
          rw [hnone] at hsome
          cases hsome
        · exact fun h => ⟨by have := h.1; omega, h.2⟩
      rw [hstuck]
      refine ⟨ha, hcl, hbad, fun h => ⟨(hgood h).1, fun v => ?_⟩⟩
      rw [(hgood h).2 v, copied_skip hj hnone]
    | some p =>
      have hsome : (s.frame (dataVpn o ⟨j, hj⟩)).isSome := by simp [frame, hp]
      have htable : PDX nva = (dataVpn n 0).1 := congrArg Prod.fst hvn
      have hmap := memMap_legal (s := s) (s.shared ova) (legal_of_toNat ova (by omega) (by omega))
        (legal_of_toNat nva (by omega) (by omega))
      rw [hvo, hp, htable, hvn] at hmap
      dsimp only at hmap
      rw [if_pos (show (some p).isSome = true from rfl)]
      cases ht : s.noTable (dataVpn n 0).1 with
      | true =>
        rw [ht, if_pos rfl] at hmap
        rw [hmap, if_pos (show (-E_NO_MEM).slt 0 = true by decide)]
        refine ⟨.refl s, rfl, fun _ => show (-E_NO_MEM).slt 0 = true by decide,
          fun h => absurd ⟨ht, ⟨j, hj⟩, Nat.le_refl _, hsome⟩ h⟩
      | false =>
        have hno (j' : Nat) : ¬s.Stuck o n j' := fun h => by
          have h₁ := h.1
          rw [ht] at h₁
          cases h₁
        rw [ht, if_neg (by decide)] at hmap
        rw [hmap, if_neg (show ¬(0 : Word).slt 0 = true by decide)]
        dsimp only
        generalize hq : some (p.1, s.shared ova) = q
        obtain ⟨ha, hcl, -, hgood⟩ := ih (s := s.setPage (dataVpn n ⟨j, hj⟩) q) _ _ hova' hnva' (by omega)
        have hno' : ¬(s.setPage (dataVpn n ⟨j, hj⟩) q).Stuck o n (j + 1) := fun h => by
          have h₁ : s.noTable (dataVpn n 0).1 = true := h.1
          rw [ht] at h₁
          cases h₁
        refine ⟨⟨ha.head, ha.noTable, ha.refuses⟩, hcl, fun h => absurd h (hno j), fun _ => ⟨(hgood hno').1, fun v => ?_⟩⟩
        rw [(hgood hno').2 v]
        exact copied_step hj (by rw [← hq]; simp [frame, hp]) hsome v

/-! ### `close` -/

private theorem Closes.above (h : s.Closes k v) : 384 * 1024 ≤ pageNo v := by
  have hbase := pageNo_data k 0
  obtain ⟨p, -, ⟨-, -, hle, -⟩ | ⟨-, rfl⟩⟩ := h
  · omega
  · omega

private theorem not_closes_fd (k k' : Fin MAXFD) : ¬s.Closes k (fdVpn k') := by
  intro h
  have hle := h.above
  have hno := pageNo_fd k'
  have hk : k'.val < 32 := k'.isLt
  omega

private theorem fdLookup_number (h : number w = some k) :
    s.fdLookup w = if (s.page (fdVpn k)).isSome then some (INDEX2FD w) else none := by
  obtain ⟨hw, hk⟩ := number_eq h
  have hlt : k.val < 32 := k.isLt
  have hslt : w.slt 32 = true := by
    rw [BitVec.slt_iff_toInt_lt, BitVec.toInt_eq_toNat_of_lt (by omega)]
    have h32 : (32 : Word).toInt = 32 := by decide
    omega
  unfold fdLookup
  rw [if_neg (fun hno => hno hslt), VPN_fd hk]

/-- What `close` unmaps. -/
def Gone (s : FdSpace) (k : Fin MAXFD) (v : Vpn) : Prop := v = fdVpn k ∧ s.Known k ∨ s.Closes k v

/-- The state after `close`: these pages are gone, and a file is closed. -/
structure Closed (s : FdSpace) (k : Fin MAXFD) (t : FdSpace) : Prop where
  alike : s.Alike t
  gone : ∀ v, s.Gone k v → t.frame v = none
  kept : ∀ v, ¬s.Gone k v → t.frame v = s.frame v
  served : (∀ h, s.fileAt k = some h → s.refuses h.fFileid = false) → t.closed = s.closedWith k ++ s.closed
  refused : ∀ h, s.fileAt k = some h → s.refuses h.fFileid = true → t.closed = s.closed

private theorem fileAt_of_file {p : Nat × Word} (hp : s.page (fdVpn k) = some p) (hf : (s.head p.1).fdDevId = 102) :
    s.fileAt k = some (s.head p.1) := by
  simp [fileAt, hp, hf]

private theorem fileAt_of_not {p : Nat × Word} (hp : s.page (fdVpn k) = some p) (hf : (s.head p.1).fdDevId ≠ 102) :
    s.fileAt k = none := by
  have hf : ¬(s.head p.1).fdDevId = 102#32 := hf
  simp [fileAt, hp, hf]

private theorem known_iff {p : Nat × Word} (hp : s.page (fdVpn k) = some p) : s.Known k ↔
    (s.head p.1).fdDevId = 102 ∨ (s.head p.1).fdDevId = 99 ∨ (s.head p.1).fdDevId = 112 := by
  simp [Known, hp]

private theorem closes_iff {p : Nat × Word} (hp : s.page (fdVpn k) = some p) : s.Closes k v ↔
    ((s.head p.1).fdDevId = 102 ∧ s.refuses (s.head p.1).fFileid = false ∧ pageNo (dataVpn k 0) ≤ pageNo v ∧
        pageNo v < pageNo (dataVpn k 0) + rounds (s.head p.1).fSize ∧ pageNo v < UTOP.toNat / 4096) ∨
      ((s.head p.1).fdDevId = 112 ∧ v = dataVpn k 0) := by
  simp [Closes, hp]

private theorem not_gone_of_none (hp : s.page (fdVpn k) = none) (v : Vpn) : ¬s.Gone k v := by
  rintro (⟨-, p, hp', -⟩ | ⟨p, hp', -⟩)
  · rw [hp] at hp'
    cases hp'
  · rw [hp] at hp'
    cases hp'

/-- Closing without a file at the server. -/
private theorem Closed.plain (hfile : s.fileAt k = none) (halike : s.Alike t) (hclosed : t.closed = s.closed)
    (hgone : ∀ v, s.Gone k v → t.frame v = none) (hkept : ∀ v, ¬s.Gone k v → t.frame v = s.frame v) :
    s.Closed k t := by
  refine ⟨halike, hgone, hkept, fun _ => ?_, fun _ _ _ => hclosed⟩
  simp [closedWith, hfile, hclosed]

/-- `file_close`, and `fd_close` after it. -/
private theorem fileClose_closed (hwk : w.toNat = k) (hlegal : isIllegalVa (INDEX2FD w) = false) {p : Nat × Word}
    (hp : s.page (fdVpn k) = some p) (hf : (s.head p.1).fdDevId = 102)
    (h : (s.fileClose (INDEX2FD w) (s.head p.1)).map (fun s => s.unmap (INDEX2FD w)) = some t) : s.Closed k t := by
  obtain ⟨u, hu, rfl⟩ := Option.map_eq_some_iff.1 h
  have hlt : k.val < 32 := k.isLt
  have hknown : s.Known k := (known_iff hp).2 (.inl hf)
  have hne : ¬(s.head p.1).fdDevId = 112 := by rw [hf]; decide
  rw [unmap_legal hlegal, VPN_fd hwk]
  -- If the server refuses, only the descriptor goes; else the pages of the window go with it.
  unfold fileClose at hu
  split at hu
  case isTrue => cases hu
  case isFalse =>
    split at hu
    case isTrue hr =>
      cases hu
      have hcl (v : Vpn) : ¬s.Closes k v := by
        rw [closes_iff hp]
        rintro (⟨-, hr', -⟩ | ⟨hd, -⟩)
        · rw [hr] at hr'
          cases hr'
        · exact hne hd
      refine ⟨⟨rfl, rfl, rfl⟩, fun v hv => ?_, fun v hv => ?_, fun hserved => ?_, fun _ _ _ => rfl⟩
      · obtain ⟨rfl, -⟩ | hv := hv
        · simp
        · exact absurd hv (hcl v)
      · rw [setPage_frame, if_neg fun heq => hv (.inl ⟨heq, hknown⟩)]
      · have := hserved _ (fileAt_of_file hp hf)
        rw [hr] at this
        cases this
    case isFalse hr =>
      have hr : s.refuses (s.head p.1).fFileid = false := by simpa using hr
      cases hu
      have hdata := fd2data_toNat hwk
      have hlow : UTEMP.toNat = 0x3FE000 := by decide
      obtain ⟨ha, hc, hframe⟩ := unmapPages_spec (s := { s with closed := (s.head p.1).fFileid :: s.closed })
        (rounds (s.head p.1).fSize) (fd2data (INDEX2FD w)) (by rw [BitVec.le_def]; omega)
      have hbase := pageNo_data k 0
      have hdiv : (fd2data (INDEX2FD w)).toNat / 4096 = pageNo (dataVpn k 0) := by
        rw [hdata, hbase, Fin.val_zero]
        omega
      have hcl (v : Vpn) : s.Closes k v ↔ pageNo (dataVpn k 0) ≤ pageNo v ∧
          pageNo v < pageNo (dataVpn k 0) + rounds (s.head p.1).fSize ∧ pageNo v < UTOP.toNat / 4096 := by
        rw [closes_iff hp]
        simp [hf, hr]
      refine ⟨⟨ha.head, ha.noTable, ha.refuses⟩, fun v hv => ?_, fun v hv => ?_, fun _ => ?_, fun h' hh' hr' => ?_⟩
      · rw [setPage_frame]
        obtain ⟨rfl, -⟩ | hv := hv
        · simp
        · split
          · rfl
          · rw [hframe v, hdiv, if_pos ((hcl v).1 hv)]
      · rw [setPage_frame, if_neg fun heq => hv (.inl ⟨heq, hknown⟩), hframe v, hdiv,
          if_neg fun hin => hv (.inr ((hcl v).2 hin))]
        rfl
      · have hfile := fileAt_of_file hp hf
        exact hc.trans (by simp [closedWith, hfile])
      · rw [fileAt_of_file hp hf] at hh'
        cases hh'
        rw [hr] at hr'
        cases hr'

private theorem close_closed (hk : number w = some k) (h : s.close w = some t) : s.Closed k t := by
  obtain ⟨-, hwk⟩ := number_eq hk
  have hlt : k.val < 32 := k.isLt
  have hfd : VPN (INDEX2FD w) = fdVpn k := VPN_fd hwk
  have hlegal : isIllegalVa (INDEX2FD w) = false := by
    have := INDEX2FD_toNat hwk
    exact legal_of_toNat _ (by omega) (by omega)
  have hlook := fdLookup_number (s := s) hk
  unfold close at h
  cases hp : s.page (fdVpn k) with
  | none =>
    rw [hlook, hp] at h
    cases h
    exact .plain (by simp [fileAt, hp]) (.refl s) rfl (fun v hv => absurd hv (not_gone_of_none hp v)) fun _ _ => rfl
  | some p =>
    have hhead : s.headAt (INDEX2FD w) = some (s.head p.1) := by simp [headAt, hfd, hp]
    have hlook : s.fdLookup w = some (INDEX2FD w) := by rw [hlook, hp]; rfl
    rw [hlook] at h
    dsimp only at h
    rw [hhead] at h
    dsimp only at h
    -- One case for each device, and one for a page that no device has: that one stays.
    by_cases hf : (s.head p.1).fdDevId = 102
    · rw [if_pos hf] at h
      exact fileClose_closed hwk hlegal hp hf h
    rw [if_neg hf] at h
    by_cases hc : (s.head p.1).fdDevId = 99
    · rw [if_pos hc, unmap_legal hlegal, hfd] at h
      cases h
      have hknown : s.Known k := (known_iff hp).2 (.inr (.inl hc))
      have hcl (v : Vpn) : ¬s.Closes k v := by
        rw [closes_iff hp, hc]
        simp
      refine .plain (fileAt_of_not hp hf) ⟨rfl, rfl, rfl⟩ rfl (fun v hv => ?_) fun v hv => ?_
      · obtain ⟨rfl, -⟩ | hv := hv
        · simp
        · exact absurd hv (hcl v)
      · rw [setPage_frame, if_neg fun heq => hv (.inl ⟨heq, hknown⟩)]
    rw [if_neg hc] at h
    by_cases hpipe : (s.head p.1).fdDevId = 112
    · have hdata := fd2data_toNat hwk
      have hvd : VPN (fd2data (INDEX2FD w)) = dataVpn k 0 := VPN_data (by rw [hdata, Fin.val_zero, Nat.add_zero])
      have hld : isIllegalVa (fd2data (INDEX2FD w)) = false := legal_of_toNat _ (by omega) (by omega)
      rw [if_pos hpipe, pipeClose, unmap_legal hlegal, unmap_legal hld, unmap_legal hlegal, hfd, hvd] at h
      cases h
      have hknown : s.Known k := (known_iff hp).2 (.inr (.inr hpipe))
      have hcl (v : Vpn) : s.Closes k v ↔ v = dataVpn k 0 := by
        rw [closes_iff hp]
        simp [hpipe]
      refine .plain (fileAt_of_not hp hf) ⟨rfl, rfl, rfl⟩ rfl (fun v hv => ?_) fun v hv => ?_
      · simp only [setPage_frame, Option.map_none]
        obtain ⟨rfl, -⟩ | hv := hv
        · simp
        · rw [(hcl v).1 hv]
          simp
      · have h₁ : v ≠ fdVpn k := fun heq => hv (.inl ⟨heq, hknown⟩)
        have h₂ : v ≠ dataVpn k 0 := fun heq => hv (.inr ((hcl v).2 heq))
        simp [h₁, h₂]
    · rw [if_neg hpipe] at h
      cases h
      have hno (v : Vpn) : ¬s.Gone k v := by
        rintro (⟨-, hknown⟩ | hv)
        · rcases (known_iff hp).1 hknown with hd | hd | hd
          · exact hf hd
          · exact hc hd
          · exact hpipe hd
        · rcases (closes_iff hp).1 hv with ⟨hd, -⟩ | ⟨hd, -⟩
          · exact hf hd
          · exact hpipe hd
      exact .plain (fileAt_of_not hp hf) (.refl s) rfl (fun v hv => absurd hv (hno v)) fun _ _ => rfl

/-! ### `dup` between two numbers of the table -/

/-- The end of `dup` with an error. -/
def Failed (s : FdSpace) (o n : Fin MAXFD) : Prop :=
  s.Stuck o n 0 ∨ s.frame (fdVpn o) = none ∨ s.noTable 383 = true

private theorem small_not_neg (h : w.toNat = k) : w.slt 0 = false := by
  have hlt : k.val < 32 := k.isLt
  refine Bool.eq_false_iff.2 fun hneg => ?_
  have h0 : (0 : Word).toInt = 0 := by decide
  rw [BitVec.slt_iff_toInt_lt, BitVec.toInt_eq_toNat_of_lt (by omega), h0] at hneg
  omega

private theorem mapFd_error {r : Word} (oldfd newfd : Word) (hr : r.slt 0 = true) : (s.mapFd r oldfd newfd w).1 = r := by
  unfold mapFd
  rw [if_pos hr]

private theorem mapFd_spec {w' : Word} (ho : w.toNat = o) (hn : w'.toNat = n) :
    (s.frame (fdVpn o) = none ∨ s.noTable 383 = true → (s.mapFd 0 (INDEX2FD w) (INDEX2FD w') w').1.slt 0 = true) ∧
      (¬(s.frame (fdVpn o) = none ∨ s.noTable 383 = true) → (s.mapFd 0 (INDEX2FD w) (INDEX2FD w') w').1 = w' ∧
        (s.mapFd 0 (INDEX2FD w) (INDEX2FD w') w').2.closed = s.closed ∧
        ∀ v, (s.mapFd 0 (INDEX2FD w) (INDEX2FD w') w').2.frame v = if v = fdVpn n then s.frame (fdVpn o) else s.frame v) := by
  have hlo : o.val < 32 := o.isLt
  have hln : n.val < 32 := n.isLt
  have hla := INDEX2FD_toNat ho
  have hlb := INDEX2FD_toNat hn
  have hmap := memMap_legal (s := s) (s.shared (INDEX2FD w)) (legal_of_toNat (INDEX2FD w) (by omega) (by omega))
    (legal_of_toNat (INDEX2FD w') (by omega) (by omega))
  have htable : PDX (INDEX2FD w') = 383 := congrArg Prod.fst (VPN_fd hn)
  rw [VPN_fd ho, VPN_fd hn, htable] at hmap
  unfold mapFd
  rw [if_neg (show ¬(0 : Word).slt 0 = true by decide)]
  cases hp : s.page (fdVpn o) with
  | none =>
    rw [hp] at hmap
    dsimp only at hmap ⊢
    rw [hmap, if_pos (show (-E_INVAL).slt 0 = true by decide)]
    exact ⟨fun _ => show (-E_INVAL).slt 0 = true by decide, fun h => absurd (.inl (frame_none.2 hp)) h⟩
  | some p =>
    have hframe : s.frame (fdVpn o) = some p.1 := by simp [frame, hp]
    rw [hp] at hmap
    dsimp only at hmap
    cases ht : s.noTable 383 with
    | true =>
      rw [ht, if_pos rfl] at hmap
      dsimp only
      rw [hmap, if_pos (show (-E_NO_MEM).slt 0 = true by decide)]
      exact ⟨fun _ => show (-E_NO_MEM).slt 0 = true by decide, fun h => absurd (.inr rfl) h⟩
    | false =>
      rw [ht, if_neg (by decide)] at hmap
      dsimp only
      rw [hmap, hframe]
      refine ⟨fun h => by simp at h, fun _ => ⟨rfl, rfl, fun v => ?_⟩⟩
      exact setPage_frame s (fdVpn n) v _

/-- The state after `dup` in terms of the one after `close`. -/
private theorem dup_spec {w' r : Word} (ho : number w = some o) (hn : number w' = some n)
    (hopen : (s.page (fdVpn o)).isSome)
    (h : s.dup w w' = some (r, t)) : ∃ c, s.Closed n c ∧ (c.Failed o n → r.slt 0 = true) ∧
      (¬c.Failed o n → r = w' ∧ t.closed = c.closed ∧
        ∀ v, t.frame v = if v = fdVpn n then c.frame (fdVpn o) else c.copied o n 0 v) := by
  obtain ⟨-, hwo⟩ := number_eq ho
  obtain ⟨-, hwn⟩ := number_eq hn
  unfold dup at h
  rw [fdLookup_number ho, if_pos hopen] at h
  obtain ⟨c, hc, h⟩ := Option.map_eq_some_iff.1 h
  dsimp only at h
  refine ⟨c, close_closed hn hc, ?_⟩
  obtain ⟨ha, hcl, hbad, hgood⟩ := copyPages_spec (s := c) (o := o) (n := n) (j := 0) 1024
    (fd2data (INDEX2FD w)) (fd2data (INDEX2FD w')) (by rw [fd2data_toNat hwo, Nat.add_zero])
    (by rw [fd2data_toNat hwn, Nat.add_zero]) (Nat.zero_add _)
  revert h ha hcl hbad hgood
  generalize copyPages 1024 c (fd2data (INDEX2FD w)) (fd2data (INDEX2FD w')) = q
  obtain ⟨r₁, c₁⟩ := q
  intro h ha hcl hbad hgood
  dsimp only at h ha hcl hbad hgood
  by_cases hstuck : c.Stuck o n 0
  · have hr : r = r₁ := by
      rw [← mapFd_error (s := c₁) (w := w') (INDEX2FD w) (INDEX2FD w') (hbad hstuck), h]
    refine ⟨fun _ => hr ▸ hbad hstuck, fun hno => absurd (.inl hstuck) hno⟩
  · obtain ⟨rfl, hframe⟩ := hgood hstuck
    have hfd : c₁.frame (fdVpn o) = c.frame (fdVpn o) := by
      rw [hframe]
      unfold copied
      rw [if_neg]
      rintro ⟨h₁, -⟩
      have := congrArg Fin.val h₁
      simp only [fdVpn, dataVpn] at this
      have h383 : (383 : Idx).val = 383 := rfl
      omega
    obtain ⟨hb, hg⟩ := mapFd_spec (s := c₁) hwo hwn
    rw [h, hfd, ha.noTable] at hb hg
    refine ⟨fun hf => hb (hf.resolve_left hstuck), fun hf => ?_⟩
    obtain ⟨hr, hcl₁, hv⟩ := hg fun h' => hf (.inr h')
    refine ⟨hr, hcl₁.trans hcl, fun v => ?_⟩
    rw [hv v, hframe v]

private theorem Gone.of_data (h : s.Gone k (dataVpn o i)) : s.Closes k (dataVpn o i) :=
  h.resolve_left fun h => fdVpn_ne_dataVpn k o i h.1.symm

private theorem Gone.of_fd (h : s.Gone k (fdVpn o)) : fdVpn o = fdVpn k ∧ s.Known k := h.resolve_right (not_closes_fd k o)

private theorem fdVpn_inj {k k' : Fin MAXFD} (h : fdVpn k = fdVpn k') : k = k' := by
  have h₁ : k.val = k'.val := congrArg (fun v : Vpn => v.2.val) h
  exact Fin.ext h₁

private theorem Closes.known (h : s.Closes k v) : s.Known k := by
  obtain ⟨p, hp, ⟨hd, -⟩ | ⟨hd, -⟩⟩ := h
  · exact ⟨p, hp, .inl hd⟩
  · exact ⟨p, hp, .inr (.inr hd)⟩

private theorem fileAt_known {h : FdHead} (hf : s.fileAt k = some h) : s.Known k := by
  unfold fileAt at hf
  obtain ⟨hm, hd⟩ := Option.filter_eq_some_iff.1 hf
  obtain ⟨p, hp, rfl⟩ := Option.map_eq_some_iff.1 hm
  exact ⟨p, hp, .inl (by simpa using hd)⟩

private theorem copied_data (j : Idx) : s.copied o n 0 (dataVpn n j) = (s.frame (dataVpn o j)).or (s.frame (dataVpn n j)) :=
  if_pos ⟨rfl, Nat.zero_le _⟩

private theorem copied_other (h : v.1 ≠ (dataVpn n 0).1) : s.copied o n 0 v = s.frame v := if_neg fun h' => h h'.1

private theorem window_ne (h : k ≠ n) (i : Idx) : (dataVpn k i).1 ≠ (dataVpn n 0).1 := by
  intro heq
  have h₁ : 384 + k.val = 384 + n.val := congrArg Fin.val heq
  exact h (Fin.ext (by omega))

private theorem fd_window_ne (k n : Fin MAXFD) : (fdVpn k).1 ≠ (dataVpn n 0).1 := by
  intro heq
  have h₁ : 383 = 384 + n.val := congrArg Fin.val heq
  omega

variable {c : FdSpace} {r w' : Word}

/-- A device that is not known is not closed: the descriptor is duplicated onto itself. -/
private theorem dups_self (hc : s.Closed o c) (hopen : (s.page (fdVpn o)).isSome) (hno : ¬s.Known o) :
    (∀ v, c.frame v = s.frame v) ∧ c.closed = s.closed ∧ (¬c.Failed o o ↔ s.Fits o o) := by
  have hcl (v : Vpn) : ¬s.Closes o v := fun h => hno h.known
  have hframe (v : Vpn) : c.frame v = s.frame v := hc.kept v fun hg => hg.elim (fun h => hno h.2) (hcl v)
  have hfile : s.fileAt o = none := by
    cases hf : s.fileAt o with
    | none => rfl
    | some h => exact absurd (fileAt_known hf) hno
  have hclosed : c.closed = s.closed := by
    rw [hc.served (by simp [hfile])]
    simp [closedWith, hfile]
  refine ⟨hframe, hclosed, fun hf => ⟨⟨?_, fun i hi => ?_⟩, fun i h₁ h₂ => ?_, fun k i _ _ => hcl _, by simp [hfile]⟩, ?_⟩
  · cases ht : s.noTable 383 with
    | false => rfl
    | true => exact absurd (.inr (.inr (hc.alike.noTable ▸ ht))) hf
  · cases ht : s.noTable (dataVpn o i).1 with
    | false => rfl
    | true =>
      refine absurd (.inl ⟨hc.alike.noTable ▸ ht, i, Nat.zero_le _, ?_⟩) hf
      rw [hframe, frame_isSome]
      exact hi
  · rw [h₁] at h₂
    cases h₂
  · rintro hfits (⟨ht, i, -, hi⟩ | hnone | ht)
    · rw [hframe, frame_isSome] at hi
      rw [hc.alike.noTable] at ht
      rw [show (dataVpn o 0).1 = (dataVpn o i).1 from rfl, hfits.table.2 i hi] at ht
      cases ht
    · rw [hframe, frame_none] at hnone
      rw [hnone] at hopen
      cases hopen
    · rw [hc.alike.noTable, hfits.table.1] at ht
      cases ht

/-- Where the descriptors fit, the copy does not fail and they are the same afterwards. -/
private theorem Fits.dups (hfits : s.Fits o n) (hne : n ≠ o) (hc : s.Closed n c)
    (hcl : t.closed = c.closed) (hframe : ∀ v, t.frame v = if v = fdVpn n then c.frame (fdVpn o) else c.copied o n 0 v) :
    s.Dups o n t := by
  -- besides the closed descriptor, `close` takes nothing
  have hfd (k : Fin MAXFD) (hk : k ≠ n) : c.frame (fdVpn k) = s.frame (fdVpn k) :=
    hc.kept _ fun hg => hk (fdVpn_inj hg.of_fd.1)
  have hdata (k : Fin MAXFD) (i : Idx) (hk : k ≠ n) : c.frame (dataVpn k i) = s.frame (dataVpn k i) := by
    by_cases hg : s.Gone n (dataVpn k i)
    · have hnone : s.page (dataVpn k i) = none := by
        by_contra hsome
        exact hfits.apart k i hk (Option.isSome_iff_ne_none.2 hsome) hg.of_data
      rw [hc.gone _ hg, frame_none.2 hnone]
    · exact hc.kept _ hg
  have htfd (k : Fin MAXFD) (hk : k ≠ n) : t.frame (fdVpn k) = s.frame (fdVpn k) := by
    rw [hframe, if_neg fun h => hk (fdVpn_inj h), copied_other (fd_window_ne k n), hfd k hk]
  have htdata (k : Fin MAXFD) (i : Idx) (hk : k ≠ n) : t.frame (dataVpn k i) = s.frame (dataVpn k i) := by
    rw [hframe, if_neg (fdVpn_ne_dataVpn n k i).symm, copied_other (window_ne hk i), hdata k i hk]
  refine ⟨⟨?_, fun i => ?_⟩, ⟨htfd o hne.symm, fun i => htdata o i hne.symm⟩,
    fun k _ hk => ⟨htfd k hk, fun i => htdata k i hk⟩, ?_⟩
  · rw [htfd o hne.symm, hframe, if_pos rfl, hfd o hne.symm]
  · rw [htdata o i hne.symm, hframe, if_neg (fdVpn_ne_dataVpn n n i).symm, copied_data, hdata o i hne.symm]
    cases ho : s.frame (dataVpn o i) with
    | some x => rfl
    | none =>
      rw [Option.none_or]
      by_cases hg : s.Gone n (dataVpn n i)
      · exact hc.gone _ hg
      · rw [hc.kept _ hg, frame_none]
        by_contra hsome
        exact hg (.inr (hfits.window i (frame_none.1 ho) (Option.isSome_iff_ne_none.2 hsome)))
  · rw [hcl, if_neg hne]
    exact hc.served hfits.served

private theorem Fits.not_failed (hfits : s.Fits o n) (hne : n ≠ o) (hopen : (s.page (fdVpn o)).isSome) (hc : s.Closed n c) :
    ¬c.Failed o n := by
  rintro (⟨ht, i, -, hi⟩ | hnone | ht)
  · have hi' : (s.page (dataVpn o i)).isSome := by
      by_cases hg : s.Gone n (dataVpn o i)
      · rw [hc.gone _ hg] at hi
        cases hi
      · rwa [hc.kept _ hg, frame_isSome] at hi
    rw [hc.alike.noTable] at ht
    rw [show (dataVpn n 0).1 = (dataVpn n i).1 from rfl, hfits.table.2 i hi'] at ht
    cases ht
  · rw [hc.kept _ fun hg => hne (fdVpn_inj hg.of_fd.1).symm, frame_none] at hnone
    rw [hnone] at hopen
    cases hopen
  · rw [hc.alike.noTable, hfits.table.1] at ht
    cases ht

/-- If the descriptors are the same afterwards, they fitted. -/
private theorem Dups.fits (h : s.Dups o n t) (hne : n ≠ o) (hc : s.Closed n c) (hno : ¬c.Failed o n)
    (hcl : t.closed = c.closed) (hframe : ∀ v, t.frame v = if v = fdVpn n then c.frame (fdVpn o) else c.copied o n 0 v) :
    s.Fits o n := by
  have htdata (k : Fin MAXFD) (i : Idx) (hk : k ≠ n) : t.frame (dataVpn k i) = c.frame (dataVpn k i) := by
    rw [hframe, if_neg (fdVpn_ne_dataVpn n k i).symm, copied_other (window_ne hk i)]
  have hsame (k : Fin MAXFD) (i : Idx) (hk : k ≠ n) : t.frame (dataVpn k i) = s.frame (dataVpn k i) := by
    by_cases hko : k = o
    · rw [hko]
      exact h.old.2 i
    · exact (h.others k hko hk).2 i
  have hapart (k : Fin MAXFD) (i : Idx) (hk : k ≠ n) (hi : (s.page (dataVpn k i)).isSome) : ¬s.Closes n (dataVpn k i) := by
    intro hcl
    have hnone := hsame k i hk
    rw [htdata k i hk, hc.gone _ (.inr hcl)] at hnone
    rw [← frame_isSome, ← hnone] at hi
    cases hi
  refine ⟨⟨?_, fun i hi => ?_⟩, fun i h₁ h₂ => ?_, hapart, fun hd hfile => ?_⟩
  · cases ht : s.noTable 383 with
    | false => rfl
    | true => exact absurd (.inr (.inr (hc.alike.noTable ▸ ht))) hno
  · cases ht : s.noTable (dataVpn n i).1 with
    | false => rfl
    | true =>
      refine absurd (.inl ⟨hc.alike.noTable ▸ ht, i, Nat.zero_le _, ?_⟩) hno
      rw [hc.kept _ fun hg => hapart o i hne.symm hi hg.of_data, frame_isSome]
      exact hi
  · by_contra hcl
    have hn : c.frame (dataVpn n i) = s.frame (dataVpn n i) := hc.kept _ fun hg => hcl hg.of_data
    have ho : c.frame (dataVpn o i) = none := by
      rw [← htdata o i hne.symm, hsame o i hne.symm, frame_none.2 h₁]
    have hto := h.same.2 i
    rw [htdata o i hne.symm, ho, hframe, if_neg (fdVpn_ne_dataVpn n n i).symm, copied_data, ho, Option.none_or, hn,
      frame_none] at hto
    rw [hto] at h₂
    cases h₂
  · cases hr : s.refuses hd.fFileid with
    | false => rfl
    | true =>
      have hlen := congrArg List.length h.closed
      rw [hcl, hc.refused hd hfile hr, if_neg hne] at hlen
      simp [closedWith, hfile] at hlen

/-- A refused number. -/
private theorem dupOk_of_refused (hno : s.fdLookup w = none) (h : s.dup w w' = some (r, t)) : s.DupOk w w' r t := by
  have hdup : s.dup w w' = some (-E_INVAL, s) := by
    unfold dup
    rw [hno]
  rw [hdup] at h
  cases h
  have hnot : ((number w).filter fun o => (s.page (fdVpn o)).isSome) = none := by
    cases hw : number w with
    | none => rfl
    | some o =>
      rw [fdLookup_number hw] at hno
      rw [Option.filter_some, if_neg fun hopen => by rw [if_pos hopen] at hno; cases hno]
  unfold DupOk
  rw [hnot]
  exact ⟨by decide, rfl⟩

private theorem dupOk_iff (ho : number w = some o) (hn : number w' = some n) (hopen : (s.page (fdVpn o)).isSome) :
    s.DupOk w w' r t ↔ r = w' ∧ s.Dups o n t := by
  unfold DupOk
  rw [ho, hn, Option.filter_some, if_pos hopen]

/-- Two numbers of the table, the first one open. -/
private theorem dup_fits_iff (ho : number w = some o) (hn : number w' = some n) (hopen : (s.page (fdVpn o)).isSome)
    (h : s.dup w w' = some (r, t)) : s.DupOk w w' r t ↔ s.Fits o n ∧ (n = o → ¬s.Known o) := by
  obtain ⟨c, hc, hbad, hgood⟩ := dup_spec ho hn hopen h
  have hpos := small_not_neg (number_eq hn).2
  rw [dupOk_iff ho hn hopen]
  by_cases hno : n = o
  · subst hno
    constructor
    · rintro ⟨rfl, hdups⟩
      have hf : ¬c.Failed n n := fun hf => by
        rw [hbad hf] at hpos
        cases hpos
      have hunknown : ¬s.Known n := fun hk => hf (.inr (.inl (hc.gone _ (.inl ⟨rfl, hk⟩))))
      exact ⟨(dups_self hc hopen hunknown).2.2.1 hf, fun _ => hunknown⟩
    · rintro ⟨hfits, hunknown⟩
      obtain ⟨hframe, hclosed, hiff⟩ := dups_self hc hopen (hunknown rfl)
      obtain ⟨hr, hcl, ht⟩ := hgood (hiff.2 hfits)
      have htv (v : Vpn) : t.frame v = s.frame v := by
        rw [ht v]
        split
        · next heq => rw [hframe, heq]
        · by_cases hw : v.1 = (dataVpn n 0).1
          · have hv : v = dataVpn n v.2 := Prod.ext hw rfl
            rw [hv, copied_data, hframe]
            cases s.frame (dataVpn n v.2) <;> rfl
          · rw [copied_other hw, hframe]
      refine ⟨hr, ⟨rfl, fun _ => rfl⟩, ⟨htv _, fun i => htv _⟩, fun k _ _ => ⟨htv _, fun i => htv _⟩, ?_⟩
      rw [if_pos rfl, hcl, hclosed]
  · constructor
    · rintro ⟨rfl, hdups⟩
      have hf : ¬c.Failed o n := fun hf => by
        rw [hbad hf] at hpos
        cases hpos
      obtain ⟨-, hcl, ht⟩ := hgood hf
      exact ⟨hdups.fits hno hc hf hcl ht, fun heq => absurd heq hno⟩
    · rintro ⟨hfits, -⟩
      obtain ⟨hr, hcl, ht⟩ := hgood (hfits.not_failed hno hopen hc)
      exact ⟨hr, hfits.dups hno hc hcl ht⟩

/-- `dup` does what it should where the old number is refused or the descriptors fit; and between two numbers of the table
only there. -/
theorem dup_ok_iff (h : s.dup w w' = some (r, t)) : (s.DupHolds w w' → s.DupOk w w' r t) ∧
    (w.toNat < MAXFD → w'.toNat < MAXFD → s.DupOk w w' r t → s.DupHolds w w') := by
  constructor
  · rintro (hno | ⟨o, n, ho, hn, hfits⟩)
    · exact dupOk_of_refused hno h
    · by_cases hopen : (s.page (fdVpn o)).isSome
      · exact (dup_fits_iff ho hn hopen h).2 hfits
      · refine dupOk_of_refused ?_ h
        rw [fdLookup_number ho, if_neg hopen]
  · intro hw hw' hok
    have ho : number w = some ⟨w.toNat, hw⟩ := dif_pos hw
    have hn : number w' = some ⟨w'.toNat, hw'⟩ := dif_pos hw'
    by_cases hopen : (s.page (fdVpn ⟨w.toNat, hw⟩)).isSome
    · exact .inr ⟨_, _, ho, hn, (dup_fits_iff ho hn hopen h).1 hok⟩
    · left
      rw [fdLookup_number ho, if_neg hopen]

/-- The console at number 0. -/
def console : FdSpace where
  page v := if v = fdVpn 0 then some (7, PTE_D) else none
  head _ := ⟨99, 0, 0⟩
  noTable _ := false
  refuses _ := false
  closed := []

theorem dup_ok_iff_console : ∃ t, console.dup 0 1 = some (1, t) ∧ console.DupOk 0 1 1 t := by
  obtain ⟨⟨r, t⟩, h⟩ := Option.isSome_iff_exists.1 (show (console.dup 0 1).isSome = true from rfl)
  have hopen : (console.page (fdVpn 0)).isSome := rfl
  have hdata (k : Fin MAXFD) (i : Idx) : console.page (dataVpn k i) = none :=
    if_neg (fdVpn_ne_dataVpn 0 k i).symm
  have hfits : console.Fits 0 1 := by
    refine ⟨⟨rfl, fun _ _ => rfl⟩, fun i _ h => ?_, fun k i _ h => ?_, fun _ _ => rfl⟩
    · rw [hdata] at h
      cases h
    · rw [hdata] at h
      cases h
  have hok := (dup_ok_iff h).1 (.inr ⟨0, 1, rfl, rfl, hfits, fun h => absurd h (by decide)⟩)
  obtain rfl := ((dupOk_iff rfl rfl hopen).1 hok).1
  exact ⟨t, h, hok⟩

/-- Duplicated onto itself, the descriptor is closed. -/
theorem exists_dup_onto_itself : ∃ r t, console.dup 0 0 = some (r, t) ∧ ¬console.DupOk 0 0 r t := by
  obtain ⟨⟨r, t⟩, h⟩ := Option.isSome_iff_exists.1 (show (console.dup 0 0).isSome = true from rfl)
  refine ⟨r, t, h, fun hok => ?_⟩
  have hknown := ((dup_fits_iff rfl rfl (show (console.page (fdVpn 0)).isSome from rfl) h).1 hok).2 rfl
  exact hknown ⟨(7, PTE_D), rfl, .inr (.inl rfl)⟩

end FdSpace

end Mos
