import Mos.Kern.Mmu
import Mathlib.Logic.Function.Basic

/-!
# Physical pages and page tables (`kern/pmap.c`)

A frame is named by its number, its content is 1024 words, and a kernel pointer to a page table entry is a frame
and an index.  `none` is a kernel panic (a failed `assert`, `pa2page` or `KADDR` outside the memory); an error code
is a value.  The TLB is the list of its entries.
-/

namespace Mos

abbrev Asid := Fin 64

structure TlbEntry where
  vpn : Vpn
  asid : Asid
  pte : Word
  deriving DecidableEq

/-- An entry matches its own page under its ASID, and under every ASID when it is global. -/
def TlbEntry.hits (t : TlbEntry) (v : Vpn) (asid : Asid) : Bool :=
  t.vpn = v && (t.asid = asid || has t.pte PTE_G)

structure Pmap where
  npage : Nat
  /-- `page_free_list`, first page first. -/
  pageFreeList : List Nat
  ppRef : Nat → BitVec 16
  word : Nat → Idx → Word
  tlb : List TlbEntry

/-- A kernel pointer to an entry: the frame of the table and the index in it. -/
abbrev PtePtr := Nat × Idx

namespace Pmap

def setWord (m : Pmap) (p : Nat) (i : Idx) (v : Word) : Pmap :=
  { m with word := Function.update m.word p (Function.update (m.word p) i v) }

def setRef (m : Pmap) (p : Nat) (r : BitVec 16) : Pmap :=
  { m with ppRef := Function.update m.ppRef p r }

/-- `pa2page`, and `KADDR` of the frame: both panic beyond the memory. -/
def pa2page (m : Pmap) (pa : Word) : Option Nat := if PPN pa < m.npage then some (PPN pa) else none

/-- `none` is `-E_NO_MEM`. -/
def pageAlloc (m : Pmap) : Option (Nat × Pmap) :=
  match m.pageFreeList with
  | [] => none
  | pp :: rest => some (pp, { m with pageFreeList := rest, word := Function.update m.word pp fun _ => 0 })

def pageFree (m : Pmap) (pp : Nat) : Option Pmap :=
  if m.ppRef pp = 0 then some { m with pageFreeList := pp :: m.pageFreeList } else none

def pageDecref (m : Pmap) (pp : Nat) : Option Pmap :=
  if m.ppRef pp = 0 then none
  else
    let m := m.setRef pp (m.ppRef pp - 1)
    if m.ppRef pp = 0 then m.pageFree pp else some m

/-- `tlb_out` on the page of `va`. -/
def tlbInvalidate (m : Pmap) (asid : Asid) (va : Word) : Pmap :=
  { m with tlb := m.tlb.filter fun t => !t.hits (VPN va) asid }

/-- The result code, `*ppte` and the memory. -/
def pgdirWalk (m : Pmap) (pgdir : Nat) (va : Word) (create : Bool) : Option (Word × Option PtePtr × Pmap) :=
  let pde := m.word pgdir (PDX va)
  if has pde PTE_V then
    (m.pa2page pde).map fun t => (0, some (t, PTX va), m)
  else if create then
    match m.pageAlloc with
    | none => some (-E_NO_MEM, none, m)
    | some (pp, m) =>
      let m := m.setRef pp 1
      some (0, some (pp, PTX va), m.setWord pgdir (PDX va) (page2pa pp ||| PTE_V ||| PTE_D))
  else some (0, none, m)

/-- The page and its entry, or `none` for `NULL`. -/
def pageLookup (m : Pmap) (pgdir : Nat) (va : Word) : Option (Option (Nat × PtePtr)) :=
  (m.pgdirWalk pgdir va false).bind fun
    | (_, none, _) => some none
    | (_, some pte, _) =>
      if has (m.word pte.1 pte.2) PTE_V then
        (m.pa2page (m.word pte.1 pte.2)).map fun pp => some (pp, pte)
      else some none

def pageRemove (m : Pmap) (pgdir : Nat) (asid : Asid) (va : Word) : Option Pmap :=
  (m.pageLookup pgdir va).bind fun
    | none => some m
    | some (pp, pte) =>
      (m.pageDecref pp).map fun m => (m.setWord pte.1 pte.2 0).tlbInvalidate asid va

/-- Steps 2 to 4 of `page_insert`: flush, get or create the entry, write it and count the reference. -/
def pageInsertFresh (m : Pmap) (pgdir : Nat) (asid : Asid) (pp : Nat) (va perm : Word) : Option (Word × Pmap) :=
  ((m.tlbInvalidate asid va).pgdirWalk pgdir va true).map fun
    | (_, none, m) => (-E_NO_MEM, m)
    | (_, some pte, m) =>
      let m := m.setWord pte.1 pte.2 (page2pa pp ||| perm ||| PTE_V)
      (0, m.setRef pp (m.ppRef pp + 1))

def pageInsert (m : Pmap) (pgdir : Nat) (asid : Asid) (pp : Nat) (va perm : Word) : Option (Word × Pmap) :=
  (m.pgdirWalk pgdir va false).bind fun
    | (_, none, _) => m.pageInsertFresh pgdir asid pp va perm
    | (_, some pte, _) =>
      if has (m.word pte.1 pte.2) PTE_V then
        (m.pa2page (m.word pte.1 pte.2)).bind fun q =>
          if q ≠ pp then
            (m.pageRemove pgdir asid va).bind fun m => m.pageInsertFresh pgdir asid pp va perm
          else
            some (0, (m.tlbInvalidate asid va).setWord pte.1 pte.2 (page2pa pp ||| perm ||| PTE_V))
      else m.pageInsertFresh pgdir asid pp va perm

/-- Memory below `used` (kernel image and `pages` array) is taken, the rest is free. -/
def pageInit (npage used : Nat) : Pmap where
  npage := npage
  pageFreeList := ((List.range npage).drop used).reverse
  ppRef := fun p => if p < used then 1 else 0
  word := fun _ _ => 0
  tlb := []

end Pmap

end Mos
