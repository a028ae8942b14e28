import Mos.Kern.Trap
import Mos.Kern.PageSpec
import Mathlib.Data.List.Range

/-!
# The state after the initialisation

`env_init` maps the arrays `pages` and `envs` into a template directory.  The memory that this leaves has a closed
form, so the initialisation succeeds on every machine.
-/

namespace Mos

namespace Pmap

variable {m : Pmap}

/-! ### Mapping a segment -/

/-- The entry that `map_segment` writes for frame `pp`. -/
def segmentPte (pp : Nat) (perm : Word) : Word := page2pa pp ||| (PTE_V ||| perm) ||| PTE_V

/-- The memory after `map_segment` created the table `t` for the directory entry `j` of `p` and mapped `n` frames from
`ppn` on. -/
def segment (m : Pmap) (p t : Nat) (rest : List Nat) (j : Idx) (ppn n : Nat) (perm : Word) : Pmap where
  npage := m.npage
  pageFreeList := rest
  ppRef q := if q = t then 1 else if ppn ≤ q ∧ q < ppn + n then m.ppRef q + 1 else m.ppRef q
  word q i :=
    if q = t then if (i : Nat) < n then segmentPte (ppn + i) perm else 0
    else if q = p ∧ i = j then tablePde t
    else m.word q i
  tlb := []

/-- The addresses of a window that starts a directory entry. -/
private theorem PDX_window {va : Word} (hva : va.toNat % 2 ^ 22 = 0) {i : Nat} (hi : i < 1024) :
    PDX (va + BitVec.ofNat 32 (i * 4096)) = PDX va ∧ (PTX (va + BitVec.ofNat 32 (i * 4096)) : Nat) = i := by
  have hlt := va.isLt
  have hadd : (va + BitVec.ofNat 32 (i * 4096)).toNat = va.toNat + i * 4096 := by
    rw [BitVec.toNat_add, BitVec.toNat_ofNat]; omega
  constructor
  · apply Fin.ext; rw [PDX_toNat, PDX_toNat, hadd]; omega
  · simp only [PTX, BitVec.toNat_ushiftRight, Nat.shiftRight_eq_div_pow, hadd]; omega

private theorem PTX_window {va : Word} (hva : va.toNat % 2 ^ 22 = 0) {i : Nat} (hi : i < 1024) :
    PTX (va + BitVec.ofNat 32 (i * 4096)) = ⟨i, hi⟩ := Fin.ext (PDX_window hva hi).2

/-- `map_segment` creates a table and fills it. -/
private theorem mapSegment_eq {p t : Nat} {rest : List Nat} {asid : Asid} {ppn n : Nat} {va perm : Word}
    (htlb : m.tlb = []) (hv : has (m.word p (PDX va)) PTE_V = false) (hfree : m.pageFreeList = t :: rest)
    (hva : va.toNat % 2 ^ 22 = 0) (htp : t ≠ p) (ht : t < m.npage) (hppn : ppn + n ≤ t) (h20 : m.npage ≤ 2 ^ 20)
    (hn : 0 < n) (hn' : n ≤ 1024) :
    m.mapSegment p asid ppn va n perm = some (m.segment p t rest (PDX va) ppn n perm) := by
  -- induction on the number of pages; the first one creates the table
  induction n, hn using Nat.le_induction with
  | base =>
    have h0 : PTX va = (⟨0, by decide⟩ : Idx) := by
      have := PTX_window hva (i := 0) (by decide)
      simpa using this
    have hins : m.pageInsert p asid ppn va (PTE_V ||| perm) =
        some (0, (m.linkTable p t rest (PDX va)).fill t (PTX va) ppn (PTE_V ||| perm)) := by
      rw [pageInsert_unmapped (.inl hv), pageInsertFresh_link hv hfree, tlbInvalidate_nil htlb]
    have heq : (m.linkTable p t rest (PDX va)).fill t (PTX va) ppn (PTE_V ||| perm) =
        m.segment p t rest (PDX va) ppn 1 perm := by
      simp only [segment, fill, linkTable, setRef, setWord, h0]
      congr 1
      · funext q
        by_cases hq : q = ppn
        · subst hq
          have hne : q ≠ t := by omega
          rw [Function.update_self, Function.update_of_ne hne, if_neg hne, if_pos (by omega)]
        · by_cases hqt : q = t
          · subst hqt; simp [hq]
          · rw [Function.update_of_ne hq, Function.update_of_ne hqt, if_neg hqt, if_neg (by omega)]
      · funext q i
        by_cases hqt : q = t
        · subst hqt
          by_cases hi : i = ⟨0, by decide⟩
          · subst hi; simp [segmentPte, htp]
          · have hlt : ¬(i : Nat) < 1 := fun h => hi (Fin.ext (by simpa using h))
            simp only [Function.update_self, Function.update_of_ne hi, if_true, if_neg hlt,
              Function.update_of_ne htp]
        · by_cases hqp : q = p
          · subst hqp
            by_cases hi : i = PDX va <;> simp [hqt, hi]
          · simp [hqt, hqp]
    simp only [mapSegment, List.range_one, List.foldlM_cons, List.foldlM_nil, Nat.add_zero,
      pa2page_page2pa (m := m) (show ppn < m.npage by omega) (by omega), Option.bind_some]
    simp only [Nat.zero_mul, BitVec.ofNat_eq_ofNat, BitVec.add_zero, hins, Option.map_some, heq]
    rfl
  | succ n hn ih =>
    have ih := ih (by omega) (by omega)
    simp only [mapSegment] at ih ⊢
    rw [List.range_succ, List.foldlM_append, ih]
    have hpdx := (PDX_window hva (show n < 1024 by omega)).1
    have hptx := PTX_window hva (show n < 1024 by omega)
    generalize hs : m.segment p t rest (PDX va) ppn n perm = s
    have hpde : s.word p (PDX va) = tablePde t := by simp [← hs, segment, Ne.symm htp]
    have hPPN : PPN (s.word p (PDX va)) = t := by rw [hpde, PPN_tablePde (by omega)]
    have hins : s.pageInsert p asid (ppn + n) (va + BitVec.ofNat 32 (n * 4096)) (PTE_V ||| perm) =
        some (0, s.fill t ⟨n, by omega⟩ (ppn + n) (PTE_V ||| perm)) := by
      have hV : has (s.word p (PDX (va + BitVec.ofNat 32 (n * 4096)))) PTE_V = true := by rw [hpdx, hpde, tablePde_V]
      have hlt : PPN (s.word p (PDX (va + BitVec.ofNat 32 (n * 4096)))) < s.npage := by
        rw [hpdx, hPPN, ← hs]; exact ht
      have hpte : has (s.word t ⟨n, by omega⟩) PTE_V = false := by simp [← hs, segment]
      rw [pageInsert_unmapped (.inr ⟨hlt, by rw [hpdx, hPPN, hptx]; exact hpte⟩), pageInsertFresh_valid hV hlt,
        tlbInvalidate_nil (by rw [← hs]; rfl), hpdx, hPPN, hptx]
    subst hs
    simp only [Option.bind_eq_bind, Option.bind_some, List.foldlM_cons, List.foldlM_nil,
      pa2page_page2pa (m := m.segment p t rest (PDX va) ppn n perm) (show ppn + n < m.npage by omega)
        (show ppn + n < 2 ^ 20 by omega), hins, Option.map_some]
    congr 1
    simp only [segment, fill, setWord, setRef]
    congr 1
    · funext q
      by_cases hq : q = ppn + n
      · subst hq
        rw [Function.update_self, if_neg (show ¬ppn + n = t by omega), if_neg (show ¬ppn + n = t by omega),
          if_neg (by omega), if_pos (by omega)]
      · rw [Function.update_of_ne hq]
        split
        · rfl
        · exact if_congr (by omega) rfl rfl
    · funext q i
      by_cases hq : q = t
      · subst hq
        rw [Function.update_self]
        by_cases hi : i = ⟨n, by omega⟩
        · subst hi; simp [segmentPte]
        · have hne : (i : Nat) ≠ n := fun h => hi (Fin.ext h)
          simp only [Function.update_of_ne hi, if_true]
          exact if_congr (by omega) rfl rfl
      · simp only [Function.update_of_ne hq, if_neg hq]

end Pmap

namespace Machine

variable (mc : Machine)

/-! ### The closed form -/

/-- The template directory and the tables for `UPAGES` and `UENVS` are the first three pages of the free list. -/
def bootPgdir : Nat := mc.npage - 1
def pagesTable : Nat := mc.npage - 2
def envsTable : Nat := mc.npage - 3

def bootFree : List Nat := ((List.range (mc.npage - 3)).drop mc.used).reverse

/-- The memory after the template directory got its frame. -/
private def pmap₀ : Pmap where
  npage := mc.npage
  pageFreeList := mc.pagesTable :: mc.envsTable :: mc.bootFree
  ppRef q := if q = mc.bootPgdir then 1 else if q < mc.used then 1 else 0
  word _ _ := 0
  tlb := []

/-- The memory after the initialisation. -/
def bootPmap : Pmap where
  npage := mc.npage
  pageFreeList := mc.bootFree
  ppRef q :=
    if mc.used ≤ q then if mc.npage - 3 ≤ q ∧ q < mc.npage then 1 else 0
    else if (mc.pagesPpn ≤ q ∧ q < mc.pagesPpn + mc.pagesLen) ∨ (mc.envsPpn ≤ q ∧ q < mc.envsPpn + envsLen) then 2
    else 1
  word q i :=
    if q = mc.bootPgdir then
      if i = PDX UPAGES then Pmap.tablePde mc.pagesTable
      else if i = PDX UENVS then Pmap.tablePde mc.envsTable
      else 0
    else if q = mc.pagesTable then
      if (i : Nat) < mc.pagesLen then Pmap.segmentPte (mc.pagesPpn + i) PTE_G else 0
    else if q = mc.envsTable then
      if (i : Nat) < envsLen then Pmap.segmentPte (mc.envsPpn + i) PTE_G else 0
    else 0
  tlb := []

private theorem freeList_eq : ((List.range mc.npage).drop mc.used).reverse =
    mc.bootPgdir :: mc.pagesTable :: mc.envsTable :: mc.bootFree := by
  have hr := mc.room
  have hn : mc.npage = mc.npage - 3 + 1 + 1 + 1 := by omega
  have hle : mc.used ≤ mc.npage - 3 := by simp only [used, pagesLen]; omega
  rw [hn, List.range_succ, List.range_succ, List.range_succ, List.append_assoc, List.append_assoc,
    List.drop_append_of_le_length (by simpa using hle)]
  simp only [List.reverse_append, bootFree, bootPgdir, pagesTable, envsTable]
  simp only [List.reverse_cons, List.reverse_nil, List.nil_append, List.cons_append, List.cons.injEq, and_true]
  omega

private theorem pageInit_pageAlloc : ∃ m, (Pmap.pageInit mc.npage mc.used).pageAlloc = some (mc.bootPgdir, m) ∧
    m.setRef mc.bootPgdir (m.ppRef mc.bootPgdir + 1) = mc.pmap₀ := by
  have hr := mc.room
  have hle : ¬mc.bootPgdir < mc.used := by simp only [used, bootPgdir, pagesLen]; omega
  refine ⟨_, by simp only [Pmap.pageInit, Pmap.pageAlloc, freeList_eq]; rfl, ?_⟩
  simp only [Pmap.setRef, pmap₀, Pmap.mk.injEq, true_and, and_true]
  constructor
  · funext q
    by_cases hq : q = mc.bootPgdir
    · subst hq; simp [hle]
    · rw [Function.update_of_ne hq, if_neg hq]
  · funext q
    by_cases hq : q = mc.bootPgdir
    · subst hq; simp
    · rw [Function.update_of_ne hq]

private theorem pmap₀_window :
    ((mc.pmap₀.segment mc.bootPgdir mc.pagesTable (mc.envsTable :: mc.bootFree) (PDX UPAGES) mc.pagesPpn mc.pagesLen
      PTE_G).segment mc.bootPgdir mc.envsTable mc.bootFree (PDX UENVS) mc.envsPpn envsLen PTE_G) = mc.bootPmap := by
  have hr := mc.room
  have he := mc.envs_le
  have hne : PDX UENVS ≠ PDX UPAGES := by decide
  simp only [Pmap.segment, pmap₀, bootPmap, Pmap.mk.injEq, true_and, and_true]
  constructor
  · funext q
    have hb : mc.bootPgdir = mc.npage - 1 := rfl
    have hp : mc.pagesTable = mc.npage - 2 := rfl
    have ht : mc.envsTable = mc.npage - 3 := rfl
    have hu : mc.used = mc.pagesPpn + mc.pagesLen := rfl
    have hl : mc.pagesLen = (mc.npage * 12 + 4095) / 4096 := rfl
    have hel : envsLen = 251 := rfl
    by_cases h1 : mc.used ≤ q
    · rw [if_pos h1]
      by_cases h2 : mc.npage - 3 ≤ q ∧ q < mc.npage
      · rw [if_pos h2]
        obtain h | h | h : q = mc.npage - 3 ∨ q = mc.npage - 2 ∨ q = mc.npage - 1 := by omega
        · rw [if_pos (by omega)]
        · rw [if_neg (by omega), if_neg (by omega), if_pos (by omega)]
        · rw [if_neg (by omega), if_neg (by omega), if_neg (by omega), if_neg (by omega), if_pos (by omega)]
      · rw [if_neg h2, if_neg (by omega), if_neg (by omega), if_neg (by omega), if_neg (by omega),
          if_neg (by omega), if_neg (by omega)]
    · rw [if_neg h1]
      by_cases h2 : mc.pagesPpn ≤ q
      · rw [if_neg (by omega), if_neg (by omega), if_neg (by omega), if_pos (by omega), if_neg (by omega),
          if_pos (by omega), if_pos (by omega)]
        rfl
      · by_cases h3 : mc.envsPpn ≤ q ∧ q < mc.envsPpn + envsLen
        · rw [if_neg (by omega), if_pos h3, if_neg (by omega), if_neg (by omega), if_neg (by omega),
            if_pos (by omega), if_pos (by omega)]
          rfl
        · rw [if_neg (by omega), if_neg h3, if_neg (by omega), if_neg (by omega), if_neg (by omega),
            if_pos (by omega), if_neg (by omega)]
  · funext q i
    by_cases hp : q = mc.bootPgdir
    · have h1 : q ≠ mc.pagesTable := by simp only [hp, bootPgdir, pagesTable]; omega
      have h2 : q ≠ mc.envsTable := by simp only [hp, bootPgdir, envsTable]; omega
      subst hp
      simp only [h1, h2, if_true, if_false, true_and]
      by_cases hu : i = PDX UENVS
      · simp [hu, hne]
      · simp [hu]
    · simp only [hp, if_false, false_and]
      by_cases ht : q = mc.envsTable
      · have h1 : q ≠ mc.pagesTable := by simp only [ht, pagesTable, envsTable]; omega
        subst ht
        simp [h1]
      · simp [ht]

/-- On every machine the initialisation succeeds and leaves the memory `bootPmap`. -/
private theorem initPmap_eq : mc.initPmap = some (mc.bootPgdir, mc.bootPmap) := by
  have hr := mc.room
  have he := mc.envs_le
  have hk := mc.kseg0
  obtain ⟨m, hm, hm₀⟩ := mc.pageInit_pageAlloc
  have hpages : mc.pmap₀.mapSegment mc.bootPgdir 0 mc.pagesPpn UPAGES mc.pagesLen PTE_G = some _ :=
    Pmap.mapSegment_eq (t := mc.pagesTable) rfl (has_zero _) rfl (by decide) (by simp only [pagesTable, bootPgdir]; omega)
      (by simp only [pagesTable, pmap₀]; omega) (by simp only [pagesTable, pagesLen]; omega)
      (by simp only [pmap₀]; omega) (by simp only [pagesLen]; omega) (by simp only [pagesLen]; omega)
  have henvs : (mc.pmap₀.segment mc.bootPgdir mc.pagesTable (mc.envsTable :: mc.bootFree) (PDX UPAGES) mc.pagesPpn
      mc.pagesLen PTE_G).mapSegment mc.bootPgdir 0 mc.envsPpn UENVS envsLen PTE_G = some _ :=
    Pmap.mapSegment_eq (t := mc.envsTable) rfl
      (by
        have h1 : mc.bootPgdir ≠ mc.pagesTable := by simp only [pagesTable, bootPgdir]; omega
        have h2 : PDX UENVS ≠ PDX UPAGES := by decide
        simp [Pmap.segment, h1, h2, pmap₀])
      rfl (by decide) (by simp only [envsTable, bootPgdir]; omega)
      (by simp only [envsTable, Pmap.segment, pmap₀]; omega) (by simp only [envsTable, envsLen]; omega)
      (by simp only [Pmap.segment, pmap₀]; omega) (by decide) (by decide)
  simp only [initPmap, hm, Option.bind_some, hm₀, hpages, henvs, Option.map_some, pmap₀_window]

/-- The kernel after the initialisation. -/
def bootKern : Kern where
  envs := fun _ => .zero
  curenv := none
  envFreeList := List.finRange NENV
  sched := TailQueue.clear ⟨none, none, fun _ => none, fun _ => none⟩
  asidBitmap := fun _ => false
  basePgdir := mc.bootPgdir
  pm := mc.bootPmap
  mkenvidI := 0
  count := 0
  signos := fun n => ⟨0, if h : (n : Nat) + 1 < MAX_SIG_NUM then some ⟨n + 1, h⟩ else none⟩
  signoFreeList := some 0
  ktf := .zero
  cpu := .zero
  umem := fun _ => 0

private theorem boot_eq : mc.boot = some mc.bootKern := by
  rw [boot, initPmap_eq]; rfl

/-! ### Runs from the start -/

/-- The machine of the emulator: 64 MiB, the environments in the kernel image and the pages at `end`. -/
def gxemul : Machine := ⟨0x4000, 0x40, 0x400, by decide, by decide, by decide⟩

/-- The state after the initialisation and a list of events that `ok` admits. -/
def after (mc : Machine) (ok : State → Event → Bool) (evs : List Event) : Option State :=
  kernel.run ok ⟨.user, mc.bootKern⟩ evs

theorem after_reach {mc : Machine} {ok : State → Event → Bool} {evs : List Event} {s : State}
    (h : mc.after ok evs = some s) : kernel.Reach (fun s ev => ok s ev) s :=
  .run (.start ⟨rfl, mc, mc.boot_eq⟩) h

end Machine

/-- The system starts with user code and a booted kernel. -/
theorem init_iff {s : State} : kernel.init s ↔ ∃ mc : Machine, s = ⟨.user, mc.bootKern⟩ := by
  obtain ⟨phase, k⟩ := s
  constructor
  · rintro ⟨rfl, mc, hb⟩
    exact ⟨mc, congrArg (State.mk .user) (Option.some.inj (hb.symm.trans mc.boot_eq))⟩
  · rintro ⟨mc, h⟩
    cases h
    exact ⟨rfl, mc, mc.boot_eq⟩

def State.inUser (s : State) : Bool := match s.phase with
  | .user => true
  | _ => false

/-- A register file with `$a0` to `$a3` and a stack pointer. -/
def argRegs (a₀ a₁ a₂ a₃ : Word) (i : Fin 32) : Word :=
  if i = 4 then a₀ else if i = 5 then a₁ else if i = 6 then a₂ else if i = 7 then a₃
  else if i = 29 then USTACKTOP - 0x200 else 0

/-- User code with given registers and memory is interrupted, and the exception is handled. -/
def trapEvents (regs : Fin 32 → Word) (umem : Word → Word) (x : Exception) : List Event :=
  [.trap ⟨regs, 0, 0, 0, 0, 0, UTEXT, umem⟩ x, .handle, .ret]

/-- System call `n` with up to three arguments. -/
def callEvents (n a₁ a₂ a₃ : Word) : List Event := trapEvents (argRegs n a₁ a₂ a₃) (fun _ => 0) (.syscall 0)

/-- A timer interrupt. -/
def tickEvents : List Event := trapEvents (argRegs 0 0 0 0) (fun _ => 0) .tick

/-- An image that loads no page. -/
def Image.empty : Image := ⟨UTEXT, [], nofun, nofun⟩

end Mos
