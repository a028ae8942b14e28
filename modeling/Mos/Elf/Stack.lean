import Mos.Elf.Mapper

/-!
# The stack of a new program (`init_stack` of `user/lib/spawn.c`)

The arguments are written to a page of the caller, the strings at its end, the array of pointers below them, and the two
words that `_start` loads below the array; then the page becomes that at the top of the stack of the child.
-/

namespace Mos

/-- A string without its end. -/
abbrev ArgStr := { s : List Byte // 0 ∉ s }

def ArgStr.strlen (s : ArgStr) : Word := BitVec.ofNat 32 s.1.length

/-- The `int`s that the first loop computes. -/
def argc (argv : List ArgStr) : Word := BitVec.ofNat 32 argv.length
def tot (argv : List ArgStr) : Word := argv.foldl (fun tot s => tot + (s.strlen + 1)) 0

/-- The check of the size. -/
def stackFits (argv : List ArgStr) : Bool := !(BY2PG < ROUND (tot argv) 4 + 4 * (argc argv + 3))

/-- Where the strings and the array are. -/
def stringsAt (argv : List ArgStr) : Word := UTEMP + BY2PG - tot argv
def argsAt (argv : List ArgStr) : Word := UTEMP + BY2PG - ROUND (tot argv) 4 - 4 * (argc argv + 1)

/-- The address that the child has for an address in the page at `UTEMP`. -/
def toChild (a : Word) : Word := USTACKTOP - UTEMP - BY2PG + a

/-- `*init_sp`. -/
def initSp (argv : List ArgStr) : Word := toChild (argsAt argv - 8)

/-! ### The writes -/

inductive StackWrite where
  | byte (a : Word) (b : Byte)
  | word (a w : Word)

/-- The offset in the page at `UTEMP`. -/
def offsetAt (a : Word) : Nat := (a - UTEMP).toNat

def StackWrite.inside : StackWrite → Bool
  | .byte a _ => offsetAt a < 4096
  | .word a _ => offsetAt a + 4 ≤ 4096

/-- A string and its end. -/
def copyString : Word → List Byte → List StackWrite
  | ctemp, [] => [.byte ctemp 0]
  | ctemp, b :: s => .byte ctemp b :: copyString (ctemp + 1) s

def copyStrings : Word → List ArgStr → List StackWrite
  | _, [] => []
  | ctemp, s :: argv => copyString ctemp s.1 ++ copyStrings (ctemp + (s.strlen + 1)) argv

def argPointers : Word → Word → List ArgStr → List StackWrite
  | _, _, [] => []
  | args, ctemp, s :: argv => .word args ctemp :: argPointers (args + 4) (ctemp + (s.strlen + 1)) argv

/-- `ctemp` after the loop that writes the pointers. -/
def lastPointer (ctemp : Word) (argv : List ArgStr) : Word := argv.foldl (fun ctemp s => ctemp + (s.strlen + 1)) ctemp

/-- All writes in their order. -/
def stackWrites (argv : List ArgStr) : List StackWrite :=
  copyStrings (stringsAt argv) argv ++ argPointers (argsAt argv) (toChild (stringsAt argv)) argv ++
    -- the word behind the last pointer, then the two words for `_start`
    [.word (argsAt argv + 4 * argc argv) (lastPointer (toChild (stringsAt argv)) argv - 1),
      .word (argsAt argv - 4) (toChild (argsAt argv)), .word (argsAt argv - 8) (argc argv)]

/-- The bytes of the page after a write; other memory is not part of it. -/
def StackWrite.store (f : Nat → Byte) (w : StackWrite) : Nat → Byte :=
  if w.inside then
    match w with
    | .byte a b => Function.update f (offsetAt a) b
    | .word a w => fun x => if offsetAt a ≤ x ∧ x < offsetAt a + 4 then wordByte w (x - offsetAt a) else f x
  else f

/-- The words of a page with the given bytes. -/
def frameOf (f : Nat → Byte) : Idx → Word := fun i => readWord f (4 * i)

def stackBytes (argv : List ArgStr) : Nat → Byte := (stackWrites argv).foldl StackWrite.store fun _ => 0

/-- What `init_stack` makes of the page that it allocates. -/
def stackPage (argv : List ArgStr) : Option (Idx → Word) :=
  if stackFits argv then some (frameOf (stackBytes argv)) else none

/-! ### What the child is to find -/

/-- The page of the child at the top of its stack. -/
def stackBase : Word := USTACKTOP - BY2PG

/-- In a page with the bytes `f`: `argc` and the address of the array at offset `s`, the array at `a`, and the strings at
`o`. -/
structure ArgsAt (argv : List ArgStr) (sp : Word) (f : Nat → Byte) (s a : Nat) (o : Nat → Nat) : Prop where
  sp : sp = stackBase + BitVec.ofNat 32 s
  sp_le : s + 8 ≤ 4096
  argc : readWord f s = argc argv
  array : readWord f (s + 4) = stackBase + BitVec.ofNat 32 a
  array_le : a + 4 * (argv.length + 1) ≤ 4096
  pointer : ∀ i < argv.length, readWord f (a + 4 * i) = stackBase + BitVec.ofNat 32 (o i)
  string_le : ∀ i (h : i < argv.length), o i + argv[i].1.length + 1 ≤ 4096
  string : ∀ i (h : i < argv.length) j (hj : j < argv[i].1.length), f (o i + j) = argv[i].1[j]
  nul : ∀ i (h : i < argv.length), f (o i + argv[i].1.length) = 0
  apart : ∀ i j (hi : i < argv.length) (hj : j < argv.length), i < j →
    o i + argv[i].1.length + 1 ≤ o j ∨ o j + argv[j].1.length + 1 ≤ o i
  array_apart : ∀ i (h : i < argv.length), a + 4 * (argv.length + 1) ≤ o i ∨ o i + argv[i].1.length + 1 ≤ a

/-- The same with the end of the array. -/
def ArgLayout (argv : List ArgStr) (sp : Word) (P : Idx → Word) : Prop :=
  ∃ s a o, ArgsAt argv sp (frameByte P) s a o ∧ readWord (frameByte P) (a + 4 * argv.length) = 0

open Kern in
/-- What `init_stack` is to do for `e`, the child of `cur` with the id `child`. -/
structure InitStackOk (argv : List ArgStr) (k : Kern) (cur e : EnvPtr) (child : Word) : Prop where
  short : stackFits argv = false → initStack cur child (stackPage argv) k = some (-E_NO_MEM, k)
  inside : stackFits argv = true → ∀ w ∈ stackWrites argv, w.inside = true
  layout : stackFits argv = true → ∀ k', initStack cur child (stackPage argv) k = some (0, k') →
    ∃ flags P, k'.mem.page e (VPN stackBase) = some (flags, P) ∧ ArgLayout argv (initSp argv) P

/-! ### Reading words -/

private theorem wordByte_readWord (f : Nat → Byte) (o : Nat) {k : Nat} (hk : k < 4) : wordByte (readWord f o) k =
    f (o + k) := by
  apply BitVec.eq_of_getLsbD_eq
  intro i hi
  rw [wordByte, BitVec.getLsbD_extractLsb', readWord, BitVec.getLsbD_append, BitVec.getLsbD_append,
    BitVec.getLsbD_append]
  simp only [hi, decide_true, Bool.true_and]
  obtain rfl | rfl | rfl | rfl : k = 0 ∨ k = 1 ∨ k = 2 ∨ k = 3 := by omega
  · have hidx : 8 * 0 + i = i := by omega
    rw [if_pos (by omega), hidx, Nat.add_zero]
  · have hidx : 8 * 1 + i - 8 = i := by omega
    rw [if_neg (by omega), if_pos (by omega), hidx]
  · have hidx : 8 * 2 + i - 8 - 8 = i := by omega
    rw [if_neg (by omega), if_neg (by omega), if_pos (by omega), hidx]
  · have hidx : 8 * 3 + i - 8 - 8 - 8 = i := by omega
    rw [if_neg (by omega), if_neg (by omega), if_neg (by omega), hidx]

private theorem readWord_eq {f : Nat → Byte} {o : Nat} {w : Word} (h : ∀ k < 4, f (o + k) = wordByte w k) : readWord f o =
    w :=
  word_ext fun k hk => (wordByte_readWord f o hk).trans (h k hk)

theorem readWord_congr {f g : Nat → Byte} {o : Nat} (h : ∀ k < 4, f (o + k) = g (o + k)) : readWord f o = readWord g o :=
  readWord_eq fun k hk => (h k hk).trans (wordByte_readWord g o hk).symm

private theorem frameByte_frameOf (f : Nat → Byte) {x : Nat} (hx : x < 4096) : frameByte (frameOf f) x = f x := by
  have hidx : x / 4 % 1024 = x / 4 := by omega
  have hsum : 4 * (x / 4) + x % 4 = x := by omega
  rw [frameByte, frameOf, wordByte_readWord _ _ (Nat.mod_lt _ (by decide))]
  simp only [hidx, hsum]

/-! ### The last word of the array -/

variable {argv : List ArgStr} {f : Nat → Byte} {a w : Word} {o : Nat}

private theorem lastPointer_eq (c : Word) (argv : List ArgStr) : lastPointer c argv = c + tot argv := by
  have hfold : ∀ (argv : List ArgStr) (c t : Word),
      argv.foldl (fun ctemp s => ctemp + (s.strlen + 1)) (c + t) = c + argv.foldl (fun tot s => tot + (s.strlen + 1)) t := by
    intro argv
    induction argv with
    | nil => exact fun _ _ => rfl
    | cons s argv ih =>
      intro c t
      rw [List.foldl_cons, List.foldl_cons, BitVec.add_assoc, ih]
  have hzero : c + 0 = c := BitVec.add_zero ..
  have h := hfold argv c 0
  rwa [hzero] at h

/-- What ends the array is the address of the last byte of the page. -/
private theorem last_word (argv : List ArgStr) : lastPointer (toChild (stringsAt argv)) argv - 1 = USTACKTOP - 1 := by
  rw [lastPointer_eq, toChild, stringsAt]
  have hsum : USTACKTOP - UTEMP - BY2PG + (UTEMP + BY2PG - tot argv) + tot argv = USTACKTOP := by
    rw [BitVec.add_assoc, BitVec.sub_add_cancel]
    decide
  rw [hsum]

/-- A word that is written can be read. -/
private theorem store_word_self (h : (StackWrite.word a w).inside = true) : readWord (StackWrite.store f (.word a w))
    (offsetAt a) = w := by
  refine readWord_eq fun k hk => ?_
  rw [StackWrite.store, if_pos h]
  have hsub : offsetAt a + k - offsetAt a = k := by omega
  simp only [hsub]
  rw [if_pos (by omega)]

private theorem store_word_other (ho : o + 4 ≤ offsetAt a ∨ offsetAt a + 4 ≤ o) :
    readWord (StackWrite.store f (.word a w)) o = readWord f o := by
  refine readWord_congr fun k hk => ?_
  rw [StackWrite.store]
  split
  case isTrue =>
    dsimp only
    rw [if_neg (by omega)]
  case isFalse => rfl

/-- Offsets add up in the page. -/
private theorem offsetAt_add {n : Nat} (hn : offsetAt a + n < 2 ^ 32) : offsetAt (a + BitVec.ofNat 32 n) =
    offsetAt a + n := by
  have hcomm : a + BitVec.ofNat 32 n - UTEMP = a - UTEMP + BitVec.ofNat 32 n := by
    rw [BitVec.sub_eq_add_neg, BitVec.sub_eq_add_neg, BitVec.add_assoc, BitVec.add_comm (BitVec.ofNat 32 n),
      ← BitVec.add_assoc]
  rw [offsetAt, hcomm, BitVec.toNat_add, BitVec.toNat_ofNat]
  have hlt : n < 2 ^ 32 := by
    unfold offsetAt at hn
    omega
  rw [Nat.mod_eq_of_lt hlt]
  exact Nat.mod_eq_of_lt hn

private theorem mem_argPointers {a c : Word} {argv : List ArgStr} {i : Nat} (hi : i < argv.length) :
    ∃ w, StackWrite.word (a + BitVec.ofNat 32 (4 * i)) w ∈ argPointers a c argv := by
  induction argv generalizing a c i with
  | nil => exact absurd hi (Nat.not_lt_zero _)
  | cons s argv ih =>
    cases i with
    | zero =>
      refine ⟨c, ?_⟩
      have hzero : a + BitVec.ofNat 32 (4 * 0) = a := BitVec.add_zero ..
      rw [hzero]
      exact List.mem_cons_self ..
    | succ i =>
      obtain ⟨w, hw⟩ := ih (a := a + 4) (c := c + (s.strlen + 1)) (Nat.lt_of_succ_lt_succ hi)
      refine ⟨w, List.mem_cons_of_mem _ ?_⟩
      have hadd : a + BitVec.ofNat 32 (4 * (i + 1)) = a + 4 + BitVec.ofNat 32 (4 * i) := by
        have hsplit : 4 * (i + 1) = 4 + 4 * i := by omega
        rw [hsplit, BitVec.ofNat_add, ← BitVec.add_assoc]
        rfl
      rw [hadd]
      exact hw

private theorem four_argc (argv : List ArgStr) : 4 * argc argv = BitVec.ofNat 32 (4 * argv.length) := by
  rw [argc, BitVec.ofNat_mul]
  rfl

/-- The writes after the strings and the pointers. -/
private theorem mem_lastWrites {x : StackWrite} (hx : x ∈ [StackWrite.word (argsAt argv + 4 * argc argv)
    (lastPointer (toChild (stringsAt argv)) argv - 1), .word (argsAt argv - 4) (toChild (argsAt argv)),
    .word (argsAt argv - 8) (argc argv)]) : x ∈ stackWrites argv := List.mem_append_right _ hx

private theorem inside_word (h : (StackWrite.word a w).inside = true) : offsetAt a + 4 ≤ 4096 := of_decide_eq_true h

/-- Where all writes are inside, the two words and the array follow each other in the page. -/
private theorem inside_array (h : ∀ w ∈ stackWrites argv, w.inside = true) : ∃ s, offsetAt (argsAt argv - 8) = s ∧
    offsetAt (argsAt argv - 4) = s + 4 ∧ offsetAt (argsAt argv) = s + 8 ∧
    offsetAt (argsAt argv + 4 * argc argv) = s + 8 + 4 * argv.length ∧ s + 8 + 4 * argv.length + 4 ≤ 4096 := by
  have hlast := inside_word (h _ (mem_lastWrites (List.mem_cons_self ..)))
  have hsp := inside_word (h _ (mem_lastWrites (List.mem_cons_of_mem _ (List.mem_cons_of_mem _ (List.mem_cons_self ..)))))
  have h4 : offsetAt (argsAt argv - 4) = offsetAt (argsAt argv - 8) + 4 := by
    have hadd : argsAt argv - 4 = argsAt argv - 8 + BitVec.ofNat 32 4 := by
      rw [BitVec.sub_eq_add_neg, BitVec.sub_eq_add_neg, BitVec.add_assoc]
      rfl
    rw [hadd, offsetAt_add (by omega)]
  have h8 : offsetAt (argsAt argv) = offsetAt (argsAt argv - 8) + 8 := by
    have hadd : argsAt argv = argsAt argv - 8 + BitVec.ofNat 32 8 := (BitVec.sub_add_cancel ..).symm
    have hoff := offsetAt_add (a := argsAt argv - 8) (n := 8) (by omega)
    rwa [← hadd] at hoff
  have hinside : ∀ i < argv.length, offsetAt (argsAt argv + BitVec.ofNat 32 (4 * i)) + 4 ≤ 4096 := by
    intro i hi
    obtain ⟨w, hw⟩ := mem_argPointers (a := argsAt argv) (c := toChild (stringsAt argv)) hi
    exact inside_word (h _ (List.mem_append_left _ (List.mem_append_right _ hw)))
  rw [four_argc] at hlast ⊢
  -- the pointer number 1024 would be behind the page
  have hlen : argv.length < 1024 := by
    by_contra hge
    have hoff := offsetAt_add (a := argsAt argv) (n := 4 * 1024) (by omega)
    rcases Nat.lt_or_ge 1024 argv.length with hlt | hle
    · have hin := hinside 1024 hlt
      omega
    · have heq : argv.length = 1024 := by omega
      rw [heq] at hlast
      omega
  have hoff := offsetAt_add (a := argsAt argv) (n := 4 * argv.length) (by omega)
  exact ⟨_, rfl, h4, h8, by omega, by omega⟩

/-- The bytes before the last three writes. -/
def argBytes (argv : List ArgStr) : Nat → Byte :=
  (copyStrings (stringsAt argv) argv ++ argPointers (argsAt argv) (toChild (stringsAt argv)) argv).foldl
    StackWrite.store fun _ => 0

private theorem stackBytes_eq (argv : List ArgStr) : stackBytes argv = StackWrite.store (StackWrite.store (StackWrite.store
    (argBytes argv) (.word (argsAt argv + 4 * argc argv) (lastPointer (toChild (stringsAt argv)) argv - 1)))
    (.word (argsAt argv - 4) (toChild (argsAt argv)))) (.word (argsAt argv - 8) (argc argv)) := by
  rw [stackBytes, stackWrites, List.foldl_append, List.foldl_cons, List.foldl_cons, List.foldl_cons, List.foldl_nil,
    argBytes]

/-- The words of the array's end and below the array, in the page. -/
private theorem stackBytes_words (h : ∀ w ∈ stackWrites argv, w.inside = true) {s : Nat}
    (hs : offsetAt (argsAt argv - 8) = s) :
    readWord (stackBytes argv) s = argc argv ∧ readWord (stackBytes argv) (s + 4) = toChild (argsAt argv) ∧
      readWord (stackBytes argv) (s + 8 + 4 * argv.length) = USTACKTOP - 1 := by
  obtain ⟨s', hs', h4, -, hend, hle⟩ := inside_array h
  obtain rfl : s = s' := hs.symm.trans hs'
  have hend' := h _ (mem_lastWrites (List.mem_cons_self ..))
  have harray := h _ (mem_lastWrites (List.mem_cons_of_mem _ (List.mem_cons_self ..)))
  have hargc := h _ (mem_lastWrites (List.mem_cons_of_mem _ (List.mem_cons_of_mem _ (List.mem_cons_self ..))))
  rw [stackBytes_eq]
  refine ⟨?_, ?_, ?_⟩
  · rw [← hs]
    exact store_word_self hargc
  · rw [store_word_other (by omega), ← h4]
    exact store_word_self harray
  · rw [store_word_other (by omega), store_word_other (by omega), ← hend, store_word_self hend', last_word]

/-! ### The page of the child -/

namespace Kern

variable {mc : Machine} {k k' : Kern} {m m₀ : Pmap} {cur e : EnvPtr} {child : Word}

/-- The page that `init_stack` fills becomes that at the top of the stack of `e`, and nothing else changes for `e`. -/
private theorem initStack_effect {leak : Nat → Nat} (hb : Builder k cur e child) (hok : Mem.Ok mc leak ⟨k.dirs, m⟩)
    {page : Idx → Word} (hr : initStack cur child (some page) (k.setPm m) = some (0, k')) :
    ∃ m' q, k' = k.setPm m' ∧ (∃ leak', Mem.Ok mc leak' ⟨k.dirs, m'⟩) ∧
      Mem.Puts ⟨k.dirs, m⟩ e (VPN stackBase) q PTE_D ⟨k.dirs, m'⟩ ∧ q < 2 ^ 20 ∧ m'.word q = page ∧
      ∀ v w, v.1 < PDX UTOP → Mem.user ⟨k.dirs, m'⟩ cur v = some w → Mem.user ⟨k.dirs, m⟩ cur v = some w := by
  have hperm : PPN PTE_D = 0 := by decide
  have hbase : PDX stackBase < PDX UTOP := by decide
  have hne0 : ∀ {r : Word}, r.slt 0 = true → r ≠ 0 := by
    rintro r hr rfl
    exact absurd hr (by decide)
  obtain ⟨⟨r, k₁⟩, halloc, hr₁⟩ := Option.bind_eq_some_iff.1 hr
  dsimp only at hr₁
  split at hr₁
  case isTrue hneg =>
    simp only [Option.some.injEq, Prod.mk.injEq] at hr₁
    exact absurd hr₁.1 (hne0 hneg)
  case isFalse hneg =>
  obtain ⟨rfl, -, p, rest, d, m₁, hl, hd, hins, rfl⟩ := memAlloc_cases (envid2env_zero ..) hb.live
    (by simpa using hneg) halloc
  have hfresh := hok.fresh (q := p) (by rw [hl]; exact List.mem_cons_self ..)
  have hp := hok.free_lt (p := p) (by rw [hl]; exact List.mem_cons_self ..)
  obtain ⟨⟨leak₁, hok₁⟩, hputs, -, href, hother⟩ := hok.map_new hd utemp_low hl hperm hins
  have hpperm : PPN (Pmap.newPte p PTE_D) = p := Mem.PPN_newPte hp hperm
  -- the page is filled
  obtain ⟨pp, hframe, hr₂⟩ := Option.bind_eq_some_iff.1 hr₁
  obtain ⟨-, w, -, hw, hq⟩ := frameAt_cases hb.live hframe
  rw [hputs.self] at hw
  obtain rfl := Option.some.inj hw
  obtain rfl : pp = p := hq.symm.trans hpperm
  have htgt : Mos.target mc k.dirs m₁.word (.pte cur (PDX UTEMP) (PTX UTEMP)) = some pp :=
    hpperm ▸ Mem.user_target mc (s := ⟨k.dirs, m₁⟩) (v := VPN UTEMP) utemp_low hputs.self
  have hdata := hok₁.tree.data_of_pte htgt
  have hok₂ := hok₁.setFrame hdata.notTree page
  have huser₂ : ∀ x v, v.1 < PDX UTOP → Mem.user ⟨k.dirs, m₁.setFrame pp page⟩ x v = Mem.user ⟨k.dirs, m₁⟩ x v :=
    fun x v hv => hok₁.setFrame_user hdata.notTree page hv
  -- no page of `e` is in the frame yet
  have hapart : ∀ v w, v.1 < PDX UTOP → Mem.user ⟨k.dirs, m₁⟩ e v = some w → PPN w ≠ pp := by
    intro v w hv hw heq
    rw [(hother e v hb.ne hv).1] at hw
    exact hfresh.unused _ (heq ▸ Mem.user_target mc hv hw)
  have hpage₂ : ∀ v, v.1 < PDX UTOP →
      Mem.page ⟨k.dirs, m₁.setFrame pp page⟩ e v = Mem.page ⟨k.dirs, m⟩ e v := fun v hv =>
    (hok₁.setFrame_page hdata.notTree page hv fun w => hapart v w hv).trans (hother e v hb.ne hv).2
  -- the child gets it
  obtain ⟨⟨r, k₂⟩, hmap, hr₃⟩ := Option.bind_eq_some_iff.1 hr₂
  dsimp only at hr₃
  split at hr₃
  case isTrue hneg =>
    obtain ⟨⟨_, k₃⟩, -, heq⟩ := Option.map_eq_some_iff.1 hr₃
    exact absurd (congrArg Prod.fst heq) (hne0 hneg)
  case isFalse hneg =>
  obtain ⟨rfl, -, -, q, pte, ds, dd, m₃, hds, hlook, hdd, hins₃, rfl⟩ := memMap_cases (k := k)
    (m := m₁.setFrame pp page) (envid2env_zero ..) hb.child hb.live hb.child_live (by simpa using hneg) hmap
  obtain ⟨w, hw, hq'⟩ := Mem.user_of_lookup hds hlook
  rw [huser₂ cur (VPN UTEMP) utemp_low, hputs.self] at hw
  obtain rfl := Option.some.inj hw
  obtain rfl : q = pp := hq'.symm.trans hpperm
  have hself₂ : Mem.user ⟨k.dirs, m₁.setFrame q page⟩ cur (VPN UTEMP) = some (Pmap.newPte q PTE_D) :=
    (huser₂ cur (VPN UTEMP) utemp_low).trans hputs.self
  obtain ⟨hmoves, hst⟩ := hok₂.share (v := VPN UTEMP) utemp_low hself₂ hpperm href hdd hbase hperm hins₃
  obtain ⟨leak₃, hok₃, -⟩ := hok₂.moves hmoves
  have htgt₂ := Mem.user_target mc (s := ⟨k.dirs, m₁.setFrame q page⟩) (v := VPN UTEMP) utemp_low hself₂
  rw [hpperm] at htgt₂
  have hcontent : m₃.word q = page :=
    (hok₂.moves_content hmoves hb.ne.symm htgt₂).trans (Pmap.setFrame_word_self m₁ q page)
  have hpage₃ : ∀ v, v.1 < PDX UTOP → v ≠ VPN stackBase → Mem.page ⟨k.dirs, m₃⟩ e v = Mem.page ⟨k.dirs, m⟩ e v := by
    intro v hv hne
    refine (Mem.page_congr (hst.other v hv hne) fun w hw => ?_).trans (hpage₂ v hv)
    have htgtw := Mem.user_target mc hv hw
    exact hok₂.pageInsert_word hdd hbase hins₃ (hok₂.tree.data_of_pte htgtw).notTree (hok₂.refs.notMem_free htgtw)
  -- the window is closed
  obtain ⟨⟨r, k₄⟩, hun, hr₄⟩ := Option.bind_eq_some_iff.1 hr₃
  dsimp only at hr₄
  split at hr₄
  case isTrue hneg =>
    obtain ⟨⟨_, k₅⟩, -, heq⟩ := Option.map_eq_some_iff.1 hr₄
    exact absurd (congrArg Prod.fst heq) (hne0 hneg)
  case isFalse hneg =>
  obtain rfl : k₄ = k' := congrArg Prod.snd (Option.some.inj hr₄)
  obtain ⟨-, d', m₄, hd', hrem, rfl⟩ := memUnmap_cases (k := k) (m := m₃) (envid2env_zero ..) hb.live
    (by simpa using hneg) hun
  have hmoves₄ : Moves mc .any cur (k.envs cur).envAsid ⟨k.dirs, m₃⟩ ⟨k.dirs, m₄⟩ :=
    hok₃.pageRemove_moves hd' utemp_low hrem
  obtain ⟨leak₄, hok₄, -⟩ := hok₃.moves hmoves₄
  have hst₄ := hok₃.pageRemove_stores hd' utemp_low hrem
  have huser₄ : ∀ v, v.1 < PDX UTOP → Mem.user ⟨k.dirs, m₄⟩ e v = Mem.user ⟨k.dirs, m₃⟩ e v := fun v hv =>
    hok₃.moves_user hmoves₄ hb.ne hv
  have hputs₃ : Mem.Puts ⟨k.dirs, m⟩ e (VPN stackBase) q PTE_D ⟨k.dirs, m₃⟩ := by
    refine ⟨hst.self, fun v hv hne => ?_, hpage₃, fun v w hv hne hw => ?_⟩
    · exact (hst.other v hv hne).trans ((huser₂ e v hv).trans (hother e v hb.ne hv).1)
    · rw [hst.other v hv hne, huser₂ e v hv] at hw
      exact hapart v w hv hw
  have hcontent₄ : m₄.word q = page := by
    have htgt₃ := Mem.user_target mc (s := ⟨k.dirs, m₃⟩) (v := VPN stackBase) hbase hst.self
    rw [hpperm] at htgt₃
    exact (hok₃.moves_content hmoves₄ hb.ne htgt₃).trans hcontent
  refine ⟨m₄, q, rfl, ⟨leak₄, hok₄⟩, ⟨?_, fun v hv hne => ?_, fun v hv hne => ?_, fun v w hv hne hw => ?_⟩, hp, hcontent₄,
    fun v w hv hwv => ?_⟩
  · exact (huser₄ _ hbase).trans hputs₃.self
  · exact (huser₄ v hv).trans (hputs₃.user v hv hne)
  · exact (hok₃.moves_page hmoves₄ hb.ne hv).trans (hputs₃.page v hv hne)
  · exact hputs₃.apart v w hv hne ((huser₄ v hv).symm.trans hw)
  · by_cases hvt : v = VPN UTEMP
    · subst hvt
      rw [hst₄.self] at hwv
      cases hwv
    · rwa [hst₄.other v hv hvt, hok₂.moves_user hmoves hb.ne.symm hv, huser₂ cur v hv, hputs.user v hv hvt] at hwv

/-- The same while the environment is built. -/
theorem Building.initStack (hb : Builder k cur e child) (h : Building mc k cur e m₀ m) {page : Idx → Word}
    (hr : initStack cur child (some page) (k.setPm m) = some (0, k')) :
    ∃ m', k' = k.setPm m' ∧ Building mc k cur e m₀ m' ∧
      Mem.page ⟨k.dirs, m'⟩ e (VPN stackBase) = some ((PTE_D ||| PTE_V) &&& 0xFFF, page) ∧
      ∀ v, v.1 < PDX UTOP → v ≠ VPN stackBase → Mem.page ⟨k.dirs, m'⟩ e v = Mem.page ⟨k.dirs, m⟩ e v := by
  obtain ⟨leak, hok⟩ := h.ok
  obtain ⟨m', q, rfl, hok', hputs, hq, hcontent, hown⟩ := initStack_effect hb hok hr
  have hperm : PPN PTE_D = 0 := by decide
  refine ⟨m', rfl, ⟨hok', hputs.distinct h.distinct (Mem.PPN_newPte hq hperm), fun v w hv hw => ?_⟩, ?_, hputs.page⟩
  · exact h.own v w hv (hown v w hv hw)
  · rw [hputs.page_self hq hperm]
    exact congrArg (fun g => some ((PTE_D ||| PTE_V) &&& 0xFFF, g)) hcontent

end Kern

/-! ### The end of the array -/

private theorem toChild_eq (a : Word) : toChild a = stackBase + BitVec.ofNat 32 (offsetAt a) := by
  have hbase : USTACKTOP - UTEMP - BY2PG = stackBase - UTEMP := by decide
  rw [toChild, hbase, offsetAt, BitVec.ofNat_toNat, BitVec.setWidth_eq, BitVec.sub_eq_add_neg, BitVec.sub_eq_add_neg,
    BitVec.add_assoc, BitVec.add_comm (-UTEMP)]

private theorem offset_unique {x y : Nat} (hx : x < 2 ^ 32) (hy : y < 2 ^ 32)
    (h : stackBase + BitVec.ofNat 32 x = stackBase + BitVec.ofNat 32 y) : x = y := by
  have heq := congrArg BitVec.toNat ((BitVec.add_right_inj _).1 h)
  rwa [BitVec.toNat_ofNat, BitVec.toNat_ofNat, Nat.mod_eq_of_lt hx, Nat.mod_eq_of_lt hy] at heq

/-- Where all writes are inside, the array ends with an address. -/
private theorem not_argLayout (h : ∀ w ∈ stackWrites argv, w.inside = true) :
    ¬ArgLayout argv (initSp argv) (frameOf (stackBytes argv)) := by
  rintro ⟨s', a', o, hargs, hzero⟩
  obtain ⟨s, hs, -, h8, -, hle⟩ := inside_array h
  obtain ⟨-, harray, hlast⟩ := stackBytes_words h hs
  have hread : ∀ x, x + 4 ≤ 4096 → readWord (frameByte (frameOf (stackBytes argv))) x = readWord (stackBytes argv) x :=
    fun x hx => readWord_congr fun k hk => frameByte_frameOf _ (by omega)
  have hsp : s = s' := by
    have hsp := hargs.sp
    rw [initSp, toChild_eq, hs] at hsp
    have hsp' := hargs.sp_le
    exact offset_unique (by omega) (by omega) hsp
  subst hsp
  have ha : s + 8 = a' := by
    have ha := hargs.array
    rw [hread _ (by omega), harray, toChild_eq, h8] at ha
    have ha' := hargs.array_le
    exact offset_unique (by omega) (by omega) ha
  subst ha
  rw [hread _ (by omega), hlast] at hzero
  exact absurd hzero (by decide)

section

open Kern

variable {mc : Machine} {leak : Nat → Nat} {k k' : Kern} {cur e : EnvPtr} {child : Word}

private theorem not_initStackOk (hb : Builder k cur e child) (hok : Mem.Ok mc leak k.mem) (hfits : stackFits argv = true)
    (hr : initStack cur child (stackPage argv) k = some (0, k')) : ¬InitStackOk argv k cur e child := by
  intro h
  obtain ⟨flags, P, hP, hlayout⟩ := h.layout hfits k' hr
  rw [stackPage, if_pos hfits] at hr
  obtain ⟨m', q, rfl, -, hputs, hq, hcontent, -⟩ := initStack_effect (m := k.pm) hb hok hr
  have hperm : PPN PTE_D = 0 := by decide
  have hpage : (k.setPm m').mem.page e (VPN stackBase) = some ((PTE_D ||| PTE_V) &&& 0xFFF, m'.word q) :=
    hputs.page_self hq hperm
  rw [hP] at hpage
  obtain rfl : P = m'.word q := congrArg Prod.snd (Option.some.inj hpage)
  rw [hcontent] at hlayout
  exact not_argLayout (h.inside hfits) hlayout

/-- The arguments are never laid out as they are to be: where they fit, the array does not end with 0. -/
theorem initStackOk_iff (hb : Builder k cur e child) (hok : Mem.Ok mc leak k.mem)
    (hr : stackFits argv = true → initStack cur child (stackPage argv) k = some (0, k')) :
    InitStackOk argv k cur e child ↔ stackFits argv = false := by
  constructor
  · intro h
    by_contra hfits
    have hfits : stackFits argv = true := by simpa using hfits
    exact not_initStackOk hb hok hfits (hr hfits) h
  · intro hfits
    refine ⟨fun _ => ?_, fun h => ?_, fun h => ?_⟩
    · rw [stackPage, hfits]
      rfl
    · rw [hfits] at h
      cases h
    · rw [hfits] at h
      cases h

/-- The arguments `ab` and `c`. -/
def twoArgs : List ArgStr := [⟨[97, 98], by decide⟩, ⟨[99], by decide⟩]

/-- An environment has created another one. -/
private theorem forked_cond : (kernel.trace memAdmits ⟨.user, Machine.gxemul.bootKern⟩
    (.create .empty 1 :: tickEvents ++ callEvents 9 0 0 0)).any fun r =>
      (r.2.kern.envs 0).envStatus ≠ .FREE ∧ r.2.kern.envid2env 0 0x1001 true = some 1 ∧
        (initStack 0 0x1001 (stackPage twoArgs) r.2.kern).any fun x => x.1 = 0 := by decide +kernel

private theorem forked_builder : ∃ (leak : Nat → Nat) (k k' : Kern), Builder k 0 1 0x1001 ∧
    Mem.Ok Machine.gxemul leak k.mem ∧
    initStack 0 0x1001 (stackPage twoArgs) k = some (0, k') := by
  obtain ⟨⟨l, s⟩, hl, hcond⟩ := (Option.any_eq_true _ _).1 forked_cond
  obtain ⟨hlive, hchild, hany⟩ := of_decide_eq_true hcond
  obtain ⟨⟨r, k'⟩, hr, hzero⟩ := (Option.any_eq_true _ _).1 hany
  obtain rfl : r = 0 := of_decide_eq_true hzero
  obtain ⟨leak, hm⟩ := MemOk.of_steps (.of_trace hl)
  exact ⟨leak, s.kern, k', ⟨hlive, hchild, by decide⟩, hm.mem, hr⟩

theorem initStackOk_iff_twoArgs : ∃ (leak : Nat → Nat) (k k' : Kern), Builder k 0 1 0x1001 ∧
    Mem.Ok Machine.gxemul leak k.mem ∧ initStack 0 0x1001 (stackPage twoArgs) k = some (0, k') ∧
      (InitStackOk twoArgs k 0 1 0x1001 ↔ stackFits twoArgs = false) := by
  obtain ⟨leak, k, k', hb, hok, hr⟩ := forked_builder
  exact ⟨leak, k, k', hb, hok, hr, initStackOk_iff hb hok fun _ => hr⟩

/-- The array ends with an address. -/
theorem exists_not_initStackOk : ∃ (leak : Nat → Nat) (k k' : Kern), Builder k 0 1 0x1001 ∧
    Mem.Ok Machine.gxemul leak k.mem ∧ stackFits twoArgs = true ∧
      initStack 0 0x1001 (stackPage twoArgs) k = some (0, k') ∧ ¬InitStackOk twoArgs k 0 1 0x1001 := by
  obtain ⟨leak, k, k', hb, hok, hr⟩ := forked_builder
  exact ⟨leak, k, k', hb, hok, by decide, hr, not_initStackOk hb hok (by decide) hr⟩

end

end Mos
