import Mos.Inv.Access
import Mos.Str.Memcpy

/-!
# The buffer of `debugf`

`debug_output` and `debug_flush` (`user/lib/debugf.c`).  What is written goes to a buffer, which is passed to
`syscall_print_cons` whenever it is full.  Before each call of `debug_output` the memory around the buffer may have
changed in any way.

`Pending` says which bytes are still in the buffer; a round of `debug_output` moves some of them from the chunk to what
is printed.
-/

namespace Mos.Debugf

open While Str

def BUF_LEN : Word := 1024

/-- The address of a `struct debug_ctx` on the user stack: `buf`, and behind it `pos`. -/
structure DebugCtx where
  addr : Word
  aligned : addr &&& 3 = 0
  below : addr.toNat + 1028 ≤ UTOP.toNat

/-- The memory, and the blocks that were passed to `syscall_print_cons` so far. -/
structure State where
  mem : Memory
  printed : List (List Byte)

/-- `syscall_print_cons` -/
def State.printCons (st : State) (buf num : Word) : Word × State :=
  ((sysPrintCons buf num).1, { st with printed := st.printed ++ [st.mem.bytes buf num.toNat] })

/-- The arguments of `debug_output`, which it changes, and the state. -/
structure Output where
  s : Word
  l : Word
  st : State

namespace DebugCtx

/-! ### The functions -/

section

variable (ctx : DebugCtx)

/-- `ctx->pos` -/
def pos (mem : Memory) : Word := mem.load32 (ctx.addr + BUF_LEN)

/-- `ctx->pos = v` -/
def setPos (mem : Memory) (v : Word) : Memory := mem.store32 (ctx.addr + BUF_LEN) v

/-- No result where `user_panic` ends the process. -/
def debugFlush (st : State) : Option State :=
  if ctx.pos st.mem = 0 then some st
  else
    let (r, st) := st.printCons ctx.addr (ctx.pos st.mem)
    if r ≠ 0 then none
    else some { st with mem := ctx.setPos st.mem 0 }

/-- A round of the loop of `debug_output`. -/
def outputRound (fuel : Nat) (x : Output) : Option Output := do
  let n := BUF_LEN - ctx.pos x.st.mem
  let (_, mem) ← memcpy fuel x.st.mem (ctx.addr + ctx.pos x.st.mem) x.s n
  let st ← ctx.debugFlush { x.st with mem := ctx.setPos mem BUF_LEN }
  return ⟨x.s + n, x.l - n, st⟩

def debugOutput (fuel : Nat) (st : State) (s l : Word) : Option State := do
  let x ← nested (fun x => BUF_LEN < ctx.pos x.st.mem + x.l) ctx.outputRound fuel ⟨s, l, st⟩
  let (_, mem) ← memcpy fuel x.st.mem (ctx.addr + ctx.pos x.st.mem) x.s x.l
  return { x.st with mem := ctx.setPos mem (ctx.pos mem + x.l) }

/-- An address in the context. -/
def Has (a : Word) : Prop := ctx.addr.toNat ≤ a.toNat ∧ a.toNat < ctx.addr.toNat + 1028

instance (a : Word) : Decidable (ctx.Has a) := inferInstanceAs (Decidable (_ ∧ _))

/-- A chunk lies in memory, outside of the context. -/
def Apart (s l : Word) : Prop :=
  l = 0 ∨ Fits s l ∧ (s.toNat + l.toNat ≤ ctx.addr.toNat ∨ ctx.addr.toNat + 1028 ≤ s.toNat)

instance (s l : Word) : Decidable (ctx.Apart s l) := inferInstanceAs (Decidable (_ ∨ _))

end

/-! ### The bytes of the context -/

section

variable {ctx : DebugCtx} {mem mem' : Memory} {a s l n v : Word} {i : Nat}

/-- The accesses to `pos` do not trap. -/
theorem pos_access (mem : Memory) (v : Word) : loadWord mem (ctx.addr + BUF_LEN) = some (ctx.pos mem) ∧
    storeWord mem (ctx.addr + BUF_LEN) v = some (ctx.setPos mem v) := by
  have haligned := ctx.aligned
  have ha : (ctx.addr + BUF_LEN) &&& 3 = 0 := by
    rw [aligned_iff] at haligned ⊢
    rw [BitVec.toNat_add]
    unfold BUF_LEN
    simp only [BitVec.reduceToNat]
    omega
  exact ⟨if_pos ha, if_pos ha⟩

private theorem toNat_addr (hi : i ≤ 1028) : (ctx.addr + BitVec.ofNat 32 i).toNat = ctx.addr.toNat + i := by
  have htop : UTOP.toNat < 2 ^ 32 := UTOP.isLt
  have hbelow := ctx.below
  exact ByteMem.toNat_add_ofNat (by omega)

private theorem posAddr_add (i : Nat) : ctx.addr + BUF_LEN + BitVec.ofNat 32 i = ctx.addr + BitVec.ofNat 32 (1024 + i) :=
  (ByteMem.add_ofNat_add ..).symm

private theorem buf_ne {j : Nat} (hi : i ≤ 1028) (hj : j ≤ 1028) (h : i ≠ j) :
    ctx.addr + BitVec.ofNat 32 i ≠ ctx.addr + BitVec.ofNat 32 j :=
  fun e => h (ByteMem.ofNat_injOn (by omega) (by omega) e)

private theorem has_addr (hi : i < 1028) : ctx.Has (ctx.addr + BitVec.ofNat 32 i) := by
  unfold Has
  rw [toNat_addr (by omega)]
  omega

/-- The bytes of a chunk are not in the context. -/
private theorem Apart.not_has (hs : ctx.Apart s l) (hi : i < l.toNat) : ¬ctx.Has (s + BitVec.ofNat 32 i) := by
  rcases hs with rfl | ⟨hfits, hout⟩
  · exact absurd hi (Nat.not_lt_zero i)
  · unfold Fits at hfits
    unfold Has
    rw [ByteMem.toNat_add_ofNat (by omega)]
    omega

private theorem Apart.bytes_eq (hs : ctx.Apart s l) (h : ∀ a, ¬ctx.Has a → mem' a = mem a) :
    mem'.bytes s l.toNat = mem.bytes s l.toNat :=
  ByteMem.bytes_congr fun _ hi => h _ (hs.not_has hi)

/-! ### Writing to it -/

private theorem pos_setPos (mem : Memory) (v : Word) : ctx.pos (ctx.setPos mem v) = v :=
  ByteMem.load32_store32 (by decide) mem _ v

private theorem setPos_bytes (mem : Memory) (v : Word) (hi : i ≤ 1024) :
    (ctx.setPos mem v).bytes ctx.addr i = mem.bytes ctx.addr i := by
  apply ByteMem.bytes_congr
  intro j hj
  apply ByteMem.store32_of_ne
  intro k hk
  rw [posAddr_add]
  exact buf_ne (by omega) (by omega) (by omega)

private theorem setPos_outside (mem : Memory) (v : Word) (ha : ¬ctx.Has a) : ctx.setPos mem v a = mem a := by
  apply ByteMem.store32_of_ne
  rintro k hk rfl
  rw [posAddr_add] at ha
  exact ha (has_addr (by omega))

/-- `n` bytes of a chunk are put behind those in the buffer. -/
private theorem memcpy_buf (hpos : (ctx.pos mem).toNat + n.toNat ≤ 1024) (hs : ctx.Apart s n) :
    ∃ mem', Returns (fun fuel => memcpy fuel mem (ctx.addr + ctx.pos mem) s n) (ctx.addr + ctx.pos mem, mem') ∧
      ctx.pos mem' = ctx.pos mem ∧
      mem'.bytes ctx.addr ((ctx.pos mem).toNat + n.toNat) =
        mem.bytes ctx.addr (ctx.pos mem).toNat ++ mem.bytes s n.toNat ∧
      ∀ a, ¬ctx.Has a → mem' a = mem a := by
  have htop : UTOP.toNat < 2 ^ 31 := by decide
  have hbelow := ctx.below
  obtain ⟨k, hk⟩ : ∃ k, k = (ctx.pos mem).toNat := ⟨_, rfl⟩
  have hdst : ctx.addr + ctx.pos mem = ctx.addr + BitVec.ofNat 32 k := by
    rw [hk, BitVec.ofNat_toNat]
    simp
  rw [← hk] at hpos ⊢
  rw [hdst]
  have hfits : Fits s n := by
    rcases hs with rfl | hs
    · exact Nat.le_of_lt s.isLt
    · exact hs.1
  have hforward : Forward (ctx.addr + BitVec.ofNat 32 k) s n := by
    unfold Forward
    rw [toNat_addr (by omega)]
    rcases hs with rfl | hs
    · have h0 : (0 : Word).toNat = 0 := rfl
      omega
    · omega
  have hread := hforward.readFirst
  have hin (i : Nat) : ctx.addr + BitVec.ofNat 32 k + BitVec.ofNat 32 i = ctx.addr + BitVec.ofNat 32 (k + i) :=
    (ByteMem.add_ofNat_add ..).symm
  refine ⟨_, memcpy_returns (by rw [toNat_addr (by omega)]; omega) hfits hforward mem, ?_, ?_, ?_⟩
  · apply ByteMem.load32_congr
    intro i hi
    apply ByteMem.copied_of_ne
    intro j hj
    rw [posAddr_add, hin]
    exact buf_ne (by omega) (by omega) (by omega)
  · rw [ByteMem.bytes_add]
    congr 1
    · apply ByteMem.bytes_congr
      intro i hi
      apply ByteMem.copied_of_ne
      intro j hj
      rw [hin]
      exact buf_ne (by omega) (by omega) (by omega)
    · apply ByteMem.bytes_congr
      intro i hi
      have hd : Fits (ctx.addr + BitVec.ofNat 32 k) n := by
        unfold Fits
        rw [toNat_addr (by omega)]
        omega
      exact ByteMem.copied_apply (Nat.le_of_lt n.isLt) (hread hd hfits) hi
  · intro a ha
    apply ByteMem.copied_of_ne
    rintro i hi rfl
    rw [hin] at ha
    exact ha (has_addr (by omega))

/-! ### What is still in the buffer -/

variable {st : State} {total : List Byte} {x : Output}

/-- The buffer has the bytes of `total` that were not printed. -/
structure Pending (ctx : DebugCtx) (st : State) (total : List Byte) : Prop where
  pos_le : (ctx.pos st.mem).toNat ≤ 1024
  content : st.printed.flatten ++ st.mem.bytes ctx.addr (ctx.pos st.mem).toNat = total
  blocks : ∀ b ∈ st.printed, b.length ≤ 1024

/-- The system call accepts the buffer. -/
private theorem printCons_ok (hpos : n.toNat ≤ 1024) : (sysPrintCons ctx.addr n).1 = 0 := by
  have htop : UTOP.toNat < 2 ^ 31 := by decide
  have hbelow := ctx.below
  have hsum : (ctx.addr + n).toNat = ctx.addr.toNat + n.toNat := BitVec.toNat_add_of_lt (by omega)
  have hok : ¬(UTOP < ctx.addr + n ∨ UTOP ≤ ctx.addr ∨ ctx.addr + n < ctx.addr) := by
    simp only [BitVec.lt_def, BitVec.le_def, hsum]
    omega
  rw [sysPrintCons, if_neg hok]

private theorem Pending.flush (hp : ctx.Pending st total) : ∃ st', ctx.debugFlush st = some st' ∧ ctx.Pending st' total ∧
    ctx.pos st'.mem = 0 ∧ ∀ a, ¬ctx.Has a → st'.mem a = st.mem a := by
  unfold debugFlush
  by_cases h0 : ctx.pos st.mem = 0
  · exact ⟨st, if_pos h0, hp, h0, fun _ _ => rfl⟩
  · have hr : (sysPrintCons ctx.addr (ctx.pos st.mem)).1 = 0 := printCons_ok hp.pos_le
    refine ⟨⟨ctx.setPos st.mem 0, st.printed ++ [st.mem.bytes ctx.addr (ctx.pos st.mem).toNat]⟩, ?_, ?_, ?_, ?_⟩
    · rw [if_neg h0]
      simp [State.printCons, hr]
    · refine ⟨?_, ?_, ?_⟩
      · simp [pos_setPos]
      · simpa [pos_setPos, ByteMem.bytes] using hp.content
      · intro b hb
        rcases List.mem_append.1 hb with hb | hb
        · exact hp.blocks b hb
        · obtain rfl := List.mem_singleton.1 hb
          simpa using hp.pos_le
    · exact pos_setPos st.mem 0
    · intro a ha
      show ctx.setPos st.mem 0 a = st.mem a
      exact setPos_outside st.mem 0 ha

private theorem Pending.flushed (hp : ctx.Pending st total) (h0 : ctx.pos st.mem = 0) : st.printed.flatten = total := by
  have hcontent := hp.content
  rw [h0] at hcontent
  simpa [ByteMem.bytes] using hcontent

/-- Some bytes are put behind those of the buffer, and `pos` is set to their end. -/
private theorem Pending.append (hp : ctx.Pending st total) (hn : (ctx.pos st.mem).toNat + n.toNat ≤ 1024)
    (hs : ctx.Apart s n) : ∃ mem,
      Returns (fun fuel => memcpy fuel st.mem (ctx.addr + ctx.pos st.mem) s n) (ctx.addr + ctx.pos st.mem, mem) ∧
      ctx.pos mem = ctx.pos st.mem ∧
      ctx.Pending { st with mem := ctx.setPos mem (ctx.pos st.mem + n) } (total ++ st.mem.bytes s n.toNat) ∧
      ∀ a, ¬ctx.Has a → ctx.setPos mem (ctx.pos st.mem + n) a = st.mem a := by
  obtain ⟨mem, hr, hpos, hbytes, hout⟩ := memcpy_buf hn hs
  have hsum : (ctx.pos st.mem + n).toNat = (ctx.pos st.mem).toNat + n.toNat := BitVec.toNat_add_of_lt (by omega)
  refine ⟨mem, hr, hpos, ⟨?_, ?_, hp.blocks⟩, fun a ha => (setPos_outside _ _ ha).trans (hout a ha)⟩
  · rw [pos_setPos, hsum]
    exact hn
  · rw [pos_setPos, hsum, setPos_bytes _ _ hn, hbytes, ← List.append_assoc, hp.content]

/-- In `debug_output` the bytes to come are those of the rest of the chunk. -/
def Going (ctx : DebugCtx) (total : List Byte) (x : Output) : Prop :=
  ∃ done, ctx.Pending x.st done ∧ done ++ x.st.mem.bytes x.s x.l.toNat = total ∧ ctx.Apart x.s x.l

/-- The rest of a chunk, after `n` bytes. -/
private theorem Apart.rest (hs : ctx.Apart s l) (hn : n.toNat < l.toNat) : ctx.Apart s n ∧ ctx.Apart (s + n) (l - n) := by
  rcases hs with rfl | ⟨hfits, hout⟩
  · exact absurd hn (Nat.not_lt_zero _)
  · unfold Fits at hfits
    have hsum : (s + n).toNat = s.toNat + n.toNat := BitVec.toNat_add_of_lt (by omega)
    have hsub : (l - n).toNat = l.toNat - n.toNat := BitVec.toNat_sub_of_le (Nat.le_of_lt hn)
    constructor
    · exact .inr ⟨by unfold Fits; omega, by omega⟩
    · exact .inr ⟨by unfold Fits; omega, by omega⟩

/-- `pos + l` does not overflow, since the chunk is not the whole memory. -/
private theorem toNat_pos_add (hp : ctx.Pending x.st total) (hs : ctx.Apart x.s x.l) :
    (ctx.pos x.st.mem + x.l).toNat = (ctx.pos x.st.mem).toNat + x.l.toNat := by
  have htop : UTOP.toNat < 2 ^ 31 := by decide
  have hbelow := ctx.below
  have hle := hp.pos_le
  apply BitVec.toNat_add_of_lt
  rcases hs with h0 | ⟨hfits, hout⟩
  · rw [h0]
    exact (BitVec.isLt _)
  · unfold Fits at hfits
    omega

/-- A round fills the buffer and passes it on. -/
private theorem Going.round (hg : ctx.Going total x) (hc : 1024 < (ctx.pos x.st.mem).toNat + x.l.toNat) :
    ∃ x', Returns (fun fuel => ctx.outputRound fuel x) x' ∧ ctx.Going total x' ∧
      (ctx.pos x'.st.mem).toNat + x'.l.toNat < (ctx.pos x.st.mem).toNat + x.l.toNat := by
  obtain ⟨done, hp, htotal, hs⟩ := hg
  have hle := hp.pos_le
  obtain ⟨n, hn⟩ : ∃ n, n = BUF_LEN - ctx.pos x.st.mem := ⟨_, rfl⟩
  have hntoNat : n.toNat = 1024 - (ctx.pos x.st.mem).toNat := by
    rw [hn]
    exact BitVec.toNat_sub_of_le (show _ ≤ BUF_LEN by rw [BitVec.le_def]; exact hle)
  have hfull : ctx.pos x.st.mem + n = BUF_LEN := by
    rw [hn]
    bv_omega
  obtain ⟨hfirst, hrest⟩ := hs.rest (n := n) (by omega)
  obtain ⟨mem, hr, -, hp₁, hout₁⟩ := hp.append (by omega) hfirst
  rw [hfull] at hp₁ hout₁
  obtain ⟨st, hst, hp₂, h0, hout₂⟩ := hp₁.flush
  refine ⟨⟨x.s + n, x.l - n, st⟩, ?_, ⟨_, hp₂, ?_, hrest⟩, ?_⟩
  · have hflush : Returns (fun _ : Nat => ctx.debugFlush { x.st with mem := ctx.setPos mem BUF_LEN }) st :=
      ⟨0, fun _ _ => hst⟩
    unfold outputRound
    rw [← hn]
    exact hr.bind (hflush.bind (returns_pure _))
  · have hframe : ∀ a, ¬ctx.Has a → st.mem a = x.st.mem a := fun a ha => (hout₂ a ha).trans (hout₁ a ha)
    have hsplit : x.l.toNat = n.toNat + (x.l - n).toNat := by
      rw [BitVec.toNat_sub_of_le (by rw [BitVec.le_def]; omega)]
      omega
    have hmove : x.s + n = x.s + BitVec.ofNat 32 n.toNat := by simp
    rw [hrest.bytes_eq hframe, List.append_assoc, hmove, ← ByteMem.bytes_add, ← hsplit]
    exact htotal
  · have hsub : (x.l - n).toNat = x.l.toNat - n.toNat := BitVec.toNat_sub_of_le (by rw [BitVec.le_def]; omega)
    have hzero : (0 : Word).toNat = 0 := rfl
    show (ctx.pos st.mem).toNat + (x.l - n).toNat < _
    rw [h0, hsub]
    omega

/-- A call of `debug_output` comes back, and its chunk follows the bytes so far. -/
private theorem Pending.output (hp : ctx.Pending st total) (hs : ctx.Apart s l) :
    ∃ st', Returns (fun fuel => ctx.debugOutput fuel st s l) st' ∧ ctx.Pending st' (total ++ st.mem.bytes s l.toNat) := by
  have hcond (x : Output) (total : List Byte) (hg : ctx.Going total x) :
      BUF_LEN < ctx.pos x.st.mem + x.l ↔ 1024 < (ctx.pos x.st.mem).toNat + x.l.toNat := by
    obtain ⟨done, hp, -, hs⟩ := hg
    rw [BitVec.lt_def, toNat_pos_add hp hs]
    rfl
  have hstep : ∀ x, ctx.Going (total ++ st.mem.bytes s l.toNat) x →
      decide (BUF_LEN < ctx.pos x.st.mem + x.l) = true →
        ∃ x', Returns (fun fuel => ctx.outputRound fuel x) x' ∧ ctx.Going (total ++ st.mem.bytes s l.toNat) x' ∧
          (ctx.pos x'.st.mem).toNat + x'.l.toNat < (ctx.pos x.st.mem).toNat + x.l.toNat :=
    fun x hx hc => hx.round ((hcond x _ hx).1 (of_decide_eq_true hc))
  have hfirst : ctx.Going (total ++ st.mem.bytes s l.toNat) ⟨s, l, st⟩ := ⟨total, hp, rfl, hs⟩
  have hloop : ∃ x,
      Returns (fun fuel => nested (fun x => BUF_LEN < ctx.pos x.st.mem + x.l) ctx.outputRound fuel ⟨s, l, st⟩) x ∧
        ctx.Going (total ++ st.mem.bytes s l.toNat) x ∧ decide (BUF_LEN < ctx.pos x.st.mem + x.l) = false :=
    nested_returns (v := fun x => (ctx.pos x.st.mem).toNat + x.l.toNat) hstep hfirst
  obtain ⟨x, hr, hg, hend⟩ := hloop
  have hle := mt (hcond x _ hg).2 (of_decide_eq_false hend)
  obtain ⟨done, hp', htotal, hs'⟩ := hg
  obtain ⟨mem, hcopy, hpos, hp'', -⟩ := hp'.append (Nat.le_of_not_lt hle) hs'
  refine ⟨_, hr.bind (hcopy.bind (returns_pure _)), ?_⟩
  rw [hpos, ← htotal]
  exact hp''

end

end DebugCtx

/-! ### A whole run -/

/-- A call of `debug_output`, with the memory that it finds around the context. -/
structure Call where
  s : Word
  l : Word
  mem : Memory

def Call.chunk (c : Call) : List Byte := c.mem.bytes c.s c.l.toNat

namespace DebugCtx

section

variable (ctx : DebugCtx)

/-- The memory of a call: the context is as it was left, and the rest is what the caller has made of it. -/
def enter (mem : Memory) (c : Call) : Memory := fun a => if ctx.Has a then mem a else c.mem a

/-- The calls, in order. -/
def outputs (fuel : Nat) : List Call → State → Option State
  | [], st => some st
  | c :: cs, st => do
    let st ← ctx.debugOutput fuel { st with mem := ctx.enter st.mem c } c.s c.l
    outputs fuel cs st

/-- The context of `vdebugf` at first. -/
def start (mem : Memory) : State := ⟨ctx.setPos mem 0, []⟩

/-- `vdebugf`, where `vprintfmt` makes these calls. -/
def vdebugf (fuel : Nat) (mem : Memory) (calls : List Call) : Option State := do
  let st ← ctx.outputs fuel calls (ctx.start mem)
  ctx.debugFlush st

end

variable {ctx : DebugCtx} {st : State} {total : List Byte} {calls : List Call}

private theorem pending_start (ctx : DebugCtx) (mem : Memory) : ctx.Pending (ctx.start mem) [] := by
  refine ⟨?_, ?_, nofun⟩
  · simp [start, pos_setPos]
  · simp [start, pos_setPos, ByteMem.bytes]

/-- The buffer does not depend on the memory around it. -/
private theorem Pending.enter (hp : ctx.Pending st total) (c : Call) :
    ctx.Pending { st with mem := ctx.enter st.mem c } total := by
  have hhas (i : Nat) (hi : i < 1028) :
      ctx.enter st.mem c (ctx.addr + BitVec.ofNat 32 i) = st.mem (ctx.addr + BitVec.ofNat 32 i) := if_pos (has_addr hi)
  have hpos : ctx.pos (ctx.enter st.mem c) = ctx.pos st.mem := by
    apply ByteMem.load32_congr
    intro i hi
    rw [posAddr_add]
    exact hhas _ (by omega)
  have hle := hp.pos_le
  refine ⟨?_, ?_, hp.blocks⟩
  · rw [hpos]
    exact hle
  · have hbytes : (ctx.enter st.mem c).bytes ctx.addr (ctx.pos st.mem).toNat =
        st.mem.bytes ctx.addr (ctx.pos st.mem).toNat := ByteMem.bytes_congr fun i hi => hhas i (by omega)
    rw [hpos, hbytes]
    exact hp.content

private theorem Pending.outputs (hp : ctx.Pending st total) (hc : ∀ c ∈ calls, ctx.Apart c.s c.l) :
    ∃ st', Returns (fun fuel => ctx.outputs fuel calls st) st' ∧ ctx.Pending st' (total ++ calls.flatMap Call.chunk) := by
  induction calls generalizing st total with
  | nil => exact ⟨st, returns_pure st, by simpa using hp⟩
  | cons c calls ih =>
    have happart := hc c (by simp)
    obtain ⟨st₁, hr₁, hp₁⟩ := (hp.enter c).output happart
    have hchunk : (ctx.enter st.mem c).bytes c.s c.l.toNat = c.chunk := happart.bytes_eq fun a ha => if_neg ha
    obtain ⟨st₂, hr₂, hp₂⟩ := ih hp₁ fun c hm => hc c (by simp [hm])
    refine ⟨st₂, hr₁.bind hr₂, ?_⟩
    simpa [hchunk] using hp₂

/-- After each call the bytes that were not printed are in the buffer, and `debug_flush` prints them at the end. -/
theorem vdebugf_prints (ctx : DebugCtx) (mem : Memory) (calls : List Call) (hc : ∀ c ∈ calls, ctx.Apart c.s c.l) :
    (∀ done, done <+: calls → ∃ st, Returns (fun fuel => ctx.outputs fuel done (ctx.start mem)) st ∧
      ctx.Pending st (done.flatMap Call.chunk)) ∧
    ∃ st, Returns (fun fuel => ctx.vdebugf fuel mem calls) st ∧ st.printed.flatten = calls.flatMap Call.chunk ∧
      ∀ b ∈ st.printed, b.length ≤ 1024 := by
  have hdone : ∀ done, done <+: calls → ∃ st, Returns (fun fuel => ctx.outputs fuel done (ctx.start mem)) st ∧
      ctx.Pending st (done.flatMap Call.chunk) := by
    intro done hpre
    have hall := (pending_start ctx mem).outputs fun c hm => hc c (hpre.subset hm)
    simpa using hall
  refine ⟨hdone, ?_⟩
  obtain ⟨st, hr, hp⟩ := hdone calls (List.prefix_refl calls)
  obtain ⟨st', hst', hp', h0, -⟩ := hp.flush
  have hflush : Returns (fun _ : Nat => ctx.debugFlush st) st' := ⟨0, fun _ _ => hst'⟩
  exact ⟨st', hr.bind hflush, hp'.flushed h0, hp'.blocks⟩

/-- A context right below `UTOP`, with an empty chunk, one of exactly the length of the buffer, and a long one. -/
theorem vdebugf_prints_three : ∃ (ctx : DebugCtx) (calls : List Call) (st : State), calls.map (·.l) = [0, 1024, 5000] ∧
    Returns (fun fuel => ctx.vdebugf fuel (fun _ => 0) calls) st ∧ st.printed.flatten = calls.flatMap Call.chunk := by
  obtain ⟨-, st, hr, hprinted, -⟩ := vdebugf_prints ⟨0x7F3FFBFC, by decide, by decide⟩ (fun _ => 0)
    [⟨0, 0, fun _ => 0⟩, ⟨0x400000, 1024, fun _ => 65⟩, ⟨0x500000, 5000, fun _ => 66⟩] (by decide)
  exact ⟨_, _, st, rfl, hr, hprinted⟩

end DebugCtx

end Mos.Debugf
