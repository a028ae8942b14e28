import Mos.Kern.Mmu
import Mathlib.Data.List.TakeWhile

/-!
# Reading a command line (`readline` of `user/sh.c`)

The memory is named by the index from `buf` on, so that what lies before the buffer has negative ones.  The input is what
`read` returns, one byte for each call, and then nothing more.
-/

namespace Mos.Sh

def BACKSPACE : Byte := 0x08

def isDelete (c : Byte) : Bool := c = BACKSPACE || c = 0x7f
def isEnd (c : Byte) : Bool := c = 0x0D || c = 0x0A

/-- The memory, and the places that have been read or written. -/
structure LineMem where
  buf : Int → Byte
  touched : List Int

namespace LineMem

def touch (m : LineMem) (i : Int) : LineMem := { m with touched := i :: m.touched }

def store (m : LineMem) (i : Int) (c : Byte) : LineMem := ⟨Function.update m.buf i c, i :: m.touched⟩

end LineMem

/-- How `readline` ends, and what is left of the input. -/
inductive ReadlineEnd where
  | ret (rest : List Byte)
  | exit

/-- `while ((r = read(0, buf, 1)) == 1 && buf[0] != '\r' && buf[0] != '\n');` -/
def discardLine : LineMem → List Byte → LineMem × List Byte
  | m, [] => (m, [])
  | m, c :: rest => if isEnd c then ((m.store 0 c).touch 0, rest) else discardLine ((m.store 0 c).touch 0) rest

/-- What follows the loop. -/
def lineTooLong (m : LineMem) (input : List Byte) : LineMem × ReadlineEnd :=
  let (m, rest) := discardLine m input
  (m.store 0 0, .ret rest)

/-- The index after a character that deletes. -/
def stepBack (i : Int) : Int := if 0 < i then i - 2 else -1

/-- The loop from `i` on. -/
def readLoop (n : Nat) : Int → LineMem → List Byte → LineMem × ReadlineEnd
  | i, m, [] => if i < n then (m, .exit) else lineTooLong m []
  | i, m, c :: rest =>
    if i < n then
      let m := (m.store i c).touch i
      let (i, m) := if isDelete (m.buf i) then (stepBack i, m.touch (stepBack i)) else (i, m)
      if isEnd (m.buf i) then ((m.touch i).store i 0, .ret rest)
      else readLoop n (i + 1) (m.touch i) rest
    else lineTooLong m (c :: rest)

def readline (n : Nat) (buf : Int → Byte) (input : List Byte) : LineMem × ReadlineEnd := readLoop n 0 ⟨buf, []⟩ input

/-! ### The reference line editor -/

inductive Edited where
  | line (l rest : List Byte)
  /-- The line has too many characters. -/
  | long (rest : List Byte)
  | endOfInput

/-- The input after the end of the line. -/
def afterLine (input : List Byte) : List Byte := (input.dropWhile fun c => !isEnd c).tail

/-- The editor has room for `n - 1` characters. -/
def edit (n : Nat) : List Byte → List Byte → Edited
  | l, [] => if l.length < n then .endOfInput else .long []
  | l, c :: rest =>
    if l.length < n then
      if isDelete c then edit n l.dropLast rest
      else if isEnd c then .line l rest
      else edit n (l ++ [c]) rest
    else .long (afterLine (c :: rest))

/-- A character is deleted where the line has one at most. -/
def earlyDelete (n : Nat) : List Byte → List Byte → Bool
  | _, [] => false
  | l, c :: rest =>
    if l.length < n then
      if isDelete c then l.length ≤ 1 || earlyDelete n l.dropLast rest
      else if isEnd c then false
      else earlyDelete n (l ++ [c]) rest
    else false

/-- A string in a memory, with the 0 at its end. -/
def Holds (buf : Int → Byte) (l : List Byte) : Prop := (∀ (j : Nat) (h : j < l.length), buf j = l[j]) ∧ buf l.length = 0

/-- What is to happen where the editor ends with `e`: its line is in the buffer, or the empty string, only the buffer is
touched, and the input is read up to the end of the line. -/
structure Follows (n : Nat) (e : Edited) (run : LineMem × ReadlineEnd) : Prop where
  inside : ∀ i ∈ run.1.touched, 0 ≤ i ∧ i < n
  line : ∀ l rest, e = .line l rest → run.2 = .ret rest ∧ Holds run.1.buf l
  long : ∀ rest, e = .long rest → run.2 = .ret rest ∧ Holds run.1.buf []
  ended : e = .endOfInput → run.2 = .exit

variable {n : Nat} {m : LineMem} {l input rest : List Byte} {c : Byte} {i : Int}

/-! ### What is touched stays so -/

private theorem discardLine_touched (m : LineMem) (input : List Byte) :
    ∀ j ∈ m.touched, j ∈ (discardLine m input).1.touched := by
  induction input generalizing m with
  | nil => exact fun _ h => h
  | cons c rest ih =>
    intro j hj
    have hj' : j ∈ ((m.store 0 c).touch 0).touched := by simp [LineMem.touch, LineMem.store, hj]
    unfold discardLine
    split
    · exact hj'
    · exact ih _ j hj'

private theorem lineTooLong_touched (m : LineMem) (input : List Byte) :
    ∀ j ∈ m.touched, j ∈ (lineTooLong m input).1.touched :=
  fun j hj => List.mem_cons_of_mem _ (discardLine_touched m input j hj)

private theorem readLoop_touched (i : Int) (m : LineMem) (input : List Byte) :
    ∀ j ∈ m.touched, j ∈ (readLoop n i m input).1.touched := by
  induction input generalizing i m with
  | nil =>
    intro j hj
    unfold readLoop
    split
    · exact hj
    · exact lineTooLong_touched m [] j hj
  | cons c rest ih =>
    intro j hj
    unfold readLoop
    by_cases hi : i < n
    · rw [if_pos hi]
      by_cases hd : isDelete (((m.store i c).touch i).buf i)
      · simp only [if_pos hd]
        split
        · simp [LineMem.touch, LineMem.store, hj]
        · exact ih _ _ j (by simp [LineMem.touch, LineMem.store, hj])
      · simp only [if_neg hd]
        split
        · simp [LineMem.touch, LineMem.store, hj]
        · exact ih _ _ j (by simp [LineMem.touch, LineMem.store, hj])
    · rw [if_neg hi]
      exact lineTooLong_touched m _ j hj

/-! ### The loop keeps the line of the editor -/

/-- After the characters of `l`: they are at the start of the buffer, no one ends the line, and only the buffer has been
touched. -/
structure Typed (n : Nat) (l : List Byte) (m : LineMem) : Prop where
  room : l.length ≤ n
  chars : ∀ (j : Nat) (h : j < l.length), m.buf j = l[j]
  noEnd : ∀ c ∈ l, isEnd c = false
  inside : ∀ i ∈ m.touched, 0 ≤ i ∧ i < n

/-- A character is stored behind the line. -/
def LineMem.type (m : LineMem) (i : Int) (c : Byte) : LineMem := (m.store i c).touch i

@[simp] theorem LineMem.type_self (m : LineMem) (i : Int) (c : Byte) : (m.type i c).buf i = c := by
  simp [LineMem.type, LineMem.touch, LineMem.store]

private theorem LineMem.type_of_ne (m : LineMem) (c : Byte) {i j : Int} (h : j ≠ i) : (m.type i c).buf j = m.buf j := by
  simp [LineMem.type, LineMem.touch, LineMem.store, h]

private theorem LineMem.mem_type {m : LineMem} {c : Byte} {i j : Int} : j ∈ (m.type i c).touched ↔ j = i ∨
    j ∈ m.touched := by
  simp [LineMem.type, LineMem.touch, LineMem.store]

/-- The step of the loop. -/
private theorem readLoop_cons (h : i < n) :
    readLoop n i m (c :: rest) =
      let m := m.type i c
      let (i, m) := if isDelete c then (stepBack i, m.touch (stepBack i)) else (i, m)
      if isEnd (m.buf i) then ((m.touch i).store i 0, .ret rest) else readLoop n (i + 1) (m.touch i) rest := by
  have hc : ((m.store i c).touch i).buf i = c := LineMem.type_self m i c
  rw [readLoop, if_pos h]
  simp only [hc]
  rfl

private theorem Typed.type (h : Typed n l m) (hl : l.length < n) (he : isEnd c = false) :
    Typed n (l ++ [c]) ((m.type l.length c).touch l.length) := by
  refine ⟨by simp; omega, fun j hj => ?_, fun d hd => ?_, fun i hi => ?_⟩
  · change (m.type l.length c).buf j = _
    by_cases hjl : j = l.length
    · subst hjl
      simp
    · have hj' : j < l.length := by simp at hj; omega
      rw [LineMem.type_of_ne m c (by omega), h.chars j hj', List.getElem_append_left hj']
  · rcases List.mem_append.1 hd with hd | hd
    · exact h.noEnd d hd
    · simp_all
  · simp only [LineMem.touch, List.mem_cons, LineMem.mem_type] at hi
    rcases hi with rfl | rfl | hi
    · omega
    · omega
    · exact h.inside i hi

/-- The last character goes, and the index stands two before the one that has been read. -/
private theorem Typed.delete (h : Typed n l m) (hl : l.length < n) (h2 : 2 ≤ l.length) :
    Typed n l.dropLast (((m.type l.length c).touch (l.length - 2)).touch (l.length - 2)) := by
  refine ⟨by simp; omega, fun j hj => ?_, fun d hd => h.noEnd d (List.dropLast_subset l hd), fun i hi => ?_⟩
  · have hj' : j < l.length := by simp at hj; omega
    change (m.type l.length c).buf j = _
    rw [LineMem.type_of_ne m c (by omega), h.chars j hj', List.getElem_dropLast]
  · simp only [LineMem.touch, List.mem_cons, LineMem.mem_type] at hi
    rcases hi with rfl | rfl | rfl | hi
    · omega
    · omega
    · omega
    · exact h.inside i hi

/-- What the loop inspects after a deletion is a character of the line. -/
private theorem Typed.before (h : Typed n l m) (h2 : 2 ≤ l.length) :
    isEnd ((m.type l.length c).buf (l.length - 2)) = false := by
  have hj : l.length - 2 < l.length := by omega
  have hc := h.chars (l.length - 2) hj
  rw [LineMem.type_of_ne m c (by omega), show ((l.length : Int) - 2) = ((l.length - 2 : Nat) : Int) by omega, hc]
  exact h.noEnd _ (List.getElem_mem hj)

private theorem discardLine_eq (m : LineMem) (input : List Byte) :
    (discardLine m input).2 = afterLine input ∧ ∀ j ∈ (discardLine m input).1.touched, j = 0 ∨ j ∈ m.touched := by
  induction input generalizing m with
  | nil => exact ⟨rfl, fun j hj => .inr hj⟩
  | cons c rest ih =>
    unfold discardLine
    by_cases hc : isEnd c
    · rw [if_pos hc]
      refine ⟨by simp [afterLine, hc], fun j hj => ?_⟩
      simp only [LineMem.touch, LineMem.store, List.mem_cons] at hj
      tauto
    · rw [if_neg hc]
      refine ⟨by rw [(ih _).1]; simp [afterLine, hc], fun j hj => ?_⟩
      have := (ih _).2 j hj
      simp only [LineMem.touch, LineMem.store, List.mem_cons] at this
      tauto

private theorem Typed.tooLong (h : Typed n l m) (hn : 0 < n) : Follows n (.long (afterLine input))
    (lineTooLong m input) := by
  obtain ⟨hrest, htouched⟩ := discardLine_eq m input
  refine ⟨fun i hi => ?_, by simp, fun rest hr => ?_, by simp⟩
  · rcases List.mem_cons.1 hi with rfl | hi
    · omega
    · rcases htouched i hi with rfl | hi
      · omega
      · exact h.inside i hi
  · cases hr
    refine ⟨congrArg ReadlineEnd.ret hrest, by simp, ?_⟩
    simp [lineTooLong, LineMem.store]

/-- Induction on the input: the loop stands behind the line of the editor. -/
private theorem readLoop_typed (input : List Byte) (hn : 0 < n) (h : Typed n l m) :
    (earlyDelete n l input = true → -1 ∈ (readLoop n l.length m input).1.touched) ∧
      (earlyDelete n l input = false → Follows n (edit n l input) (readLoop n l.length m input)) := by
  -- By induction on the input; the buffer has the line so far.
  induction input generalizing l m with
  | nil =>
    refine ⟨by simp [earlyDelete], fun _ => ?_⟩
    unfold readLoop edit
    by_cases hl : l.length < n
    · rw [if_pos hl, if_pos (by omega)]
      exact ⟨h.inside, by simp, by simp, fun _ => rfl⟩
    · rw [if_neg hl, if_neg (by omega)]
      change Follows n (.long (afterLine [])) _
      exact h.tooLong hn
  | cons c rest ih =>
    by_cases hl : l.length < n
    · rw [readLoop_cons (by omega)]
      simp only [earlyDelete, edit, if_pos hl]
      by_cases hd : isDelete c
      · simp only [if_pos hd]
        by_cases h2 : 2 ≤ l.length
        · -- the index goes back by two and the loop adds one
          have hback : stepBack l.length = (l.length : Int) - 2 := if_pos (by omega)
          have hat : (l.length : Int) - 2 + 1 = (l.dropLast.length : Nat) := by simp; omega
          have hend := h.before (c := c) h2
          simp only [hback, LineMem.touch] at hend ⊢
          simp only [hend, Bool.false_eq_true, if_false, hat, decide_eq_false (show ¬ l.length ≤ 1 by omega),
            Bool.false_or]
          exact ih (h.delete hl h2)
        · -- the index is -1
          have hback : stepBack l.length = -1 := by unfold stepBack; split <;> omega
          simp only [hback, decide_eq_true (show l.length ≤ 1 by omega), Bool.true_or, forall_const,
            Bool.true_eq_false, false_implies, and_true]
          split
          · simp [LineMem.touch, LineMem.store]
          · exact readLoop_touched _ _ _ _ (by simp [LineMem.touch])
      · simp only [if_neg hd, LineMem.type_self]
        by_cases he : isEnd c
        · simp only [if_pos he, Bool.false_eq_true, false_implies, true_and, forall_const]
          refine ⟨fun i hi => ?_, fun l' rest' hr => ?_, by simp, by simp⟩
          · simp only [LineMem.touch, LineMem.store, List.mem_cons, LineMem.mem_type] at hi
            rcases hi with rfl | rfl | rfl | hi
            · omega
            · omega
            · omega
            · exact h.inside i hi
          · cases hr
            refine ⟨rfl, fun j hj => ?_, by simp [LineMem.store]⟩
            have hne : (j : Int) ≠ l.length := by omega
            simp only [LineMem.store, LineMem.touch, Function.update_of_ne hne]
            rw [LineMem.type_of_ne m c hne, h.chars j hj]
        · simp only [if_neg he]
          have hat : (l.length : Int) + 1 = ((l ++ [c]).length : Nat) := by simp
          rw [hat]
          exact ih (h.type hl (by simpa using he))
    · refine ⟨by simp [earlyDelete, hl], fun _ => ?_⟩
      rw [readLoop, if_neg (by omega), edit, if_neg hl]
      exact h.tooLong hn

/-- `readline` follows the editor exactly where no deletion comes while the line has at most one character. -/
theorem readline_follows_iff (hn : 1 ≤ n) (buf : Int → Byte) :
    Follows n (edit n [] input) (readline n buf input) ↔ earlyDelete n [] input = false := by
  have h : Typed n [] ⟨buf, []⟩ := ⟨by simp, by simp, by simp, by simp⟩
  obtain ⟨hbad, hgood⟩ := readLoop_typed input hn h
  refine ⟨fun hf => ?_, hgood⟩
  cases he : earlyDelete n [] input with
  | false => rfl
  | true =>
    have := hf.inside (-1) (hbad he)
    omega

/-- A line with one deletion in it, after two characters. -/
theorem readline_follows_iff_abd : Follows 4 (edit 4 [] [97, 98, BACKSPACE, 100, 10])
    (readline 4 (fun _ => 0) [97, 98, BACKSPACE, 100, 10]) :=
  (readline_follows_iff (by decide) _).2 (by decide)

/-- A backspace at the start of the line: the byte before the buffer is read. -/
theorem readline_backspace_first :
    ¬ Follows 1024 (edit 1024 [] [BACKSPACE, 10]) (readline 1024 (fun _ => 0) [BACKSPACE, 10]) := by
  intro h
  have := h.inside (-1) (by decide)
  omega

end Mos.Sh
