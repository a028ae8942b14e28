import Mos.Print.Number

/-!
# What a format stands for

A format is a sequence of bytes that are printed as they are and of conversions, each a `%` followed by flags, a width, an
optional `l` and the character that says what to print.  Every conversion stands for one argument in its field.
`vprintfmt` prints exactly this, and reads no byte behind the end of the format.
-/

namespace Mos

/-! ### Formats -/

/-- A conversion; without a character the format ended inside. -/
structure Spec where
  minus : Bool
  zero : Bool
  width : Nat
  conv : Option Byte

inductive Piece where
  | char (c : Byte)
  | spec (s : Spec)

def isFlag (c : Byte) : Bool :=
  c = ch '-' || c = ch '+' || c = ch ' ' || c = ch '0' || c = ch '#' || c = ch '*'

def isDigit (c : Byte) : Bool := ch '0' ≤ c && c ≤ ch '9'

/-- The number that follows the digits of `w`. -/
def decimal (w : Nat) (ds : List Byte) : Nat := ds.foldl (fun w c => w * 10 + (c.toNat - (ch '0').toNat)) w

/-- What follows a `%`, and the rest of the format. -/
def parseSpec (s : List Byte) : Spec × List Byte :=
  let flags := s.takeWhile isFlag
  let s := s.dropWhile isFlag
  let digits := s.takeWhile isDigit
  let s := s.dropWhile isDigit
  let s := if s.head? = some (ch 'l') then s.tail else s
  (⟨decide (ch '-' ∈ flags), decide (ch '0' ∈ flags), decimal 0 digits, s.head?⟩, s.tail)

/-- The pieces of a format of at most `n` bytes. -/
def piecesOf : Nat → List Byte → List Piece
  | 0, _ => []
  | _ + 1, [] => []
  | n + 1, c :: s => if c = ch '%' then .spec (parseSpec s).1 :: piecesOf n (parseSpec s).2 else .char c :: piecesOf n s

def pieces (s : List Byte) : List Piece := piecesOf s.length s

/-- The base of a numeric conversion, whether it prints capitals, and whether it prints a sign. -/
def numberForm (c : Byte) : Option (Nat × Bool × Bool) :=
  if c = ch 'b' then some (2, false, false)
  else if c = ch 'd' ∨ c = ch 'D' then some (10, false, true)
  else if c = ch 'o' ∨ c = ch 'O' then some (8, false, false)
  else if c = ch 'u' ∨ c = ch 'U' then some (10, false, false)
  else if c = ch 'x' then some (16, false, false)
  else if c = ch 'X' then some (16, true, false)
  else none

/-- A word as a number in its field; the absolute value of the least `int` is itself, as a word. -/
def Spec.number (s : Spec) (base : Nat) (upcase signed : Bool) (w : Word) : List Byte :=
  if signed && decide (w.toInt < 0) then padNum s.minus s.zero s.width true (numeral base upcase (-w).toNat)
  else padNum s.minus s.zero s.width false (numeral base upcase w.toNat)

/-- The text of a conversion, and the arguments behind the one that it takes. -/
def Spec.render (s : Spec) (args : List Arg) : Option (List Byte × List Arg) :=
  match s.conv with
  | none => some ([], args)
  | some c =>
    match numberForm c with
    | some (base, upcase, signed) => (vaWord args).map fun (w, args) => (s.number base upcase signed w, args)
    | none =>
      if c = ch 'c' then (vaWord args).map fun (w, args) => (padText s.minus s.width [w.setWidth 8], args)
      else if c = ch 's' then (vaStr args).map fun (t, args) => (padText s.minus s.width t.bytes, args)
      else some ([c], args)

def Piece.render : Piece → List Arg → Option (List Byte × List Arg)
  | .char c, args => some ([c], args)
  | .spec s, args => s.render args

/-- The text of a format, and the arguments that are left; `none` where an argument is missing or of the wrong kind. -/
def render : List Piece → List Arg → Option (List Byte × List Arg)
  | [], args => some ([], args)
  | p :: ps, args => (p.render args).bind fun (o, args) => (render ps args).map fun (o', args) => (o ++ o', args)

/-- The widths that an `int` and the buffer of `print_num` can hold. -/
def Piece.fits : Piece → Bool
  | .char _ => true
  | .spec s => s.width + 70 < 2 ^ 31

/-! ### The scanner -/

section

variable {s : List Byte}

/-- The loops stop at the terminating NUL at the latest. -/
private theorem scanLoop_eq (hs : ∀ c ∈ s, c ≠ 0) :
    scanLoop (s ++ [0]) = some (s.takeWhile fun c => decide (c ≠ ch '%')).length := by
  induction s with
  | nil => rfl
  | cons c s ih =>
    have hc : c ≠ 0 := hs c (List.mem_cons_self ..)
    rw [List.cons_append, scanLoop, List.takeWhile_cons]
    by_cases hp : c = ch '%'
    · rw [if_neg fun h => h.2 hp, if_neg (by simpa using hp)]
      rfl
    · rw [if_pos ⟨hc, hp⟩, if_pos (by simpa using hp), ih fun c hc => hs c (List.mem_cons_of_mem _ hc)]
      rfl

private theorem flagLoop_eq (hs : ∀ c ∈ s, c ≠ 0) (minus zero : Bool) (before : List Byte) :
    flagLoop minus (if zero then ch '0' else ch ' ') before (s ++ [0]) =
      some (minus || decide (ch '-' ∈ s.takeWhile isFlag),
        (if zero || decide (ch '0' ∈ s.takeWhile isFlag) then ch '0' else ch ' '),
        ⟨(s.takeWhile isFlag).reverse ++ before, s.dropWhile isFlag ++ [0]⟩) := by
  induction s generalizing minus zero before with
  | nil => simp [flagLoop]
  | cons c s ih =>
    have hc : c ≠ 0 := hs c (List.mem_cons_self ..)
    have hs' : ∀ c ∈ s, c ≠ 0 := fun c hc => hs c (List.mem_cons_of_mem _ hc)
    rw [List.cons_append, flagLoop, if_neg hc]
    by_cases hf : isFlag c = true
    · have hstep : flagLoop (minus || decide (c = ch '-'))
          (if zero || decide (c = ch '0') then ch '0' else ch ' ') (c :: before) (s ++ [0]) =
          if c = ch '-' then flagLoop true (if zero then ch '0' else ch ' ') (c :: before) (s ++ [0])
          else if c = ch '+' then flagLoop minus (if zero then ch '0' else ch ' ') (c :: before) (s ++ [0])
          else if c = ch ' ' then flagLoop minus (if zero then ch '0' else ch ' ') (c :: before) (s ++ [0])
          else if c = ch '0' then flagLoop minus (ch '0') (c :: before) (s ++ [0])
          else if c = ch '#' then flagLoop minus (if zero then ch '0' else ch ' ') (c :: before) (s ++ [0])
          else if c = ch '*' then flagLoop minus (if zero then ch '0' else ch ' ') (c :: before) (s ++ [0])
          else some (minus, (if zero then ch '0' else ch ' '), ⟨before, c :: (s ++ [0])⟩) := by
        simp only [isFlag, Bool.or_eq_true, decide_eq_true_eq] at hf
        rcases hf with ((((rfl | rfl) | rfl) | rfl) | rfl) | rfl
        all_goals simp [ch]
      have hmem : ∀ x, decide (x ∈ c :: s.takeWhile isFlag) = (decide (c = x) || decide (x ∈ s.takeWhile isFlag)) :=
        fun x => by rw [Bool.eq_iff_iff]; simp [@eq_comm _ x c]
      rw [← hstep, ih hs', List.takeWhile_cons, if_pos hf, List.dropWhile_cons, if_pos hf, hmem, hmem]
      simp [Bool.or_assoc]
    · have hnot := hf
      simp only [isFlag, Bool.or_eq_true, decide_eq_true_eq, not_or] at hnot
      obtain ⟨⟨⟨⟨⟨h1, h2⟩, h3⟩, h4⟩, h5⟩, h6⟩ := hnot
      rw [if_neg h1, if_neg h2, if_neg h3, if_neg h4, if_neg h5, if_neg h6, List.takeWhile_cons, if_neg hf,
        List.dropWhile_cons, if_neg hf]
      simp

/-- The width only grows. -/
private theorem le_decimal (ds : List Byte) (w : Nat) : w ≤ decimal w ds := by
  induction ds generalizing w with
  | nil => exact Nat.le_refl w
  | cons c ds ih =>
    have hle := ih (w * 10 + (c.toNat - (ch '0').toNat))
    exact le_trans (by omega) hle

private theorem widthLoop_eq (hs : ∀ c ∈ s, c ≠ 0) (w : Nat) (before : List Byte)
    (hfit : decimal w (s.takeWhile isDigit) + 70 < 2 ^ 31) : widthLoop w before (s ++ [0]) =
      some (decimal w (s.takeWhile isDigit), ⟨(s.takeWhile isDigit).reverse ++ before, s.dropWhile isDigit ++ [0]⟩) := by
  induction s generalizing w before with
  | nil => simp [widthLoop, decimal]
  | cons c s ih =>
    have hc : c ≠ 0 := hs c (List.mem_cons_self ..)
    have hs' : ∀ c ∈ s, c ≠ 0 := fun c hc => hs c (List.mem_cons_of_mem _ hc)
    rw [List.cons_append, widthLoop]
    rw [List.takeWhile_cons] at hfit ⊢
    rw [List.dropWhile_cons]
    by_cases hd : isDigit c = true
    · rw [if_pos hd] at hfit ⊢
      rw [if_pos hd]
      have hdec : decimal w (c :: s.takeWhile isDigit) =
          decimal (w * 10 + (c.toNat - (ch '0').toNat)) (s.takeWhile isDigit) := rfl
      rw [hdec] at hfit ⊢
      simp only [isDigit, Bool.and_eq_true, decide_eq_true_eq] at hd
      have hlow : (ch '0').toNat ≤ c.toNat := hd.1
      have hhigh : c.toNat ≤ (ch '9').toNat := hd.2
      have h48 : (ch '0').toNat = 48 := by decide
      have h57 : (ch '9').toNat = 57 := by decide
      have hle := le_decimal (s.takeWhile isDigit) (w * 10 + (c.toNat - (ch '0').toNat))
      have hsub : w * 10 + c.toNat - (ch '0').toNat = w * 10 + (c.toNat - (ch '0').toNat) := by omega
      rw [if_pos ⟨hc, hd.1, hd.2⟩, if_pos (by omega), hsub, ih hs' _ _ hfit]
      simp
    · rw [if_neg hd, if_neg hd]
      simp only [isDigit, Bool.and_eq_true, decide_eq_true_eq] at hd
      rw [if_neg fun h => hd h.2]
      rfl

private theorem strLoop_eq (hs : ∀ c ∈ s, c ≠ 0) : strLoop (s ++ [0]) = some s.length := by
  induction s with
  | nil => rfl
  | cons c s ih =>
    rw [List.cons_append, strLoop, if_pos (hs c (List.mem_cons_self ..)), ih fun c hc => hs c (List.mem_cons_of_mem _ hc)]
    rfl

end

/-! ### The conversions -/

private theorem printChar_flatten (c : Byte) (width : Nat) (minus : Bool) :
    (printChar c width minus).flatten = padText minus width [c] := by
  have hcount : (if width < 1 then 1 else width) - 1 = width - 1 := by split <;> omega
  rw [printChar, hcount]
  cases minus <;> simp [padText]

private theorem printStr_eq (s : CStr) (width : Nat) (minus : Bool) :
    ∃ o, printStr s.mem width minus = some o ∧ o.flatten = padText minus width s.bytes := by
  have hcount : (if width < s.bytes.length then s.bytes.length else width) - s.bytes.length =
      width - s.bytes.length := by split <;> omega
  rw [printStr, CStr.mem, strLoop_eq s.noNul]
  refine ⟨_, rfl, ?_⟩
  cases minus <;> simp [padText, hcount]

/-- The pointer that the step behind the `switch` leads to. -/
def StepsTo (p : Ptr) (s : List Byte) : Prop := ∃ before, p.inc = some ⟨before, s ++ [0]⟩

private theorem convert_number {sp : Spec} {c : Byte} {base : Nat} {upcase signed : Bool} (hc : sp.conv = some c)
    (hform : numberForm c = some (base, upcase, signed)) (hfit : sp.width + 70 < 2 ^ 31) (junk : Nat → Byte)
    (longFlag : Bool) (p : Ptr) (hp : p.get = some c) (ap : List Arg) :
    convert junk longFlag sp.width sp.minus (if sp.zero then ch '0' else ch ' ') p ap =
      (sp.render ap).map fun r => ([r.1], r.2, p) := by
  have hva : vaNum longFlag ap = vaWord ap := by cases longFlag <;> rfl
  have hprint : ∀ {base : Nat}, 1 < base → ∀ (w : Word) (neg upcase : Bool),
      printNum junk w base neg sp.width sp.minus (if sp.zero then ch '0' else ch ' ') upcase =
        some [padNum sp.minus sp.zero sp.width neg (numeral base upcase w.toNat)] :=
    fun hbase w neg upcase => printNum_eq hbase junk w neg sp.minus sp.zero upcase hfit
  have hrender : sp.render ap = (vaWord ap).map fun r => (sp.number base upcase signed r.1, r.2) := by
    rw [Spec.render, hc]
    simp only [hform]
  have hplain : ∀ {base : Nat} (upcase : Bool), 1 < base →
      ((vaWord ap).bind fun (num, ap) =>
        (printNum junk num base false sp.width sp.minus (if sp.zero then ch '0' else ch ' ') upcase).map fun o =>
          (o, ap, p)) =
      ((vaWord ap).map fun r => (sp.number base upcase false r.1, r.2)).map fun r => ([r.1], r.2, p) := by
    intro base upcase hbase
    cases vaWord ap with
    | none => rfl
    | some r =>
      obtain ⟨num, ap'⟩ := r
      rw [Option.bind_some]
      dsimp only
      rw [hprint hbase]
      rfl
  -- The conversions differ in base and sign only; those that take a signed number print its absolute value.
  rw [convert, hp, Option.bind_some, hrender, hva]
  unfold numberForm at hform
  by_cases hb : c = ch 'b'
  · rw [if_pos hb] at hform ⊢
    simp only [Option.some.injEq, Prod.mk.injEq] at hform
    obtain ⟨rfl, rfl, rfl⟩ := hform
    exact hplain false (by decide)
  rw [if_neg hb] at hform ⊢
  by_cases hd : c = ch 'd' ∨ c = ch 'D'
  · rw [if_pos hd] at hform ⊢
    simp only [Option.some.injEq, Prod.mk.injEq] at hform
    obtain ⟨rfl, rfl, rfl⟩ := hform
    cases vaWord ap with
    | none => rfl
    | some r =>
      obtain ⟨num, ap'⟩ := r
      simp only [Option.bind_some, Option.map_some, Spec.number, Bool.true_and, decide_eq_true_eq]
      by_cases hneg : num.toInt < 0
      · simp only [if_pos hneg]
        rw [hprint (by decide)]
        rfl
      · simp only [if_neg hneg]
        rw [hprint (by decide)]
        rfl
  rw [if_neg hd] at hform ⊢
  by_cases ho : c = ch 'o' ∨ c = ch 'O'
  · rw [if_pos ho] at hform ⊢
    simp only [Option.some.injEq, Prod.mk.injEq] at hform
    obtain ⟨rfl, rfl, rfl⟩ := hform
    exact hplain false (by decide)
  rw [if_neg ho] at hform ⊢
  by_cases hu : c = ch 'u' ∨ c = ch 'U'
  · rw [if_pos hu] at hform ⊢
    simp only [Option.some.injEq, Prod.mk.injEq] at hform
    obtain ⟨rfl, rfl, rfl⟩ := hform
    exact hplain false (by decide)
  rw [if_neg hu] at hform ⊢
  by_cases hx : c = ch 'x'
  · rw [if_pos hx] at hform ⊢
    simp only [Option.some.injEq, Prod.mk.injEq] at hform
    obtain ⟨rfl, rfl, rfl⟩ := hform
    exact hplain false (by decide)
  rw [if_neg hx] at hform ⊢
  by_cases hX : c = ch 'X'
  · rw [if_pos hX] at hform ⊢
    simp only [Option.some.injEq, Prod.mk.injEq] at hform
    obtain ⟨rfl, rfl, rfl⟩ := hform
    exact hplain true (by decide)
  rw [if_neg hX] at hform
  cases hform

/-- The other conversions. -/
private theorem convert_other {c : Byte} (hform : numberForm c = none) (junk : Nat → Byte) (longFlag : Bool) (width : Nat)
    (ladjust : Bool) (padc : Byte) (p : Ptr) (hp : p.get = some c) (ap : List Arg) :
    convert junk longFlag width ladjust padc p ap =
      if c = ch 'c' then (vaWord ap).map fun r => (printChar (r.1.setWidth 8) width ladjust, r.2, p)
      else if c = ch 's' then (vaStr ap).bind fun r => (printStr r.1.mem width ladjust).map fun o => (o, r.2, p)
      else if c = 0 then p.dec.map fun p => ([], ap, p)
      else some ([[c]], ap, p) := by
  unfold numberForm at hform
  rw [convert, hp, Option.bind_some]
  split at hform
  case isTrue => cases hform
  case isFalse hb =>
  split at hform
  case isTrue => cases hform
  case isFalse hd =>
  split at hform
  case isTrue => cases hform
  case isFalse ho =>
  split at hform
  case isTrue => cases hform
  case isFalse hu =>
  split at hform
  case isTrue => cases hform
  case isFalse hx =>
  split at hform
  case isTrue => cases hform
  case isFalse hX =>
  rw [if_neg hb, if_neg hd, if_neg ho, if_neg hu, if_neg hx, if_neg hX]

/-- A conversion prints its text, and leaves the scanner behind its character, or at the NUL. -/
private theorem convert_eq {sp : Spec} {s : List Byte} (hconv : sp.conv = s.head?) (hs : ∀ c ∈ s, c ≠ 0)
    (hfit : sp.width + 70 < 2 ^ 31) (junk : Nat → Byte) (longFlag : Bool) {before : List Byte} (hbefore : before ≠ [])
    (ap : List Arg) :
    match sp.render ap with
    | none => convert junk longFlag sp.width sp.minus (if sp.zero then ch '0' else ch ' ') ⟨before, s ++ [0]⟩ ap = none
    | some (o, ap') => ∃ out p, convert junk longFlag sp.width sp.minus (if sp.zero then ch '0' else ch ' ')
        ⟨before, s ++ [0]⟩ ap = some (out, ap', p) ∧ out.flatten = o ∧ StepsTo p s.tail := by
  cases s with
  | nil =>
    have hrender : sp.render ap = some ([], ap) := by rw [Spec.render, hconv]; rfl
    rw [hrender]
    cases before with
    | nil => exact absurd rfl hbefore
    | cons b before =>
      have hform : numberForm 0 = none := by decide
      have h1 : (0 : Byte) ≠ ch 'c' := by decide
      have h2 : (0 : Byte) ≠ ch 's' := by decide
      have hcv : convert junk longFlag sp.width sp.minus (if sp.zero then ch '0' else ch ' ') ⟨b :: before, [] ++ [0]⟩ ap =
          some ([], ap, ⟨before, b :: [0]⟩) := by
        rw [convert_other hform junk longFlag _ _ _ _ rfl, if_neg h1, if_neg h2, if_pos rfl]
        rfl
      exact ⟨[], ⟨before, b :: [0]⟩, hcv, rfl, b :: before, rfl⟩
  | cons c s =>
    have hc : c ≠ 0 := hs c (List.mem_cons_self ..)
    have hget : (⟨before, c :: s ++ [0]⟩ : Ptr).get = some c := rfl
    have hstep : StepsTo ⟨before, c :: s ++ [0]⟩ s := ⟨c :: before, rfl⟩
    have hconv : sp.conv = some c := hconv
    cases hform : numberForm c with
    | some form =>
      obtain ⟨base, upcase, signed⟩ := form
      have hcv := convert_number hconv hform hfit junk longFlag _ hget ap
      cases hr : sp.render ap with
      | none => rw [hcv, hr]; rfl
      | some r => exact ⟨[r.1], _, by rw [hcv, hr]; rfl, by simp, hstep⟩
    | none =>
      have hcv := convert_other hform junk longFlag sp.width sp.minus (if sp.zero then ch '0' else ch ' ') _ hget ap
      have hrender : sp.render ap =
          if c = ch 'c' then (vaWord ap).map fun r => (padText sp.minus sp.width [r.1.setWidth 8], r.2)
          else if c = ch 's' then (vaStr ap).map fun r => (padText sp.minus sp.width r.1.bytes, r.2)
          else some ([c], ap) := by
        rw [Spec.render, hconv]
        simp only [hform]
      rw [hcv, hrender]
      by_cases h1 : c = ch 'c'
      · rw [if_pos h1, if_pos h1]
        cases vaWord ap with
        | none => rfl
        | some r => exact ⟨_, _, rfl, printChar_flatten _ _ _, hstep⟩
      · rw [if_neg h1, if_neg h1]
        by_cases h2 : c = ch 's'
        · rw [if_pos h2, if_pos h2]
          cases vaStr ap with
          | none => rfl
          | some r =>
            obtain ⟨o, ho, hflat⟩ := printStr_eq r.1 sp.width sp.minus
            exact ⟨o, _, by rw [Option.bind_some, ho]; rfl, hflat, hstep⟩
        · rw [if_neg h2, if_neg h2, if_neg hc]
          exact ⟨[[c]], _, rfl, by simp, hstep⟩

/-! ### The pieces -/

private theorem length_parseSpec (s : List Byte) : (parseSpec s).2.length ≤ s.length := by
  have hflags : (s.dropWhile isFlag).length ≤ s.length := (List.dropWhile_sublist _).length_le
  have hdigits : ((s.dropWhile isFlag).dropWhile isDigit).length ≤ (s.dropWhile isFlag).length :=
    (List.dropWhile_sublist _).length_le
  simp only [parseSpec, List.length_tail]
  split
  · rw [List.length_tail]
    omega
  · omega

/-- More rounds than bytes change nothing. -/
private theorem piecesOf_eq (m : Nat) : ∀ {n : Nat} {s : List Byte}, s.length ≤ m → s.length ≤ n →
    piecesOf m s = piecesOf n s := by
  induction m with
  | zero =>
    intro n s hm hn
    obtain rfl := List.eq_nil_of_length_eq_zero (Nat.le_zero.1 hm)
    cases n <;> rfl
  | succ m ih =>
    intro n s hm hn
    cases s with
    | nil => cases n <;> rfl
    | cons c s =>
      cases n with
      | zero => cases hn
      | succ n =>
        rw [List.length_cons] at hm hn
        have hlen := length_parseSpec s
        simp only [piecesOf]
        rw [ih (n := n) (s := s) (by omega) (by omega), ih (n := n) (s := (parseSpec s).2) (by omega) (by omega)]

private theorem pieces_percent (s : List Byte) : pieces (ch '%' :: s) =
    .spec (parseSpec s).1 :: pieces (parseSpec s).2 := by
  have hpieces : pieces (ch '%' :: s) = .spec (parseSpec s).1 :: piecesOf s.length (parseSpec s).2 := by
    rw [pieces, List.length_cons, piecesOf, if_pos rfl]
  rw [hpieces, pieces, piecesOf_eq s.length (length_parseSpec s) (Nat.le_refl _)]

private theorem pieces_char {c : Byte} (hc : c ≠ ch '%') (s : List Byte) : pieces (c :: s) = .char c :: pieces s := by
  rw [pieces, List.length_cons, piecesOf, if_neg hc]
  rfl

/-- Literal text is printed as it is. -/
private theorem render_literal (l s : List Byte) (hl : ∀ c ∈ l, c ≠ ch '%') (args : List Arg) :
    render (pieces (l ++ s)) args = (render (pieces s) args).map fun r => (l ++ r.1, r.2) := by
  induction l with
  | nil => simp
  | cons c l ih =>
    rw [List.cons_append, pieces_char (hl c (List.mem_cons_self ..)), render]
    simp only [Piece.render, Option.bind_some, ih fun c hc => hl c (List.mem_cons_of_mem _ hc), Option.map_map]
    rfl

/-! ### The outer loop -/

private theorem noNul_dropWhile {s : List Byte} (hs : ∀ c ∈ s, c ≠ 0) (q : Byte → Bool) : ∀ c ∈ s.dropWhile q, c ≠ 0 :=
  fun c hc => hs c ((List.dropWhile_sublist q).subset hc)

/-- The optional `l`. -/
private theorem skip_long {s : List Byte} (hs : ∀ c ∈ s, c ≠ 0) (before : List Byte) : ∃ before' longFlag,
    (if (⟨before, s ++ [0]⟩ : Ptr).get = some (ch 'l') then (⟨before, s ++ [0]⟩ : Ptr).inc.map fun fmt => (fmt, true)
      else some (⟨before, s ++ [0]⟩, false)) =
      some (⟨before', (if s.head? = some (ch 'l') then s.tail else s) ++ [0]⟩, longFlag) ∧
    (before ≠ [] → before' ≠ []) ∧ ∀ c ∈ (if s.head? = some (ch 'l') then s.tail else s), c ≠ 0 := by
  cases s with
  | nil =>
    have hne : ¬(⟨before, [] ++ [0]⟩ : Ptr).get = some (ch 'l') := by
      show ¬some (0 : Byte) = some (ch 'l')
      decide
    exact ⟨before, false, by rw [if_neg hne]; rfl, id, nofun⟩
  | cons c s =>
    by_cases hl : c = ch 'l'
    · subst hl
      exact ⟨ch 'l' :: before, true, rfl, fun _ => nofun, fun c hc => hs c (List.mem_cons_of_mem _ hc)⟩
    · have hne : ¬(⟨before, c :: s ++ [0]⟩ : Ptr).get = some (ch 'l') := fun h => hl (Option.some.inj h)
      have hne' : ¬(c :: s).head? = some (ch 'l') := fun h => hl (Option.some.inj h)
      exact ⟨before, false, by rw [if_neg hne, if_neg hne'], id, by rw [if_neg hne']; exact hs⟩

/-- The loops behind the `%` read what `parseSpec` finds. -/
private theorem scanSpec_eq {s : List Byte} (before : List Byte) (hs : ∀ c ∈ s, c ≠ 0) (hbefore : before ≠ [])
    (hfit : (parseSpec s).1.width + 70 < 2 ^ 31) : ∃ before' longFlag rest, before' ≠ [] ∧ (∀ c ∈ rest, c ≠ 0) ∧
      (parseSpec s).1.conv = rest.head? ∧ (parseSpec s).2 = rest.tail ∧
      ∀ {β : Type} (f : Bool → Byte → Nat → Ptr → Bool → Option β),
        ((flagLoop false (ch ' ') before (s ++ [0])).bind fun (ladjust, padc, fmt) =>
          (widthLoop 0 fmt.before fmt.after).bind fun (width, fmt) =>
            (if fmt.get = some (ch 'l') then fmt.inc.map fun fmt => (fmt, true) else some (fmt, false)).bind
              fun (fmt, longFlag) => f ladjust padc width fmt longFlag) =
        f (parseSpec s).1.minus (if (parseSpec s).1.zero then ch '0' else ch ' ') (parseSpec s).1.width
          ⟨before', rest ++ [0]⟩ longFlag := by
  have hflag := flagLoop_eq hs false false before
  simp only [Bool.false_eq_true, if_false, Bool.false_or] at hflag
  have hs₁ := noNul_dropWhile hs isFlag
  have hwidth := widthLoop_eq hs₁ 0 ((s.takeWhile isFlag).reverse ++ before) hfit
  have hs₂ := noNul_dropWhile hs₁ isDigit
  obtain ⟨before', longFlag, hlong, hne, hrest⟩ := skip_long hs₂
    (((s.dropWhile isFlag).takeWhile isDigit).reverse ++ ((s.takeWhile isFlag).reverse ++ before))
  refine ⟨before', longFlag, _, hne (by simp [hbefore]), hrest, rfl, rfl, fun f => ?_⟩
  rw [hflag, Option.bind_some]
  dsimp only
  rw [hwidth, Option.bind_some]
  dsimp only
  rw [hlong, Option.bind_some]
  rfl

/-- The conversions behind literal text are among those of the format. -/
private theorem fits_of_literal {s : List Byte} (l : List Byte) (hl : ∀ c ∈ l, c ≠ ch '%')
    (h : ∀ p ∈ pieces (l ++ s), p.fits) :
    ∀ p ∈ pieces s, p.fits := by
  induction l with
  | nil => exact h
  | cons c l ih =>
    refine ih (fun c hc => hl c (List.mem_cons_of_mem _ hc)) fun p hp => h p ?_
    rw [List.cons_append, pieces_char (hl c (List.mem_cons_self ..))]
    exact List.mem_cons_of_mem _ hp

/-- What is printed from a place in the format on. -/
private theorem vprintfmtLoop_eq (junk : Nat → Byte) (n : Nat) : ∀ {s : List Byte} (before : List Byte) (ap : List Arg),
    s.length < n → (∀ c ∈ s, c ≠ 0) → (∀ p ∈ pieces s, p.fits) →
    (vprintfmtLoop junk n ⟨before, s ++ [0]⟩ ap).map (fun r => (r.1.flatten, r.2)) = render (pieces s) ap := by
  induction n with
  | zero =>
    intro s before ap hn
    cases hn
  | succ n ih =>
    intro s before ap hn hs hfits
    -- The text up to the next `%` is printed as it is, and what follows is one conversion and the rest.
    obtain ⟨l, t, hl, hst⟩ : ∃ l t, (∀ c ∈ l, c ≠ ch '%') ∧ s = l ++ t ∧ (s.takeWhile fun c => decide (c ≠ ch '%')) = l ∧
        t = s.dropWhile fun c => decide (c ≠ ch '%') :=
      ⟨_, _, fun c hc => by simpa using List.all_eq_true.1 List.all_takeWhile c hc, List.takeWhile_append_dropWhile.symm, rfl, rfl⟩
    obtain ⟨rfl, htake, hdrop⟩ := hst
    have hscan : scanLoop (l ++ t ++ [0]) = some l.length := by rw [scanLoop_eq hs, htake]
    rw [vprintfmtLoop, hscan, Option.bind_some, render_literal l t hl]
    have hadd : (⟨before, l ++ t ++ [0]⟩ : Ptr).add l.length = ⟨l.reverse ++ before, t ++ [0]⟩ := by
      simp [Ptr.add, List.append_assoc]
    have hlit : (l ++ t ++ [0]).take l.length = l := by simp [List.append_assoc]
    simp only [hadd, hlit]
    cases t with
    | nil =>
      show (some ([l], ap)).map _ = _
      simp [pieces, piecesOf, render]
    | cons c t =>
      have hc : c = ch '%' := by
        have hhead := List.head?_dropWhile_not (fun c => decide (c ≠ ch '%')) (l ++ c :: t)
        rw [← hdrop] at hhead
        simpa using hhead
      subst hc
      have ht : ∀ c ∈ t, c ≠ 0 := fun c hc => hs c (by simp [hc])
      have hfits : ∀ p ∈ pieces (ch '%' :: t), p.fits := fits_of_literal l hl hfits
      rw [pieces_percent] at hfits ⊢
      have hget : (⟨l.reverse ++ before, ch '%' :: t ++ [0]⟩ : Ptr).get = some (ch '%') := rfl
      have hinc : (⟨l.reverse ++ before, ch '%' :: t ++ [0]⟩ : Ptr).inc =
          some ⟨ch '%' :: (l.reverse ++ before), t ++ [0]⟩ := rfl
      have hzero : ch '%' ≠ 0 := by decide
      have hfit : (parseSpec t).1.width + 70 < 2 ^ 31 := by simpa [Piece.fits] using hfits _ (List.mem_cons_self ..)
      obtain ⟨before', longFlag, rest, hne, hrest, hconv, htail, hspec⟩ :=
        scanSpec_eq (ch '%' :: (l.reverse ++ before)) ht (by simp) hfit
      rw [hget, Option.bind_some, if_neg hzero, hinc, Option.bind_some]
      refine (congrArg _ (hspec fun ladjust padc width fmt longFlag =>
        (convert junk longFlag width ladjust padc fmt ap).bind fun r =>
          r.2.2.inc.bind fun fmt => (vprintfmtLoop junk n fmt r.2.1).map fun r' => (l :: r.1 ++ r'.1, r'.2))).trans ?_
      have hcv := convert_eq hconv hrest hfit junk longFlag hne ap
      rw [render]
      simp only [Piece.render]
      have hlen : (parseSpec t).2.length < n := by
        have hle := length_parseSpec t
        rw [List.length_append, List.length_cons] at hn
        omega
      cases hr : (parseSpec t).1.render ap with
      | none =>
        rw [hr] at hcv
        have hcv : convert junk longFlag (parseSpec t).1.width (parseSpec t).1.minus
          (if (parseSpec t).1.zero then ch '0' else ch ' ') ⟨before', rest ++ [0]⟩ ap = none := hcv
        rw [hcv]
        rfl
      | some r =>
        obtain ⟨o, ap'⟩ := r
        rw [hr] at hcv
        obtain ⟨out, p, hcv, hflat, before'', hstep⟩ := hcv
        rw [hcv, Option.bind_some, Option.bind_some]
        dsimp only
        rw [hstep, Option.bind_some, ← htail]
        have hnext := ih before'' ap' hlen (fun c hc => hrest c ?_)
          fun p hp => hfits p (List.mem_cons_of_mem _ hp)
        · rw [← hnext, Option.map_map, Option.map_map, Option.map_map]
          refine congrFun (congrArg Option.map (funext fun r => ?_)) _
          simp [hflat]
        · rw [htail] at hc
          exact List.mem_of_mem_tail hc

/-- `vprintfmt` prints the rendering of its format, whatever the number buffer held before. -/
theorem vprintfmt_eq_render (junk : Nat → Byte) (fmt : CStr) (ap : List Arg) (hfits : ∀ p ∈ pieces fmt.bytes, p.fits) :
    (vprintfmt junk fmt ap).map (fun r => (r.1.flatten, r.2)) = render (pieces fmt.bytes) ap :=
  vprintfmtLoop_eq junk _ [] ap (Nat.lt_succ_self _) fmt.noNul hfits

theorem vprintfmt_eq_render_seven : (∀ p ∈ pieces [ch '%', ch '0', ch '3', ch 'd'], p.fits) ∧
    (vprintfmt (fun _ => 0) ⟨[ch '%', ch '0', ch '3', ch 'd'], by decide⟩ [.word (-7)]).map
      (fun r => (r.1.flatten, r.2)) = render (pieces [ch '%', ch '0', ch '3', ch 'd']) [.word (-7)] :=
  ⟨by decide, vprintfmt_eq_render (fun _ => 0) ⟨[ch '%', ch '0', ch '3', ch 'd'], by decide⟩ [.word (-7)] (by decide)⟩

example : (render (pieces [ch '%', ch '0', ch '3', ch 'd']) [.word (-7)]).map Prod.fst = some [ch '-', ch '0', ch '7'] := by
  decide

end Mos
