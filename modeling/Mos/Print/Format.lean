import Mos.Kern.Mmu
import Mathlib.Logic.Function.Basic

/-!
# Formatted output (`lib/print.c`)

`vprintfmt` with the functions it calls.  A pointer into the format knows the bytes before it and the bytes from it to
the end of the string, the terminating NUL included, so that a read or a step past the NUL is a failure.  So are an
argument of the wrong kind and an `int` that overflows.  What is passed to the output callback is returned as the list
of its chunks.
-/

namespace Mos

def ch (c : Char) : Byte := BitVec.ofNat 8 c.toNat

/-- A string in memory, without the NUL that follows it. -/
structure CStr where
  bytes : List Byte
  noNul : ∀ b ∈ bytes, b ≠ 0

def CStr.mem (s : CStr) : List Byte := s.bytes ++ [0]

/-- What `va_arg` takes from the list: an `int` or a `long`, which are both words, or a string. -/
inductive Arg where
  | word (w : Word)
  | str (s : CStr)

def vaWord : List Arg → Option (Word × List Arg)
  | .word w :: ap => some (w, ap)
  | _ => none

def vaStr : List Arg → Option (CStr × List Arg)
  | .str s :: ap => some (s, ap)
  | _ => none

/-- A pointer into a string: what lies before it, nearest first, and what it points to. -/
structure Ptr where
  before : List Byte
  after : List Byte

namespace Ptr

def get (p : Ptr) : Option Byte := p.after.head?

def inc (p : Ptr) : Option Ptr :=
  match p.after with
  | [] => none
  | c :: after => some ⟨c :: p.before, after⟩

def dec (p : Ptr) : Option Ptr :=
  match p.before with
  | [] => none
  | c :: before => some ⟨before, c :: p.after⟩

def add (p : Ptr) (n : Nat) : Ptr := ⟨(p.after.take n).reverse ++ p.before, p.after.drop n⟩

end Ptr

/-! ### The parts of a number -/

def digit (upcase : Bool) (tmp : Nat) : Byte :=
  if tmp ≤ 9 then ch '0' + BitVec.ofNat 8 tmp
  else if upcase then ch 'A' + BitVec.ofNat 8 tmp - 10
  else ch 'a' + BitVec.ofNat 8 tmp - 10

/-- The `do` loop of `print_num`, which ends within `n` rounds: the digits of `u` from `buf[p]` on, lowest first. -/
def digitLoop (base : Nat) (upcase : Bool) : Nat → Nat → (Nat → Byte) → Nat → Option ((Nat → Byte) × Nat)
  | 0, _, _, _ => none
  | n + 1, u, buf, p =>
    let buf := Function.update buf p (digit upcase (u % base))
    if u / base ≠ 0 then digitLoop base upcase n (u / base) buf (p + 1) else some (buf, p + 1)

/-- `for (i = begin; i < end; i++) buf[i] = c`, where `n` is `end - begin`. -/
def fillLoop (c : Byte) : Nat → Nat → (Nat → Byte) → Nat → Byte
  | 0, _, buf => buf
  | n + 1, i, buf => fillLoop c n (i + 1) (Function.update buf i c)

/-- `while (end > begin)`: the bytes of `buf[begin..end]` change places. -/
def reverseLoop (buf : Nat → Byte) (begin : Nat) : Nat → Nat → Byte
  | 0 => buf
  | last + 1 =>
    if begin < last + 1 then
      reverseLoop (Function.update (Function.update buf begin (buf (last + 1))) (last + 1) (buf begin)) (begin + 1) last
    else buf

section

-- what the buffer on the stack holds before it is written
variable (junk : Nat → Byte)

def printNum (u : Word) (base : Nat) (negFlag : Bool) (length : Nat) (ladjust : Bool) (padc : Byte) (upcase : Bool) :
    Option (List (List Byte)) :=
  if length + 70 < 2 ^ 31 then
    (digitLoop base upcase 32 u.toNat junk 0).map fun (buf, p) =>
      let (buf, p) := if negFlag then (Function.update buf p (ch '-'), p + 1) else (buf, p)
      let actualLength := p
      let length := if length < actualLength then actualLength else length
      let padc := if ladjust then ch ' ' else padc
      let buf :=
        if negFlag ∧ ladjust = false ∧ padc = ch '0' then
          Function.update (fillLoop padc ((length - 1) - (actualLength - 1)) (actualLength - 1) buf) (length - 1) (ch '-')
        else fillLoop padc (length - actualLength) actualLength buf
      let last := if ladjust then actualLength - 1 else length - 1
      [(List.range length).map (reverseLoop buf 0 last)]
  else none

def printChar (c : Byte) (length : Nat) (ladjust : Bool) : List (List Byte) :=
  let length := if length < 1 then 1 else length
  if ladjust then [c] :: List.replicate (length - 1) [ch ' ']
  else List.replicate (length - 1) [ch ' '] ++ [[c]]

/-- The loop over `s1` in `print_str`. -/
def strLoop : List Byte → Option Nat
  | [] => none
  | c :: s => if c ≠ 0 then (strLoop s).map (· + 1) else some 0

def printStr (s : List Byte) (length : Nat) (ladjust : Bool) : Option (List (List Byte)) :=
  (strLoop s).map fun len =>
    let length := if length < len then len else length
    if ladjust then s.take len :: List.replicate (length - len) [ch ' ']
    else List.replicate (length - len) [ch ' '] ++ [s.take len]

/-! ### The scanner -/

/-- The number of bytes before the next `%`, or before the end. -/
def scanLoop : List Byte → Option Nat
  | [] => none
  | c :: s => if c ≠ 0 ∧ c ≠ ch '%' then (scanLoop s).map (· + 1) else some 0

/-- The loop over the flags, from the byte after the `%` on. -/
def flagLoop (ladjust : Bool) (padc : Byte) (before : List Byte) : List Byte → Option (Bool × Byte × Ptr)
  | [] => none
  | c :: after =>
    if c = 0 then some (ladjust, padc, ⟨before, c :: after⟩)
    else if c = ch '-' then flagLoop true padc (c :: before) after
    else if c = ch '+' then flagLoop ladjust padc (c :: before) after
    else if c = ch ' ' then flagLoop ladjust padc (c :: before) after
    else if c = ch '0' then flagLoop ladjust (ch '0') (c :: before) after
    else if c = ch '#' then flagLoop ladjust padc (c :: before) after
    else if c = ch '*' then flagLoop ladjust padc (c :: before) after
    else some (ladjust, padc, ⟨before, c :: after⟩)

/-- The loop over the digits of the width. -/
def widthLoop (width : Nat) (before : List Byte) : List Byte → Option (Nat × Ptr)
  | [] => none
  | c :: after =>
    if c ≠ 0 ∧ ch '0' ≤ c ∧ c ≤ ch '9' then
      if width * 10 + c.toNat < 2 ^ 31 then widthLoop (width * 10 + c.toNat - (ch '0').toNat) (c :: before) after
      else none
    else some (width, ⟨before, c :: after⟩)

/-- The argument of a numeric conversion; `long` and `int` have the same size. -/
def vaNum (longFlag : Bool) (ap : List Arg) : Option (Word × List Arg) := if longFlag then vaWord ap else vaWord ap

/-- The `switch`; the last component is the pointer that the `fmt++` behind it steps from. -/
def convert (longFlag : Bool) (width : Nat) (ladjust : Bool) (padc : Byte) (fmt : Ptr) (ap : List Arg) :
    Option (List (List Byte) × List Arg × Ptr) :=
  fmt.get.bind fun c =>
    if c = ch 'b' then
      (vaNum longFlag ap).bind fun (num, ap) =>
        (printNum junk num 2 false width ladjust padc false).map fun o => (o, ap, fmt)
    else if c = ch 'd' ∨ c = ch 'D' then
      (vaNum longFlag ap).bind fun (num, ap) =>
        let (num, negFlag) := if num.toInt < 0 then (-num, true) else (num, false)
        (printNum junk num 10 negFlag width ladjust padc false).map fun o => (o, ap, fmt)
    else if c = ch 'o' ∨ c = ch 'O' then
      (vaNum longFlag ap).bind fun (num, ap) =>
        (printNum junk num 8 false width ladjust padc false).map fun o => (o, ap, fmt)
    else if c = ch 'u' ∨ c = ch 'U' then
      (vaNum longFlag ap).bind fun (num, ap) =>
        (printNum junk num 10 false width ladjust padc false).map fun o => (o, ap, fmt)
    else if c = ch 'x' then
      (vaNum longFlag ap).bind fun (num, ap) =>
        (printNum junk num 16 false width ladjust padc false).map fun o => (o, ap, fmt)
    else if c = ch 'X' then
      (vaNum longFlag ap).bind fun (num, ap) =>
        (printNum junk num 16 false width ladjust padc true).map fun o => (o, ap, fmt)
    else if c = ch 'c' then
      (vaWord ap).map fun (num, ap) => (printChar (num.setWidth 8) width ladjust, ap, fmt)
    else if c = ch 's' then
      (vaStr ap).bind fun (s, ap) => (printStr s.mem width ladjust).map fun o => (o, ap, fmt)
    else if c = 0 then fmt.dec.map fun fmt => ([], ap, fmt)
    else some ([[c]], ap, fmt)

/-- The outer loop, which ends within `n` rounds.  The second component is what is left of the arguments. -/
def vprintfmtLoop : Nat → Ptr → List Arg → Option (List (List Byte) × List Arg)
  | 0, _, _ => none
  | n + 1, fmt, ap =>
    (scanLoop fmt.after).bind fun width =>
      let literal := fmt.after.take width
      let fmt := fmt.add width
      fmt.get.bind fun c =>
        if c = 0 then some ([literal], ap)
        else
          fmt.inc.bind fun fmt =>
            (flagLoop false (ch ' ') fmt.before fmt.after).bind fun (ladjust, padc, fmt) =>
              (widthLoop 0 fmt.before fmt.after).bind fun (width, fmt) =>
                (if fmt.get = some (ch 'l') then fmt.inc.map fun fmt => (fmt, true) else some (fmt, false)).bind
                  fun (fmt, longFlag) =>
                    (convert junk longFlag width ladjust padc fmt ap).bind fun (o, ap, fmt) =>
                      fmt.inc.bind fun fmt =>
                        (vprintfmtLoop n fmt ap).map fun (o', ap) => (literal :: o ++ o', ap)

def vprintfmt (fmt : CStr) (ap : List Arg) : Option (List (List Byte) × List Arg) :=
  vprintfmtLoop junk (fmt.bytes.length + 1) ⟨[], fmt.mem⟩ ap

end

end Mos
