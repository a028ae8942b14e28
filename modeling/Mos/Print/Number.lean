import Mos.Print.Format
import Mathlib.Data.Nat.Digits.Defs

/-!
# The number printer

`print_num` writes a number from its last digit to its sign, fills the rest of the field and turns the result around.
What comes out is the numeral with its sign, padded to the width.
-/

namespace Mos

/-! ### The notation of numbers -/

/-- The digits of `n` from the highest on. -/
def numeral (base : Nat) (upcase : Bool) (n : Nat) : List Byte :=
  if n = 0 then [ch '0'] else (Nat.digits base n).reverse.map (digit upcase)

/-- A text in a field of the given width. -/
def padText (minus : Bool) (width : Nat) (s : List Byte) : List Byte :=
  if minus then s ++ List.replicate (width - s.length) (ch ' ')
  else List.replicate (width - s.length) (ch ' ') ++ s

/-- A number in a field; zeros go between the sign and the digits. -/
def padNum (minus zero : Bool) (width : Nat) (neg : Bool) (ds : List Byte) : List Byte :=
  let sign := if neg then [ch '-'] else []
  if !minus && zero then sign ++ List.replicate (width - (sign ++ ds).length) (ch '0') ++ ds
  else padText minus width (sign ++ ds)

/-! ### The buffer -/

/-- The buffer starts with `l`. -/
def Filled (buf : Nat → Byte) (l : List Byte) : Prop := (List.range l.length).map buf = l

namespace Filled

variable {buf : Nat → Byte} {l l' : List Byte} {c : Byte}

private theorem nil (buf : Nat → Byte) : Filled buf [] := rfl

private theorem get (h : Filled buf l) {i : Nat} (hi : i < l.length) : buf i = l[i] := by
  have hmap : ((List.range l.length).map buf)[i]? = l[i]? := congrArg (fun l : List Byte => l[i]?) h
  rw [List.getElem?_map, List.getElem?_range hi, List.getElem?_eq_getElem hi, Option.map_some] at hmap
  exact Option.some.inj hmap

private theorem of_get (h : ∀ i (hi : i < l.length), buf i = l[i]) : Filled buf l := by
  refine List.ext_getElem (by simp) fun i hi hi' => ?_
  rw [List.getElem_map, List.getElem_range]
  exact h i hi'

/-- A beginning of what the buffer starts with. -/
private theorem left (h : Filled buf (l ++ l')) : Filled buf l := by
  refine of_get fun i hi => ?_
  have hi' : i < (l ++ l').length := by rw [List.length_append]; omega
  rw [h.get hi', List.getElem_append_left hi]

/-- Writing the next byte. -/
private theorem push (h : Filled buf l) (c : Byte) : Filled (Function.update buf l.length c) (l ++ [c]) := by
  refine of_get fun i hi => ?_
  rw [List.length_append, List.length_singleton] at hi
  by_cases hil : i = l.length
  · subst hil
    rw [Function.update_self, List.getElem_concat_length rfl]
  · have hlt : i < l.length := by omega
    rw [Function.update_of_ne hil, h.get hlt, List.getElem_append_left hlt]

private theorem fill (c : Byte) : ∀ (n : Nat) {buf : Nat → Byte} {l : List Byte}, Filled buf l →
    Filled (fillLoop c n l.length buf) (l ++ List.replicate n c) := by
  intro n
  induction n with
  | zero =>
    intro buf l h
    rw [List.replicate_zero, List.append_nil]
    exact h
  | succ n ih =>
    intro buf l h
    have hpush := ih (h.push c)
    rw [List.length_append, List.length_singleton, List.append_assoc, List.singleton_append,
      ← List.replicate_succ] at hpush
    exact hpush

end Filled

/-- The loop exchanges what lies at the same distance from the two ends. -/
private theorem reverseLoop_apply (last : Nat) : ∀ (buf : Nat → Byte) (begin i : Nat),
    reverseLoop buf begin last i = if begin ≤ i ∧ i ≤ last then buf (begin + last - i) else buf i := by
  induction last with
  | zero =>
    intro buf begin i
    rw [reverseLoop]
    split
    case isTrue hi =>
      have hzero : begin + 0 - i = i := by omega
      rw [hzero]
    case isFalse => rfl
  | succ last ih =>
    intro buf begin i
    rw [reverseLoop]
    by_cases hlt : begin < last + 1
    · rw [if_pos hlt, ih]
      by_cases hin : begin + 1 ≤ i ∧ i ≤ last
      · have hne : begin + 1 + last - i ≠ last + 1 := by omega
        have hne' : begin + 1 + last - i ≠ begin := by omega
        have hsum : begin + 1 + last - i = begin + (last + 1) - i := by omega
        rw [if_pos hin, if_pos (by omega), Function.update_of_ne hne, Function.update_of_ne hne', hsum]
      · rw [if_neg hin]
        by_cases hil : i = last + 1
        · have hsum : begin + (last + 1) - (last + 1) = begin := by omega
          rw [hil, Function.update_self, if_pos (by omega), hsum]
        · rw [Function.update_of_ne hil]
          by_cases hib : i = begin
          · have hsum : begin + (last + 1) - begin = last + 1 := by omega
            rw [hib, Function.update_self, if_pos (by omega), hsum]
          · rw [Function.update_of_ne hib, if_neg (by omega)]
    · rw [if_neg hlt]
      split
      case isTrue hi =>
        have hsum : begin + (last + 1) - i = i := by omega
        rw [hsum]
      case isFalse => rfl

/-- A beginning of the buffer is turned around. -/
private theorem Filled.reverse {buf : Nat → Byte} {l l' : List Byte} (h : Filled buf (l ++ l')) (hl : 0 < l.length) :
    Filled (reverseLoop buf 0 (l.length - 1)) (l.reverse ++ l') := by
  refine of_get fun i hi => ?_
  rw [List.length_append, List.length_reverse] at hi
  rw [reverseLoop_apply, Nat.zero_add]
  by_cases hil : i < l.length
  · have hlt : l.length - 1 - i < (l ++ l').length := by rw [List.length_append]; omega
    rw [if_pos (by omega), h.get hlt, List.getElem_append_left (by omega),
      List.getElem_append_left (by rw [List.length_reverse]; exact hil), List.getElem_reverse]
  · have hlt : i < (l ++ l').length := by rw [List.length_append]; exact hi
    rw [if_neg (by omega), h.get hlt, List.getElem_append_right (by omega),
      List.getElem_append_right (by rw [List.length_reverse]; omega)]
    simp only [List.length_reverse]

/-! ### The digits -/

/-- The digits from the lowest on; zero has one. -/
def lowDigits (base n : Nat) : List Nat := if n = 0 then [0] else Nat.digits base n

private theorem lowDigits_step {base n : Nat} (hbase : 1 < base) :
    lowDigits base n = n % base :: if n / base ≠ 0 then lowDigits base (n / base) else [] := by
  by_cases hn : n = 0
  · subst hn
    simp [lowDigits]
  · have hstep : Nat.digits base n = n % base :: Nat.digits base (n / base) :=
      Nat.digits_def' hbase (Nat.pos_of_ne_zero hn)
    rw [lowDigits, if_neg hn, hstep]
    by_cases hq : n / base = 0
    · simp [hq]
    · rw [if_pos hq, lowDigits, if_neg hq]

private theorem numeral_eq (base : Nat) (upcase : Bool) (n : Nat) :
    numeral base upcase n = ((lowDigits base n).map (digit upcase)).reverse := by
  unfold numeral lowDigits
  by_cases hn : n = 0
  · rw [if_pos hn, if_pos hn]
    cases upcase <;> rfl
  · rw [if_neg hn, if_neg hn, List.map_reverse]

/-- The loop writes all digits before its rounds are used up. -/
private theorem digitLoop_spec {base : Nat} (hbase : 1 < base) (upcase : Bool) (n : Nat) :
    ∀ {u : Nat} {buf : Nat → Byte} {l : List Byte}, u < base ^ n → 0 < n → Filled buf l →
      ∃ buf', digitLoop base upcase n u buf l.length =
          some (buf', (l ++ (lowDigits base u).map (digit upcase)).length) ∧
        Filled buf' (l ++ (lowDigits base u).map (digit upcase)) := by
  induction n with
  | zero =>
    intro u buf l _ h0
    exact absurd h0 (Nat.lt_irrefl 0)
  | succ n ih =>
    intro u buf l hu _ h
    have hpush := h.push (digit upcase (u % base))
    rw [digitLoop, lowDigits_step hbase]
    by_cases hq : u / base = 0
    · refine ⟨Function.update buf l.length (digit upcase (u % base)), ?_, ?_⟩
      · rw [if_neg (not_not.2 hq), if_neg (not_not.2 hq)]
        simp only [List.length_append, List.length_map, List.length_cons, List.length_nil]
      · rw [if_neg (not_not.2 hq)]
        exact hpush
    · have hlt : u / base < base ^ n := by
        rw [Nat.div_lt_iff_lt_mul (by omega), ← Nat.pow_succ]
        exact hu
      have hn : 0 < n := by
        rcases Nat.eq_zero_or_pos n with rfl | hn
        · exact absurd (Nat.lt_one_iff.1 hlt) hq
        · exact hn
      obtain ⟨buf', hbuf', hfilled⟩ := ih hlt hn hpush
      rw [List.length_append, List.length_singleton] at hbuf'
      rw [if_pos hq, if_pos hq, List.map_cons]
      rw [List.append_assoc, List.singleton_append] at hbuf' hfilled
      exact ⟨buf', hbuf', hfilled⟩

/-! ### The field -/

section

variable {buf : Nat → Byte} {l : List Byte}

/-- What is passed to the callback. -/
private theorem Filled.out (h : Filled buf l) {n : Nat} (hn : n = l.length) : [(List.range n).map buf] = [l] := by
  subst hn
  exact congrArg (fun l => [l]) h

/-- Only the number is turned around. -/
private theorem Filled.padRight (h : Filled buf l) (hl : 0 < l.length) (c : Byte) (n : Nat) :
    [(List.range (l.length + n)).map (reverseLoop (fillLoop c n l.length buf) 0 (l.length - 1))] =
      [l.reverse ++ List.replicate n c] :=
  ((Filled.fill c n h).reverse hl).out (by simp)

/-- The whole field is turned around. -/
private theorem Filled.padLeft (h : Filled buf l) (hl : 0 < l.length) (c : Byte) (n : Nat) :
    [(List.range (l.length + n)).map (reverseLoop (fillLoop c n l.length buf) 0 (l.length + n - 1))] =
      [List.replicate n c ++ l.reverse] := by
  have hlen : (l ++ List.replicate n c).length = l.length + n := by simp
  have hfill : Filled (fillLoop c n l.length buf) ((l ++ List.replicate n c) ++ []) := by
    rw [List.append_nil]
    exact Filled.fill c n h
  have hrev := hfill.reverse (by omega)
  rw [hlen, List.append_nil, List.reverse_append, List.reverse_replicate] at hrev
  exact hrev.out (by simp [Nat.add_comm])

/-- The sign is written again, behind the zeros that took its place. -/
private theorem Filled.padZero (h : Filled buf l) (n : Nat) :
    [(List.range (l.length + n + 1)).map (reverseLoop (Function.update (fillLoop (ch '0') n l.length buf)
        (l.length + n) (ch '-')) 0 (l.length + n))] = [[ch '-'] ++ List.replicate n (ch '0') ++ l.reverse] := by
  have hlen : (l ++ List.replicate n (ch '0')).length = l.length + n := by simp
  have hfill := (Filled.fill (ch '0') n h).push (ch '-')
  rw [hlen, ← List.append_nil (l ++ List.replicate n (ch '0') ++ [ch '-'])] at hfill
  have hrev := hfill.reverse (by simp)
  have hlast : (l ++ List.replicate n (ch '0') ++ [ch '-']).length - 1 = l.length + n := by
    rw [List.length_append, hlen]
    rfl
  rw [hlast, List.append_nil, List.reverse_append, List.reverse_append, List.reverse_replicate,
    List.reverse_singleton, ← List.append_assoc] at hrev
  exact hrev.out (by simp; omega)

end

/-- `print_num` prints the numeral in its field. -/
theorem printNum_eq {base : Nat} (hbase : 1 < base) (junk : Nat → Byte) (u : Word) (neg : Bool) {length : Nat}
    (ladjust zero upcase : Bool) (hlen : length + 70 < 2 ^ 31) :
    printNum junk u base neg length ladjust (if zero then ch '0' else ch ' ') upcase =
      some [padNum ladjust zero length neg (numeral base upcase u.toNat)] := by
  have hu : u.toNat < base ^ 32 := Nat.lt_of_lt_of_le u.isLt (Nat.pow_le_pow_left hbase 32)
  obtain ⟨buf, hbuf, hfilled⟩ := digitLoop_spec hbase upcase 32 hu (by omega) (Filled.nil junk)
  rw [List.nil_append] at hbuf hfilled
  rw [List.length_nil] at hbuf
  rw [numeral_eq, printNum, if_pos hlen, hbuf, Option.map_some]
  -- The digits are in the buffer the wrong way round, with the sign behind them; then it is filled up and turned.
  generalize hds : (lowDigits base u.toNat).map (digit upcase) = ds at hfilled
  have hpos : 0 < ds.length := by
    rw [← hds, List.length_map, lowDigits_step hbase]
    exact Nat.zero_lt_succ _
  have hmax : ∀ n, (if length < n then n else length) = n + (length - n) := fun n => by
    split <;> omega
  have hsub : ∀ n, (if length < n then n else length) - n = length - n := fun n => by
    rw [hmax]
    omega
  have hspace : ch ' ' ≠ ch '0' := by decide
  have hfield : ∀ {b : Nat → Byte} {l : List Byte} (c : Byte), Filled b l → 0 < l.length →
      [(List.range (if length < l.length then l.length else length)).map
        (reverseLoop (fillLoop c ((if length < l.length then l.length else length) - l.length) l.length b) 0
          (if ladjust then l.length - 1 else (if length < l.length then l.length else length) - 1))] =
      [if ladjust then l.reverse ++ List.replicate (length - l.length) c
        else List.replicate (length - l.length) c ++ l.reverse] := by
    intro b l c hb hl
    rw [hsub, hmax]
    cases ladjust with
    | true => exact hb.padRight hl c _
    | false => exact hb.padLeft hl c _
  cases neg with
  | false =>
    simp only [Bool.false_eq_true, false_and, if_false]
    rw [hfield _ hfilled hpos]
    cases ladjust with
    | true => simp [padNum, padText]
    | false => cases zero <;> simp [padNum, padText]
  | true =>
    have hneg := hfilled.push (ch '-')
    simp only [if_true, true_and]
    by_cases hz : ladjust = false ∧ zero = true
    · obtain ⟨rfl, rfl⟩ := hz
      simp only [Bool.false_eq_true, if_false, if_true, and_self]
      have hcount : (if length < ds.length + 1 then ds.length + 1 else length) =
          ds.length + (length - (ds.length + 1)) + 1 := by
        rw [hmax]
        omega
      rw [hcount, Nat.add_sub_cancel, Nat.add_sub_cancel, Nat.add_sub_cancel_left, hneg.left.padZero]
      simp [padNum, Nat.add_comm]
    · have hpad : ¬(ladjust = false ∧ (if ladjust then ch ' ' else if zero then ch '0' else ch ' ') = ch '0') := by
        rintro ⟨rfl, hp⟩
        cases zero with
        | true => exact hz ⟨rfl, rfl⟩
        | false => exact hspace hp
      rw [if_neg hpad]
      have hlen' : ds.length + 1 = (ds ++ [ch '-']).length := by simp
      rw [hlen', hfield _ hneg (by simp)]
      cases ladjust with
      | true => simp [padNum, padText, Nat.add_comm]
      | false =>
        cases zero with
        | true => exact absurd ⟨rfl, rfl⟩ hz
        | false => simp [padNum, padText, Nat.add_comm]

end Mos
