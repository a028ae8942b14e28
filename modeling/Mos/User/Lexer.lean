import Mos.Kern.Mmu
import Mathlib.Data.List.TakeWhile

/-!
# The tokens of a command line (`_gettoken` and `gettoken` of `user/sh.c`)

The line is in a buffer with the 0 at its end, and a pointer into it is an index.  An access outside of the buffer ends
the program, and so does a loop that does not stop.
-/

namespace Mos.Sh

def WHITESPACE : List Byte := [0x20, 0x09, 0x0D, 0x0A]
def SYMBOLS : List Byte := [0x3C, 0x7C, 0x3E, 0x26, 0x3B, 0x28, 0x29]

/-- `'w'`. -/
def WORD : Byte := 0x77

/-- `strchr(s, c)` is not null. -/
def strchr (s : List Byte) (c : Byte) : Bool := s.contains c

/-- `buf[i] = x`. -/
def put (buf : List Byte) (i : Nat) (x : Byte) : Option (List Byte) :=
  if i < buf.length then some (buf.set i x) else none

/-- `while (strchr(WHITESPACE, *s)) *s++ = 0;` for less than `n` rounds. -/
def skipBlanks : Nat → List Byte → Nat → Option (List Byte × Nat)
  | 0, _, _ => none
  | n + 1, buf, s => buf[s]?.bind fun c =>
    if strchr WHITESPACE c then (put buf s 0).bind fun buf => skipBlanks n buf (s + 1) else some (buf, s)

/-- `while (*s && !strchr(WHITESPACE SYMBOLS, *s)) s++;`. -/
def skipWord : Nat → List Byte → Nat → Option Nat
  | 0, _, _ => none
  | n + 1, buf, s => buf[s]?.bind fun c =>
    if c ≠ 0 && !strchr (WHITESPACE ++ SYMBOLS) c then skipWord n buf (s + 1) else some s

/-- What `_gettoken` returns, `*p1` and `*p2`, and the buffer. -/
structure Scanned where
  t : Byte
  p1 : Option Nat
  p2 : Option Nat
  buf : List Byte

def _gettoken (buf : List Byte) : Option Nat → Option Scanned
  | none => some ⟨0, none, none, buf⟩
  | some s => (skipBlanks (buf.length + 1) buf s).bind fun (buf, s) => buf[s]?.bind fun c =>
    if c = 0 then some ⟨0, none, none, buf⟩
    else if strchr SYMBOLS c then (put buf s 0).map fun buf => ⟨c, some s, some (s + 1), buf⟩
    else (skipWord (buf.length + 1) buf s).map fun e => ⟨WORD, some s, some e, buf⟩

/-- The static variables of `gettoken`, and the buffer. -/
structure Lexer where
  nc : Byte
  np1 : Option Nat
  np2 : Option Nat
  buf : List Byte
  deriving DecidableEq

/-- `gettoken(s, 0)`. -/
def gettokenStart (buf : List Byte) : Option Lexer := (_gettoken buf (some 0)).map fun r => ⟨r.t, r.p1, r.p2, r.buf⟩

/-- `gettoken(0, &t)`: what it returns, and `t`. -/
def gettoken (x : Lexer) : Option ((Byte × Option Nat) × Lexer) :=
  (_gettoken x.buf x.np2).map fun r => ((x.nc, x.np1), ⟨r.t, r.p1, r.p2, r.buf⟩)

/-- The results of `k` calls. -/
def gettokens : Nat → Lexer → Option (List (Byte × Option Nat) × Lexer)
  | 0, x => some ([], x)
  | k + 1, x => (gettokens k x).bind fun (rs, x) => (gettoken x).map fun (r, x) => (rs ++ [r], x)

/-! ### The tokens of a string -/

inductive Token where
  | word (w : List Byte)
  | symbol (c : Byte)
  deriving DecidableEq

def Token.code : Token → Byte
  | .word _ => WORD
  | .symbol c => c

def isBlank (c : Byte) : Bool := WHITESPACE.contains c
def isSymbol (c : Byte) : Bool := SYMBOLS.contains c
def isWordChar (c : Byte) : Bool := !isBlank c && !isSymbol c

theorem length_dropWhile_le {α : Type} (p : α → Bool) (l : List α) : (l.dropWhile p).length ≤ l.length :=
  (List.dropWhile_sublist p).length_le

/-- The reference lexer. -/
def tokens (l : List Byte) : List Token :=
  match _h : l.dropWhile isBlank with
  | [] => []
  | c :: rest =>
    if isSymbol c then .symbol c :: tokens rest
    else .word (c :: rest.takeWhile isWordChar) :: tokens (rest.dropWhile isWordChar)
termination_by l.length
decreasing_by
  all_goals
    have hle := length_dropWhile_le isBlank l
    rw [_h, List.length_cons] at hle
    have hrest := length_dropWhile_le isWordChar rest
    omega

/-- The string at a pointer. -/
def cstring (buf : List Byte) (p : Nat) : List Byte := (buf.drop p).takeWhile (· ≠ 0)

/-! ### The loops -/

variable {buf l pre rest r w ws : List Byte} {c : Byte} {x y : Lexer} {n a : Nat}

private theorem getElem?_append_cons : (pre ++ c :: rest)[pre.length]? = some c := by simp

private theorem put_append : put (pre ++ c :: rest) pre.length 0 = some (pre ++ 0 :: rest) := by
  unfold put
  rw [if_pos (by simp), List.set_append_right _ _ (Nat.le_refl _), Nat.sub_self, List.set_cons_zero]

/-- The blanks at a pointer become zeros. -/
private theorem skipBlanks_eq (pre : List Byte) (hn : r.length < n) (h0 : 0 ∉ r) :
    skipBlanks n (pre ++ (r ++ [0])) pre.length =
    some (pre ++ List.replicate (r.takeWhile isBlank).length 0 ++ (r.dropWhile isBlank ++ [0]),
      pre.length + (r.takeWhile isBlank).length) := by
  induction r generalizing pre n with
  | nil =>
    obtain ⟨n, rfl⟩ := Nat.exists_eq_succ_of_ne_zero (Nat.ne_of_gt hn)
    unfold skipBlanks
    rw [List.nil_append, getElem?_append_cons, Option.bind_some, if_neg (by decide)]
    simp
  | cons c r ih =>
    obtain ⟨n, rfl⟩ := Nat.exists_eq_succ_of_ne_zero (Nat.ne_of_gt (Nat.lt_of_le_of_lt (Nat.zero_le _) hn))
    unfold skipBlanks
    rw [List.cons_append, getElem?_append_cons, Option.bind_some, show strchr WHITESPACE c = isBlank c from rfl]
    by_cases hc : isBlank c
    · have hnext := ih (pre ++ [0]) (n := n) (by simpa using hn) fun h => h0 (List.mem_cons_of_mem _ h)
      rw [List.append_assoc, List.singleton_append, List.length_append] at hnext
      rw [if_pos hc, put_append, Option.bind_some]
      refine hnext.trans ?_
      rw [List.takeWhile_cons_of_pos hc, List.dropWhile_cons_of_pos hc]
      refine congrArg some (Prod.ext ?_ ?_)
      · simp [List.replicate_succ]
      · simp only [List.length_cons, List.length_nil]
        omega
    · rw [if_neg hc, List.takeWhile_cons_of_neg hc, List.dropWhile_cons_of_neg hc]
      simp

private theorem strchr_eq : (c ≠ 0 && !strchr (WHITESPACE ++ SYMBOLS) c) = (c ≠ 0 && isWordChar c) := by
  unfold strchr isWordChar isBlank isSymbol
  simp only [List.contains_eq_mem, List.mem_append, Bool.decide_or, Bool.not_or]

/-- A word ends before the next character that is not in it. -/
private theorem skipWord_eq (pre : List Byte) (hn : r.length < n) (h0 : 0 ∉ r) :
    skipWord n (pre ++ (r ++ [0])) pre.length = some (pre.length + (r.takeWhile isWordChar).length) := by
  induction r generalizing pre n with
  | nil =>
    obtain ⟨n, rfl⟩ := Nat.exists_eq_succ_of_ne_zero (Nat.ne_of_gt hn)
    unfold skipWord
    rw [List.nil_append, getElem?_append_cons, Option.bind_some, if_neg (by decide)]
    simp
  | cons c r ih =>
    obtain ⟨n, rfl⟩ := Nat.exists_eq_succ_of_ne_zero (Nat.ne_of_gt (Nat.lt_of_le_of_lt (Nat.zero_le _) hn))
    have hc0 : c ≠ 0 := fun h => h0 (h ▸ List.mem_cons_self)
    unfold skipWord
    rw [List.cons_append, getElem?_append_cons, Option.bind_some, strchr_eq]
    by_cases hc : isWordChar c
    · have hnext := ih (pre ++ [c]) (n := n) (by simpa using hn) fun h => h0 (List.mem_cons_of_mem _ h)
      rw [List.append_assoc, List.singleton_append, List.length_append] at hnext
      have hcond : (decide (c ≠ 0) && isWordChar c) = true := by
        rw [hc, decide_eq_true hc0]
        rfl
      rw [if_pos hcond, List.takeWhile_cons_of_pos hc]
      refine hnext.trans ?_
      simp only [List.length_cons, List.length_nil, Option.some.injEq]
      omega
    · rw [if_neg (by simp [hc]), List.takeWhile_cons_of_neg hc]
      simp

/-! ### The state between two calls -/

/-- The part of the buffer that the lexer is done with. -/
def Lexer.done (x : Lexer) : List Byte :=
  match x.np2 with
  | none => x.buf
  | some p => x.buf.take p

/-- The lexer has found the first of these tokens; the others are in the rest of the line. -/
inductive Ahead : Lexer → List Token → Prop
  | fin (buf : List Byte) : Ahead ⟨0, none, none, buf⟩ []
  | symbol {c : Byte} {a : Nat} {pre r : List Byte} (h0 : 0 ∉ r) :
    Ahead ⟨c, some a, some pre.length, pre ++ (r ++ [0])⟩ (.symbol c :: tokens r)
  | word {pre w r : List Byte} (h0 : 0 ∉ r) (hw : 0 ∉ w) (hend : ∀ c rest, r = c :: rest → isWordChar c = false) :
    Ahead ⟨WORD, some pre.length, some (pre ++ w).length, pre ++ w ++ (r ++ [0])⟩ (.word w :: tokens r)

private theorem not_mem_of_suffix {l l' : List Byte} (h : l <:+ l') (h0 : 0 ∉ l') : 0 ∉ l := fun hm => h0 (h.subset hm)

/-- What `_gettoken` does to the rest of a line: it keeps what is before, and puts a 0 there unless a word goes on. -/
private theorem scan_ahead (pre : List Byte) (h0 : 0 ∉ r) : ∃ y : Scanned, _gettoken (pre ++ (r ++ [0]))
    (some pre.length) = some y ∧
    Ahead ⟨y.t, y.p1, y.p2, y.buf⟩ (tokens r) ∧ pre <+: Lexer.done ⟨y.t, y.p1, y.p2, y.buf⟩ ∧
    ((∀ c rest, r = c :: rest → isWordChar c = false) → pre ++ [0] <+: Lexer.done ⟨y.t, y.p1, y.p2, y.buf⟩) := by
  have hlen : r.length < (pre ++ (r ++ [0])).length + 1 := by simp; omega
  unfold _gettoken
  dsimp only
  rw [skipBlanks_eq pre hlen h0, Option.bind_some]
  generalize hk : (r.takeWhile isBlank).length = k
  have hd0 : 0 ∉ r.dropWhile isBlank := not_mem_of_suffix (List.dropWhile_suffix _) h0
  -- the zeros go to what is before
  have hzero (b : List Byte) (hb : k = 0 → ∃ b', b = 0 :: b') : pre ++ [0] <+: pre ++ List.replicate k 0 ++ b := by
    rw [List.append_assoc]
    refine (List.prefix_append_right_inj _).2 ?_
    cases k with
    | zero =>
      obtain ⟨b', rfl⟩ := hb rfl
      exact ⟨b', rfl⟩
    | succ k => exact ⟨List.replicate k 0 ++ b, by simp [List.replicate_succ]⟩
  have hpre (b : List Byte) : pre <+: pre ++ List.replicate k 0 ++ b := by
    rw [List.append_assoc]
    exact List.prefix_append _ _
  have hlenk : pre.length + k = (pre ++ List.replicate k 0).length := by simp
  rw [tokens]
  dsimp only
  rw [hlenk]
  split
  case h_1 hd =>
    rw [hd, List.nil_append, getElem?_append_cons, Option.bind_some, if_pos rfl]
    exact ⟨_, rfl, .fin _, hpre _, fun _ => hzero _ fun _ => ⟨[], rfl⟩⟩
  case h_2 c rest hd =>
    have hc0 : c ≠ 0 := by
      rintro rfl
      exact hd0 (hd ▸ List.mem_cons_self)
    have hrest0 : 0 ∉ rest := fun h => hd0 (hd ▸ List.mem_cons_of_mem _ h)
    rw [hd, List.cons_append, getElem?_append_cons, Option.bind_some, if_neg hc0]
    by_cases hsym : isSymbol c
    · rw [if_pos hsym, if_pos (show strchr SYMBOLS c = true from hsym), put_append, Option.map_some]
      have hbuf : pre ++ List.replicate k 0 ++ 0 :: (rest ++ [0]) = pre ++ List.replicate k 0 ++ [0] ++ (rest ++ [0]) := by
        simp
      have hlen' : (pre ++ List.replicate k 0).length + 1 = (pre ++ List.replicate k 0 ++ [0]).length := by
        simp [Nat.add_assoc]
      have hdone : (pre ++ List.replicate k 0 ++ [0] ++ (rest ++ [0])).take (pre ++ List.replicate k 0 ++ [0]).length =
          pre ++ List.replicate k 0 ++ [0] := List.take_left
      refine ⟨_, rfl, ?_, ?_, fun _ => ?_⟩
      · dsimp only
        rw [hbuf, hlen']
        exact .symbol hrest0
      · unfold Lexer.done
        dsimp only
        rw [hbuf, hlen', hdone]
        exact hpre _
      · unfold Lexer.done
        dsimp only
        rw [hbuf, hlen', hdone]
        exact hzero _ fun _ => ⟨[], rfl⟩
    · have hblank : isBlank c = false := by
        have hhead := List.head?_dropWhile_not isBlank r
        rw [hd] at hhead
        simpa using hhead
      have hword : isWordChar c = true := by
        unfold isWordChar
        simp [hblank, hsym]
      have hw : c :: rest.takeWhile isWordChar = (c :: rest).takeWhile isWordChar :=
        (List.takeWhile_cons_of_pos hword).symm
      have hr : rest.dropWhile isWordChar = (c :: rest).dropWhile isWordChar :=
        (List.dropWhile_cons_of_pos hword).symm
      have hsplit : (c :: rest).takeWhile isWordChar ++ (c :: rest).dropWhile isWordChar = c :: rest :=
        List.takeWhile_append_dropWhile
      have hskip := skipWord_eq (r := c :: rest) (pre ++ List.replicate k 0)
        (n := (pre ++ List.replicate k 0 ++ c :: (rest ++ [0])).length + 1) (by simp; omega) (hd ▸ hd0)
      rw [List.cons_append] at hskip
      rw [if_neg hsym, if_neg (show ¬ strchr SYMBOLS c = true from hsym), hskip, Option.map_some, hw, hr]
      have hbuf : pre ++ List.replicate k 0 ++ c :: (rest ++ [0]) = pre ++ List.replicate k 0 ++
          (c :: rest).takeWhile isWordChar ++ ((c :: rest).dropWhile isWordChar ++ [0]) := by
        have hline : c :: (rest ++ [0]) =
            (c :: rest).takeWhile isWordChar ++ ((c :: rest).dropWhile isWordChar ++ [0]) := by
          rw [← List.append_assoc, hsplit]
          rfl
        rw [hline, ← List.append_assoc]
      have hlen' : (pre ++ List.replicate k 0).length + ((c :: rest).takeWhile isWordChar).length =
          (pre ++ List.replicate k 0 ++ (c :: rest).takeWhile isWordChar).length := List.length_append.symm
      have hdone : (pre ++ List.replicate k 0 ++ (c :: rest).takeWhile isWordChar ++
          ((c :: rest).dropWhile isWordChar ++ [0])).take (pre ++ List.replicate k 0 ++
            (c :: rest).takeWhile isWordChar).length = pre ++ List.replicate k 0 ++ (c :: rest).takeWhile isWordChar :=
        List.take_left
      refine ⟨_, rfl, ?_, ?_, fun hend => ?_⟩
      · dsimp only
        rw [hbuf, hlen']
        refine .word (not_mem_of_suffix (List.dropWhile_suffix _) (hd ▸ hd0)) ?_ fun c' rest' hc' => ?_
        · exact fun hm => (hd ▸ hd0) ((List.takeWhile_sublist _).subset hm)
        · have hhead := List.head?_dropWhile_not isWordChar (c :: rest)
          rw [hc'] at hhead
          simpa using hhead
      · unfold Lexer.done
        dsimp only
        rw [hbuf, hlen', hdone]
        exact hpre _
      · unfold Lexer.done
        dsimp only
        rw [hbuf, hlen', hdone]
        refine hzero _ fun hk0 => ?_
        -- without blanks, the word begins at once
        subst hk0
        have hnil : r.takeWhile isBlank = [] := List.eq_nil_of_length_eq_zero hk
        have hr' : [] ++ c :: rest = r := by
          rw [← hnil, ← hd]
          exact List.takeWhile_append_dropWhile
        rw [hend c rest hr'.symm] at hword
        cases hword

/-! ### The calls -/

theorem gettoken_fin (h : Ahead x []) : gettoken x = some ((0, none), x) := by
  cases h
  rfl

/-- A call returns the token that was found, and ends its word. -/
theorem gettoken_ahead {tok : Token} {ts : List Token} (h : Ahead x (tok :: ts)) :
    ∃ y, gettoken x = some ((tok.code, x.np1), y) ∧ Ahead y ts ∧ x.done <+: y.done ∧
      ∀ w, tok = .word w → ∃ f : List Byte, x.np1 = some f.length ∧ 0 ∉ w ∧ f ++ w ++ [0] <+: y.done := by
  cases h with
  | @symbol c a pre r h0 =>
    obtain ⟨y, hy, hahead, hpre, -⟩ := scan_ahead pre h0
    refine ⟨⟨y.t, y.p1, y.p2, y.buf⟩, ?_, hahead, ?_, nofun⟩
    · unfold gettoken
      rw [hy]
      rfl
    · unfold Lexer.done
      dsimp only
      rw [List.take_left]
      exact hpre
  | @word pre w r h0 hw hend =>
    obtain ⟨y, hy, hahead, hpre, hzero⟩ := scan_ahead (pre ++ w) h0
    refine ⟨⟨y.t, y.p1, y.p2, y.buf⟩, ?_, hahead, ?_, fun w' hw' => ?_⟩
    · unfold gettoken
      rw [hy]
      rfl
    · unfold Lexer.done
      dsimp only
      rw [List.take_left]
      exact hpre
    · obtain rfl := Token.word.inj hw'
      exact ⟨pre, rfl, hw, hzero hend⟩

theorem done_front (x : Lexer) : x.done <+: x.buf := by
  unfold Lexer.done
  split
  · exact List.prefix_refl _
  · exact List.take_prefix _ _

/-- A word with a 0 behind it is the string there. -/
theorem cstring_eq {f : List Byte} (hw : 0 ∉ w) (h : f ++ w ++ [0] <+: buf) : cstring buf f.length = w := by
  obtain ⟨rest, rfl⟩ := h
  have hall : ∀ c ∈ w, decide (c ≠ 0) = true := fun c hc => decide_eq_true fun h0 => hw (h0 ▸ hc)
  unfold cstring
  rw [List.append_assoc, List.append_assoc, List.drop_left, List.takeWhile_append_of_pos hall]
  simp

/-- The calls return one token after the other, and what they have returned stays. -/
private theorem gettokens_ahead {toks : List Token} (h : Ahead x toks) (k : Nat) : ∃ rs y, gettokens k x = some (rs, y) ∧
    Ahead y (toks.drop k) ∧ rs.length = k ∧ rs.map Prod.fst = (List.range k).map (fun i => ((toks[i]?).map Token.code).getD 0) ∧
    ∀ i w, i < k → toks[i]? = some (.word w) →
      ∃ f : List Byte, (rs[i]?).bind Prod.snd = some f.length ∧ 0 ∉ w ∧ f ++ w ++ [0] <+: y.done := by
  induction k with
  | zero => exact ⟨[], x, rfl, h, rfl, rfl, fun _ _ hi => absurd hi (Nat.not_lt_zero _)⟩
  | succ k ih =>
    obtain ⟨rs, y, hrun, hahead, hlen, hcodes, hwords⟩ := ih
    have hold {r : Byte × Option Nat} {i : Nat} (hi : i < k) : (rs ++ [r])[i]? = rs[i]? :=
      List.getElem?_append_left (by omega)
    have hnew {r : Byte × Option Nat} : (rs ++ [r])[k]? = some r := by
      rw [← hlen]
      exact List.getElem?_concat_length
    unfold gettokens
    rw [hrun, Option.bind_some]
    cases hk : toks[k]? with
    | none =>
      have hdrop : toks.drop k = [] := List.drop_eq_nil_of_le (List.getElem?_eq_none_iff.1 hk)
      rw [hdrop] at hahead
      dsimp only
      rw [gettoken_fin hahead]
      refine ⟨_, y, rfl, ?_, by simp [hlen], ?_, fun i w hi hw => ?_⟩
      · rwa [List.drop_eq_nil_of_le (Nat.le_succ_of_le (List.getElem?_eq_none_iff.1 hk))]
      · rw [List.map_append, hcodes, List.range_succ, List.map_append]
        simp [hk]
      · have hik : i ≠ k := by
          rintro rfl
          rw [hk] at hw
          cases hw
        rw [hold (by omega)]
        exact hwords i w (by omega) hw
    | some tok =>
      obtain ⟨hklt, htok⟩ := List.getElem?_eq_some_iff.1 hk
      have hdrop : toks.drop k = tok :: toks.drop (k + 1) := by rw [List.drop_eq_getElem_cons hklt, htok]
      rw [hdrop] at hahead
      obtain ⟨z, hz, hahead', hdone, hword⟩ := gettoken_ahead hahead
      dsimp only
      rw [hz]
      refine ⟨_, z, rfl, hahead', by simp [hlen], ?_, fun i w hi hw => ?_⟩
      · rw [List.map_append, hcodes, List.range_succ, List.map_append]
        simp [hk]
      · by_cases hik : i = k
        · subst hik
          rw [hk] at hw
          obtain ⟨f, hf, hw0, hpre⟩ := hword w (Option.some.inj hw)
          exact ⟨f, by rw [hnew]; exact hf, hw0, hpre⟩
        · obtain ⟨f, hf, hw0, hpre⟩ := hwords i w (by omega) hw
          exact ⟨f, by rw [hold (by omega)]; exact hf, hw0, hpre.trans hdone⟩

/-- A line without the 0 at its end. -/
abbrev Line := { l : List Byte // 0 ∉ l }

theorem gettokenStart_ahead (l : Line) : ∃ x, gettokenStart (l.1 ++ [0]) = some x ∧ Ahead x (tokens l.1) := by
  obtain ⟨y, hy, hahead, -⟩ := scan_ahead [] l.2
  refine ⟨⟨y.t, y.p1, y.p2, y.buf⟩, ?_, hahead⟩
  unfold gettokenStart
  rw [show (some 0 : Option Nat) = some ([] : List Byte).length from rfl]
  rw [List.nil_append] at hy
  rw [hy]
  rfl

/-- On every line, the calls return the tokens of the reference lexer and then 0, and every word that has been returned is
there as a string, then and later; all accesses are to the line and its end. -/
theorem gettokens_eq (l : Line) (k : Nat) : ∃ x rs y, gettokenStart (l.1 ++ [0]) = some x ∧
    gettokens k x = some (rs, y) ∧
    rs.map Prod.fst = (List.range k).map (fun i => (((tokens l.1)[i]?).map Token.code).getD 0) ∧
    ∀ i w, i < k → (tokens l.1)[i]? = some (.word w) →
      ∃ p, (rs[i]?).bind Prod.snd = some p ∧ cstring y.buf p = w := by
  obtain ⟨x, hx, hahead⟩ := gettokenStart_ahead l
  obtain ⟨rs, y, hrun, -, -, hcodes, hwords⟩ := gettokens_ahead hahead k
  refine ⟨x, rs, y, hx, hrun, hcodes, fun i w hi hw => ?_⟩
  obtain ⟨f, hf, hw0, hpre⟩ := hwords i w hi hw
  exact ⟨f.length, hf, cstring_eq hw0 (hpre.trans (done_front y))⟩

/-- `a|b`: the first word is ended by the symbol. -/
example : (((gettokenStart [0x61, 0x7C, 0x62, 0]).bind (gettokens 4)).map fun p => (p.1, p.2.buf)) =
    some ([(WORD, some 0), (0x7C, some 1), (WORD, some 2), (0, none)], [0x61, 0, 0x62, 0]) := by decide

end Mos.Sh
