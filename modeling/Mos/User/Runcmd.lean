import Mos.User.Lexer
import Mathlib.Data.List.Forall2

/-!
# Running a command line (`parsecmd` and `runcmd` of `user/sh.c`)

Opens, duplications, pipes and forks succeed.  A process that forks goes on with a copy of its memory in the child, so
that each process has its own line and its own `argv`.
-/

namespace Mos.Sh

def MAXARGS : Nat := 128

/-- `'<'`, `'>'` and `'|'`. -/
def LESS : Byte := 0x3C
def GREATER : Byte := 0x3E
def PIPE : Byte := 0x7C

/-- The local variables, with the indices at which this process has stored to `argv`, and the files that it has opened in
the place of its input and its output. -/
structure Cmd where
  argc : Nat
  argv : Nat → Option Nat
  stores : List Nat
  redirs : List (Byte × Option Nat)

namespace Cmd

/-- `argv[i] = p;` -/
def store (s : Cmd) (i : Nat) (p : Option Nat) : Cmd :=
  { s with argv := Function.update s.argv i p, stores := i :: s.stores }

/-- `argv[argc++] = t;` -/
def arg (s : Cmd) (t : Option Nat) : Cmd := { s.store s.argc t with argc := s.argc + 1 }

def redirect (s : Cmd) (c : Byte) (t : Option Nat) : Cmd := { s with redirs := (c, t) :: s.redirs }

/-- The child of a fork calls `parsecmd` again. -/
def child (s : Cmd) : Cmd := { s with argc := 0, stores := [] }

end Cmd

/-- How `parsecmd` ends in a process. -/
inductive Parsed where
  | ret (s : Cmd) (x : Lexer)
  | exit (s : Cmd)

/-- The processes that come out of `parsecmd`, in the order of the line, for less than `n` rounds of each loop. -/
def parsecmd : Nat → Lexer → Cmd → Option (List Parsed)
  | 0, _, _ => none
  | n + 1, x, s => (gettoken x).bind fun ((c, t), x) =>
    if c = 0 then some [.ret s x]
    else if c = WORD then
      -- too many arguments
      if MAXARGS ≤ s.argc then some [.exit s] else parsecmd n x (s.arg t)
    else if c = LESS ∨ c = GREATER then
      (gettoken x).bind fun ((c', t), x) =>
        -- not followed by word
        if c' ≠ WORD then some [.exit s] else parsecmd n x (s.redirect c t)
    else if c = PIPE then (parsecmd n x s.child).map fun ps => .ret s x :: ps
    else parsecmd n x s

/-- The end of a process: `spawn` gets `argv`, with the strings in the buffer. -/
inductive Outcome where
  | exited
  | returned
  | spawned (argv : Nat → Option Nat) (buf : List Byte)

structure Process where
  stores : List Nat
  outcome : Outcome

/-- `runcmd` after `parsecmd`. -/
def Parsed.finish : Parsed → Process
  | .exit s => ⟨s.stores, .exited⟩
  | .ret s x =>
    if s.argc = 0 then ⟨s.stores, .returned⟩
    else
      let s := s.store s.argc none
      ⟨s.stores, .spawned s.argv x.buf⟩

def runcmd (argv : Nat → Option Nat) (buf : List Byte) : Option (List Process) :=
  (gettokenStart buf).bind fun x =>
    (parsecmd (buf.length + 1) x ⟨0, argv, [], []⟩).map fun ps => ps.map Parsed.finish

/-! ### Pipelines -/

/-- The tokens between the pipe symbols. -/
def stages (toks : List Token) : List (List Token) := toks.splitOn (.symbol PIPE)

def isRedir (c : Byte) : Bool := c = LESS || c = GREATER

/-- The words of a stage that are not the file of a redirection. -/
def stageWords : List Token → List (List Byte)
  | [] => []
  | .word w :: ts => w :: stageWords ts
  | .symbol c :: .word w :: ts => if isRedir c then stageWords ts else w :: stageWords ts
  | .symbol _ :: ts => stageWords ts

/-- Every redirection is followed by a word. -/
def complete : List Token → Bool
  | [] => true
  | .word _ :: ts => complete ts
  | .symbol _ :: .word _ :: ts => complete ts
  | .symbol c :: ts => !isRedir c && complete ts

/-- A process hands exactly these words to `spawn`, with the null pointer at the end, and stores to `argv` inside of the
array.  Without words there is nothing to spawn. -/
structure Hands (ws : List (List Byte)) (p : Process) : Prop where
  inside : ∀ i ∈ p.stores, i < MAXARGS
  nothing : ws = [] → p.outcome = .returned
  words : ws ≠ [] → ∃ argv buf, p.outcome = .spawned argv buf ∧ argv ws.length = none ∧
    ∀ (j : Nat) (h : j < ws.length), ∃ a, argv j = some a ∧ cstring buf a = ws[j]

/-- Each stage has its process. -/
def PipelineOk (toks : List Token) (ps : List Process) : Prop :=
  List.Forall₂ (fun stage p => Hands (stageWords stage) p) (stages toks) ps

/-- The stage has a word behind each redirection, and leaves room for the null pointer. -/
def StageFits (stage : List Token) : Prop := complete stage = true ∧ (stageWords stage).length < MAXARGS

/-! ### Stages -/

variable {toks ts pre stage : List Token} {w : List Byte} {c : Byte} {x y : Lexer} {s : Cmd} {n : Nat}

private theorem stages_pipe : stages (.symbol PIPE :: ts) = [] :: stages ts := by
  unfold stages
  rw [List.splitOn_cons_eq_if_modifyHead, if_pos (by simp)]

private theorem stages_cons {tok : Token} (h : tok ≠ .symbol PIPE) :
    stages (tok :: ts) = (stages ts).modifyHead (tok :: ·) := by
  unfold stages
  rw [List.splitOn_cons_eq_if_modifyHead, if_neg (by simpa using h)]

private theorem exists_stages (toks : List Token) : ∃ st rest, stages toks = st :: rest :=
  List.exists_cons_of_ne_nil (List.splitOn_ne_nil _ toks)

/-- The stages where the first one goes on from `pre`. -/
def stagesFrom (pre toks : List Token) : List (List Token) := (stages toks).modifyHead (pre ++ ·)

private theorem stagesFrom_nil (toks : List Token) : stagesFrom [] toks = stages toks := by
  obtain ⟨st, rest, h⟩ := exists_stages toks
  simp [stagesFrom, h]

private theorem stagesFrom_pipe : stagesFrom pre (.symbol PIPE :: ts) = pre :: stagesFrom [] ts := by
  rw [stagesFrom_nil, stagesFrom, stages_pipe]
  simp

private theorem stagesFrom_cons {tok : Token} (h : tok ≠ .symbol PIPE) :
    stagesFrom pre (tok :: ts) = stagesFrom (pre ++ [tok]) ts := by
  obtain ⟨st, rest, hst⟩ := exists_stages ts
  simp [stagesFrom, stages_cons h, hst]

private theorem exists_stagesFrom (pre toks : List Token) :
    ∃ st rest, stages toks = st :: rest ∧ stagesFrom pre toks = (pre ++ st) :: rest := by
  obtain ⟨st, rest, h⟩ := exists_stages toks
  exact ⟨st, rest, h, by simp [stagesFrom, h]⟩

/-- A symbol that redirects nothing is passed over. -/
private theorem symbol_plain (hc : isRedir c = false) (ts : List Token) :
    complete (.symbol c :: ts) = complete ts ∧ stageWords (.symbol c :: ts) = stageWords ts := by
  cases ts with
  | nil => simp [complete, stageWords, hc]
  | cons t ts =>
    cases t with
    | word w => simp [complete, stageWords, hc]
    | symbol c' => simp [complete, stageWords, hc]

/-- A redirection without a word behind it. -/
private theorem complete_redir (hc : isRedir c = true) (hts : ∀ w rest, ts ≠ .word w :: rest) :
    complete (.symbol c :: ts) = false := by
  cases ts with
  | nil => simp [complete, hc]
  | cons t ts =>
    cases t with
    | word w => exact absurd rfl (hts w ts)
    | symbol c' => simp [complete, hc]

private theorem complete_append (h : complete pre = true) (stage : List Token) :
    complete (pre ++ stage) = complete stage ∧ stageWords (pre ++ stage) = stageWords pre ++ stageWords stage := by
  induction pre using complete.induct with
  | case1 => exact ⟨rfl, rfl⟩
  | case2 w ts ih =>
    obtain ⟨h₁, h₂⟩ := ih h
    exact ⟨h₁, by simp [stageWords, h₂]⟩
  | case3 c w ts ih =>
    obtain ⟨h₁, h₂⟩ := ih h
    refine ⟨h₁, ?_⟩
    simp only [List.cons_append, stageWords]
    split <;> simp [h₂]
  | case4 c ts hts ih =>
    have hc : isRedir c = false := by
      by_contra hc
      rw [complete_redir (by simpa using hc) fun w rest heq => hts w rest heq] at h
      cases h
    obtain ⟨h₁, h₂⟩ := symbol_plain hc ts
    obtain ⟨h₃, h₄⟩ := symbol_plain hc (ts ++ stage)
    obtain ⟨h₅, h₆⟩ := ih (h₁ ▸ h)
    exact ⟨h₃.trans h₅, by rw [h₂, ← h₆]; exact h₄⟩

private theorem tokens_nil {l : List Byte} (h : l.dropWhile isBlank = []) : tokens l = [] := by
  unfold tokens
  split
  · rfl
  · simp_all

private theorem tokens_cons {l rest : List Byte} (h : l.dropWhile isBlank = c :: rest) : tokens l =
    if isSymbol c then .symbol c :: tokens rest
    else .word (c :: rest.takeWhile isWordChar) :: tokens (rest.dropWhile isWordChar) := by
  conv_lhs => unfold tokens
  split
  · simp_all
  · simp_all

private theorem tokens_symbol (l : List Byte) : ∀ c, .symbol c ∈ tokens l → isSymbol c = true := by
  induction l using tokens.induct with
  | case1 l h => simp [tokens_nil h]
  | case2 l c rest h hc ih =>
    rw [tokens_cons h, if_pos hc]
    intro c' hc'
    rcases List.mem_cons.1 hc' with heq | hc'
    · exact (Token.symbol.inj heq) ▸ hc
    · exact ih c' hc'
  | case3 l c rest h hc ih =>
    rw [tokens_cons h, if_neg hc]
    intro c' hc'
    rcases List.mem_cons.1 hc' with heq | hc'
    · cases heq
    · exact ih c' hc'

private theorem length_tokens_le (l : List Byte) : (tokens l).length ≤ l.length := by
  induction l using tokens.induct with
  | case1 l h => simp [tokens_nil h]
  | case2 l c rest h hc ih =>
    have hle := length_dropWhile_le isBlank l
    rw [h, List.length_cons] at hle
    rw [tokens_cons h, if_pos hc, List.length_cons]
    omega
  | case3 l c rest h hc ih =>
    have hle := length_dropWhile_le isBlank l
    have hrest := length_dropWhile_le isWordChar rest
    rw [h, List.length_cons] at hle
    rw [tokens_cons h, if_neg hc, List.length_cons]
    omega

/-! ### A process -/

/-- After the tokens `pre` of its stage: `argv` points to their words, which are ended. -/
structure Holding (pre : List Token) (x : Lexer) (s : Cmd) : Prop where
  closed : complete pre = true
  argc : s.argc = (stageWords pre).length
  room : s.argc ≤ MAXARGS
  args : ∀ (j : Nat) (h : j < (stageWords pre).length), ∃ f : List Byte, s.argv j = some f.length ∧
    0 ∉ (stageWords pre)[j] ∧ f ++ (stageWords pre)[j] ++ [0] <+: x.done
  inside : ∀ i ∈ s.stores, i < MAXARGS

private theorem Holding.mono (h : Holding pre x s) (hdone : x.done <+: y.done) : Holding pre y s := by
  refine ⟨h.closed, h.argc, h.room, fun j hj => ?_, h.inside⟩
  obtain ⟨f, hf, h0, hpre⟩ := h.args j hj
  exact ⟨f, hf, h0, hpre.trans hdone⟩

/-- Tokens that add no word. -/
private theorem Holding.skip (h : Holding pre x s) (stage : List Token) (hclosed : complete stage = true)
    (hwords : stageWords stage = [])
    (c : Byte) (t : Option Nat) : Holding (pre ++ stage) x s ∧ Holding (pre ++ stage) x (s.redirect c t) := by
  obtain ⟨h₁, h₂⟩ := complete_append h.closed stage
  have hw : stageWords (pre ++ stage) = stageWords pre := by rw [h₂, hwords, List.append_nil]
  constructor
  · exact ⟨h₁.trans hclosed, by rw [hw]; exact h.argc, h.room, by rw [hw]; exact h.args, h.inside⟩
  · exact ⟨h₁.trans hclosed, by rw [hw]; exact h.argc, h.room, by rw [hw]; exact h.args, h.inside⟩

/-- A word goes to the end of `argv`. -/
private theorem Holding.arg (h : Holding pre x s) (hroom : s.argc < MAXARGS) {f : List Byte} (h0 : 0 ∉ w)
    (hpre : f ++ w ++ [0] <+: x.done) : Holding (pre ++ [.word w]) x (s.arg (some f.length)) := by
  obtain ⟨h₁, h₂⟩ := complete_append h.closed [.word w]
  have hw : stageWords (pre ++ [.word w]) = stageWords pre ++ [w] := h₂
  refine ⟨h₁, ?_, hroom, fun j hj => ?_, fun i hi => ?_⟩
  · rw [hw, List.length_append, ← h.argc]
    rfl
  · simp only [hw] at hj ⊢
    by_cases hjw : j = (stageWords pre).length
    · subst hjw
      refine ⟨f, ?_, by simpa using h0, by simpa using hpre⟩
      simp [Cmd.arg, Cmd.store, h.argc]
    · have hj' : j < (stageWords pre).length := by simp at hj; omega
      obtain ⟨f', hf', h0', hpre'⟩ := h.args j hj'
      rw [List.getElem_append_left hj']
      refine ⟨f', ?_, h0', hpre'⟩
      have hne : j ≠ s.argc := by rw [h.argc]; exact hjw
      exact (Function.update_of_ne hne ..).trans hf'
  · rcases List.mem_cons.1 hi with rfl | hi
    · exact hroom
    · exact h.inside i hi

/-- A process that parses its stage to the end hands its words over, unless the null pointer falls behind `argv`. -/
private theorem Holding.finish_iff (h : Holding pre x s) :
    Hands (stageWords pre) (Parsed.ret s x).finish ↔ StageFits pre := by
  unfold StageFits
  rw [← h.argc, and_iff_right h.closed]
  by_cases h0 : s.argc = 0
  · have hnil : stageWords pre = [] := List.eq_nil_of_length_eq_zero (h.argc ▸ h0)
    have hfin : (Parsed.ret s x).finish = ⟨s.stores, .returned⟩ := if_pos h0
    rw [hfin]
    exact iff_of_true ⟨h.inside, fun _ => rfl, fun hne => absurd hnil hne⟩ (by rw [h0]; decide)
  · have hne : stageWords pre ≠ [] := by
      intro hnil
      rw [h.argc, hnil] at h0
      exact h0 rfl
    have hfin : (Parsed.ret s x).finish =
      ⟨s.argc :: s.stores, .spawned (Function.update s.argv s.argc none) x.buf⟩ := if_neg h0
    rw [hfin]
    constructor
    · exact fun hands => hands.inside s.argc List.mem_cons_self
    · intro hlt
      refine ⟨fun i hi => ?_, fun hnil => absurd hnil hne, fun _ => ⟨_, _, rfl, ?_, fun j hj => ?_⟩⟩
      · rcases List.mem_cons.1 hi with rfl | hi
        · exact hlt
        · exact h.inside i hi
      · rw [← h.argc, Function.update_self]
      · obtain ⟨f, hf, hw0, hpre⟩ := h.args j hj
        have hjne : j ≠ s.argc := by rw [h.argc]; omega
        exact ⟨f.length, by rw [Function.update_of_ne hjne, hf], cstring_eq hw0 (hpre.trans (done_front x))⟩

private theorem not_hands_exit (ws : List (List Byte)) (s : Cmd) : ¬Hands ws (Parsed.exit s).finish := by
  intro h
  by_cases hws : ws = []
  · cases h.nothing hws
  · obtain ⟨argv, buf, hout, -⟩ := h.words hws
    cases hout

/-! ### The processes -/

/-- The processes for these stages are right exactly where the stages fit. -/
def Settled (sts : List (List Token)) (ps : List Parsed) : Prop :=
  List.Forall₂ (fun stage p => Hands (stageWords stage) p) sts (ps.map Parsed.finish) ↔ ∀ st ∈ sts, StageFits st

/-- A process gives up: its stage does not fit. -/
private theorem settled_exit (hbad : ∀ st rest, stages toks = st :: rest → ¬StageFits (pre ++ st)) (s : Cmd) :
    Settled (stagesFrom pre toks) [.exit s] := by
  obtain ⟨st, rest, hst, hfrom⟩ := exists_stagesFrom pre toks
  unfold Settled
  rw [hfrom, List.map_singleton]
  refine iff_of_false ?_ fun h => hbad st rest hst (h _ List.mem_cons_self)
  intro h
  cases h with
  | cons hands _ => exact not_hands_exit _ _ hands

/-- The line ends. -/
private theorem settled_end (h : Holding pre x s) : Settled (stagesFrom pre []) [.ret s x] := by
  have hfrom : stagesFrom pre [] = [pre] := by simp [stagesFrom, stages]
  unfold Settled
  rw [hfrom, List.map_singleton, List.forall₂_cons, h.finish_iff]
  simp

/-- A pipe symbol: the rest of the line is for the child. -/
private theorem settled_pipe {ps : List Parsed} (h : Holding pre x s) (hps : Settled (stagesFrom [] ts) ps) :
    Settled (stagesFrom pre (.symbol PIPE :: ts)) (.ret s x :: ps) := by
  unfold Settled at hps ⊢
  rw [stagesFrom_pipe, List.map_cons, List.forall₂_cons, h.finish_iff, hps]
  simp

/-- The first stage begins like the line. -/
private theorem stages_no_word (h : ∀ w rest, ts ≠ .word w :: rest) {st : List Token} {rest : List (List Token)}
    (hst : stages ts = st :: rest) : ∀ w r, st ≠ .word w :: r := by
  rintro w r rfl
  cases ts with
  | nil => cases hst
  | cons t ts =>
    by_cases ht : t = .symbol PIPE
    · rw [ht, stages_pipe] at hst
      cases hst
    · obtain ⟨st, rest', hts⟩ := exists_stages ts
      rw [stages_cons ht, hts] at hst
      cases hst
      exact h w ts rfl

private theorem isSymbol_ne {c : Byte} (h : isSymbol c = true) : c ≠ 0 ∧ c ≠ WORD := by
  constructor
  · rintro rfl
    exact absurd h (by decide)
  · rintro rfl
    exact absurd h (by decide)

/-- Behind a redirection comes a word, or the process gives up. -/
private theorem redir_cases (hx : Ahead x ts) (hsym : ∀ c, .symbol c ∈ ts → isSymbol c = true) :
    (∃ c t y, gettoken x = some ((c, t), y) ∧ c ≠ WORD ∧ ∀ w rest, ts ≠ .word w :: rest) ∨
      ∃ w rest t y, ts = .word w :: rest ∧ gettoken x = some ((WORD, t), y) ∧ Ahead y rest ∧ x.done <+: y.done := by
  cases ts with
  | nil => exact .inl ⟨0, none, x, gettoken_fin hx, by decide, nofun⟩
  | cons tok ts =>
    obtain ⟨y, hy, hahead, hdone, -⟩ := gettoken_ahead hx
    cases tok with
    | word w => exact .inr ⟨w, ts, x.np1, y, rfl, hy, hahead, hdone⟩
    | symbol c => exact .inl ⟨c, x.np1, y, hy, (isSymbol_ne (hsym c List.mem_cons_self)).2, nofun⟩

/-- Induction on the rounds: before each round the words of the stage so far are in `argv`. -/
private theorem parsecmd_settled (hn : toks.length < n) (hx : Ahead x toks)
    (hsym : ∀ c, .symbol c ∈ toks → isSymbol c = true)
    (h : Holding pre x s) : ∃ ps, parsecmd n x s = some ps ∧ Settled (stagesFrom pre toks) ps := by
  induction n generalizing toks x s pre with
  | zero => exact absurd hn (Nat.not_lt_zero _)
  | succ n ih =>
    unfold parsecmd
    cases toks with
    | nil =>
      rw [gettoken_fin hx]
      exact ⟨_, rfl, settled_end h⟩
    | cons tok ts =>
      obtain ⟨y, hy, hahead, hdone, hword⟩ := gettoken_ahead hx
      have hlen : ts.length < n := by simpa using hn
      have hsym' : ∀ c, .symbol c ∈ ts → isSymbol c = true := fun c hc => hsym c (List.mem_cons_of_mem _ hc)
      have h := h.mono hdone
      rw [hy, Option.bind_some]
      cases tok with
      | word w =>
        obtain ⟨f, hf, h0, hpre⟩ := hword w rfl
        rw [stagesFrom_cons (by simp), hf]
        dsimp only [Token.code]
        rw [if_neg (by decide), if_pos rfl]
        by_cases hroom : MAXARGS ≤ s.argc
        · rw [if_pos hroom]
          refine ⟨_, rfl, settled_exit (fun st rest _ hfits => ?_) s⟩
          -- one word more than `argv` has room for
          obtain ⟨-, h₁⟩ := complete_append h.closed (.word w :: st)
          have hwords := hfits.2
          rw [List.append_assoc, List.singleton_append, h₁, stageWords, List.length_append, List.length_cons,
            ← h.argc] at hwords
          omega
        · rw [if_neg hroom]
          exact ih hlen hahead hsym' (h.arg (by omega) h0 hpre)
      | symbol c =>
        obtain ⟨hc0, hcw⟩ := isSymbol_ne (hsym c List.mem_cons_self)
        dsimp only [Token.code]
        rw [if_neg hc0, if_neg hcw]
        by_cases hredir : c = LESS ∨ c = GREATER
        · have hc : isRedir c = true := by simpa [isRedir] using hredir
          have hcp : c ≠ PIPE := by
            rintro rfl
            exact absurd hc (by decide)
          rw [if_pos hredir]
          obtain ⟨c', t, z, hz, hne, hts⟩ | ⟨w, rest, t, z, rfl, hz, hz', hdone'⟩ := redir_cases hahead hsym'
          · rw [hz, Option.bind_some]
            dsimp only
            rw [if_pos hne, stagesFrom_cons (by simpa using hcp)]
            refine ⟨_, rfl, settled_exit (fun st rest hst hfits => ?_) s⟩
            have hcl := hfits.1
            rw [List.append_assoc, (complete_append h.closed _).1, List.singleton_append,
              complete_redir hc (stages_no_word hts hst)] at hcl
            cases hcl
          · rw [hz, Option.bind_some]
            dsimp only
            rw [if_neg (by simp), stagesFrom_cons (by simpa using hcp), stagesFrom_cons (by simp), List.append_assoc]
            refine ih (by simp at hlen; omega) hz' (fun c hc => hsym' c (List.mem_cons_of_mem _ hc)) ?_
            exact ((h.mono hdone').skip [.symbol c, .word w] rfl (by simp [stageWords, hc]) c t).2
        · have hc : isRedir c = false := by simpa [isRedir] using hredir
          rw [if_neg hredir]
          by_cases hpipe : c = PIPE
          · subst hpipe
            have hchild : Holding [] y s.child :=
              ⟨rfl, rfl, Nat.zero_le _, fun j hj => absurd hj (Nat.not_lt_zero _), nofun⟩
            obtain ⟨ps, hps, hset⟩ := ih hlen hahead hsym' hchild
            rw [if_pos rfl, hps]
            exact ⟨_, rfl, settled_pipe h hset⟩
          · rw [if_neg hpipe, stagesFrom_cons (by simpa using hpipe)]
            refine ih hlen hahead hsym' (h.skip [.symbol c] ?_ ?_ 0 none).1
            · exact (symbol_plain hc []).1
            · exact (symbol_plain hc []).2

/-- On every line: each process hands over the words of its stage exactly where each stage has its redirections complete
and fewer than `MAXARGS` words. -/
theorem runcmd_iff (l : Line) (argv : Nat → Option Nat) : ∃ ps, runcmd argv (l.1 ++ [0]) = some ps ∧
    (PipelineOk (tokens l.1) ps ↔ ∀ stage ∈ stages (tokens l.1), StageFits stage) := by
  obtain ⟨x, hx, hahead⟩ := gettokenStart_ahead l
  have hstart : Holding [] x ⟨0, argv, [], []⟩ :=
    ⟨rfl, rfl, Nat.zero_le _, fun j hj => absurd hj (Nat.not_lt_zero _), nofun⟩
  have hlen : (tokens l.1).length < (l.1 ++ [0]).length + 1 := by
    have := length_tokens_le l.1
    simp
    omega
  obtain ⟨ps, hps, hset⟩ := parsecmd_settled hlen hahead (tokens_symbol l.1) hstart
  refine ⟨ps.map Parsed.finish, ?_, ?_⟩
  · unfold runcmd
    rw [hx, Option.bind_some, hps]
    rfl
  · unfold Settled at hset
    rwa [stagesFrom_nil] at hset

private theorem PipelineOk.hands {ps : List Process} {p : Process} (h : PipelineOk toks ps) (hp : p ∈ ps) :
    ∃ ws, Hands ws p := by
  obtain ⟨hlen, h⟩ := List.forall₂_iff_get.1 h
  obtain ⟨i, hi, rfl⟩ := List.mem_iff_getElem.1 hp
  exact ⟨_, h i (hlen ▸ hi) hi⟩

/-- A line of 128 words. -/
def fullLine : List Byte := (List.replicate 128 [0x61, 0x20]).flatten

/-- The null pointer behind as many words as `argv` has room for. -/
theorem exists_store_outside : ∃ ps, runcmd (fun _ => none) (fullLine ++ [0]) = some ps ∧
    ¬PipelineOk (tokens fullLine) ps := by
  have hrun : (runcmd (fun _ => none) (fullLine ++ [0])).map (fun ps => ps.any fun p => p.stores.contains MAXARGS) =
      some true := by decide +kernel
  obtain ⟨ps, hps, hany⟩ := Option.map_eq_some_iff.1 hrun
  refine ⟨ps, hps, fun hok => ?_⟩
  obtain ⟨p, hp, hstore⟩ := List.any_eq_true.1 hany
  obtain ⟨ws, hands⟩ := hok.hands hp
  exact absurd (hands.inside MAXARGS (by simpa using hstore)) (Nat.lt_irrefl _)

end Mos.Sh
