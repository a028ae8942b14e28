import Mos.Fs.FileSpec

/-!
# Paths (`walk_path` of `fs/fs.c`)

A path is scanned with two pointers, and each component is copied to a buffer.  The blocks say what a lookup finds: the
first `struct File` of a directory that has the name, and along a path, one component after the other.
-/

namespace Mos

/-! ### Scanning -/

/-- `skip_slash`. -/
def skipSlash : List Byte → List Byte
  | [] => []
  | c :: p => if c = 47 then skipSlash p else c :: p

/-- The characters that `path++` goes over. -/
def inElem (c : Byte) : Bool := c ≠ 47 ∧ c ≠ 0

/-- `*path == '\0'`. -/
def atEnd : List Byte → Bool
  | [] => true
  | c :: _ => c = 0

/-- What `walk_path` returns, and what it leaves in `*pdir`, `*pfile` and `lastelem`; the name is not written in general. -/
structure Walked where
  r : Word
  pdir : Option FilePtr
  pfile : Option FilePtr
  lastelem : Option (List Byte)

private theorem length_skipSlash_le (p : List Byte) : (skipSlash p).length ≤ p.length := by
  induction p with
  | nil => exact Nat.le_refl _
  | cons c p ih =>
    unfold skipSlash
    split
    · exact Nat.le_succ_of_le ih
    · exact Nat.le_refl _

/-- The next round has less to scan. -/
private theorem length_rest_lt {p : List Byte} (h : atEnd p = false) :
    (skipSlash (p.drop (p.takeWhile inElem).length)).length < p.length := by
  cases p with
  | nil => cases h
  | cons c p =>
    have hc : c ≠ 0 := by simpa [atEnd] using h
    by_cases hslash : c = 47
    · have hlen := length_skipSlash_le p
      have hin : inElem c = false := by simp [inElem, hslash]
      rw [List.takeWhile_cons, hin]
      unfold skipSlash
      simp only [Bool.false_eq_true, if_false, List.length_nil, List.drop_zero, if_pos hslash, List.length_cons]
      omega
    · have hin : inElem c = true := decide_eq_true ⟨hslash, hc⟩
      rw [List.takeWhile_cons, if_pos hin]
      refine Nat.lt_of_le_of_lt (length_skipSlash_le _) ?_
      rw [List.length_drop, List.length_cons, List.length_cons]
      omega

namespace FsProc

/-- The loop of `walk_path`: `dir`, `file` and what is left of the path. -/
def walkLoop (dir : Option FilePtr) (file : FilePtr) (path : List Byte) : FsProc Walked :=
  if _h : atEnd path then pure ⟨0, dir, some file, none⟩
  else
    let name := path.takeWhile inElem
    if MAXNAMELEN ≤ name.length then pure ⟨-E_BAD_PATH, none, none, none⟩
    else
      let rest := skipSlash (path.drop name.length)
      do
        let t ← fType file
        if t ≠ FTYPE_DIR then pure ⟨-E_NOT_FOUND, none, none, none⟩
        else do
          let q ← .attempt (dirLookup file name)
          match q with
          | .error r =>
            if r = -E_NOT_FOUND ∧ atEnd rest = true then pure ⟨r, some file, none, some name⟩
            else pure ⟨r, none, none, none⟩
          | .ok g => walkLoop (some file) g rest
termination_by path.length
decreasing_by exact length_rest_lt (by simpa using _h)

/-- `walk_path` with all that it sets. -/
def walkPathFull (path : List Byte) : FsProc Walked := walkLoop none .root (skipSlash path)

/-- The same over the components. -/
def walkElems (dir : Option FilePtr) (file : FilePtr) : List (List Byte) → FsProc Walked
  | [] => pure ⟨0, dir, some file, none⟩
  | name :: names =>
    if MAXNAMELEN ≤ name.length then pure ⟨-E_BAD_PATH, none, none, none⟩
    else do
      let t ← fType file
      if t ≠ FTYPE_DIR then pure ⟨-E_NOT_FOUND, none, none, none⟩
      else do
        let q ← .attempt (dirLookup file name)
        match q with
        | .error r =>
          if r = -E_NOT_FOUND ∧ names = [] then pure ⟨r, some file, none, some name⟩
          else pure ⟨r, none, none, none⟩
        | .ok g => walkElems (some file) g names

end FsProc

/-! ### The components -/

private theorem pathElems_slash (p : List Byte) : pathElems (47 :: p) = pathElems p := by
  unfold pathElems
  rw [List.takeWhile_cons, if_pos (by decide), List.splitOn_cons_eq_if_modifyHead, if_pos (by decide), List.filter_cons,
    if_neg (by decide)]

private theorem pathElems_skipSlash (p : List Byte) : pathElems (skipSlash p) = pathElems p := by
  induction p with
  | nil => rfl
  | cons c p ih =>
    unfold skipSlash
    split
    case isTrue hc => rw [ih, hc, pathElems_slash]
    case isFalse => rfl

private theorem pathElems_of_atEnd {p : List Byte} (h : atEnd p = true) : pathElems p = [] := by
  cases p with
  | nil => rfl
  | cons c p =>
    obtain rfl : c = 0 := by simpa [atEnd] using h
    rfl

/-- The scan stops at a slash, or at the end. -/
private theorem dropWhile_inElem (p : List Byte) : p.drop (p.takeWhile inElem).length = p.dropWhile inElem := by
  have hsplit : p.takeWhile inElem ++ p.dropWhile inElem = p := List.takeWhile_append_dropWhile
  have hdrop : (p.takeWhile inElem ++ p.dropWhile inElem).drop (p.takeWhile inElem).length = p.dropWhile inElem :=
    List.drop_left
  rwa [hsplit] at hdrop

private theorem rest_cases (p : List Byte) : (p.dropWhile inElem).takeWhile (· ≠ 0) = [] ∧
    pathElems (p.dropWhile inElem) = [] ∨
    ∃ r, p.dropWhile inElem = 47 :: r := by
  have hhead := List.head?_dropWhile_not inElem p
  cases hr : p.dropWhile inElem with
  | nil => exact .inl ⟨rfl, rfl⟩
  | cons c r =>
    rw [hr] at hhead
    have hc : inElem c = false := hhead
    by_cases h0 : c = 0
    · left
      rw [h0]
      exact ⟨rfl, rfl⟩
    · right
      have hslash : c = 47 := by
        by_contra hne
        have hin : inElem c = true := decide_eq_true ⟨hne, h0⟩
        rw [hc] at hin
        cases hin
      rw [hslash]
      exact ⟨r, rfl⟩

/-- Where the scan begins with a character of a name, the first component is what it goes over. -/
private theorem pathElems_cons {p : List Byte} (h : atEnd p = false) (hslash : p.head? ≠ some 47) :
    pathElems p = p.takeWhile inElem :: pathElems (p.dropWhile inElem) := by
  have hname : p.takeWhile inElem ≠ [] := by
    cases p with
    | nil => cases h
    | cons c p =>
      have hc : c ≠ 0 := by simpa [atEnd] using h
      have hne : c ≠ 47 := fun heq => hslash (by rw [heq]; rfl)
      have hin : inElem c = true := decide_eq_true ⟨hne, hc⟩
      rw [List.takeWhile_cons, if_pos hin]
      exact List.cons_ne_nil _ _
  have hall : ∀ c ∈ p.takeWhile inElem, c ≠ 47 ∧ c ≠ 0 := fun c hc =>
    of_decide_eq_true (List.all_eq_true.1 List.all_takeWhile c hc)
  have htake : p.takeWhile (· ≠ 0) = p.takeWhile inElem ++ (p.dropWhile inElem).takeWhile (· ≠ 0) := by
    conv_lhs => rw [← List.takeWhile_append_dropWhile (p := inElem) (l := p)]
    exact List.takeWhile_append_of_pos fun c hc => decide_eq_true (hall c hc).2
  have hmem : (47 : Byte) ∉ p.takeWhile inElem := fun hc => (hall _ hc).1 rfl
  have hkeep : decide (p.takeWhile inElem ≠ []) = true := decide_eq_true hname
  rcases rest_cases p with ⟨hend, hnil⟩ | ⟨r, hr⟩
  · rw [hnil]
    unfold pathElems
    rw [htake, hend, List.append_nil, List.splitOn_eq_singleton hmem, List.filter_cons, if_pos hkeep, List.filter_nil]
  · rw [hr, pathElems_slash]
    unfold pathElems
    rw [htake, hr, List.takeWhile_cons, if_pos (by decide), List.splitOn_append_cons_self_of_not_mem hmem,
      List.filter_cons, if_pos hkeep]

private theorem head_skipSlash (p : List Byte) : (skipSlash p).head? ≠ some 47 := by
  induction p with
  | nil => exact nofun
  | cons c p ih =>
    unfold skipSlash
    split
    case isTrue => exact ih
    case isFalse hc => exact fun h => hc (Option.some.inj h)

private theorem pathElems_eq_nil {p : List Byte} (hslash : p.head? ≠ some 47) : pathElems p = [] ↔ atEnd p = true := by
  constructor
  · intro h
    by_contra hend
    rw [pathElems_cons (by simpa using hend) hslash] at h
    cases h
  · exact pathElems_of_atEnd

namespace FsProc

/-- The loop goes over the components. -/
private theorem walkLoop_eq (dir : Option FilePtr) (file : FilePtr) (p : List Byte) (hslash : p.head? ≠ some 47) :
    walkLoop dir file p = walkElems dir file (pathElems p) := by
  induction h : p.length using Nat.strong_induction_on generalizing dir file p with
  | _ n ih =>
    unfold walkLoop
    split
    case isTrue hend => rw [pathElems_of_atEnd hend, walkElems]
    case isFalse hend =>
    have hend : atEnd p = false := by simpa using hend
    have hlt := length_rest_lt hend
    rw [dropWhile_inElem] at hlt
    have hrest : pathElems (p.dropWhile inElem) = pathElems (skipSlash (p.dropWhile inElem)) :=
      (pathElems_skipSlash _).symm
    have hnil : (atEnd (skipSlash (p.dropWhile inElem)) = true) = (pathElems (skipSlash (p.dropWhile inElem)) = []) :=
      propext (pathElems_eq_nil (head_skipSlash _)).symm
    have hnext : ∀ g, walkLoop (some file) g (skipSlash (p.dropWhile inElem)) =
        walkElems (some file) g (pathElems (skipSlash (p.dropWhile inElem))) := fun g =>
      ih _ (by omega) (some file) g _ (head_skipSlash _) rfl
    rw [pathElems_cons hend hslash, walkElems, hrest]
    simp only [dropWhile_inElem, hnil, hnext]

theorem walkPathFull_eq (path : List Byte) : walkPathFull path = walkElems none .root (pathElems path) := by
  unfold walkPathFull
  rw [walkLoop_eq _ _ _ (head_skipSlash path), pathElems_skipSlash]

/-- What `walk_path` returns: the file in `*pfile`, or the error. -/
def result : Except Word Walked → Except Word FilePtr
  | .ok ⟨_, _, some f, _⟩ => .ok f
  | .ok ⟨r, _, none, _⟩ => .error r
  | .error e => .error e

private theorem walkFrom_eq (names : List (List Byte)) : ∀ (dir : Option FilePtr) (f : FilePtr) (s : Fs),
    walkFrom f names s = (walkElems dir f names s).map fun p => (p.1, result p.2.1, p.2.2) := by
  induction names with
  | nil => exact fun _ _ _ => rfl
  | cons name names ih =>
    intro dir f s
    show (walkStep f name s).bind _ = _
    unfold walkStep walkElems
    by_cases hlen : MAXNAMELEN ≤ name.length
    · rw [if_pos hlen, if_pos hlen]
      rfl
    rw [if_neg hlen, if_neg hlen]
    show ((fType f s).bind _).bind _ = ((fType f s).bind _).map _
    have hread : fType f s = (s.word? f.blk (f.off + 33)).map fun w => ([], .ok w, s) := rfl
    rw [hread]
    cases s.word? f.blk (f.off + 33) with
    | none => rfl
    | some w =>
    simp only [Option.map_some, Option.bind_some]
    by_cases hdir : w ≠ FTYPE_DIR
    · rw [if_pos hdir, if_pos hdir]
      rfl
    rw [if_neg hdir, if_neg hdir]
    show ((dirLookup f name s).map _).bind _ = (((Proc.attempt (dirLookup f name) s).bind _).map _).map _
    have hattempt : Proc.attempt (dirLookup f name) s = (dirLookup f name s).map fun p => (p.1, .ok p.2.1, p.2.2) := rfl
    rw [hattempt]
    cases dirLookup f name s with
    | none => rfl
    | some p =>
    obtain ⟨l, q, t⟩ := p
    simp only [Option.map_some, Option.bind_some]
    cases q with
    | error e =>
      dsimp only
      split
      · simp [Pure.pure, result]
      · simp [Pure.pure, result]
    | ok g =>
      dsimp only
      rw [ih (some f) g t]
      cases walkElems (some f) g names t with
      | none => rfl
      | some p => simp

/-- `walk_path` without what it leaves behind. -/
theorem walkPath_eq (path : List Byte) (s : Fs) :
    walkPath path s = (walkPathFull path s).map fun p => (p.1, result p.2.1, p.2.2) := by
  rw [walkPathFull_eq]
  exact walkFrom_eq _ none .root s

end FsProc

end Mos
