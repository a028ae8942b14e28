import Mos.User.FileSpec

/-!
# The descriptors of a program as a table of pages

`dup` and `close` of a program that uses the file server do to its page table what those of `FdSpace` do.  What `FdSpace`
leaves open is read off the execution: whether the server refuses to close a file, and whether there is a page for a table.
-/

namespace Mos

open FdSpace (INDEX2FD INDEX2DATA fd2num fd2data rounds)

/-- The number that stands for a page. -/
def ClientPage.frame : ClientPage → Nat
  | .own n => 3 * n
  | .sent (.desc i) => 3 * i + 1
  | .sent (.block b) => 3 * b + 2

/-- The page that a number stands for. -/
def ClientPage.ofFrame (n : Nat) : ClientPage :=
  if n % 3 = 0 then .own (n / 3)
  else if n % 3 = 1 then .sent (.desc ⟨n / 3 % MAXOPEN, Nat.mod_lt _ (by decide)⟩)
  else .sent (.block (n / 3))

theorem ClientPage.ofFrame_frame (p : ClientPage) : ofFrame p.frame = p := by
  rcases p with (i | b) | n
  · have hi := i.isLt
    simp [ofFrame, frame, Nat.add_mod, Nat.mul_add_div, Nat.mod_eq_of_lt hi]
  · simp [ofFrame, frame, Nat.add_mod, Nat.mul_add_div]
  · simp [ofFrame, frame]

/-- The file that a request is to close. -/
def FsReq.toClose : FsReq → Option Word
  | .close fileid => some fileid
  | _ => none

/-- The server has refused to close the file. -/
def Asked.refused (l : List Asked) (fileid : Word) : Bool :=
  l.any fun a => a.answer.slt 0 && a.req.toClose == some fileid

/-- The files that the server has closed. -/
def Asked.closed (l : List Asked) : List Word := (l.filter fun a => !a.answer.slt 0).filterMap fun a => a.req.toClose

namespace Client

/-- What `close` reads in a page. -/
def fdHead (c : Client) (p : ClientPage) : FdHead :=
  ⟨(c.word 0 p).getD 0, (c.word 3 p).getD 0, (c.word 36 p).getD 0⟩

/-- The pages of the program, without their permissions. -/
def fdSpace (c : Client) (noTable : Idx → Bool) (refuses : Word → Bool) : FdSpace where
  page v := (c.map.page v).map fun p => (p.frame, 0)
  head n := c.fdHead (.ofFrame n)
  noTable := noTable
  refuses := refuses
  closed := []

/-- The same pages are at the same addresses. -/
structure InSpace (c : Client) (noTable : Idx → Bool) (closed : List Word) (s : FdSpace) : Prop where
  frame : ∀ v, s.frame v = (c.map.page v).map ClientPage.frame
  noTable : s.noTable = noTable
  closed : s.closed = closed

variable {c c' : Client} {s : FdSpace} {noTable : Idx → Bool} {closed : List Word} {va ova nva : Word}

theorem fdSpace_inSpace (c : Client) (noTable : Idx → Bool) (refuses : Word → Bool) :
    c.InSpace noTable [] (c.fdSpace noTable refuses) where
  frame v := by simp [fdSpace, FdSpace.frame, Function.comp_def]
  noTable := rfl
  closed := rfl

theorem fdSpace_head (c : Client) {noTable : Idx → Bool} {refuses : Word → Bool} (p : ClientPage) :
    (c.fdSpace noTable refuses).head p.frame = c.fdHead p := congrArg c.fdHead p.ofFrame_frame

/-- A change of anything else. -/
private theorem InSpace.of_map (hs : c.InSpace noTable closed s) (hmap : c'.map = c.map) : c'.InSpace noTable closed s where
  frame v := by rw [hmap, hs.frame v]
  noTable := hs.noTable
  closed := hs.closed

private theorem InSpace.isSome (hs : c.InSpace noTable closed s) (v : Vpn) :
    (s.page v).isSome = (c.map.page v).isSome := by
  have h := congrArg Option.isSome (hs.frame v)
  rwa [Option.isSome_map, FdSpace.frame, Option.isSome_map] at h

/-! ### System calls -/

private theorem memUnmap_inSpace (hs : c.InSpace noTable closed s) (va : Word) :
    (s.memUnmap va).1 = (c.memUnmap va).1 ∧ (c.memUnmap va).2.InSpace noTable closed (s.memUnmap va).2 := by
  unfold FdSpace.memUnmap memUnmap
  split
  · exact ⟨rfl, hs⟩
  · refine ⟨rfl, fun v => ?_, hs.noTable, hs.closed⟩
    rw [FdSpace.setPage_frame]
    by_cases hv : v = VPN va
    · subst hv
      rw [if_pos rfl]
      show none = (Function.update c.map.page (VPN va) none (VPN va)).map _
      rw [Function.update_self]
      rfl
    · rw [if_neg hv, hs.frame v]
      show _ = (Function.update c.map.page (VPN va) none v).map _
      rw [Function.update_of_ne hv]

private theorem unmap_inSpace (hs : c.InSpace noTable closed s) (va : Word) :
    (c.memUnmap va).2.InSpace noTable closed (s.unmap va) := (memUnmap_inSpace hs va).2

private theorem memUnmap_refused (h : (s.memUnmap va).1.slt 0 = true) : (s.memUnmap va).2 = s := by
  unfold FdSpace.memUnmap at h ⊢
  split
  · rfl
  · next hlegal =>
    rw [if_neg hlegal] at h
    cases h

/-- A page is mapped if there is a table or a page for one, and then there is a table. -/
private theorem memMap_inSpace (hs : c.InSpace noTable closed s) (hroom : noTable (PDX nva) = !c.room (PDX nva))
    (ova perm : Word) : (s.memMap ova nva perm).1 = (c.memMap ova nva).1 ∧
      (c.memMap ova nva).2.InSpace noTable closed (s.memMap ova nva perm).2 ∧
      (c.memMap ova nva).2.room (PDX nva) = c.room (PDX nva) := by
  have hsome := hs.isSome (VPN ova)
  unfold FdSpace.memMap memMap
  split
  · exact ⟨rfl, hs, rfl⟩
  · cases hp : c.map.page (VPN ova) with
    | none =>
      rw [hp, Option.isSome_none, Option.isSome_eq_false_iff, Option.isNone_iff_eq_none] at hsome
      rw [hsome]
      exact ⟨rfl, hs, rfl⟩
    | some p =>
      rw [hp, Option.isSome_some] at hsome
      obtain ⟨⟨pp, perm'⟩, hpage⟩ := Option.isSome_iff_exists.1 hsome
      have hframe := hs.frame (VPN ova)
      rw [hp, FdSpace.frame, hpage] at hframe
      obtain rfl : pp = p.frame := Option.some.inj hframe
      rw [hpage]
      dsimp only
      rw [hs.noTable, hroom]
      cases hr : c.room (PDX nva) with
      | false => exact ⟨rfl, hs, hr⟩
      | true =>
        refine ⟨rfl, ⟨fun v => ?_, hs.noTable, hs.closed⟩, ?_⟩
        · rw [if_neg (show ¬(!true) = true by decide), FdSpace.setPage_frame]
          show _ = (Function.update c.map.page (VPN nva) (c.map.page (VPN ova)) v).map _
          by_cases hv : v = VPN nva
          · rw [if_pos hv, hv, Function.update_self, hp]
            rfl
          · rw [if_neg hv, Function.update_of_ne hv, hs.frame v]
        · show ((c.map.table (PDX nva) || (c.map.page (VPN ova)).isSome && PDX nva == PDX nva) || _) = true
          rw [hp]
          simp

/-! ### Requests -/

/-- The replies to these requests bring no page. -/
private theorem ask_noPage {req : FsReq} {a : Word × Option ReplyPage} {d : Client}
    (hreq : (∃ fileid, req = .close fileid) ∨ ∃ fileid offset, req = .dirty fileid offset) (h : c.ask req = some (a, d)) :
    a.2 = none := by
  have hreply {α : Type} {fileid : Word} {x : FilePtr → FsProc α} {l : List ServLog} {r : Except Word Unit} {t : Serv}
      (hs : ServProc.withOpen fileid x (fun _ => none) c.serv = some (l, r, t))
      (ha : l.findSome? ServLog.answer = some a) : a.2 = none := by
    rcases ServProc.withOpen_some hs with ⟨-, -, rfl⟩ | ⟨i, f, -, -, hreply⟩
    · cases ha
      rfl
    · obtain ⟨l₀, q, u, -, -, rfl⟩ := ServProc.replyTo_some hreply
      rw [ServProc.answer_fs] at ha
      cases q with
      | error e =>
        cases ha
        rfl
      | ok v =>
        cases ha
        rfl
  rcases ask_some h with ⟨-, -, hnone⟩ | ⟨l, r, t, hs, ha, -⟩
  · exact hnone
  · rcases hreq with ⟨fileid, rfl⟩ | ⟨fileid, offset, rfl⟩
    · exact hreply hs ha
    · exact hreply hs ha

end Client

namespace UserFile

open Proc Client

variable {c c' : Client} {s : FdSpace} {noTable : Idx → Bool} {closed : List Word} {va ova nva fd : Word} {p : ClientPage}
  {l : List Asked} {q : Except Word Word}

private theorem fsipcClose_some {fileid : Word} (h : fsipcClose fileid c = some (l, q, c')) :
    ∃ r, q = .ok r ∧ c'.map = c.map ∧ l = [⟨c.serv, .close fileid, r⟩] := by
  obtain ⟨⟨r, page⟩, d, hask, rfl, rfl, rfl⟩ := fsipc_some h
  obtain rfl : page = none := ask_noPage (.inl ⟨fileid, rfl⟩) hask
  exact ⟨r, rfl, ask_map hask, rfl⟩

private theorem fsipcDirty_some {fileid offset : Word} (h : fsipcDirty fileid offset c = some (l, q, c')) :
    ∃ r, q = .ok r ∧ c'.map = c.map ∧ l = [⟨c.serv, .dirty fileid offset, r⟩] := by
  obtain ⟨⟨r, page⟩, d, hask, rfl, rfl, rfl⟩ := fsipc_some h
  obtain rfl : page = none := ask_noPage (.inr ⟨fileid, offset, rfl⟩) hask
  exact ⟨r, rfl, ask_map hask, rfl⟩

/-- The first loop of `file_close` closes nothing. -/
private theorem dirtyPages_some {fileid : Word} {is : List Nat} {q : Except Word Unit}
    (h : Proc.each (fun i => do
      let _ ← fsipcDirty fileid (BitVec.ofNat 32 (i * 4096))
      pure ()) is c = some (l, q, c')) : q = .ok () ∧ c'.map = c.map ∧ ∀ a ∈ l, a.req.toClose = none := by
  induction is generalizing c l with
  | nil =>
    cases h
    exact ⟨rfl, rfl, nofun⟩
  | cons i is ih =>
    have hround {l : List Asked} {q : Except Word Unit} {d : Client} (h : (do
        let _ ← fsipcDirty fileid (BitVec.ofNat 32 (i * 4096))
        pure () : UserProc Unit) c = some (l, q, d)) : q = .ok () ∧ d.map = c.map ∧ ∀ a ∈ l, a.req.toClose = none := by
      obtain ⟨l₁, r, u, l₂, hask, hrest, rfl⟩ := bind_ok h fun l e t he => by
        obtain ⟨r, he, -⟩ := fsipcDirty_some he
        cases he
      obtain ⟨r', -, hmap, rfl⟩ := fsipcDirty_some hask
      cases hrest
      refine ⟨rfl, hmap, fun a ha => ?_⟩
      obtain rfl := List.mem_singleton.1 ha
      rfl
    obtain ⟨l₁, ⟨⟩, u, l₂, hfirst, hrest, rfl⟩ := bind_ok h fun l e t he => by
      obtain ⟨he, -⟩ := hround he
      cases he
    obtain ⟨-, hmap, hno⟩ := hround hfirst
    obtain ⟨hq, hmap', hno'⟩ := ih hrest
    refine ⟨hq, hmap'.trans hmap, fun a ha => ?_⟩
    rcases List.mem_append.1 ha with ha | ha
    · exact hno a ha
    · exact hno' a ha

/-! ### Loops -/

private theorem memUnmap_run (c : Client) (va : Word) :
    memUnmap va c = some ([], .ok (c.memUnmap va).1, (c.memUnmap va).2) := rfl

/-- The next page. -/
private theorem page_succ (va : Word) (k : Nat) :
    va + BitVec.ofNat 32 (k * 4096) + BY2PG = va + BitVec.ofNat 32 ((k + 1) * 4096) := by
  have hpg : BY2PG = BitVec.ofNat 32 4096 := by decide
  rw [hpg, BitVec.add_assoc, ← BitVec.ofNat_add, Nat.succ_mul]

private theorem unmapPages_inSpace {n k : Nat} (hs : c.InSpace noTable closed s)
    (h : unmapPages va (List.range' k n) c = some (l, q, c')) : (∃ r, q = .ok r) ∧ l = [] ∧
      c'.InSpace noTable closed (FdSpace.unmapPages n s (va + BitVec.ofNat 32 (k * 4096))) := by
  induction n generalizing k c s l with
  | zero =>
    cases h
    exact ⟨⟨0, rfl⟩, rfl, hs⟩
  | succ n ih =>
    rw [List.range'_succ] at h
    obtain ⟨hr, hs'⟩ := memUnmap_inSpace hs (va + BitVec.ofNat 32 (k * 4096))
    have hrest := (bind_eq rfl).symm.trans h
    unfold FdSpace.unmapPages
    rw [hr]
    split at hrest
    · next hneg =>
      cases hrest
      rw [if_pos hneg]
      rw [← hr] at hneg
      rw [memUnmap_refused hneg] at hs'
      exact ⟨⟨_, rfl⟩, rfl, hs'⟩
    · next hneg =>
      rw [if_neg hneg, page_succ]
      exact ih hs' hrest

private theorem undo_inSpace {q : Except Word Unit} {n k : Nat} (hs : c.InSpace noTable closed s)
    (h : Proc.each (fun i => do
      let _ ← memUnmap (va + BitVec.ofNat 32 (i * 4096))
      pure ()) (List.range' k n) c = some (l, q, c')) : q = .ok () ∧ l = [] ∧
      c'.InSpace noTable closed (FdSpace.undoPages n s (va + BitVec.ofNat 32 (k * 4096))) := by
  induction n generalizing k c s l with
  | zero =>
    cases h
    exact ⟨rfl, rfl, hs⟩
  | succ n ih =>
    rw [List.range'_succ] at h
    obtain ⟨-, hs'⟩ := memUnmap_inSpace hs (va + BitVec.ofNat 32 (k * 4096))
    have hrest := (bind_eq (bind_eq rfl)).symm.trans h
    unfold FdSpace.undoPages
    rw [page_succ]
    exact ih hs' hrest

/-- The pages of a window have one table. -/
private theorem PDX_window {i : Nat} (hva : va.toNat % 2 ^ 22 = 0) (hi : i < 1024) :
    PDX (va + BitVec.ofNat 32 (i * 4096)) = PDX va := by
  have hlt := va.isLt
  have hsum : (va + BitVec.ofNat 32 (i * 4096)).toNat = va.toNat + i * 4096 := by
    rw [BitVec.toNat_add, BitVec.toNat_ofNat]
    omega
  apply Fin.ext
  simp only [PDX, BitVec.toNat_ushiftRight, Nat.shiftRight_eq_div_pow, hsum]
  omega

/-- The first loop of `dup`; all of its pages have the same table. -/
private theorem copyPages_inSpace {n k : Nat} (hs : c.InSpace noTable closed s) (hnva : nva.toNat % 2 ^ 22 = 0)
    (hkn : k + n ≤ 1024) (hroom : noTable (PDX nva) = !c.room (PDX nva))
    (h : copyPages ova nva (List.range' k n) c = some (l, q, c')) : ∃ r, q = .ok r ∧ l = [] ∧
      (FdSpace.copyPages n s (ova + BitVec.ofNat 32 (k * 4096)) (nva + BitVec.ofNat 32 (k * 4096))).1 = r ∧
      c'.InSpace noTable closed
        (FdSpace.copyPages n s (ova + BitVec.ofNat 32 (k * 4096)) (nva + BitVec.ofNat 32 (k * 4096))).2 ∧
      c'.room (PDX nva) = c.room (PDX nva) := by
  induction n generalizing k c s l with
  | zero =>
    cases h
    exact ⟨0, rfl, rfl, rfl, hs, rfl⟩
  | succ n ih =>
    rw [List.range'_succ] at h
    obtain ⟨p, hp, hrest⟩ := read_bind_some h
    obtain rfl := Option.some.inj hp
    unfold FdSpace.copyPages
    rw [hs.isSome]
    split at hrest
    · next hsome =>
      -- Once a page is copied there is a table, so that nothing changes for the next ones.
      have hpdx := PDX_window (i := k) hnva (by omega)
      rw [← hpdx] at hroom
      obtain ⟨hr, hs', hroom'⟩ := memMap_inSpace hs hroom (ova + BitVec.ofNat 32 (k * 4096))
        (s.shared (ova + BitVec.ofNat 32 (k * 4096)))
      rw [hpdx] at hroom hroom'
      have hloop := (bind_eq rfl).symm.trans hrest
      rw [if_pos hsome, hr]
      split at hloop
      · next hneg =>
        cases hloop
        rw [if_pos hneg]
        exact ⟨_, rfl, rfl, hr, hs', hroom'⟩
      · next hneg =>
        rw [if_neg hneg, page_succ, page_succ, ← hroom']
        exact ih hs' (by omega) (by rw [hroom', hroom]) hloop
    · next hnone =>
      rw [if_neg hnone, page_succ, page_succ]
      exact ih hs (by omega) hroom hrest

/-! ### `close` and `dup` -/

/-- A descriptor is found in both, or in none. -/
theorem fdLookup_inSpace {w : Word} (hs : c.InSpace noTable closed s) (h : fdLookup w c = some (l, q, c')) :
    c' = c ∧ l = [] ∧ (s.fdLookup w = none ∧ q = .error (-E_INVAL) ∨
      ∃ p, s.fdLookup w = some (INDEX2FD w) ∧ q = .ok (INDEX2FD w) ∧ c.map.page (VPN (INDEX2FD w)) = some p) := by
  have hsome := hs.isSome (VPN (INDEX2FD w))
  obtain ⟨rfl, rfl, ⟨rfl, hnone⟩ | ⟨p, rfl, hlt, hp⟩⟩ := fdLookup_some h
  · refine ⟨rfl, rfl, .inl ⟨?_, rfl⟩⟩
    unfold FdSpace.fdLookup
    by_cases hlt : w.slt 32 = true
    · rw [if_neg (not_not.2 hlt), hsome, hnone hlt]
      rfl
    · rw [if_pos hlt]
  · refine ⟨rfl, rfl, .inr ⟨p, ?_, rfl, hp⟩⟩
    unfold FdSpace.fdLookup
    rw [if_neg (not_not.2 hlt), hsome, hp]
    rfl

/-- The page of a descriptor is read as it is. -/
private theorem headAt_inSpace (hs : c.InSpace noTable closed s) (hhead : ∀ p, s.head p.frame = c.fdHead p)
    (hp : c.map.page (VPN fd) = some p) : s.headAt fd = some (c.fdHead p) := by
  have hframe := hs.frame (VPN fd)
  rw [hp] at hframe
  obtain ⟨⟨pp, perm⟩, hpage, hpp⟩ := Option.map_eq_some_iff.1 hframe
  obtain rfl : pp = p.frame := hpp
  unfold FdSpace.headAt
  rw [hpage, ← hhead]
  rfl

/-- The request to close a file is the only one of its kind. -/
private theorem refused_after {serv : Serv} {fileid r : Word} (hno : ∀ a ∈ l, a.req.toClose = none) :
    Asked.refused (l ++ [⟨serv, .close fileid, r⟩]) fileid = r.slt 0 := by
  have hold : (l.any fun a => a.answer.slt 0 && a.req.toClose == some fileid) = false := by
    rw [List.any_eq_false]
    intro a ha
    simp [hno a ha]
  unfold Asked.refused
  rw [List.any_append, hold]
  simp [FsReq.toClose]

private theorem closed_after {serv : Serv} {fileid r : Word} (hno : ∀ a ∈ l, a.req.toClose = none) :
    Asked.closed (l ++ [⟨serv, .close fileid, r⟩]) = if r.slt 0 then [] else [fileid] := by
  have hold : (l.filter fun a => !a.answer.slt 0).filterMap (fun a => a.req.toClose) = [] := by
    rw [List.filterMap_eq_nil_iff]
    intro a ha
    exact hno a (List.mem_filter.1 ha).1
  unfold Asked.closed
  rw [List.filter_append, List.filterMap_append, hold, List.nil_append]
  cases hr : r.slt 0 with
  | false =>
    rw [List.filter_cons_of_pos (by simp only [hr, Bool.not_false])]
    rfl
  | true =>
    rw [List.filter_cons_of_neg (by simp only [hr, Bool.not_true, Bool.false_eq_true, not_false_iff])]
    rfl

private theorem fileClose_inSpace (hs : c.InSpace noTable closed s) (hp : c.map.page (VPN fd) = some p)
    (h : fileClose fd c = some (l, q, c')) (hrefuses : s.refuses = Asked.refused l) : (∃ r, q = .ok r) ∧
      ∃ t, s.fileClose fd (c.fdHead p) = some t ∧ c'.InSpace noTable (Asked.closed l ++ closed) t := by
  obtain ⟨l₁, fileid, u, l₂, hid, hrest₁, rfl⟩ := bind_ok h fun l e t => fdWord_ok
  obtain ⟨⟨_, hfileid, hval⟩, rfl, rfl⟩ := fdWord_mapped hp hid
  cases hval
  obtain ⟨l₃, size, v, l₄, hsz, hrest₂, rfl⟩ := bind_ok hrest₁ fun l e t => fdWord_ok
  obtain ⟨⟨_, hsize, hval⟩, rfl, rfl⟩ := fdWord_mapped hp hsz
  cases hval
  have hhead : v.fdHead p = ⟨(v.fdHead p).fdDevId, fileid, size⟩ := by
    unfold fdHead
    rw [hfileid, hsize]
    rfl
  rw [hhead]
  unfold FdSpace.fileClose
  split at hrest₂
  · cases hrest₂
  next hsmall =>
  obtain ⟨l₅, ⟨⟩, w, l₆, hdirty, hrest₃, rfl⟩ := bind_ok hrest₂ fun l e t he => by
    obtain ⟨he, -⟩ := dirtyPages_some he
    cases he
  obtain ⟨-, hmap, hno⟩ := dirtyPages_some hdirty
  obtain ⟨l₇, r, x, l₈, hclose, hrest₄, rfl⟩ := bind_ok hrest₃ fun l e t he => by
    obtain ⟨r, he, -⟩ := fsipcClose_some he
    cases he
  obtain ⟨_, hval, hmap', rfl⟩ := fsipcClose_some hclose
  cases hval
  have hs' : x.InSpace noTable closed s := (hs.of_map hmap).of_map hmap'
  have hlog : [] ++ ([] ++ (l₅ ++ ([⟨w.serv, .close fileid, r⟩] ++ []))) = l₅ ++ [⟨w.serv, .close fileid, r⟩] := rfl
  rw [if_neg hsmall]
  split at hrest₄
  · next hneg =>
    cases hrest₄
    have hclosed : s.closed = Asked.closed (l₅ ++ [⟨w.serv, .close fileid, r⟩]) ++ closed := by
      rw [closed_after hno, if_pos hneg, hs'.closed]
      rfl
    refine ⟨⟨r, rfl⟩, s, if_pos ?_, hs'.frame, hs'.noTable, hclosed⟩
    rw [hrefuses, hlog, refused_after hno, hneg]
  · next hok =>
    rw [List.range_eq_range'] at hrest₄
    have hs'' : x.InSpace noTable (fileid :: closed) { s with closed := fileid :: s.closed } :=
      ⟨hs'.frame, hs'.noTable, congrArg _ hs'.closed⟩
    obtain ⟨hq, rfl, hend⟩ := unmapPages_inSpace hs'' hrest₄
    rw [show fd2data fd + BitVec.ofNat 32 (0 * 4096) = fd2data fd from BitVec.add_zero _] at hend
    rw [hlog] at hrefuses ⊢
    refine ⟨hq, _, if_neg ?_, ?_⟩
    · rwa [hrefuses, refused_after hno]
    · rw [closed_after hno, if_neg hok]
      exact hend

private theorem pipeClose_inSpace (hs : c.InSpace noTable closed s) (h : pipeClose fd c = some (l, q, c')) :
    q = .ok 0 ∧ l = [] ∧ c'.InSpace noTable closed (s.pipeClose fd) := by
  have hpages := unmap_inSpace (unmap_inSpace hs fd) (fd2data fd)
  have hrun : pipeClose fd c = some ([], .ok 0, ((c.memUnmap fd).2.memUnmap (fd2data fd)).2) := by
    unfold pipeClose
    rw [bind_eq (memUnmap_run c fd), bind_eq (memUnmap_run _ (fd2data fd))]
    rfl
  rw [hrun, Option.some.injEq, Prod.mk.injEq, Prod.mk.injEq] at h
  obtain ⟨rfl, rfl, rfl⟩ := h
  exact ⟨rfl, rfl, hpages⟩

/-- `dev_close`, for a device that there is. -/
private theorem devClose_inSpace {devId : Word} (hs : c.InSpace noTable closed s) (hp : c.map.page (VPN fd) = some p)
    (hdevice : devId = 102 ∨ devId = 99 ∨ devId = 112) (h : devClose devId fd c = some (l, q, c'))
    (hrefuses : s.refuses = Asked.refused l) : (∃ r, q = .ok r) ∧ ∃ t,
      (if devId = 102 then s.fileClose fd (c.fdHead p) else if devId = 99 then some s
        else if devId = 112 then some (s.pipeClose fd) else none) = some t ∧
      c'.InSpace noTable (Asked.closed l ++ closed) t := by
  unfold devClose at h
  rcases hdevice with rfl | rfl | rfl
  · rw [if_pos rfl] at h ⊢
    exact fileClose_inSpace hs hp h hrefuses
  · rw [if_neg (show (99 : Word) ≠ 102 by decide), if_pos rfl] at h ⊢
    cases h
    exact ⟨⟨0, rfl⟩, s, rfl, hs⟩
  · rw [if_neg (show (112 : Word) ≠ 102 by decide), if_neg (show (112 : Word) ≠ 99 by decide)] at h ⊢
    rw [if_pos rfl]
    obtain ⟨rfl, rfl, hs'⟩ := pipeClose_inSpace hs h
    exact ⟨⟨0, rfl⟩, _, rfl, hs'⟩

/-- `close` of the program does what that of the pages does. -/
theorem close_inSpace {w : Word} (hs : c.InSpace noTable closed s) (hhead : ∀ p, s.head p.frame = c.fdHead p)
    (h : close w c = some (l, q, c')) (hrefuses : s.refuses = Asked.refused l) :
    ∃ t, s.close w = some t ∧ c'.InSpace noTable (Asked.closed l ++ closed) t := by
  unfold FdSpace.close
  rcases bind_some h with ⟨e, hlook, rfl⟩ | ⟨l₁, fd, u, l₂, hlook, hrest₁, rfl⟩
  · obtain ⟨rfl, rfl, ⟨hnone, -⟩ | ⟨p, -, he, -⟩⟩ := fdLookup_inSpace hs hlook
    · rw [hnone]
      exact ⟨s, rfl, hs⟩
    · cases he
  · obtain ⟨rfl, rfl, ⟨-, he⟩ | ⟨p, hsome, he, hp⟩⟩ := fdLookup_inSpace hs hlook
    · cases he
    cases he
    rw [hsome]
    dsimp only
    rw [headAt_inSpace hs hhead hp]
    obtain ⟨l₃, devId, v, l₄, hdev, hrest₂, rfl⟩ := bind_ok hrest₁ fun l e t => fdWord_ok
    obtain ⟨⟨_, hdevId, hval⟩, rfl, rfl⟩ := fdWord_mapped hp hdev
    cases hval
    have hid : (v.fdHead p).fdDevId = devId := by
      unfold fdHead
      rw [hdevId]
      rfl
    dsimp only
    rw [hid]
    rcases bind_some hrest₂ with ⟨e, hlookup, rfl⟩ | ⟨l₅, ⟨⟩, x, l₆, hlookup, hrest₃, rfl⟩
    · unfold devLookup at hlookup
      split at hlookup
      · cases hlookup
      · next hno =>
        cases hlookup
        rw [if_neg fun h => hno (.inl h), if_neg fun h => hno (.inr (.inl h)), if_neg fun h => hno (.inr (.inr h))]
        exact ⟨s, rfl, hs⟩
    · unfold devLookup at hlookup
      split at hlookup
      · next hdevice =>
        cases hlookup
        rcases bind_some hrest₃ with ⟨e, hclose, rfl⟩ | ⟨l₇, r, y, l₈, hclose, hrest₄, rfl⟩
        · obtain ⟨⟨r, he⟩, -⟩ := devClose_inSpace hs hp hdevice hclose hrefuses
          cases he
        · rw [bind_eq (memUnmap_run y (INDEX2FD w))] at hrest₄
          cases hrest₄
          simp only [List.nil_append, List.append_nil] at hrefuses ⊢
          obtain ⟨-, t, ht, hst⟩ := devClose_inSpace hs hp hdevice hclose hrefuses
          have hend := unmap_inSpace hst (INDEX2FD w)
          refine ⟨t.unmap (INDEX2FD w), ?_, hend⟩
          rcases hdevice with rfl | rfl | rfl
          · rw [if_pos rfl] at ht ⊢
            rw [ht]
            rfl
          · rw [if_neg (show (99 : Word) ≠ 102 by decide), if_pos rfl] at ht ⊢
            cases ht
            rfl
          · rw [if_neg (show (112 : Word) ≠ 102 by decide), if_neg (show (112 : Word) ≠ 99 by decide), if_pos rfl] at ht ⊢
            cases ht
            rfl
      · cases hlookup

/-- The part of `dup` behind `err`. -/
private theorem err_inSpace {newfd : Word} {q : Except Word Unit} (hs : c.InSpace noTable closed s)
    (h : undo newfd nva c = some (l, q, c')) : q = .ok () ∧ l = [] ∧
      c'.InSpace noTable closed (FdSpace.undoPages 1024 (s.unmap newfd) nva) := by
  unfold undo at h
  rw [bind_eq (memUnmap_run c newfd), List.range_eq_range'] at h
  have hloop := undo_inSpace (unmap_inSpace hs newfd) h
  rwa [show nva + BitVec.ofNat 32 (0 * 4096) = nva from BitVec.add_zero _] at hloop

/-- The end of `dup`: the page of the descriptor. -/
private theorem mapFd_inSpace {r oldfd newfd w' : Word} (hs : c.InSpace noTable closed s)
    (hroom : ¬r.slt 0 = true → noTable (PDX newfd) = !c.room (PDX newfd))
    (h : (if r.slt 0 then do
        undo newfd (fd2data newfd)
        pure r
      else do
        let r ← memMap oldfd newfd
        if r.slt 0 then do
          undo newfd (fd2data newfd)
          pure r
        else pure w' : UserProc Word) c = some (l, q, c')) :
    l = [] ∧ (s.mapFd r oldfd newfd w').1 = returned q ∧ c'.InSpace noTable closed (s.mapFd r oldfd newfd w').2 := by
  have herr {r : Word} {d : Client} {t : FdSpace} {l : List Asked} (ht : d.InSpace noTable closed t)
      (h : (do
        undo newfd (fd2data newfd)
        pure r : UserProc Word) d = some (l, q, c')) : l = [] ∧ q = .ok r ∧
        c'.InSpace noTable closed (FdSpace.undoPages 1024 (t.unmap newfd) (fd2data newfd)) := by
    obtain ⟨l₁, ⟨⟩, u, l₂, hundo, hrest, rfl⟩ := bind_ok h fun l e t he => by
      obtain ⟨he, -⟩ := err_inSpace ht he
      cases he
    obtain ⟨-, rfl, hend⟩ := err_inSpace ht hundo
    cases hrest
    exact ⟨rfl, rfl, hend⟩
  unfold FdSpace.mapFd
  split at h
  · next hneg =>
    obtain ⟨hl, hq, hend⟩ := herr hs h
    rw [if_pos hneg, hq]
    dsimp only [returned]
    exact ⟨hl, rfl, hend⟩
  · next hok =>
    obtain ⟨hr, hs', -⟩ := memMap_inSpace hs (hroom hok) oldfd (s.shared oldfd)
    have hrest := (bind_eq rfl).symm.trans h
    rw [if_neg hok]
    dsimp only
    rw [hr]
    split at hrest
    · next hneg =>
      obtain ⟨hl, hq, hend⟩ := herr hs' hrest
      rw [if_pos hneg, hq]
      dsimp only [returned]
      exact ⟨hl, rfl, hend⟩
    · next hdone =>
      cases hrest
      rw [if_neg hdone]
      exact ⟨rfl, rfl, hs'⟩

private theorem fd2data_window (fd : Word) : (fd2data fd).toNat % 2 ^ 22 = 0 := by
  have hbase : FILEBASE.toNat = 384 * 1024 * 4096 := by decide
  have hpg : PDMAP.toNat = 1024 * 4096 := by decide
  unfold fd2data INDEX2DATA
  rw [BitVec.toNat_add, BitVec.toNat_mul, hbase, hpg]
  omega

/-- `dup` of the program does what that of the pages does. -/
theorem dup_inSpace {w w' : Word} (h : dup w w' c = some (l, q, c')) :
    ∃ noTable t, (c.fdSpace noTable (Asked.refused l)).dup w w' = some (returned q, t) ∧
      c'.InSpace noTable (Asked.closed l) t := by
  unfold FdSpace.dup
  rcases bind_some h with ⟨e, hlook, rfl⟩ | ⟨l₁, fd, u, l₂, hlook, hrest₁, rfl⟩
  · have hs := c.fdSpace_inSpace (fun _ => false) (Asked.refused l)
    obtain ⟨rfl, rfl, ⟨hnone, he⟩ | ⟨p, -, he, -⟩⟩ := fdLookup_inSpace hs hlook
    · cases he
      refine ⟨fun _ => false, _, ?_, hs⟩
      rw [hnone]
      rfl
    · cases he
  · obtain ⟨l₃, r, v, l₄, hclose, hrest₂, rfl⟩ := attempt_bind_some hrest₁
    have hwindow := fd2data_window (INDEX2FD w')
    have hzero (va : Word) : va + BitVec.ofNat 32 (0 * 4096) = va := BitVec.add_zero va
    have hlook' (noTable : Idx → Bool) (refuses : Word → Bool) :=
      fdLookup_inSpace (c.fdSpace_inSpace noTable refuses) hlook
    obtain ⟨rfl, rfl, -⟩ := hlook' (fun _ => false) fun _ => false
    have hclosed (noTable : Idx → Bool) : ∃ t, (u.fdSpace noTable (Asked.refused l₃)).close w' = some t ∧
        v.InSpace noTable (Asked.closed l₃) t := by
      obtain ⟨t, ht, hs⟩ := close_inSpace (u.fdSpace_inSpace noTable (Asked.refused l₃)) u.fdSpace_head hclose rfl
      rw [List.append_nil] at hs
      exact ⟨t, ht, hs⟩
    obtain ⟨t₀, -, hs₀⟩ := hclosed fun i => !v.room i
    rw [List.range_eq_range'] at hrest₂
    obtain ⟨l₅, r', x, l₆, hcopy, hrest₃, rfl⟩ := bind_ok hrest₂ fun l e t he => by
      obtain ⟨r, hr, -⟩ := copyPages_inSpace hs₀ hwindow (by omega) rfl he
      cases hr
    -- There is a page for the table of the window before the copy, and for that of the descriptor after it.
    let noTable (i : Idx) : Bool := if i = PDX (fd2data (INDEX2FD w')) then !v.room i else !x.room i
    obtain ⟨t, ht, hs⟩ := hclosed noTable
    obtain ⟨_, hr, rfl, hres, hs', hroom⟩ := copyPages_inSpace hs hwindow (by omega) (if_pos rfl) hcopy
    cases hr
    rw [hzero, hzero] at hres hs'
    have htable : noTable (PDX (INDEX2FD w')) = !x.room (PDX (INDEX2FD w')) := by
      by_cases heq : PDX (INDEX2FD w') = PDX (fd2data (INDEX2FD w'))
      · show (if _ then _ else _) = _
        rw [if_pos heq, heq, hroom]
      · exact if_neg heq
    obtain ⟨rfl, hret, hend⟩ := mapFd_inSpace hs' (fun _ => htable) hrest₃
    obtain ⟨-, -, ⟨-, he⟩ | ⟨p, hfound, he, -⟩⟩ := hlook' noTable (Asked.refused l₃)
    · cases he
    cases he
    simp only [List.nil_append, List.append_nil]
    refine ⟨noTable, _, ?_, hend⟩
    rw [hfound]
    dsimp only
    rw [ht, Option.map_some, hres, ← hret]

end UserFile

end Mos
