import Mos.User.FileOpen

/-!
# Another size for a file (`ftruncate` and `file_write` of `user/lib/file.c`)

`ftruncate` sets the size in the descriptor, then the one that the server has, and then maps what is new.  If a request is
refused on the way, the size in the descriptor stays what it was set to.
-/

namespace Mos

open FdSpace (INDEX2FD fd2num fd2data)

namespace Client

variable {c d : Client} {fdnum size : Word} {p : ClientPage}

/-- `f_size` of a descriptor. -/
def fdSize (c : Client) (fdnum : Word) : Option Word := (c.map.page (VPN (INDEX2FD fdnum))).bind (c.word 36)

/-- The size in the descriptor, the files that the server has, and the pages are as before. -/
structure Restored (fdnum : Word) (c c' : Client) : Prop where
  fdSize : c'.fdSize fdnum = c.fdSize fdnum
  size : ∀ f, c'.serv.fs.view.size f = c.serv.fs.view.size f
  byte : ∀ f pos, c'.serv.fs.view.byteAt f pos = c.serv.fs.view.byteAt f pos
  page : ∀ v, c'.map.page v = c.map.page v

/-- No request of `ftruncate` is refused, if it makes any and the size is another one. -/
def TruncGranted (c : Client) (fdnum size : Word) : Prop :=
  ∀ p fileid old d, ¬MAXFILESIZE < size → c.FileFd fdnum p fileid old → size ≠ old → c.setWord 36 size p = some d →
    ∃ e, d.ask (.setSize fileid size) = some ((0, none), e) ∧
      UserFile.Granted fileid (fd2data (INDEX2FD fdnum)) (UserFile.pagesBetween old size) e

/-- A `write` of `n` bytes gets to `ftruncate`, with this size. -/
def Extends (c : Client) (fdnum n tot : Word) : Prop :=
  ∃ p omode offset fileid size, c.FileFd fdnum p fileid size ∧ c.word 2 p = some omode ∧ omode &&& O_ACCMODE ≠ O_RDONLY ∧
    c.word 1 p = some offset ∧ tot = offset + n ∧ ¬MAXFILESIZE < tot ∧ size < tot

private theorem Restored.refl (fdnum : Word) (c : Client) : Restored fdnum c c := ⟨rfl, fun _ => rfl, fun _ _ => rfl, fun _ => rfl⟩

/-- The size in the page of a descriptor is another one, or it is another page. -/
private theorem not_restored {c' : Client} {old : Word} (hp : c.map.page (VPN (INDEX2FD fdnum)) = some p)
    (hold : c.word 36 p = some old) (hnew : c'.word 36 p = some size) (hne : size ≠ old) : ¬Restored fdnum c c' := by
  intro h
  have hsize := h.fdSize
  unfold fdSize at hsize
  rw [h.page, hp, Option.bind_some, Option.bind_some, hold, hnew] at hsize
  exact hne (Option.some.inj hsize)

end Client

namespace UserFile

open Proc Client

variable {c c' : Client} {l : List Asked} {q : Except Word Word} {fdnum size : Word}

/-- Where `ftruncate` ends, if it gets to its first request. -/
inductive TruncEnd (fdnum fileid old size : Word) (e : Client) (r : Word) : Word → Client → Prop
  /-- The server refuses the size. -/
  | refused (hneg : r.slt 0 = true) : TruncEnd fdnum fileid old size e r r e
  /-- It refuses a block, and gets the old size again. -/
  | undone {r' : Word} {c' : Client} (hneg : r'.slt 0 = true)
      (hno : ¬Granted fileid (fd2data (INDEX2FD fdnum)) (pagesBetween old size) e)
      (hword : ∀ p, (∀ b, p ≠ .sent (.block b)) → ∀ k, c'.word k p = e.word k p) : TruncEnd fdnum fileid old size e r r' c'
  | done {l l' : List Asked} {r' : Word} {u c' : Client} (h0 : r = 0)
      (hmap : mapPages fileid (fd2data (INDEX2FD fdnum)) (pagesBetween old size) e = some (l, .ok 0, u))
      (hunmap : unmapPages (fd2data (INDEX2FD fdnum)) (pagesBetween size old) u = some (l', .ok r', c'))
      (hok : ¬r'.slt 0 = true) : TruncEnd fdnum fileid old size e r 0 c'

private theorem unmapPages_ok {va e : Word} {is : List Nat} : unmapPages va is c ≠ some (l, .error e, c') := by
  induction is generalizing c l with
  | nil => nofun
  | cons i is ih =>
    intro h
    obtain ⟨l₁, r, u, l₂, -, hrest, -⟩ := bind_ok h fun l e t he => by cases he
    split at hrest
    · cases hrest
    · exact ih hrest

private theorem resize_cases {fileid old : Word} (h : resize (INDEX2FD fdnum) fileid old size c = some (l, q, c')) :
    ∃ r e, c.ask (.setSize fileid size) = some ((r, none), e) ∧ (r.slt 0 = true ∧ e.serv = c.serv ∨ r = 0) ∧
      TruncEnd fdnum fileid old size e r (returned q) c' := by
  obtain ⟨l₁, r, e, l₂, hset, hrest, -⟩ := bind_ok h fun l e t he => by
    obtain ⟨r, he, -⟩ := fsipcSetSize_some he
    cases he
  obtain ⟨r', hr', hask, hserv⟩ := fsipcSetSize_some hset
  cases hr'
  refine ⟨r, e, hask, hserv, ?_⟩
  by_cases hneg : r.slt 0 = true
  · rw [if_pos hneg] at hrest
    cases hrest
    exact .refused hneg
  rw [if_neg hneg] at hrest
  have h0 : r = 0 := hserv.resolve_left fun h => hneg h.1
  obtain ⟨l₃, r₁, u, l₄, hmap, hrest, -⟩ := bind_ok hrest fun l e t he => by
    obtain ⟨⟨r, hr, -⟩, -⟩ := mapPages_granted he
    cases hr
  obtain ⟨⟨r₁', hr₁, hgranted⟩, hword⟩ := mapPages_granted hmap
  cases hr₁
  rcases hgranted with ⟨rfl, -⟩ | ⟨hneg₁, hno⟩
  · rw [if_neg (show ¬(0 : Word).slt 0 = true by decide)] at hrest
    obtain ⟨l₅, r₂, v, l₆, hunmap, hrest, -⟩ := bind_ok hrest fun l e t => unmapPages_ok
    split at hrest
    · cases hrest
    · next hok =>
      cases hrest
      exact .done h0 hmap hunmap hok
  · rw [if_pos hneg₁] at hrest
    obtain ⟨l₅, r₂, v, l₆, hset', hrest, -⟩ := bind_ok hrest fun l e t he => by
      obtain ⟨r, he, -⟩ := fsipcSetSize_some he
      cases he
    cases hrest
    obtain ⟨r₃, -, hask', -⟩ := fsipcSetSize_some hset'
    exact .undone hneg₁ hno fun p hp k => (ask_word (by nofun) hask' (by nofun) hp).trans (hword p hp k)

/-- What `ftruncate` can do. -/
theorem ftruncate_cases (h : ftruncate fdnum size c = some (l, q, c')) :
    ((returned q).slt 0 = true ∧ c' = c ∧ (¬MAXFILESIZE < size → ∀ p fileid old, ¬c.FileFd fdnum p fileid old)) ∨
      ∃ p fileid old d r e, ¬MAXFILESIZE < size ∧ c.FileFd fdnum p fileid old ∧ c.setWord 36 size p = some d ∧
        d.ask (.setSize fileid size) = some ((r, none), e) ∧ (r.slt 0 = true ∧ e.serv = d.serv ∨ r = 0) ∧
          TruncEnd fdnum fileid old size e r (returned q) c' := by
  have hinval : (-E_INVAL).slt 0 = true := by decide
  unfold ftruncate at h
  split at h
  · next hmax =>
    cases h
    exact .inl ⟨show (-E_NO_DISK).slt 0 = true by decide, rfl, fun hle => absurd hmax hle⟩
  next hmax =>
  rcases bind_some h with ⟨e, hlook, rfl⟩ | ⟨l₁, fd, u, l₂, hlook, hrest, -⟩
  · obtain ⟨rfl, -, ⟨he, hnone⟩ | ⟨p, he, -⟩⟩ := fdLookup_some hlook
    · cases he
      refine .inl ⟨hinval, rfl, fun _ p fileid old hfd => ?_⟩
      have hpage := hfd.page
      rw [hnone hfd.number] at hpage
      cases hpage
    · cases he
  obtain ⟨rfl, -, ⟨he, -⟩ | ⟨p, he, hnum, hp⟩⟩ := fdLookup_some hlook
  · cases he
  cases he
  obtain ⟨l₃, devId, v, l₄, hdev, hrest₁, -⟩ := bind_ok hrest fun l e t => fdWord_ok
  obtain ⟨⟨_, hdev', hval⟩, rfl, -⟩ := fdWord_mapped hp hdev
  cases hval
  split at hrest₁
  · next hne =>
    cases hrest₁
    refine .inl ⟨hinval, rfl, fun _ p' fileid old hfd => hne ?_⟩
    obtain rfl := Option.some.inj (hp.symm.trans hfd.page)
    exact Option.some.inj (hdev'.symm.trans hfd.devId)
  next hfile =>
  obtain rfl := not_not.1 hfile
  obtain ⟨l₅, fileid, v, l₆, hid, hrest₂, -⟩ := bind_ok hrest₁ fun l e t => fdWord_ok
  obtain ⟨⟨_, hid', hval⟩, rfl, -⟩ := fdWord_mapped hp hid
  cases hval
  obtain ⟨l₇, old, v, l₈, hold, hrest₃, -⟩ := bind_ok hrest₂ fun l e t => fdWord_ok
  obtain ⟨⟨_, hold', hval⟩, rfl, -⟩ := fdWord_mapped hp hold
  cases hval
  obtain ⟨l₉, ⟨⟩, d, l₁₀, hset, hrest₄, -⟩ := bind_ok hrest₃ fun l e t he => by
    obtain ⟨-, he, -⟩ := setFdWord_mapped hp he
    cases he
  obtain ⟨hset', -, -⟩ := setFdWord_mapped hp hset
  obtain ⟨r, e, hask, hserv, hend⟩ := resize_cases hrest₄
  exact .inr ⟨p, fileid, old, d, r, e, hmax, ⟨hnum, hp, hdev', hid', hold'⟩, hset', hask, hserv, hend⟩

theorem pagesBetween_self (size : Word) : pagesBetween size size = [] := by
  unfold pagesBetween
  rw [Nat.sub_self]
  rfl

/-- An error of `ftruncate` leaves everything as it was, if no request is refused. -/
private theorem ftruncate_restored (h : ftruncate fdnum size c = some (l, q, c')) (hg : c.TruncGranted fdnum size)
    (hneg : (returned q).slt 0 = true) : Restored fdnum c c' := by
  rcases ftruncate_cases h with ⟨-, rfl, -⟩ | ⟨p, fileid, old, d, r, e, hmax, hfd, hset, hask, hserv, hend⟩
  · exact .refl fdnum c'
  revert hneg
  generalize returned q = x at hend
  intro hneg
  by_cases hsame : size = old
  · subst hsame
    cases hend with
    | refused hneg' =>
      -- the size is set to what it was
      obtain ⟨-, hserv⟩ := hserv.resolve_right fun h0 => by
        rw [h0] at hneg'
        exact absurd hneg' (by decide)
      obtain rfl := ask_same (by nofun) hask (by nofun) hserv
      have hmap := setWord_map hset
      have hfs := setWord_same hset hfd.size
      refine ⟨?_, fun f => by rw [hfs], fun f pos => by rw [hfs], fun v => by rw [hmap]⟩
      unfold Client.fdSize
      rw [hmap, hfd.page, Option.bind_some, Option.bind_some, setWord_self hset, hfd.size]
    | undone _ hno _ =>
      rw [pagesBetween_self] at hno
      exact absurd trivial hno
    | done _ _ _ _ => exact absurd hneg (by decide)
  · obtain ⟨e', hask', hall⟩ := hg p fileid old d hmax hfd hsame hset
    rw [hask] at hask'
    cases hask'
    cases hend with
    | refused hneg' => exact absurd hneg' (by decide)
    | undone _ hno _ => exact absurd hall hno
    | done _ _ _ _ => exact absurd hneg (by decide)

/-- If a request is refused, the size in the descriptor is another one afterwards. -/
private theorem ftruncate_granted (hblock : ∀ b, c.map.page (VPN (INDEX2FD fdnum)) ≠ some (.sent (.block b)))
    (h : ftruncate fdnum size c = some (l, q, c')) (hr : (returned q).slt 0 = true → Restored fdnum c c') :
    c.TruncGranted fdnum size := by
  intro p fileid old d hmax hfd hne hset
  have hp : ∀ b, p ≠ .sent (.block b) := fun b heq => hblock b (heq ▸ hfd.page)
  rcases ftruncate_cases h with ⟨-, -, hno⟩ | ⟨p', fileid', old', d', r, e, -, hfd', hset', hask, hserv, hend⟩
  · exact absurd hfd (hno hmax p fileid old)
  obtain ⟨rfl, rfl, rfl⟩ := hfd.unique hfd'
  obtain rfl := Option.some.inj (hset.symm.trans hset')
  have hword : e.word 36 p' = some size := (ask_word (by nofun) hask (by nofun) hp).trans (setWord_self hset)
  generalize returned q = x at hend hr
  cases hend with
  | refused hneg => exact absurd (hr hneg) (not_restored hfd.page hfd.size hword hne)
  | undone hneg hno hkept =>
    exact absurd (hr hneg) (not_restored hfd.page hfd.size ((hkept p' hp 36).trans hword) hne)
  | done h0 hmap _ _ =>
    obtain ⟨⟨r', hr', ⟨-, hall⟩ | ⟨hneg, -⟩⟩, -⟩ := mapPages_granted hmap
    · exact ⟨e, h0 ▸ hask, hall⟩
    · cases hr'
      exact absurd hneg (by decide)

/-! ### `write` -/

/-- The part of `file_write` that makes the file longer, where `ftruncate` fails. -/
private theorem extend_failed {fd tot size : Word} {p : ClientPage} {q : Except Word Unit}
    (hp : c.map.page (VPN fd) = some p)
    (hsize : c.word 36 p = some size) (hlt : size < tot) (h : extend fd tot c = some (l, q, c')) :
    ∃ l₁ q₁ c₁, ftruncate (fd2num fd) tot c = some (l₁, q₁, c₁) ∧
      ((returned q₁).slt 0 = true → q = .error (returned q₁) ∧ c' = c₁) := by
  obtain ⟨l₁, x, u, l₂, hx, hrest, -⟩ := bind_ok h fun l e t => fdWord_ok
  obtain ⟨⟨_, hx', hval⟩, rfl, -⟩ := fdWord_mapped hp hx
  cases hval
  obtain rfl := Option.some.inj (hsize.symm.trans hx')
  rw [if_pos hlt] at hrest
  obtain ⟨l₃, q₁, c₁, l₄, hft, hend, -⟩ := attempt_bind_some hrest
  refine ⟨l₃, q₁, c₁, hft, fun hneg => ?_⟩
  cases q₁ with
  | ok r =>
    dsimp only at hend
    have hneg : r.slt 0 = true := hneg
    rw [if_pos hneg] at hend
    cases hend
    exact ⟨rfl, rfl⟩
  | error e =>
    cases hend
    exact ⟨rfl, rfl⟩

/-- A `write` that gets to `ftruncate`, and what it makes of an error. -/
private theorem write_extends {buf n tot : Word} (h : write fdnum buf n c = some (l, q, c')) (hx : c.Extends fdnum n tot) :
    ∃ l₁ q₁ c₁, ftruncate (fd2num (INDEX2FD fdnum)) tot c = some (l₁, q₁, c₁) ∧
      ((returned q₁).slt 0 = true → returned q = returned q₁ ∧ c' = c₁) := by
  obtain ⟨p, omode, offset, fileid, size, hfd, hmode, hwrite, hoff, rfl, hmax, hlt⟩ := hx
  obtain ⟨l₁, q₁, u, hwrite₁, hend⟩ := transfer_file hfd hmode hwrite hoff h
  unfold fileWrite at hwrite₁
  rw [if_neg hmax] at hwrite₁
  rcases bind_some hwrite₁ with ⟨e, hext, rfl⟩ | ⟨l₂, ⟨⟩, v, l₃, hext, -⟩
  · obtain ⟨l₄, q₂, c₁, hft, hfail⟩ := extend_failed hfd.page hfd.size hlt hext
    refine ⟨l₄, q₂, c₁, hft, fun hneg => ?_⟩
    obtain ⟨he, rfl⟩ := hfail hneg
    cases he
    obtain ⟨e, he, rfl, rfl⟩ | ⟨r, l₅, he, -⟩ := hend
    · cases he
      exact ⟨rfl, rfl⟩
    · cases he
  · obtain ⟨l₄, q₂, c₁, hft, hfail⟩ := extend_failed hfd.page hfd.size hlt hext
    refine ⟨l₄, q₂, c₁, hft, fun hneg => ?_⟩
    cases (hfail hneg).1

private theorem INDEX2FD_fd2num (fdnum : Word) : INDEX2FD (fd2num (INDEX2FD fdnum)) = INDEX2FD fdnum := by
  have hsub : INDEX2FD fdnum - FDTABLE = fdnum * BY2PG := by
    unfold INDEX2FD
    rw [BitVec.add_comm, BitVec.add_sub_cancel]
  have hpg : BY2PG.toNat = 4096 := by decide
  have hmul : fdnum * BY2PG / BY2PG * BY2PG = fdnum * BY2PG := by
    apply BitVec.eq_of_toNat_eq
    rw [BitVec.toNat_mul, BitVec.toNat_udiv, BitVec.toNat_mul, hpg]
    omega
  show FDTABLE + (INDEX2FD fdnum - FDTABLE) / BY2PG * BY2PG = FDTABLE + fdnum * BY2PG
  rw [hsub, hmul]

/-- A call that may change the size of a file. -/
inductive SizeCall where
  | ftruncate (size : Word)
  | write (buf n : Word)

namespace SizeCall

def run (fdnum : Word) : SizeCall → UserProc Word
  | .ftruncate size => UserFile.ftruncate fdnum size
  | .write buf n => UserFile.write fdnum buf n

/-- An error of `ftruncate` leaves everything as it was, and so does a `write` that fails because of it, with the same
error. -/
def Restores (fdnum : Word) (c : Client) (q : Except Word Word) (c' : Client) : SizeCall → Prop
  | .ftruncate _ => (returned q).slt 0 = true → Restored fdnum c c'
  | .write _ n => ∀ tot l₁ q₁ c₁, c.Extends fdnum n tot →
      UserFile.ftruncate (fd2num (INDEX2FD fdnum)) tot c = some (l₁, q₁, c₁) → (returned q₁).slt 0 = true →
        returned q = returned q₁ ∧ Restored fdnum c c'

/-- No request is refused once the size in the descriptor is another one. -/
def AllGranted (fdnum : Word) (c : Client) : SizeCall → Prop
  | .ftruncate size => c.TruncGranted fdnum size
  | .write _ n => ∀ tot, c.Extends fdnum n tot → c.TruncGranted (fd2num (INDEX2FD fdnum)) tot

end SizeCall

private theorem restored_fd2num {fdnum' : Word} (hsame : INDEX2FD fdnum' = INDEX2FD fdnum) (h : Restored fdnum' c c') :
    Restored fdnum c c' := by
  refine ⟨?_, h.size, h.byte, h.page⟩
  have hsize := h.fdSize
  unfold Client.fdSize at hsize ⊢
  rwa [hsame] at hsize

/-- The calls leave everything as it was after an error if no request is refused, and only then if the page of the
descriptor is not itself a block of a file. -/
theorem sizeCall_restores {x : SizeCall} (h : x.run fdnum c = some (l, q, c')) :
    (x.AllGranted fdnum c → x.Restores fdnum c q c') ∧
      ((∀ b, c.map.page (VPN (INDEX2FD fdnum)) ≠ some (.sent (.block b))) → x.Restores fdnum c q c' →
        x.AllGranted fdnum c) := by
  cases x with
  | ftruncate size => exact ⟨ftruncate_restored h, fun hblock => ftruncate_granted hblock h⟩
  | write buf n =>
    have hsame := INDEX2FD_fd2num fdnum
    constructor
    · intro hg tot l₁ q₁ c₁ hx hft hneg
      obtain ⟨l₂, q₂, c₂, hft', hfail⟩ := write_extends h hx
      rw [hft] at hft'
      cases hft'
      obtain ⟨hret, rfl⟩ := hfail hneg
      exact ⟨hret, restored_fd2num hsame (ftruncate_restored hft (hg tot hx) hneg)⟩
    · intro hblock hr tot hx
      obtain ⟨l₂, q₂, c₂, hft, hfail⟩ := write_extends h hx
      refine ftruncate_granted (by rwa [hsame]) hft fun hneg => ?_
      obtain ⟨-, hrest⟩ := hr tot l₂ q₂ c₂ hx hft hneg
      obtain ⟨-, rfl⟩ := hfail hneg
      exact restored_fd2num hsame.symm hrest

/-- A program that has opened `b`, which is empty, on a disk with one free block. -/
def clientOfB : Client :=
  ((openFile [98] O_RDWR (newClient FileSys.smallDisk)).map fun p => p.2.2).getD (newClient FileSys.smallDisk)

/-- A size above the largest one is refused, and nothing has changed. -/
theorem sizeCall_restores_tooBig : ∃ l q c', (SizeCall.ftruncate 0x400001).run 0 clientOfB = some (l, q, c') ∧
    (returned q).slt 0 = true ∧ Restored 0 clientOfB c' := by
  have hrun : ((SizeCall.ftruncate 0x400001).run 0 clientOfB).map (fun p => returned p.2.1 == -E_NO_DISK) = some true := by
    decide +kernel
  obtain ⟨l, q, c', hx, hr⟩ := run_of_found (fun r _ => r == -E_NO_DISK) hrun
  have hneg : (returned q).slt 0 = true := by
    rw [beq_iff_eq.1 hr]
    decide
  have hgranted : (SizeCall.ftruncate 0x400001).AllGranted 0 clientOfB :=
    fun _ _ _ _ hle => absurd (by decide : MAXFILESIZE < (0x400001 : Word)) hle
  exact ⟨l, q, c', hx, hneg, (sizeCall_restores hx).1 hgranted hneg⟩

/-- There is no second block: the error is returned, and the descriptor has the new size. -/
theorem exists_not_restored : ∃ (c : Client) (fdnum size : Word) (l : List Asked) (q : Except Word Word) (c' : Client),
    ftruncate fdnum size c = some (l, q, c') ∧ (returned q).slt 0 = true ∧ ¬Restored fdnum c c' := by
  have hrun : (ftruncate 0 8192 clientOfB).map (fun p => returned p.2.1 == -E_NO_DISK &&
      p.2.2.fdSize 0 == some 8192) = some true := by decide +kernel
  obtain ⟨l, q, c', hx, hfound⟩ := run_of_found (fun r c' => r == -E_NO_DISK && c'.fdSize 0 == some 8192) hrun
  obtain ⟨hr, hsize⟩ := Bool.and_eq_true_iff.1 hfound
  refine ⟨_, _, _, l, q, c', hx, by rw [beq_iff_eq.1 hr]; decide, fun h => ?_⟩
  have hold : clientOfB.fdSize 0 = some 0 := by decide +kernel
  have hnew := h.fdSize
  rw [beq_iff_eq.1 hsize, hold] at hnew
  cases hnew

end UserFile

end Mos
