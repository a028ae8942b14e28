import Mos.User.File

/-!
# What the requests of a program do

A request changes no page table, and the reply that comes with a page changes it in one place.
-/

namespace Mos

open FdSpace (INDEX2FD)

/-- The descriptor is one of a file; what is in its page. -/
structure Client.FileFd (c : Client) (fdnum : Word) (p : ClientPage) (fileid size : Word) : Prop where
  number : fdnum.slt 32 = true
  page : c.map.page (VPN (INDEX2FD fdnum)) = some p
  devId : c.word 0 p = some 102
  fileid : c.word 3 p = some fileid
  size : c.word 36 p = some size

private theorem Serv.addRef_eq (s : Serv) (p : Option ClientPage) : ∃ ref, s.addRef p = { s with ref := ref } := by
  unfold addRef
  split
  · exact ⟨_, rfl⟩
  · exact ⟨s.ref, rfl⟩

private theorem Serv.dropRef_eq (s : Serv) (p : Option ClientPage) : ∃ ref, s.dropRef p = { s with ref := ref } := by
  unfold dropRef
  split
  · exact ⟨_, rfl⟩
  · exact ⟨s.ref, rfl⟩

namespace UserMap

variable {m : UserMap} {v w : Vpn} {p : ReplyPage}

theorem insert_page (m : UserMap) (v : Vpn) (p : ReplyPage) : (m.insert v p).page v = some (.sent p) :=
  Function.update_self ..

theorem insert_page_of_ne (h : w ≠ v) : (m.insert v p).page w = m.page w := Function.update_of_ne h ..

end UserMap

namespace Client

variable {c d : Client} {req : FsReq} {a : Word × Option ReplyPage} {v : Vpn} {va : Word} {k : Idx} {p : ClientPage}
  {i : Idx}

theorem FileFd.unique {p' : ClientPage} {fdnum fileid fileid' old old' : Word} (h : c.FileFd fdnum p fileid old)
    (h' : c.FileFd fdnum p' fileid' old') : p' = p ∧ fileid' = fileid ∧ old' = old := by
  obtain rfl := Option.some.inj (h'.page.symm.trans h.page)
  exact ⟨rfl, Option.some.inj (h'.fileid.symm.trans h.fileid), Option.some.inj (h'.size.symm.trans h.size)⟩

/-! ### Memory -/

theorem mapAt_eq (c : Client) (v : Vpn) (m : UserMap) :
    ∃ ref, c.mapAt v m = { c with serv := { c.serv with ref := ref }, map := m } := by
  obtain ⟨ref, hd⟩ := c.serv.dropRef_eq (c.map.page v)
  obtain ⟨ref', ha⟩ := (c.serv.dropRef (c.map.page v)).addRef_eq (m.page v)
  refine ⟨ref', ?_⟩
  unfold mapAt
  rw [ha, hd]

theorem withTable_eq (c : Client) (i : Idx) : ∃ mem, c.withTable i = c.setMem mem := by
  unfold withTable
  split
  · exact ⟨c.serv.fs.mem, rfl⟩
  · exact ⟨_, rfl⟩

/-- A page that is mapped for a message. -/
theorem arrive_eq (h : c.room (PDX va) = true) (p : ReplyPage) : ∃ mem ref, c.arrive va p =
    { c.setMem mem with serv := { (c.setMem mem).serv with ref := ref }, map := c.map.insert (VPN va) p } := by
  obtain ⟨mem, hmem⟩ := c.withTable_eq (PDX va)
  obtain ⟨ref, href⟩ := (c.setMem mem).mapAt_eq (VPN va) (c.map.insert (VPN va) p)
  refine ⟨mem, ref, ?_⟩
  unfold arrive
  rw [if_pos h, hmem, href]

theorem arrive_full (h : ¬c.room (PDX va) = true) (p : ReplyPage) : c.arrive va p = c := if_neg h

private theorem word_congr (hfs : d.serv.fs.cache = c.serv.fs.cache) (hff : d.serv.ff = c.serv.ff) (hown : d.own = c.own)
    (hrest : d.rest = c.rest) : d.word k p = c.word k p := by
  unfold word Fs.word?
  rw [hfs, hff, hown, hrest]

theorem arrive_word (c : Client) (va : Word) (q : ReplyPage) : (c.arrive va q).word k p = c.word k p := by
  by_cases h : c.room (PDX va) = true
  · obtain ⟨mem, ref, heq⟩ := arrive_eq h q
    rw [heq]
    exact word_congr rfl rfl rfl rfl
  · rw [arrive_full h]

theorem arrive_page (h : c.room (PDX va) = true) (q : ReplyPage) :
    (c.arrive va q).map.page (VPN va) = some (.sent q) := by
  obtain ⟨mem, ref, heq⟩ := arrive_eq h q
  rw [heq]
  exact c.map.insert_page (VPN va) q

theorem arrive_page_of_ne (h : v ≠ VPN va) (q : ReplyPage) : (c.arrive va q).map.page v = c.map.page v := by
  by_cases hroom : c.room (PDX va) = true
  · obtain ⟨mem, ref, heq⟩ := arrive_eq hroom q
    rw [heq]
    exact UserMap.insert_page_of_ne h
  · rw [arrive_full hroom]

/-- There is no page where there is no table. -/
theorem page_none_of_full (h : ¬c.room v.1 = true) : c.map.page v = none := by
  by_contra hne
  refine h ?_
  unfold room
  rw [c.map.backed v (Option.ne_none_iff_isSome.1 hne), Bool.true_or]

theorem setWord_block {b : Nat} {w : Word} (h : c.setWord k w (.sent (.block b)) = some d) :
    ∃ fs, c.serv.fs.setWord? b k w = some fs ∧ d = c.setServ { c.serv with fs := fs } := by
  obtain ⟨fs, hfs, h⟩ := Option.map_eq_some_iff.1 h
  exact ⟨fs, hfs, h.symm⟩

theorem setWord_map {w : Word} (h : c.setWord k w p = some d) : d.map = c.map := by
  cases p with
  | own n =>
    cases h
    rfl
  | sent q =>
    cases q with
    | desc i =>
      cases h
      rfl
    | block b =>
      obtain ⟨fs, -, rfl⟩ := setWord_block h
      rfl

/-- The file system is only changed through a page of a block. -/
theorem setWord_fs {w : Word} (hp : ∀ b, p ≠ .sent (.block b)) (h : c.setWord k w p = some d) : d.serv.fs = c.serv.fs := by
  cases p with
  | own n =>
    cases h
    rfl
  | sent q =>
    cases q with
    | desc i =>
      cases h
      rfl
    | block b => exact absurd rfl (hp b)

/-- The words of the page of a descriptor. -/
private theorem filefd_setWord (f : Filefd) (rest : Block) (k k' : Idx) (w : Word) :
    (f.setWord k w).word (Function.update rest k w) k' = if k' = k then w else f.word rest k' := by
  unfold Filefd.setWord Filefd.word
  by_cases hk : k' = k
  · subst hk
    simp only [Function.update_self, if_true]
    split_ifs
    all_goals first | rfl | omega
  · have hne : k'.val ≠ k.val := fun h => hk (Fin.ext h)
    simp only [Function.update_of_ne hk, if_neg hk]
    split_ifs
    all_goals first | rfl | omega

theorem setWord_self {w : Word} (h : c.setWord k w p = some d) : d.word k p = some w := by
  cases p with
  | own n =>
    cases h
    simp [word]
  | sent q =>
    cases q with
    | desc i =>
      cases h
      simp [word, Serv.setFf, filefd_setWord]
    | block b =>
      obtain ⟨fs, hfs, rfl⟩ := setWord_block h
      obtain ⟨pg, hpg, hfs⟩ := Option.bind_eq_some_iff.1 hfs
      rw [dif_pos k.isLt] at hfs
      cases hfs
      simp [word, setServ, Fs.word?, Fs.setPage]

/-- A word is set to what it is. -/
theorem setWord_same {w : Word} (h : c.setWord k w p = some d) (hw : c.word k p = some w) : d.serv.fs = c.serv.fs := by
  by_cases hp : ∀ b, p ≠ .sent (.block b)
  · exact setWord_fs hp h
  · obtain ⟨b, rfl⟩ := not_forall_not.1 hp
    obtain ⟨fs, hfs, rfl⟩ := setWord_block h
    obtain ⟨pg, hpg, hfs⟩ := Option.bind_eq_some_iff.1 hfs
    obtain ⟨pg', hpg', hw⟩ := Option.bind_eq_some_iff.1 hw
    obtain rfl := Option.some.inj (hpg.symm.trans hpg')
    rw [dif_pos k.isLt] at hfs hw
    cases hfs
    cases hw
    show c.serv.fs.setPage b { pg with data := Function.update pg.data k (pg.data k) } = c.serv.fs
    rw [Function.update_eq_self]
    unfold Fs.setPage
    rw [← hpg, Function.update_eq_self]

/-- An access to an address that has a page. -/
private theorem access_mapped (hp : (c.map.page (VPN va)).isSome) (h : c.access va = some d) : d = c := by
  unfold access at h
  rw [if_pos hp] at h
  split at h
  · cases h
  · exact (Option.some.inj h).symm

/-- The first access to an address takes a page. -/
theorem access_full (hfull : ¬c.room (PDX va) = true) : c.access va = none := by
  have hmem : c.serv.fs.mem = 0 := by
    unfold room at hfull
    simp only [Bool.or_eq_true, bne_iff_ne, ne_eq, not_or, not_not] at hfull
    exact hfull.2
  have hnone := page_none_of_full (v := VPN va) hfull
  have hfault : c.pageFault va = none := if_pos (.inr (.inr hmem))
  unfold access
  rw [hnone, hfault]
  simp

/-! ### Requests -/

theorem ask_some (h : c.ask req = some (a, d)) :
    (d = c ∧ a.1.slt 0 = true ∧ a.2 = none) ∨ ∃ l r t, ServProc.serve c.junk req c.serv = some (l, r, t) ∧
      l.findSome? ServLog.answer = some a ∧ d = { c with
        serv := t
        rest := match a.2 with
          | some (.desc i) => Function.update c.rest i fun _ => 0
          | _ => c.rest } := by
  unfold ask at h
  split at h
  · next l r t hs =>
    obtain ⟨a', ha, h⟩ := Option.map_eq_some_iff.1 h
    cases h
    exact .inr ⟨l, r, t, hs, ha, rfl⟩
  · obtain ⟨r, hr, h⟩ := Option.map_eq_some_iff.1 h
    cases h
    refine .inl ⟨rfl, ?_, rfl⟩
    cases req with
    | «open» path omode =>
      obtain ⟨hneg, hr⟩ := Option.ite_none_right_eq_some.1 hr
      cases hr
      exact hneg
    | _ => cases hr

theorem ask_map (h : c.ask req = some (a, d)) : d.map = c.map := by
  rcases ask_some h with ⟨rfl, -⟩ | ⟨l, r, t, -, -, rfl⟩ <;> rfl

/-- The reply to a request for a block. -/
theorem ask_block {fileid offset : Word} (h : c.ask (.map fileid offset) = some (a, d)) :
    (a.1.slt 0 = true ∧ a.2 = none) ∨ ∃ b, a = (0, some (.block b)) ∧ offset.toNat / BY2BLK < NINDIRECT := by
  rcases ask_some h with ⟨-, hneg⟩ | ⟨l, r, t, hs, ha, -⟩
  · exact .inl hneg
  · exact ServProc.serveMap_reply hs ha

/-- The reply to a request for a descriptor. -/
theorem ask_open {path : List Byte} {omode : Word} (h : c.ask (.open path omode) = some (a, d)) :
    (a.1.slt 0 = true ∧ a.2 = none) ∨ ∃ i, a = (0, some (.desc i)) ∧ (d.serv.ff i).fdDevId = 102 ∧
      (d.serv.ff i).fdOmode = omode ∧ ∃ f, (d.serv.opentab i).oFile = some f := by
  rcases ask_some h with ⟨-, hneg⟩ | ⟨l, r, t, hs, ha, rfl⟩
  · exact .inl hneg
  · rcases ServProc.serveOpen_reply hs ha with hneg | ⟨i, hi, -, hdesc⟩
    · exact .inl hneg
    · exact .inr ⟨i, hi, hdesc⟩

/-- A request about an open file leaves the descriptors alone. -/
theorem ask_desc (hreq : ∀ path omode, req ≠ .open path omode) (h : c.ask req = some (a, d))
    (ha : ∀ i, a.2 ≠ some (.desc i)) : ∃ fs, d = { c with serv := { c.serv with fs := fs } } := by
  rcases ask_some h with ⟨rfl, -⟩ | ⟨l, r, t, hs, -, rfl⟩
  · exact ⟨d.serv.fs, rfl⟩
  · obtain ⟨fs, rfl⟩ := ServProc.serve_fs hreq hs
    refine ⟨fs, ?_⟩
    split
    · next i hi => exact absurd hi (ha i)
    · rfl

/-- A request about an open file that leaves the server alone. -/
theorem ask_same (hreq : ∀ path omode, req ≠ .open path omode) (h : c.ask req = some (a, d))
    (ha : ∀ i, a.2 ≠ some (.desc i)) (hserv : d.serv = c.serv) : d = c := by
  obtain ⟨fs, rfl⟩ := ask_desc hreq h ha
  have hfs : ({ c.serv with fs := fs } : Serv) = c.serv := hserv
  rw [hfs]

/-- The words of a page that is no block of a file. -/
theorem ask_word (hreq : ∀ path omode, req ≠ .open path omode) (h : c.ask req = some (a, d))
    (ha : ∀ i, a.2 ≠ some (.desc i)) (hp : ∀ b, p ≠ .sent (.block b)) : d.word k p = c.word k p := by
  obtain ⟨fs, rfl⟩ := ask_desc hreq h ha
  cases p with
  | own n => rfl
  | sent q =>
    cases q with
    | desc i => rfl
    | block b => exact absurd rfl (hp b)

/-- A request for another size is granted, or the file is not open and nothing happens. -/
private theorem ask_setSize {fileid size : Word} (h : c.ask (.setSize fileid size) = some (a, d)) :
    a.2 = none ∧ (a.1.slt 0 = true ∧ d.serv = c.serv ∨ a.1 = 0) := by
  rcases ask_some h with ⟨rfl, hneg, hnone⟩ | ⟨l, r, t, hs, ha, rfl⟩
  · exact ⟨hnone, .inl ⟨hneg, rfl⟩⟩
  · rcases ServProc.withOpen_some hs with ⟨-, rfl, rfl⟩ | ⟨i, f, -, -, hreply⟩
    · cases ha
      exact ⟨rfl, .inl ⟨show (-E_INVAL).slt 0 = true by decide, rfl⟩⟩
    · obtain ⟨l₀, q, u, hq, rfl, rfl⟩ := ServProc.replyTo_some hreply
      rw [ServProc.answer_fs] at ha
      cases q with
      | error e => exact (FsProc.fileSetSize_fails (E := fun _ => False) f size _ _ _ _ hq).elim
      | ok v =>
        cases ha
        exact ⟨rfl, .inr rfl⟩

end Client

namespace UserFile

open FdSpace (INDEX2FD fd2num fd2data rounds)
open Proc Client

variable {c c' d : Client} {l : List Asked} {q : Except Word Word} {req : FsReq} {va : Word}

/-- A word of the page of a descriptor. -/
theorem fdWord_some {fd : Word} {k : Idx} (h : fdWord fd k c = some (l, q, c')) :
    c.access fd = some c' ∧ ∃ p w, c'.map.page (VPN fd) = some p ∧ c'.word k p = some w ∧ q = .ok w ∧ l = [] := by
  obtain ⟨u, hu, hread⟩ := update_bind_some h
  obtain ⟨w, hw, h⟩ := Option.map_eq_some_iff.1 hread
  cases h
  obtain ⟨p, hp, hw⟩ := Option.bind_eq_some_iff.1 hw
  exact ⟨hu, p, w, hp, hw, rfl, rfl⟩

theorem fdWord_ok {fd e : Word} {k : Idx} : fdWord fd k c ≠ some (l, .error e, c') := by
  intro h
  obtain ⟨-, p, w, -, -, he, -⟩ := fdWord_some h
  cases he

theorem fdWord_mapped {fd : Word} {k : Idx} {p : ClientPage} (hp : c.map.page (VPN fd) = some p)
    (h : fdWord fd k c = some (l, q, c')) : (∃ w, c.word k p = some w ∧ q = .ok w) ∧ c' = c ∧ l = [] := by
  obtain ⟨ha, p', w, hp', hw, hq, hl⟩ := fdWord_some h
  obtain rfl := Client.access_mapped (hp ▸ rfl) ha
  obtain rfl := Option.some.inj (hp.symm.trans hp')
  exact ⟨⟨w, hw, hq⟩, rfl, hl⟩

theorem setFdWord_mapped {fd w : Word} {k : Idx} {p : ClientPage} {q : Except Word Unit}
    (hp : c.map.page (VPN fd) = some p) (h : setFdWord fd k w c = some (l, q, c')) :
    c.setWord k w p = some c' ∧ q = .ok () ∧ l = [] := by
  obtain ⟨u, hu, hset⟩ := update_bind_some h
  obtain rfl := Client.access_mapped (hp ▸ rfl) hu
  obtain ⟨v, hv, h⟩ := Option.map_eq_some_iff.1 hset
  cases h
  obtain ⟨p', hp', hv⟩ := Option.bind_eq_some_iff.1 hv
  obtain rfl := Option.some.inj (hp.symm.trans hp')
  exact ⟨hv, rfl, rfl⟩

theorem fdLookup_some {fdnum : Word} (h : fdLookup fdnum c = some (l, q, c')) :
    c' = c ∧ l = [] ∧ ((q = .error (-E_INVAL) ∧ (fdnum.slt 32 = true → c.map.page (VPN (INDEX2FD fdnum)) = none)) ∨
      ∃ p, q = .ok (INDEX2FD fdnum) ∧ fdnum.slt 32 = true ∧ c.map.page (VPN (INDEX2FD fdnum)) = some p) := by
  unfold fdLookup at h
  split at h
  · next hbig =>
    cases h
    exact ⟨rfl, rfl, .inl ⟨rfl, fun hlt => absurd hlt hbig⟩⟩
  · next hlt =>
    obtain ⟨p, hp, hrest⟩ := read_bind_some h
    cases hp
    cases hpage : c.map.page (VPN (INDEX2FD fdnum)) with
    | none =>
      rw [hpage] at hrest
      cases hrest
      exact ⟨rfl, rfl, .inl ⟨rfl, fun _ => rfl⟩⟩
    | some p =>
      rw [hpage] at hrest
      cases hrest
      exact ⟨rfl, rfl, .inr ⟨p, rfl, not_not.1 hlt, rfl⟩⟩

theorem fsipc_some (h : fsipc req va c = some (l, q, c')) :
    ∃ a d, c.ask req = some (a, d) ∧ q = .ok a.1 ∧ c' = a.2.elim d (d.arrive va) ∧ l = [⟨c.serv, req, a.1⟩] := by
  unfold fsipc at h
  split at h
  · cases h
  · obtain ⟨⟨a, d⟩, ha, h⟩ := Option.map_eq_some_iff.1 h
    cases h
    exact ⟨a, d, ha, rfl, rfl, rfl⟩

theorem fsipcSetSize_some {fileid size : Word} (h : fsipcSetSize fileid size c = some (l, q, c')) :
    ∃ r, q = .ok r ∧ c.ask (.setSize fileid size) = some ((r, none), c') ∧ (r.slt 0 = true ∧ c'.serv = c.serv ∨ r = 0) := by
  obtain ⟨⟨r, page⟩, d, hask, rfl, rfl, -⟩ := fsipc_some h
  obtain ⟨rfl, hr⟩ := Client.ask_setSize hask
  exact ⟨r, rfl, hask, hr⟩

theorem fsipcMap_some {fileid offset : Word} (h : fsipcMap fileid offset va c = some (l, q, c')) :
    ∃ a d, c.ask (.map fileid offset) = some (a, d) ∧ ((a.1.slt 0 = true ∧ a.2 = none ∧ q = .ok a.1 ∧ c' = d) ∨
      ∃ b, a = (0, some (.block b)) ∧ offset.toNat / BY2BLK < NINDIRECT ∧ q = .ok 0 ∧ c' = d.arrive va (.block b)) := by
  obtain ⟨l₁, r, u, l₂, hask, hrest, -⟩ := bind_ok h fun l e t he => by
    obtain ⟨a, d, -, he, -⟩ := fsipc_some he
    cases he
  obtain ⟨a, d, ha, hr, rfl, -⟩ := fsipc_some hask
  cases hr
  refine ⟨a, d, ha, ?_⟩
  rcases Client.ask_block ha with ⟨hneg, hnone⟩ | ⟨b, rfl, hlt⟩
  · rw [if_pos hneg] at hrest
    cases hrest
    exact .inl ⟨hneg, hnone, rfl, by rw [hnone]; rfl⟩
  · rw [if_neg (show ¬(0 : Word).slt 0 = true by decide)] at hrest
    cases hrest
    exact .inr ⟨b, rfl, hlt, rfl, rfl⟩

/-- These requests for blocks are granted one after the other. -/
def Granted (fileid va : Word) : List Nat → Client → Prop
  | [], _ => True
  | i :: is, c => ∃ b d, c.ask (.map fileid (BitVec.ofNat 32 (i * 4096))) = some ((0, some (.block b)), d) ∧
      Granted fileid va is (d.arrive (va + BitVec.ofNat 32 (i * 4096)) (.block b))

/-- The loop ends with an error if a request is refused. -/
theorem mapPages_granted {fileid : Word} {is : List Nat} (h : mapPages fileid va is c = some (l, q, c')) :
    (∃ r, q = .ok r ∧ (r = 0 ∧ Granted fileid va is c ∨ r.slt 0 = true ∧ ¬Granted fileid va is c)) ∧
      ∀ p, (∀ b, p ≠ .sent (.block b)) → ∀ k, c'.word k p = c.word k p := by
  induction is generalizing c l with
  | nil =>
    cases h
    exact ⟨⟨0, rfl, .inl ⟨rfl, trivial⟩⟩, fun _ _ _ => rfl⟩
  | cons i is ih =>
    obtain ⟨l₁, r₁, u, l₂, hmap, hrest, -⟩ := bind_ok h fun l e t he => by
      obtain ⟨a, d, -, ⟨-, -, he, -⟩ | ⟨b, -, -, he, -⟩⟩ := fsipcMap_some he
      · cases he
      · cases he
    obtain ⟨a, d, hask, ⟨hneg, hnone, hr, rfl⟩ | ⟨b, rfl, -, hr, rfl⟩⟩ := fsipcMap_some hmap
    · cases hr
      rw [if_pos hneg] at hrest
      cases hrest
      refine ⟨⟨a.1, rfl, .inr ⟨hneg, ?_⟩⟩, fun p hp k => ask_word (by nofun) hask (fun j => by rw [hnone]; nofun) hp⟩
      rintro ⟨b, d, hask', -⟩
      rw [hask] at hask'
      cases hask'
      cases hnone
    · cases hr
      rw [if_neg (show ¬(0 : Word).slt 0 = true by decide)] at hrest
      obtain ⟨⟨r, rfl, hr⟩, hword⟩ := ih hrest
      have hiff : Granted fileid va (i :: is) c ↔
          Granted fileid va is (d.arrive (va + BitVec.ofNat 32 (i * 4096)) (.block b)) := by
        constructor
        · rintro ⟨b', d', hask', hg⟩
          rw [hask] at hask'
          cases hask'
          exact hg
        · exact fun hg => ⟨b, d, hask, hg⟩
      refine ⟨⟨r, rfl, by rwa [hiff]⟩, fun p hp k => ?_⟩
      rw [hword p hp, arrive_word, ask_word (by nofun) hask (by nofun) hp]

/-- `read` and `write` with a descriptor of a file. -/
theorem transfer_file {fdnum mode omode offset fileid size : Word} {p : ClientPage} {x : Word → Word → UserProc Word}
    (hfd : c.FileFd fdnum p fileid size) (hmode : c.word 2 p = some omode) (hne : omode &&& O_ACCMODE ≠ mode)
    (hoff : c.word 1 p = some offset) (h : transfer mode x fdnum c = some (l, q, c')) :
    ∃ l₁ q₁ u, x (INDEX2FD fdnum) offset c = some (l₁, q₁, u) ∧ ((∃ e, q₁ = .error e ∧ q = .error e ∧ c' = u) ∨
      ∃ r l₂, q₁ = .ok r ∧ advance (INDEX2FD fdnum) r u = some (l₂, q, c')) := by
  have hp := hfd.page
  obtain ⟨l₁, fd, u, l₂, hlook, hrest₁, -⟩ := bind_ok h fun l e t he => by
    obtain ⟨-, -, ⟨-, hnone⟩ | ⟨p, he, -⟩⟩ := fdLookup_some he
    · rw [hnone hfd.number] at hp
      cases hp
    · cases he
  obtain ⟨rfl, -, ⟨he, -⟩ | ⟨p', he, -⟩⟩ := fdLookup_some hlook
  · cases he
  cases he
  obtain ⟨l₃, devId, v, l₄, hdev, hrest₂, -⟩ := bind_ok hrest₁ fun l e t => fdWord_ok
  obtain ⟨⟨_, hdev', hval⟩, rfl, -⟩ := fdWord_mapped hp hdev
  cases hval
  obtain rfl := Option.some.inj (hfd.devId.symm.trans hdev')
  have hlookup : devLookup 102 = (pure () : UserProc Unit) := if_pos (.inl rfl)
  rw [hlookup] at hrest₂
  obtain ⟨l₅, ⟨⟩, v, l₆, hpure, hrest₃, -⟩ := bind_ok hrest₂ nofun
  cases hpure
  obtain ⟨l₇, omode', v, l₈, hom, hrest₄, -⟩ := bind_ok hrest₃ fun l e t => fdWord_ok
  obtain ⟨⟨_, hom', hval⟩, rfl, -⟩ := fdWord_mapped hp hom
  cases hval
  obtain rfl := Option.some.inj (hmode.symm.trans hom')
  rw [if_neg hne] at hrest₄
  obtain ⟨l₉, offset', v, l₁₀, ho, hrest₅, -⟩ := bind_ok hrest₄ fun l e t => fdWord_ok
  obtain ⟨⟨_, ho', hval⟩, rfl, -⟩ := fdWord_mapped hp ho
  cases hval
  obtain rfl := Option.some.inj (hoff.symm.trans ho')
  have hfile {y : UserProc Word} : devFile 102 y = y := if_pos rfl
  rw [hfile] at hrest₅
  rcases bind_some hrest₅ with ⟨e, hx, rfl⟩ | ⟨l₁₁, r, w, l₁₂, hx, hadv, -⟩
  · exact ⟨_, _, _, hx, .inl ⟨e, rfl, rfl, rfl⟩⟩
  · exact ⟨_, _, _, hx, .inr ⟨r, l₁₂, rfl, hadv⟩⟩

end UserFile

end Mos
