import Mos.Fs.Isolation
import Mos.User.FileSpec

/-!
# Opening a file (`open` of `user/lib/file.c`)

A descriptor is free if it has no page.  `open` gets the page of the descriptor with its first request, and gives it back
in no case; it is as it should be if the requests for the blocks of the file are granted as well.
-/

namespace Mos

open FdSpace (fdVpn dataVpn INDEX2FD fd2num fd2data rounds)
open FileSys (smallDir smallDisk)

/-- In the window of `n` there are the blocks that the server sends for these requests, one after the other. -/
def Client.Brings (c' : Client) (n : Fin MAXFD) (fileid va : Word) : List Nat → Client → Prop
  | [], _ => True
  | i :: is, c => ∃ (hi : i < 1024) (b : Nat) (d : Client),
      c.ask (.map fileid (BitVec.ofNat 32 (i * 4096))) = some ((0, some (.block b)), d) ∧
        c'.map.page (dataVpn n ⟨i, hi⟩) = some (.sent (.block b)) ∧
          Brings c' n fileid va is (d.arrive (va + BitVec.ofNat 32 (i * 4096)) (.block b))

/-- `open` has returned a new descriptor: it was free, it has the page that the server has sent now, and the page `k` of its
window is the block that the server has sent for the offset `k * 4096`, up to the size of the file. -/
def Client.Opened (c : Client) (path : List Byte) (mode r : Word) (c' : Client) : Prop :=
  ∃ (n : Fin MAXFD) (i : Fin MAXOPEN) (d : Client) (size : Word), r = BitVec.ofNat 32 n ∧ c.map.page (fdVpn n) = none ∧
    c.ask (.open path mode) = some ((0, some (.desc i)), d) ∧ c'.map.page (fdVpn n) = some (.sent (.desc i)) ∧
      c'.word 36 (.sent (.desc i)) = some size ∧
        c'.Brings n ((d.serv.ff i).fFileid) (fd2data (INDEX2FD (BitVec.ofNat 32 n))) (List.range (rounds size))
          (d.arrive (INDEX2FD (BitVec.ofNat 32 n)) (.desc i))

/-- `open` returns a new descriptor, or an error and no page is another one. -/
def Client.OpenOk (c : Client) (path : List Byte) (mode r : Word) (c' : Client) : Prop :=
  c.Opened path mode r c' ∨ r.slt 0 = true ∧ ∀ v, c'.map.page v = c.map.page v

/-- The requests for these blocks are granted one after the other, and there is a table for each page. -/
def Client.Sends (fileid va : Word) : List Nat → Client → Prop
  | [], _ => True
  | i :: is, c => ∃ b d, c.ask (.map fileid (BitVec.ofNat 32 (i * 4096))) = some ((0, some (.block b)), d) ∧
      d.room (PDX (va + BitVec.ofNat 32 (i * 4096))) = true ∧
        Sends fileid va is (d.arrive (va + BitVec.ofNat 32 (i * 4096)) (.block b))

/-- If the file server gives out a descriptor, then also all blocks of the file. -/
def Client.SendsFile (c : Client) (path : List Byte) (mode : Word) : Prop :=
  ∀ fd i d, c.freeFd = some fd → path.length < MAXPATHLEN → c.ask (.open path mode) = some ((0, some (.desc i)), d) →
    Client.Sends ((d.serv.ff i).fFileid) (fd2data fd) (List.range (rounds ((d.serv.ff i).fFile 32)))
      (d.arrive fd (.desc i))

namespace UserFile

open Proc Client

variable {c c' d : Client} {l : List Asked} {q : Except Word Word} {w fileid : Word} {n : Fin MAXFD} {is : List Nat}
  {p : ClientPage}

/-- What mapping some pages of a file comes to. -/
structure MapsPages (n : Fin MAXFD) (fileid va : Word) (is : List Nat) (c : Client) (r : Word) (c' : Client) :
    Prop where
  result : r = 0 ∨ r.slt 0 = true
  desc : ∀ i k, c'.word k (.sent (.desc i)) = c.word k (.sent (.desc i))
  opentab : c'.serv.opentab = c.serv.opentab
  others : ∀ v, (∀ i ∈ is, ∀ hi : i < 1024, v ≠ dataVpn n ⟨i, hi⟩) → c'.map.page v = c.map.page v
  all : Client.Sends fileid va is c → r = 0 ∧ c'.Brings n fileid va is c
  missing : ¬Client.Sends fileid va is c → r = 0 →
    ∃ i ∈ is, ∃ hi : i < 1024, c'.map.page (dataVpn n ⟨i, hi⟩) = none

/-- All these pages are there. -/
private theorem page_of_brings {va : Word} (h : c'.Brings n fileid va is c) :
    ∀ i ∈ is, ∃ hi : i < 1024, (c'.map.page (dataVpn n ⟨i, hi⟩)).isSome := by
  induction is generalizing c with
  | nil => nofun
  | cons i is ih =>
    obtain ⟨hi, b, d, -, hb, hrest⟩ := h
    intro j hj
    rcases List.mem_cons.1 hj with rfl | hj
    · exact ⟨hi, by rw [hb]; rfl⟩
    · exact ih hrest j hj

/-- The address of a page of a window. -/
private theorem VPN_page (hw : w.toNat = n) {i : Nat} (hi : i < 1024) :
    VPN (fd2data (INDEX2FD w) + BitVec.ofNat 32 (i * 4096)) = dataVpn n ⟨i, hi⟩ := by
  have hn : n.val < 32 := n.isLt
  refine FdSpace.VPN_data ?_
  rw [BitVec.toNat_add, FdSpace.fd2data_toNat hw, BitVec.toNat_ofNat]
  show _ = ((384 + n) * 1024 + i) * 4096
  omega

private theorem ask_words {req : FsReq} {a : Word × Option ReplyPage} (hreq : ∀ path omode, req ≠ .open path omode)
    (h : c.ask req = some (a, d)) (ha : ∀ i, a.2 ≠ some (.desc i)) (i : Fin MAXOPEN) (k : Idx) :
    d.word k (.sent (.desc i)) = c.word k (.sent (.desc i)) := by
  obtain ⟨fs, rfl⟩ := ask_desc hreq h ha
  rfl

private theorem ask_opentab {req : FsReq} {a : Word × Option ReplyPage} (hreq : ∀ path omode, req ≠ .open path omode)
    (h : c.ask req = some (a, d)) (ha : ∀ i, a.2 ≠ some (.desc i)) : d.serv.opentab = c.serv.opentab := by
  obtain ⟨fs, rfl⟩ := ask_desc hreq h ha
  rfl

theorem arrive_opentab (c : Client) (va : Word) (q : ReplyPage) : (c.arrive va q).serv.opentab = c.serv.opentab := by
  by_cases h : c.room (PDX va) = true
  · obtain ⟨mem, ref, heq⟩ := arrive_eq h q
    rw [heq]
    rfl
  · rw [arrive_full h]

private theorem mapPages_spec (hw : w.toNat = n) (hnd : is.Nodup) (hlt : ∀ i ∈ is, i < 2 ^ 20)
    (h : mapPages fileid (fd2data (INDEX2FD w)) is c = some (l, q, c')) :
    ∃ r, q = .ok r ∧ MapsPages n fileid (fd2data (INDEX2FD w)) is c r c' := by
  -- By induction on the pages that are left; their addresses differ, and no page replaces an earlier one.
  induction is generalizing c l with
  | nil =>
    cases h
    exact ⟨0, rfl, .inl rfl, fun _ _ => rfl, rfl, fun _ _ => rfl, fun _ => ⟨rfl, trivial⟩, fun hno => absurd trivial hno⟩
  | cons i is ih =>
    obtain ⟨hni, hnd⟩ := List.nodup_cons.1 hnd
    have hi20 := hlt i List.mem_cons_self
    have hoff : (BitVec.ofNat 32 (i * 4096)).toNat / BY2BLK = i := by
      rw [BitVec.toNat_ofNat]
      show i * 4096 % 2 ^ 32 / 4096 = i
      omega
    obtain ⟨l₁, r₁, u, l₂, hmap, hrest, -⟩ := bind_ok h fun l e t he => by
      obtain ⟨a, d, -, ⟨-, -, he, -⟩ | ⟨b, -, -, he, -⟩⟩ := fsipcMap_some he
      · cases he
      · cases he
    obtain ⟨a, d, hask, ⟨hneg, hnone, hr, rfl⟩ | ⟨b, rfl, hin, hr, rfl⟩⟩ := fsipcMap_some hmap
    · -- the request is refused
      cases hr
      rw [if_pos hneg] at hrest
      cases hrest
      have ha (j : Fin MAXOPEN) : a.2 ≠ some (.desc j) := by
        rw [hnone]
        nofun
      refine ⟨a.1, rfl, .inr hneg, ask_words (by nofun) hask ha, ask_opentab (by nofun) hask ha,
        fun v _ => by rw [ask_map hask], fun hs => ?_, fun _ h0 => ?_⟩
      · obtain ⟨b, d', hask', -⟩ := hs
        rw [hask] at hask'
        cases hask'
        cases hnone
      · rw [h0] at hneg
        exact absurd hneg (by decide)
    · cases hr
      rw [if_neg (show ¬(0 : Word).slt 0 = true by decide)] at hrest
      rw [hoff] at hin
      have hvpn := VPN_page hw hin
      obtain ⟨r, rfl, hm⟩ := ih hnd (fun j hj => hlt j (List.mem_cons_of_mem _ hj)) hrest
      have hnot : ∀ j ∈ is, ∀ hj : j < 1024, dataVpn n ⟨i, hin⟩ ≠ dataVpn n ⟨j, hj⟩ := by
        intro j hj hj' heq
        have hij : i = j := congrArg (fun v : Vpn => v.2.val) heq
        exact hni (hij ▸ hj)
      refine ⟨r, rfl, hm.result, fun j k => ?_, ?_, fun v hv => ?_, fun hs => ?_, fun hno h0 => ?_⟩
      · rw [hm.desc, arrive_word, ask_words (by nofun) hask (by nofun)]
      · rw [hm.opentab, arrive_opentab, ask_opentab (by nofun) hask (by nofun)]
      · rw [hm.others v fun j hj => hv j (List.mem_cons_of_mem _ hj),
          arrive_page_of_ne (hvpn ▸ hv i List.mem_cons_self hin), ask_map hask]
      · obtain ⟨b', d', hask', hroom, hs⟩ := hs
        rw [hask] at hask'
        cases hask'
        obtain ⟨h0, hall⟩ := hm.all hs
        refine ⟨h0, hin, b, d, hask, ?_, hall⟩
        rw [hm.others _ hnot, ← hvpn]
        exact arrive_page hroom _
      · by_cases hroom : d.room (PDX (fd2data (INDEX2FD w) + BitVec.ofNat 32 (i * 4096))) = true
        · obtain ⟨j, hj, hfound⟩ := hm.missing (fun hs => hno ⟨b, d, hask, hroom, hs⟩) h0
          exact ⟨j, List.mem_cons_of_mem _ hj, hfound⟩
        · -- the page is lost, and what comes later goes elsewhere
          refine ⟨i, List.mem_cons_self, hin, ?_⟩
          rw [hm.others _ hnot, arrive_full hroom, ← hvpn]
          exact page_none_of_full hroom

/-- `fd_alloc` finds a number that has no page. -/
private theorem freeFd_some {fd : Word} (h : c.freeFd = some fd) :
    ∃ n : Fin MAXFD, fd = INDEX2FD (BitVec.ofNat 32 n) ∧ c.map.page (fdVpn n) = none := by
  obtain ⟨i, hi, rfl⟩ := List.mem_map.1 (List.mem_of_find?_eq_some h)
  have hlt : i < 31 := List.mem_range.1 hi
  have hn : (BitVec.ofNat 32 i).toNat = (⟨i, Nat.lt_succ_of_lt hlt⟩ : Fin MAXFD) := by
    rw [BitVec.toNat_ofNat]
    exact Nat.mod_eq_of_lt (by omega)
  refine ⟨⟨i, Nat.lt_succ_of_lt hlt⟩, rfl, ?_⟩
  rw [← FdSpace.VPN_fd hn]
  have hfree := List.find?_some (p := fun fd => (c.map.page (VPN fd)).isNone) h
  exact Option.isNone_iff_eq_none.1 hfree

private theorem rounds_lt (size : Word) {i : Nat} (hi : i ∈ List.range (rounds size)) : i < 2 ^ 20 := by
  have hsize := size.isLt
  have hlt : i < (size.toNat + 4095) / 4096 := List.mem_range.1 hi
  omega

/-- The mapping of the file, with the page of the descriptor there. -/
theorem openPages_spec {r size : Word} {i : Fin MAXOPEN} (hp : c.map.page (fdVpn n) = some (.sent (.desc i)))
    (hsize : c.word 36 (.sent (.desc i)) = some size)
    (hm : MapsPages n fileid (fd2data (INDEX2FD w)) (List.range (rounds size)) c r c') :
    c'.map.page (fdVpn n) = some (.sent (.desc i)) ∧ c'.word 36 (.sent (.desc i)) = some size ∧
      (c'.Brings n fileid (fd2data (INDEX2FD w)) (List.range (rounds size)) c ∧ r = 0 ↔
        Client.Sends fileid (fd2data (INDEX2FD w)) (List.range (rounds size)) c) := by
  have hfd : ∀ j (hj : j < 1024), fdVpn n ≠ dataVpn n ⟨j, hj⟩ := by
    intro j hj heq
    have h384 : 383 = 384 + n.val := congrArg (fun v : Vpn => v.1.val) heq
    omega
  refine ⟨(hm.others _ fun j _ hj => hfd j hj).trans hp, (hm.desc i 36).trans hsize, ?_, fun hs => (hm.all hs).symm⟩
  rintro ⟨hall, h0⟩
  by_contra hno
  obtain ⟨j, hj, hj', hnone⟩ := hm.missing hno h0
  obtain ⟨hk, hsome⟩ := page_of_brings hall j hj
  rw [hnone] at hsome
  cases hsome

/-- No page has changed, and an error is returned. -/
private theorem openOk_of_error {path : List Byte} {mode r : Word} (hneg : r.slt 0 = true) (hmap : c'.map = c.map) :
    c.OpenOk path mode r c' :=
  .inr ⟨hneg, fun _ => by rw [hmap]⟩

/-- A number of a descriptor is no error. -/
private theorem fdnum_not_neg (n : Fin MAXFD) : ¬(BitVec.ofNat 32 n.val).slt 0 = true := by
  have hall : ∀ k : Fin 32, ¬(BitVec.ofNat 32 k.val).slt 0 = true := by decide
  exact hall n

private theorem fdnum_inj {n n' : Fin MAXFD} (h : BitVec.ofNat 32 n.val = BitVec.ofNat 32 n'.val) : n = n' := by
  have hlt : n.val < 32 := n.isLt
  have hlt' : n'.val < 32 := n'.isLt
  have hval := congrArg BitVec.toNat h
  rw [BitVec.toNat_ofNat, BitVec.toNat_ofNat] at hval
  apply Fin.ext
  omega

theorem fd2num_eq (hw : w.toNat = n) : fd2num (INDEX2FD w) = BitVec.ofNat 32 n := by
  have hn : n.val < 32 := n.isLt
  have hbase : FDTABLE.toNat = 383 * 1024 * 4096 := by decide
  have hpg : BY2PG.toNat = 4096 := by decide
  apply BitVec.eq_of_toNat_eq
  unfold fd2num
  rw [BitVec.toNat_udiv, BitVec.toNat_sub, FdSpace.INDEX2FD_toNat hw, hbase, hpg, BitVec.toNat_ofNat]
  omega

/-- The rest of `open`, once the descriptor has its page. -/
private theorem openPages_cases {i : Fin MAXOPEN} {size : Word} (hw : w.toNat = n)
    (hp : c.map.page (fdVpn n) = some (.sent (.desc i))) (hsize : c.word 36 (.sent (.desc i)) = some size)
    (hid : c.word 3 (.sent (.desc i)) = some fileid) (h : openPages (INDEX2FD w) c = some (l, q, c')) :
    ∃ r, MapsPages n fileid (fd2data (INDEX2FD w)) (List.range (rounds size)) c r c' ∧
      returned q = if r = 0 then BitVec.ofNat 32 n else r := by
  have hp' : c.map.page (VPN (INDEX2FD w)) = some (.sent (.desc i)) := by rw [FdSpace.VPN_fd hw, hp]
  obtain ⟨l₁, x, u, l₂, hx, hrest, -⟩ := bind_ok h fun l e t => fdWord_ok
  obtain ⟨⟨_, hx', hval⟩, rfl, -⟩ := fdWord_mapped hp' hx
  cases hval
  obtain rfl := Option.some.inj (hsize.symm.trans hx')
  obtain ⟨l₃, y, v, l₄, hy, hrest, -⟩ := bind_ok hrest fun l e t => fdWord_ok
  obtain ⟨⟨_, hy', hval⟩, rfl, -⟩ := fdWord_mapped hp' hy
  cases hval
  obtain rfl := Option.some.inj (hid.symm.trans hy')
  obtain ⟨l₅, r, e, l₆, hmap, hrest, -⟩ := bind_ok hrest fun l e t he => by
    obtain ⟨r, hr, -⟩ := mapPages_spec hw List.nodup_range (fun _ => rounds_lt _) he
    cases hr
  obtain ⟨r', hr', hm⟩ := mapPages_spec hw List.nodup_range (fun _ => rounds_lt _) hmap
  cases hr'
  by_cases h0 : r = 0
  · rw [if_neg (not_not.2 h0)] at hrest
    cases hrest
    exact ⟨r, hm, by rw [if_pos h0]; exact fd2num_eq hw⟩
  · rw [if_pos h0] at hrest
    cases hrest
    exact ⟨r, hm, by rw [if_neg h0]; rfl⟩

private theorem fdAlloc_some {q : Except Word Word} (h : fdAlloc c = some (l, q, c')) :
    c' = c ∧ ((c.freeFd = none ∧ q = .error (-E_MAX_OPEN)) ∨ ∃ fd, c.freeFd = some fd ∧ q = .ok fd) := by
  obtain ⟨fd, hfd, hrest⟩ := read_bind_some h
  cases hfd
  cases hfree : c.freeFd with
  | none =>
    rw [hfree] at hrest
    cases hrest
    exact ⟨rfl, .inl ⟨rfl, rfl⟩⟩
  | some fd =>
    rw [hfree] at hrest
    cases hrest
    exact ⟨rfl, .inr ⟨fd, rfl, rfl⟩⟩

/-- The request for the descriptor is not made, it is refused, or the page comes. -/
private theorem fsipcOpen_some {path : List Byte} {mode fd : Word} (h : fsipcOpen path mode fd c = some (l, q, c')) :
    ∃ r, q = .ok r ∧ ((r.slt 0 = true ∧ c'.map = c.map ∧ (path.length < MAXPATHLEN → ∀ i d,
        c.ask (.open path mode) ≠ some ((0, some (.desc i)), d))) ∨
      ∃ i d, r = 0 ∧ path.length < MAXPATHLEN ∧ c.ask (.open path mode) = some ((0, some (.desc i)), d) ∧
        c' = d.arrive fd (.desc i)) := by
  unfold fsipcOpen at h
  split at h
  · next hlong =>
    cases h
    exact ⟨_, rfl, .inl ⟨show (-E_BAD_PATH).slt 0 = true by decide, rfl, fun hlt => absurd hlt (by omega)⟩⟩
  · next hlen =>
    obtain ⟨a, d, hask, rfl, rfl, -⟩ := fsipc_some h
    rcases ask_open hask with ⟨hneg, hnone⟩ | ⟨i, rfl, -⟩
    · refine ⟨a.1, rfl, .inl ⟨hneg, ?_, fun _ i d hask' => ?_⟩⟩
      · rw [hnone]
        exact ask_map hask
      · rw [hask] at hask'
        cases hask'
        cases hnone
    · exact ⟨0, rfl, .inr ⟨i, d, rfl, by omega, hask, rfl⟩⟩

/-- Where `open` ends. -/
inductive OpenEnd (c : Client) (path : List Byte) (mode : Word) : Word → Client → Prop
  /-- It gets no descriptor. -/
  | early {r : Word} {c' : Client} (hneg : r.slt 0 = true) (hmap : c'.map = c.map)
      (hno : ∀ fd, c.freeFd = some fd → path.length < MAXPATHLEN → ∀ i d,
        c.ask (.open path mode) ≠ some ((0, some (.desc i)), d)) : OpenEnd c path mode r c'
  /-- It gets one, and asks for the blocks of the file. -/
  | got {n : Fin MAXFD} {i : Fin MAXOPEN} {d c' : Client} {r : Word}
      (hfree : c.freeFd = some (INDEX2FD (BitVec.ofNat 32 n))) (hnone : c.map.page (fdVpn n) = none)
      (hlen : path.length < MAXPATHLEN) (hask : c.ask (.open path mode) = some ((0, some (.desc i)), d))
      (hp : (d.arrive (INDEX2FD (BitVec.ofNat 32 n)) (.desc i)).map.page (fdVpn n) = some (.sent (.desc i)))
      (hm : MapsPages n ((d.serv.ff i).fFileid) (fd2data (INDEX2FD (BitVec.ofNat 32 n)))
        (List.range (rounds ((d.serv.ff i).fFile 32))) (d.arrive (INDEX2FD (BitVec.ofNat 32 n)) (.desc i)) r c') :
    OpenEnd c path mode (if r = 0 then BitVec.ofNat 32 n else r) c'

theorem fdnum_toNat (n : Fin MAXFD) : (BitVec.ofNat 32 n.val).toNat = n := by
  have hlt : n.val < 32 := n.isLt
  rw [BitVec.toNat_ofNat]
  omega

theorem openFile_cases {path : List Byte} {mode : Word} (h : openFile path mode c = some (l, q, c')) :
    OpenEnd c path mode (returned q) c' := by
  rcases bind_some h with ⟨e, halloc, rfl⟩ | ⟨l₁, fd, u, l₂, halloc, hrest, -⟩
  · obtain ⟨rfl, ⟨hfree, hq⟩ | ⟨fd, -, hq⟩⟩ := fdAlloc_some halloc
    · cases hq
      refine .early (show (-E_MAX_OPEN).slt 0 = true by decide) rfl fun fd hfd => ?_
      rw [hfree] at hfd
      cases hfd
    · cases hq
  obtain ⟨rfl, ⟨-, hq⟩ | ⟨fd, hfree, hq⟩⟩ := fdAlloc_some halloc
  · cases hq
  cases hq
  obtain ⟨l₃, r, v, l₄, hopen, hrest, -⟩ := bind_ok hrest fun l e t he => by
    obtain ⟨r, he, -⟩ := fsipcOpen_some he
    cases he
  obtain ⟨r', hr, ⟨hneg, hmap, hno⟩ | ⟨i, d, rfl, hlen, hask, rfl⟩⟩ := fsipcOpen_some hopen
  · cases hr
    have h0 : r ≠ 0 := fun h0 => by
      rw [h0] at hneg
      exact absurd hneg (by decide)
    rw [if_pos h0] at hrest
    cases hrest
    exact .early hneg hmap fun fd _ hlen i d => hno hlen i d
  cases hr
  rw [if_neg (not_not.2 rfl)] at hrest
  obtain ⟨n, rfl, hnone⟩ := freeFd_some hfree
  by_cases hroom : d.room (PDX (INDEX2FD (BitVec.ofNat 32 n))) = true
  · have hp := arrive_page hroom (.desc i)
    rw [FdSpace.VPN_fd (fdnum_toNat n)] at hp
    obtain ⟨r, hm, hr⟩ := openPages_cases (fdnum_toNat n) hp (arrive_word ..) (arrive_word ..) hrest
    rw [hr]
    exact .got hfree hnone hlen hask hp hm
  · -- the page of the descriptor is lost, and there is none for the access to it either
    rw [arrive_full hroom] at hrest
    obtain ⟨l₅, size, u, l₆, hsize, -⟩ := bind_ok hrest fun l e t => fdWord_ok
    have hacc := (fdWord_some hsize).1
    rw [access_full hroom] at hacc
    cases hacc

/-- `open` does what it should exactly if the server, when it gives out the descriptor, also grants the requests for all
blocks of the file, and there is a table for their pages. -/
theorem openFile_ok_iff {path : List Byte} {mode : Word} (h : openFile path mode c = some (l, q, c')) :
    c.OpenOk path mode (returned q) c' ↔ c.SendsFile path mode := by
  have hend := openFile_cases h
  generalize returned q = x at hend
  cases hend with
  | early hneg hmap hno =>
    exact ⟨fun _ fd i d hfd hlen hask => absurd hask (hno fd hfd hlen i d), fun _ => openOk_of_error hneg hmap⟩
  | @got n i d c' r hfree hnone hlen hask hp hm =>
    have hsends : c.SendsFile path mode ↔ Client.Sends ((d.serv.ff i).fFileid) (fd2data (INDEX2FD (BitVec.ofNat 32 n)))
        (List.range (rounds ((d.serv.ff i).fFile 32))) (d.arrive (INDEX2FD (BitVec.ofNat 32 n)) (.desc i)) := by
      refine ⟨fun hs => hs _ i d hfree hlen hask, fun hs fd i' d' hfd _ hask' => ?_⟩
      rw [hfree] at hfd
      cases hfd
      rw [hask] at hask'
      cases hask'
      exact hs
    have hword : (d.arrive (INDEX2FD (BitVec.ofNat 32 n)) (.desc i)).word 36 (.sent (.desc i)) =
        some ((d.serv.ff i).fFile 32) := arrive_word ..
    obtain ⟨hfd, hsize, hiff⟩ := openPages_spec hp hword hm
    rw [hsends]
    by_cases h0 : r = 0
    · rw [if_pos h0, ← hiff]
      constructor
      · rintro (⟨n', i', d', size', hr, -, hask', -, hword, hall⟩ | ⟨hneg, -⟩)
        · obtain rfl := fdnum_inj hr
          rw [hask] at hask'
          cases hask'
          obtain rfl := Option.some.inj (hsize.symm.trans hword)
          exact ⟨hall, h0⟩
        · exact absurd hneg (fdnum_not_neg n)
      · rintro ⟨hall, -⟩
        exact .inl ⟨n, i, d, _, rfl, hnone, hask, hfd, hsize, hall⟩
    · rw [if_neg h0]
      refine ⟨fun hok => ?_, fun hs => absurd (hm.all hs).1 h0⟩
      rcases hok with ⟨n', i', d', size', hr, -⟩ | ⟨-, hsame⟩
      · exact absurd (hr ▸ hm.result.resolve_left h0) (fdnum_not_neg n')
      · rw [← hsame, hfd] at hnone
        cases hnone

/-! ### Two runs -/

/-- A program without any page, and a file server that starts with a disk. -/
def newClient (disk : View) : Client :=
  ⟨.init (.mount disk 10), none, ⟨fun _ => none, fun _ => false, 0, nofun, nofun⟩, fun _ _ => 0, fun _ _ => 0, []⟩

/-- The small disk, where `b` has two blocks to come and one is left. -/
def holedDisk : View := fun b => if b = 3 then fun i => if i.val = 96 then 8192 else smallDir i else smallDisk b

/-- What is found after a run. -/
theorem run_of_found {x : UserProc Word} (found : Word → Client → Bool)
    (h : (x c).map (fun p => found (returned p.2.1) p.2.2) = some true) :
    ∃ l q c', x c = some (l, q, c') ∧ found (returned q) c' = true := by
  obtain ⟨⟨l, q, c'⟩, hx, hfound⟩ := Option.map_eq_some_iff.1 h
  exact ⟨l, q, c', hx, hfound⟩

theorem openFile_ok_iff_a : ∃ l q c', openFile [97] O_RDONLY (newClient smallDisk) = some (l, q, c') ∧ returned q = 0 ∧
    ((newClient smallDisk).OpenOk [97] O_RDONLY (returned q) c' ↔ (newClient smallDisk).SendsFile [97] O_RDONLY) := by
  have hrun : (openFile [97] O_RDONLY (newClient smallDisk)).map (fun p => returned p.2.1 == 0) = some true := by
    decide +kernel
  obtain ⟨l, q, c', hx, hr⟩ := run_of_found (fun r _ => r == 0) hrun
  exact ⟨l, q, c', hx, beq_iff_eq.1 hr, openFile_ok_iff hx⟩

/-- The second block of `b` is refused: the error is returned, and the page of the descriptor stays. -/
theorem exists_half_open : ∃ (c : Client) (path : List Byte) (mode : Word) (l : List Asked) (q : Except Word Word)
    (c' : Client), openFile path mode c = some (l, q, c') ∧ ¬c.OpenOk path mode (returned q) c' := by
  have hrun : (openFile [98] O_RDONLY (newClient holedDisk)).map (fun p => returned p.2.1 == -E_NO_DISK &&
      (p.2.2.map.page (fdVpn 0)).isSome) = some true := by decide +kernel
  obtain ⟨l, q, c', hx, hfound⟩ := run_of_found (fun r c' => r == -E_NO_DISK && (c'.map.page (fdVpn 0)).isSome) hrun
  obtain ⟨hr, hsome⟩ := Bool.and_eq_true_iff.1 hfound
  have hneg : (returned q).slt 0 = true := by
    rw [beq_iff_eq.1 hr]
    decide
  refine ⟨_, _, _, l, q, c', hx, ?_⟩
  rintro (⟨n, i, d, size, hn, -⟩ | ⟨-, hsame⟩)
  · exact fdnum_not_neg n (hn ▸ hneg)
  · rw [hsame] at hsome
    cases hsome

end UserFile

end Mos
