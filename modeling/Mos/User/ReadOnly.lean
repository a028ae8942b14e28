import Mos.User.FileTrunc

/-!
# A file that is open for reading

`write` looks at the mode of the descriptor; `ftruncate` and the request that it makes do not.
-/

namespace Mos

open FdSpace (INDEX2FD fd2num fd2data)

/-! ### The file server -/

/-- A word is set to what it is. -/
private theorem View.set_same {v : View} {b off : Nat} {w : Word} (hw : off < 1024 → v.get b off = w) : v.set b off w =
    v := by
  unfold View.set
  convert Function.update_eq_self b v
  next i =>
  split
  · next hi =>
    have hoff := i.isLt
    have hget := hw (by omega)
    unfold View.get at hget
    rw [dif_pos (by omega)] at hget
    rw [← hget]
    congr 1
    exact Fin.ext hi.symm
  · rfl

/-- The block holds the size of the file, its pointers or its bytes. -/
def View.Uses (v : View) (f : FilePtr) (b : Nat) : Prop := b = f.blk ∨ ∃ k, b = v.ptr f k

section Uses

variable {v v' : View} {f : FilePtr} (h : ∀ b, v.Uses f b → v' b = v b)

include h

private theorem View.get_uses {b : Nat} (hb : v.Uses f b) (off : Nat) : v'.get b off = v.get b off := by
  unfold View.get
  rw [h b hb]

private theorem View.ptr_uses (k : FileSlot) : v'.ptr f k = v.ptr f k :=
  View.ptr_congr (View.get_uses h (.inl rfl) _) (fun _ _ => View.get_uses h (.inl rfl) _) (fun _ _ _ =>
    View.get_uses h (.inr ⟨.indirect, rfl⟩) _) k

private theorem View.uses_iff (b : Nat) : v'.Uses f b ↔ v.Uses f b := by
  unfold View.Uses
  simp only [View.ptr_uses h]

private theorem View.size_uses : v'.size f = v.size f := congrArg BitVec.toNat (View.get_uses h (.inl rfl) _)

private theorem View.byteAt_uses (pos : Nat) : v'.byteAt f pos = v.byteAt f pos :=
  byteAt_congr (View.ptr_uses h _) fun _ => View.get_uses h (.inr ⟨_, rfl⟩) _

end Uses

namespace FsProc

open Proc

variable {ok : FsLog → Prop} {E : Fs → Prop} {v : View} {f : FilePtr}

/-- What is in the blocks. -/
private theorem steady_view (v : View) : Steady fun s => s.view = v := fun _ _ h hview _ => hview.trans h

/-- `file_set_size` with the size that the file has. -/
private theorem fileSetSize_same {newsize : Word} (hsize : v.get f.blk (f.off + 32) = newsize) :
    Proc.Spec ok (fun s => s.view = v) (fileSetSize f newsize) (Ends (fun _ s => s.view = v) E) := by
  have hset : Proc.Spec ok (fun s => s.view = v) (setFSize f newsize) (Ends (fun _ s => s.view = v) E) := by
    intro s l r t hs h _
    obtain ⟨rfl, hview, -⟩ := setIn_view (p := (f.blk, f.off + 32)) h
    show t.view = v
    rw [hview, hs]
    exact View.set_same fun _ => hsize
  refine .bind (word_spec _ _) fun size => .bind ?_ fun _ => .bind hset fun _ => flushDir_look (steady_view v) f
  intro s l r t ⟨hview, hget⟩ h _
  have heq : size = newsize := by
    rw [hview] at hget
    exact hget.symm.trans hsize
  unfold when at h
  rw [if_neg (by rw [heq]; exact BitVec.lt_irrefl _)] at h
  cases h
  exact hview

end FsProc

namespace Client

variable {c d c' : Client} {a : Word × Option ReplyPage} {fileid offset : Word}

/-- The request of a handler that sends no page and does not change the view. -/
private theorem ask_view {α : Type} {req : FsReq} {x : FilePtr → FsProc α}
    (hreq : ServProc.serve c.junk req = ServProc.withOpen fileid x fun _ => none) (h : c.ask req = some (a, d))
    (hx : ∀ f, c.serv.fileOf fileid = some f → Proc.Spec (fun _ => True) (fun s => s.view = c.serv.fs.view) (x f)
      (Proc.Ends (fun _ s => s.view = c.serv.fs.view) fun s => s.view = c.serv.fs.view)) :
    a.2 = none ∧ d.serv.fs.view = c.serv.fs.view := by
  rcases ask_some h with ⟨rfl, -, hnone⟩ | ⟨l, r, t, hs, ha, rfl⟩
  · exact ⟨hnone, rfl⟩
  rw [hreq] at hs
  rcases ServProc.withOpen_some hs with ⟨-, rfl, rfl⟩ | ⟨i, f, hi, hf, hreply⟩
  · cases ha
    exact ⟨rfl, rfl⟩
  · obtain ⟨l₀, q, u, hq, rfl, rfl⟩ := ServProc.replyTo_some hreply
    have hfile : c.serv.fileOf fileid = some f := by
      unfold Serv.fileOf
      rw [hi]
      exact hf
    have hend := hx f hfile _ _ _ _ rfl hq fun _ _ => trivial
    rw [ServProc.answer_fs] at ha
    cases q with
    | ok _ =>
      cases ha
      exact ⟨rfl, hend⟩
    | error _ =>
      cases ha
      exact ⟨rfl, hend⟩

private theorem ask_dirty (h : c.ask (.dirty fileid offset) = some (a, d)) : a.2 = none ∧ d.serv.fs.view = c.serv.fs.view :=
  ask_view rfl h fun f _ => FsProc.fileDirty_look (FsProc.steady_view c.serv.fs.view) f offset

private theorem ask_close (h : c.ask (.close fileid) = some (a, d)) : a.2 = none ∧ d.serv.fs.view = c.serv.fs.view := by
  have hst := FsProc.steady_view c.serv.fs.view
  exact ask_view rfl h fun f _ => .bind (FsProc.fileFlush_look hst f) fun _ => FsProc.flushDir_look hst f

/-- The size that the file has already. -/
private theorem ask_setSize_same {size : Word} (h : c.ask (.setSize fileid size) = some (a, d))
    (hsize : ∀ f, c.serv.fileOf fileid = some f → c.serv.fs.view.get f.blk (f.off + 32) = size) :
    d.serv.fs.view = c.serv.fs.view :=
  (ask_view rfl h fun f hf => FsProc.fileSetSize_same (hsize f hf)).2

end Client

/-! ### Steps that leave the file alone -/

/-- The blocks of the file stay as they are, the descriptor of a slot keeps its device and its mode, and the server keeps
its table. -/
structure Quiet (f : FilePtr) (i : Fin MAXOPEN) (c c' : Client) : Prop where
  block : ∀ b, c.serv.fs.view.Uses f b → c'.serv.fs.view b = c.serv.fs.view b
  devId : (c'.serv.ff i).fdDevId = (c.serv.ff i).fdDevId
  omode : (c'.serv.ff i).fdOmode = (c.serv.ff i).fdOmode
  opentab : c'.serv.opentab = c.serv.opentab

namespace Quiet

open Client (setWord_block)

variable {f : FilePtr} {i : Fin MAXOPEN} {c d c' : Client} {va : Word}

private theorem refl (f : FilePtr) (i : Fin MAXOPEN) (c : Client) : Quiet f i c c := ⟨fun _ _ => rfl, rfl, rfl, rfl⟩

private theorem trans (h : Quiet f i c d) (h' : Quiet f i d c') : Quiet f i c c' where
  block b hb := (h'.block b ((View.uses_iff h.block b).2 hb)).trans (h.block b hb)
  devId := h'.devId.trans h.devId
  omode := h'.omode.trans h.omode
  opentab := h'.opentab.trans h.opentab

private theorem composes (f : FilePtr) (i : Fin MAXOPEN) : Proc.Composes fun c (_ : List Asked) c' => Quiet f i c c' :=
  ⟨refl f i, fun h h' => h.trans h'⟩

private theorem of_serv (hview : d.serv.fs.view = c.serv.fs.view) (hff : d.serv.ff = c.serv.ff)
    (htab : d.serv.opentab = c.serv.opentab) : Quiet f i c d :=
  ⟨fun b _ => congrFun hview b, by rw [hff], by rw [hff], htab⟩

private theorem mapAt (c : Client) (v : Vpn) (m : UserMap) : Quiet f i c (c.mapAt v m) := by
  obtain ⟨ref, h⟩ := c.mapAt_eq v m
  rw [h]
  exact of_serv rfl rfl rfl

private theorem withTable (c : Client) (j : Idx) : Quiet f i c (c.withTable j) := by
  obtain ⟨mem, h⟩ := c.withTable_eq j
  rw [h]
  exact of_serv rfl rfl rfl

theorem arrive (c : Client) (va : Word) (p : ReplyPage) : Quiet f i c (c.arrive va p) := by
  unfold Client.arrive
  split
  · exact (withTable c _).trans (mapAt ..)
  · exact refl f i c

private theorem pageFault (h : c.pageFault va = some d) : Quiet f i c d := by
  unfold Client.pageFault at h
  split at h
  · cases h
  · obtain ⟨-, h⟩ := Option.ite_none_right_eq_some.1 h
    cases h
    have hmem : Quiet f i c (c.setMem (c.serv.fs.mem - 1)) := of_serv rfl rfl rfl
    exact (hmem.trans (withTable _ _)).trans ((mapAt ..).trans (of_serv rfl rfl rfl))

private theorem access (h : c.access va = some d) : Quiet f i c d := by
  unfold Client.access at h
  split at h
  · cases h
  · split at h
    · cases h
      exact refl f i _
    · exact pageFault h

private theorem memUnmap (c : Client) (va : Word) : Quiet f i c (c.memUnmap va).2 := by
  unfold Client.memUnmap
  split
  · exact refl f i c
  · exact mapAt ..

private theorem memMap (c : Client) (srcva dstva : Word) : Quiet f i c (c.memMap srcva dstva).2 := by
  unfold Client.memMap
  split
  · exact refl f i c
  · split
    · split
      · exact (withTable c _).trans (mapAt ..)
      · exact refl f i c
    · exact refl f i c

/-- A word of a page that is neither the descriptor nor a block of the file. -/
private theorem setWord {k : Idx} {w : Word} {p : ClientPage} (hp : p ≠ .sent (.desc i) ∨ k.val ≠ 0 ∧ k.val ≠ 2)
    (hb : ∀ b, p = .sent (.block b) → ¬c.serv.fs.view.Uses f b) (h : c.setWord k w p = some d) : Quiet f i c d := by
  cases p with
  | own n =>
    cases h
    exact of_serv rfl rfl rfl
  | sent q =>
    cases q with
    | desc j =>
      cases h
      by_cases hj : i = j
      · subst hj
        obtain ⟨h0, h2⟩ := hp.resolve_left (not_not.2 rfl)
        refine ⟨fun _ _ => rfl, ?_, ?_, rfl⟩
        · simp [Serv.setFf, Filefd.setWord, h0]
        · simp [Serv.setFf, Filefd.setWord, h2]
      · refine ⟨fun _ _ => rfl, ?_, ?_, rfl⟩
        · simp [Serv.setFf, Function.update_of_ne hj]
        · simp [Serv.setFf, Function.update_of_ne hj]
    | block b =>
      obtain ⟨fs, hfs, rfl⟩ := setWord_block h
      refine ⟨fun b' hb' => ?_, rfl, rfl, rfl⟩
      have hne : b' ≠ b := fun heq => hb b rfl (heq ▸ hb')
      show fs.view b' = c.serv.fs.view b'
      rw [(Fs.setWord?_view hfs).1]
      exact Function.update_of_ne hne ..

end Quiet

/-- The page, if there is one, is neither the descriptor nor a block of the file. -/
def Client.Free (c : Client) (f : FilePtr) (i : Fin MAXOPEN) (v : Vpn) : Prop :=
  ∀ p, c.map.page v = some (.sent p) → p ≠ .desc i ∧ ∀ b, p = .block b → ¬c.serv.fs.view.Uses f b

namespace UserFile

open Proc Client

variable {f : FilePtr} {i : Fin MAXOPEN} {c c' d : Client} {l : List Asked} {q : Except Word Word} {fd fdnum va : Word}

/-- The function changes no block. -/
abbrev IsQuiet {α : Type} (f : FilePtr) (i : Fin MAXOPEN) (x : UserProc α) : Prop :=
  Proc.Does (fun c (_ : List Asked) c' => Quiet f i c c') x

private theorem fdWord_quiet (fd : Word) (k : Idx) : IsQuiet f i (fdWord fd k) :=
  .bind (Quiet.composes f i) (.update fun _ _ h => .access h) fun _ => .read (Quiet.composes f i) _

private theorem fdLookup_quiet (fdnum : Word) : IsQuiet f i (fdLookup fdnum) := by
  unfold fdLookup
  split
  · exact .fail (Quiet.composes f i) _
  · refine .bind (Quiet.composes f i) (.read (Quiet.composes f i) _) fun p => ?_
    split
    · exact .pure (Quiet.composes f i) _
    · exact .fail (Quiet.composes f i) _

private theorem memUnmap_quiet (va : Word) : IsQuiet f i (memUnmap va) := by
  intro c l q c' h
  cases h
  exact .memUnmap c va

private theorem memMap_quiet (srcva dstva : Word) : IsQuiet f i (memMap srcva dstva) := by
  intro c l q c' h
  cases h
  exact .memMap c srcva dstva

/-- A request that leaves the blocks alone. -/
private theorem fsipc_quiet {req : FsReq} (hreq : ∀ path omode, req ≠ .open path omode)
    (hpage : ∀ (c : Client) a d, c.ask req = some (a, d) → a.2 = none ∧ d.serv.fs.view = c.serv.fs.view) :
    IsQuiet f i (fsipc req va) := by
  intro c l q c' h
  obtain ⟨⟨r, p⟩, d, hask, -, rfl, -⟩ := fsipc_some h
  obtain ⟨rfl, hview⟩ := hpage c _ d hask
  obtain ⟨fs, rfl⟩ := ask_desc hreq hask (by nofun)
  exact .of_serv hview rfl rfl

private theorem unmapPages_quiet (va : Word) (is : List Nat) : IsQuiet f i (unmapPages va is) := by
  induction is with
  | nil => exact .pure (Quiet.composes f i) _
  | cons j is ih =>
    refine .bind (Quiet.composes f i) (memUnmap_quiet _) fun r => ?_
    split
    · exact .pure (Quiet.composes f i) _
    · exact ih

private theorem fileClose_quiet (fd : Word) : IsQuiet f i (fileClose fd) := by
  have hR := Quiet.composes f i
  refine .bind hR (fdWord_quiet fd _) fun fileid => .bind hR (fdWord_quiet fd _) fun size => ?_
  split
  · exact .stop
  · refine .bind hR (.each hR (fun j => .bind hR ?_ fun _ => .pure hR _) _) fun _ => .bind hR ?_ fun r => ?_
    · exact fsipc_quiet (by nofun) fun c a d => ask_dirty
    · exact fsipc_quiet (by nofun) fun c a d => ask_close
    · split
      · exact .pure hR _
      · exact unmapPages_quiet _ _

private theorem pipeClose_quiet (fd : Word) : IsQuiet f i (pipeClose fd) := by
  have hR := Quiet.composes f i
  exact .bind hR (memUnmap_quiet _) fun _ => .bind hR (memUnmap_quiet _) fun _ => .pure hR _

private theorem close_quiet (fdnum : Word) : IsQuiet f i (close fdnum) := by
  have hR := Quiet.composes f i
  refine .bind hR (fdLookup_quiet fdnum) fun fd => .bind hR (fdWord_quiet fd _) fun devId => .bind hR ?_ fun _ =>
    .bind hR ?_ fun r => .bind hR (memUnmap_quiet fd) fun _ => .pure hR _
  · unfold devLookup
    split
    · exact .pure hR _
    · exact .fail hR _
  · unfold devClose
    split
    · exact fileClose_quiet fd
    · split
      · exact .pure hR _
      · exact pipeClose_quiet fd

private theorem copyPages_quiet (ova nva : Word) (is : List Nat) : IsQuiet f i (copyPages ova nva is) := by
  have hR := Quiet.composes f i
  induction is with
  | nil => exact .pure hR _
  | cons j is ih =>
    refine .bind hR (.read hR _) fun p => ?_
    split
    · refine .bind hR (memMap_quiet _ _) fun r => ?_
      split
      · exact .pure hR _
      · exact ih
    · exact ih

private theorem undo_quiet (newfd nva : Word) : IsQuiet f i (undo newfd nva) := by
  have hR := Quiet.composes f i
  exact .bind hR (memUnmap_quiet _) fun _ => .each hR (fun j => .bind hR (memUnmap_quiet _) fun _ => .pure hR _) _

private theorem dup_quiet (oldfdnum newfdnum : Word) : IsQuiet f i (dup oldfdnum newfdnum) := by
  have hR := Quiet.composes f i
  refine .bind hR (fdLookup_quiet _) fun oldfd => .bind hR (.attempt (close_quiet _)) fun _ =>
    .bind hR (copyPages_quiet _ _ _) fun r => ?_
  split
  · exact .bind hR (undo_quiet _ _) fun _ => .pure hR _
  · refine .bind hR (memMap_quiet _ _) fun r => ?_
    split
    · exact .bind hR (undo_quiet _ _) fun _ => .pure hR _
    · exact .pure hR _

/-! ### Copies -/

/-- A copy to other pages: no page that was sent goes or comes. -/
structure Copies (f : FilePtr) (i : Fin MAXOPEN) (c c' : Client) : Prop where
  quiet : Quiet f i c c'
  sent : ∀ v p, c'.map.page v = some (.sent p) ↔ c.map.page v = some (.sent p)

private theorem Copies.refl (f : FilePtr) (i : Fin MAXOPEN) (c : Client) :
    Copies f i c c := ⟨.refl f i c, fun _ _ => Iff.rfl⟩

private theorem Copies.trans (h : Copies f i c d) (h' : Copies f i d c') : Copies f i c c' :=
  ⟨h.quiet.trans h'.quiet, fun v p => (h'.sent v p).trans (h.sent v p)⟩

private theorem Copies.free (h : Copies f i c d) {v : Vpn} (hv : c.Free f i v) : d.Free f i v := by
  intro p hp
  rw [h.sent] at hp
  obtain ⟨hdesc, hblock⟩ := hv p hp
  exact ⟨hdesc, fun b hb hused => hblock b hb ((View.uses_iff h.quiet.block b).1 hused)⟩

/-- The first access to an address gives it a page of the program's own. -/
private theorem access_copies (h : c.access va = some d) : Copies f i c d := by
  refine ⟨.access h, fun v p => ?_⟩
  unfold Client.access Client.pageFault at h
  split at h
  · cases h
  split at h
  · cases h
    exact Iff.rfl
  next hnone =>
  split at h
  · cases h
  obtain ⟨-, h⟩ := Option.ite_none_right_eq_some.1 h
  cases h
  by_cases hv : v = VPN va
  · have hpage : (c.map.alloc (VPN va)).page v = some (.own c.map.next) := by
      rw [hv]
      exact Function.update_self ..
    have hold : c.map.page v = none := by
      rw [hv]
      exact Option.not_isSome_iff_eq_none.1 hnone
    show (c.map.alloc (VPN va)).page v = some (.sent p) ↔ _
    rw [hpage, hold]
    simp
  · have hpage : (c.map.alloc (VPN va)).page v = c.map.page v := Function.update_of_ne hv ..
    show (c.map.alloc (VPN va)).page v = some (.sent p) ↔ _
    rw [hpage]

private theorem store_copies {x : Byte} (hfree : c.Free f i (VPN va)) (h : c.store va x = some d) : Copies f i c d := by
  obtain ⟨-, h⟩ := Option.ite_none_left_eq_some.1 h
  obtain ⟨p, hp, h⟩ := Option.bind_eq_some_iff.1 h
  obtain ⟨w, -, h⟩ := Option.bind_eq_some_iff.1 h
  have hmap := setWord_map h
  refine ⟨.setWord (.inl ?_) ?_ h, fun v p => by rw [hmap]⟩
  · rintro rfl
    exact (hfree _ hp).1 rfl
  · rintro b rfl
    exact (hfree _ hp).2 b rfl

private theorem copyByte_copies {dst src : Word} {q : Except Word Unit} (hfree : c.Free f i (VPN dst))
    (h : copyByte dst src c = some (l, q, c')) : Copies f i c c' := by
  obtain ⟨l₁, x, u, l₂, hload, hrest, -⟩ := bind_ok h fun l e t he => by
    obtain ⟨u, -, he⟩ := update_bind_some he
    obtain ⟨x, -, he⟩ := Option.map_eq_some_iff.1 he
    cases he
  obtain ⟨v, hacc, hread⟩ := update_bind_some hload
  obtain ⟨y, -, hread⟩ := Option.map_eq_some_iff.1 hread
  cases hread
  have hsrc : Copies f i c u := access_copies hacc
  obtain ⟨l₃, ⟨⟩, w, l₄, hstore, hend, -⟩ := bind_ok hrest fun l e t he => by
    obtain ⟨u, -, he⟩ := update_bind_some he
    obtain ⟨x, -, he⟩ := Option.map_eq_some_iff.1 he
    cases he
  obtain ⟨v, hacc', hstore⟩ := update_bind_some hstore
  obtain ⟨y, hy, hstore⟩ := Option.map_eq_some_iff.1 hstore
  cases hstore
  have hdst : Copies f i u v := access_copies hacc'
  have hput : Copies f i v w := store_copies (hdst.free (hsrc.free hfree)) hy
  cases hend
  exact (hsrc.trans hdst).trans (hput.trans ⟨.of_serv rfl rfl rfl, fun _ _ => Iff.rfl⟩)

private theorem each_copies {dst src : Word} {ks : List Nat} {q : Except Word Unit}
    (hfree : ∀ k ∈ ks, c.Free f i (VPN (dst + BitVec.ofNat 32 k)))
    (h : each (fun j => copyByte (dst + BitVec.ofNat 32 j) (src + BitVec.ofNat 32 j)) ks c = some (l, q, c')) :
    Copies f i c c' := by
  induction ks generalizing c l with
  | nil =>
    cases h
    exact .refl ..
  | cons k ks ih =>
    have hk := hfree k List.mem_cons_self
    rcases bind_some h with ⟨e, hcopy, -⟩ | ⟨l₁, ⟨⟩, u, l₂, hcopy, hrest, -⟩
    · exact copyByte_copies hk hcopy
    · have hstep : Copies f i c u := copyByte_copies hk hcopy
      exact hstep.trans (ih (fun j hj => hstep.free (hfree j (List.mem_cons_of_mem _ hj))) hrest)

private theorem memcpy_copies {dst src n : Word} {q : Except Word Unit}
    (hfree : ∀ k, k < copyLen dst n → c.Free f i (VPN (dst + BitVec.ofNat 32 k)))
    (h : memcpy dst src n c = some (l, q, c')) : Copies f i c c' :=
  each_copies (fun k hk => hfree k (List.mem_range.1 hk)) h

/-! ### Calls on the descriptor -/

/-- The page is that of the descriptor, which is one of a file. -/
structure OnFile (i : Fin MAXOPEN) (fdnum : Word) (c : Client) : Prop where
  page : c.map.page (VPN (INDEX2FD fdnum)) = some (.sent (.desc i))
  devId : (c.serv.ff i).fdDevId = 102

private theorem OnFile.fileFd (hfile : OnFile i fdnum c) (hnum : fdnum.slt 32 = true) :
    ∃ fileid size, c.FileFd fdnum (.sent (.desc i)) fileid size :=
  ⟨_, _, hnum, hfile.page, congrArg some hfile.devId, rfl, rfl⟩

/-- `read` and `write` of a descriptor with the mode that they must not find. -/
private theorem transfer_refused {mode : Word} {x : Word → Word → UserProc Word} (hfile : OnFile i fdnum c)
    (hmode : (c.serv.ff i).fdOmode &&& O_ACCMODE = mode) (h : transfer mode x fdnum c = some (l, q, c')) :
    c' = c ∧ (returned q).slt 0 = true := by
  have hinval : (-E_INVAL).slt 0 = true := by decide
  rcases bind_some h with ⟨e, hlook, rfl⟩ | ⟨l₁, fd, u, l₂, hlook, hrest₁, -⟩
  · obtain ⟨rfl, -, ⟨he, -⟩ | ⟨p, he, -⟩⟩ := fdLookup_some hlook
    · cases he
      exact ⟨rfl, hinval⟩
    · cases he
  obtain ⟨rfl, -, ⟨he, -⟩ | ⟨p, he, -⟩⟩ := fdLookup_some hlook
  · cases he
  cases he
  obtain ⟨l₃, devId, v, l₄, hdev, hrest₂, -⟩ := bind_ok hrest₁ fun l e t => fdWord_ok
  obtain ⟨⟨_, hdev', hval⟩, rfl, -⟩ := fdWord_mapped hfile.page hdev
  cases hval
  have hdesc : some (v.serv.ff i).fdDevId = some devId := hdev'
  obtain rfl : devId = 102 := (Option.some.inj hdesc).symm.trans hfile.devId
  have hlookup : devLookup 102 = (pure () : UserProc Unit) := if_pos (.inl rfl)
  rw [hlookup] at hrest₂
  obtain ⟨l₅, ⟨⟩, v, l₆, hpure, hrest₃, -⟩ := bind_ok hrest₂ nofun
  cases hpure
  obtain ⟨l₇, omode, w, l₈, hom, hrest₄, -⟩ := bind_ok hrest₃ fun l e t => fdWord_ok
  obtain ⟨⟨_, hom', hval⟩, rfl, -⟩ := fdWord_mapped hfile.page hom
  cases hval
  have homode : some (w.serv.ff i).fdOmode = some omode := hom'
  rw [← Option.some.inj homode, if_pos hmode] at hrest₄
  cases hrest₄
  exact ⟨rfl, hinval⟩

private theorem OnFile.copies (hfile : OnFile i fdnum c) (h : Copies f i c d) : OnFile i fdnum d :=
  ⟨(h.sent _ _).2 hfile.page, h.quiet.devId.trans hfile.devId⟩

/-- A word of a descriptor besides the device and the mode. -/
private theorem setWord_desc {j : Fin MAXOPEN} {k : Idx} {w : Word} (h0 : k.val ≠ 0) (h2 : k.val ≠ 2)
    (h : c.setWord k w (.sent (.desc j)) = some d) : Quiet f i c d :=
  .setWord (.inr ⟨h0, h2⟩) (fun _ hb => by cases hb) h

private theorem setFdWord_quiet {k : Idx} {w : Word} {q : Except Word Unit} (hfile : OnFile i fdnum c) (h0 : k.val ≠ 0)
    (h2 : k.val ≠ 2) (h : setFdWord (INDEX2FD fdnum) k w c = some (l, q, c')) : Quiet f i c c' :=
  setWord_desc h0 h2 (setFdWord_mapped hfile.page h).1

private theorem advance_quiet {r : Word} (hfile : OnFile i fdnum c) (h : advance (INDEX2FD fdnum) r c = some (l, q, c')) :
    Quiet f i c c' := by
  unfold advance at h
  split at h
  · obtain ⟨l₁, offset, u, l₂, hoff, hrest, -⟩ := bind_ok h fun l e t => fdWord_ok
    obtain ⟨-, rfl, -⟩ := fdWord_mapped hfile.page hoff
    obtain ⟨l₃, ⟨⟩, v, l₄, hset, hend, -⟩ := bind_ok hrest fun l e t he => by
      obtain ⟨-, he, -⟩ := setFdWord_mapped hfile.page he
      cases he
    cases hend
    exact setFdWord_quiet hfile (by decide) (by decide) hset
  · cases h
    exact .refl ..

private theorem seek_quiet {offset : Word} (hfile : OnFile i fdnum c) (h : seek fdnum offset c = some (l, q, c')) :
    Quiet f i c c' := by
  rcases bind_some h with ⟨e, hlook, -⟩ | ⟨l₁, fd, u, l₂, hlook, hrest, -⟩
  · obtain ⟨rfl, -⟩ := fdLookup_some hlook
    exact .refl ..
  · obtain ⟨rfl, -, ⟨he, -⟩ | ⟨p, he, -⟩⟩ := fdLookup_some hlook
    · cases he
    cases he
    obtain ⟨l₃, ⟨⟩, v, l₄, hset, hend, -⟩ := bind_ok hrest fun l e t he => by
      obtain ⟨-, he, -⟩ := setFdWord_mapped hfile.page he
      cases he
    cases hend
    exact setFdWord_quiet hfile (by decide) (by decide) hset

end UserFile

namespace Client

open UserFile (copyLen clip)

/-- `read` copies a byte to this page. -/
def ReadsTo (c : Client) (fdnum buf n : Word) (v : Vpn) : Prop :=
  ∃ p size offset k, c.map.page (VPN (INDEX2FD fdnum)) = some p ∧ c.word 36 p = some size ∧ c.word 1 p = some offset ∧
    ¬size < offset ∧ k < copyLen buf (clip size offset n) ∧ v = VPN (buf + BitVec.ofNat 32 k)

/-- The descriptor and the server have this size for the file. -/
def HasSize (c : Client) (fdnum size : Word) : Prop :=
  c.fdSize fdnum = some size ∧ ∀ p fileid f, c.map.page (VPN (INDEX2FD fdnum)) = some p → c.word 3 p = some fileid →
    c.serv.fileOf fileid = some f → c.serv.fs.view.size f = size.toNat

end Client

namespace UserFile

open Proc Client

variable {f : FilePtr} {i : Fin MAXOPEN} {c c' d : Client} {l : List Asked} {q : Except Word Word} {fd fdnum buf n va : Word}

private theorem read_quiet (hfile : OnFile i fdnum c) (hfree : ∀ v, c.ReadsTo fdnum buf n v → c.Free f i v)
    (h : read fdnum buf n c = some (l, q, c')) : Quiet f i c c' := by
  by_cases hnum : fdnum.slt 32 = true
  case neg =>
    unfold read transfer fdLookup at h
    rw [if_pos hnum] at h
    cases h
    exact .refl ..
  by_cases hmode : (c.serv.ff i).fdOmode &&& O_ACCMODE = O_WRONLY
  · obtain ⟨rfl, -⟩ := transfer_refused hfile hmode h
    exact .refl ..
  obtain ⟨fileid, size, hfd⟩ := hfile.fileFd hnum
  obtain ⟨l₁, q₁, u, hread, hend⟩ := transfer_file hfd rfl hmode rfl h
  have hcopies : Copies f i c u := by
    obtain ⟨l₂, size, v, l₃, hsize, hrest, -⟩ := bind_ok hread fun l e t => fdWord_ok
    obtain ⟨⟨_, hsize', hval⟩, rfl, -⟩ := fdWord_mapped hfd.page hsize
    cases hval
    split at hrest
    · cases hrest
      exact .refl ..
    next hle =>
    have hall (k : Nat) (hk : k < copyLen buf (clip size ((v.rest i) 1) n)) : v.Free f i (VPN (buf + BitVec.ofNat 32 k)) :=
      hfree _ ⟨_, size, _, k, hfile.page, hsize', rfl, hle, hk, rfl⟩
    rcases bind_some hrest with ⟨e, hcopy, -⟩ | ⟨l₄, ⟨⟩, w, l₅, hcopy, hpure, -⟩
    · exact memcpy_copies hall hcopy
    · cases hpure
      exact memcpy_copies hall hcopy
  obtain ⟨e, -, -, rfl⟩ | ⟨r, l₂, -, hadv⟩ := hend
  · exact hcopies.quiet
  · exact hcopies.quiet.trans (advance_quiet (hfile.copies hcopies) hadv)

private theorem ftruncate_quiet {size : Word} (hfile : OnFile i fdnum c) (hsize : MAXFILESIZE < size ∨ c.HasSize fdnum size)
    (h : ftruncate fdnum size c = some (l, q, c')) :
    Quiet f i c c' ∧ (¬c.HasSize fdnum size → (returned q).slt 0 = true) := by
  rcases ftruncate_cases h with ⟨hneg, rfl, -⟩ | ⟨p, fileid, old, d, r, e, hmax, hfd, hset, hask, hserv, hend⟩
  · exact ⟨.refl .., fun _ => hneg⟩
  have hsize := hsize.resolve_left hmax
  refine ⟨?_, fun hno => absurd hsize hno⟩
  obtain ⟨hfdsize, hsizes⟩ := hsize
  obtain rfl := Option.some.inj (hfd.page.symm.trans hfile.page)
  obtain rfl : old = size := by
    unfold Client.fdSize at hfdsize
    rw [hfd.page, Option.bind_some, hfd.size] at hfdsize
    exact Option.some.inj hfdsize
  have hfs := setWord_fs (fun _ hb => by cases hb) hset
  have hquiet : Quiet f i c d := setWord_desc (by decide) (by decide) hset
  have hfileOf : d.serv.fileOf fileid = c.serv.fileOf fileid := by
    cases hset
    rfl
  obtain ⟨fs, rfl⟩ := ask_desc (by nofun) hask (by nofun)
  have hview : fs.view = d.serv.fs.view := ask_setSize_same hask fun g hg => by
    rw [hfileOf] at hg
    apply BitVec.eq_of_toNat_eq
    rw [hfs]
    exact hsizes _ fileid g hfd.page hfd.fileid hg
  have hstep : Quiet f i c { d with serv := { d.serv with fs := fs } } := hquiet.trans (.of_serv hview rfl rfl)
  generalize returned q = x at hend
  cases hend with
  | refused _ => exact hstep
  | undone _ hno _ =>
    rw [pagesBetween_self] at hno
    exact absurd trivial hno
  | done _ hmap hunmap _ =>
    -- there is no page to map or to unmap
    rw [pagesBetween_self] at hmap hunmap
    cases hmap
    cases hunmap
    exact hstep

/-- A call on a descriptor. -/
inductive FileCall where
  | read (buf n : Word)
  | write (buf n : Word)
  | seek (offset : Word)
  | ftruncate (size : Word)
  | close
  | dup (newfdnum : Word)

namespace FileCall

def run (fdnum : Word) : FileCall → UserProc Word
  | .read buf n => UserFile.read fdnum buf n
  | .write buf n => UserFile.write fdnum buf n
  | .seek offset => UserFile.seek fdnum offset
  | .ftruncate size => UserFile.ftruncate fdnum size
  | .close => UserFile.close fdnum
  | .dup newfdnum => UserFile.dup fdnum newfdnum

/-- The call does not get to what is not checked: the page that `read` copies to, and another size. -/
def Harmless (f : FilePtr) (i : Fin MAXOPEN) (c : Client) (fdnum : Word) : FileCall → Prop
  | .read buf n => ∀ v, c.ReadsTo fdnum buf n v → c.Free f i v
  | .ftruncate size => MAXFILESIZE < size ∨ c.HasSize fdnum size
  | _ => True

/-- The call is one that changes a file. -/
def Changes (c : Client) (fdnum : Word) : FileCall → Prop
  | .write _ _ => True
  | .ftruncate size => ¬c.HasSize fdnum size
  | _ => False

/-- What a harmless call does on a descriptor that is open for reading. -/
private theorem run_quiet {x : FileCall} (hfile : OnFile i fdnum c) (hmode : (c.serv.ff i).fdOmode &&& O_ACCMODE = O_RDONLY)
    (hx : x.Harmless f i c fdnum) (h : x.run fdnum c = some (l, q, c')) :
    Quiet f i c c' ∧ (x.Changes c fdnum → (returned q).slt 0 = true) := by
  cases x with
  | read buf n => exact ⟨read_quiet hfile hx h, nofun⟩
  | write buf n =>
    obtain ⟨rfl, hneg⟩ := transfer_refused hfile hmode h
    exact ⟨.refl .., fun _ => hneg⟩
  | seek offset => exact ⟨seek_quiet hfile h, nofun⟩
  | ftruncate size => exact ftruncate_quiet hfile hx h
  | close => exact ⟨close_quiet fdnum c l q c' h, nofun⟩
  | dup newfdnum => exact ⟨dup_quiet fdnum newfdnum c l q c' h, nofun⟩

end FileCall

/-- A program makes calls on the descriptors that have the page of a slot. -/
def callsOn (i : Fin MAXOPEN) (c₀ : Client) : System Client (Word × FileCall) where
  init c := c = c₀
  step c x := if c.map.page (VPN (INDEX2FD x.1)) = some (.sent (.desc i)) then (x.2.run x.1 c).map fun p => p.2.2 else none

/-- What stays so in a run of harmless calls. -/
private theorem callsOn_quiet {c₀ : Client} (hdev : (c₀.serv.ff i).fdDevId = 102)
    (hmode : (c₀.serv.ff i).fdOmode &&& O_ACCMODE = O_RDONLY)
    (h : (callsOn i c₀).Reach (fun c x => x.2.Harmless f i c x.1) c) : Quiet f i c₀ c := by
  apply h.invariant
  · rintro _ rfl
    exact .refl ..
  · rintro c ⟨fdnum, x⟩ c' hquiet hx hstep
    obtain ⟨hpage, hstep⟩ := Option.ite_none_right_eq_some.1 hstep
    obtain ⟨⟨l, q, c'⟩, hrun, rfl⟩ := Option.map_eq_some_iff.1 hstep
    have hmode' : (c.serv.ff i).fdOmode &&& O_ACCMODE = O_RDONLY := by rw [hquiet.omode, hmode]
    exact hquiet.trans (FileCall.run_quiet ⟨hpage, hquiet.devId.trans hdev⟩ hmode' hx hrun).1

/-- The descriptor that `open` has returned. -/
private theorem openFile_desc {path : List Byte} {mode : Word} (h : openFile path mode c = some (l, q, c'))
    (hok : ¬(returned q).slt 0 = true) : ∃ i f, c'.map.page (VPN (INDEX2FD (returned q))) = some (.sent (.desc i)) ∧
      (c'.serv.ff i).fdDevId = 102 ∧ (c'.serv.ff i).fdOmode = mode ∧ (c'.serv.opentab i).oFile = some f := by
  have hend := openFile_cases h
  generalize returned q = x at hend hok
  cases hend with
  | early hneg _ _ => exact absurd hneg hok
  | @got n i d c' r _ _ _ hask hp hm =>
    have h0 : r = 0 := by
      by_contra h0
      rw [if_neg h0] at hok
      exact hok (hm.result.resolve_left h0)
    rw [if_pos h0]
    rcases ask_open hask with ⟨-, hnone⟩ | ⟨j, ha, hdev, hmode, f, hf⟩
    · cases hnone
    cases ha
    have hpage : c'.map.page (VPN (INDEX2FD (BitVec.ofNat 32 n))) = some (.sent (.desc i)) := by
      rw [FdSpace.VPN_fd (fdnum_toNat n)]
      exact (openPages_spec hp (arrive_word ..) hm).1
    have hword (k : Idx) : c'.word k (.sent (.desc i)) = d.word k (.sent (.desc i)) := (hm.desc i k).trans (arrive_word ..)
    refine ⟨i, f, hpage, ?_, ?_, ?_⟩
    · exact (Option.some.inj (hword 0)).trans hdev
    · exact (Option.some.inj (hword 2)).trans hmode
    · rw [hm.opentab, arrive_opentab, hf]

/-- A file that is opened for reading stays as it is, and the calls that change a file fail, in every run in which no
call gets to what is not checked. -/
theorem openFile_readOnly {path : List Byte} {mode : Word} {c₀ : Client} (h : openFile path mode c = some (l, q, c₀))
    (hmode : mode &&& O_ACCMODE = O_RDONLY) (hok : ¬(returned q).slt 0 = true) :
    ∃ i f, c₀.map.page (VPN (INDEX2FD (returned q))) = some (.sent (.desc i)) ∧ (c₀.serv.opentab i).oFile = some f ∧
      ∀ c, (callsOn i c₀).Reach (fun c x => x.2.Harmless f i c x.1) c →
        c.serv.fs.view.size f = c₀.serv.fs.view.size f ∧
        (∀ pos, c.serv.fs.view.byteAt f pos = c₀.serv.fs.view.byteAt f pos) ∧
        ∀ (fdnum : Word) (x : FileCall) (l : List Asked) (q : Except Word Word) (c' : Client),
          c.map.page (VPN (INDEX2FD fdnum)) = some (.sent (.desc i)) → x.Harmless f i c fdnum → x.Changes c fdnum →
            x.run fdnum c = some (l, q, c') → (returned q).slt 0 = true := by
  obtain ⟨i, f, hpage, hdev, hom, hf⟩ := openFile_desc h hok
  have hmode₀ : (c₀.serv.ff i).fdOmode &&& O_ACCMODE = O_RDONLY := by rw [hom, hmode]
  refine ⟨i, f, hpage, hf, fun c hc => ?_⟩
  have hquiet := callsOn_quiet hdev hmode₀ hc
  refine ⟨View.size_uses hquiet.block, View.byteAt_uses hquiet.block, fun fdnum x l q c' hp hx hch hrun => ?_⟩
  have hmode' : (c.serv.ff i).fdOmode &&& O_ACCMODE = O_RDONLY := by rw [hquiet.omode, hmode₀]
  exact (FileCall.run_quiet ⟨hp, hquiet.devId.trans hdev⟩ hmode' hx hrun).2 hch

theorem openFile_readOnly_b : ∃ (l : List Asked) (q : Except Word Word) (c₀ : Client) (i : Fin MAXOPEN) (f : FilePtr),
    openFile [98] O_RDONLY (newClient FileSys.smallDisk) = some (l, q, c₀) ∧ (c₀.serv.opentab i).oFile = some f ∧
      ∀ c, (callsOn i c₀).Reach (fun c x => x.2.Harmless f i c x.1) c →
        c.serv.fs.view.size f = c₀.serv.fs.view.size f := by
  have hrun : (openFile [98] O_RDONLY (newClient FileSys.smallDisk)).map (fun p => returned p.2.1 == 0) = some true := by
    decide +kernel
  obtain ⟨l, q, c₀, hx, hr⟩ := run_of_found (fun r _ => r == 0) hrun
  have h0 : returned q = 0 := beq_iff_eq.1 hr
  obtain ⟨i, f, -, hf, hall⟩ := openFile_readOnly hx rfl (by rw [h0]; decide)
  exact ⟨l, q, c₀, i, f, hx, hf, fun c hc => (hall c hc).1⟩

/-- The first descriptor is one of `b`, to which `ftruncate` gives another size. -/
def growsFile (i : Fin MAXOPEN) (c : Client) : Bool :=
  c.map.page (VPN (INDEX2FD 0)) == some (.sent (.desc i)) && (c.serv.opentab i).oFile == some FileSys.fileB &&
    ((ftruncate 0 4096 c).map fun p => returned p.2.1 == 0 &&
      decide (p.2.2.serv.fs.view.size FileSys.fileB ≠ c.serv.fs.view.size FileSys.fileB)) == some true

/-- A file that is open for reading gets another size. -/
theorem exists_readOnly_changed : ∃ (c c₀ c' : Client) (path : List Byte) (l l' : List Asked) (q q' : Except Word Word)
    (i : Fin MAXOPEN) (f : FilePtr) (size : Word), openFile path O_RDONLY c = some (l, q, c₀) ∧
      ¬(returned q).slt 0 = true ∧ c₀.map.page (VPN (INDEX2FD (returned q))) = some (.sent (.desc i)) ∧
      (c₀.serv.opentab i).oFile = some f ∧ ftruncate (returned q) size c₀ = some (l', q', c') ∧ returned q' = 0 ∧
      (callsOn i c₀).Reach (fun _ _ => True) c' ∧ c'.serv.fs.view.size f ≠ c₀.serv.fs.view.size f := by
  have hrun : (openFile [98] O_RDONLY (newClient FileSys.smallDisk)).map
      (fun p => returned p.2.1 == 0 && growsFile ⟨0, by decide⟩ p.2.2) = some true := by decide +kernel
  obtain ⟨l, q, c₀, hx, hfound⟩ := run_of_found (fun r c => r == 0 && growsFile ⟨0, by decide⟩ c) hrun
  unfold growsFile at hfound
  simp only [Bool.and_eq_true, beq_iff_eq] at hfound
  obtain ⟨h0, ⟨hpage, hf⟩, hft⟩ := hfound
  obtain ⟨l', q', c', hft', hfound'⟩ := run_of_found (fun r c => r == 0 &&
    decide (c.serv.fs.view.size FileSys.fileB ≠ c₀.serv.fs.view.size FileSys.fileB)) hft
  simp only [Bool.and_eq_true, beq_iff_eq, decide_eq_true_eq] at hfound'
  have hstep : (callsOn ⟨0, by decide⟩ c₀).step c₀ (0, .ftruncate 4096) = some c' := by
    refine (if_pos hpage).trans ?_
    show (ftruncate 0 4096 c₀).map (fun p => p.2.2) = some c'
    rw [hft']
    rfl
  refine ⟨_, c₀, c', _, l, l', q, q', ⟨0, by decide⟩, FileSys.fileB, 4096, hx, by rw [h0]; decide, by rw [h0, hpage], hf, by rw [h0, hft'],
    hfound'.1, .next (.start rfl) trivial hstep, hfound'.2⟩

end UserFile

end Mos
