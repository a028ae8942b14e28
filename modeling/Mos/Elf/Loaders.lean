import Mos.Elf.Child

/-!
# The two loaders agree

`spawn` reads the program headers of a file one at a time into the buffer of the ELF header and copies the segments through a
temporary page; `load_icode` indexes the image in memory and fills the pages where they are. Where `spawn` sees the segments
of the image (`shownSegs_eq`: headers of 28 to 42 bytes), the child and the environment that the kernel creates have the same
program.
-/

namespace Mos

open Kern

/-- The programs of `e` and of `e'` start at the same place and have the same pages, but for those in `S`. -/
structure SameProgram (k : Kern) (e : EnvPtr) (k' : Kern) (e' : EnvPtr) (S : Set Vpn) : Prop where
  entry : (k.envs e).envTf.cp0Epc = (k'.envs e').envTf.cp0Epc
  page : ∀ v, v.1 < PDX UTOP → v ∉ S → k.mem.page e v = k'.mem.page e' v

/-- The stack page of a child of `cur`, and the library pages of `cur`. -/
def childPages (k : Kern) (cur : EnvPtr) : Set Vpn := {v | v = VPN stackBase ∨ k.library cur v = true}

section

variable {mc mc' : Machine} {leak leak' : Nat → Nat} {k k' s s' : Kern} {cur e' : EnvPtr} {child : Word}
  {rounds rounds' : Nat} {f : ElfFile} {args : SpawnArgs} {image : Nat → Byte} {priority : Word}

private theorem sameProgram (hm : MemOk mc leak k) (hids : IdBits k) (hcur : k.curenv = some cur)
    (hnext : ∀ x ∈ k.nextId, x.2 ≠ 0) (hm' : MemOk mc' leak' s) (hfree : s.vmFree = true) (hf : f.Inside)
    (hseg : f.shownSegs = f.imageSegs) (himage : ∀ j < f.size.toNat, image j = f.data j)
    (hspawn : spawn rounds cur f args k = some (.ok child, k'))
    (hcreate : Elf.envCreate rounds' s image f.size priority = some (e', s')) :
    SameProgram k' (ENVX child) s' e' (childPages k cur) := by
  obtain ⟨k₆, k₇, r₇, r₈, hspawned, ⟨hr₇, hshare⟩, -, hstatus⟩ := spawn_ok_iff.1 hspawn
  obtain ⟨elfbuf, pos, k₁, k₂, k₃, k₄, k₅, hread, -, hfork, hstack, hphdrs, hclose, hstore, htf⟩ :=
    spawnLoaded_cases hspawned
  -- the ELF header
  obtain ⟨hlen, hbytes⟩ := ElfFile.readn_eq (by decide) hread
  have hzero : (0 : Word).toNat = 0 := rfl
  have h52 : (52 : Word).toNat = 52 := rfl
  rw [hzero, h52, Nat.sub_zero] at hlen hbytes
  have hbuf : ∀ x < 52, elfbuf x = f.data x := by
    intro x hx
    rw [hbytes x, if_pos (by omega), Nat.zero_add]
  have hehdr : ehdrAt elfbuf = ehdrAt f.data := ehdrAt_congr hbuf
  have himgehdr : ehdrAt image = ehdrAt f.data := ehdrAt_congr fun x hx => himage x (by omega)
  -- the new environments
  obtain ⟨dc, m₂, hforked, rfl, hbuild₂, hnone₂⟩ := spawn_forks hm hids hcur hnext hfork hstack
  have hb := hforked.builder
  obtain ⟨d, m, m', D, asid, hD, hok, hnone, hload, hmem', hentry⟩ := envCreate_loads hm' hfree hcreate
  -- the segments
  have hst : SameImage mc mc' k₁ cur (ENVX child) k₁.pm D e' (VPN stackBase) (k₁.setPm m₂) m :=
    ⟨⟨m₂, rfl, hbuild₂⟩, ⟨leak', hok⟩, fun v hv hne => (hnone₂ v hv hne).trans (hnone v hv).symm⟩
  have hshown := spawnPhdrs_segs hphdrs
  have hloaded := loadPhdrs_segs hload
  rw [hehdr, ElfFile.shownLoads_congr hbuf] at hshown
  rw [himgehdr, ElfFile.imageLoads_congr hf himage himgehdr (Nat.zero_add _) fun _ => by
    rw [ElfFile.phdrOff, Nat.zero_mul, Nat.add_zero]] at hloaded
  have hshown : loadSegs (spawnMapper cur child) rounds f.data f.imageSegs (k₁.setPm m₂) = some k₃ := hseg ▸ hshown
  have hsame : ∀ ph ∈ f.imageSegs, ∀ j < ph.pFilesz.toNat, shift f.data ph.pOffset j = shift image ph.pOffset j := by
    intro ph hph j hj
    have hin := hf.bytes ph hph
    exact (himage _ (by omega)).symm
  have hst' := loadSegs_couple (fun ph => mappers_couple asid hb hD (Phdr.PPN_perm ph)) hsame hst hshown hloaded
  obtain ⟨m₃, rfl, hbuild₃⟩ := hst'.build
  obtain ⟨m₄, rfl, hbuild₄, hpage₄⟩ := hbuild₃.closeFile hb hclose
  -- the trapframe
  obtain ⟨hcores₆, hmem₆, htf₆⟩ := setTrapframe_child (hb.setPm m₄) hstore htf
  have hb₆ := hb.congr hcores₆
  have hdirs₆ : k₆.dirs = k₁.dirs := congrArg Mem.dirs hmem₆
  have hpm₆ : k₆.pm = m₄ := congrArg Mem.pm hmem₆
  -- the library pages
  have hdir₆ : ∀ {x : EnvPtr}, (k₁.envs x).envStatus ≠ .FREE → (k₆.envs x).envStatus ≠ .FREE →
      (k₆.envs x).envPgdir = (k₁.envs x).envPgdir := fun hx hx₆ => by
    rw [← dirs_of_live hx, ← dirs_of_live hx₆, hdirs₆]
  obtain ⟨p, hp⟩ := Option.isSome_iff_exists.1 hforked.dir
  obtain ⟨leak₄, hok₄⟩ := hbuild₄.ok
  have hshare : loopWhileOk (shareTable cur child) sharedTables (k₆.setPm m₄) = some (r₇, k₇) := hpm₆ ▸ hshare
  obtain ⟨m₇, rfl, hshared⟩ := shared_page hb₆ (hdirs₆ ▸ hok₄) (hdirs₆ ▸ hbuild₄.distinct)
    ((hdir₆ hb.live hb₆.live).trans hforked.curDir') ((hdir₆ hb.child_live hb₆.child_live).trans hp) hshare hr₇
  -- the child is made runnable
  obtain ⟨hmem₈, htf₈⟩ := setEnvStatus_child (hb₆.setPm m₇) hstatus
  refine ⟨?_, fun v hv hnot => ?_⟩
  · have htf₇ : ((k₆.setPm m₇).envs (ENVX child)).envTf = (k₆.envs (ENVX child)).envTf := rfl
    rw [htf₈, htf₇, htf₆, hentry, hehdr, himgehdr]
  · have hlib : Kern.library (k₆.setPm m₄) cur v = false := by
      refine hforked.library hbuild₄ hcores₆ ?_ hv (by simpa using fun h => hnot (.inr h))
      rw [← hdirs₆]
      rfl
    have hmem₇ : (k₆.setPm m₇).mem = ⟨k₆.dirs, m₇⟩ := rfl
    rw [hmem₈, hmem₇, hshared v hv hlib, hdirs₆, hpage₄ v hv, hmem']
    exact hst'.page v hv fun heq => hnot (.inl heq)

/-- Where the caller has no library page, the loop at the end finds nothing. -/
private theorem share_unshared {k₁ : Kern} (hm : MemOk mc leak k) (hids : IdBits k) (hcur : k.curenv = some cur)
    (hnext : ∀ x ∈ k.nextId, x.2 ≠ 0) (hlib : ∀ v, v.1 < PDX UTOP → k.library cur v = false)
    (h : spawnLoaded rounds cur f args k = some (child, k₁)) :
    loopWhileOk (shareTable cur child) sharedTables k₁ = some (0, k₁) := by
  obtain ⟨elfbuf, pos, k₂, k₃, k₄, k₅, k₆, -, -, hfork, hstack, hphdrs, hclose, hstore, htf⟩ := spawnLoaded_cases h
  obtain ⟨dc, m, hforked, rfl, hbuild, -⟩ := spawn_forks hm hids hcur hnext hfork hstack
  have hb := hforked.builder
  obtain ⟨m₁, rfl, hbuild₁⟩ := hbuild.loadSegs hb (spawnPhdrs_segs hphdrs)
  obtain ⟨m₂, rfl, hbuild₂, -⟩ := hbuild₁.closeFile hb hclose
  obtain ⟨hcores, hmem, -⟩ := setTrapframe_child (hb.setPm m₂) hstore htf
  exact share_nothing fun v hv => hforked.library hbuild₂ hcores hmem hv (hlib v hv)

/-- In runs that keep the tables apart, a child and an environment that the kernel builds from the same image have the same
program, where `spawn` sees the segments of the image. -/
theorem loaders_agree {l l' : List (State × Event)} {t t' : State}
    (h : kernel.Steps (fun s ev => memAdmits s ev = true) ⟨.user, mc.bootKern⟩ l t)
    (h' : kernel.Steps (fun s ev => memAdmits s ev = true) ⟨.user, mc'.bootKern⟩ l' t')
    (hcur : t.kern.curenv = some cur) (hnext : ∀ x ∈ t.kern.nextId, x.2 ≠ 0) (hfree : t'.kern.vmFree = true)
    (hf : f.Inside) (hseg : f.shownSegs = f.imageSegs) (himage : ∀ j < f.size.toNat, image j = f.data j)
    (hspawn : spawn rounds cur f args t.kern = some (.ok child, k'))
    (hcreate : Elf.envCreate rounds' t'.kern image f.size priority = some (e', s')) :
    SameProgram k' (ENVX child) s' e' (childPages t.kern cur) := by
  obtain ⟨leak, hm⟩ := MemOk.of_steps h
  obtain ⟨leak', hm'⟩ := MemOk.of_steps h'
  exact sameProgram hm (.of_steps h) hcur hnext hm' hfree hf hseg himage hspawn hcreate

end

/-! ### A file -/

/-- The given bytes, and zeros. -/
def elfBytes (l : List (Nat × Byte)) : Nat → Byte := fun x => (l.lookup x).getD 0

/-- An ELF header, with the entry point `UTEXT`, and behind it one program header, of a segment of eight bytes to load at
`UTEXT`; the first four of them are in the file, behind the program header. -/
def dataFile : ElfFile :=
  ⟨88, elfBytes [(0, 0x7f), (1, 0x45), (2, 0x4c), (3, 0x46), (16, 2), (26, 0x40), (28, 52), (42, 32), (44, 1), (52, 1),
    (56, 84), (62, 0x40), (68, 4), (72, 8), (84, 0x0a), (85, 0x0b), (86, 0x0c), (87, 0x0d)]⟩

def dataArgs : SpawnArgs := ⟨0, stackPage [], initSp [], fun _ => 0, stackBase⟩

private theorem dataFile_inside : dataFile.Inside where
  header := by decide
  bytes := by decide

private theorem dataFile_segs : dataFile.shownSegs = dataFile.imageSegs :=
  ElfFile.shownSegs_eq (by decide) (by decide) (by decide)

private theorem library_of_noTable {k : Kern} {cur : EnvPtr} {v : Vpn} (h : k.vpt cur (v.1, 0) = none) : k.library cur v =
    false := by
  have hnone : k.vpt cur v = none := by
    unfold Kern.vpt at h ⊢
    cases hd : (k.envs cur).envPgdir with
    | none => rfl
    | some d =>
      rw [hd, Option.bind_some] at h
      dsimp only at h
      split at h
      case isTrue => cases h
      case isFalse hv => exact if_neg hv
  rw [Kern.library, hnone]
  rfl

/-- The environment that spawns has no page yet. -/
private theorem caller_cond : (kernel.trace (fun s ev => memAdmits s ev) ⟨.user, Machine.gxemul.bootKern⟩
    (.create .empty 1 :: tickEvents)).any fun r =>
      r.2.kern.curenv = some 0 && (r.2.kern.nextId.all fun x => x.2 ≠ 0) &&
        ((List.finRange 1024).all fun i => PDX UTOP ≤ i || (r.2.kern.vpt 0 (i, 0)).isNone) &&
          (spawnLoaded 4 0 dataFile dataArgs r.2.kern).any fun x =>
            (returning (x.2.sysSetEnvStatus 0 x.1 1)).any fun y => y.1 = 0 := by decide +kernel

private theorem create_cond : Machine.gxemul.bootKern.vmFree = true ∧
    (Elf.envCreate 4 Machine.gxemul.bootKern dataFile.data dataFile.size 1).isSome = true := by decide +kernel

theorem loaders_agree_data : ∃ l t k' s' child e',
    kernel.Steps (fun s ev => memAdmits s ev = true) ⟨.user, Machine.gxemul.bootKern⟩ l t ∧
      spawn 4 0 dataFile dataArgs t.kern = some (.ok child, k') ∧
      Elf.envCreate 4 Machine.gxemul.bootKern dataFile.data dataFile.size 1 = some (e', s') ∧
      SameProgram k' (ENVX child) s' e' (childPages t.kern 0) := by
  obtain ⟨⟨l, t⟩, hl, hcond⟩ := (Option.any_eq_true _ _).1 caller_cond
  simp only [Bool.and_eq_true, decide_eq_true_eq] at hcond
  obtain ⟨⟨⟨hcur, hnext⟩, htables⟩, hany⟩ := hcond
  have hnext : ∀ x ∈ t.kern.nextId, x.2 ≠ 0 := fun x hx => of_decide_eq_true (List.all_eq_true.1 hnext x hx)
  have hvpt : ∀ i : Idx, i < PDX UTOP → t.kern.vpt 0 (i, 0) = none := by
    intro i hi
    have htable := List.all_eq_true.1 htables i (List.mem_finRange i)
    rw [Bool.or_eq_true, decide_eq_true_eq] at htable
    exact Option.isNone_iff_eq_none.1 (htable.resolve_left (Nat.not_le_of_lt hi))
  obtain ⟨⟨child, k₁⟩, hloaded, hany⟩ := (Option.any_eq_true _ _).1 hany
  obtain ⟨⟨r, k'⟩, hstatus, hzero⟩ := (Option.any_eq_true _ _).1 hany
  obtain rfl : r = 0 := of_decide_eq_true hzero
  obtain ⟨⟨e', s'⟩, hcreate⟩ := Option.isSome_iff_exists.1 create_cond.2
  have hl := System.Steps.of_trace hl
  have hboot : kernel.Steps (fun s ev => memAdmits s ev = true) ⟨.user, Machine.gxemul.bootKern⟩ []
      ⟨.user, Machine.gxemul.bootKern⟩ := .refl
  obtain ⟨leak, hm⟩ := MemOk.of_steps hl
  have hshare := share_unshared hm (.of_steps hl) hcur hnext (fun v hv => library_of_noTable (hvpt v.1 hv)) hloaded
  have hspawn : spawn 4 0 dataFile dataArgs t.kern = some (.ok child, k') :=
    spawn_ok_iff.2 ⟨k₁, k₁, 0, 0, hloaded, ⟨rfl, hshare⟩, rfl, hstatus⟩
  exact ⟨l, t, k', s', child, e', hl, hspawn, hcreate,
    loaders_agree hl hboot hcur hnext create_cond.1 dataFile_inside dataFile_segs (fun _ _ => rfl) hspawn hcreate⟩

end Mos
