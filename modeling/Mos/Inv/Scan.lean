import Mos.Kern.Step
import Mos.Lib.SList
import Mathlib.Data.Fintype.Card

/-!
# The scan of the pending list

What the loop of `_do_signal` does to the nodes, in terms of the list it starts from.  The scan sifts the list as it
should; but a node that is taken off the front leaves `signoHeader` null, whatever is behind it.
-/

namespace Mos

namespace Kern

/-- The links of the nodes. -/
def links (k : Kern) (n : SignoPtr) : Option SignoPtr := (k.signos n).next

/-- The tests that `_do_signal` makes, for the number in a node. -/
def nodeBlocked (k : Kern) (c : EnvPtr) (n : SignoPtr) : Bool := (k.signos n).signal.any (k.envs c).blocked
def nodeIgnored (k : Kern) (c : EnvPtr) (n : SignoPtr) : Bool := (k.signos n).signal.any (k.envs c).ignored

/-- The nodes of a list after the scan. -/
def sifted (k : Kern) (c : EnvPtr) (l : List SignoPtr) : Sifted SignoPtr := sift (k.nodeBlocked c) (k.nodeIgnored c) l

variable {k k' : Kern} {c : EnvPtr}

/-! ### Taking a node off -/

/-- The node `n` behind `frm` goes from the list of `c` to the free list. -/
def takeOff (k : Kern) (c : EnvPtr) (frm : Option SignoPtr) (n : SignoPtr) : Kern := (k.unlink c frm n).signoFree n

theorem links_setNext (k : Kern) (n : SignoPtr) (p : Option SignoPtr) :
    (k.setNext n p).links = Function.update k.links n p := by
  funext m
  by_cases hm : m = n
  · subst hm; simp [links, setNext]
  · simp [links, setNext, hm]

theorem setNext_signo (k : Kern) (n m : SignoPtr) (p : Option SignoPtr) :
    ((k.setNext n p).signos m).signo = (k.signos m).signo := by
  by_cases hm : m = n
  · subst hm; simp [setNext]
  · simp [setNext, hm]

private theorem takeOff_links (k : Kern) (c : EnvPtr) (n : SignoPtr) :
    (k.takeOff c none n).links = Function.update k.links n k.signoFreeList :=
  links_setNext (k.setEnv c fun env => { env with signoHeader := none }) n k.signoFreeList

private theorem takeOff_links_some (k : Kern) (c : EnvPtr) (f n : SignoPtr) :
    (k.takeOff c (some f) n).links = Function.update (Function.update k.links f (k.links n)) n k.signoFreeList := by
  rw [← links_setNext k f (k.links n)]
  exact links_setNext (k.setNext f (k.links n)) n k.signoFreeList

private theorem takeOff_free (k : Kern) (c : EnvPtr) (frm : Option SignoPtr) (n : SignoPtr) :
    (k.takeOff c frm n).signoFreeList = some n := rfl

private theorem takeOff_signo (k : Kern) (c : EnvPtr) (frm : Option SignoPtr) (n m : SignoPtr) :
    ((k.takeOff c frm n).signos m).signo = (k.signos m).signo := by
  cases frm with
  | none => exact setNext_signo (k.setEnv c fun env => { env with signoHeader := none }) n m k.signoFreeList
  | some f =>
    refine (setNext_signo (k.setNext f (k.signos n).next) n m k.signoFreeList).trans ?_
    exact setNext_signo k f m (k.signos n).next

/-- Only the node itself and the one before it change. -/
theorem takeOff_signos_of_ne {frm : Option SignoPtr} {n m : SignoPtr} (hn : m ≠ n) (hf : frm ≠ some m) :
    (k.takeOff c frm n).signos m = k.signos m := by
  cases frm with
  | none => simp [takeOff, unlink, signoFree, setNext, hn]
  | some f =>
    have hmf : m ≠ f := fun h => hf (by rw [h])
    simp [takeOff, unlink, signoFree, setNext, hn, hmf]

private theorem takeOff_header (k : Kern) (c : EnvPtr) (frm : Option SignoPtr) (n : SignoPtr) :
    ((k.takeOff c frm n).envs c).signoHeader = if frm = none then none else (k.envs c).signoHeader := by
  cases frm with
  | none => simp [takeOff, unlink, signoFree, setNext]
  | some f => simp [takeOff, unlink, signoFree, setNext]

/-- Neither the masks nor the handlers change. -/
theorem takeOff_field {β : Type} (g : Env → β) (hg : ∀ env p, g { env with signoHeader := p } = g env)
    (frm : Option SignoPtr) (n : SignoPtr) (e : EnvPtr) : g ((k.takeOff c frm n).envs e) = g (k.envs e) := by
  cases frm with
  | none =>
    show g ((k.setEnv c fun env => { env with signoHeader := none }).envs e) = _
    exact setEnv_field g (hg _ _) e
  | some f => rfl

private theorem blocked_congr {env env' : Env} (hm : env'.envSigprocmask = env.envSigprocmask)
    (ht : env'.sighandlerTable = env.sighandlerTable) : env'.blocked = env.blocked := by
  funext s
  have hw : env'.maskWord = env.maskWord := by
    funext i
    unfold Env.maskWord
    rw [hm, ht]
  rw [Env.blocked, Env.blocked, hw]

theorem ignored_congr {env env' : Env} (ht : env'.sighandlerTable = env.sighandlerTable) :
    env'.ignored = env.ignored := by
  funext s
  rw [Env.ignored, Env.ignored, Env.handler, Env.handler, ht]

private theorem takeOff_tests (k : Kern) (c : EnvPtr) (frm : Option SignoPtr) (n : SignoPtr) :
    (k.takeOff c frm n).nodeBlocked c = k.nodeBlocked c ∧ (k.takeOff c frm n).nodeIgnored c = k.nodeIgnored c := by
  have hm := takeOff_field (k := k) (c := c) Env.envSigprocmask (fun _ _ => rfl) frm n c
  have ht := takeOff_field (k := k) (c := c) Env.sighandlerTable (fun _ _ => rfl) frm n c
  have hs : ∀ m, ((k.takeOff c frm n).signos m).signal = (k.signos m).signal := fun m => by
    rw [SignoNode.signal, SignoNode.signal, takeOff_signo]
  constructor
  · funext m; rw [nodeBlocked, nodeBlocked, hs, blocked_congr hm ht]
  · funext m; rw [nodeIgnored, nodeIgnored, hs, ignored_congr ht]

/-! ### The loop -/

/-- What the loop does from the pointer `ptr` with the list `l` on, the free list being `free` and the node before
`frm`. -/
structure Scanned (k : Kern) (c : EnvPtr) (frm : Option SignoPtr) (l free : List SignoPtr) (s : Scan) : Prop where
  found : (k.sifted c l).found.map (fun n => (k.signos n).signal) = s.found.map some
  discarded : (k.sifted c l).discarded.map (fun n => (k.signos n).signal) = s.discarded.map some
  kept : SList s.kern.links (k.sifted c l).kept.head? (k.sifted c l).kept
  free : SList s.kern.links s.kern.signoFreeList ((k.sifted c l).removed.reverse ++ free)
  prev : ∀ f, frm = some f → s.kern.links f = (k.sifted c l).kept.head?
  others : ∀ n, n ∉ l → frm ≠ some n → s.kern.signos n = k.signos n
  signo : ∀ n, (s.kern.signos n).signo = (k.signos n).signo
  header : (s.kern.envs c).signoHeader =
    if frm = none ∧ (l.head?.any fun n => !k.nodeBlocked c n) then none else (k.envs c).signoHeader

theorem links_eq_of_signos_eq {n : SignoPtr} (h : k'.signos n = k.signos n) : k'.links n = k.links n := by
  rw [links, links, h]

/-- The scan skips a blocked node. -/
private theorem Scanned.skip {frm : Option SignoPtr} {n : SignoPtr} {l free : List SignoPtr} {s : Scan}
    (hb : k.nodeBlocked c n = true) (hfrm : ∀ f, frm = some f → f ∉ n :: l ∧ k.links f = some n)
    (h : Scanned k c (some n) l free s) : Scanned k c frm (n :: l) free s := by
  have hs : k.sifted c (n :: l) = { k.sifted c l with kept := n :: (k.sifted c l).kept } := sift_blocked hb
  refine ⟨?_, ?_, ?_, ?_, ?_, ?_, h.signo, ?_⟩
  · rw [hs]; exact h.found
  · rw [hs]; exact h.discarded
  · rw [hs]
    refine SList.cons ?_
    rw [h.prev n rfl]
    exact h.kept
  · rw [hs]; exact h.free
  · intro f hf
    obtain ⟨hfl, hlink⟩ := hfrm f hf
    have hne : f ≠ n := fun he => hfl (he ▸ List.mem_cons_self ..)
    rw [hs, links_eq_of_signos_eq (h.others f (fun hm => hfl (List.mem_cons_of_mem _ hm)) fun he => hne
      (Option.some.inj he).symm)]
    exact hlink
  · intro m hm hf
    have hne : m ≠ n := fun he => hm (he ▸ List.mem_cons_self ..)
    exact h.others m (fun hml => hm (List.mem_cons_of_mem _ hml)) fun he => hne (Option.some.inj he).symm
  · rw [h.header, if_neg (fun he => nomatch he.1), if_neg]
    simp [hb]

/-- The lists after a node was taken off. -/
private theorem takeOff_lists {frm ptr : Option SignoPtr} {n : SignoPtr} {l free : List SignoPtr}
    (hl : SList k.links ptr (n :: l)) (hfree : SList k.links k.signoFreeList free) (hn : n ∉ free)
    (hfrm : ∀ f, frm = some f → f ∉ n :: l ∧ f ∉ free ∧ k.links f = ptr) :
    SList (k.takeOff c frm n).links (k.links n) l ∧
      SList (k.takeOff c frm n).links (k.takeOff c frm n).signoFreeList (n :: free) ∧
      ∀ f, frm = some f → (k.takeOff c frm n).links f = k.links n := by
  have hnl : n ∉ l := (List.nodup_cons.1 hl.nodup).1
  cases frm with
  | none =>
    rw [takeOff_links, takeOff_free]
    exact ⟨hl.2.update hnl, hfree.push hn, nofun⟩
  | some f =>
    obtain ⟨hf, hff, -⟩ := hfrm f rfl
    have hfn : f ≠ n := fun he => hf (he ▸ List.mem_cons_self ..)
    rw [takeOff_links_some, takeOff_free]
    refine ⟨(hl.2.update fun hm => hf (List.mem_cons_of_mem _ hm)).update hnl, (hfree.update hff).push hn, ?_⟩
    intro f' hf'
    obtain rfl := Option.some.inj hf'
    rw [Function.update_of_ne hfn, Function.update_self]

/-- What the scan of the rest says about the whole, once the first node was taken off and thrown away. -/
private theorem Scanned.discard {frm ptr : Option SignoPtr} {n : SignoPtr} {l free : List SignoPtr} {s : Scan}
    {signo : Nat} (hl : SList k.links ptr (n :: l)) (hsig : (k.signos n).signal = some signo)
    (hb : k.nodeBlocked c n = false) (hi : k.nodeIgnored c n = true)
    (h : Scanned (k.takeOff c frm n) c frm l (n :: free) s) :
    Scanned k c frm (n :: l) free { s with discarded := signo :: s.discarded } := by
  have hnl : n ∉ l := (List.nodup_cons.1 hl.nodup).1
  have htests : (k.takeOff c frm n).sifted c l = k.sifted c l := by
    rw [sifted, sifted, (takeOff_tests k c frm n).1, (takeOff_tests k c frm n).2]
  have hsignal : ∀ m, ((k.takeOff c frm n).signos m).signal = (k.signos m).signal := fun m => by
    rw [SignoNode.signal, SignoNode.signal, takeOff_signo]
  have hs : k.sifted c (n :: l) = { k.sifted c l with discarded := n :: (k.sifted c l).discarded } :=
    sift_ignored hb hi
  obtain ⟨h1, h2, h3, h4, h5, h6, h7, h8⟩ := h
  rw [htests] at h1 h2 h3 h4 h5
  refine ⟨?_, ?_, ?_, ?_, ?_, ?_, ?_, ?_⟩
  · rw [hs]; simpa only [hsignal] using h1
  · rw [hs, List.map_cons, List.map_cons, hsig, ← h2]; simp only [hsignal]
  · rw [hs]; exact h3
  · rw [hs]; simpa [Sifted.removed, List.append_assoc] using h4
  · rw [hs]; exact h5
  · intro m hm hf
    have hne : m ≠ n := fun he => hm (he ▸ List.mem_cons_self ..)
    rw [h6 m (fun hml => hm (List.mem_cons_of_mem _ hml)) hf, takeOff_signos_of_ne hne hf]
  · intro m; rw [h7, takeOff_signo]
  · rw [h8, takeOff_header]
    cases frm with
    | none => simp [hb]
    | some f => simp

/-- The scan stops at the first node that is delivered. -/
private theorem Scanned.deliver {frm ptr : Option SignoPtr} {n : SignoPtr} {l free : List SignoPtr} {signo : Nat}
    (hl : SList k.links ptr (n :: l)) (hfree : SList k.links k.signoFreeList free) (hn : n ∉ free)
    (hfrm : ∀ f, frm = some f → f ∉ n :: l ∧ f ∉ free ∧ k.links f = ptr) (hsig : (k.signos n).signal = some signo)
    (hb : k.nodeBlocked c n = false) (hi : k.nodeIgnored c n = false) :
    Scanned k c frm (n :: l) free ⟨k.takeOff c frm n, [], some signo⟩ := by
  have hs : k.sifted c (n :: l) = ⟨l, [], some n⟩ := sift_found hb hi
  obtain ⟨hkept, hfree', hprev⟩ := takeOff_lists (c := c) hl hfree hn hfrm
  have hhead : k.links n = l.head? := hl.2.head_eq
  refine ⟨?_, ?_, ?_, ?_, ?_, ?_, ?_, ?_⟩
  · rw [hs, Option.map_some, hsig, Option.map_some]
  · rw [hs]; rfl
  · rw [hs]; exact hhead ▸ hkept
  · rw [hs]; exact hfree'
  · intro f hf; rw [hs, hprev f hf, hhead]
  · intro m hm hf
    exact takeOff_signos_of_ne (fun he => hm (he ▸ List.mem_cons_self ..)) hf
  · exact takeOff_signo k c frm n
  · rw [takeOff_header]
    cases frm with
    | none => simp [hb]
    | some f => simp

private theorem scan_blocked {fuel : Nat} {frm : Option SignoPtr} {n : SignoPtr} {signo : Nat}
    (hsig : (k.signos n).signal = some signo) (hb : (k.envs c).blocked signo = true) :
    scan c (fuel + 1) k frm (some n) = scan c fuel k (some n) (k.links n) := by
  rw [scan, hsig, Option.bind_some, if_pos hb]
  rfl

private theorem takeOff_ignored (frm : Option SignoPtr) (n : SignoPtr) (signo : Nat) :
    ((k.takeOff c frm n).envs c).ignored signo = (k.envs c).ignored signo := by
  rw [ignored_congr (takeOff_field Env.sighandlerTable (fun _ _ => rfl) frm n c)]

private theorem scan_ignored {fuel : Nat} {frm : Option SignoPtr} {n : SignoPtr} {signo : Nat}
    (hsig : (k.signos n).signal = some signo) (hb : (k.envs c).blocked signo = false)
    (hi : (k.envs c).ignored signo = true) :
    scan c (fuel + 1) k frm (some n) = (scan c fuel (k.takeOff c frm n) frm (k.links n)).map fun s =>
      { s with discarded := signo :: s.discarded } := by
  rw [scan, hsig, Option.bind_some, if_neg (by rw [hb]; exact nofun)]
  exact if_pos ((takeOff_ignored frm n signo).trans hi)

private theorem scan_found {fuel : Nat} {frm : Option SignoPtr} {n : SignoPtr} {signo : Nat}
    (hsig : (k.signos n).signal = some signo) (hb : (k.envs c).blocked signo = false)
    (hi : (k.envs c).ignored signo = false) :
    scan c (fuel + 1) k frm (some n) = some ⟨k.takeOff c frm n, [], some signo⟩ := by
  rw [scan, hsig, Option.bind_some, if_neg (by rw [hb]; exact nofun)]
  refine if_neg fun h => ?_
  have hi' := (takeOff_ignored (k := k) (c := c) frm n signo).trans hi
  exact Bool.noConfusion (hi'.symm.trans h)

/-- The loop sifts the list; it ends if the number that it would deliver is that of a signal. -/
theorem scan_spec {fuel : Nat} {frm ptr : Option SignoPtr} {l free : List SignoPtr} (hl : SList k.links ptr l)
    (hfree : SList k.links k.signoFreeList free) (hdisj : ∀ n ∈ l, n ∉ free)
    (hfrm : ∀ f, frm = some f → f ∉ l ∧ f ∉ free ∧ k.links f = ptr) :
    (∀ s, scan c fuel k frm ptr = some s → Scanned k c frm l free s) ∧
      ((∀ n, (k.sifted c l).found = some n → (k.signos n).signal.isSome) → l.length < fuel →
        ∃ s, scan c fuel k frm ptr = some s) := by
  -- induction on the list; a node that is thrown away moves to the free list and the loop goes on behind it
  induction l generalizing k fuel frm ptr free with
  | nil =>
    obtain rfl : ptr = none := hl
    cases fuel with
    | zero => exact ⟨nofun, fun _ h => absurd h (Nat.not_lt_zero _)⟩
    | succ fuel =>
      refine ⟨fun s hs => ?_, fun _ _ => ⟨_, rfl⟩⟩
      obtain rfl := Option.some.inj hs
      refine ⟨rfl, rfl, rfl, hfree, ?_, fun _ _ _ => rfl, fun _ => rfl, by simp⟩
      intro f hf
      exact (hfrm f hf).2.2
  | cons n l ih =>
    obtain rfl : ptr = some n := hl.1
    have hnl : n ∉ l := (List.nodup_cons.1 hl.nodup).1
    have hnf : n ∉ free := hdisj n (List.mem_cons_self ..)
    have hlf : ∀ m ∈ l, m ∉ free := fun m hm => hdisj m (List.mem_cons_of_mem _ hm)
    cases fuel with
    | zero => exact ⟨nofun, fun _ h => absurd h (Nat.not_lt_zero _)⟩
    | succ fuel =>
      cases hsig : (k.signos n).signal with
      | none =>
        refine ⟨fun s hs => ?_, fun hall => ?_⟩
        · simp [scan, hsig] at hs
        · have hfound : (k.sifted c (n :: l)).found = some n := by
            rw [sifted, sift_found (by simp [nodeBlocked, hsig]) (by simp [nodeIgnored, hsig])]
          have hsome := hall n hfound
          rw [hsig] at hsome
          cases hsome
      | some signo =>
        have hblocked : k.nodeBlocked c n = (k.envs c).blocked signo := by simp [nodeBlocked, hsig]
        have hignored : k.nodeIgnored c n = (k.envs c).ignored signo := by simp [nodeIgnored, hsig]
        cases hb : (k.envs c).blocked signo with
        | true =>
          rw [scan_blocked hsig hb]
          have ih := @ih k fuel (some n) _ _ hl.2 hfree hlf (by
            intro f hf
            obtain rfl := Option.some.inj hf
            exact ⟨hnl, hnf, rfl⟩)
          refine ⟨fun s hs => ?_, fun hall hlen => ?_⟩
          · exact (ih.1 s hs).skip (hblocked.trans hb) fun f hf => ⟨(hfrm f hf).1, (hfrm f hf).2.2⟩
          · rw [sifted, sift_blocked (hblocked.trans hb)] at hall
            exact ih.2 hall (Nat.lt_of_succ_lt_succ hlen)
        | false =>
          cases hi : (k.envs c).ignored signo with
          | true =>
            rw [scan_ignored hsig hb hi]
            obtain ⟨hl', hfree', hprev⟩ := takeOff_lists (c := c) hl hfree hnf hfrm
            have ih := @ih (k.takeOff c frm n) fuel frm _ _ hl' hfree' (by
              intro m hm hmf
              rcases List.mem_cons.1 hmf with rfl | hmf
              · exact hnl hm
              · exact hlf m hm hmf) (by
              intro f hf
              obtain ⟨hfl, hff, -⟩ := hfrm f hf
              refine ⟨fun hm => hfl (List.mem_cons_of_mem _ hm), fun hm => ?_, hprev f hf⟩
              rcases List.mem_cons.1 hm with rfl | hm
              · exact hfl (List.mem_cons_self ..)
              · exact hff hm)
            refine ⟨fun s hs => ?_, fun hall hlen => ?_⟩
            · obtain ⟨s', hs', rfl⟩ := Option.map_eq_some_iff.1 hs
              exact (ih.1 s' hs').discard hl hsig (hblocked.trans hb) (hignored.trans hi)
            · rw [sifted, sift_ignored (hblocked.trans hb) (hignored.trans hi)] at hall
              have hall' : ∀ m, ((k.takeOff c frm n).sifted c l).found = some m →
                  ((k.takeOff c frm n).signos m).signal.isSome := by
                intro m hm
                rw [sifted, (takeOff_tests k c frm n).1, (takeOff_tests k c frm n).2] at hm
                rw [SignoNode.signal, takeOff_signo]
                exact hall m hm
              obtain ⟨s', hs'⟩ := ih.2 hall' (Nat.lt_of_succ_lt_succ hlen)
              exact ⟨_, by rw [hs']; rfl⟩
          | false =>
            rw [scan_found hsig hb hi]
            refine ⟨fun s hs => ?_, fun _ _ => ⟨_, rfl⟩⟩
            obtain rfl := Option.some.inj hs
            exact .deliver hl hfree hnf hfrm hsig (hblocked.trans hb) (hignored.trans hi)

/-! ### The pending list of an environment -/

/-- At most `fuel` nodes from the pointer on. -/
def nodesFrom (k : Kern) : Nat → Option SignoPtr → List SignoPtr
  | fuel + 1, some n => n :: k.nodesFrom fuel (k.links n)
  | _, _ => []

/-- The nodes on the pending list of `e`. -/
def pendingOf (k : Kern) (e : EnvPtr) : List SignoPtr := k.nodesFrom MAX_SIG_NUM (k.envs e).signoHeader

private theorem nodesFrom_eq {p : Option SignoPtr} {l : List SignoPtr} (h : SList k.links p l) {fuel : Nat}
    (hf : l.length ≤ fuel) : k.nodesFrom fuel p = l := by
  induction l generalizing p fuel with
  | nil =>
    rw [show p = none from h]
    cases fuel <;> rfl
  | cons n l ih =>
    cases fuel with
    | zero => exact absurd hf (Nat.not_succ_le_zero _)
    | succ fuel => rw [h.1, nodesFrom, ih h.2 (Nat.le_of_succ_le_succ hf)]

/-- A list of nodes has at most `MAX_SIG_NUM` of them. -/
theorem nodes_length {p : Option SignoPtr} {l : List SignoPtr} (h : SList k.links p l) : l.length ≤ MAX_SIG_NUM := by
  have hcard := h.nodup.length_le_card
  rwa [Fintype.card_fin] at hcard

/-- The nodes on the free list. -/
def freeNodes (k : Kern) : List SignoPtr := k.nodesFrom MAX_SIG_NUM k.signoFreeList

theorem freeNodes_eq {l : List SignoPtr} (h : SList k.links k.signoFreeList l) : k.freeNodes = l :=
  nodesFrom_eq h (nodes_length h)

theorem pendingOf_eq {e : EnvPtr} {l : List SignoPtr} (h : SList k.links (k.envs e).signoHeader l) :
    k.pendingOf e = l :=
  nodesFrom_eq h (nodes_length h)

/-- The scan of `l` loses nothing: its first node is blocked, or nothing has to stay. -/
def keepsRest (k : Kern) (c : EnvPtr) (l : List SignoPtr) : Bool :=
  l.head?.all (k.nodeBlocked c) || (k.sifted c l).kept.isEmpty

end Kern

end Mos
