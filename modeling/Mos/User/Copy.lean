import Mos.User.Window

/-!
# Copies to and from a window

`memcpy` goes on byte by byte.  What it has done after some bytes is said for each direction: the bytes of the file that
are in the buffer, or those of the buffer that are in the file.
-/

namespace Mos

open FdSpace (fdVpn dataVpn INDEX2FD fd2num fd2data rounds)

namespace Client

variable {c d e : Client} {n : Fin MAXFD} {nb : Nat} {f : FilePtr} {i : Fin MAXOPEN} {m : Nat} {buf va va' dst src : Word}
  {len j pos a : Nat}

/-- One byte is copied. -/
def copied (c : Client) (dst src : Word) : Option Client :=
  (c.access src).bind fun c => (c.load src).bind fun x => (c.access dst).bind fun c =>
    (c.store dst x).map fun c => { c with touched := dst :: src :: c.touched }

private theorem copied_some (h : c.copied dst src = some e) : ∃ c₁ x c₂ c₃, c.access src = some c₁ ∧ c₁.load src = some x ∧
    c₁.access dst = some c₂ ∧ c₂.store dst x = some c₃ ∧ e = { c₃ with touched := dst :: src :: c₃.touched } := by
  obtain ⟨c₁, h₁, h⟩ := Option.bind_eq_some_iff.1 h
  obtain ⟨x, hx, h⟩ := Option.bind_eq_some_iff.1 h
  obtain ⟨c₂, h₂, h⟩ := Option.bind_eq_some_iff.1 h
  obtain ⟨c₃, h₃, h⟩ := Option.map_eq_some_iff.1 h
  exact ⟨c₁, x, c₂, c₃, h₁, hx, h₂, h₃, h.symm⟩

private theorem copied_of {c₁ c₂ c₃ : Client} {x : Byte} (h₁ : c.access src = some c₁) (hx : c₁.load src = some x)
    (h₂ : c₁.access dst = some c₂) (h₃ : c₂.store dst x = some c₃) :
    c.copied dst src = some { c₃ with touched := dst :: src :: c₃.touched } := by
  unfold copied
  rw [h₁, Option.bind_some, hx, Option.bind_some, h₂, Option.bind_some, h₃]
  rfl

/-! ### Buffers -/

/-- What an access to a place in the buffer does to the pages of the program's own. -/
private theorem access_own (hold : ∀ p, c.map.page (VPN va) = some p → ∃ a, p = .own a) (h : c.access va = some d) :
    Apart c d ∧ d.touched = c.touched ∧ (∃ a, d.map.page (VPN va) = some (.own a)) ∧
      (∀ v, v ≠ VPN va → d.map.page v = c.map.page v) ∧
      (∀ v a, c.map.page v = some (.own a) → d.map.page v = some (.own a) ∧ d.own a = c.own a) ∧
      ∀ a, d.map.page (VPN va) = some (.own a) → c.map.page (VPN va) = some (.own a) ∨
        c.map.page (VPN va) = none ∧ a = c.map.next ∧ d.own a = fun _ => 0 := by
  rcases access_cases h with ⟨hsome, rfl⟩ | ⟨hnone, hap, hmap, hown, ht⟩
  · obtain ⟨p, hp⟩ := Option.isSome_iff_exists.1 hsome
    obtain ⟨a, rfl⟩ := hold p hp
    exact ⟨.refl d, rfl, ⟨a, hp⟩, fun _ _ => rfl, fun _ _ h => ⟨h, rfl⟩, fun _ => .inl⟩
  · have hnew : d.map.page (VPN va) = some (.own c.map.next) := by
      rw [hmap]
      exact Function.update_self ..
    have hother (v : Vpn) (hv : v ≠ VPN va) : d.map.page v = c.map.page v := by
      rw [hmap]
      exact Function.update_of_ne hv ..
    refine ⟨hap, ht, ⟨_, hnew⟩, hother, fun v a ha => ?_, fun a ha => ?_⟩
    · have hv : v ≠ VPN va := fun heq => by
        rw [heq, hnone] at ha
        cases ha
      have hne : a ≠ c.map.next := Nat.ne_of_lt (c.map.known v a ha)
      exact ⟨(hother v hv).trans ha, by rw [hown, Function.update_of_ne hne]⟩
    · rw [hnew] at ha
      cases ha
      exact .inr ⟨hnone, rfl, by rw [hown, Function.update_self]⟩

private theorem Buffer.access (hb : c.Buffer n buf len) (hj : j < len) (h : c.access (buf + BitVec.ofNat 32 j) = some d) :
    d.Buffer n buf len := by
  obtain ⟨-, -, -, hother, hsame, hnew⟩ := access_own (hb.own j hj) h
  have hback (k : Nat) (a : Nat) (ha : d.map.page (VPN (buf + BitVec.ofNat 32 k)) = some (.own a)) :
      c.map.page (VPN (buf + BitVec.ofNat 32 k)) = some (.own a) ∨
        VPN (buf + BitVec.ofNat 32 k) = VPN (buf + BitVec.ofNat 32 j) ∧ a = c.map.next := by
    by_cases hv : VPN (buf + BitVec.ofNat 32 k) = VPN (buf + BitVec.ofNat 32 j)
    · rw [hv] at ha ⊢
      exact (hnew a ha).imp id fun h => ⟨rfl, h.2.1⟩
    · rw [hother _ hv] at ha
      exact .inl ha
  refine ⟨hb.fits, hb.outside, fun k hk p hp => ?_, fun k hk k' hk' a ha ha' => ?_⟩
  · by_cases hv : VPN (buf + BitVec.ofNat 32 k) = VPN (buf + BitVec.ofNat 32 j)
    · obtain ⟨a, ha⟩ : ∃ a, d.map.page (VPN (buf + BitVec.ofNat 32 j)) = some (.own a) := (access_own (hb.own j hj) h).2.2.1
      rw [hv, ha] at hp
      exact ⟨a, (Option.some.inj hp).symm⟩
    · rw [hother _ hv] at hp
      exact hb.own k hk p hp
  · rcases hback k a ha with hc | ⟨hv, rfl⟩
    · rcases hback k' a ha' with hc' | ⟨-, rfl⟩
      · exact hb.alone k hk k' hk' a hc hc'
      · exact absurd (c.map.known _ _ hc) (Nat.lt_irrefl _)
    · rcases hback k' _ ha' with hc' | ⟨hv', -⟩
      · exact absurd (c.map.known _ _ hc') (Nat.lt_irrefl _)
      · exact hv.trans hv'.symm

private theorem Buffer.congr (hb : c.Buffer n buf len) (hmap : d.map = c.map) : d.Buffer n buf len :=
  ⟨hb.fits, hb.outside, by rw [hmap]; exact hb.own, by rw [hmap]; exact hb.alone⟩

/-- An access leaves the bytes of the buffer as they are. -/
private theorem Buffer.peek_access (hb : c.Buffer n buf len) (hj : j < len)
    (h : c.access (buf + BitVec.ofNat 32 j) = some d)
    {k : Nat} (hk : k < len) : d.peek (buf + BitVec.ofNat 32 k) = c.peek (buf + BitVec.ofNat 32 k) := by
  obtain ⟨-, -, ⟨a, ha⟩, hother, hsame, hnew⟩ := access_own (hb.own j hj) h
  unfold peek
  cases hp : c.map.page (VPN (buf + BitVec.ofNat 32 k)) with
  | some p =>
    obtain ⟨b, rfl⟩ := hb.own k hk p hp
    obtain ⟨hp', hown⟩ := hsame _ b hp
    rw [hp', load_own hp', load_own hp, hown]
  | none =>
    by_cases hv : VPN (buf + BitVec.ofNat 32 k) = VPN (buf + BitVec.ofNat 32 j)
    · have hpk : d.map.page (VPN (buf + BitVec.ofNat 32 k)) = some (.own a) := by rw [hv, ha]
      rw [hpk, load_own hpk]
      rcases hnew a ha with hold | ⟨-, -, hzero⟩
      · rw [hv, hold] at hp
        cases hp
      · rw [hzero]
        exact byteOf_zero _
    · simp [hother _ hv, hp]

private theorem load_of_peek (hp : c.map.page (VPN va) = some (.own a)) : c.load va = some (c.peek va) := by
  unfold peek
  rw [hp, load_own hp]
  rfl

private theorem store_apart {x : Byte} (hp : c.map.page (VPN va) = some (.own a)) (h : c.store va x = some d) :
    Apart c d ∧ d.map = c.map ∧ d.touched = c.touched := by
  obtain ⟨-, h⟩ := Option.ite_none_left_eq_some.1 h
  rw [hp, Option.bind_some] at h
  cases h
  exact ⟨⟨⟨c.serv.fs.mem, rfl⟩, rfl, fun _ _ => Iff.rfl⟩, rfl, rfl⟩

/-! ### From the window to a buffer -/

/-- The addresses that a copy between the buffer and the window gets at. -/
def Inside (n : Fin MAXFD) (pos : Nat) (buf : Word) (len : Nat) (va : Word) : Prop :=
  (∃ k, k < len ∧ va = buf + BitVec.ofNat 32 k) ∨ ∃ k, k < len ∧ va = place n (pos + k)

/-- From `c`, `j` bytes of the file have come to the buffer. -/
structure Fetched (c : Client) (nb : Nat) (f : FilePtr) (n : Fin MAXFD) (i : Fin MAXOPEN) (m pos : Nat) (buf : Word)
    (len j : Nat) (d : Client) : Prop where
  window : d.Window nb f n i m
  apart : Apart c d
  buffer : d.Buffer n buf len
  bytes : ∀ k, k < j → d.load (buf + BitVec.ofNat 32 k) = some (c.serv.fs.view.byteAt f (pos + k))
  own : ∀ k, k < j → ∃ a, d.map.page (VPN (buf + BitVec.ofNat 32 k)) = some (.own a)
  touched : ∀ va ∈ d.touched, va ∈ c.touched ∨ Inside n pos buf len va

private theorem Fetched.start (hw : c.Window nb f n i m) (hb : c.Buffer n buf len) : Fetched c nb f n i m pos buf len 0 c :=
  ⟨hw, .refl c, hb, nofun, nofun, fun _ => .inl⟩

private theorem Fetched.step (h : Fetched c nb f n i m pos buf len j d) (hj : j < len) (hpos : (pos + j) / 4096 < m)
    (hlt : pos + j < 2 ^ 22) (he : d.copied (buf + BitVec.ofNat 32 j) (place n (pos + j)) = some e) :
    Fetched c nb f n i m pos buf len (j + 1) e := by
  obtain ⟨c₁, x, c₂, c₃, h₁, hx, h₂, h₃, rfl⟩ := copied_some he
  obtain rfl : c₁ = d := by
    rw [h.window.access hpos hlt] at h₁
    exact (Option.some.inj h₁).symm
  obtain rfl : c.serv.fs.view.byteAt f (pos + j) = x := by
    rw [h.window.load hpos hlt, h.apart.view] at hx
    exact Option.some.inj hx
  obtain ⟨hap, ht, ⟨a, ha⟩, hother, hsame, -⟩ := access_own (h.buffer.own j hj) h₂
  have hb := h.buffer.access hj h₂
  obtain ⟨hap', hmap, ht'⟩ := store_apart ha h₃
  have hstep : Apart c₁ { c₃ with touched := (buf + BitVec.ofNat 32 j) :: place n (pos + j) :: c₃.touched } :=
    hap.trans ⟨hap'.serv, hap'.rest, hap'.sent⟩
  refine ⟨hstep.window h.window, h.apart.trans hstep, hb.congr hmap, fun k hk => ?_, fun k hk => ?_, fun va hva => ?_⟩
  · -- a byte that was there before stays there
    have hk' : k < len := by omega
    have hfinal (a' : Nat) (hp : c₂.map.page (VPN (buf + BitVec.ofNat 32 k)) = some (.own a')) :=
      load_store_own ha hp (fun heq => hb.alone k hk' j hj a' hp (heq ▸ ha)) h₃
    by_cases hkj : k = j
    · subst hkj
      exact (hfinal a ha).trans (if_pos rfl)
    · obtain ⟨a', hp⟩ := h.own k (by omega)
      obtain ⟨hp', hcont⟩ := hsame _ a' hp
      refine (hfinal a' hp').trans ?_
      rw [if_neg fun heq => hkj ?_, load_own hp', hcont, ← load_own hp]
      · exact h.bytes k (by omega)
      · have hval := congrArg BitVec.toNat heq
        rw [hb.toNat hk', hb.toNat hj] at hval
        omega
  · show ∃ a, c₃.map.page _ = _
    rw [hmap]
    by_cases hkj : k = j
    · exact ⟨a, hkj ▸ ha⟩
    · obtain ⟨a', hp⟩ := h.own k (by omega)
      exact ⟨a', (hsame _ a' hp).1⟩
  · rcases List.mem_cons.1 hva with rfl | hva
    · exact .inr (.inl ⟨j, hj, rfl⟩)
    rcases List.mem_cons.1 hva with rfl | hva
    · exact .inr (.inr ⟨j, hj, rfl⟩)
    · rw [ht', ht] at hva
      exact h.touched va hva

private theorem Fetched.ends (h : Fetched c nb f n i m pos buf len j d) (hj : j < len) (hpos : (pos + j) / 4096 < m)
    (hlt : pos + j < 2 ^ 22) (hp : d.Present buf len) :
    ∃ e, d.copied (buf + BitVec.ofNat 32 j) (place n (pos + j)) = some e ∧ e.Present buf len := by
  obtain ⟨hsome, hlow⟩ := hp j hj
  obtain ⟨p, hpage⟩ := Option.isSome_iff_exists.1 hsome
  obtain ⟨a, rfl⟩ := h.buffer.own j hj p hpage
  have hulim : ¬ULIM ≤ buf + BitVec.ofNat 32 j := fun hge => hlow (BitVec.le_trans (by decide) hge)
  exact ⟨_, copied_of (h.window.access hpos hlt) (h.window.load hpos hlt) (access_present hsome hulim)
    (store_own hpage hlow), hp⟩

/-! ### From a buffer to the window -/

/-- From `c`, `j` bytes of the buffer have come to the file. -/
structure Stored (c : Client) (nb : Nat) (f : FilePtr) (n : Fin MAXFD) (i : Fin MAXOPEN) (m pos : Nat) (buf : Word)
    (len j : Nat) (d : Client) : Prop where
  window : d.Window nb f n i m
  ff : d.serv.ff = c.serv.ff
  rest : d.rest = c.rest
  size : d.serv.fs.view.size f = c.serv.fs.view.size f
  buffer : d.Buffer n buf len
  peek : ∀ k, k < len → d.peek (buf + BitVec.ofNat 32 k) = c.peek (buf + BitVec.ofNat 32 k)
  bytes : ∀ p, d.serv.fs.view.byteAt f p = if pos ≤ p ∧ p < pos + j then c.peek (buf + BitVec.ofNat 32 (p - pos))
    else c.serv.fs.view.byteAt f p
  touched : ∀ va ∈ d.touched, va ∈ c.touched ∨ Inside n pos buf len va

private theorem Stored.start (hw : c.Window nb f n i m) (hb : c.Buffer n buf len) : Stored c nb f n i m pos buf len 0 c :=
  ⟨hw, rfl, rfl, rfl, hb, fun _ _ => rfl, fun p => (if_neg (by omega)).symm, fun _ => .inl⟩

private theorem Stored.step (h : Stored c nb f n i m pos buf len j d) (hj : j < len) (hpos : (pos + j) / 4096 < m)
    (hlt : pos + j < 2 ^ 22) (he : d.copied (place n (pos + j)) (buf + BitVec.ofNat 32 j) = some e) :
    Stored c nb f n i m pos buf len (j + 1) e := by
  obtain ⟨c₁, x, c₂, c₃, h₁, hx, h₂, h₃, rfl⟩ := copied_some he
  obtain ⟨hap, ht, ⟨a, ha⟩, -⟩ := access_own (h.buffer.own j hj) h₁
  have hw := hap.window h.window
  have hb := h.buffer.access hj h₁
  obtain rfl : c₂ = c₁ := by
    rw [hw.access hpos hlt] at h₂
    exact (Option.some.inj h₂).symm
  obtain rfl : c.peek (buf + BitVec.ofNat 32 j) = x := by
    rw [load_of_peek ha, h.buffer.peek_access hj h₁ hj, h.peek j hj] at hx
    exact Option.some.inj hx
  obtain ⟨fs, hstore, hw', hsize, hbytes⟩ := hw.store hpos hlt (c.peek (buf + BitVec.ofNat 32 j))
  rw [hstore] at h₃
  cases h₃
  refine ⟨?_, hap.ff.trans h.ff, hap.rest.trans h.rest, ?_, hb.congr rfl, fun k hk => ?_, fun p => ?_, fun va hva => ?_⟩
  · exact hw'.keep (.of_eq rfl rfl rfl fun _ => Iff.rfl) hw'.serves (fun _ _ => rfl) (fun _ hb => hb) (fun _ _ _ => rfl)
      (Nat.le_refl m)
  · exact hsize.trans ((congrArg (fun v => v.size f) hap.view).trans h.size)
  · have hpeek : c₂.peek (buf + BitVec.ofNat 32 k) = c.peek (buf + BitVec.ofNat 32 k) :=
      (h.buffer.peek_access hj h₁ hk).trans (h.peek k hk)
    rw [← hpeek]
    unfold Client.peek
    cases hp : c₂.map.page (VPN (buf + BitVec.ofNat 32 k)) with
    | none => simp [setServ, hp]
    | some p =>
      obtain ⟨b, rfl⟩ := hb.own k hk p hp
      rw [load_own (c := { c₂.setServ { c₂.serv with fs := fs } with touched := _ }) hp, load_own hp]
      simp [setServ, hp]
  · refine (hbytes p).trans ?_
    rw [hap.view, h.bytes p]
    by_cases hpj : p = pos + j
    · rw [if_pos hpj, if_pos (by omega), hpj, Nat.add_sub_cancel_left]
    · by_cases hin : pos ≤ p ∧ p < pos + j
      · rw [if_neg hpj, if_pos hin, if_pos (by omega)]
      · rw [if_neg hpj, if_neg hin, if_neg (by omega)]
  · rcases List.mem_cons.1 hva with rfl | hva
    · exact .inr (.inr ⟨j, hj, rfl⟩)
    rcases List.mem_cons.1 hva with rfl | hva
    · exact .inr (.inl ⟨j, hj, rfl⟩)
    · exact h.touched va (ht ▸ hva)

private theorem Stored.ends (h : Stored c nb f n i m pos buf len j d) (hj : j < len) (hpos : (pos + j) / 4096 < m)
    (hlt : pos + j < 2 ^ 22) (hp : d.Present buf len) :
    ∃ e, d.copied (place n (pos + j)) (buf + BitVec.ofNat 32 j) = some e ∧ e.Present buf len := by
  obtain ⟨hsome, hlow⟩ := hp j hj
  obtain ⟨p, hpage⟩ := Option.isSome_iff_exists.1 hsome
  obtain ⟨a, rfl⟩ := h.buffer.own j hj p hpage
  have hulim : ¬ULIM ≤ buf + BitVec.ofNat 32 j := fun hge => hlow (BitVec.le_trans (by decide) hge)
  obtain ⟨fs, hstore, -⟩ := h.window.store hpos hlt (d.peek (buf + BitVec.ofNat 32 j))
  exact ⟨_, copied_of (access_present hsome hulim) (load_of_peek hpage) (h.window.access hpos hlt) hstore, hp⟩

end Client

namespace UserFile

open Proc Client

variable {c d : Client} {n : Fin MAXFD} {nb : Nat} {f : FilePtr} {i : Fin MAXOPEN} {m pos len : Nat} {buf nw dst src : Word}
  {l : List Asked} {q : Except Word Unit}

private theorem copyByte_eq (dst src : Word) : copyByte dst src = .update fun c => c.copied dst src := by
  funext c
  show copyByte dst src c = (c.copied dst src).map _
  unfold copied
  cases h₁ : c.access src with
  | none => simp [copyByte, lb, Bind.bind, Proc.update, h₁]
  | some c₁ =>
  cases hx : c₁.load src with
  | none => simp [copyByte, lb, Bind.bind, Proc.update, Proc.read, h₁, hx]
  | some x =>
  cases h₂ : c₁.access dst with
  | none => simp [copyByte, lb, sb, Bind.bind, Proc.update, Proc.read, h₁, hx, h₂]
  | some c₂ =>
  cases h₃ : c₂.store dst x with
  | none => simp [copyByte, lb, sb, Bind.bind, Proc.update, Proc.read, h₁, hx, h₂, h₃]
  | some c₃ => simp [copyByte, lb, sb, Bind.bind, Proc.update, Proc.read, h₁, hx, h₂, h₃]

private theorem place_add (n : Fin MAXFD) (pos j : Nat) : place n pos + BitVec.ofNat 32 j = place n (pos + j) := by
  unfold place
  rw [BitVec.add_assoc, ← BitVec.ofNat_add]

private theorem copyLen_eq (hn : nw.toNat = len) (h : dst.toNat + len < 2 ^ 32) : copyLen dst nw = len := by
  unfold copyLen
  rw [if_pos, hn]
  rw [BitVec.le_def, BitVec.toNat_add]
  omega

private theorem memcpy_eq (hlen : copyLen dst nw = len) :
    memcpy dst src nw = .each (fun j => .update fun c => c.copied (dst + BitVec.ofNat 32 j) (src + BitVec.ofNat 32 j))
      (List.range' 0 len) := by
  unfold memcpy
  rw [hlen, List.range_eq_range']
  exact congrArg (fun g => each g _) (funext fun j => copyByte_eq _ _)

/-- A copy from the window to the buffer. -/
theorem memcpy_fetched (hw : c.Window nb f n i m) (hb : c.Buffer n buf len) (hn : nw.toNat = len)
    (hpos : pos + len ≤ m * 4096) (hlt : pos + len ≤ 2 ^ 22) :
    (∀ l q d, memcpy buf (place n pos) nw c = some (l, q, d) →
      l = [] ∧ q = .ok () ∧ Fetched c nb f n i m pos buf len len d) ∧
    (c.Present buf len → ∃ d, memcpy buf (place n pos) nw c = some ([], .ok (), d)) := by
  rw [memcpy_eq (copyLen_eq hn hb.fits)]
  simp only [place_add]
  constructor
  · intro l q d h
    obtain ⟨hl, hq, hd⟩ := each_update (J := Fetched c nb f n i m pos buf len) (n := len) (fun j s t hj hs ht =>
      hs.step hj (by omega) (by omega) ht) (by omega) (.start hw hb) h
    rw [Nat.zero_add] at hd
    exact ⟨hl, hq, hd⟩
  · intro hp
    obtain ⟨d, hd, -⟩ := each_update_ends (J := fun j s => Fetched c nb f n i m pos buf len j s ∧ s.Present buf len)
      (n := len) (fun j s hj hs => by
        obtain ⟨t, ht, hpt⟩ := hs.1.ends hj (by omega) (by omega) hs.2
        exact ⟨t, ht, hs.1.step hj (by omega) (by omega) ht, hpt⟩) (k := 0) (m := len) (by omega) ⟨.start hw hb, hp⟩
    exact ⟨d, hd⟩

/-- A copy from the buffer to the window. -/
theorem memcpy_stored (hw : c.Window nb f n i m) (hb : c.Buffer n buf len) (hn : nw.toNat = len)
    (hpos : pos + len ≤ m * 4096) (hlt : pos + len ≤ 2 ^ 22) :
    (∀ l q d, memcpy (place n pos) buf nw c = some (l, q, d) →
      l = [] ∧ q = .ok () ∧ Stored c nb f n i m pos buf len len d) ∧
    (c.Present buf len → ∃ d, memcpy (place n pos) buf nw c = some ([], .ok (), d)) := by
  have hfits : (place n pos).toNat + len < 2 ^ 32 := by
    have hnlt : n.val < 32 := n.isLt
    unfold place
    rw [BitVec.toNat_add, FdSpace.fd2data_toNat (fdnum_toNat n), BitVec.toNat_ofNat]
    omega
  rw [memcpy_eq (copyLen_eq hn hfits)]
  simp only [place_add]
  constructor
  · intro l q d h
    obtain ⟨hl, hq, hd⟩ := each_update (J := Stored c nb f n i m pos buf len) (n := len) (fun j s t hj hs ht =>
      hs.step hj (by omega) (by omega) ht) (by omega) (.start hw hb) h
    rw [Nat.zero_add] at hd
    exact ⟨hl, hq, hd⟩
  · intro hp
    obtain ⟨d, hd, -⟩ := each_update_ends (J := fun j s => Stored c nb f n i m pos buf len j s ∧ s.Present buf len)
      (n := len) (fun j s hj hs => by
        obtain ⟨t, ht, hpt⟩ := hs.1.ends hj (by omega) (by omega) hs.2
        exact ⟨t, ht, hs.1.step hj (by omega) (by omega) ht, hpt⟩) (k := 0) (m := len) (by omega) ⟨.start hw hb, hp⟩
    exact ⟨d, hd⟩

end UserFile

end Mos
