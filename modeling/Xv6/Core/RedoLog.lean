/-
Redo logging over atomic single-block writes, for any address type and any block type.

A disk is a function from addresses to contents. A program that only writes is its list of writes; a crash keeps a
prefix of that list (`applyWrites`, `List.take`). `crashes` starts a recovery program over and over, each run cut short
at some point.

The log: a header block and numbered slots (`Geometry`). A header block reads as the list of home addresses whose new
contents sit in the slots. `logical` is the disk a completed recovery would leave: a home address listed in the header
has its slot's contents, every other address its own.

Results:
- `recover_cut`: any prefix of recovery's writes keeps the header well formed and leaves `logical` as it was outside
  the log;
- `crashes_logical`: so does any number of interrupted recoveries;
- `recover_done`: a completed recovery clears the header and makes the disk equal to `logical` outside the log;
- `commit_cut`: a prefix of the commit protocol leaves `logical` at the old contents as long as it has no header
  write, and at the new contents from the first header write on.
The header write is the linearisation point; nothing else changes `logical`.
-/
import Mathlib.Tactic

namespace Xv6.RedoLog

open Function

variable {A V : Type} [DecidableEq A]

/-! ## Writes and crashes -/

/-- the disk after a list of block writes, oldest first -/
def applyWrites (d : A → V) (ws : List (A × V)) : A → V := ws.foldl (fun d w => Function.update d w.1 w.2) d

@[simp] theorem applyWrites_nil (d : A → V) : applyWrites d [] = d := rfl

@[simp] theorem applyWrites_cons (d : A → V) (w : A × V) (ws : List (A × V)) :
    applyWrites d (w :: ws) = applyWrites (update d w.1 w.2) ws := rfl

theorem applyWrites_append (d : A → V) (us ws : List (A × V)) :
    applyWrites d (us ++ ws) = applyWrites (applyWrites d us) ws := by
  simp [applyWrites, List.foldl_append]

theorem applyWrites_other (d : A → V) (ws : List (A × V)) (a : A) (h : ∀ w ∈ ws, w.1 ≠ a) :
    applyWrites d ws a = d a := by
  induction ws generalizing d with
  | nil => rfl
  | cons w ws ih =>
    rw [applyWrites_cons, ih _ (fun w' hw => h w' (List.mem_cons_of_mem w hw))]
    exact update_of_ne (h w List.mem_cons_self).symm _ _

/-- with distinct addresses, every write is found in the result -/
theorem applyWrites_mem (d : A → V) (ws : List (A × V)) (hnd : (ws.map Prod.fst).Nodup) (w : A × V) (hw : w ∈ ws) :
    applyWrites d ws w.1 = w.2 := by
  induction ws generalizing d with
  | nil => simp at hw
  | cons u ws ih =>
    rw [List.map_cons, List.nodup_cons] at hnd
    rw [applyWrites_cons]
    rcases List.mem_cons.1 hw with rfl | hw
    · rw [applyWrites_other _ _ _ ?_]
      · exact update_self _ _ _
      · intro w' hw' he
        exact hnd.1 (by rw [← he]; exact List.mem_map_of_mem hw')
    · exact ih _ hnd.2 hw

/-- a program started once for every entry of `ks` and cut short after that many writes -/
def crashes (prog : (A → V) → List (A × V)) (d : A → V) (ks : List ℕ) : A → V :=
  ks.foldl (fun d k => applyWrites d ((prog d).take k)) d

/-- an invariant of every cut run is an invariant of any number of them -/
theorem crashes_inv (prog : (A → V) → List (A × V)) (I : (A → V) → Prop)
    (hstep : ∀ d, I d → ∀ k, I (applyWrites d ((prog d).take k))) (d : A → V) (ks : List ℕ) (hd : I d) :
    I (crashes prog d ks) := by
  induction ks generalizing d with
  | nil => exact hd
  | cons k ks ih => exact ih _ (hstep d hd k)

/-! ## The log -/

/-- where the log lives and how its header reads: `decode` gives the home addresses in slot order (none if the block
is no header), `clear` empties a header. The first `cap` slots are distinct blocks other than the header. -/
structure Geometry (A V : Type) where
  hdr : A
  slot : ℕ → A
  cap : ℕ
  decode : V → Option (List A)
  clear : V → V
  decode_clear : ∀ v bs, decode v = some bs → decode (clear v) = some []
  slot_inj : ∀ i j, i < cap → j < cap → slot i = slot j → i = j
  slot_ne_hdr : ∀ i, i < cap → slot i ≠ hdr

variable (G : Geometry A V)

/-- an address outside the header and the first `cap` slots -/
def Geometry.Outside (a : A) : Prop := a ≠ G.hdr ∧ ∀ i < G.cap, a ≠ G.slot i

/-- a list of home addresses that fits the log: distinct, outside the log, at most one for each slot -/
structure Geometry.Fits (bs : List A) : Prop where
  nodup : bs.Nodup
  outside : ∀ a ∈ bs, G.Outside a
  len : bs.length ≤ G.cap

/-- a disk whose header reads as a list that fits -/
def Geometry.Valid (d : A → V) : Prop := ∃ bs, G.decode (d G.hdr) = some bs ∧ G.Fits bs

/-- the contents recovery restores when the header lists `bs` -/
def Geometry.overlay (d : A → V) (bs : List A) (a : A) : V :=
  if a ∈ bs then d (G.slot (bs.idxOf a)) else d a

/-- the disk a completed recovery leaves -/
def Geometry.logical (d : A → V) (a : A) : V :=
  match G.decode (d G.hdr) with
  | some bs => G.overlay d bs a
  | none => d a

/-- copy every slot to its home -/
def Geometry.installWrites (d : A → V) (bs : List A) : List (A × V) := bs.mapIdx fun i a => (a, d (G.slot i))

/-- recovery: install what the header lists, then clear the header -/
def Geometry.recoverWrites (d : A → V) : List (A × V) :=
  match G.decode (d G.hdr) with
  | some bs => G.installWrites d bs ++ [(G.hdr, G.clear (d G.hdr))]
  | none => []

variable {G}

theorem Geometry.logical_of_decode {d : A → V} {bs : List A} (h : G.decode (d G.hdr) = some bs) (a : A) :
    G.logical d a = G.overlay d bs a := by
  simp only [Geometry.logical, h]

omit [DecidableEq A] in
theorem Geometry.fst_installWrites (d : A → V) (bs : List A) : (G.installWrites d bs).map Prod.fst = bs := by
  apply List.ext_getElem
  · simp [Geometry.installWrites]
  · intro i h1 h2; simp [Geometry.installWrites, List.getElem_mapIdx]

omit [DecidableEq A] in
theorem Geometry.mem_installWrites {d : A → V} {bs : List A} {w : A × V} (h : w ∈ G.installWrites d bs) :
    w.1 ∈ bs := by
  rw [← Geometry.fst_installWrites (G := G) d bs]
  exact List.mem_map_of_mem h

/-- after the whole installation a listed address holds its slot's contents -/
theorem Geometry.install_done (d : A → V) (bs : List A) (hf : G.Fits bs) (a : A) :
    applyWrites d (G.installWrites d bs) a = G.overlay d bs a := by
  unfold Geometry.overlay
  split_ifs with ha
  · have hi : bs.idxOf a < bs.length := List.idxOf_lt_length_iff.2 ha
    have hw : (a, d (G.slot (bs.idxOf a))) ∈ G.installWrites d bs := by
      apply List.mem_mapIdx.2
      exact ⟨bs.idxOf a, hi, by simp⟩
    exact applyWrites_mem d _ (by rw [Geometry.fst_installWrites]; exact hf.nodup) _ hw
  · exact applyWrites_other _ _ _ (fun w hw he => ha (he ▸ Geometry.mem_installWrites hw))

/-- writes to listed addresses touch neither the header nor the slots, and `overlay` does not read them -/
theorem Geometry.overlay_home_writes (d : A → V) (bs : List A) (hf : G.Fits bs) (ws : List (A × V))
    (hws : ∀ w ∈ ws, w.1 ∈ bs) : applyWrites d ws G.hdr = d G.hdr ∧
      ∀ a, G.overlay (applyWrites d ws) bs a = G.overlay d bs a := by
  refine ⟨applyWrites_other _ _ _ (fun w hw => (hf.outside _ (hws w hw)).1), fun a => ?_⟩
  unfold Geometry.overlay
  split_ifs with ha
  · have hi : bs.idxOf a < G.cap := lt_of_lt_of_le (List.idxOf_lt_length_iff.2 ha) hf.len
    exact applyWrites_other _ _ _ (fun w hw => (hf.outside _ (hws w hw)).2 _ hi)
  · exact applyWrites_other _ _ _ (fun w hw he => ha (he ▸ hws w hw))

/-- clearing the header of a disk where every listed address already holds its slot's contents -/
theorem Geometry.clear_installed (d e : A → V) (bs : List A) (v : V) (hv : G.decode v = some []) (a : A)
    (ha : a ≠ G.hdr) (he : e a = G.overlay d bs a) :
    G.logical (update e G.hdr v) a = G.overlay d bs a := by
  have hdec : G.decode (update e G.hdr v G.hdr) = some [] := by rw [update_self]; exact hv
  rw [Geometry.logical_of_decode hdec]
  simp only [Geometry.overlay, List.not_mem_nil, ite_false, update_of_ne ha]
  exact he

omit [DecidableEq A] in
theorem Geometry.fits_nil : G.Fits [] := ⟨List.nodup_nil, by simp, Nat.zero_le _⟩

/-! ## Recovery -/

/-- **One interrupted recovery.** Any prefix of recovery's writes keeps the header well formed and the logical disk
unchanged outside the header block. -/
theorem recover_cut (d : A → V) (hd : G.Valid d) (k : ℕ) :
    G.Valid (applyWrites d ((G.recoverWrites d).take k)) ∧
      ∀ a, a ≠ G.hdr → G.logical (applyWrites d ((G.recoverWrites d).take k)) a = G.logical d a := by
  obtain ⟨bs, hbs, hf⟩ := hd
  have hrw : G.recoverWrites d = G.installWrites d bs ++ [(G.hdr, G.clear (d G.hdr))] := by
    simp only [Geometry.recoverWrites, hbs]
  rw [hrw]
  by_cases hk : k ≤ (G.installWrites d bs).length
  · -- the crash came before the header was cleared
    rw [List.take_append_of_le_length hk]
    have hws : ∀ w ∈ (G.installWrites d bs).take k, w.1 ∈ bs :=
      fun w hw => Geometry.mem_installWrites (List.mem_of_mem_take hw)
    obtain ⟨hh, ho⟩ := Geometry.overlay_home_writes d bs hf _ hws
    have hdec : G.decode (applyWrites d ((G.installWrites d bs).take k) G.hdr) = some bs := by rw [hh]; exact hbs
    refine ⟨⟨bs, hdec, hf⟩, fun a _ => ?_⟩
    rw [Geometry.logical_of_decode hdec, Geometry.logical_of_decode hbs, ho]
  · -- everything was written
    rw [List.take_of_length_le (by simp; omega), applyWrites_append]
    simp only [applyWrites_cons, applyWrites_nil]
    have hcl := G.decode_clear _ _ hbs
    refine ⟨⟨[], by rw [update_self]; exact hcl, Geometry.fits_nil⟩, fun a ha => ?_⟩
    rw [Geometry.clear_installed d _ bs _ hcl a ha (Geometry.install_done d bs hf a), Geometry.logical_of_decode hbs]

/-- **Any number of interrupted recoveries** -/
theorem crashes_logical (d : A → V) (hd : G.Valid d) (ks : List ℕ) :
    G.Valid (crashes G.recoverWrites d ks) ∧
      ∀ a, a ≠ G.hdr → G.logical (crashes G.recoverWrites d ks) a = G.logical d a := by
  refine crashes_inv G.recoverWrites (fun e => G.Valid e ∧ ∀ a, a ≠ G.hdr → G.logical e a = G.logical d a) ?_ d ks
    ⟨hd, fun _ _ => rfl⟩
  rintro e ⟨he, hl⟩ k
  obtain ⟨h1, h2⟩ := recover_cut e he k
  exact ⟨h1, fun a ha => (h2 a ha).trans (hl a ha)⟩

/-- **A completed recovery** empties the header and leaves the logical disk. -/
theorem recover_done (d : A → V) (hd : G.Valid d) :
    G.decode (applyWrites d (G.recoverWrites d) G.hdr) = some [] ∧
      ∀ a, a ≠ G.hdr → applyWrites d (G.recoverWrites d) a = G.logical d a := by
  obtain ⟨bs, hbs, hf⟩ := hd
  have hrw : G.recoverWrites d = G.installWrites d bs ++ [(G.hdr, G.clear (d G.hdr))] := by
    simp only [Geometry.recoverWrites, hbs]
  rw [hrw, applyWrites_append]
  simp only [applyWrites_cons, applyWrites_nil]
  refine ⟨by rw [update_self]; exact G.decode_clear _ _ hbs, fun a ha => ?_⟩
  rw [update_of_ne ha, Geometry.install_done d bs hf a, Geometry.logical_of_decode hbs]

/-! ## Commit -/

variable (G)

/-- fill the slots with the new contents -/
def Geometry.fillWrites (bs : List A) (new : A → V) : List (A × V) := bs.mapIdx fun i a => (G.slot i, new a)

/-- the commit protocol: fill the slots, write the header `h`, install, write the emptied header `h0` -/
def Geometry.commitWrites (bs : List A) (new : A → V) (h h0 : V) : List (A × V) :=
  G.fillWrites bs new ++ (G.hdr, h) :: (bs.map (fun a => (a, new a)) ++ [(G.hdr, h0)])

variable {G}

omit [DecidableEq A] in
theorem Geometry.fst_fillWrites (bs : List A) (new : A → V) :
    (G.fillWrites bs new).map Prod.fst = (List.range bs.length).map G.slot := by
  apply List.ext_getElem
  · simp [Geometry.fillWrites]
  · intro i h1 h2; simp [Geometry.fillWrites, List.getElem_mapIdx]

omit [DecidableEq A] in
theorem Geometry.mem_fillWrites {bs : List A} {new : A → V} {w : A × V} (hf : G.Fits bs)
    (h : w ∈ G.fillWrites bs new) : ∃ i < G.cap, w.1 = G.slot i := by
  obtain ⟨i, hi, rfl⟩ := List.mem_mapIdx.1 h
  exact ⟨i, lt_of_lt_of_le hi hf.len, rfl⟩

/-- filling slots never touches the header or a block outside the log -/
theorem Geometry.fill_other (d : A → V) (bs : List A) (new : A → V) (hf : G.Fits bs) (ws : List (A × V))
    (hws : ∀ w ∈ ws, w ∈ G.fillWrites bs new) : applyWrites d ws G.hdr = d G.hdr ∧
      ∀ a, G.Outside a → applyWrites d ws a = d a := by
  constructor
  · refine applyWrites_other _ _ _ (fun w hw => ?_)
    obtain ⟨i, hi, he⟩ := Geometry.mem_fillWrites hf (hws w hw)
    rw [he]; exact G.slot_ne_hdr i hi
  · intro a ha
    refine applyWrites_other _ _ _ (fun w hw => ?_)
    obtain ⟨i, hi, he⟩ := Geometry.mem_fillWrites hf (hws w hw)
    rw [he]; exact (ha.2 i hi).symm

/-- the filled slots hold the new contents -/
theorem Geometry.fill_slot (d : A → V) (bs : List A) (new : A → V) (hf : G.Fits bs) (a : A) (ha : a ∈ bs) :
    applyWrites d (G.fillWrites bs new) (G.slot (bs.idxOf a)) = new a := by
  have hi : bs.idxOf a < bs.length := List.idxOf_lt_length_iff.2 ha
  have hnd : ((G.fillWrites bs new).map Prod.fst).Nodup := by
    rw [Geometry.fst_fillWrites]
    refine List.Nodup.map_on (fun x hx y hy hxy => ?_) List.nodup_range
    exact G.slot_inj x y (lt_of_lt_of_le (List.mem_range.1 hx) hf.len) (lt_of_lt_of_le (List.mem_range.1 hy) hf.len) hxy
  have hw : (G.slot (bs.idxOf a), new a) ∈ G.fillWrites bs new := by
    apply List.mem_mapIdx.2
    exact ⟨bs.idxOf a, hi, by simp⟩
  exact applyWrites_mem d _ hnd _ hw

/-- the disk just after the header write: the logical disk is the new one -/
theorem Geometry.overlay_committed (d : A → V) (bs : List A) (new : A → V) (h : V) (hf : G.Fits bs) (a : A)
    (ha : G.Outside a) :
    G.overlay (update (applyWrites d (G.fillWrites bs new)) G.hdr h) bs a =
      if a ∈ bs then new a else d a := by
  unfold Geometry.overlay
  split_ifs with hab
  · have hi : bs.idxOf a < G.cap := lt_of_lt_of_le (List.idxOf_lt_length_iff.2 hab) hf.len
    rw [update_of_ne (G.slot_ne_hdr _ hi)]
    exact Geometry.fill_slot d bs new hf a hab
  · rw [update_of_ne ha.1]
    exact (Geometry.fill_other d bs new hf _ (fun w hw => hw)).2 a ha

theorem applyWrites_map_new (d : A → V) (bs : List A) (new : A → V) (hnd : bs.Nodup) (a : A) :
    applyWrites d (bs.map fun a => (a, new a)) a = if a ∈ bs then new a else d a := by
  split_ifs with hab
  · refine applyWrites_mem d _ ?_ (a, new a) (List.mem_map_of_mem (f := fun a => (a, new a)) hab)
    rw [List.map_map, show (Prod.fst ∘ fun a => (a, new a)) = id from rfl, List.map_id]
    exact hnd
  · refine applyWrites_other _ _ _ (fun w hw hwa => ?_)
    obtain ⟨b, hb, rfl⟩ := List.mem_map.1 hw
    exact hab (hwa ▸ hb)

/-- a crash while the slots are being filled: the header still reads empty and nothing outside the log has moved -/
theorem fill_cut (d : A → V) (bs : List A) (new : A → V) (hf : G.Fits bs) (hd : G.decode (d G.hdr) = some [])
    (k : ℕ) :
    let ws := (G.fillWrites bs new).take k
    G.Valid (applyWrites d ws) ∧ ∀ a, G.Outside a → G.logical (applyWrites d ws) a = d a := by
  intro ws
  have hmem : ∀ w ∈ ws, w ∈ G.fillWrites bs new := fun w hw => List.mem_of_mem_take hw
  obtain ⟨h1, h2⟩ := Geometry.fill_other d bs new hf ws hmem
  have hdec : G.decode (applyWrites d ws G.hdr) = some [] := by rw [h1]; exact hd
  refine ⟨⟨[], hdec, Geometry.fits_nil⟩, fun a ha => ?_⟩
  rw [Geometry.logical_of_decode hdec]
  simp only [Geometry.overlay, List.not_mem_nil, ite_false]
  exact h2 a ha

/-- a crash after the header write, from the disk `d1` it left: the logical disk stays that of `d1` -/
theorem install_cut (d1 : A → V) (bs : List A) (new : A → V) (h0 : V) (hf : G.Fits bs)
    (hd1 : G.decode (d1 G.hdr) = some bs) (hh0 : G.decode h0 = some [])
    (hnew : ∀ a ∈ bs, G.overlay d1 bs a = new a) (m : ℕ) :
    let e := applyWrites d1 ((bs.map (fun a => (a, new a)) ++ [(G.hdr, h0)]).take m)
    G.Valid e ∧ ∀ a, G.Outside a → G.logical e a = G.overlay d1 bs a := by
  intro e
  by_cases hm : m ≤ bs.length
  · -- the header is still the committed one, and the writes only touch listed blocks
    have he : e = applyWrites d1 ((bs.map fun a => (a, new a)).take m) := by
      simp only [e]; rw [List.take_append_of_le_length (by simpa using hm)]
    have hws : ∀ w ∈ (bs.map fun a => (a, new a)).take m, w.1 ∈ bs := by
      intro w hw
      obtain ⟨a, ha, rfl⟩ := List.mem_map.1 (List.mem_of_mem_take hw)
      exact ha
    obtain ⟨h1, h2⟩ := Geometry.overlay_home_writes d1 bs hf _ hws
    have hdec : G.decode (e G.hdr) = some bs := by rw [he, h1]; exact hd1
    exact ⟨⟨bs, hdec, hf⟩, fun a _ => by rw [Geometry.logical_of_decode hdec, he, h2]⟩
  · -- everything was installed and the header emptied
    have he : e = update (applyWrites d1 (bs.map fun a => (a, new a))) G.hdr h0 := by
      simp only [e]
      rw [List.take_of_length_le (by simp; omega), applyWrites_append]
      rfl
    refine ⟨⟨[], by rw [he, update_self]; exact hh0, Geometry.fits_nil⟩, fun a ha => ?_⟩
    rw [he, Geometry.clear_installed d1 _ bs h0 hh0 a ha.1]
    rw [applyWrites_map_new _ _ _ hf.nodup]
    split_ifs with hab
    · exact (hnew a hab).symm
    · simp [Geometry.overlay, hab]

omit [DecidableEq A] in
/-- a prefix of the protocol contains the header write when it is longer than the filling of the slots -/
theorem header_written_iff (bs : List A) (new : A → V) (h h0 : V) (hf : G.Fits bs) (k : ℕ) :
    G.hdr ∈ ((G.commitWrites bs new h h0).take k).map Prod.fst ↔ bs.length < k := by
  have hlen : (G.fillWrites bs new).length = bs.length := by simp [Geometry.fillWrites]
  constructor
  · intro hm
    by_contra hk
    rw [Geometry.commitWrites, List.take_append_of_le_length (by omega)] at hm
    obtain ⟨w, hw, he⟩ := List.mem_map.1 hm
    obtain ⟨i, hi, hs⟩ := Geometry.mem_fillWrites hf (List.mem_of_mem_take hw)
    exact G.slot_ne_hdr i hi (hs.symm.trans he)
  · intro hk
    obtain ⟨m, rfl⟩ : ∃ m, k = (G.fillWrites bs new).length + (m + 1) := ⟨k - bs.length - 1, by omega⟩
    rw [Geometry.commitWrites, List.take_length_add_append, List.take_succ_cons]
    simp

/-- **Every crash point of a commit.** On a disk with an empty header, a prefix of the commit protocol leaves the
logical disk old while it has no header write, and gives every listed block its new contents from then on. -/
theorem commit_cut (d : A → V) (bs : List A) (new : A → V) (h h0 : V) (hf : G.Fits bs)
    (hd : G.decode (d G.hdr) = some []) (hh : G.decode h = some bs) (hh0 : G.decode h0 = some []) (k : ℕ) :
    let ws := (G.commitWrites bs new h h0).take k
    G.Valid (applyWrites d ws) ∧ ∀ a, G.Outside a → G.logical (applyWrites d ws) a =
      if a ∈ bs ∧ G.hdr ∈ ws.map Prod.fst then new a else d a := by
  intro ws
  have hlen : (G.fillWrites bs new).length = bs.length := by simp [Geometry.fillWrites]
  have hhead : G.hdr ∈ ws.map Prod.fst ↔ bs.length < k := header_written_iff bs new h h0 hf k
  by_cases hk : k ≤ bs.length
  · have hws : ws = (G.fillWrites bs new).take k := by
      simp only [ws, Geometry.commitWrites]; rw [List.take_append_of_le_length (by omega)]
    obtain ⟨h1, h2⟩ := fill_cut d bs new hf hd k
    rw [← hws] at h1 h2
    exact ⟨h1, fun a ha => by rw [h2 a ha, if_neg (fun hc => by have := hhead.1 hc.2; omega)]⟩
  · -- the header has been written; d1 is the disk at that moment
    obtain ⟨m, hm⟩ : ∃ m, k = (G.fillWrites bs new).length + (m + 1) := ⟨k - bs.length - 1, by omega⟩
    set d1 := update (applyWrites d (G.fillWrites bs new)) G.hdr h with hd1
    have hws : ws = G.fillWrites bs new ++ (G.hdr, h) :: (bs.map (fun a => (a, new a)) ++ [(G.hdr, h0)]).take m := by
      simp only [ws, Geometry.commitWrites, hm]; rw [List.take_length_add_append, List.take_succ_cons]
    have hov := Geometry.overlay_committed d bs new h hf
    rw [← hd1] at hov
    have hnew : ∀ a ∈ bs, G.overlay d1 bs a = new a := fun a ha => by rw [hov a (hf.outside a ha), if_pos ha]
    have hdec : G.decode (d1 G.hdr) = some bs := by rw [hd1, update_self]; exact hh
    obtain ⟨h1, h2⟩ := install_cut d1 bs new h0 hf hdec hh0 hnew m
    have hin : G.hdr ∈ ws.map Prod.fst := hhead.2 (by omega)
    simp only [hin, and_true]
    rw [hws]
    simp only [applyWrites_append, applyWrites_cons]
    exact ⟨h1, fun a ha => (h2 a ha).trans (hov a ha)⟩

end Xv6.RedoLog
