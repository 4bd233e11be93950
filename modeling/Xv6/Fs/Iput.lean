/-
The end of an inode (`itrunc`, `iput` of `fs.c`).

`itrunc` frees the blocks of an inode slot by slot (`Freeing`: what has been freed so far, with the disk otherwise as it
was); `wp_truncBlocks` is what is left when it is done. From it `wp_iput`: a reference goes, and if it was the last one
to an inode without links, so does the inode (`putNode`).
-/
import Xv6.Fs.Rep

namespace Xv6.Fs

open Xv6.Bytes Xv6.Wp Function

section

variable {sb : Superblock} {τ : Mode} {σ : Fault → Prop} {m : ℕ → Dinode} {a : ℕ → Node} {g : Ghost} {s : St} {k : Fin NINODE} {i : ℕ}

/-! ## Truncating -/

/-- what is left to the slots once those in D have been freed -/
def without (D : Finset Slot) (o : Slot → Option ℕ) (x : Slot) : Option ℕ := if x ∈ D then none else o x

theorem without_insert (D : Finset Slot) (o : Slot → Option ℕ) (x : Slot) :
    without (insert x D) o = update (without D o) x none := by
  funext y
  unfold without
  by_cases hy : y = x
  · subst hy
    simp
  · simp [hy]

/-- `itrunc` on entry k of inode i has freed the slots in D, and addrs is what it has left -/
structure Freeing (sb : Superblock) (τ : Prop) (m : ℕ → Dinode) (k : Fin NINODE) (i : ℕ) (s : St) (D : Finset Slot)
    (addrs : Fin (NDIRECT + 1) → BitVec 32) (t : St) : Prop where
  view : view sb t.disk = { view sb s.disk with used := (view sb t.disk).used }
  map : FreeMap sb τ (without D (own sb m (Fs.view sb s.disk).block)) (Fs.view sb t.disk).used
  icache : t.icache = Function.update s.icache k { s.icache k with ino := { m i with addrs } }
  sb : t.sb = sb
  out : t.out = s.out

/-- one slot is freed, if it has a block -/
theorem Freeing.wp_free (wf : sb.WF) {D : Finset Slot} {addrs : Fin (NDIRECT + 1) → BitVec 32} {t : St} {x : Slot}
    {b : ℕ} (h : Freeing sb τ m k i s D addrs t) (hsuper : (Fs.view sb s.disk).super = sb) (hx : x ∉ D)
    (ho : own sb m (Fs.view sb s.disk).block x = some b) :
    wp (bfree b) (fun _ u => Freeing sb τ m k i s (insert x D) addrs u) (Stop σ) t := by
  have hox : without D (own sb m (Fs.view sb s.disk).block) x = some b := by rw [without, if_neg hx, ho]
  have hb := (h.map.range x b hox).2
  have hreadsb : readsb t.disk = sb := by
    have := congrArg View.super h.view
    exact this.trans hsuper
  apply wp_bfree hreadsb
  · rw [← view_used hb]
    exact h.map.marked hox
  · have hview := view_setBit (d := t.disk) wf hb false
    refine ⟨?_, ?_, h.icache, rfl, h.out⟩
    · rw [hview, h.view]
    · rw [hview, without_insert]
      exact h.map.release hox

theorem Freeing.skip {D : Finset Slot} {addrs : Fin (NDIRECT + 1) → BitVec 32} {t : St} {x : Slot}
    (h : Freeing sb τ m k i s D addrs t) (ho : own sb m (Fs.view sb s.disk).block x = none) :
    Freeing sb τ m k i s (insert x D) addrs t := by
  refine ⟨h.view, ?_, h.icache, h.sb, h.out⟩
  have hsame : without (insert x D) (own sb m (Fs.view sb s.disk).block) =
      without D (own sb m (Fs.view sb s.disk).block) := by
    rw [without_insert, update_eq_self_iff, without, ho]
    simp
  rw [hsame]
  exact h.map

/-- the first loop of `itrunc`: bs is still to be done -/
def DirectInv (sb : Superblock) (τ : Prop) (m : ℕ → Dinode) (k : Fin NINODE) (i : ℕ) (s : St) (bs : List (Fin NDIRECT))
    (t : St) : Prop :=
  bs.Nodup ∧ ∃ D addrs, Freeing sb τ m k i s D addrs t ∧
    (∀ x, x ∈ D ↔ ∃ j : Fin NDIRECT, x = .addr i j.castSucc ∧ j ∉ bs) ∧
    addrs (Fin.last NDIRECT) = (m i).addrs (Fin.last NDIRECT) ∧
    ∀ j : Fin NDIRECT, addrs j.castSucc = if j ∈ bs then (m i).addrs j.castSucc else 0

theorem DirectInv.step (wf : sb.WF) (hi : i < sb.ninodes) (ht : (m i).type ≠ 0) (hsuper : (view sb s.disk).super = sb)
    (j : Fin NDIRECT) (bs : List (Fin NDIRECT)) (t : St) (h : DirectInv sb τ m k i s (j :: bs) t) :
    wp (truncDirect k j) (fun _ u => DirectInv sb τ m k i s bs u) (Stop σ) t := by
  obtain ⟨hnodup, D, addrs, hF, hD, hlast, haddrs⟩ := h
  obtain ⟨hj, hbs⟩ := List.nodup_cons.1 hnodup
  have hx : Slot.addr i j.castSucc ∉ D := by
    rw [hD]
    rintro ⟨j', he, hj'⟩
    have : j = j' := Fin.castSucc_injective _ (Slot.addr.inj he).2
    exact hj' (this ▸ List.mem_cons_self)
  have hD' : ∀ x, x ∈ insert (Slot.addr i j.castSucc) D ↔ ∃ j' : Fin NDIRECT, x = .addr i j'.castSucc ∧ j' ∉ bs := by
    intro x
    rw [Finset.mem_insert, hD]
    constructor
    · rintro (rfl | ⟨j', rfl, hj'⟩)
      · exact ⟨j, rfl, hj⟩
      · exact ⟨j', rfl, fun hm => hj' (List.mem_cons_of_mem _ hm)⟩
    · rintro ⟨j', rfl, hj'⟩
      by_cases he : j' = j
      · exact Or.inl (he ▸ rfl)
      · exact Or.inr ⟨j', rfl, by simp [he, hj']⟩
  have hj0 : addrs j.castSucc = (m i).addrs j.castSucc := by simp [haddrs]
  have hino : (t.icache k).ino.addrs j.castSucc = (m i).addrs j.castSucc := by
    rw [hF.icache, update_self]
    exact hj0
  unfold truncDirect
  simp only [wp_bind, wp_get, hino]
  apply wp_ite
  · intro hne
    have ho : own sb m (view sb s.disk).block (.addr i j.castSucc) = some ((m i).addrs j.castSucc).toNat := by
      refine own_eq_some.2 ⟨⟨hi, ht⟩, ?_, rfl⟩
      intro h0
      exact hne (BitVec.eq_of_toNat_eq h0)
    rw [wp_bind]
    refine wp_imp (hF.wp_free wf hsuper hx ho) ?_
    intro _ u hu
    apply wp_setInode
    refine ⟨hbs, _, update addrs j.castSucc 0, ⟨hu.view, hu.map, ?_, hu.sb, hu.out⟩, hD', ?_, ?_⟩
    · simp only [hu.icache, update_self, update_idem]
      rfl
    · rw [update_of_ne (Fin.castSucc_lt_last j).ne', hlast]
    · intro j'
      by_cases he : j' = j
      · subst he
        simp [hj]
      · rw [update_of_ne fun hc => he (Fin.castSucc_injective _ hc), haddrs]
        simp [he]
  · intro hz
    rw [not_not] at hz
    rw [wp_pure]
    have ho : own sb m (view sb s.disk).block (.addr i j.castSucc) = none := by
      rw [own, if_neg]
      rintro ⟨-, -, h0⟩
      exact h0 (congrArg BitVec.toNat hz)
    refine ⟨hbs, _, addrs, hF.skip ho, hD', hlast, ?_⟩
    intro j'
    rw [haddrs]
    by_cases he : j' = j
    · subst he
      simp [hz]
    · simp [he]

/-- the second loop of `itrunc` -/
def EntryInv (sb : Superblock) (τ : Prop) (m : ℕ → Dinode) (k : Fin NINODE) (i : ℕ) (s : St)
    (addrs : Fin (NDIRECT + 1) → BitVec 32) (bs : List (Fin NINDIRECT)) (t : St) : Prop :=
  bs.Nodup ∧ ∃ D, Freeing sb τ m k i s D addrs t ∧
    ∀ x, x ∈ D ↔ (∃ j : Fin NDIRECT, x = .addr i j.castSucc) ∨ ∃ j : Fin NINDIRECT, x = .entry i j ∧ j ∉ bs

theorem EntryInv.step (wf : sb.WF) {addrs : Fin (NDIRECT + 1) → BitVec 32} (hi : i < sb.ninodes)
    (ht : (m i).type ≠ 0) (hsuper : (view sb s.disk).super = sb) (hp : (m i).indirect ≠ 0)
    (hpm : sb.nmeta ≤ (m i).indirect) (j : Fin NINDIRECT) (bs : List (Fin NINDIRECT)) (t : St)
    (h : EntryInv sb τ m k i s addrs (j :: bs) t) :
    wp (truncEntry (m i).indirect j) (fun _ u => EntryInv sb τ m k i s addrs bs u) (Stop σ) t := by
  obtain ⟨hnodup, D, hF, hD⟩ := h
  obtain ⟨hj, hbs⟩ := List.nodup_cons.1 hnodup
  have hx : Slot.entry i j ∉ D := by
    rw [hD]
    rintro (⟨j', he⟩ | ⟨j', he, hj'⟩)
    · exact Slot.noConfusion he
    · exact hj' ((Slot.entry.inj he).2 ▸ List.mem_cons_self)
  have hD' : ∀ x, x ∈ insert (Slot.entry i j) D ↔
      (∃ j : Fin NDIRECT, x = .addr i j.castSucc) ∨ ∃ j : Fin NINDIRECT, x = .entry i j ∧ j ∉ bs := by
    intro x
    rw [Finset.mem_insert, hD]
    constructor
    · rintro (rfl | hx | ⟨j', rfl, hj'⟩)
      · exact Or.inr ⟨j, rfl, hj⟩
      · exact Or.inl hx
      · exact Or.inr ⟨j', rfl, fun hm => hj' (List.mem_cons_of_mem _ hm)⟩
    · rintro (hx | ⟨j', rfl, hj'⟩)
      · exact Or.inr (Or.inl hx)
      · by_cases he : j' = j
        · exact Or.inl (he ▸ rfl)
        · exact Or.inr (Or.inr ⟨j', rfl, by simp [he, hj']⟩)
  have hblock : t.disk (m i).indirect = (view sb s.disk).block (m i).indirect := by
    rw [← view_block (d := t.disk) hpm, hF.view]
  have hget : Slot.get m (view sb s.disk).block (.entry i j) = getLE (t.disk (m i).indirect) (4 * j) 4 := by
    rw [Slot.get, if_neg hp, hblock]
  unfold truncEntry
  simp only [wp_bind, wp_get]
  apply wp_ite
  · intro hne
    refine wp_imp (hF.wp_free wf hsuper hx (own_eq_some.2 ⟨⟨hi, ht⟩, hne, hget⟩)) ?_
    intro _ u hu
    exact ⟨hbs, _, hu, hD'⟩
  · intro hz
    rw [not_not] at hz
    rw [wp_pure]
    refine ⟨hbs, _, hF.skip ?_, hD'⟩
    rw [own, if_neg]
    rintro ⟨-, -, h0⟩
    exact h0 (hget.trans hz)

/-- all blocks of the inode are free again -/
theorem wp_truncBlocks (wf : sb.WF) (h : RepM sb τ m a g s) (hk : (s.icache k).Holds i) (hi : i < sb.ninodes) :
    wp (do forM (List.finRange NDIRECT) (truncDirect k); truncIndirect k)
      (fun _ t => ∃ D, Freeing sb τ m k i s D (fun _ => 0) t ∧
        without D (own sb m (view sb s.disk).block) =
          fun x => if x.inum = i then none else own sb m (view sb s.disk).block x) (Stop σ) s := by
  obtain ⟨hino, ht⟩ := h.cached.copy k i hk
  have hsuper := h.vol.super
  have hstart : DirectInv sb τ m k i s (List.finRange NDIRECT) s := by
    refine ⟨List.nodup_finRange _, ∅, (m i).addrs, ⟨rfl, ?_, ?_, h.sb, rfl⟩, by simp, rfl, by simp⟩
    · have : without ∅ (own sb m (view sb s.disk).block) = own sb m (view sb s.disk).block := by
        funext x
        simp [without]
      rw [this]
      exact h.vol.map
    · rw [eq_comm, update_eq_self_iff, ← hino]
  rw [wp_bind]
  refine wp_imp (wp_forM (DirectInv sb τ m k i s) (DirectInv.step wf hi ht hsuper) _ hstart) ?_
  rintro _ t ⟨-, D, addrs, hF, hD, hlast, haddrs⟩
  have hzero : ∀ j : Fin NDIRECT, addrs j.castSucc = 0 := by
    intro j
    simpa using haddrs j
  have hind : (t.icache k).ino.indirect = (m i).indirect := by
    rw [hF.icache, update_self]
    exact congrArg BitVec.toNat hlast
  unfold truncIndirect
  simp only [wp_bind, wp_get, hind]
  apply wp_ite
  · intro hp
    have hown : own sb m (view sb s.disk).block _ = _ := own_indirect hi ht hp
    have hpm : sb.nmeta ≤ (m i).indirect := (h.vol.map.range _ _ hown).1
    rw [wp_bind]
    refine wp_imp (wp_forM (EntryInv sb τ m k i s addrs) (EntryInv.step wf hi ht hsuper hp hpm) _
      ⟨List.nodup_finRange _, D, hF, ?_⟩) ?_
    · intro x
      simp [hD]
    · rintro _ u ⟨-, D', hF', hD'⟩
      have hx : Slot.addr i (Fin.last NDIRECT) ∉ D' := by
        rw [hD']
        rintro (⟨j, he⟩ | ⟨j, he, -⟩)
        · exact (Fin.castSucc_lt_last j).ne' (Slot.addr.inj he).2
        · exact Slot.noConfusion he
      rw [wp_bind]
      refine wp_imp (hF'.wp_free wf hsuper hx hown) ?_
      intro _ v hv
      apply wp_setInode
      refine ⟨_, ⟨hv.view, hv.map, ?_, hv.sb, hv.out⟩, ?_⟩
      · have hz : (fun _ => 0 : Fin (NDIRECT + 1) → BitVec 32) = update addrs (Fin.last NDIRECT) 0 := by
          funext l
          refine Fin.lastCases ?_ (fun j => ?_) l
          · simp
          · rw [update_of_ne (Fin.castSucc_lt_last j).ne, hzero]
        rw [hz]
        simp only [hv.icache, update_self, update_idem]
        rfl
      · funext x
        unfold without
        congr 1
        rw [Finset.mem_insert, hD', eq_iff_iff]
        cases x with
        | addr i' l =>
          constructor
          · rintro (he | ⟨j, he⟩ | ⟨j, he, -⟩)
            · exact (Slot.addr.inj he).1
            · exact (Slot.addr.inj he).1
            · exact Slot.noConfusion he
          · rintro rfl
            refine Fin.lastCases ?_ (fun j => ?_) l
            · exact Or.inl rfl
            · exact Or.inr (Or.inl ⟨j, rfl⟩)
        | entry i' j => simp [Slot.inum]
  · -- no indirect block: nothing else is mapped
    intro hp
    rw [not_not] at hp
    rw [wp_pure]
    have hz : addrs = fun _ => 0 := by
      funext l
      refine Fin.lastCases ?_ hzero l
      rw [hlast]
      exact BitVec.eq_of_toNat_eq hp
    refine ⟨D, hz ▸ hF, ?_⟩
    funext x
    unfold without
    by_cases hxi : x.inum = i
    · rw [if_pos hxi]
      split_ifs with hxD
      · rfl
      rw [own, if_neg]
      rintro ⟨-, -, h0⟩
      apply h0
      subst hxi
      cases x with
      | addr i' l =>
        revert hxD h0
        refine Fin.lastCases ?_ (fun j => ?_) l
        · intro _ _
          exact hp
        · intro hxD _
          exact absurd ((hD _).2 ⟨j, rfl, by simp⟩) hxD
      | entry i' j => exact if_pos hp
    · rw [if_neg hxi, if_neg]
      intro hxD
      obtain ⟨j, rfl, -⟩ := (hD x).1 hxD
      exact hxi rfl

/-- inode i once the last reference to it has gone -/
def Node.freed (x : Node) : Node := { x with type := 0, size := 0, data := fun _ => 0 }

/-- the inodes after `iput` of a reference to inode i; P: the references that are left -/
noncomputable def putNode (a : ℕ → Node) (P : Multiset (Fin NINODE × ℕ)) (i : ℕ) : ℕ → Node :=
  open Classical in
  if (a i).type ≠ 0 ∧ (a i).nlink = 0 ∧ ∀ p ∈ P, p.2 ≠ i then Function.update a i (a i).freed else a

/-- `iput` of the last reference to an inode without links -/
theorem wp_freeInode (wf : sb.WF) {P : Multiset (Fin NINODE × ℕ)} (h : RepM sb τ m a g s)
    (hg : g.pins = (k, i) ::ₘ P) (hk : (s.icache k).Holds i) (href : (s.icache k).ref = 1) (hl : k ∉ g.locks)
    (hd : g.dirty = none) :
    wp (do freeInode k; setInode k fun x => { x with ref := x.ref - 1 })
      (fun _ t => Rep sb τ (update a i (a i).freed) { g with pins := P } t) (Stop σ) s := by
  have hi := h.cached.range k i hk
  obtain ⟨hino, ht⟩ := h.cached.copy k i hk
  unfold freeInode itrunc
  simp only [bind_assoc]
  rw [← bind_assoc, wp_bind]
  refine wp_imp (wp_truncBlocks wf h hk hi) ?_
  rintro _ t ⟨D, hF, hD⟩
  have hmap := hF.map
  rw [hD] at hmap
  -- the emptied inode is stored
  rw [wp_bind]
  apply wp_setInode
  rw [wp_bind]
  refine wp_iupdate (i := i) ?_ ?_
  · simp only [update_self, hF.icache]
    exact hk.2.2
  -- and then the free one
  rw [wp_bind]
  apply wp_setInode
  rw [wp_bind]
  refine wp_iupdate (i := i) ?_ ?_
  · simp only [update_self, hF.icache]
    exact hk.2.2
  rw [wp_bind]
  apply wp_setInode
  apply wp_setInode
  simp only [update_self, update_idem, hF.icache, hF.sb]
  have hvol := h.vol
  rw [hd] at hvol
  have htrunc := (hvol.trunc hmap).dead (i := i) (by rw [update_self])
  simp only [update_self, update_idem] at htrunc
  have hview : ∀ x y, view sb (setDinode sb (setDinode sb t.disk i x) i y) =
      { view sb s.disk with inode := update (view sb s.disk).inode i y, used := (view sb t.disk).used } := by
    intro x y
    rw [view_setDinode wf hi, view_setDinode wf hi, hF.view, update_idem]
  have hnode : (a i).freed = nodeOf { m i with type := 0, size := 0, addrs := fun _ => 0 } fun _ => 0 := by
    rw [h.vol.node i hi]
    rfl
  refine ⟨update m i { m i with type := 0, size := 0, addrs := fun _ => 0 }, ?_, ?_, rfl, hF.out.trans h.out⟩
  · rw [hview, hnode, hd]
    exact htrunc
  · rw [hview]
    have hheld : Cached sb m (update (view sb s.disk).inode i
        { m i with type := 0, size := 0, addrs := fun _ => 0 }) g s.icache :=
      h.cached.congr_held hk fun j hj => update_of_ne hj _ _
    have hevict := hheld.evict (x := { s.icache k with
      ref := (s.icache k).ref - 1, valid := false, ino := { m i with type := 0, size := 0, addrs := fun _ => 0 } })
      hg href hl (by simp [href]) rfl ?_
    · rw [update_self] at hevict
      exact hevict
    · intro _ _ h0
      rw [update_self] at h0
      exact absurd rfl h0

/-- the inodes after `iput` of a reference to inode i that leaves the references P: an inode without links goes with its
last reference, unless it was never read -/
def Put (a : ℕ → Node) (P : Multiset (Fin NINODE × ℕ)) (i : ℕ) (whole : Prop) (a' : ℕ → Node) : Prop :=
  (a' = a ∨ a' = Function.update a i (a i).freed ∧ (a i).nlink = 0 ∧ ∀ p ∈ P, p.2 ≠ i) ∧ (whole → a' = putNode a P i)

/-- **`iput`.** On a disk that is not tight what was never stored goes with the last reference. -/
theorem wp_iput (wf : sb.WF) {P : Multiset (Fin NINODE × ℕ)} (h : RepM sb τ m a g s) (hg : g.pins = (k, i) ::ₘ P)
    (hl : k ∈ g.locks → ∃ p ∈ P, p.2 = i) (hd : g.dirty = none) (hn : g.newborn = none) :
    wp (iput k) (fun _ t => ∃ m' a', Put a P i (g.whole ∧ i < sb.ninodes) a' ∧ RepM sb τ m' a' { g with pins := P } t ∧
      ((∃ p ∈ P, p.2 = i) ∨ (s.icache k).valid = false → a' = a ∧ m' = m) ∧
      (a' = a → t.disk = s.disk ∧ (Saved sb m s.disk i →
        contents sb m' t.disk = contents sb m s.disk ∧ ∀ j, j ≠ i → Saved sb m s.disk j → Saved sb m' t.disk j)))
      (Stop σ) s := by
  have hp : (k, i) ∈ g.pins := hg ▸ Multiset.mem_cons_self _ _
  have hpos := h.cached.ref_pos hp
  have hinum := h.inum hp
  have hfree : (s.icache k).ref = 1 → ¬∃ p ∈ P, p.2 = i := by
    rintro href ⟨p, hpP, hpi⟩
    exact (h.cached.last hg href p hpP).2 hpi
  unfold iput
  simp only [wp_bind, wp_get]
  apply wp_ite
  · rintro ⟨href, hv, h0⟩
    have hk : (s.icache k).Holds i := ⟨hpos, hv, hinum⟩
    obtain ⟨hino, ht⟩ := h.cached.copy k i hk
    obtain ⟨htype, hnlink, -⟩ := h.node (h.cached.range k i hk)
    have hzero : (a i).nlink = 0 := by
      rw [hnlink, ← hino]
      exact h0
    have hlast : ∀ p ∈ P, p.2 ≠ i := fun p hp' => (h.cached.last hg href p hp').2
    refine wp_imp (wp_freeInode wf h hg hk href (fun hk' => hfree href (hl hk')) hd) ?_
    rintro _ t ⟨m', ht'⟩
    refine ⟨m', _, ⟨Or.inr ⟨rfl, hzero, hlast⟩, fun _ => ?_⟩, ht', ?_, fun he => ?_⟩
    · exact (if_pos ⟨htype ▸ ht, hzero, hlast⟩).symm
    · rintro (he | he)
      · exact absurd he (hfree href)
      · rw [hv] at he
        cases he
    · have hfreed := congrFun he i
      rw [update_self] at hfreed
      exact absurd (htype.symm.trans (congrArg Node.type hfreed).symm) ht
  · intro hc
    apply wp_setInode
    have hput : Put a P i (g.whole ∧ i < sb.ninodes) a := by
      refine ⟨Or.inl rfl, fun hin => (if_neg ?_).symm⟩
      rintro ⟨ht, h0, hP⟩
      obtain ⟨htype, hnlink, -⟩ := h.node hin.2
      rw [htype] at ht
      rw [hnlink] at h0
      obtain ⟨k', hk'⟩ := h.cached.orphan hin.1 i hin.2 (by rw [hn]; exact fun hc => by cases hc) ht h0
      obtain rfl : k' = k := h.cached.eq_of_inum hk'.1 hpos (hk'.2.2.trans hinum.symm)
      refine hc ⟨?_, hk'.2.1, ?_⟩
      · by_contra href
        obtain ⟨p, hpP, hpi⟩ := h.cached.not_last hg href
        exact hP p hpP hpi
      · rw [(h.cached.copy k' i hk').1]
        exact h0
    have hsame : ∀ {c : Fin NINODE → Inode}, Cached sb m (view sb s.disk).inode { g with pins := P } c →
        RepM sb τ m a { g with pins := P } { s with icache := c } := fun hc => ⟨h.vol, hc, h.sb, h.out⟩
    by_cases hv : (s.icache k).valid = true
    swap
    · exact ⟨m, a, hput, hsame (h.cached.drop hg (by simpa using hv)), fun _ => ⟨rfl, rfl⟩,
        fun _ => ⟨rfl, fun _ => ⟨rfl, fun _ _ hs => hs⟩⟩⟩
    by_cases href : (s.icache k).ref = 1
    · -- the last reference: the copy goes, the inode stays
      have hi := h.cached.range k i ⟨hpos, hv, hinum⟩
      have hinode : (view sb s.disk).inode i = { m i with addrs := ((view sb s.disk).inode i).addrs } :=
        (h.vol.lag i hi).same
      refine ⟨_, a, hput, ⟨h.vol.evict (i := i) (by rw [hd]; exact fun hc => by cases hc) hi, ?_, h.sb, h.out⟩, ?_,
        fun _ => ⟨rfl, fun hs => ⟨hs, fun j hji hs => hs.update hji _⟩⟩⟩
      · refine h.cached.evict hg href (fun hk' => hfree href (hl hk')) (by simp [href]) rfl fun hw hn' ht h0 => ?_
        rw [hinode] at ht h0
        obtain ⟨k', hk'⟩ := h.cached.orphan hw i hi hn' ht h0
        obtain rfl : k' = k := h.cached.eq_of_inum hk'.1 hpos (hk'.2.2.trans hinum.symm)
        refine hc ⟨href, hk'.2.1, ?_⟩
        rw [(h.cached.copy k' i hk').1]
        exact h0
      · rintro (he | he)
        · exact absurd he (hfree href)
        · rw [hv] at he
          cases he
    · exact ⟨m, a, hput, hsame (h.cached.unpin hg href), fun _ => ⟨rfl, rfl⟩,
        fun _ => ⟨rfl, fun _ => ⟨rfl, fun _ _ hs => hs⟩⟩⟩

/-- `iput` of a reference that `iget` has just given -/
theorem wp_iput_got (wf : sb.WF) (h : RepM sb τ m a { g with pins := (k, i) ::ₘ g.pins } s) (hgot : Got sb m g.pins k i s)
    (hd : g.dirty = none) (hn : g.newborn = none) :
    wp (iput k) (fun _ t => RepM sb τ m a g t ∧ t.disk = s.disk) (Stop σ) s := by
  have hgot' : (∃ p ∈ g.pins, p.2 = i) ∨ (s.icache k).valid = false := hgot.imp_right And.left
  have hl : k ∈ g.locks → ∃ p ∈ g.pins, p.2 = i := by
    intro hk
    refine hgot'.resolve_right fun hv => ?_
    have := (h.cached.held k hk).2
    rw [hv] at this
    cases this
  refine wp_imp (wp_iput wf h rfl hl hd hn) ?_
  rintro _ t ⟨m', a', -, hrep, hsame, hdisk⟩
  obtain ⟨rfl, rfl⟩ := hsame hgot'
  exact ⟨hrep, (hdisk rfl).1⟩

end

end Xv6.Fs
