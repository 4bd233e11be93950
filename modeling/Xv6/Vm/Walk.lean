/-
Walking, mapping and unmapping (`walkpgdir`, `mappages` and `deallocuvm` of `vm.c`).

Each operation is specified once over the map a page table stands for: an allocating walk may add tables and changes no
PTE, `mappages` of one page stores one PTE, and `deallocuvm` removes PTEs and frees their pages. None of them loses a page.
-/
import Xv6.Vm.Account

namespace Xv6.Vm

open Xv6.Bytes Xv6.Wp Xv6.Radix

variable {kend : ℕ} {root : Frame} {hand : Frame → Prop} {s t u : Phys} {J : Phys → Prop}

/-! ## Walks -/

/-- J outlives an allocating walk: a new table, and the record of the walk -/
structure Survives (kend : ℕ) (root : Frame) (hand : Frame → Prop) (J : Phys → Prop) : Prop where
  graft : ∀ {s : Phys} {p : List Idx} {i : Idx} {f g : Frame} {rest : List Frame}, PageTable kend root hand s → J s →
    s.free = g :: rest → Starts UserSlot (p ++ [i]) → p.length < 3 → s.at root p = some f → child (s.entry f i) = none →
    J ((({ s with free := rest } : Phys).fill g 0).store f i (mkPte g (PTE_P ||| PTE_W ||| PTE_U)))
  record : ∀ {s : Phys} {slot : Idx}, J s → J (s.record (.walk slot))

/-- a walk loses no page -/
theorem survives_account (s : Phys) : Survives kend root hand fun t => account root hand t = account root hand s where
  graft h hs hfree hp hlen hf hempty := by
    obtain ⟨hgrown, hat, -⟩ := h.graft hfree hp hlen hf hempty
    refine (hgrown.account fun x hx => ?_).trans hs
    rw [hfree] at hx
    rcases List.mem_cons.1 hx with rfl | hx
    · exact .inr ⟨_, hp, by simp only [List.length_append, List.length_singleton]; omega, hat⟩
    · exact .inl hx
  record hs := hs

/-- one level of an allocating walk -/
theorem walkLevel_spec (hJ : Survives kend root hand J) (h : PageTable kend root hand s) (hs : J s) {p : List Idx} {i : Idx}
    {f : Frame} (hp : Starts UserSlot (p ++ [i])) (hlen : p.length < 3) (hf : s.at root p = some f) :
    wp (walkLevel f i true)
      (fun r t => Grown kend root hand s t ∧ (∀ g, r = some g → t.at root (p ++ [i]) = some g ∧ Opened root [p ++ [i]] s t) ∧
        (r = none → s.free.length < s.lacks root (p ++ [i])) ∧ J t) (fun _ _ => False) s := by
  simp only [walkLevel, wp_bind, wp_get]
  by_cases hpres : s.entry f i &&& PTE_P ≠ 0
  · rw [if_pos hpres, wp_pure]
    have hat : s.at root (p ++ [i]) = some (pteFrame (s.entry f i)) := by rw [Phys.at_snoc hf, child, if_pos hpres]
    refine ⟨Grown.refl h, fun g hg => ⟨by rw [hat, hg], ?_, fun q _ _ => ?_⟩, (fun hg => by cases hg), hs⟩
    · rw [List.map_singleton, List.sum_singleton, Phys.lacks, hat]
      rfl
    · rw [List.mem_singleton]
      exact ⟨.inl, fun hq => hq.elim id fun hq => by rw [hq, hat]; rfl⟩
  · have hempty : child (s.entry f i) = none := if_neg hpres
    rw [if_neg hpres, if_neg (by decide), wp_bind]
    refine wp_kalloc (fun hnil => wp_return ⟨Grown.refl h, fun g hg => (by cases hg), fun _ => ?_, hs⟩) fun g rest hfree => ?_
    · rw [hnil, Phys.lacks, Phys.at_snoc hf, hempty]
      exact Nat.zero_lt_one
    · obtain ⟨hgrown, hat⟩ := h.graft hfree hp hlen hf hempty
      simp only [wp_bind, wp_modify]
      exact wp_return ⟨hgrown, (fun g' hg' => by cases hg'; exact hat), (fun hc => by cases hc),
        hJ.graft h hs hfree hp hlen hf hempty⟩

/-- the paths to the three tables of an address -/
def tablePaths (va : Addr) : List (List Idx) := [[pmx va], [pmx va, pdpx va], dir va]

/-- how many tables an allocating walk to va has to make -/
def Phys.missing (s : Phys) (root : Frame) (va : Addr) : ℕ := ((tablePaths va).map (s.lacks root)).sum

/-- **An allocating walk** of the user half adds tables and changes no PTE. It ends at the page table of the address, and
fails only when the free list is shorter than the tables it has to make. -/
theorem walkpgdir_spec (hJ : Survives kend root hand J) (h : PageTable kend root hand s) (hs : J s) {va : Addr}
    (hva : UserSlot (pmx va)) :
    wp (walkpgdir root va true)
      (fun r t => Grown kend root hand s t ∧
        (∀ x, r = some x → x.2 = ptx va ∧ t.at root (dir va) = some x.1 ∧ Opened root (tablePaths va) s t) ∧
        (r = none → s.free.length < s.missing root va) ∧ J t)
      (fun _ _ => False) s := by
  have hstart : ∀ p : List Idx, Starts UserSlot (pmx va :: p) := fun p i hi => by cases hi; exact hva
  have hmiss : s.missing root va = s.lacks root [pmx va] + (s.lacks root [pmx va, pdpx va] + s.lacks root (dir va)) :=
    rfl
  simp only [walkpgdir, wp_bind]
  refine wp_imp (walkLevel_spec hJ h hs (p := []) (hstart []) (by simp) rfl) ?_
  rintro (_ | pdp) s1 ⟨hg1, hat1, hfew1, hs1⟩
  · exact wp_return ⟨hg1, fun x hx => (by cases hx),
      (fun _ => by have := hfew1 rfl; rw [List.nil_append] at this; omega), hs1⟩
  obtain ⟨hpdp, hopen1⟩ := hat1 pdp rfl
  have hg2 := hg1.trans (Grown.record hg1.inv hva)
  have hopen2 : Opened root [[pmx va]] s (s1.record (.walk (pmx va))) := ⟨hopen1.count, hopen1.tables⟩
  simp only [wp_bind, wp_modify]
  refine wp_imp (walkLevel_spec hJ hg2.inv (hJ.record hs1) (p := [pmx va]) (hstart [pdpx va]) (by simp) hpdp) ?_
  rintro (_ | pd) s2 ⟨hg3, hat2, hfew2, hs2⟩
  · refine wp_return ⟨hg2.trans hg3, fun x hx => (by cases hx), fun _ => ?_, hs2⟩
    calc s.free.length < s.lacks root [pmx va] + s.lacks root [pmx va, pdpx va] :=
          hopen2.few (hstart [pdpx va]) (by simp) (by simp) (hfew2 rfl)
      _ ≤ s.missing root va := by omega
  obtain ⟨hpd, hopen3⟩ := hat2 pd rfl
  have hg4 := hg2.trans hg3
  have hopen4 := hopen2.trans hopen3 fun q hq => by
    rw [List.mem_singleton.1 hq]
    exact ⟨hstart [pdpx va], by simp, by simp⟩
  simp only [wp_bind]
  refine wp_imp (walkLevel_spec hJ hg4.inv hs2 (p := [pmx va, pdpx va]) (hstart [pdpx va, pdx va]) (by simp) hpd) ?_
  rintro (_ | pgtab) s3 ⟨hg5, hat3, hfew3, hs3⟩
  · refine wp_return ⟨hg4.trans hg5, fun x hx => (by cases hx), fun _ => ?_, hs3⟩
    exact hopen4.few (q := dir va) (hstart [pdpx va, pdx va]) (by simp [dir]) (by simp [dir]) (hfew3 rfl)
  · obtain ⟨hpt, hopen5⟩ := hat3 pgtab rfl
    have hopen6 := hopen4.trans hopen5 fun q hq => by
      rw [List.mem_singleton.1 hq]
      exact ⟨hstart [pdpx va, pdx va], by simp, by simp⟩
    exact wp_return ⟨hg4.trans hg5, fun x hx => (by cases hx; exact ⟨rfl, hpt, hopen6⟩), (fun hx => by cases hx),
      hs3⟩

/-! ## `mappages` -/

theorem toNat_PGSIZE : PGSIZE.toNat = 4096 := rfl

/-- for one page-aligned page the loop body runs once -/
theorem mappages_page {a : Addr} (ha : a.toNat % 4096 = 0) (pgdir pa : Frame) (perm : Addr) :
    mappages pgdir a PGSIZE pa perm = mappagesLoop pgdir perm 0 a pa := by
  have hlt := a.isLt
  have hdown : pgRoundDown a = a := BitVec.eq_of_toNat_eq (by rw [pgRoundDown_toNat]; omega)
  have hsum : (a + PGSIZE - 1).toNat = a.toNat + 4095 := by
    rw [BitVec.toNat_sub, BitVec.toNat_add, toNat_PGSIZE, show (1 : Addr).toNat = 1 from rfl]
    omega
  have hlast : pgRoundDown (a + PGSIZE - 1) = a := BitVec.eq_of_toNat_eq (by rw [pgRoundDown_toNat, hsum]; omega)
  simp only [mappages, hdown, hlast, BitVec.sub_self]
  rfl

/-- **Mapping one page.** Either no PTE changes, or the page in hand becomes the page of `a` and nothing else moves. -/
theorem mappages_spec (h : PageTable kend root hand s) {a : Addr} {g : Frame} {perm : Addr} (ha : a.toNat % 4096 = 0)
    (hva : UserSlot (pmx a)) (hg : hand g) (hperm : (perm ||| PTE_P).toNat < 4096 ∧ (perm ||| PTE_P).toNat % 2 = 1)
    (hfresh : s.pteAt root (dir a) (ptx a) = none) :
    wp (mappages root a PGSIZE g perm)
      (fun r t => ((r = -1 ∧ Grown kend root hand s t ∧ s.free.length < s.missing root a) ∨
        (r = 0 ∧ PageTable kend root (fun f => hand f ∧ f ≠ g) t ∧ Kept root s t ∧ Opened root (tablePaths a) s t ∧
          ∀ q j, Starts UserSlot q → q.length = 3 → t.pteAt root q j =
            if q = dir a ∧ j = ptx a then some (mkPte g (perm ||| PTE_P)) else s.pteAt root q j)) ∧
        account root (fun f => hand f ∧ (r = 0 → f ≠ g)) t = account root hand s)
      (fun _ _ => False) s := by
  have hchild : child (mkPte g (perm ||| PTE_P)) = some g := child_mkPte g hperm.1 hperm.2
  have hpres : mkPte g (perm ||| PTE_P) &&& PTE_P ≠ 0 := fun hc => by
    rw [child, if_neg (not_not.2 hc)] at hchild
    cases hchild
  rw [mappages_page ha, mappagesLoop, wp_bind]
  refine wp_imp (walkpgdir_spec (survives_account s) h rfl hva) ?_
  rintro (_ | ⟨pt, i⟩) t ⟨hgrown, hwalk, hfew, hacc⟩
  · exact wp_return ⟨.inl ⟨rfl, hgrown, hfew rfl⟩, by simpa using hacc⟩
  obtain ⟨rfl, hat, hopen⟩ := hwalk (pt, i) rfl
  -- the PTE is still empty, so there is no remap
  have hnone := (hgrown.pte (dir a) (ptx a) (starts_dir hva) rfl).trans hfresh
  have hempty : ¬ t.entry pt (ptx a) &&& PTE_P ≠ 0 := by
    have hnone := hnone
    rw [Phys.pteAt_eq_filter hat] at hnone
    simpa using hnone
  simp only [wp_bind, wp_get, if_neg hempty, wp_modify]
  obtain ⟨hinv, -⟩ := hgrown.inv.store (e := mkPte g (perm ||| PTE_P)) (starts_path hva) (by simp [dir]) hat
    (.inl rfl) (fun g' hg' => Option.some.inj (hchild.symm.trans hg') ▸ hg)
  refine wp_return ⟨.inr ⟨rfl, hinv.weaken fun x hx => ⟨hx.1, fun hc => hx.2 (Option.some.inj (hc.symm.trans hchild))⟩,
    hgrown.kept.trans (Kept.store hgrown.inv (starts_dir hva) rfl hat), ⟨hopen.count, fun q hq hl => ?_⟩,
    fun q j hq hl => ?_⟩, ?_⟩
  · rw [Phys.at_store_table hgrown.inv (starts_dir hva) rfl hat hq hl, hopen.tables q hq hl]
  · rw [Phys.pteAt_store hgrown.inv (starts_dir hva) rfl hat hq hl, hgrown.pte q j hq hl]
    simp only [Option.filter_some, hpres, decide_true, ne_eq, not_false_eq_true, if_true]
  · rw [← hacc, ← account_link hgrown.inv (starts_path hva) rfl hat hnone hchild hg]
    simp

/-! ## Freeing user pages -/

theorem wp_kfree {f : Frame} (hu : Usable kend f) {Q : PUnit → Phys → Prop} {E : Fault → Phys → Prop}
    (h : Q ⟨⟩ (s.release f)) : wp (kfree kend f) Q E s := by
  have hin : ¬ (f.addr < kend ∨ PHYSTOP ≤ f.addr) := by
    obtain ⟨h1, h2⟩ := hu
    omega
  rw [kfree, if_neg hin, wp_modify]
  exact h

/-- **Freeing one page** of the user half, or an address whose PML4 slot is empty, never panics. -/
theorem deallocPage_spec (hk : 0 < kend) (h : PageTable kend root hand s) {a : Addr} (ha : Walkable s root a) :
    wp (deallocPage kend root a) (fun _ t => Unmapped kend root hand [a] s t) (fun _ _ => False) s := by
  rw [deallocPage, wp_bind, wp_walkpgdir_false]
  change wp _ _ _ (s.looked root a)
  have hlook := Unmapped.looked h ha
  rw [show follow child s.entry root (dir a) = s.at root (dir a) from rfl, ← Phys.at_looked root a]
  cases hpt : (s.looked root a).at root (dir a) with
  | none => exact wp_return <| hlook.append (Unmapped.absent hlook.inv fun _ => Phys.pteAt_eq_none hpt)
  | some pt =>
    have hva : UserSlot (pmx a) := by
      refine ha.resolve_right fun hc => ?_
      rw [Phys.at, dir, follow, Phys.entry_looked, hc] at hpt
      cases hpt
    simp only [Option.map_some, wp_bind, wp_get]
    by_cases hpres : (s.looked root a).entry pt (ptx a) &&& PTE_P ≠ 0
    · obtain ⟨hu, hdrop⟩ := hlook.inv.unmap hva hpt hpres
      have hnz : pteFrame ((s.looked root a).entry pt (ptx a)) ≠ 0 := fun hc => by
        rw [hc] at hu
        have := hu.1
        simp only [Frame.addr, show (0 : Frame).toNat = 0 from rfl] at this
        omega
      rw [if_pos hpres, if_neg hnz, wp_bind]
      refine wp_kfree hu ?_
      rw [wp_modify]
      exact hlook.append hdrop
    · rw [if_neg hpres]
      refine wp_return (hlook.append (Unmapped.absent hlook.inv fun _ => ?_))
      rw [Phys.pteAt_eq_filter hpt]
      simpa using hpres

/-- the loop of `deallocuvm`: what has been done of the list is clear -/
theorem deallocPages_spec (hk : 0 < kend) (h : PageTable kend root hand s) (l : List Addr)
    (ha : ∀ a ∈ l, Walkable s root a) :
    wp (forM l (deallocPage kend root)) (fun _ t => Unmapped kend root hand l s t) (fun _ _ => False) s := by
  have hloop := wp_forM (E := fun _ _ => False) (g := deallocPage kend root) (s := s)
    (fun bs t => ∃ done, l = done ++ bs ∧ Unmapped kend root hand done s t) ?_ l ⟨[], rfl, ⟨Cleared.nil h, rfl, Given.refl root s⟩⟩
  · refine wp_imp hloop ?_
    rintro _ t ⟨done, hl, hc⟩
    rw [List.append_nil] at hl
    exact hl ▸ hc
  · rintro b bs t ⟨done, hl, hc⟩
    have hb : Walkable t root b :=
      (ha b (by rw [hl]; exact List.mem_append_right _ List.mem_cons_self)).of_slots hc.slots
    refine wp_imp (deallocPage_spec hk hc.inv hb) ?_
    intro _ u hu
    exact ⟨done ++ [b], by rw [hl, List.append_assoc]; rfl, hc.append hu⟩

/-- **`deallocuvm`** over a range of the user half and of empty slots never panics. -/
theorem deallocuvm_spec (hk : 0 < kend) (h : PageTable kend root hand s) {oldsz newsz : Addr} (hlt : newsz < oldsz)
    (ha : ∀ a ∈ pageAddrs (pgRoundUp newsz) oldsz, Walkable s root a) :
    wp (deallocuvm kend root oldsz newsz)
      (fun r t => r = newsz ∧ Unmapped kend root hand (pageAddrs (pgRoundUp newsz) oldsz) s t) (fun _ _ => False) s := by
  rw [deallocuvm, if_neg (BitVec.not_le.2 hlt), wp_bind]
  exact wp_imp (deallocPages_spec hk h _ ha) (fun _ _ ht => wp_return ⟨rfl, ht⟩)

end Xv6.Vm
