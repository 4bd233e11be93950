/-
Where the pages are, and which hold what they held.

`account` collects the free list, the pages in hand and the pages of an address space. The operations of `vm.c` move pages
between the three and lose none: a walk makes tables of free pages (`Grown.account`), a page in hand is linked
(`account_link`), a page is unlinked and freed (`Unmapped`). A page in use before and after, other than a table, holds what
it held (`Still`).
-/
import Xv6.Vm.Map

namespace Xv6.Vm

open Xv6.Bytes Xv6.Wp Xv6.Radix

variable {kend : ℕ} {root : Frame} {hand : Frame → Prop} {s t u : Phys} {f : Frame}

/-- a new address space has its root and nothing else -/
theorem Phys.owns_bare (hat : ∀ q, Starts UserSlot q → q ≠ [] → s.at root q = none) : s.Owns root f ↔ f = root := by
  constructor
  · intro ⟨q, hq, _, hf⟩
    by_cases hne : q = []
    · rw [hne] at hf
      exact (Option.some.inj hf).symm
    · cases (hat q hq hne).symm.trans hf
  · intro hf
    rw [hf]
    exact s.owns_self root

/-- what a whole path of four indices leads to is the page of a PTE -/
theorem Phys.at_page (s : Phys) (root : Frame) (p : List Idx) (i : Idx) :
    s.at root (p ++ [i]) = (s.pteAt root p i).map pteFrame := by
  cases hf : s.at root p with
  | none => rw [Phys.pteAt_eq_none hf, Phys.at, follow_snoc, show follow child s.entry root p = none from hf]; rfl
  | some f =>
    rw [Phys.pteAt_eq_filter hf, Phys.at_snoc hf, child, Option.filter_some]
    simp only [decide_eq_true_eq]
    split_ifs <;> rfl

/-- equal tables and equal PTEs: equal paths -/
theorem Phys.at_eq_of_pteAt (htab : ∀ q, Starts UserSlot q → q.length < 4 → t.at root q = s.at root q)
    (hpte : ∀ q j, Starts UserSlot q → q.length = 3 → t.pteAt root q j = s.pteAt root q j) {q : List Idx}
    (hq : Starts UserSlot q) (hl : q.length ≤ 4) : t.at root q = s.at root q := by
  rcases Nat.lt_or_eq_of_le hl with hl | hl
  · exact htab q hq hl
  · obtain ⟨p, i, rfl⟩ := (List.eq_nil_or_concat' q).resolve_left (by rintro rfl; cases hl)
    rw [List.length_append, List.length_singleton] at hl
    rw [Phys.at_page, Phys.at_page, hpte p i hq.of_append (by omega)]

/-! ## Walks -/

theorem Grown.owns (h : Grown kend root hand s t) (hf : s.Owns root f) : t.Owns root f := by
  obtain ⟨q, hq, hl, hf⟩ := hf
  refine ⟨q, hq, hl, ?_⟩
  rcases Nat.lt_or_eq_of_le hl with hl | hl
  · exact h.kept.at_old q f hq hl hf
  · obtain ⟨p, i, rfl⟩ := (List.eq_nil_or_concat' q).resolve_left (by rintro rfl; cases hl)
    rw [List.length_append, List.length_singleton] at hl
    rwa [Phys.at_page, h.pte p i hq.of_append (by omega), ← Phys.at_page]

theorem Grown.owns_new (h : Grown kend root hand s t) (hf : t.Owns root f) : s.Owns root f ∨ f ∈ s.free := by
  obtain ⟨q, hq, hl, hf⟩ := hf
  rcases Nat.lt_or_eq_of_le hl with hl | hl
  · exact (h.kept.at_new q f hq hl hf).imp_left fun hf => ⟨q, hq, by omega, hf⟩
  · obtain ⟨p, i, rfl⟩ := (List.eq_nil_or_concat' q).resolve_left (by rintro rfl; cases hl)
    refine .inl ⟨p ++ [i], hq, by omega, ?_⟩
    rw [List.length_append, List.length_singleton] at hl
    rwa [Phys.at_page, ← h.pte p i hq.of_append (by omega), ← Phys.at_page]

/-- a walk after which every page taken is a table -/
theorem Grown.account (h : Grown kend root hand s t) (htaken : ∀ f ∈ s.free, f ∈ t.free ∨ t.Owns root f) :
    account root hand t = account root hand s := by
  ext f
  rw [mem_account, mem_account]
  constructor
  · rintro (hf | hf | hf)
    · exact .inl (h.kept.free.subset hf)
    · exact .inr (.inl hf)
    · exact (h.owns_new hf).elim (fun hf => .inr (.inr hf)) .inl
  · rintro (hf | hf | hf)
    · exact (htaken f hf).imp_right .inr
    · exact .inr (.inl hf)
    · exact .inr (.inr (h.owns hf))

/-! ## PTEs -/

section

variable {p : List Idx} {i : Idx} {pt : Frame} {e : Addr}

/-- a page in hand linked into an empty PTE -/
theorem account_link (h : PageTable kend root hand s) (hp : Starts UserSlot (p ++ [i])) (hlen : p.length = 3)
    (hpt : s.at root p = some pt) (hempty : s.pteAt root p i = none) {g : Frame} (hchild : child e = some g) (hg : hand g) :
    account root (fun f => hand f ∧ f ≠ g) (s.store pt i e) = account root hand s := by
  obtain ⟨-, hat⟩ := h.store hp (by omega) hpt (.inl (by omega)) fun x hx => Option.some.inj (hchild.symm.trans hx) ▸ hg
  rw [hchild] at hat
  have hlen' : (p ++ [i]).length ≤ 4 := by rw [List.length_append, List.length_singleton]; omega
  have hold : s.at root (p ++ [i]) = none := by rw [Phys.at_page, hempty]; rfl
  have howns : ∀ f, (s.store pt i e).Owns root f ↔ f = g ∨ s.Owns root f := by
    intro f
    constructor
    · rintro ⟨q, hq, hl, hf⟩
      rw [hat q hq hl] at hf
      split_ifs at hf with hqp
      · exact .inl (Option.some.inj hf).symm
      · exact .inr ⟨q, hq, hl, hf⟩
    · rintro (rfl | ⟨q, hq, hl, hf⟩)
      · exact ⟨p ++ [i], hp, hlen', by rw [hat _ hp hlen', if_pos rfl]⟩
      · refine ⟨q, hq, hl, ?_⟩
        rw [hat q hq hl, if_neg, hf]
        rintro rfl
        cases hold.symm.trans hf
  ext f
  rw [mem_account, mem_account, howns]
  change f ∈ s.free ∨ _ ↔ _
  by_cases hfg : f = g
  · simp [hfg, hg]
  · simp [hfg]

end

theorem account_looked (root : Frame) (hand : Frame → Prop) (s : Phys) (a : Addr) :
    account root hand (s.looked root a) = account root hand s := by
  refine account_congr ?_ fun q _ _ => Phys.at_looked root a q
  rw [Phys.looked]
  split_ifs <;> rfl

/-! ## Pages that stay -/

/-- a page in use before and after, other than a table, holds what it held -/
def Still (root : Frame) (s t : Phys) : Prop := ∀ f, ¬ s.Table root f → f ∉ s.free → f ∉ t.free → t.mem f = s.mem f

theorem Kept.still (h : Kept root s t) : Still root s t := fun f htab hfree _ => h.mem f hfree htab

theorem Still.after_kept (h : Kept root s t) (h' : Still root t u) : Still root s u := by
  intro f htab hfree hu
  rw [h' f ?_ (fun hc => hfree (h.free.subset hc)) hu, h.mem f hfree htab]
  rintro ⟨p, hp, hl, hf⟩
  obtain hf | hf := h.at_new p f hp hl hf
  · exact htab ⟨p, hp, hl, hf⟩
  · exact hfree hf

/-- the free list has grown, and pages that stay hold what they held -/
structure Given (root : Frame) (s t : Phys) : Prop where
  free : s.free ⊆ t.free
  tables : ∀ f, t.Table root f ↔ s.Table root f
  mem : ∀ f, ¬ s.Table root f → f ∉ t.free → t.mem f = s.mem f

theorem Given.refl (root : Frame) (s : Phys) : Given root s s := ⟨List.Subset.refl _, fun _ => Iff.rfl, fun _ _ _ => rfl⟩

theorem Given.trans (h : Given root s t) (h' : Given root t u) : Given root s u where
  free := List.Subset.trans h.free h'.free
  tables f := (h'.tables f).trans (h.tables f)
  mem f htab hu := by
    rw [h'.mem f (fun hc => htab ((h.tables f).1 hc)) hu, h.mem f htab fun hc => hu (h'.free hc)]

theorem Given.still (h : Given root s t) : Still root s t := fun f htab _ ht => h.mem f htab ht

theorem Cleared.table_iff {l : List Addr} (h : Cleared kend root hand l s t) (f : Frame) :
    t.Table root f ↔ s.Table root f := by
  constructor
  · rintro ⟨p, hp, hl, hf⟩
    exact ⟨p, hp, hl, (h.tables p hp hl).symm.trans hf⟩
  · rintro ⟨p, hp, hl, hf⟩
    exact ⟨p, hp, hl, (h.tables p hp hl).trans hf⟩

/-- the PTEs of the addresses in l are gone, and no page with them -/
structure Unmapped (kend : ℕ) (root : Frame) (hand : Frame → Prop) (l : List Addr) (s t : Phys) : Prop
    extends Cleared kend root hand l s t where
  pages : account root hand t = account root hand s
  given : Given root s t

theorem Unmapped.append {l1 l2 : List Addr} (h1 : Unmapped kend root hand l1 s t) (h2 : Unmapped kend root hand l2 t u) :
    Unmapped kend root hand (l1 ++ l2) s u :=
  ⟨h1.toCleared.append h2.toCleared, h2.pages.trans h1.pages, h1.given.trans h2.given⟩

/-- a lookup -/
theorem Unmapped.looked (h : PageTable kend root hand s) {a : Addr} (ha : Walkable s root a) :
    Unmapped kend root hand [] s (s.looked root a) := by
  have hclear := Cleared.looked h ha
  have hfree : (s.looked root a).free = s.free := by
    rw [Phys.looked]
    split_ifs <;> rfl
  exact ⟨hclear, account_looked root hand s a, fun x hx => hfree.symm ▸ hx, hclear.table_iff,
    fun f _ _ => congrFun (Phys.mem_looked root a) f⟩

/-- an address without a present PTE -/
theorem Unmapped.absent (h : PageTable kend root hand s) {a : Addr}
    (ha : UserSlot (pmx a) → s.pteAt root (dir a) (ptx a) = none) : Unmapped kend root hand [a] s s :=
  ⟨Cleared.absent h ha, rfl, Given.refl root s⟩

/-- a present PTE and its page -/
theorem PageTable.unmap (h : PageTable kend root hand s) {a : Addr} {pt : Frame} (hva : UserSlot (pmx a))
    (hpt : s.at root (dir a) = some pt) (hpres : s.entry pt (ptx a) &&& PTE_P ≠ 0) :
    let f := pteFrame (s.entry pt (ptx a))
    Usable kend f ∧ Unmapped kend root hand [a] s ((s.release f).store pt (ptx a) 0) := by
  intro f
  obtain ⟨hu, hclear, hacc⟩ := h.drop hva hpt hpres
  refine ⟨hu, hclear, hacc, List.subset_cons_self _ _, hclear.table_iff, fun x htab hout => ?_⟩
  have hpt' : x ≠ pt := fun hc => htab (hc ▸ ⟨dir a, starts_dir hva, by simp [dir], hpt⟩)
  have hout' : x ≠ f := fun hc => hout (hc ▸ List.mem_cons_self)
  exact (Function.update_of_ne hpt' _ _).trans (Function.update_of_ne hout' _ _)

end Xv6.Vm
