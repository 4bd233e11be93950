/-
Page tables as maps.

`pteAt` is the map a page table stands for: from the place of a PTE (the path to its page table and its index there) to
the PTE, when it is present. `PageTable` is the invariant of the user half: it is a tree, the free list has no
duplicates and none of its pages is in the tree, and every page is one `kfree` accepts. Pages taken from the allocator
and not yet linked are `hand`.
An allocating walk may add tables and changes no PTE (`Grown`, `PageTable.graft`), a store into a page table changes the
PTE it names (`Phys.pteAt_store`), and a PTE is removed with its page put on the free list (`PageTable.drop`).
-/
import Xv6.Vm.PageTable

namespace Xv6.Vm

open Xv6.Bytes Xv6.Wp Xv6.Radix Function

/-- the PML4 slots of the user half -/
def UserSlot (i : Idx) : Prop := i.toNat < 256

instance (i : Idx) : Decidable (UserSlot i) := inferInstanceAs (Decidable (i.toNat < 256))

/-- a page that `kfree` accepts -/
def Usable (kend : ℕ) (f : Frame) : Prop := kend ≤ f.addr ∧ f.addr < PHYSTOP

/-- what a path of indices leads to -/
def Phys.at (s : Phys) (root : Frame) (p : List Idx) : Option Frame := follow child s.entry root p

/-- page f is a table or a user page of this address space -/
def Phys.Owns (s : Phys) (root f : Frame) : Prop := ∃ p, Starts UserSlot p ∧ p.length ≤ 4 ∧ s.at root p = some f

/-- page f is a table of this address space -/
def Phys.Table (s : Phys) (root f : Frame) : Prop := ∃ p, Starts UserSlot p ∧ p.length < 4 ∧ s.at root p = some f

/-- the present PTE with index i of the page table at path p -/
def Phys.pteAt (s : Phys) (root : Frame) (p : List Idx) (i : Idx) : Option Addr :=
  ((s.at root p).map fun f => s.entry f i).filter fun e => e &&& PTE_P ≠ 0

structure PageTable (kend : ℕ) (root : Frame) (hand : Frame → Prop) (s : Phys) : Prop where
  tree : Tree child UserSlot 4 s.entry root
  nodup : s.free.Nodup
  free_apart : ∀ f ∈ s.free, ¬ s.Owns root f
  hand_apart : ∀ f, hand f → ¬ s.Owns root f ∧ f ∉ s.free
  usable : ∀ f, f ∈ s.free ∨ hand f ∨ s.Owns root f → Usable kend f

variable {kend : ℕ} {root : Frame} {hand : Frame → Prop} {s t u : Phys}

theorem Phys.Table.owns {f : Frame} (h : s.Table root f) : s.Owns root f := by
  obtain ⟨p, hp, hlen, hf⟩ := h
  exact ⟨p, hp, by omega, hf⟩

theorem Phys.owns_congr {f : Frame} (hat : ∀ q, Starts UserSlot q → q.length ≤ 4 → t.at root q = s.at root q) :
    t.Owns root f ↔ s.Owns root f :=
  ⟨fun ⟨p, hp, hl, hf⟩ => ⟨p, hp, hl, (hat p hp hl).symm.trans hf⟩,
    fun ⟨p, hp, hl, hf⟩ => ⟨p, hp, hl, (hat p hp hl).trans hf⟩⟩

/-- the free pages, the pages in hand and the pages of the address space -/
def account (root : Frame) (hand : Frame → Prop) (s : Phys) : Set Frame := {f | f ∈ s.free ∨ hand f ∨ s.Owns root f}

theorem mem_account {f : Frame} : f ∈ account root hand s ↔ f ∈ s.free ∨ hand f ∨ s.Owns root f := Iff.rfl

theorem account_congr (hfree : t.free = s.free)
    (hat : ∀ q, Starts UserSlot q → q.length ≤ 4 → t.at root q = s.at root q) :
    account root hand t = account root hand s := by
  ext f
  rw [mem_account, mem_account, hfree, Phys.owns_congr hat]

/-- the invariant depends on the state through its free list and its paths only -/
theorem PageTable.of_at (h : PageTable kend root hand s) (hfree : t.free = s.free)
    (hat : ∀ q, Starts UserSlot q → q.length ≤ 4 → t.at root q = s.at root q) : PageTable kend root hand t := by
  have howns : ∀ f, t.Owns root f ↔ s.Owns root f := fun f => Phys.owns_congr hat
  refine ⟨?_, by rw [hfree]; exact h.nodup, ?_, ?_, ?_⟩
  · intro p q f hp hq hpl hql hpf hqf
    exact h.tree p q f hp hq hpl hql ((hat p hp hpl).symm.trans hpf) ((hat q hq hql).symm.trans hqf)
  · intro f hf
    rw [howns]
    exact h.free_apart f (hfree ▸ hf)
  · intro f hf
    rw [howns, hfree]
    exact h.hand_apart f hf
  · intro f hf
    rw [howns, hfree] at hf
    exact h.usable f hf

/-- paths depend on the contents of tables only -/
theorem Phys.at_congr (hmem : ∀ f, s.Table root f → t.mem f = s.mem f) {q : List Idx} (hq : Starts UserSlot q)
    (hlen : q.length ≤ 4) : t.at root q = s.at root q :=
  follow_congr (fun p i f hp hd hf => by
    have := hmem f ⟨p, hp.of_append, hd, hf⟩
    simp only [Phys.entry, this]) hq hlen

/-- `kalloc` takes a page in hand -/
theorem PageTable.take (h : PageTable kend root hand s) {g : Frame} {rest : List Frame} (hfree : s.free = g :: rest) :
    PageTable kend root (fun f => f = g ∨ hand f) { s with free := rest } := by
  have hnd := h.nodup
  rw [hfree, List.nodup_cons] at hnd
  have hg : g ∈ s.free := by rw [hfree]; exact List.mem_cons_self
  have hrest : ∀ f ∈ rest, f ∈ s.free := fun f hf => by rw [hfree]; exact List.mem_cons_of_mem g hf
  refine ⟨h.tree, hnd.2, fun f hf => h.free_apart f (hrest f hf), ?_, ?_⟩
  · rintro f (rfl | hf)
    · exact ⟨h.free_apart f hg, hnd.1⟩
    · exact ⟨(h.hand_apart f hf).1, fun hm => (h.hand_apart f hf).2 (hrest f hm)⟩
  · rintro f (hf | (rfl | hf) | hf)
    · exact h.usable f (.inl (hrest f hf))
    · exact h.usable f (.inl hg)
    · exact h.usable f (.inr (.inl hf))
    · exact h.usable f (.inr (.inr hf))

/-- an entry stored on a path of the tree: its child, if any, leaves the hand -/
theorem PageTable.store (h : PageTable kend root hand s) {p : List Idx} {i : Idx} {f : Frame} {e : Addr}
    (hp : Starts UserSlot (p ++ [i])) (hlen : p.length < 4) (hf : s.at root p = some f)
    (hlow : p.length + 1 = 4 ∨ child (s.entry f i) = none ∧ ∀ g, child e = some g → ∀ j, child (s.entry g j) = none)
    (hnew : ∀ g, child e = some g → hand g) :
    PageTable kend root (fun g => hand g ∧ child e ≠ some g) (s.store f i e) ∧
      ∀ q, Starts UserSlot q → q.length ≤ 4 →
        (s.store f i e).at root q = if q = p ++ [i] then child e else s.at root q := by
  have howner : s.Owns root f := ⟨p, hp.of_append, by omega, hf⟩
  have hlow' : p.length + 1 = 4 ∨
      child (s.entry f i) = none ∧ ∀ g, child e = some g → g ≠ f ∧ ∀ j, child (s.entry g j) = none :=
    hlow.imp_right fun ⟨hold, hleaf⟩ => ⟨hold, fun g hg =>
      ⟨fun hgf => (h.hand_apart g (hnew g hg)).1 (hgf ▸ howner), hleaf g hg⟩⟩
  have hat : ∀ q, Starts UserSlot q → q.length ≤ 4 →
      (s.store f i e).at root q = if q = p ++ [i] then child e else s.at root q := fun q hq hl => by
    rw [Phys.at, Phys.entry_store]
    exact follow_set h.tree hp hlen hf hlow' hq hl
  have howns : ∀ g, (s.store f i e).Owns root g → s.Owns root g ∨ child e = some g := by
    rintro g ⟨q, hq, hl, hg⟩
    rw [hat q hq hl] at hg
    split_ifs at hg with hqp
    · exact .inr hg
    · exact .inl ⟨q, hq, hl, hg⟩
  refine ⟨⟨?_, h.nodup, ?_, ?_, ?_⟩, hat⟩
  · rw [Phys.entry_store]
    exact h.tree.set hp hlen hf hlow' fun g q hg hq hl hc => (h.hand_apart g (hnew g hg)).1 ⟨q, hq, hl, hc⟩
  · intro g hg ho
    rcases howns g ho with ho | ho
    · exact h.free_apart g hg ho
    · exact (h.hand_apart g (hnew g ho)).2 hg
  · rintro g ⟨hg, hne⟩
    exact ⟨fun ho => (howns g ho).elim (h.hand_apart g hg).1 hne, (h.hand_apart g hg).2⟩
  · rintro g (hg | ⟨hg, -⟩ | hg)
    · exact h.usable g (.inl hg)
    · exact h.usable g (.inr (.inl hg))
    · rcases howns g hg with ho | ho
      · exact h.usable g (.inr (.inr ho))
      · exact h.usable g (.inr (.inl (hnew g ho)))

theorem PageTable.weaken {hand' : Frame → Prop} (h : PageTable kend root hand s) (hsub : ∀ f, hand' f → hand f) :
    PageTable kend root hand' s :=
  ⟨h.tree, h.nodup, h.free_apart, fun f hf => h.hand_apart f (hsub f hf), fun f hf =>
    h.usable f (hf.imp_right (Or.imp_left (hsub f)))⟩

theorem starts_nil : Starts UserSlot [] := fun i hi => by cases hi

theorem Phys.owns_self (s : Phys) (root : Frame) : s.Owns root root := ⟨[], starts_nil, Nat.zero_le 4, rfl⟩

theorem PageTable.owns_root (h : PageTable kend root hand s) {p : List Idx} (hp : Starts UserSlot p)
    (hlen : p.length ≤ 4) (hat : s.at root p = some root) : p = [] :=
  h.tree p [] root hp starts_nil hlen (Nat.zero_le 4) hat rfl

theorem child_zero : child 0 = none := by decide

theorem Phys.pteAt_eq_none {p : List Idx} {i : Idx} (h : s.at root p = none) : s.pteAt root p i = none := by
  simp only [Phys.pteAt, h, Option.map_none, Option.filter_none]

theorem Phys.pteAt_eq_filter {p : List Idx} {i : Idx} {f : Frame} (h : s.at root p = some f) :
    s.pteAt root p i = (some (s.entry f i)).filter fun e => e &&& PTE_P ≠ 0 := by
  simp only [Phys.pteAt, h, Option.map_some]

theorem Phys.pteAt_congr (hmem : ∀ f, s.Table root f → t.mem f = s.mem f) {q : List Idx} (i : Idx)
    (hq : Starts UserSlot q) (hlen : q.length = 3) : t.pteAt root q i = s.pteAt root q i := by
  have hat := Phys.at_congr hmem hq (by omega)
  cases hx : s.at root q with
  | none => rw [Phys.pteAt_eq_none hx, Phys.pteAt_eq_none (hat.trans hx)]
  | some x =>
    have hsame := hmem x ⟨q, hq, by omega, hx⟩
    rw [Phys.pteAt_eq_filter hx, Phys.pteAt_eq_filter (hat.trans hx)]
    simp only [Phys.entry, hsame]

/-! ## Adding tables -/

/-- since s only slots of the user half have been walked and no file bytes have been loaded -/
def Quiet (s t : Phys) : Prop :=
  ∃ l, t.trace = s.trace ++ l ∧ (∀ f b, .load f b ∉ l) ∧ ∀ slot, .walk slot ∈ l → UserSlot slot

theorem Quiet.of_eq (h : t.trace = s.trace) : Quiet s t :=
  ⟨[], by rw [h, List.append_nil], fun _ _ => List.not_mem_nil, fun _ hs => by cases hs⟩

theorem Quiet.trans (h1 : Quiet s t) (h2 : Quiet t u) : Quiet s u := by
  obtain ⟨l1, ht1, hload1, hwalk1⟩ := h1
  obtain ⟨l2, ht2, hload2, hwalk2⟩ := h2
  refine ⟨l1 ++ l2, by rw [ht2, ht1, List.append_assoc], fun f b hf => ?_, fun slot hs => ?_⟩
  · exact (List.mem_append.1 hf).elim (hload1 f b) (hload2 f b)
  · exact (List.mem_append.1 hs).elim (hwalk1 slot) (hwalk2 slot)

/-- tables stay where they are and new ones come from the free list; no other page, and no slot of the kernel half, has
changed -/
structure Kept (root : Frame) (s t : Phys) : Prop where
  at_old : ∀ p f, Starts UserSlot p → p.length < 4 → s.at root p = some f → t.at root p = some f
  at_new : ∀ p f, Starts UserSlot p → p.length < 4 → t.at root p = some f → s.at root p = some f ∨ f ∈ s.free
  free : t.free <:+ s.free
  mem : ∀ f, f ∉ s.free → ¬ s.Table root f → t.mem f = s.mem f
  slots : ∀ i, ¬ UserSlot i → t.entry root i = s.entry root i
  trace : Quiet s t

theorem Kept.refl (root : Frame) (s : Phys) : Kept root s s :=
  ⟨fun _ _ _ _ hf => hf, fun _ _ _ _ hf => .inl hf, List.suffix_rfl, fun _ _ _ => rfl, fun _ _ => rfl, Quiet.of_eq rfl⟩

theorem Kept.trans (h1 : Kept root s t) (h2 : Kept root t u) : Kept root s u := by
  refine ⟨fun p f hp hl hf => h2.at_old p f hp hl (h1.at_old p f hp hl hf), ?_, h2.free.trans h1.free, ?_,
    fun i hi => (h2.slots i hi).trans (h1.slots i hi), h1.trace.trans h2.trace⟩
  · intro p f hp hl hf
    rcases h2.at_new p f hp hl hf with hf | hf
    · exact h1.at_new p f hp hl hf
    · exact .inr (h1.free.subset hf)
  · intro f hfree htab
    rw [h2.mem f (fun hf => hfree (h1.free.subset hf)) ?_, h1.mem f hfree htab]
    rintro ⟨p, hp, hl, hf⟩
    rcases h1.at_new p f hp hl hf with hf | hf
    · exact htab ⟨p, hp, hl, hf⟩
    · exact hfree hf

/-- no PTE has changed -/
structure Grown (kend : ℕ) (root : Frame) (hand : Frame → Prop) (s t : Phys) : Prop where
  inv : PageTable kend root hand t
  pte : ∀ p i, Starts UserSlot p → p.length = 3 → t.pteAt root p i = s.pteAt root p i
  kept : Kept root s t

theorem Grown.refl (h : PageTable kend root hand s) : Grown kend root hand s s :=
  ⟨h, fun _ _ _ _ => rfl, Kept.refl root s⟩

theorem Grown.trans (h1 : Grown kend root hand s t) (h2 : Grown kend root hand t u) : Grown kend root hand s u :=
  ⟨h2.inv, fun p i hp hl => (h2.pte p i hp hl).trans (h1.pte p i hp hl), h1.kept.trans h2.kept⟩

theorem Grown.record (h : PageTable kend root hand s) {slot : Idx} (hslot : UserSlot slot) :
    Grown kend root hand s (s.record (.walk slot)) := by
  refine ⟨⟨h.tree, h.nodup, h.free_apart, h.hand_apart, h.usable⟩, fun _ _ _ _ => rfl,
    ⟨fun _ _ _ _ hf => hf, fun _ _ _ _ hf => .inl hf, List.suffix_rfl, fun _ _ _ => rfl, fun _ _ => rfl,
      [.walk slot], rfl, fun f b hf => ?_, fun i hi => ?_⟩⟩
  · cases List.mem_singleton.1 hf
  · cases List.mem_singleton.1 hi
    exact hslot

/-- 1 if there is no table at path q, 0 if there is one -/
def Phys.lacks (s : Phys) (root : Frame) (q : List Idx) : ℕ := if (s.at root q).isSome then 0 else 1

/-- the paths in ps now lead to tables, and each one that did not has cost a page of the free list -/
structure Opened (root : Frame) (ps : List (List Idx)) (s t : Phys) : Prop where
  count : t.free.length + (ps.map (s.lacks root)).sum = s.free.length
  tables : ∀ q, Starts UserSlot q → q.length < 4 → ((t.at root q).isSome ↔ (s.at root q).isSome ∨ q ∈ ps)

theorem Phys.lacks_of_opened {ps : List (List Idx)} (h : Opened root ps s t) {q : List Idx} (hq : Starts UserSlot q)
    (hl : q.length < 4) (hne : q ∉ ps) : t.lacks root q = s.lacks root q := by
  have := h.tables q hq hl
  simp only [Phys.lacks, this, hne, or_false]

theorem Opened.trans {ps qs : List (List Idx)} (h1 : Opened root ps s t) (h2 : Opened root qs t u)
    (hqs : ∀ q ∈ qs, Starts UserSlot q ∧ q.length < 4 ∧ q ∉ ps) : Opened root (ps ++ qs) s u := by
  refine ⟨?_, fun q hq hl => ?_⟩
  · have hsame : qs.map (t.lacks root) = qs.map (s.lacks root) := List.map_congr_left fun q hq =>
      Phys.lacks_of_opened h1 (hqs q hq).1 (hqs q hq).2.1 (hqs q hq).2.2
    have hc1 := h1.count
    have hc2 := h2.count
    rw [hsame] at hc2
    rw [List.map_append, List.sum_append]
    omega
  · rw [h2.tables q hq hl, h1.tables q hq hl, List.mem_append, or_assoc]

/-- after a walk that stopped before path q -/
theorem Opened.few {ps : List (List Idx)} (h : Opened root ps s t) {q : List Idx} (hq : Starts UserSlot q)
    (hl : q.length < 4) (hne : q ∉ ps) (hfew : t.free.length < t.lacks root q) :
    s.free.length < ((ps ++ [q]).map (s.lacks root)).sum := by
  rw [Phys.lacks_of_opened h hq hl hne] at hfew
  have hcount := h.count
  rw [List.map_append, List.sum_append, List.map_singleton, List.sum_singleton]
  omega

/-- **A new table.** An empty page from the free list linked into an empty entry above the last level. -/
theorem PageTable.graft (h : PageTable kend root hand s) {p : List Idx} {i : Idx} {f g : Frame} {rest : List Frame}
    (hfree : s.free = g :: rest) (hp : Starts UserSlot (p ++ [i])) (hlen : p.length < 3) (hf : s.at root p = some f)
    (hempty : child (s.entry f i) = none) :
    let t := (({ s with free := rest } : Phys).fill g 0).store f i (mkPte g (PTE_P ||| PTE_W ||| PTE_U))
    Grown kend root hand s t ∧ t.at root (p ++ [i]) = some g ∧ Opened root [p ++ [i]] s t := by
  intro t
  have hgfree : g ∈ s.free := by rw [hfree]; exact List.mem_cons_self
  have hgown : ¬ s.Owns root g := h.free_apart g hgfree
  have howner : s.Owns root f := ⟨p, hp.of_append, by omega, hf⟩
  have hfg : f ≠ g := fun hc => hgown (hc ▸ howner)
  have hchild : child (mkPte g (PTE_P ||| PTE_W ||| PTE_U)) = some g := child_mkPte g (by decide) (by decide)
  -- the page is taken and zeroed, and its entry stored
  have hat2 : ∀ q, Starts UserSlot q → q.length ≤ 4 →
      (({ s with free := rest } : Phys).fill g 0).at root q = s.at root q := fun q hq hl =>
    Phys.at_congr (s := s) (fun x hx => update_of_ne (fun hc : x = g => hgown (hc ▸ hx.owns)) _ _) hq hl
  have h2 := (h.take hfree).of_at (t := ({ s with free := rest } : Phys).fill g 0) rfl hat2
  have hentry : ∀ x j, (({ s with free := rest } : Phys).fill g 0).entry x j = if x = g then 0 else s.entry x j :=
    fun x j => Phys.entry_fill _ g x j
  obtain ⟨h3, hat3⟩ := h2.store (e := mkPte g (PTE_P ||| PTE_W ||| PTE_U)) hp (by omega)
    ((hat2 p hp.of_append (by omega)).trans hf)
    (.inr ⟨by rw [hentry, if_neg hfg]; exact hempty, fun g' hg' j => by
      obtain rfl : g = g' := Option.some.inj (hchild.symm.trans hg')
      rw [hentry, if_pos rfl, child_zero]⟩)
    (fun g' hg' => .inl (Option.some.inj (hg'.symm.trans hchild)))
  have hat : ∀ q, Starts UserSlot q → q.length ≤ 4 → t.at root q = if q = p ++ [i] then some g else s.at root q :=
    fun q hq hl => by rw [hat3 q hq hl, hat2 q hq hl, hchild]
  have hold : s.at root (p ++ [i]) = none := by
    rw [Phys.at, follow_snoc, show follow child s.entry root p = some f from hf, Option.bind_some, hempty]
  have hnew : ∀ x j, (x = f → j ≠ i) → x ≠ g → t.entry x j = s.entry x j := fun x j hx hxg => by
    rw [Phys.entry_store, set_other _ _ hx, hentry, if_neg hxg]
  have hgentry : ∀ j, t.entry g j = 0 := fun j => by
    rw [Phys.entry_store, set_other _ _ (fun hc => absurd hc.symm hfg), hentry, if_pos rfl]
  refine ⟨⟨h3.weaken fun x hx => ⟨.inr hx, fun hc => ?_⟩, ?_, ⟨?_, ?_, ?_, ?_, ?_, ?_⟩⟩, ?_, ?_, ?_⟩
  · rw [hchild] at hc
    exact (h.hand_apart x hx).2 (Option.some.inj hc ▸ hgfree)
  · intro q j hq hl
    by_cases hqp : q = p ++ [i]
    · rw [Phys.pteAt_eq_filter (f := g) (by rw [hat q hq (by omega), if_pos hqp]), hgentry, hqp, Phys.pteAt_eq_none hold]
      decide
    · have hsame := hat q hq (by omega)
      rw [if_neg hqp] at hsame
      cases hx : s.at root q with
      | none => rw [Phys.pteAt_eq_none hx, Phys.pteAt_eq_none (hsame.trans hx)]
      | some x =>
        rw [Phys.pteAt_eq_filter hx, Phys.pteAt_eq_filter (hsame.trans hx), hnew]
        · rintro rfl
          obtain rfl := h.tree q p x hq hp.of_append (by omega) (by omega) hx hf
          omega
        · rintro rfl
          exact hgown ⟨q, hq, by omega, hx⟩
  · intro q x hq hl hx
    rw [hat q hq (by omega), if_neg]
    · exact hx
    · rintro rfl
      rw [hold] at hx
      cases hx
  · intro q x hq hl hx
    rw [hat q hq (by omega)] at hx
    split_ifs at hx with hqp
    · exact .inr (Option.some.inj hx ▸ hgfree)
    · exact .inl hx
  · rw [hfree]
    exact List.suffix_cons g rest
  · intro x hx htab
    have hxg : x ≠ g := fun hc => hx (hc ▸ hgfree)
    have hxf : x ≠ f := fun hc => htab (hc ▸ ⟨p, hp.of_append, by omega, hf⟩)
    exact (update_of_ne hxf _ _).trans (update_of_ne hxg _ _)
  · intro j hj
    refine hnew root j ?_ ?_
    · rintro rfl rfl
      obtain rfl := h.owns_root hp.of_append (by omega) hf
      exact hj (hp j rfl)
    · rintro rfl
      exact hgown (s.owns_self root)
  · exact Quiet.of_eq rfl
  · rw [hat _ hp (by simp only [List.length_append, List.length_singleton]; omega), if_pos rfl]
  · rw [List.map_singleton, List.sum_singleton, Phys.lacks, hold, hfree]
    rfl
  · intro q hq hl
    rw [hat q hq (by omega), List.mem_singleton]
    split_ifs with hqp
    · simp [hqp]
    · simp [hqp]

theorem Phys.at_snoc {p : List Idx} {i : Idx} {f : Frame} (hf : s.at root p = some f) :
    s.at root (p ++ [i]) = child (s.entry f i) := by
  rw [Phys.at, follow_snoc, show follow child s.entry root p = some f from hf, Option.bind_some]

/-! ## Storing a PTE -/

section

variable {p : List Idx} {i : Idx} {f : Frame} {e : Addr}

theorem Phys.at_store_table (h : PageTable kend root hand s) (hp : Starts UserSlot p) (hlen : p.length = 3)
    (hf : s.at root p = some f) {q : List Idx} (hq : Starts UserSlot q) (hql : q.length < 4) :
    (s.store f i e).at root q = s.at root q := by
  rw [Phys.at, Phys.entry_store]
  refine follow_set_off h.tree hp (by omega) hf hq (by omega) fun hpre => ?_
  have := hpre.length_le
  simp only [List.length_append, List.length_singleton] at this
  omega

/-- **Store of a PTE.** The map changes at the place of the PTE and nowhere else. -/
theorem Phys.pteAt_store (h : PageTable kend root hand s) (hp : Starts UserSlot p) (hlen : p.length = 3)
    (hf : s.at root p = some f) {q : List Idx} {j : Idx} (hq : Starts UserSlot q) (hql : q.length = 3) :
    (s.store f i e).pteAt root q j =
      if q = p ∧ j = i then (some e).filter (fun e => e &&& PTE_P ≠ 0) else s.pteAt root q j := by
  have hat := Phys.at_store_table (i := i) (e := e) h hp hlen hf hq (by omega)
  cases hx : s.at root q with
  | none =>
    rw [Phys.pteAt_eq_none (hat.trans hx), Phys.pteAt_eq_none hx, if_neg]
    rintro ⟨rfl, -⟩
    rw [hf] at hx
    cases hx
  | some x =>
    rw [Phys.pteAt_eq_filter (hat.trans hx), Phys.pteAt_eq_filter hx, Phys.entry_store]
    by_cases hqj : q = p ∧ j = i
    · obtain ⟨rfl, rfl⟩ := hqj
      obtain rfl : f = x := Option.some.inj (hf.symm.trans hx)
      rw [set_same, if_pos ⟨rfl, rfl⟩]
    · rw [if_neg hqj, set_other]
      rintro rfl rfl
      exact hqj ⟨h.tree q p x hq hp (by omega) (by omega) hx hf, rfl⟩

/-- a PTE rewritten with the same page -/
theorem PageTable.rewrite (h : PageTable kend root hand s) (hp : Starts UserSlot (p ++ [i])) (hlen : p.length = 3)
    (hf : s.at root p = some f) (hsame : child e = child (s.entry f i)) :
    PageTable kend root hand (s.store f i e) := by
  refine h.of_at rfl fun q hq hl => ?_
  rw [Phys.at, Phys.entry_store, follow_set h.tree hp (by omega) hf (.inl (by omega)) hq hl]
  split_ifs with hqp
  · rw [hqp, hsame, Phys.at_snoc hf]
  · rfl

theorem Kept.store (h : PageTable kend root hand s) (hp : Starts UserSlot p) (hlen : p.length = 3)
    (hf : s.at root p = some f) : Kept root s (s.store f i e) := by
  have hat : ∀ q, Starts UserSlot q → q.length < 4 → (s.store f i e).at root q = s.at root q :=
    fun q hq hl => Phys.at_store_table h hp hlen hf hq hl
  refine ⟨fun q x hq hl hx => (hat q hq hl).trans hx, fun q x hq hl hx => .inl ((hat q hq hl).symm.trans hx),
    List.suffix_rfl, ?_, ?_, Quiet.of_eq rfl⟩
  · intro x _ htab
    exact update_of_ne (fun hc : x = f => htab (hc ▸ ⟨p, hp, by omega, hf⟩)) _ _
  · intro j _
    rw [Phys.entry_store, set_other]
    rintro rfl
    have := h.owns_root hp (by omega) hf
    subst this
    cases hlen

end

theorem starts_dir {va : Addr} (h : UserSlot (pmx va)) : Starts UserSlot (dir va) := fun i hi => by cases hi; exact h

theorem starts_path {va : Addr} (h : UserSlot (pmx va)) : Starts UserSlot (dir va ++ [ptx va]) :=
  fun i hi => by cases hi; exact h

/-! ## Freeing user pages -/

/-- a page outside the tree goes back to the free list -/
theorem PageTable.release (h : PageTable kend root hand s) {f : Frame} (hown : ¬ s.Owns root f) (hfree : f ∉ s.free)
    (hu : Usable kend f) : PageTable kend root (fun x => hand x ∧ x ≠ f) (s.release f) ∧
      ∀ q, Starts UserSlot q → q.length ≤ 4 → (s.release f).at root q = s.at root q := by
  have hat : ∀ q, Starts UserSlot q → q.length ≤ 4 → (s.release f).at root q = s.at root q := fun q hq hl =>
    Phys.at_congr (fun x hx => update_of_ne (fun hc : x = f => hown (hc ▸ hx.owns)) _ _) hq hl
  have h' := h.of_at (t := { s.release f with free := s.free }) rfl hat
  refine ⟨⟨h'.tree, List.nodup_cons.2 ⟨hfree, h.nodup⟩, ?_, ?_, ?_⟩, hat⟩
  · intro x hx
    rcases List.mem_cons.1 hx with rfl | hx
    · rintro ⟨q, hq, hl, hf⟩
      exact hown ⟨q, hq, hl, (hat q hq hl).symm.trans hf⟩
    · exact h'.free_apart x hx
  · rintro x ⟨hx, hne⟩
    obtain ⟨h1, h2⟩ := h'.hand_apart x hx
    refine ⟨h1, fun hm => ?_⟩
    rcases List.mem_cons.1 hm with hc | hm
    · exact hne hc
    · exact h2 hm
  · rintro x (hx | ⟨hx, -⟩ | hx)
    · rcases List.mem_cons.1 hx with rfl | hx
      · exact hu
      · exact h'.usable x (.inl hx)
    · exact h'.usable x (.inr (.inl hx))
    · exact h'.usable x (.inr (.inr hx))

theorem Phys.release_store {f pt : Frame} (h : pt ≠ f) (i : Idx) (e : Addr) :
    (s.release f).store pt i e = (s.store pt i e).release f := by
  simp only [Phys.release, Phys.store, update_of_ne h, update_comm h]

/-- the PTEs of the addresses in l are gone; tables, the other PTEs, the pages in hand and the kernel half are as before -/
structure Cleared (kend : ℕ) (root : Frame) (hand : Frame → Prop) (l : List Addr) (s t : Phys) : Prop where
  inv : PageTable kend root hand t
  gone : ∀ a ∈ l, UserSlot (pmx a) → t.pteAt root (dir a) (ptx a) = none
  pte : ∀ q j, Starts UserSlot q → q.length = 3 → (∀ a ∈ l, ¬ (q = dir a ∧ j = ptx a)) →
    t.pteAt root q j = s.pteAt root q j
  less : ∀ q j e, Starts UserSlot q → q.length = 3 → t.pteAt root q j = some e → s.pteAt root q j = some e
  tables : ∀ q, Starts UserSlot q → q.length < 4 → t.at root q = s.at root q
  slots : ∀ i, ¬ UserSlot i → t.entry root i = s.entry root i
  held : ∀ f, hand f → t.mem f = s.mem f
  trace : Quiet s t

theorem Cleared.nil (h : PageTable kend root hand s) : Cleared kend root hand [] s s :=
  ⟨h, fun _ ha => (by cases ha), fun _ _ _ _ _ => rfl, fun _ _ _ _ _ he => he, fun _ _ _ => rfl, fun _ _ => rfl,
    fun _ _ => rfl, Quiet.of_eq rfl⟩

theorem Cleared.append {l1 l2 : List Addr} (h1 : Cleared kend root hand l1 s t) (h2 : Cleared kend root hand l2 t u) :
    Cleared kend root hand (l1 ++ l2) s u := by
  refine ⟨h2.inv, ?_, ?_, fun q j e hq hl he => h1.less q j e hq hl (h2.less q j e hq hl he),
    fun q hq hl => (h2.tables q hq hl).trans (h1.tables q hq hl), fun i hi => (h2.slots i hi).trans (h1.slots i hi),
    fun f hf => (h2.held f hf).trans (h1.held f hf), h1.trace.trans h2.trace⟩
  · intro a ha hva
    rcases List.mem_append.1 ha with ha | ha
    · by_contra hc
      obtain ⟨e, he⟩ := Option.ne_none_iff_exists'.1 hc
      have := h2.less _ _ e (starts_dir hva) rfl he
      rw [h1.gone a ha hva] at this
      cases this
    · exact h2.gone a ha hva
  · intro q j hq hl hne
    rw [h2.pte q j hq hl fun a ha => hne a (List.mem_append_right l1 ha),
      h1.pte q j hq hl fun a ha => hne a (List.mem_append_left l2 ha)]

/-- the state after a lookup: one more event in the record, at most -/
def Phys.looked (s : Phys) (root : Frame) (a : Addr) : Phys :=
  if (child (s.entry root (pmx a))).isSome then s.record (.walk (pmx a)) else s

theorem Phys.entry_looked (root f : Frame) (a : Addr) (i : Idx) : (s.looked root a).entry f i = s.entry f i := by
  rw [Phys.looked]
  split_ifs <;> rfl

theorem Phys.mem_looked (root : Frame) (a : Addr) : (s.looked root a).mem = s.mem := by
  rw [Phys.looked]
  split_ifs <;> rfl

theorem Phys.at_looked (root : Frame) (a : Addr) (p : List Idx) : (s.looked root a).at root p = s.at root p := by
  rw [Phys.looked]
  split_ifs <;> rfl

/-- the slot of a is in the user half, or empty -/
def Walkable (s : Phys) (root : Frame) (a : Addr) : Prop := UserSlot (pmx a) ∨ child (s.entry root (pmx a)) = none

theorem Grown.looked (h : PageTable kend root hand s) {a : Addr} (ha : Walkable s root a) :
    Grown kend root hand s (s.looked root a) := by
  rw [Phys.looked]
  split_ifs with hsome
  · exact Grown.record h (ha.resolve_right fun hc => by rw [hc] at hsome; cases hsome)
  · exact Grown.refl h

theorem Cleared.looked (h : PageTable kend root hand s) {a : Addr} (ha : Walkable s root a) :
    Cleared kend root hand [] s (s.looked root a) := by
  have hlook := Grown.looked h ha
  exact ⟨hlook.inv, fun _ hb => (by cases hb), fun q j hq hl _ => hlook.pte q j hq hl,
    fun q j e hq hl he => (hlook.pte q j hq hl).symm.trans he, fun q _ _ => Phys.at_looked root a q,
    fun i _ => Phys.entry_looked root root a i, fun f _ => congrFun (Phys.mem_looked root a) f, hlook.kept.trace⟩

/-- an address without a present PTE is clear already -/
theorem Cleared.absent (h : PageTable kend root hand s) {a : Addr}
    (ha : UserSlot (pmx a) → s.pteAt root (dir a) (ptx a) = none) : Cleared kend root hand [a] s s :=
  ⟨h, fun _ hb => List.mem_singleton.1 hb ▸ ha, fun _ _ _ _ _ => rfl, fun _ _ _ _ _ he => he, fun _ _ _ => rfl,
    fun _ _ => rfl, fun _ _ => rfl, Quiet.of_eq rfl⟩

/-- a present PTE removed and its page put on the free list -/
theorem PageTable.drop (h : PageTable kend root hand s) {a : Addr} {pt : Frame} (hva : UserSlot (pmx a))
    (hpt : s.at root (dir a) = some pt) (hpres : s.entry pt (ptx a) &&& PTE_P ≠ 0) :
    let f := pteFrame (s.entry pt (ptx a))
    Usable kend f ∧ Cleared kend root hand [a] s ((s.release f).store pt (ptx a) 0) ∧
      account root hand ((s.release f).store pt (ptx a) 0) = account root hand s := by
  intro f
  have hf : s.at root (dir a ++ [ptx a]) = some f := by rw [Phys.at_snoc hpt, child, if_pos hpres]
  have hown : s.Owns root f := ⟨_, starts_path hva, by simp [dir], hf⟩
  have hlen : (dir a ++ [ptx a]).length = 4 := rfl
  have htab : ∀ x, s.Table root x → x ≠ f := by
    rintro x ⟨q, hq, hl, hx⟩ hxf
    obtain rfl := h.tree q _ f hq (starts_path hva) (by omega) (by omega) (hxf ▸ hx) hf
    omega
  have hptf : pt ≠ f := htab pt ⟨dir a, starts_dir hva, by simp [dir], hpt⟩
  -- in the code the page is freed before its PTE is cleared; the two steps commute
  rw [Phys.release_store hptf]
  obtain ⟨h1, hat1⟩ := h.store (e := 0) (starts_path hva) (by simp [dir]) hpt (.inl rfl) (fun g hg => by
    rw [child_zero] at hg; cases hg)
  have hnown : ¬ (s.store pt (ptx a) 0).Owns root f := by
    rintro ⟨q, hq, hl, hx⟩
    rw [hat1 q hq hl, child_zero] at hx
    split_ifs at hx with hqa
    exact hqa (h.tree q _ f hq (starts_path hva) hl (by omega) hx hf)
  obtain ⟨h2, hat2⟩ := h1.release hnown (h.free_apart f · hown) (h.usable f (.inr (.inr hown)))
  have hkept := Kept.store (i := ptx a) (e := 0) h (starts_dir hva) rfl hpt
  have hmem : ∀ x, (s.store pt (ptx a) 0).Table root x →
      ((s.store pt (ptx a) 0).release f).mem x = (s.store pt (ptx a) 0).mem x := fun x hx =>
    update_of_ne (fun hc : x = f => hnown (hc ▸ hx.owns)) _ _
  have hpte : ∀ q j, Starts UserSlot q → q.length = 3 → ((s.store pt (ptx a) 0).release f).pteAt root q j =
      if q = dir a ∧ j = ptx a then none else s.pteAt root q j := fun q j hq hl => by
    rw [Phys.pteAt_congr hmem j hq hl, Phys.pteAt_store h (starts_dir hva) rfl hpt hq hl]
    rfl
  have howns : ∀ x, s.Owns root x ↔ x = f ∨ (s.store pt (ptx a) 0).Owns root x := by
    intro x
    constructor
    · rintro ⟨q, hq, hl, hx⟩
      by_cases hqa : q = dir a ++ [ptx a]
      · exact .inl (Option.some.inj ((hqa ▸ hx).symm.trans hf))
      · exact .inr ⟨q, hq, hl, by rw [hat1 q hq hl, if_neg hqa, hx]⟩
    · rintro (rfl | ⟨q, hq, hl, hx⟩)
      · exact hown
      · rw [hat1 q hq hl, child_zero] at hx
        split_ifs at hx
        exact ⟨q, hq, hl, hx⟩
  refine ⟨h.usable f (.inr (.inr hown)), ⟨h2.weaken fun x hx => ⟨⟨hx, by rw [child_zero]; simp⟩,
    fun hc => (h.hand_apart x hx).1 (hc ▸ hown)⟩, ?_, ?_, ?_, ?_, ?_, ?_, ?_⟩, ?_⟩
  · intro b hb hvb
    rw [List.mem_singleton.1 hb, hpte _ _ (starts_dir hva) rfl, if_pos ⟨rfl, rfl⟩]
  · intro q j hq hl hne
    rw [hpte q j hq hl, if_neg (hne a List.mem_cons_self)]
  · intro q j e hq hl he
    rw [hpte q j hq hl] at he
    split_ifs at he
    exact he
  · intro q hq hl
    rw [hat2 q hq (by omega), Phys.at_store_table h (starts_dir hva) rfl hpt hq hl]
  · intro i hi
    have hroot : root ≠ f := htab root ⟨[], starts_nil, by simp, rfl⟩
    rw [← hkept.slots i hi]
    simp only [Phys.entry, Phys.release, update_of_ne hroot]
  · intro x hx
    have hxo := (h.hand_apart x hx).1
    have hxf : x ≠ f := fun hc => hxo (hc ▸ hown)
    have hxpt : x ≠ pt := fun hc => hxo (hc ▸ ⟨dir a, starts_dir hva, by simp [dir], hpt⟩)
    exact (update_of_ne hxf _ _).trans (update_of_ne hxpt _ _)
  · exact Quiet.of_eq rfl
  · ext x
    rw [mem_account, mem_account, Phys.owns_congr hat2, howns]
    change x ∈ f :: s.free ∨ hand x ∨ _ ↔ _
    rw [List.mem_cons, or_assoc, or_left_comm, or_left_comm (a := hand x)]

theorem Walkable.of_slots {a : Addr} (h : Walkable s root a) (hs : ∀ i, ¬ UserSlot i → t.entry root i = s.entry root i) :
    Walkable t root a := by
  by_cases hu : UserSlot (pmx a)
  · exact .inl hu
  · exact .inr (by rw [hs _ hu]; exact h.resolve_left hu)

end Xv6.Vm
