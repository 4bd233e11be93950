/-
Growing and shrinking a process: a failed `allocuvm`, and `growproc` of `proc.c`.

- `allocuvm_undone`: when `allocuvm` fails, at whichever page or table, the present pages are as before, and what it took
  from the free list is back there or is a table of the address space;
- `growproc_all_or_nothing_iff`: for requests that stay in the user half, when `growproc` either does exactly what was
  asked or nothing. It does not for a process of size 0, whose page 0 it maps; when a process gives up its whole size,
  since a new size of 0 is taken for a failure after the pages are gone; and when it gives up more than its size, since
  the wrapped-around sum looks like growth to `deallocuvm`, which does nothing and succeeds.
-/
import Xv6.Vm.Fork

namespace Xv6.Vm

open Xv6.Bytes Xv6.Wp Xv6.Radix

variable {kend : ℕ} {root : Frame} {hand : Frame → Prop} {s t u : Phys}

/-! ## A failed `allocuvm` -/

section

variable {oldsz newsz : Addr}

/-- the addresses `allocuvm` goes through are those of pages of the user half -/
theorem mem_request (hle : oldsz ≤ newsz) (hnew : newsz.toNat ≤ 2 ^ 47) {a : Addr}
    (ha : a ∈ pageAddrs (pgRoundUp oldsz) newsz) :
    a.toNat % 4096 = 0 ∧ oldsz.toNat ≤ a.toNat ∧ (pgRoundUp oldsz).toNat ≤ a.toNat ∧ a.toNat < newsz.toNat := by
  rw [BitVec.le_def] at hle
  have hround := pgRoundUp_toNat oldsz (by omega)
  obtain ⟨k, hk, hlt⟩ := mem_pageAddrs.1 ha
  omega

theorem request_pairwise (hnew : newsz.toNat ≤ 2 ^ 47) :
    (pageAddrs (pgRoundUp oldsz) newsz).Pairwise fun a b => path a ≠ path b := pageAddrs_pairwise (by omega)

/-- when no PTE has changed, what is no longer free is a table -/
theorem account_tables (h : PageTable kend root hand s) (hacc : account root hand t = account root hand s)
    (hpte : ∀ q j, Starts UserSlot q → q.length = 3 → t.pteAt root q j = s.pteAt root q j) {f : Frame}
    (hf : f ∈ s.free) : f ∈ t.free ∨ t.Table root f := by
  have hmem : f ∈ account root hand t := by
    rw [hacc]
    exact .inl hf
  obtain hmem | hmem | ⟨p, hp, hl, hat⟩ := hmem
  · exact .inl hmem
  · exact absurd hf (h.hand_apart f hmem).2
  obtain hlt | heq := Nat.lt_or_eq_of_le hl
  · exact .inr ⟨p, hp, hlt, hat⟩
  -- a user page: its PTE was there before
  obtain ⟨q, j, rfl⟩ : ∃ q j, p = q ++ [j] := by
    obtain rfl | hp' := List.eq_nil_or_concat' p
    · cases heq
    · exact hp'
  have hq : q.length = 3 := by simpa using heq
  have hst : Starts UserSlot q := by
    intro i hi
    refine hp i ?_
    cases q with
    | nil => cases hq
    | cons x q => exact hi
  have hs : s.at root (q ++ [j]) = some f := by
    rw [Phys.at_page, ← hpte q j hst hq, ← Phys.at_page]
    exact hat
  exact absurd ⟨_, hp, hl, hs⟩ (h.free_apart f hf)

/-- **A failed `allocuvm` is undone**, whichever `kalloc` it was that failed. -/
theorem allocuvm_undone (hk : 0 < kend) (h : PageTable kend root hand s) (hle : oldsz ≤ newsz)
    (hnew : newsz.toNat ≤ 2 ^ 47)
    (habs : ∀ a : Addr, (pgRoundUp oldsz).toNat ≤ a.toNat → a.toNat < 2 ^ 47 → s.pteAt root (dir a) (ptx a) = none) :
    wp (allocuvm kend root oldsz newsz)
      (fun r t => r = 0 →
        (∀ q j, Starts UserSlot q → q.length = 3 → t.pteAt root q j = s.pteAt root q j) ∧
        ∀ f ∈ s.free, f ∈ t.free ∨ t.Table root f) (fun _ _ => False) s := by
  have habs' : ∀ a ∈ pageAddrs (pgRoundUp oldsz) newsz, s.pteAt root (dir a) (ptx a) = none := fun a ha => by
    have := mem_request hle hnew ha
    exact habs a (by omega) (by omega)
  refine wp_mono (allocuvm_spec hk h hle hnew habs') ?_ (fun _ _ he => he)
  rintro r t ⟨hspec, hacc, -⟩ hr
  have hpte : ∀ q j, Starts UserSlot q → q.length = 3 → t.pteAt root q j = s.pteAt root q j := by
    intro q j hq hl
    by_cases hin : ∃ a ∈ pageAddrs (pgRoundUp oldsz) newsz, q = dir a ∧ j = ptx a
    · obtain ⟨a, ha, rfl, rfl⟩ := hin
      have hlt := mem_request hle hnew ha
      obtain ⟨-, hundone⟩ | ⟨rfl, -⟩ := hspec
      · rw [hundone.gone a ha (pmx_of_lt (by omega)), habs' a ha]
      · rw [hr] at hlt
        exact absurd hlt.2.2.2 (Nat.not_lt_zero _)
    · have hout : ∀ a ∈ pageAddrs (pgRoundUp oldsz) newsz, ¬(q = dir a ∧ j = ptx a) := fun a ha hc => hin ⟨a, ha, hc⟩
      obtain ⟨-, hundone⟩ | ⟨-, halloc⟩ := hspec
      · exact hundone.pte q j hq hl hout
      · exact halloc.pte q j hq hl hout
  exact ⟨hpte, fun f hf => account_tables h hacc hpte hf⟩

/-- Three free pages: the second page asked for is not to be had after its page-table pages are made. -/
theorem allocuvm_undone_three_pages :
    ∃ t, allocuvm 0x100000 0x200 0x1000 0x3000 (bareSpace [0x202, 0x203, 0x204]) = .ok 0 t ∧
      ∀ f ∈ (bareSpace [0x202, 0x203, 0x204]).free, f ∈ t.free ∨ t.Table 0x200 f := by
  obtain ⟨h, -, hnone⟩ := @bareSpace_ok [0x202, 0x203, 0x204] (by decide) (by simp [Usable, Frame.addr, PHYSTOP])
  obtain ⟨r, t, ht, hr⟩ := wp_exists.1 (wp_of_eval (x := allocuvm 0x100000 0x200 0x1000 0x3000)
    (s := bareSpace [0x202, 0x203, 0x204]) (P := fun r _ => decide (r = 0)) (by decide +kernel))
  obtain rfl : r = 0 := of_decide_eq_true hr
  have hspec := allocuvm_undone (by decide) h (show (0x1000 : Addr) ≤ 0x3000 by decide) (by decide)
    fun a _ ha => hnone _ _ (starts_dir (pmx_of_lt ha)) rfl
  exact ⟨t, ht, (wp_ok hspec ht rfl).2⟩

end

/-! ## `growproc` -/

/-- the return value, and `proc->sz` afterwards; `switchuvm` only loads what the hardware caches -/
def growproc (kend : ℕ) (pgdir : Frame) (sz : Addr) (n : BitVec 64) : K (ℤ × Addr) := do
  if 0 < n.toInt then
    let new ← allocuvm kend pgdir sz (sz + n)
    if new = 0 then return (-1, sz) else return (0, new)
  else if n.toInt < 0 then
    let new ← deallocuvm kend pgdir sz (sz + n)
    if new = 0 then return (-1, sz) else return (0, new)
  else return (0, sz)

/-- the present pages of the user half are exactly those of [PGSIZE, PGROUNDUP(sz)) -/
def Exact (root : Frame) (sz : ℕ) (s : Phys) : Prop :=
  ∀ a : Addr, a.toNat % 4096 = 0 → a.toNat < 2 ^ 47 →
    (s.pteAt root (dir a) (ptx a) ≠ none ↔ 4096 ≤ a.toNat ∧ a.toNat < sz)

/-- from size sz to size new: new pages are zero, pages kept are as they were -/
structure Resized (root : Frame) (sz new : ℕ) (s t : Phys) : Prop where
  exact : Exact root new t
  kept : ∀ a : Addr, a.toNat % 4096 = 0 → a.toNat < 2 ^ 47 → a.toNat < sz → a.toNat < new →
    t.pteAt root (dir a) (ptx a) = s.pteAt root (dir a) (ptx a) ∧
      ∀ e, s.pteAt root (dir a) (ptx a) = some e → t.mem (pteFrame e) = s.mem (pteFrame e)
  fresh : ∀ a : Addr, a.toNat % 4096 = 0 → 4096 ≤ a.toNat → sz ≤ a.toNat → a.toNat < new →
    ∃ g, t.pteAt root (dir a) (ptx a) = some (mkPte g userFlags) ∧ t.mem g = fun _ => 0

/-- the mapping and the pages are as they were -/
def Same (root : Frame) (s t : Phys) : Prop :=
  ∀ q j, Starts UserSlot q → q.length = 3 → t.pteAt root q j = s.pteAt root q j ∧
    ∀ e, s.pteAt root q j = some e → t.mem (pteFrame e) = s.mem (pteFrame e)

/-- what `growproc` is meant to do -/
def AllOrNothing (root : Frame) (sz n : Addr) (s : Phys) (r : ℤ × Addr) (t : Phys) : Prop :=
  r.1 = 0 ∧ (r.2.toNat : ℤ) = sz.toNat + n.toInt ∧ Resized root sz.toNat r.2.toNat s t ∨
  r.1 = -1 ∧ r.2 = sz ∧ Same root s t

/-- pages and tables a request for the pages of l takes from the free list -/
def Phys.cost (s : Phys) (root : Frame) (l : List Addr) : ℕ :=
  l.length + ((l.flatMap tablePaths).toFinset.filter fun q => s.at root q = none).card

/-- the requests `growproc` serves as it should -/
def Served (root : Frame) (sz n : Addr) (s : Phys) : Prop :=
  (0 < n.toInt → sz = 0 → s.free.length < s.cost root (pageAddrs 0 n)) ∧
  (n.toInt < 0 → sz = 0 ∨ -n.toInt < sz.toNat ∨ -n.toInt = sz.toNat ∧ sz.toNat ≤ 4096)

section

variable {a : Addr} {l : List Addr} {oldsz newsz sz n : Addr}

/-- the tables a page lacks, as a set -/
theorem missing_eq_card (s : Phys) (root : Frame) (a : Addr) :
    s.missing root a = ((tablePaths a).toFinset.filter fun q => s.at root q = none).card := by
  have hnd : (tablePaths a).Nodup := by simp [tablePaths, dir]
  rw [Finset.card_filter, List.sum_toFinset _ hnd, Phys.missing]
  refine congrArg List.sum (List.map_congr_left fun q _ => ?_)
  rw [Phys.lacks]
  cases s.at root q <;> rfl

theorem missing_lt_cost (s : Phys) (root : Frame) (a : Addr) (l : List Addr) :
    s.missing root a + 1 ≤ s.cost root (a :: l) := by
  have hsub : (tablePaths a).toFinset ⊆ ((a :: l).flatMap tablePaths).toFinset := by
    rw [List.flatMap_cons, List.toFinset_append]
    exact Finset.subset_union_left
  have := Finset.card_le_card (Finset.filter_subset_filter (fun q => s.at root q = none) hsub)
  rw [← missing_eq_card] at this
  rw [Phys.cost, List.length_cons]
  omega

/-- once the page of a is there, a table is missing if it was and is not one of a's -/
theorem Spent.none_iff (h : Spent root a s t) {q : List Idx} (hq : Starts UserSlot q) (hl : q.length < 4) :
    t.at root q = none ↔ s.at root q = none ∧ q ∉ tablePaths a := by
  rw [← Option.not_isSome_iff_eq_none, h.tables q hq hl, not_or, Option.not_isSome_iff_eq_none]

/-- a page more in a request: its own price, and that of the rest once it is there -/
theorem cost_cons (hl : ∀ b ∈ l, UserSlot (pmx b)) (h : Spent root a s t) :
    s.cost root (a :: l) = s.missing root a + 1 + t.cost root l := by
  have hnone : ∀ q ∈ l.flatMap tablePaths, t.at root q = none ↔ s.at root q = none ∧ q ∉ tablePaths a := by
    intro q hq
    obtain ⟨b, hb, hqb⟩ := List.mem_flatMap.1 hq
    obtain ⟨hst, hlen⟩ := mem_tablePaths (hl b hb) hqb
    exact h.none_iff hst hlen
  have hunion : (((a :: l).flatMap tablePaths).toFinset.filter fun q => s.at root q = none) =
      ((tablePaths a).toFinset.filter fun q => s.at root q = none) ∪
        ((l.flatMap tablePaths).toFinset.filter fun q => t.at root q = none) := by
    ext q
    rw [Finset.mem_union, Finset.mem_filter, Finset.mem_filter, Finset.mem_filter, List.flatMap_cons,
      List.toFinset_append, Finset.mem_union, List.mem_toFinset, List.mem_toFinset]
    constructor
    · rintro ⟨hq | hq, hs⟩
      · exact .inl ⟨hq, hs⟩
      · by_cases ha : q ∈ tablePaths a
        · exact .inl ⟨ha, hs⟩
        · exact .inr ⟨hq, (hnone q hq).2 ⟨hs, ha⟩⟩
    · rintro (⟨hq, hs⟩ | ⟨hq, ht⟩)
      · exact ⟨.inl hq, hs⟩
      · exact ⟨.inr hq, ((hnone q hq).1 ht).1⟩
  have hdisj : Disjoint ((tablePaths a).toFinset.filter fun q => s.at root q = none)
      ((l.flatMap tablePaths).toFinset.filter fun q => t.at root q = none) := by
    rw [Finset.disjoint_left]
    intro q h1 h2
    rw [Finset.mem_filter, List.mem_toFinset] at h1 h2
    exact ((hnone q h2.1).1 h2.2).2 h1.1
  rw [Phys.cost, Phys.cost, hunion, Finset.card_union_of_disjoint hdisj, missing_eq_card, List.length_cons]
  ring

/-- **When memory runs out**: `allocuvm` fails exactly when the free list is shorter than the request costs. -/
theorem allocuvmLoop_fails_iff (hk : 0 < kend) (h : PageTable kend root hand s) (hlt : oldsz < newsz)
    (hrange : ∀ a ∈ pageAddrs (pgRoundUp oldsz) newsz, Walkable s root a)
    (hal : ∀ a ∈ l, a.toNat % 4096 = 0 ∧ UserSlot (pmx a) ∧ s.pteAt root (dir a) (ptx a) = none)
    (hdis : l.Pairwise fun a b => path a ≠ path b) :
    wp (allocuvmLoop kend root oldsz newsz l) (fun r _ => r = 0 ↔ s.free.length < s.cost root l) (fun _ _ => False) s := by
  induction l generalizing s with
  | nil =>
    refine wp_return (iff_of_false ?_ ?_)
    · rintro rfl
      rw [BitVec.lt_def] at hlt
      exact absurd hlt (Nat.not_lt_zero _)
    · simp [Phys.cost]
  | cons a l ih =>
    obtain ⟨halign, hva, hnone⟩ := hal a List.mem_cons_self
    obtain ⟨hfirst, hrest⟩ := List.pairwise_cons.1 hdis
    refine wp_allocuvmLoop_cons hk h hlt hrange halign hva hnone ?_ ?_
    · intro t _ _ hfew
      exact iff_of_true rfl (hfew.trans_le (missing_lt_cost s root a l))
    · intro t hone _ hspent
      refine wp_imp (ih hone.inv (fun b hb => (hrange b hb).of_slots hone.kept.slots) (fun b hb => ?_) hrest) ?_
      · obtain ⟨hb1, hb2, hb3⟩ := hal b (List.mem_cons_of_mem a hb)
        refine ⟨hb1, hb2, ?_⟩
        rw [hone.pte _ _ (starts_dir hb2) rfl fun c hc hcon => ?_, hb3]
        exact hfirst b hb (by rw [path, path, ← List.mem_singleton.1 hc, hcon.1, hcon.2])
      · intro r u hr
        rw [hr, cost_cons (fun b hb => (hal b (List.mem_cons_of_mem a hb)).2.1) hspent, ← hspent.count]
        omega

/-- a process whose pages are exactly those below its size is no larger than physical memory -/
theorem Exact.small {n : ℕ} (h : PageTable kend root hand s) (hex : Exact root n s) : n ≤ 57345 * 4096 := by
  by_contra hgt
  have hnat : ∀ k ∈ Finset.range 57345, (BitVec.ofNat 64 ((k + 1) * 4096)).toNat = (k + 1) * 4096 := by
    intro k hk
    have hk := Finset.mem_range.1 hk
    rw [BitVec.toNat_ofNat, Nat.mod_eq_of_lt (by omega)]
  have hst : ∀ k ∈ Finset.range 57345, Starts UserSlot (path (BitVec.ofNat 64 ((k + 1) * 4096))) := fun k hk =>
    starts_path (pmx_of_lt (by have := hnat k hk; have := Finset.mem_range.1 hk; omega))
  -- one page more than there are page frames
  have hpage : ∀ k ∈ Finset.range 57345, ∃ f : Frame, f.toNat ∈ Finset.range 57344 ∧
      s.at root (path (BitVec.ofNat 64 ((k + 1) * 4096))) = some f := by
    intro k hk
    have hst := hst k hk
    have hnat := hnat k hk
    have hk := Finset.mem_range.1 hk
    obtain ⟨e, he⟩ := Option.ne_none_iff_exists'.1 ((hex _ (by rw [hnat]; omega) (by rw [hnat]; omega)).2
      (by rw [hnat]; omega))
    have hat := pteAt_frame he
    have hus := (h.usable _ (.inr (.inr ⟨_, hst, by simp [path, dir], hat⟩))).2
    refine ⟨pteFrame e, Finset.mem_range.2 ?_, hat⟩
    simp only [Frame.addr, PHYSTOP] at hus
    omega
  choose! f hf hat using hpage
  obtain ⟨k, hk, k', hk', hne, heq⟩ := Finset.exists_ne_map_eq_of_card_lt_of_maps_to (s := Finset.range 57345)
    (t := Finset.range 57344) (by simp) hf
  have hpath := h.tree _ _ _ (hst k hk) (hst k' hk') (by simp [path, dir]) (by simp [path, dir]) (hat k hk)
    ((hat k' hk').trans (congrArg some (BitVec.eq_of_toNat_eq heq.symm)))
  have hmod := path_inj hpath
  rw [hnat k hk, hnat k' hk'] at hmod
  have := Finset.mem_range.1 hk
  have := Finset.mem_range.1 hk'
  omega

/-- a page that is still there holds what it held -/
theorem Still.page (hs : PageTable kend root hand s) (ht : PageTable kend root hand t) (h : Still root s t) {q : List Idx}
    {j : Idx} {e : Addr} (hq : Starts UserSlot (q ++ [j])) (hl : q.length = 3) (he : s.pteAt root q j = some e)
    (he' : t.pteAt root q j = some e) : t.mem (pteFrame e) = s.mem (pteFrame e) := by
  obtain ⟨hfree, htab⟩ := hs.page_apart hq hl he
  exact h _ htab hfree (ht.page_apart hq hl he').1

theorem starts_snoc {q : List Idx} {j : Idx} (hq : Starts UserSlot q) (hl : q.length = 3) : Starts UserSlot (q ++ [j]) := by
  cases q with
  | nil => cases hl
  | cons x q => exact hq

/-- **`allocuvm`** for a process with its pages below its size. -/
theorem allocuvm_resized (hk : 0 < kend) (h : PageTable kend root hand s) (hex : Exact root oldsz.toNat s)
    (hlt : oldsz < newsz) (hnew : newsz.toNat ≤ 2 ^ 47) :
    wp (allocuvm kend root oldsz newsz) (fun r t =>
      (r = 0 ↔ s.free.length < s.cost root (pageAddrs (pgRoundUp oldsz) newsz)) ∧ (r = 0 → Same root s t) ∧
      (r ≠ 0 → r = newsz ∧ (oldsz ≠ 0 → Resized root oldsz.toNat newsz.toNat s t) ∧
        (oldsz = 0 → ¬Exact root newsz.toNat t))) (fun _ _ => False) s := by
  rw [BitVec.lt_def] at hlt
  have hle : oldsz ≤ newsz := BitVec.le_def.2 hlt.le
  have hround := pgRoundUp_toNat oldsz (by omega)
  have habs : ∀ a ∈ pageAddrs (pgRoundUp oldsz) newsz, s.pteAt root (dir a) (ptx a) = none := by
    intro a ha
    have hreq := mem_request hle hnew ha
    by_contra hc
    have := (hex a hreq.1 (by omega)).1 hc
    omega
  have hslot : ∀ a ∈ pageAddrs (pgRoundUp oldsz) newsz, UserSlot (pmx a) := fun a ha =>
    pmx_of_lt (by have := mem_request hle hnew ha; omega)
  have hfails := allocuvmLoop_fails_iff hk h (BitVec.lt_def.2 hlt) (fun a ha => .inl (hslot a ha))
    (fun a ha => ⟨(mem_request hle hnew ha).1, hslot a ha, habs a ha⟩) (request_pairwise hnew)
  rw [← allocuvm_eq hle (lt_KERNBASE hnew)] at hfails
  have hzero : newsz ≠ 0 := by
    rintro rfl
    exact absurd hlt (Nat.not_lt_zero _)
  refine wp_mono (wp_and hfails (allocuvm_spec hk h hle hnew habs)) ?_
    (fun _ _ he => he.1)
  rintro r t ⟨hr, ⟨rfl, hundone⟩ | ⟨rfl, halloc⟩, -, hstill⟩
  · refine ⟨hr, fun _ q j hq hl => ?_, fun hc => absurd rfl hc⟩
    have hpte : t.pteAt root q j = s.pteAt root q j := by
      by_cases hin : ∃ a ∈ pageAddrs (pgRoundUp oldsz) newsz, q = dir a ∧ j = ptx a
      · obtain ⟨a, ha, rfl, rfl⟩ := hin
        rw [hundone.gone a ha (hslot a ha), habs a ha]
      · exact hundone.pte q j hq hl fun a ha hc => hin ⟨a, ha, hc⟩
    exact ⟨hpte, fun e he => hstill.page h hundone.inv (starts_snoc hq hl) hl he (hpte.trans he)⟩
  · refine ⟨hr, fun hc => absurd hc hzero, fun _ => ⟨rfl, fun hold => ?_, fun hold hex' => ?_⟩⟩
    · have hpos : 0 < oldsz.toNat := Nat.pos_of_ne_zero fun hc => hold (BitVec.eq_of_toNat_eq hc)
      have hkeep : ∀ a : Addr, a.toNat % 4096 = 0 → a.toNat < 2 ^ 47 → a ∉ pageAddrs (pgRoundUp oldsz) r →
          t.pteAt root (dir a) (ptx a) = s.pteAt root (dir a) (ptx a) := by
        intro a halign ha hout
        refine halloc.pte _ _ (starts_dir (pmx_of_lt ha)) rfl fun b hb => ?_
        have hreq := mem_request hle hnew hb
        exact path_ne halign hreq.1 ha (by omega) fun hc => hout (hc ▸ hb)
      have hmem : ∀ a : Addr, a.toNat % 4096 = 0 → (a ∈ pageAddrs (pgRoundUp oldsz) r ↔
          oldsz.toNat ≤ a.toNat ∧ a.toNat < r.toNat) := by
        intro a halign
        rw [mem_pageAddrs, hround]
        constructor
        · rintro ⟨k, hk, hlt⟩
          omega
        · rintro ⟨h1, h2⟩
          exact ⟨(a.toNat - (oldsz.toNat + 4095) / 4096 * 4096) / 4096, by omega, h2⟩
      refine ⟨?_, ?_, ?_⟩
      · intro a halign ha
        by_cases hin : a ∈ pageAddrs (pgRoundUp oldsz) r
        · obtain ⟨g, hg, -⟩ := halloc.new a hin
          have hreq := mem_request hle hnew hin
          exact iff_of_true (by rw [hg]; exact Option.some_ne_none _) (by omega)
        · rw [hkeep a halign ha hin, hex a halign ha]
          rw [hmem a halign] at hin
          omega
      · intro a halign ha h1 h2
        have hpte := hkeep a halign ha (by rw [hmem a halign]; omega)
        exact ⟨hpte, fun e he => hstill.page h halloc.inv (starts_path (pmx_of_lt ha)) rfl he (hpte.trans he)⟩
      · intro a halign _ h1 h2
        obtain ⟨g, hg, -, -, hz⟩ := halloc.new a ((hmem a halign).2 ⟨h1, h2⟩)
        exact ⟨g, hg, hz⟩
    · -- page 0 is there
      subst hold
      have hin : (0 : Addr) ∈ pageAddrs (pgRoundUp 0) r := mem_pageAddrs.2 ⟨0, by decide, hlt⟩
      obtain ⟨g, hg, -⟩ := halloc.new 0 hin
      have := ((hex' 0 (by decide) (by decide)).1 (by rw [hg]; exact Option.some_ne_none _)).1
      exact absurd this (by decide)

/-- **`deallocuvm`** for a process with its pages below its size. -/
theorem deallocuvm_resized (hk : 0 < kend) (h : PageTable kend root hand s) (hex : Exact root oldsz.toNat s)
    (hlt : newsz < oldsz) :
    wp (deallocuvm kend root oldsz newsz) (fun r t => r = newsz ∧
      (newsz ≠ 0 → Resized root oldsz.toNat newsz.toNat s t) ∧
      (newsz = 0 → (Same root s t ↔ oldsz.toNat ≤ 4096))) (fun _ _ => False) s := by
  have hsmall := hex.small h
  have hlt' := hlt
  rw [BitVec.lt_def] at hlt'
  have hround := pgRoundUp_toNat newsz (by omega)
  have hmem : ∀ a : Addr, a.toNat % 4096 = 0 → (a ∈ pageAddrs (pgRoundUp newsz) oldsz ↔
      newsz.toNat ≤ a.toNat ∧ a.toNat < oldsz.toNat) := by
    intro a halign
    rw [mem_pageAddrs, hround]
    constructor
    · rintro ⟨k, hk, hlt⟩
      omega
    · rintro ⟨h1, h2⟩
      exact ⟨(a.toNat - (newsz.toNat + 4095) / 4096 * 4096) / 4096, by omega, h2⟩
  have halign : ∀ a ∈ pageAddrs (pgRoundUp newsz) oldsz, a.toNat % 4096 = 0 ∧ a.toNat < oldsz.toNat := by
    intro a ha
    obtain ⟨k, hk, hlt⟩ := mem_pageAddrs.1 ha
    omega
  have hwalk : ∀ a ∈ pageAddrs (pgRoundUp newsz) oldsz, Walkable s root a := fun a ha =>
    .inl (pmx_of_lt (by have := halign a ha; omega))
  refine wp_imp (deallocuvm_spec hk h hlt hwalk) ?_
  rintro r t ⟨hr, hclear⟩
  have hkeep : ∀ a : Addr, a.toNat % 4096 = 0 → a.toNat < 2 ^ 47 → a ∉ pageAddrs (pgRoundUp newsz) oldsz →
      t.pteAt root (dir a) (ptx a) = s.pteAt root (dir a) (ptx a) := by
    intro a ha hlta hout
    refine hclear.pte _ _ (starts_dir (pmx_of_lt hlta)) rfl fun b hb => ?_
    have hb' := halign b hb
    exact path_ne ha hb'.1 hlta (by omega) fun hc => hout (hc ▸ hb)
  refine ⟨hr, fun hne => ?_, fun hzero => ?_⟩
  · have hpos : 0 < newsz.toNat := Nat.pos_of_ne_zero fun hc => hne (BitVec.eq_of_toNat_eq hc)
    refine ⟨?_, ?_, ?_⟩
    · intro a ha hlta
      by_cases hin : a ∈ pageAddrs (pgRoundUp newsz) oldsz
      · rw [hclear.gone a hin (pmx_of_lt hlta)]
        have := (hmem a ha).1 hin
        exact iff_of_false (fun hc => hc rfl) (by omega)
      · rw [hkeep a ha hlta hin, hex a ha hlta]
        rw [hmem a ha] at hin
        omega
    · intro a ha hlta h1 h2
      have hpte := hkeep a ha hlta (by rw [hmem a ha]; omega)
      exact ⟨hpte, fun e he => hclear.given.still.page h hclear.inv (starts_path (pmx_of_lt hlta)) rfl he (hpte.trans he)⟩
    · intro a _ _ h1 h2
      omega
  · have hnone : ∀ a ∈ pageAddrs (pgRoundUp newsz) oldsz, a.toNat < 4096 → s.pteAt root (dir a) (ptx a) = none := by
      intro a ha hlow
      by_contra hc
      have hlta := halign a ha
      have := (hex a hlta.1 (by omega)).1 hc
      omega
    constructor
    · intro hsame
      by_contra hgt
      -- the page at PGSIZE was there and is gone
      have hin : PGSIZE ∈ pageAddrs (pgRoundUp newsz) oldsz := (hmem _ (by decide)).2 (by
        rw [hzero, toNat_PGSIZE]
        exact ⟨Nat.zero_le _, by omega⟩)
      have hgone := hclear.gone PGSIZE hin (by decide)
      have hwas := (hex PGSIZE (by decide) (by decide)).2 ⟨by decide, by rw [toNat_PGSIZE]; omega⟩
      rw [(hsame _ _ (starts_dir (show UserSlot (pmx PGSIZE) by decide)) rfl).1] at hgone
      exact hwas hgone
    · intro hle q j hq hl
      have hpte : t.pteAt root q j = s.pteAt root q j := by
        by_cases hin : ∃ a ∈ pageAddrs (pgRoundUp newsz) oldsz, q = dir a ∧ j = ptx a
        · obtain ⟨a, ha, rfl, rfl⟩ := hin
          have hlta := halign a ha
          rw [hclear.gone a ha (pmx_of_lt (by omega)), hnone a ha (by omega)]
        · exact hclear.pte q j hq hl fun a ha hc => hin ⟨a, ha, hc⟩
      exact ⟨hpte, fun e he => hclear.given.still.page h hclear.inv (starts_snoc hq hl) hl he (hpte.trans he)⟩


theorem resized_refl (h : Exact root sz.toNat s) : Resized root sz.toNat sz.toNat s s :=
  ⟨h, fun _ _ _ _ _ => ⟨rfl, fun _ _ => rfl⟩, fun _ _ _ h1 h2 => absurd h2 (by omega)⟩

theorem growproc_up (hk : 0 < kend) (h : PageTable kend root hand s) (hex : Exact root sz.toNat s) (hpos : 0 < n.toInt)
    (hn : sz.toNat + n.toInt ≤ 2 ^ 47) :
    wp (growproc kend root sz n) (fun r t => AllOrNothing root sz n s r t ↔ Served root sz n s) (fun _ _ => False) s := by
  have hsum : ((sz + n).toNat : ℤ) = sz.toNat + n.toInt := by
    rw [BitVec.toInt_eq_toNat_cond] at hpos hn ⊢
    rw [BitVec.toNat_add]
    split_ifs at hpos hn ⊢ <;> omega
  have hzero : (0 : Addr) + n = n := BitVec.zero_add n
  have hserved : Served root sz n s ↔ (sz = 0 → s.free.length < s.cost root (pageAddrs (pgRoundUp sz) (sz + n))) := by
    unfold Served
    constructor
    · rintro ⟨h1, -⟩ rfl
      have := h1 hpos rfl
      rwa [show pgRoundUp 0 = 0 by decide, hzero]
    · intro h1
      refine ⟨fun _ hz => ?_, fun hc => absurd hc (by omega)⟩
      subst hz
      have := h1 rfl
      rwa [show pgRoundUp 0 = 0 by decide, hzero] at this
  unfold growproc
  rw [if_pos hpos, wp_bind]
  refine wp_imp (allocuvm_resized hk h hex (BitVec.lt_def.2 (by omega)) (by omega)) ?_
  rintro r t ⟨hfew, hfail, hok⟩
  rw [hserved]
  apply wp_ite
  · intro hr
    exact wp_return (iff_of_true (Or.inr ⟨rfl, rfl, hfail hr⟩) fun _ => hfew.1 hr)
  · intro hr
    obtain ⟨rfl, hgrown, hpage0⟩ := hok hr
    refine wp_return ?_
    by_cases hsz : sz = 0
    · refine iff_of_false ?_ fun hc => hr (hfew.2 (hc hsz))
      rintro (⟨-, -, hres⟩ | ⟨hc, -⟩)
      · exact hpage0 hsz hres.exact
      · cases hc
    · exact iff_of_true (Or.inl ⟨rfl, hsum, hgrown hsz⟩) fun hc => absurd hc hsz

theorem growproc_down (hk : 0 < kend) (h : PageTable kend root hand s) (hex : Exact root sz.toNat s) (hneg : n.toInt < 0) :
    wp (growproc kend root sz n) (fun r t => AllOrNothing root sz n s r t ↔ Served root sz n s) (fun _ _ => False) s := by
  have hsmall := hex.small h
  have hserved : Served root sz n s ↔ (sz = 0 ∨ -n.toInt < sz.toNat ∨ -n.toInt = sz.toNat ∧ sz.toNat ≤ 4096) :=
    ⟨fun hs => hs.2 hneg, fun hs => ⟨fun hc => absurd hc (by omega), fun _ => hs⟩⟩
  have hzero : sz = 0 ↔ sz.toNat = 0 := ⟨fun hc => by rw [hc]; rfl, fun hc => BitVec.eq_of_toNat_eq hc⟩
  have hsum : ((sz + n).toNat : ℤ) = if -n.toInt ≤ sz.toNat then sz.toNat + n.toInt else 2 ^ 64 + sz.toNat + n.toInt := by
    rw [BitVec.toInt_eq_toNat_cond] at hneg ⊢
    rw [BitVec.toNat_add]
    split_ifs at hneg ⊢ <;> omega
  have hmin : -n.toInt ≤ 2 ^ 63 := by
    rw [BitVec.toInt_eq_toNat_cond]
    split_ifs <;> omega
  unfold growproc
  rw [if_neg (by omega), if_pos hneg, wp_bind, hserved]
  by_cases hle : -n.toInt ≤ sz.toNat
  · rw [if_pos hle] at hsum
    refine wp_imp (deallocuvm_resized hk h hex (BitVec.lt_def.2 (by omega))) ?_
    rintro r t ⟨rfl, hres, hall⟩
    have hnew : sz + n = 0 ↔ (sz + n).toNat = 0 := ⟨fun hc => by rw [hc]; rfl, fun hc => BitVec.eq_of_toNat_eq hc⟩
    apply wp_ite
    · intro hr
      have := hnew.1 hr
      refine wp_return ?_
      rw [show AllOrNothing root sz n s (-1, sz) t ↔ Same root s t from
        ⟨fun hc => hc.elim (fun h1 => by cases h1.1) fun h1 => h1.2.2, fun hc => Or.inr ⟨rfl, rfl, hc⟩⟩, hall hr, hzero]
      omega
    · intro hr
      have : (sz + n).toNat ≠ 0 := fun hc => hr (hnew.2 hc)
      exact wp_return (iff_of_true (Or.inl ⟨rfl, hsum, hres hr⟩) (by omega))
  · -- the sum wraps around, and nothing is done
    rw [if_neg hle] at hsum
    rw [deallocuvm, if_pos (BitVec.le_def.2 (by omega)), wp_pure]
    apply wp_ite
    · intro hr
      exact wp_return (iff_of_true (Or.inr ⟨rfl, rfl, fun _ _ _ _ => ⟨rfl, fun _ _ => rfl⟩⟩) (Or.inl hr))
    · intro hr
      refine wp_return (iff_of_false ?_ ?_)
      · rintro (⟨-, hc, -⟩ | ⟨hc, -⟩)
        · dsimp only at hc
          omega
        · cases hc
      · rw [hzero]
        have : sz.toNat ≠ 0 := fun hc => hr (hzero.2 hc)
        omega

/-- **When `growproc` is all or nothing**, for requests that stay in the user half. -/
theorem growproc_all_or_nothing_iff (hk : 0 < kend) (h : PageTable kend root hand s) (hex : Exact root sz.toNat s)
    (hn : sz.toNat + n.toInt ≤ 2 ^ 47) :
    wp (growproc kend root sz n) (AllOrNothing root sz n s) (fun _ _ => False) s ↔ Served root sz n s := by
  apply wp_iff
  obtain hneg | hzero | hpos := lt_trichotomy n.toInt 0
  · exact growproc_down hk h hex hneg
  · unfold growproc
    rw [if_neg (by omega), if_neg (by omega), wp_pure]
    refine iff_of_true (Or.inl ⟨rfl, by simp [hzero], resized_refl hex⟩) ⟨fun hc => absurd hc (by omega), fun hc => ?_⟩
    exact absurd hc (by omega)
  · exact growproc_up hk h hex hpos hn

/-- a process with one page, at PGSIZE -/
theorem onePage_exact : PageTable 0x100000 0x200 (· = 0x201) (onePage []) ∧ Exact 0x200 0x2000 (onePage []) := by
  obtain ⟨h, -, hnone⟩ := @bareSpace_ok [0x202, 0x203, 0x204, 0x205] (by decide) (by simp [Usable, Frame.addr, PHYSTOP])
  have hempty : Exact 0x200 (0x1000 : Addr).toNat (bareSpace [0x202, 0x203, 0x204, 0x205]) := by
    intro a _ ha
    rw [hnone _ _ (starts_dir (pmx_of_lt ha)) rfl]
    exact iff_of_false (fun hc => hc rfl) (by rw [show (0x1000 : Addr).toNat = 4096 from rfl]; omega)
  obtain ⟨r, t, ht, hr⟩ := wp_exists.1 (wp_of_eval (x := allocuvm 0x100000 0x200 0x1000 0x2000)
    (s := bareSpace [0x202, 0x203, 0x204, 0x205]) (P := fun r _ => decide (r = 0x2000)) (by decide +kernel))
  obtain rfl : r = 0x2000 := of_decide_eq_true hr
  refine ⟨onePage_ok (by decide) (by simp [Usable, Frame.addr, PHYSTOP]), ?_⟩
  have hspec := wp_ok (allocuvm_resized (by decide) h hempty (by decide) (by decide)) ht
  have hfinal : onePage [] = t := by
    rw [onePage, parentSpace, ht]
    rfl
  rw [hfinal]
  exact ((hspec.2.2 (by decide)).2.1 (by decide)).exact

/-- The last page given up: done. -/
theorem growproc_all_or_nothing_shrink :
    wp (growproc 0x100000 0x200 0x2000 (-0x1000)) (AllOrNothing 0x200 0x2000 (-0x1000) (onePage [])) (fun _ _ => False)
      (onePage []) :=
  (growproc_all_or_nothing_iff (by decide) onePage_exact.1 (show Exact 0x200 (0x2000 : Addr).toNat _ from onePage_exact.2)
    (by decide)).2
    ⟨fun hc => absurd hc (by decide), fun _ => Or.inr (Or.inl (by decide))⟩

/-- A process of two pages' size gives up all of it, and then one byte more. The first call fails with its page gone, the
second succeeds and leaves the size as it is. -/
theorem growproc_gives_up_all :
    PageTable 0x100000 0x200 (· = 0x201) (onePage []) ∧ Exact 0x200 0x2000 (onePage []) ∧
    ((onePage []).pteAt 0x200 (dir 0x1000) (ptx 0x1000)).isSome = true ∧
    (match growproc 0x100000 0x200 0x2000 (-0x2000) (onePage []) with
      | .ok r t => some (r, (t.pteAt 0x200 (dir 0x1000) (ptx 0x1000)).isSome)
      | _ => none) = some ((-1, 0x2000), false) ∧
    (match growproc 0x100000 0x200 0x2000 (-0x2001) (onePage []) with
      | .ok r _ => some r
      | _ => none) = some (0, 0x2000) :=
  ⟨onePage_exact.1, onePage_exact.2, by decide +kernel, by decide +kernel, by decide +kernel⟩

end

end Xv6.Vm
