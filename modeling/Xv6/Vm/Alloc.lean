/-
Making, growing and tearing down an address space: `setupkvm`, `allocuvm`, `clearpteu` and `freevm`.

- `setupkvm_spec`: a new address space has no page in the user half;
- `allocuvmLoop_spec`: over a range of the user half with no present page, `allocuvm` maps every page of the range to a
  zeroed page from the free list and changes no other PTE, or it returns 0 and no page of the range is present;
- `freevm_spec`: tearing a page table down never panics, and frees every page of the address space once.
-/
import Xv6.Vm.Walk

namespace Xv6.Vm

open Xv6.Bytes Xv6.Wp Xv6.Radix Function

variable {kend : ℕ} {root : Frame} {hand : Frame → Prop} {s t u : Phys}

/-! ## `setupkvm` -/

/-- as `setupkvm` leaves it: of the slots above the user half only 256, the kernel's, is in use -/
structure KernelSlot (root : Frame) (s : Phys) : Prop where
  present : child (s.entry root 256) ≠ none
  empty : ∀ i : Idx, 256 < i.toNat → child (s.entry root i) = none

/-- the allocator between two address spaces: `hand` are the pages in use -/
structure Allocator (kend : ℕ) (hand : Frame → Prop) (s : Phys) : Prop where
  nodup : s.free.Nodup
  apart : ∀ f, hand f → f ∉ s.free
  usable : ∀ f, f ∈ s.free ∨ hand f → Usable kend f

theorem setupkvm_mem (kpdpt : Frame) (s : Phys) :
    wp (setupkvm kpdpt) (fun root t => ∀ f, f ≠ root → t.mem f = s.mem f) (fun _ _ => True) s := by
  rw [setupkvm, wp_bind]
  refine wp_kalloc (fun _ => (wp_throw _ _).2 trivial) fun g rest _ => ?_
  rw [wp_bind, wp_modify, wp_pure]
  intro f hf
  exact (update_of_ne hf _ _).trans (update_of_ne hf _ _)

/-- **A new address space** has no page in the user half; without a free page `setupkvm` writes through address 0. -/
theorem setupkvm_spec (h : Allocator kend hand s) (kpdpt : Frame) :
    wp (setupkvm kpdpt)
      (fun root t => PageTable kend root hand t ∧ KernelSlot root t ∧ s.free = root :: t.free ∧ t.trace = s.trace ∧
        (∀ q j, Starts UserSlot q → q.length = 3 → t.pteAt root q j = none) ∧
        ∀ q, Starts UserSlot q → q ≠ [] → t.at root q = none)
      (fun e t => e = .pageFault 0 ∧ t = s ∧ s.free = []) s := by
  rw [setupkvm, wp_bind]
  refine wp_kalloc (fun hnil => (wp_throw _ _).2 ⟨rfl, rfl, hnil⟩) fun g rest hcons => ?_
  rw [wp_bind, wp_modify, wp_pure]
  set t := (({ s with free := rest } : Phys).fill g 0).store g 256 (mkPte kpdpt (PTE_P ||| PTE_W)) with ht
  have hentry : ∀ i, i ≠ 256 → t.entry g i = 0 := fun i hi => by
    rw [ht, Phys.entry_store, set_other _ _ (fun _ => hi), Phys.entry_fill, if_pos rfl]
  have hnone : ∀ q f, Starts UserSlot q → t.at g q = some f → q = [] := by
    intro q f hq hf
    cases q with
    | nil => rfl
    | cons i q =>
      have hi : i ≠ 256 := fun hc => absurd (hq i rfl) (by rw [hc]; decide)
      rw [Phys.at, follow, hentry i hi, child_zero] at hf
      cases hf
  have hown : ∀ f, t.Owns g f → f = g := by
    rintro f ⟨q, hq, -, hf⟩
    obtain rfl := hnone q f hq hf
    exact (Option.some.inj hf).symm
  have hgfree : g ∈ s.free := by rw [hcons]; exact List.mem_cons_self
  have hrest : ∀ f ∈ rest, f ∈ s.free := fun f hf => by rw [hcons]; exact List.mem_cons_of_mem g hf
  have hnd := h.nodup
  rw [hcons, List.nodup_cons] at hnd
  have hat : ∀ q, Starts UserSlot q → q ≠ [] → t.at g q = none := fun q hq hne =>
    Option.eq_none_iff_forall_ne_some.2 fun f hf => hne (hnone q f hq hf)
  refine ⟨⟨?_, hnd.2, ?_, ?_, ?_⟩, ⟨?_, ?_⟩, hcons, rfl, ?_, hat⟩
  · intro p q f hp hq _ _ hpf hqf
    rw [hnone p f hp hpf, hnone q f hq hqf]
  · intro f hf ho
    exact hnd.1 (hown f ho ▸ hf)
  · exact fun f hf => ⟨fun ho => h.apart f hf (hown f ho ▸ hgfree), fun hm => h.apart f hf (hrest f hm)⟩
  · rintro f (hf | hf | hf)
    · exact h.usable f (.inl (hrest f hf))
    · exact h.usable f (.inr hf)
    · exact h.usable f (.inl (hown f hf ▸ hgfree))
  · rw [ht, Phys.entry_store, set_same, child_mkPte kpdpt (by decide) (by decide)]
    exact Option.some_ne_none _
  · intro i hi
    rw [hentry i (fun hc => by rw [hc] at hi; exact absurd hi (by decide)), child_zero]
  · exact fun q j hq hl => Phys.pteAt_eq_none (hat q hq fun hc => by rw [hc] at hl; cases hl)

/-! ## `allocuvm` -/

/-- the flags of a user page -/
def userFlags : Addr := PTE_W ||| PTE_U ||| PTE_P

/-- event e has been recorded since s -/
def Since (s t : Phys) (e : Event) : Prop := ∃ k, t.trace = s.trace ++ k ∧ e ∈ k

theorem Since.prepend {e : Event} {k : List Event} (hk : t.trace = s.trace ++ k) (h : Since t u e) : Since s u e := by
  obtain ⟨k', hk', he⟩ := h
  exact ⟨k ++ k', by rw [hk', hk, List.append_assoc], List.mem_append_right _ he⟩

theorem Since.append {e : Event} {k : List Event} (h : Since s t e) (hk : u.trace = t.trace ++ k) : Since s u e := by
  obtain ⟨k', hk', he⟩ := h
  exact ⟨k' ++ k, by rw [hk, hk', List.append_assoc], List.mem_append_left _ he⟩

theorem Since.before {e : Event} (h1 : Quiet s t) (h2 : Since t u e) : Since s u e := h2.prepend h1.choose_spec.1

theorem Since.after {e : Event} (h1 : Since s t e) (h2 : Quiet t u) : Since s u e := h1.append h2.choose_spec.1

/-- the pages at the addresses in l are new, zeroed and taken from the free list -/
structure Allocated (kend : ℕ) (root : Frame) (hand : Frame → Prop) (l : List Addr) (s t : Phys) : Prop where
  inv : PageTable kend root hand t
  new : ∀ a ∈ l, ∃ g, t.pteAt root (dir a) (ptx a) = some (mkPte g userFlags) ∧ Since s t (.alloc g) ∧ g ∈ s.free ∧
    t.mem g = fun _ => 0
  pte : ∀ q j, Starts UserSlot q → q.length = 3 → (∀ a ∈ l, ¬ (q = dir a ∧ j = ptx a)) →
    t.pteAt root q j = s.pteAt root q j
  kept : Kept root s t

theorem Allocated.nil (h : PageTable kend root hand s) : Allocated kend root hand [] s s :=
  ⟨h, fun _ ha => (by cases ha), fun _ _ _ _ _ => rfl, Kept.refl root s⟩

theorem pteAt_frame {p : List Idx} {i : Idx} {e : Addr} (h : s.pteAt root p i = some e) :
    s.at root (p ++ [i]) = some (pteFrame e) := by
  cases hf : s.at root p with
  | none => rw [Phys.pteAt_eq_none hf] at h; cases h
  | some f =>
    rw [Phys.pteAt_eq_filter hf, Option.filter_eq_some_iff] at h
    obtain ⟨he, hpres⟩ := h
    rw [Phys.at_snoc hf, Option.some.inj he, child, if_pos (by simpa using hpres)]

/-- the page of a PTE is neither free nor a table -/
theorem PageTable.page_apart (h : PageTable kend root hand s) {p : List Idx} {i : Idx} {e : Addr}
    (hp : Starts UserSlot (p ++ [i])) (hlen : p.length = 3) (he : s.pteAt root p i = some e) :
    pteFrame e ∉ s.free ∧ ¬ s.Table root (pteFrame e) := by
  have hat := pteAt_frame he
  have hl : (p ++ [i]).length = 4 := by simp [hlen]
  refine ⟨fun hf => h.free_apart _ hf ⟨_, hp, by omega, hat⟩, ?_⟩
  rintro ⟨q, hq, hql, hx⟩
  obtain rfl := h.tree q _ _ hq hp (by omega) (by omega) hx hat
  omega

theorem Allocated.cons {a : Addr} {l : List Addr} (h1 : Allocated kend root hand [a] s t)
    (h2 : Allocated kend root hand l t u) (ha : UserSlot (pmx a)) (hne : ∀ b ∈ l, path a ≠ path b) :
    Allocated kend root hand (a :: l) s u := by
  refine ⟨h2.inv, ?_, ?_, h1.kept.trans h2.kept⟩
  · intro b hb
    rcases List.mem_cons.1 hb with rfl | hb
    · obtain ⟨g, hpte, htr, hfree, hzero⟩ := h1.new b List.mem_cons_self
      obtain ⟨hnf, hnt⟩ := h1.inv.page_apart (starts_path ha) rfl hpte
      rw [pteFrame_mkPte g (by decide)] at hnf hnt
      refine ⟨g, ?_, htr.after h2.kept.trace, hfree, by rw [h2.kept.mem g hnf hnt]; exact hzero⟩
      rw [h2.pte _ _ (starts_dir ha) rfl fun c hc hcon => hne c hc (by rw [path, path, hcon.1, hcon.2])]
      exact hpte
    · obtain ⟨g, hpte, htr, hfree, hzero⟩ := h2.new b hb
      exact ⟨g, hpte, htr.before h1.kept.trace, h1.kept.free.subset hfree, hzero⟩
  · intro q j hq hl hout
    rw [h2.pte q j hq hl fun b hb => hout b (List.mem_cons_of_mem a hb),
      h1.pte q j hq hl fun b hb => hout b (List.mem_singleton.1 hb ▸ List.mem_cons_self)]

/-- no page at an address in l is present; the other PTEs, the pages in hand and the kernel half are as before -/
structure Undone (kend : ℕ) (root : Frame) (hand : Frame → Prop) (l : List Addr) (s t : Phys) : Prop where
  inv : PageTable kend root hand t
  gone : ∀ a ∈ l, UserSlot (pmx a) → t.pteAt root (dir a) (ptx a) = none
  pte : ∀ q j, Starts UserSlot q → q.length = 3 → (∀ a ∈ l, ¬ (q = dir a ∧ j = ptx a)) →
    t.pteAt root q j = s.pteAt root q j
  slots : ∀ i, ¬ UserSlot i → t.entry root i = s.entry root i
  held : ∀ f, hand f → t.mem f = s.mem f
  trace : Quiet s t

theorem PageTable.held_of_kept (h : PageTable kend root hand s) (hk : Kept root s t) {f : Frame} (hf : hand f) :
    t.mem f = s.mem f :=
  hk.mem f (h.hand_apart f hf).2 fun ht => (h.hand_apart f hf).1 ht.owns

theorem Undone.of_kept {l : List Addr} (hs : PageTable kend root hand s) (hk : Kept root s t)
    (hpte : ∀ q j, Starts UserSlot q → q.length = 3 → (∀ a ∈ l, ¬ (q = dir a ∧ j = ptx a)) →
      t.pteAt root q j = s.pteAt root q j) (h : Undone kend root hand l t u) : Undone kend root hand l s u := by
  exact ⟨h.inv, h.gone, fun q j hq hl hout => (h.pte q j hq hl hout).trans (hpte q j hq hl hout),
    fun i hi => (h.slots i hi).trans (hk.slots i hi), fun f hf => (h.held f hf).trans (hs.held_of_kept hk hf),
    hk.trace.trans h.trace⟩

theorem Cleared.undone {l : List Addr} (h : Cleared kend root hand l s t) : Undone kend root hand l s t :=
  ⟨h.inv, h.gone, h.pte, h.slots, h.held, h.trace⟩

/-- a page taken for user memory: `kalloc` and `memset` -/
theorem PageTable.take_page (h : PageTable kend root hand s) {g : Frame} {rest : List Frame} (hfree : s.free = g :: rest) :
    let t := (({ s with free := rest } : Phys).fill g 0).record (.alloc g)
    PageTable kend root (fun f => f = g ∨ hand f) t ∧ Kept root s t ∧
      (∀ q j, Starts UserSlot q → q.length = 3 → t.pteAt root q j = s.pteAt root q j) ∧
      ∀ q, Starts UserSlot q → q.length < 4 → t.at root q = s.at root q := by
  intro t
  have hg : g ∈ s.free := by rw [hfree]; exact List.mem_cons_self
  have hown : ¬ s.Owns root g := h.free_apart g hg
  have hmem : ∀ f, s.Table root f → t.mem f = s.mem f := fun f hf =>
    update_of_ne (fun hc : f = g => hown (hc ▸ hf.owns)) _ _
  have hat : ∀ q, Starts UserSlot q → q.length ≤ 4 → t.at root q = s.at root q := fun q hq hl =>
    Phys.at_congr hmem hq hl
  refine ⟨(h.take hfree).of_at rfl hat, ⟨?_, ?_, ?_, ?_, ?_, [.alloc g], rfl, ?_, ?_⟩,
    fun q j hq hl => Phys.pteAt_congr hmem j hq hl, fun q hq hl => hat q hq (by omega)⟩
  · exact fun p f hp hl hf => (hat p hp (by omega)).trans hf
  · exact fun p f hp hl hf => .inl ((hat p hp (by omega)).symm.trans hf)
  · rw [hfree]
    exact List.suffix_cons g rest
  · exact fun f hf _ => update_of_ne (fun hc : f = g => hf (hc ▸ hg)) _ _
  · intro i _
    have hroot := hmem root ⟨[], starts_nil, by simp, rfl⟩
    simp only [Phys.entry, hroot]
  · exact fun f b hf => by cases List.mem_singleton.1 hf
  · exact fun i hi => by cases List.mem_singleton.1 hi

/-- `kalloc` and `memset` move a page from the free list to the hand -/
theorem account_take (h : PageTable kend root hand s) {g : Frame} {rest : List Frame} (hfree : s.free = g :: rest) :
    account root (fun f => f = g ∨ hand f) ((({ s with free := rest } : Phys).fill g 0).record (.alloc g)) =
      account root hand s := by
  obtain ⟨-, -, hpte, hat⟩ := h.take_page hfree
  ext f
  rw [mem_account, mem_account, hfree, List.mem_cons, Phys.owns_congr fun q => Phys.at_eq_of_pteAt hat hpte]
  change f ∈ rest ∨ _ ↔ _
  tauto

/-- `kfree` of the page in hand -/
theorem account_release {g : Frame} (h : PageTable kend root (fun f => f = g ∨ hand f) s) :
    account root hand (s.release g) = account root (fun f => f = g ∨ hand f) s := by
  obtain ⟨hown, hfree⟩ := h.hand_apart g (.inl rfl)
  have hat := (h.release hown hfree (h.usable g (.inr (.inl (.inl rfl))))).2
  ext f
  rw [mem_account, mem_account, Phys.owns_congr hat]
  simp only [Phys.release, List.mem_cons]
  tauto

/-- the way out when a page-table page could not be allocated: undo the range and free the page in hand -/
theorem undo_and_free (hk : 0 < kend) (h : PageTable kend root hand s) {g : Frame} {rest : List Frame}
    (hfree : s.free = g :: rest) {oldsz newsz : Addr} (hlt : oldsz < newsz)
    (hgrown : Grown kend root (fun f => f = g ∨ hand f)
      ((({ s with free := rest } : Phys).fill g 0).record (.alloc g)) t)
    (hrange : ∀ a ∈ pageAddrs (pgRoundUp oldsz) newsz, Walkable s root a)
    (hacc : account root (fun f => f = g ∨ hand f) t = account root hand s) :
    wp (do
        let _ ← deallocuvm kend root newsz oldsz
        kfree kend g
        return (0 : Addr))
      (fun r u => r = 0 ∧ Undone kend root hand (pageAddrs (pgRoundUp oldsz) newsz) s u ∧
        account root hand u = account root hand s ∧ Still root s u) (fun _ _ => False) t := by
  obtain ⟨-, hkept, hpte, -⟩ := h.take_page hfree
  have hkt := hkept.trans hgrown.kept
  have hgfree : g ∈ s.free := by rw [hfree]; exact List.mem_cons_self
  have hne : ∀ x, hand x → x ≠ g := fun x hx hc => (h.hand_apart x hx).2 (hc ▸ hgfree)
  rw [wp_bind]
  refine wp_imp (deallocuvm_spec hk hgrown.inv hlt fun b hb => (hrange b hb).of_slots hkt.slots) ?_
  rintro _ u ⟨-, hclear⟩
  rw [wp_bind]
  obtain ⟨hgo, hgf⟩ := hclear.inv.hand_apart g (.inl rfl)
  have hgu := hclear.inv.usable g (.inr (.inl (.inl rfl)))
  refine wp_kfree hgu ?_
  obtain ⟨hrel, -⟩ := hclear.inv.release hgo hgf hgu
  have hmem : ∀ f, f ≠ g → (u.release g).mem f = u.mem f := fun f hf => update_of_ne hf _ _
  have htab : ∀ f, u.Table root f → (u.release g).mem f = u.mem f := fun f hf =>
    hmem f fun hc => hgo (hc ▸ hf.owns)
  refine wp_return ⟨rfl, Undone.of_kept h hkt (fun q j hq hl _ => (hgrown.pte q j hq hl).trans (hpte q j hq hl)) ?_,
    (account_release hclear.inv).trans (hclear.pages.trans hacc), Still.after_kept hkt fun f hnt _ hout => ?_⟩
  swap
  · rw [hmem f fun hc => hout (hc ▸ List.mem_cons_self)]
    exact hclear.given.mem f hnt fun hc => hout (List.mem_cons_of_mem g hc)
  refine ⟨hrel.weaken fun x hx => ⟨.inr hx, hne x hx⟩, ?_, ?_, ?_, ?_, hclear.trace⟩
  · intro b hb hvb
    rw [Phys.pteAt_congr htab _ (starts_dir hvb) rfl]
    exact hclear.gone b hb hvb
  · intro q j hq hl hout
    rw [Phys.pteAt_congr htab j hq hl]
    exact hclear.pte q j hq hl hout
  · intro i hi
    have hroot := htab root ⟨[], starts_nil, by simp, rfl⟩
    rw [← hclear.slots i hi]
    simp only [Phys.entry, hroot]
  · intro x hx
    rw [hmem x (hne x hx), hclear.held x (.inr hx)]

/-- the page of a and the tables it needed have been taken from the free list -/
structure Spent (root : Frame) (a : Addr) (s t : Phys) : Prop where
  count : t.free.length + (s.missing root a + 1) = s.free.length
  tables : ∀ q, Starts UserSlot q → q.length < 4 → ((t.at root q).isSome ↔ (s.at root q).isSome ∨ q ∈ tablePaths a)

theorem mem_tablePaths {a : Addr} (ha : UserSlot (pmx a)) {q : List Idx} (hq : q ∈ tablePaths a) :
    Starts UserSlot q ∧ q.length < 4 := by
  simp only [tablePaths, List.mem_cons, List.not_mem_nil, or_false] at hq
  rcases hq with rfl | rfl | rfl <;> exact ⟨fun i hi => by cases hi; exact ha, by simp [dir]⟩

/-- what `mappages` spends after `kalloc` has taken the page itself -/
theorem missing_congr {a : Addr} (ha : UserSlot (pmx a))
    (hat : ∀ q, Starts UserSlot q → q.length < 4 → t.at root q = s.at root q) : t.missing root a = s.missing root a := by
  rw [Phys.missing, Phys.missing]
  refine congrArg List.sum (List.map_congr_left fun q hq => ?_)
  obtain ⟨hst, hl⟩ := mem_tablePaths ha hq
  rw [Phys.lacks, Phys.lacks, hat q hst hl]

/-- **One round of `allocuvm`** over a page that is not present: it is mapped to a zeroed page of the free list, or, when
the free list is too short for it and its tables, the whole request is undone. -/
theorem wp_allocuvmLoop_cons (hk : 0 < kend) {oldsz newsz : Addr} {a : Addr} {l : List Addr}
    (h : PageTable kend root hand s) (hlt : oldsz < newsz)
    (hrange : ∀ a ∈ pageAddrs (pgRoundUp oldsz) newsz, Walkable s root a)
    (halign : a.toNat % 4096 = 0) (hva : UserSlot (pmx a)) (hnone : s.pteAt root (dir a) (ptx a) = none)
    {Q : Addr → Phys → Prop} {E : Fault → Phys → Prop}
    (hfail : ∀ t, Undone kend root hand (pageAddrs (pgRoundUp oldsz) newsz) s t →
      account root hand t = account root hand s ∧ Still root s t → s.free.length < s.missing root a + 1 → Q 0 t)
    (hok : ∀ t, Allocated kend root hand [a] s t → account root hand t = account root hand s → Spent root a s t →
      wp (allocuvmLoop kend root oldsz newsz l) Q E t) :
    wp (allocuvmLoop kend root oldsz newsz (a :: l)) Q E s := by
  rw [allocuvmLoop, wp_bind]
  refine wp_kalloc (fun hnil => ?_) fun g rest hfree => ?_
  · rw [wp_bind]
    refine wp_safe (deallocuvm_spec hk h hlt hrange) ?_
    rintro _ t ⟨-, ht⟩
    exact wp_return (hfail t ht.undone ⟨ht.pages, ht.given.still⟩ (by rw [hnil]; simp))
  obtain ⟨h2, hkept2, hpte2, hat2⟩ := h.take_page hfree
  have hgfree : g ∈ s.free := by rw [hfree]; exact List.mem_cons_self
  have hlen : s.free.length = rest.length + 1 := by rw [hfree]; rfl
  have hng : ¬ hand g := fun hc => (h.hand_apart g hc).2 hgfree
  simp only [wp_bind, wp_modify]
  refine wp_safe (mappages_spec h2 halign hva (.inl rfl) (by decide) ((hpte2 _ _ (starts_dir hva) rfl).trans hnone)) ?_
  rintro r t ⟨⟨rfl, hgrown, hfew⟩ | ⟨rfl, hinv, hkept3, hopen, hpte3⟩, hacc⟩
  · simp only [Int.reduceNeg, Int.neg_eq_zero, one_ne_zero, false_implies, and_true] at hacc
    rw [if_pos (by decide)]
    rw [missing_congr hva hat2] at hfew
    refine wp_safe (undo_and_free hk h hfree hlt hgrown hrange (hacc.trans (account_take h hfree))) ?_
    rintro _ u ⟨rfl, hu, hpages⟩
    exact hfail u hu hpages (by rw [hlen]; exact Nat.succ_lt_succ hfew)
  · rw [if_neg (by decide)]
    have hout : (fun f => (f = g ∨ hand f) ∧ f ≠ g) = hand := by
      funext f
      by_cases hf : f = g
      · simp [hf, hng]
      · simp [hf]
    simp only [true_implies] at hacc
    rw [hout] at hinv hacc
    refine hok t ⟨hinv, ?_, ?_, hkept2.trans hkept3⟩ (hacc.trans (account_take h hfree))
      ⟨?_, fun q hq hl => by rw [hopen.tables q hq hl, hat2 q hq hl]⟩
    · intro b hb
      obtain rfl := List.mem_singleton.1 hb
      refine ⟨g, by rw [hpte3 _ _ (starts_dir hva) rfl, if_pos ⟨rfl, rfl⟩]; rfl, ?_, hgfree, ?_⟩
      · exact Since.after ⟨[.alloc g], rfl, List.mem_cons_self⟩ hkept3.trace
      · obtain ⟨hgo, hgf⟩ := h2.hand_apart g (.inl rfl)
        rw [hkept3.mem g hgf fun hc => hgo hc.owns]
        exact update_self _ _ _
    · intro q j hq hl hout
      rw [hpte3 q j hq hl, if_neg (hout a List.mem_cons_self), hpte2 q j hq hl]
    · have hcount := hopen.count
      change t.free.length + Phys.missing _ root a = rest.length at hcount
      rw [missing_congr hva hat2] at hcount
      omega

/-- **The loop of `allocuvm`.** From pages of the user half that are not present, it maps them all, or it leaves no page
of the whole range present. -/
theorem allocuvmLoop_spec (hk : 0 < kend) {oldsz newsz : Addr} (l : List Addr)
    (h : PageTable kend root hand s) (hl : ∀ a ∈ l, a ∈ pageAddrs (pgRoundUp oldsz) newsz)
    (hold : l ≠ [] → oldsz < newsz)
    (hrange : ∀ a ∈ pageAddrs (pgRoundUp oldsz) newsz, Walkable s root a)
    (hal : ∀ a ∈ l, a.toNat % 4096 = 0 ∧ UserSlot (pmx a) ∧ s.pteAt root (dir a) (ptx a) = none)
    (hdis : l.Pairwise fun a b => path a ≠ path b) :
    wp (allocuvmLoop kend root oldsz newsz l)
      (fun r t => ((r = 0 ∧ Undone kend root hand (pageAddrs (pgRoundUp oldsz) newsz) s t) ∨
        (r = newsz ∧ Allocated kend root hand l s t)) ∧ account root hand t = account root hand s ∧ Still root s t)
      (fun _ _ => False) s := by
  induction l generalizing s with
  | nil => exact wp_return ⟨.inr ⟨rfl, Allocated.nil h⟩, rfl, (Kept.refl root s).still⟩
  | cons a l ih =>
    obtain ⟨halign, hva, hnone⟩ := hal a List.mem_cons_self
    have hlt := hold (List.cons_ne_nil a l)
    obtain ⟨hfirst, hrest⟩ := List.pairwise_cons.1 hdis
    refine wp_allocuvmLoop_cons hk h hlt hrange halign hva hnone (fun t ht hpages _ => ⟨.inl ⟨rfl, ht⟩, hpages⟩)
      fun t hone hacc _ => ?_
    refine wp_imp (ih hone.inv (fun b hb => hl b (List.mem_cons_of_mem a hb)) (fun _ => hlt)
      (fun b hb => (hrange b hb).of_slots hone.kept.slots) (fun b hb => ?_) hrest) ?_
    · -- the rest of the list is still absent
      obtain ⟨hb1, hb2, hb3⟩ := hal b (List.mem_cons_of_mem a hb)
      refine ⟨hb1, hb2, ?_⟩
      rw [hone.pte _ _ (starts_dir hb2) rfl fun c hc hcon => ?_, hb3]
      exact hfirst b hb (by rw [path, path, ← List.mem_singleton.1 hc, hcon.1, hcon.2])
    · rintro r u ⟨hru, hpages, hstill⟩
      refine ⟨?_, hpages.trans hacc, hstill.after_kept hone.kept⟩
      rcases hru with ⟨rfl, hu⟩ | ⟨rfl, hu⟩
      · refine .inl ⟨rfl, Undone.of_kept h hone.kept (fun q j hq hl' hout => ?_) hu⟩
        exact hone.pte q j hq hl' fun b hb => List.mem_singleton.1 hb ▸ hout a (hl a List.mem_cons_self)
      · exact .inr ⟨rfl, hone.cons hu hva hfirst⟩

theorem lt_KERNBASE {newsz : Addr} (hnew : newsz.toNat ≤ 2 ^ 47) : newsz < KERNBASE := by
  rw [BitVec.lt_def, show KERNBASE.toNat = 0xFFFF800000000000 from rfl]
  omega

theorem allocuvm_eq {oldsz newsz : Addr} (hle : oldsz ≤ newsz) (hnew : newsz < KERNBASE) :
    allocuvm kend root oldsz newsz = allocuvmLoop kend root oldsz newsz (pageAddrs (pgRoundUp oldsz) newsz) := by
  rw [allocuvm, if_neg (BitVec.not_le.2 hnew), if_neg (BitVec.not_lt.2 hle)]

/-- **`allocuvm`** up to an address of the user half: the process grows by pages of its own, or it is as before. -/
theorem allocuvm_spec (hk : 0 < kend) (h : PageTable kend root hand s) {oldsz newsz : Addr} (hle : oldsz ≤ newsz)
    (hnew : newsz.toNat ≤ 2 ^ 47)
    (habs : ∀ a ∈ pageAddrs (pgRoundUp oldsz) newsz, s.pteAt root (dir a) (ptx a) = none) :
    wp (allocuvm kend root oldsz newsz)
      (fun r t => ((r = 0 ∧ Undone kend root hand (pageAddrs (pgRoundUp oldsz) newsz) s t) ∨
        (r = newsz ∧ Allocated kend root hand (pageAddrs (pgRoundUp oldsz) newsz) s t)) ∧
        account root hand t = account root hand s ∧ Still root s t) (fun _ _ => False) s := by
  have hle' := hle
  rw [BitVec.le_def] at hle'
  have hround := pgRoundUp_toNat oldsz (by omega)
  have huser : ∀ a ∈ pageAddrs (pgRoundUp oldsz) newsz, a.toNat % 4096 = 0 ∧ UserSlot (pmx a) := fun a ha => by
    obtain ⟨k, hk, hlt⟩ := mem_pageAddrs.1 ha
    exact ⟨by omega, pmx_of_lt (by omega)⟩
  rw [allocuvm_eq hle (lt_KERNBASE hnew)]
  refine allocuvmLoop_spec hk _ h (fun _ ha => ha) (fun hne => ?_) (fun a ha => .inl (huser a ha).2)
    (fun a ha => ⟨(huser a ha).1, (huser a ha).2, habs a ha⟩) (pageAddrs_pairwise (by omega))
  obtain ⟨a, ha⟩ := List.exists_mem_of_ne_nil _ hne
  obtain ⟨k, hk, hlt⟩ := mem_pageAddrs.1 ha
  rw [BitVec.lt_def]
  omega

/-! ## `clearpteu` -/

theorem clear_user_present (e : Addr) : e &&& ~~~PTE_U &&& PTE_P = e &&& PTE_P := by
  rw [BitVec.and_assoc, show ~~~PTE_U &&& PTE_P = PTE_P by decide]

theorem pteFrame_clear_user (e : Addr) : pteFrame (e &&& ~~~PTE_U) = pteFrame e := by
  rw [pteFrame, BitVec.ushiftRight_and_distrib, BitVec.setWidth_and,
    show (~~~PTE_U >>> 12).setWidth 52 = BitVec.allOnes 52 by decide, BitVec.and_allOnes]
  rfl

/-- **`clearpteu`** on a present page takes PTE_U off its PTE and changes nothing else. -/
theorem clearpteu_spec (h : PageTable kend root hand s) {a : Addr} (hva : UserSlot (pmx a)) {e : Addr}
    (he : s.pteAt root (dir a) (ptx a) = some e) :
    wp (clearpteu root a)
      (fun _ t => PageTable kend root hand t ∧ Kept root s t ∧
        (∀ q, Starts UserSlot q → q.length < 4 → t.at root q = s.at root q) ∧
        (∀ q j, Starts UserSlot q → q.length = 3 →
          t.pteAt root q j = if q = dir a ∧ j = ptx a then some (e &&& ~~~PTE_U) else s.pteAt root q j) ∧
        account root hand t = account root hand s)
      (fun _ _ => False) s := by
  rw [clearpteu, wp_bind, wp_walkpgdir_false]
  change wp _ _ _ (s.looked root a)
  have hlook := Grown.looked h (.inl hva)
  rw [← hlook.pte _ _ (starts_dir hva) rfl] at he
  rw [show follow child s.entry root (dir a) = s.at root (dir a) from rfl, ← Phys.at_looked root a]
  cases hpt : (s.looked root a).at root (dir a) with
  | none => rw [Phys.pteAt_eq_none hpt] at he; cases he
  | some pt =>
    rw [Phys.pteAt_eq_filter hpt, Option.filter_eq_some_iff] at he
    obtain ⟨hee, hpres⟩ := he
    obtain rfl := Option.some.inj hee
    have hsame : child ((s.looked root a).entry pt (ptx a) &&& ~~~PTE_U) = child ((s.looked root a).entry pt (ptx a)) := by
      rw [child, child, clear_user_present, pteFrame_clear_user]
    simp only [Option.map_some, wp_modify]
    refine ⟨hlook.inv.rewrite (starts_path hva) rfl hpt hsame,
      hlook.kept.trans (Kept.store hlook.inv (starts_dir hva) rfl hpt), fun q hq hl => ?_, fun q j hq hl => ?_, ?_⟩
    · rw [Phys.at_store_table hlook.inv (starts_dir hva) rfl hpt hq hl, Phys.at_looked]
    · rw [Phys.pteAt_store hlook.inv (starts_dir hva) rfl hpt hq hl, hlook.pte q j hq hl, Option.filter_some,
        clear_user_present, if_pos hpres]
    · rw [← account_looked root hand s a]
      refine account_congr rfl fun q hq hl => ?_
      rw [Phys.at, Phys.entry_store, follow_set hlook.inv.tree (starts_path hva) (by simp [dir]) hpt (.inl rfl) hq hl]
      split_ifs with hqp
      · rw [hqp, hsame, Phys.at_snoc hpt]
      · rfl

/-! ## `freevm` -/

/-- the pages below f along paths of at most n indices are usable and no page is reached twice -/
structure Below (kend : ℕ) (s : Phys) (f : Frame) (n : ℕ) : Prop where
  tree : Tree child (fun _ => True) n s.entry f
  usable : ∀ q g, q.length ≤ n → follow child s.entry f q = some g → Usable kend g

/-- what freeing leaves alone: the pages not on a path from f, and the record -/
def Spared (s t : Phys) (f : Frame) (n : ℕ) : Prop :=
  (∀ x, (∀ q, q.length ≤ n → follow child s.entry f q ≠ some x) → t.mem x = s.mem x) ∧ t.trace = s.trace

theorem nodup_firstIdx {n : ℕ} (hn : n ≤ 512) : (firstIdx n).Nodup := by
  refine List.Nodup.map_on (fun x hx y hy hxy => ?_) List.nodup_range
  rw [List.mem_range] at hx hy
  have := congrArg BitVec.toNat hxy
  rw [BitVec.toNat_ofNat, BitVec.toNat_ofNat] at this
  omega

theorem mem_firstIdx {n : ℕ} {i : Idx} : i ∈ firstIdx n ↔ ∃ k < n, k % 512 = i.toNat := by
  simp only [firstIdx, List.mem_map, List.mem_range]
  refine exists_congr fun k => and_congr_right fun _ => ?_
  rw [← BitVec.toNat_inj, BitVec.toNat_ofNat]

theorem starts_true (q : List Idx) : Starts (fun _ => True) q := fun _ _ => trivial

/-- while the subtrees of the entries in done have been freed, the subtree of another entry b is as it was -/
theorem subtree_intact {n : ℕ} {f : Frame} {l done : List Idx} {b : Idx} (htree : Tree child (· ∈ l) (n + 1) s.entry f)
    (hb : b ∈ l) (hdone : ∀ i ∈ done, i ∈ l ∧ i ≠ b)
    (hmem : ∀ x, (∀ i ∈ done, ∀ q, q.length ≤ n → follow child s.entry f (i :: q) ≠ some x) → t.mem x = s.mem x) :
    t.entry f b = s.entry f b ∧ ∀ g, child (s.entry f b) = some g → ∀ q, q.length ≤ n →
      follow child t.entry g q = follow child s.entry f (b :: q) := by
  have hstart : ∀ i ∈ l, ∀ q, Starts (· ∈ l) (i :: q) := fun i hi q j hj => by cases hj; exact hi
  -- the table itself is above everything freed so far
  have hf : t.mem f = s.mem f := hmem f fun i hi q hq hc => by
    cases htree (i :: q) [] f (hstart i (hdone i hi).1 q) (fun _ hj => by cases hj) (by simpa using hq) (by simp) hc rfl
  refine ⟨by simp only [Phys.entry, hf], fun g hg q hq => ?_⟩
  have hdown : ∀ q, follow child s.entry f (b :: q) = follow child s.entry g q := fun q => by
    rw [follow, hg, Option.bind_some]
  rw [hdown]
  refine follow_congr (U := fun _ => True) (d := n) (fun p i x _ hp hx => ?_) (starts_true q) hq
  -- no page of the subtree of b is in a subtree freed before
  have hsame : t.mem x = s.mem x := hmem x fun j hj r hr hc => by
    have := htree (j :: r) (b :: p) x (hstart j (hdone j hj).1 r) (hstart b hb p) (by simpa using hr)
      (by simp only [List.length_cons]; omega) hc ((hdown p).trans hx)
    exact (hdone j hj).2 (List.cons.inj this).1
  simp only [Phys.entry, hsame]

/-- a subtree is below its entry -/
theorem subtree_below {n : ℕ} {f g : Frame} {l : List Idx} {b : Idx} (htree : Tree child (· ∈ l) (n + 1) s.entry f)
    (hus : ∀ q x, Starts (· ∈ l) q → q.length ≤ n + 1 → follow child s.entry f q = some x → Usable kend x) (hb : b ∈ l)
    (hsub : ∀ q, q.length ≤ n → follow child t.entry g q = follow child s.entry f (b :: q)) : Below kend t g n := by
  have hstart : ∀ q, Starts (· ∈ l) (b :: q) := fun q j hj => by cases hj; exact hb
  refine ⟨fun p q x _ _ hp hq hpx hqx => ?_, fun q x hq hx => ?_⟩
  · rw [hsub p hp] at hpx
    rw [hsub q hq] at hqx
    exact (List.cons.inj (htree (b :: p) (b :: q) x (hstart p) (hstart q) (by simpa using hp) (by simpa using hq)
      hpx hqx)).2
  · exact hus (b :: q) x (hstart q) (by simpa using hq) ((hsub q hq).symm.trans hx)

/-- the pages P have been put on the free list, once each -/
structure Freed (P : Frame → Prop) (s t : Phys) : Prop where
  nodup : t.free.Nodup
  mem : ∀ x, x ∈ t.free ↔ P x ∨ x ∈ s.free

theorem Freed.release {f : Frame} {P : Frame → Prop} (h : Freed P s t) (hf : ¬ P f) (hfree : f ∉ s.free) :
    Freed (fun x => x = f ∨ P x) s (t.release f) := by
  refine ⟨List.nodup_cons.2 ⟨fun hc => ((h.mem f).1 hc).elim hf hfree, h.nodup⟩, fun x => ?_⟩
  simp only [Phys.release, List.mem_cons, h.mem x, or_assoc]

theorem Freed.congr {P P' : Frame → Prop} (h : Freed P s t) (hP : ∀ x, P x ↔ P' x) : Freed P' s t :=
  ⟨h.nodup, fun x => (h.mem x).trans (or_congr_left (hP x))⟩

/-- below f no page is free -/
def Taken (s : Phys) (f : Frame) (n : ℕ) : Prop := ∀ q x, q.length ≤ n → follow child s.entry f q = some x → x ∉ s.free

/-- the pages below f along paths of at most n indices have been freed, and nothing else is different -/
structure Emptied (f : Frame) (n : ℕ) (s t : Phys) : Prop where
  spared : Spared s t f n
  freed : Freed (fun x => ∃ q, q.length ≤ n ∧ follow child s.entry f q = some x) s t

/-- below the entries in l of the table f -/
def Hangs (s : Phys) (f : Frame) (n : ℕ) (l : List Idx) (x : Frame) : Prop :=
  ∃ i ∈ l, ∃ q, q.length ≤ n ∧ follow child s.entry f (i :: q) = some x

/-- the loop of `freevm` over the entries of one table: what hangs below the entries still to be done is intact, and what
hung below the others is free -/
theorem freeEntries_spec {n : ℕ} {f : Frame} {l : List Idx} (hnd : l.Nodup)
    (hlevel : ∀ t g, Below kend t g n → t.free.Nodup → Taken t g n →
      wp (freeLevel kend n g) (fun _ u => Emptied g n t u) (fun _ _ => False) t)
    (htree : Tree child (· ∈ l) (n + 1) s.entry f)
    (hus : ∀ q g, Starts (· ∈ l) q → q.length ≤ n + 1 → follow child s.entry f q = some g → Usable kend g)
    (hfree : s.free.Nodup) (htaken : ∀ x, Hangs s f n l x → x ∉ s.free) :
    wp (forM l fun i => do
        let e := (← get).entry f i
        if e &&& PTE_P ≠ 0 then freeLevel kend n (pteFrame e) else return ())
      (fun _ t => (∀ x, ¬ Hangs s f n l x → t.mem x = s.mem x) ∧ t.trace = s.trace ∧ Freed (Hangs s f n l) s t)
      (fun _ _ => False) s := by
  have hloop := wp_forM (E := fun _ _ => False) (s := s)
    (g := fun i => do
        let e := (← get).entry f i
        if e &&& PTE_P ≠ 0 then freeLevel kend n (pteFrame e) else return ())
    (fun bs t => ∃ done, l = done ++ bs ∧ (∀ x, ¬ Hangs s f n done x → t.mem x = s.mem x) ∧ t.trace = s.trace ∧
      Freed (Hangs s f n done) s t) ?_ l
    ⟨[], rfl, fun _ _ => rfl, rfl, hfree, fun x => by simp [Hangs]⟩
  · refine wp_imp hloop ?_
    rintro _ t ⟨done, hl, ht⟩
    rw [List.append_nil] at hl
    exact hl ▸ ht
  rintro b bs t ⟨done, hl, hmem, htr, hfreed⟩
  have hb : b ∈ l := by rw [hl]; exact List.mem_append_right _ List.mem_cons_self
  have hdone : ∀ i ∈ done, i ∈ l ∧ i ≠ b := fun i hi => by
    rw [hl, List.nodup_append] at hnd
    exact ⟨by rw [hl]; exact List.mem_append_left _ hi, hnd.2.2 i hi b List.mem_cons_self⟩
  have hsplit : ∀ x, Hangs s f n (done ++ [b]) x ↔
      Hangs s f n done x ∨ ∃ q, q.length ≤ n ∧ follow child s.entry f (b :: q) = some x := fun x => by
    simp only [Hangs, List.mem_append, List.mem_singleton, or_and_right, exists_or, exists_eq_left]
  obtain ⟨hentry, hsub⟩ := subtree_intact htree hb hdone fun x hx =>
    hmem x fun ⟨i, hi, q, hq, hc⟩ => hx i hi q hq hc
  have hnext : l = (done ++ [b]) ++ bs := by rw [hl, List.append_assoc]; rfl
  rw [wp_bind, wp_get]
  by_cases hpres : t.entry f b &&& PTE_P ≠ 0
  swap
  · have hnone : ∀ q, follow child s.entry f (b :: q) = none := fun q => by
      rw [follow, ← hentry, child, if_neg hpres]
      rfl
    rw [if_neg hpres]
    refine wp_return ⟨done ++ [b], hnext, fun x hx => hmem x fun hc => hx ((hsplit x).2 (.inl hc)), htr,
      hfreed.congr fun x => ?_⟩
    rw [hsplit]
    simp [hnone]
  rw [if_pos hpres]
  have hsub := hsub (pteFrame (t.entry f b)) (by rw [← hentry, child, if_pos hpres])
  -- a page below b is not below an entry done before
  have htaken' : Taken t (pteFrame (t.entry f b)) n := by
    intro q x hq hx hm
    rw [hsub q hq] at hx
    rcases (hfreed.mem x).1 hm with ⟨i, hi, r, hr, hxr⟩ | hm
    · have := htree (i :: r) (b :: q) x (fun j hj => by cases hj; exact (hdone i hi).1) (fun j hj => by cases hj; exact hb)
        (by simpa using hr) (by simpa using hq) hxr hx
      exact (hdone i hi).2 (List.cons.inj this).1
    · exact htaken x ⟨b, hb, q, hq, hx⟩ hm
  refine wp_imp (hlevel t _ (subtree_below htree hus hb hsub) hfreed.nodup htaken') ?_
  rintro _ u ⟨⟨hu, hutr⟩, hfreed'⟩
  refine ⟨done ++ [b], hnext, fun x hx => ?_, hutr.trans htr, hfreed'.nodup, fun x => ?_⟩
  · rw [hsplit, not_or] at hx
    rw [hu x fun q hq hc => hx.2 ⟨q, hq, (hsub q hq).symm.trans hc⟩]
    exact hmem x hx.1
  · have hbelow : (∃ q, q.length ≤ n ∧ follow child t.entry (pteFrame (t.entry f b)) q = some x) ↔
        ∃ q, q.length ≤ n ∧ follow child s.entry f (b :: q) = some x :=
      exists_congr fun q => and_congr_right fun hq => by rw [hsub q hq]
    rw [hfreed'.mem x, hfreed.mem x, hbelow, hsplit, or_left_comm, ← or_assoc]

theorem freeLevel_spec (n : ℕ) (f : Frame) (h : Below kend s f n) (hfree : s.free.Nodup) (htaken : Taken s f n) :
    wp (freeLevel kend n f) (fun _ t => Emptied f n s t) (fun _ _ => False) s := by
  have hself : f ∉ s.free := htaken [] f (Nat.zero_le _) rfl
  induction n generalizing s f with
  | zero =>
    refine wp_kfree (h.usable [] f le_rfl rfl) ⟨⟨fun x hx => ?_, rfl⟩, List.nodup_cons.2 ⟨hself, hfree⟩, fun x => ?_⟩
    · exact update_of_ne (fun hc : x = f => hx [] le_rfl (by rw [hc]; rfl)) _ _
    · rw [Phys.release, List.mem_cons]
      refine or_congr_left ⟨fun hx => ⟨[], le_rfl, by rw [hx]; rfl⟩, ?_⟩
      rintro ⟨q, hq, hx⟩
      rw [List.length_eq_zero_iff.1 (Nat.le_zero.1 hq)] at hx
      exact (Option.some.inj hx).symm
  | succ n ih =>
    have hnd := nodup_firstIdx (n := 512) le_rfl
    have hall : ∀ i : Idx, i ∈ firstIdx 512 := fun i => mem_firstIdx.2 ⟨i.toNat, i.isLt, Nat.mod_eq_of_lt i.isLt⟩
    rw [freeLevel, wp_bind]
    generalize firstIdx 512 = l at hnd hall ⊢
    have hpath : ∀ x, Hangs s f n l x → ∃ q, q.length ≤ n + 1 ∧ follow child s.entry f q = some x := by
      rintro x ⟨i, -, q, hq, hx⟩
      exact ⟨i :: q, by simpa using hq, hx⟩
    refine wp_imp (freeEntries_spec hnd (fun t g h1 h2 h3 => ih g h1 h2 h3 (h3 [] g (Nat.zero_le _) rfl))
      (fun p q g _ _ => h.tree p q g (starts_true p) (starts_true q)) (fun q g _ => h.usable q g) hfree
      fun x hx => (hpath x hx).elim fun q hq => htaken q x hq.1 hq.2) ?_
    rintro _ t ⟨hmem, htr, hfreed⟩
    have hnot : ¬ Hangs s f n l f := by
      rintro ⟨i, -, q, hq, hc⟩
      cases h.tree (i :: q) [] f (starts_true _) (starts_true _) (by simpa using hq) (by simp) hc rfl
    refine wp_kfree (h.usable [] f (Nat.zero_le _) rfl) ⟨⟨fun x hx => ?_, htr⟩, (hfreed.release hnot hself).congr fun x => ?_⟩
    · rw [← hmem x fun hc => (hpath x hc).elim fun q hq => hx q hq.1 hq.2]
      exact update_of_ne (fun hc : x = f => hx [] (Nat.zero_le _) (by rw [hc]; rfl)) _ _
    · constructor
      · rintro (rfl | ⟨i, -, q, hq, hx⟩)
        · exact ⟨[], Nat.zero_le _, rfl⟩
        · exact ⟨i :: q, by simpa using hq, hx⟩
      · rintro ⟨_ | ⟨i, q⟩, hq, hx⟩
        · exact .inl (Option.some.inj hx).symm
        · exact .inr ⟨i, hall i, q, by simpa using hq, hx⟩

/-- **`freevm`** never panics, touches no page outside the address space, and puts every page of it on the free list, once. -/
theorem freevm_spec (h : PageTable kend root hand s) :
    wp (freevm kend root) (fun _ t => ((∀ x, ¬ s.Owns root x → t.mem x = s.mem x) ∧ t.trace = s.trace) ∧
      Freed (s.Owns root) s t) (fun _ _ => False) s := by
  have hmem : ∀ i, i ∈ firstIdx 256 ↔ UserSlot i := fun i => by
    rw [mem_firstIdx, UserSlot]
    have := i.isLt
    exact ⟨fun ⟨k, hk, hki⟩ => by omega, fun hi => ⟨i.toNat, hi, by omega⟩⟩
  have hnd := nodup_firstIdx (n := 256) (by omega)
  rw [freevm, wp_bind]
  generalize firstIdx 256 = l at hnd hmem ⊢
  have hstart : ∀ q, Starts (· ∈ l) q ↔ Starts UserSlot q := fun q => forall₂_congr fun i _ => hmem i
  have howns : ∀ x, s.Owns root x ↔ x = root ∨ Hangs s root 3 l x := by
    intro x
    constructor
    · rintro ⟨_ | ⟨i, q⟩, hq, hl, hx⟩
      · exact .inl (Option.some.inj hx).symm
      · exact .inr ⟨i, (hmem i).2 (hq i rfl), q, Nat.le_of_succ_le_succ hl, hx⟩
    · rintro (rfl | ⟨i, hi, q, hq, hx⟩)
      · exact s.owns_self x
      · exact ⟨i :: q, fun j hj => by cases hj; exact (hmem i).1 hi, Nat.succ_le_succ hq, hx⟩
  refine wp_imp (freeEntries_spec hnd (fun t => @freeLevel_spec kend t 3)
    (fun p q g hp hq => h.tree p q g ((hstart p).1 hp) ((hstart q).1 hq))
    (fun q g hq hl hg => h.usable g (.inr (.inr ⟨q, (hstart q).1 hq, hl, hg⟩))) h.nodup
    fun x hx hm => h.free_apart x hm ((howns x).2 (.inr hx))) ?_
  rintro _ t ⟨hkeep, htr, hfreed⟩
  have hnot : ¬ Hangs s root 3 l root := by
    rintro ⟨i, hi, q, hq, hc⟩
    cases h.owns_root (p := i :: q) (fun j hj => by cases hj; exact (hmem i).1 hi) (Nat.succ_le_succ hq) hc
  have hlast := hfreed.release hnot fun hm => h.free_apart root hm (s.owns_self root)
  refine wp_kfree (h.usable root (.inr (.inr (s.owns_self root)))) ⟨⟨fun x hx => ?_, htr⟩, hlast.congr fun x => (howns x).symm⟩
  rw [howns, not_or] at hx
  rw [← hkeep x hx.2]
  exact update_of_ne hx.1 _ _

end Xv6.Vm
