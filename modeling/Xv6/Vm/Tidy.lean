/-
Page-table entries that are not present, and requests larger than memory.

A page table is cleared when it is taken, and `mappages` only ever stores present entries, so an entry that is not present
is 0: `allocuvm_tidy`. It matters for page 0, whose entry `loaduvm` may go through although no page is there.

`allocuvm_short`: a request for more pages than are free is refused or does not return, also one that leaves the user half.
-/
import Xv6.Vm.Space

namespace Xv6.Vm

open Xv6.Bytes Xv6.Wp Xv6.Radix

/-- in the page tables of the user half, an entry that is not present is 0 -/
def Tidy (root : Frame) (s : Phys) : Prop :=
  ∀ q pt j, Starts UserSlot q → q.length = 3 → s.at root q = some pt → s.entry pt j &&& PTE_P = 0 → s.entry pt j = 0

variable {kend : ℕ} {root : Frame} {hand : Frame → Prop} {s t : Phys} {a : Addr}

/-- only the page tables matter -/
theorem Tidy.congr (h : Tidy root s) (hmem : ∀ f, s.Table root f → t.mem f = s.mem f) : Tidy root t := by
  intro q pt j hq hl hpt hpres
  rw [Phys.at_congr hmem hq (by omega)] at hpt
  have hentry : t.entry pt j = s.entry pt j := by simp only [Phys.entry, hmem pt ⟨q, hq, by omega, hpt⟩]
  rw [hentry] at hpres ⊢
  exact h q pt j hq hl hpt hpres

/-- a new table is empty -/
theorem Tidy.graft (h : Tidy root s) (hinv : PageTable kend root hand s) {p : List Idx} {i : Idx} {f g : Frame}
    {rest : List Frame} (hfree : s.free = g :: rest) (hp : Starts UserSlot (p ++ [i])) (hlen : p.length < 3)
    (hf : s.at root p = some f) (hempty : child (s.entry f i) = none) :
    Tidy root ((({ s with free := rest } : Phys).fill g 0).store f i (mkPte g (PTE_P ||| PTE_W ||| PTE_U))) := by
  obtain ⟨hgrown, -, -⟩ := hinv.graft hfree hp hlen hf hempty
  have hgown : ¬ s.Owns root g := hinv.free_apart g (by rw [hfree]; exact List.mem_cons_self)
  intro q pt j hq hl hpt hpres
  have hptf : pt = f → s.at root q ≠ some pt := by
    rintro rfl hc
    have := congrArg List.length (hinv.tree q p pt hq hp.of_append (by omega) (by omega) hc hf)
    omega
  rcases hgrown.kept.at_new q pt hq (by omega) hpt with hold | hnew
  · have hne : pt ≠ g := fun hc => hgown ⟨q, hq, by omega, hc ▸ hold⟩
    rw [Phys.entry_store, set_other _ _ (fun hc => absurd hold (hptf hc)), Phys.entry_fill, if_neg hne] at hpres ⊢
    exact h q pt j hq hl hold hpres
  · -- of the free pages only g has become a table
    have hg : pt = g := by
      rw [hfree] at hnew
      refine (List.mem_cons.1 hnew).resolve_right fun hrest => ?_
      exact hgrown.inv.free_apart pt hrest ⟨q, hq, by omega, hpt⟩
    have hgf : g ≠ f := fun hc => hgown (hc ▸ ⟨p, hp.of_append, by omega, hf⟩)
    rw [hg, Phys.entry_store, set_other _ _ (fun hc => absurd hc hgf), Phys.entry_fill, if_pos rfl]

theorem survives_tidy : Survives kend root hand (Tidy root) where
  graft hinv h hfree hp hlen hf hempty := h.graft hinv hfree hp hlen hf hempty
  record h := h

/-- a present entry is stored -/
theorem Tidy.store (h : Tidy root s) (hinv : PageTable kend root hand s) {p : List Idx} {i : Idx} {f : Frame} {e : Addr}
    (hp : Starts UserSlot p) (hlen : p.length = 3) (hf : s.at root p = some f) (he : e &&& PTE_P ≠ 0) :
    Tidy root (s.store f i e) := by
  intro q pt j hq hl hpt hpres
  rw [Phys.at_store_table hinv hp hlen hf hq (by omega)] at hpt
  rw [Phys.entry_store] at hpres ⊢
  by_cases hij : pt = f ∧ j = i
  · rw [hij.1, hij.2, set_same] at hpres
    exact absurd hpres he
  · rw [set_other _ _ fun hc hj => hij ⟨hc, hj⟩] at hpres ⊢
    exact h q pt j hq hl hpt hpres

theorem mappages_tidy (hinv : PageTable kend root hand s) (h : Tidy root s) {g : Frame} {perm : Addr}
    (halign : a.toNat % 4096 = 0) (ha : UserSlot (pmx a))
    (hperm : (perm ||| PTE_P).toNat < 4096 ∧ (perm ||| PTE_P).toNat % 2 = 1) :
    wp (mappages root a PGSIZE g perm) (fun _ t => Tidy root t) (fun _ _ => True) s := by
  rw [mappages_page halign, mappagesLoop, wp_bind]
  refine wp_safe (walkpgdir_spec survives_tidy hinv h ha) ?_
  rintro (_ | ⟨pt, i⟩) t ⟨hgrown, hwalk, -, ht⟩
  · exact wp_return ht
  obtain ⟨rfl, hat, -⟩ := hwalk (pt, i) rfl
  have hpres : mkPte g (perm ||| PTE_P) &&& PTE_P ≠ 0 := by
    rw [present_iff, toNat_mkPte g hperm.1]
    omega
  simp only [wp_bind, wp_get]
  split_ifs
  · exact (wp_throw _ _).2 trivial
  · rw [wp_bind, wp_modify]
    exact wp_return (ht.store hgrown.inv (starts_dir ha) rfl hat hpres)

/-- **The loop of `allocuvm`** over pages of the user half: what it leaves on success is tidy. -/
theorem allocuvmLoop_tidy {oldsz newsz : Addr} (l : List Addr) (hinv : PageTable kend root hand s) (h : Tidy root s)
    (hal : ∀ a ∈ l, a.toNat % 4096 = 0 ∧ UserSlot (pmx a) ∧ s.pteAt root (dir a) (ptx a) = none)
    (hdis : l.Pairwise fun a b => path a ≠ path b) :
    wp (allocuvmLoop kend root oldsz newsz l) (fun r t => r ≠ 0 → Tidy root t) (fun _ _ => True) s := by
  induction l generalizing s hand with
  | nil => exact wp_return fun _ => h
  | cons a l ih =>
    obtain ⟨halign, ha, hnone⟩ := hal a List.mem_cons_self
    obtain ⟨hfirst, hrest⟩ := List.pairwise_cons.1 hdis
    rw [allocuvmLoop, wp_bind]
    refine wp_kalloc (fun _ => ?_) fun g rest hfree => ?_
    · rw [wp_bind]
      exact wp_mono wp_true (fun _ _ _ => wp_return fun hc => absurd rfl hc) (fun _ _ _ => trivial)
    obtain ⟨h2, -, hpte2, -⟩ := hinv.take_page hfree
    have hng : ¬ s.Owns root g := hinv.free_apart g (by rw [hfree]; exact List.mem_cons_self)
    have htidy : Tidy root ((({ s with free := rest } : Phys).fill g 0).record (.alloc g)) := h.congr fun f hf =>
      Function.update_of_ne (fun hc : f = g => hng (hc ▸ hf.owns)) _ _
    have hfresh := (hpte2 _ _ (starts_dir ha) rfl).trans hnone
    simp only [wp_bind, wp_modify]
    refine wp_mono (wp_and (mappages_spec h2 halign ha (.inl rfl) (by decide) hfresh)
      (mappages_tidy h2 htidy halign ha (by decide))) ?_ (fun _ _ he => he.1.elim)
    rintro r t ⟨⟨⟨rfl, -, -⟩ | ⟨rfl, hinv3, -, -, hpte3⟩, -⟩, ht⟩
    · rw [if_pos (by decide), wp_bind]
      refine wp_mono wp_true (fun _ _ _ => ?_) (fun _ _ _ => trivial)
      rw [wp_bind]
      exact wp_mono wp_true (fun _ _ _ => wp_return fun hc => absurd rfl hc) (fun _ _ _ => trivial)
    · rw [if_neg (by decide)]
      refine ih hinv3 ht (fun b hb => ?_) hrest
      obtain ⟨hb1, hb2, hb3⟩ := hal b (List.mem_cons_of_mem a hb)
      refine ⟨hb1, hb2, ?_⟩
      rw [hpte3 _ _ (starts_dir hb2) rfl, if_neg, hpte2 _ _ (starts_dir hb2) rfl, hb3]
      intro hc
      exact hfirst b hb (by rw [path, path, hc.1, hc.2])

/-- **Not enough memory.** If the first pages asked for are more than the free list has, the loop gives up. -/
theorem allocuvmLoop_short {oldsz newsz : Addr} (l rest : List Addr) (hinv : PageTable kend root hand s)
    (hlen : s.free.length < l.length)
    (hal : ∀ a ∈ l, a.toNat % 4096 = 0 ∧ UserSlot (pmx a) ∧ s.pteAt root (dir a) (ptx a) = none)
    (hdis : l.Pairwise fun a b => path a ≠ path b) :
    wp (allocuvmLoop kend root oldsz newsz (l ++ rest)) (fun r _ => r = 0) (fun _ _ => True) s := by
  induction l generalizing s hand with
  | nil => exact absurd hlen (Nat.not_lt_zero _)
  | cons a l ih =>
    obtain ⟨halign, ha, hnone⟩ := hal a List.mem_cons_self
    obtain ⟨hfirst, hrest⟩ := List.pairwise_cons.1 hdis
    rw [List.cons_append, allocuvmLoop, wp_bind]
    refine wp_kalloc (fun _ => ?_) fun g free hfree => ?_
    · rw [wp_bind]
      exact wp_mono wp_true (fun _ _ _ => wp_return rfl) (fun _ _ _ => trivial)
    obtain ⟨h2, hkept2, hpte2, -⟩ := hinv.take_page hfree
    have hfresh := (hpte2 _ _ (starts_dir ha) rfl).trans hnone
    simp only [wp_bind, wp_modify]
    refine wp_safe (mappages_spec h2 halign ha (.inl rfl) (by decide) hfresh) ?_
    rintro r t ⟨⟨rfl, -, -⟩ | ⟨rfl, hinv3, hkept3, -, hpte3⟩, -⟩
    · rw [if_pos (by decide), wp_bind]
      refine wp_mono wp_true (fun _ _ _ => ?_) (fun _ _ _ => trivial)
      rw [wp_bind]
      exact wp_mono wp_true (fun _ _ _ => wp_return rfl) (fun _ _ _ => trivial)
    · rw [if_neg (by decide)]
      have hfew : t.free.length ≤ free.length := hkept3.free.length_le
      rw [hfree, List.length_cons, List.length_cons] at hlen
      refine ih hinv3 (by omega) (fun b hb => ?_) hrest
      obtain ⟨hb1, hb2, hb3⟩ := hal b (List.mem_cons_of_mem a hb)
      refine ⟨hb1, hb2, ?_⟩
      rw [hpte3 _ _ (starts_dir hb2) rfl, if_neg, hpte2 _ _ (starts_dir hb2) rfl, hb3]
      intro hc
      exact hfirst b hb (by rw [path, path, hc.1, hc.2])

variable {sz newsz : Addr}

/-- the pages that a space of size sz does not have yet -/
theorem Space.beyond (h : Space kend root hand sz s) {top : Addr} (htop : top.toNat ≤ 2 ^ 47) {a : Addr}
    (ha : a ∈ pageAddrs (pgRoundUp sz) top) :
    a.toNat % 4096 = 0 ∧ UserSlot (pmx a) ∧ s.pteAt root (dir a) (ptx a) = none := by
  have hhigh := h.high
  have hround := pgRoundUp_toNat sz (by omega)
  obtain ⟨k, hk, hlt⟩ := mem_pageAddrs.1 ha
  refine ⟨by omega, pmx_of_lt (by omega), h.absent a (by omega) (by omega) fun hc => ?_⟩
  obtain ⟨j, -, hj⟩ := mem_pageAddrs.1 hc
  omega

theorem pairwise_beyond {lo hi : Addr} (h : hi.toNat ≤ 2 ^ 47) : (pageAddrs lo hi).Pairwise fun a b => path a ≠ path b :=
  pageAddrs_pairwise (by omega)

/-- **`allocuvm`** from a tidy space. -/
theorem allocuvm_tidy (h : Space kend root hand sz s) (ht : Tidy root s) (hnew : newsz.toNat ≤ 2 ^ 47) :
    wp (allocuvm kend root sz newsz) (fun r t => r ≠ 0 → Tidy root t) (fun _ _ => True) s := by
  rw [allocuvm]
  split_ifs
  · exact wp_return fun hc => absurd rfl hc
  · exact wp_return fun _ => ht
  · exact allocuvmLoop_tidy _ h.inv ht (fun a ha => h.beyond hnew ha) (pairwise_beyond hnew)

/-- **`allocuvm`** for more than there can be: it gives up, or never returns. -/
theorem allocuvm_short (h : Space kend root hand sz s) (hsz : sz.toNat < 2 ^ 28) (hnew : 2 ^ 47 < newsz.toNat) :
    wp (allocuvm kend root sz newsz) (fun r _ => r = 0) (fun _ _ => True) s := by
  rw [allocuvm]
  have hround := pgRoundUp_toNat sz (by omega)
  have hmid : (2 ^ 46 : Addr).toNat = 2 ^ 46 := by decide
  split_ifs with hkern hlt
  · exact wp_return rfl
  · rw [BitVec.lt_def] at hlt
    omega
  · -- the pages up to 2^46 are already too many
    have hle : (pgRoundUp sz).toNat ≤ 2 ^ 46 := by omega
    have hcut : (2 ^ 46 : Addr).toNat = (pgRoundUp sz).toNat + 4096 * ((2 ^ 46 - (pgRoundUp sz).toNat) / 4096) := by omega
    rw [pageAddrs_append hcut (by omega)]
    refine allocuvmLoop_short _ _ h.inv ?_ (fun a ha => h.beyond (by omega) ha) (pairwise_beyond (by omega))
    have hbound := h.inv.free_bound
    rw [pageAddrs, List.length_map, List.length_range]
    omega

end Xv6.Vm
