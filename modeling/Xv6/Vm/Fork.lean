/-
The memory of a new process: `copyuvm` of `vm.c`, and the part of `fork` and `allocproc` that takes pages.

`fork` takes one page for the kernel stack, one for the PML4 and, for each page of [PGSIZE, sz), the page and the tables
it needs. The loop of `copyuvm` takes the data page before it walks the child's tables, and on the way out only `freevm`
is called: a data page that could not be mapped is in no page table and is not freed.

- `copyuvmLoop_spec`: where the free list may run out, and which pages are on it afterwards;
- `fork_leak_iff`: a failed `fork` gives back every page exactly when the free list ran out at a data page, so when its
  length was 2 plus the pages of a whole number of rounds.
-/
import Xv6.Vm.Space
import Xv6.Vm.UserHalf

namespace Xv6.Vm

open Xv6.Bytes Xv6.Wp Xv6.Radix Function

/-- PTE_FLAGS -/
def pteFlags (e : Addr) : Addr := e &&& 0xFFF

/-- `memmove` of a whole page -/
def Phys.copy (s : Phys) (dst src : Frame) : Phys := { s with mem := Function.update s.mem dst (s.mem src) }

/-- the loop of `copyuvm` over the page addresses still to be copied -/
def copyuvmLoop (kend : ℕ) (pgdir d : Frame) : List Addr → K (Option Frame)
  | [] => return some d
  | i :: is => do
    match ← walkpgdir pgdir i false with
    | none => throw (.panic .copyuvmExist)
    | some (pt, j) =>
      let pte := (← get).entry pt j
      if pte &&& PTE_P = 0 then throw (.panic .copyuvmPresent)
      else
        match ← kalloc with
        | none => freevm kend d; return none
        | some mem =>
          modify fun s => s.copy mem (pteFrame pte)
          if (← mappages d i PGSIZE mem (pteFlags pte)) < 0 then freevm kend d; return none
          else copyuvmLoop kend pgdir d is

/-- sz is a `uint` -/
def copyuvm (kend : ℕ) (kpdpt pgdir : Frame) (sz : BitVec 32) : K (Option Frame) := do
  let d ← setupkvm kpdpt
  copyuvmLoop kend pgdir d (pageAddrs PGSIZE (sz.setWidth 64))

/-- the kernel stack of a new process: room for the trap frame, the address of syscall_trapret, and a context of zeroes
that starts at forkret -/
def newStack (trapret forkret : Addr) (b : Store) : Store :=
  putLE (fun i => if 3856 ≤ i ∧ i < 3912 then 0 else putLE b 3912 8 trapret.toNat i) 3904 8 forkret.toNat

/-- the pages of `allocproc`; found: the process table has an UNUSED slot -/
def allocproc (trapret forkret : Addr) (found : Bool) : K (Option Frame) := do
  if found = false then return none
  else
    match ← kalloc with
    | none => return none
    | some kstack =>
      modify fun s => { s with mem := Function.update s.mem kstack (newStack trapret forkret (s.mem kstack)) }
      return some kstack

/-- the pages of `fork`: the child's kernel stack and page table, or `none`, after -1 has been returned -/
def fork (kend : ℕ) (kpdpt : Frame) (trapret forkret : Addr) (found : Bool) (pgdir : Frame) (sz : Addr) :
    K (Option (Frame × Frame)) := do
  match ← allocproc trapret forkret found with
  | none => return none
  | some kstack =>
    match ← copyuvm kend kpdpt pgdir (sz.setWidth 32) with
    | none => kfree kend kstack; return none
    | some d => return some (kstack, d)

variable {kend : ℕ} {kpdpt pgdir d : Frame} {hand : Frame → Prop} {s t : Phys} {a b sz : Addr}

/-! ## One round -/

/-- a page taken from the free list and written -/
theorem PageTable.take_with (h : PageTable kend d hand s) {g : Frame} {rest : List Frame} (hfree : s.free = g :: rest)
    (x : Store) :
    let t : Phys := { s with free := rest, mem := update s.mem g x }
    PageTable kend d (fun f => f = g ∨ hand f) t ∧ (∀ q, Starts UserSlot q → q.length ≤ 4 → t.at d q = s.at d q) ∧
      ∀ q j, Starts UserSlot q → q.length = 3 → t.pteAt d q j = s.pteAt d q j := by
  intro t
  have hown : ¬ s.Owns d g := h.free_apart g (by rw [hfree]; exact List.mem_cons_self)
  have hmem : ∀ f, s.Table d f → t.mem f = s.mem f := fun f hf =>
    update_of_ne (fun hc : f = g => hown (hc ▸ hf.owns)) _ _
  have hat : ∀ q, Starts UserSlot q → q.length ≤ 4 → t.at d q = s.at d q := fun q hq hl => Phys.at_congr hmem hq hl
  exact ⟨(h.take hfree).of_at rfl hat, hat, fun q j hq hl => Phys.pteAt_congr hmem j hq hl⟩

theorem PageTable.take_kept (h : PageTable kend d hand s) {g : Frame} {rest : List Frame} (hfree : s.free = g :: rest)
    (x : Store) : Kept d s { s with free := rest, mem := update s.mem g x } := by
  have hg : g ∈ s.free := by rw [hfree]; exact List.mem_cons_self
  have hat := (h.take_with hfree x).2.1
  refine ⟨fun p f hp hl hf => (hat p hp (by omega)).trans hf, fun p f hp hl hf => .inl ((hat p hp (by omega)).symm.trans hf),
    by rw [hfree]; exact List.suffix_cons g rest, fun f hf _ => ?_, fun i _ => ?_, Quiet.of_eq rfl⟩
  · exact update_of_ne (fun hc : f = g => hf (hc ▸ hg)) _ _
  · have hroot : d ≠ g := fun hc => h.free_apart g hg (hc ▸ s.owns_self d)
    simp only [Phys.entry, update_of_ne hroot]

theorem pteFlags_lt (e : Addr) : (pteFlags e ||| PTE_P).toNat < 4096 ∧ (pteFlags e ||| PTE_P).toNat % 2 = 1 := by
  rw [BitVec.toNat_or]
  refine ⟨Nat.or_lt_two_pow (n := 12) ?_ (by decide), ?_⟩
  · rw [pteFlags, BitVec.toNat_and]
    exact Nat.and_lt_two_pow _ (by decide)
  · rw [Nat.or_mod_two_eq_one]
    exact .inr rfl

/-- how the loop ends when the free list of s runs out, a whole number of pages or inside one -/
inductive RanOut (d : Frame) (a : Addr) (s t : Phys) : Prop where
  | data (m : ℕ) (hcount : s.free.length + imagePages a.toNat = imagePages (4096 * m))
      (hfree : ∀ f, f ∈ t.free ↔ s.Owns d f ∨ f ∈ s.free)
  | table (m : ℕ) (g : Frame) (hlow : imagePages (4096 * m) < s.free.length + imagePages a.toNat)
      (hhigh : s.free.length + imagePages a.toNat < imagePages (4096 * (m + 1))) (hg : g ∈ s.free)
      (hfree : ∀ f, f ∈ t.free ↔ (s.Owns d f ∨ f ∈ s.free) ∧ f ≠ g)

/-- with the same pages in hand, an account says where the others are -/
theorem owns_or_free (hs : PageTable kend d hand s) (ht : PageTable kend d hand t)
    (hacc : account d hand t = account d hand s) (f : Frame) : t.Owns d f ∨ f ∈ t.free ↔ s.Owns d f ∨ f ∈ s.free := by
  have hf : f ∈ t.free ∨ hand f ∨ t.Owns d f ↔ f ∈ s.free ∨ hand f ∨ s.Owns d f := by
    rw [← mem_account, ← mem_account, hacc]
  have h1 := hs.hand_apart f
  have h2 := ht.hand_apart f
  by_cases hh : hand f
  · simp [h1 hh, h2 hh]
  · simp only [hh, false_or] at hf
    rw [or_comm, hf, or_comm]

/-- the parent's tables are among the pages in hand, so they stay as they are -/
theorem parent_kept (hpar : ∀ f, s.Table pgdir f → hand f) (hmem : ∀ f, hand f → t.mem f = s.mem f) :
    (∀ f, t.Table pgdir f → hand f) ∧
      ∀ q j, Starts UserSlot q → q.length = 3 → t.pteAt pgdir q j = s.pteAt pgdir q j := by
  have htab : ∀ f, s.Table pgdir f → t.mem f = s.mem f := fun f hf => hmem f (hpar f hf)
  refine ⟨fun f hf => ?_, fun q j hq hl => Phys.pteAt_congr htab j hq hl⟩
  obtain ⟨q, hq, hl, hx⟩ := hf
  exact hpar f ⟨q, hq, hl, (Phys.at_congr htab hq (by omega)).symm.trans hx⟩

/-- what a round that copied page a, of entry e, leaves: the child has the page, and the parent and the others are as
before -/
structure Copied (kend : ℕ) (d : Frame) (hand : Frame → Prop) (a e : Addr) (s t : Phys) : Prop where
  inv : PageTable kend d hand t
  tight : Tight d (a + PGSIZE) t
  kept : Kept d s t
  page : ∃ g ∈ s.free, t.pteAt d (dir a) (ptx a) = some (mkPte g (pteFlags e ||| PTE_P)) ∧ t.mem g = s.mem (pteFrame e)
  pte : ∀ q j, Starts UserSlot q → q.length = 3 → ¬ (q = dir a ∧ j = ptx a) → t.pteAt d q j = s.pteAt d q j
  held : ∀ f, hand f → t.mem f = s.mem f
  owns : ∀ f, t.Owns d f ∨ f ∈ t.free ↔ s.Owns d f ∨ f ∈ s.free
  free : ∀ f ∈ t.free, f ∈ s.free
  count : t.free.length + imagePages (a.toNat + 4096) = s.free.length + imagePages a.toNat

/-- **One round of `copyuvm`**, from the page the parent has: the page is copied, or the free list runs out. -/
theorem wp_copyPage (h : PageTable kend d hand s) (htight : Tight d a s) (halign : a.toNat % 4096 = 0)
    (hle : 4096 ≤ a.toNat) (hlt : a.toNat < 2 ^ 47) (hnone : s.pteAt d (dir a) (ptx a) = none) {pte : Addr}
    {k : K (Option Frame)} {Q : Option Frame → Phys → Prop} {E : Fault → Phys → Prop}
    (hfail : ∀ t, RanOut d a s t → Q none t) (hok : ∀ t, Copied kend d hand a pte s t → wp k Q E t) :
    wp (do
        match ← kalloc with
        | none => freevm kend d; return none
        | some mem =>
          modify fun s => s.copy mem (pteFrame pte)
          if (← mappages d a PGSIZE mem (pteFlags pte)) < 0 then freevm kend d; return none
          else k) Q E s := by
  have hva : UserSlot (pmx a) := pmx_of_lt hlt
  have hpage : 4096 * (a.toNat / 4096) = a.toNat := by omega
  have hprice := htight.missing halign hle hlt
  rw [wp_bind]
  refine wp_kalloc (fun hnil => ?_) fun g rest hfree => ?_
  · rw [wp_bind]
    refine wp_safe (freevm_spec h) (fun _ t ht => wp_return (hfail t ?_))
    exact .data (a.toNat / 4096) (by rw [hpage, hnil, List.length_nil, Nat.zero_add]) ht.2.mem
  have hgfree : g ∈ s.free := by rw [hfree]; exact List.mem_cons_self
  have hlen : s.free.length = rest.length + 1 := by rw [hfree]; rfl
  have hng : ¬ hand g := fun hc => (h.hand_apart g hc).2 hgfree
  have hgrest : g ∉ rest := by
    have hnd := h.nodup
    rw [hfree, List.nodup_cons] at hnd
    exact hnd.1
  rw [wp_bind, wp_modify]
  -- the state once the page has been taken and filled
  set s2 := ({ s with free := rest } : Phys).copy g (pteFrame pte)
  obtain ⟨h2, hat2, hpte2⟩ := h.take_with hfree (s.mem (pteFrame pte))
  change PageTable kend d (fun f => f = g ∨ hand f) s2 at h2
  change ∀ q, _ → _ → s2.at d q = s.at d q at hat2
  change ∀ q j, _ → _ → s2.pteAt d q j = s.pteAt d q j at hpte2
  have howns2 : ∀ f, s2.Owns d f ↔ s.Owns d f := fun f => Phys.owns_congr hat2
  have hmiss : s2.missing d a = s.missing d a := missing_congr hva fun q hq hl => hat2 q hq (by omega)
  have hfresh := (hpte2 _ _ (starts_dir hva) rfl).trans hnone
  rw [wp_bind]
  refine wp_safe (mappages_spec h2 halign hva (.inl rfl) (pteFlags_lt pte) hfresh) ?_
  rintro r t ⟨⟨rfl, hgrown, hfew⟩ | ⟨rfl, hinv, hkept, hopen, hpte⟩, hacc⟩
  · -- no table for it: the page stays in hand
    simp only [Int.reduceNeg, Int.neg_eq_zero, one_ne_zero, false_implies, and_true] at hacc
    change rest.length < _ at hfew
    rw [if_pos (by decide), wp_bind]
    refine wp_safe (freevm_spec hgrown.inv) (fun _ u hu => wp_return (hfail u ?_))
    refine .table (a.toNat / 4096) g (by rw [hpage]; omega) (by rw [Nat.mul_add, hpage, Nat.mul_one]; omega) hgfree fun f => ?_
    rw [hu.2.mem f, owns_or_free h2 hgrown.inv hacc f, howns2 f, hfree, List.mem_cons]
    change s.Owns d f ∨ f ∈ rest ↔ _
    by_cases hfg : f = g
    · have hown := h.free_apart g hgfree
      simp [hfg, hown, hgrest]
    · simp [hfg]
  · simp only [true_implies] at hacc
    have hout : (fun f => (f = g ∨ hand f) ∧ f ≠ g) = hand := by
      funext f
      by_cases hf : f = g
      · simp [hf, hng]
      · simp [hf]
    rw [hout] at hinv hacc
    have hcount := hopen.count
    change t.free.length + Phys.missing s2 d a = rest.length at hcount
    have hspent : Spent d a s t := ⟨by omega, fun q hq hl => by rw [hopen.tables q hq hl, hat2 q hq (by omega)]⟩
    have hacc1 : account d hand t = account d hand s := by
      rw [hacc]
      ext f
      rw [mem_account, mem_account, howns2 f, hfree, List.mem_cons]
      change f ∈ rest ∨ _ ↔ _
      simp only [or_assoc, or_left_comm]
    have hkept2 : Kept d s s2 := h.take_kept hfree (s.mem (pteFrame pte))
    have hcopy : s2.mem g = s.mem (pteFrame pte) := update_self _ _ _
    rw [if_neg (by decide)]
    refine hok t ⟨hinv, htight.spend hspent halign hle (by omega), hkept2.trans hkept,
      ⟨g, hgfree, by rw [hpte _ _ (starts_dir hva) rfl, if_pos ⟨rfl, rfl⟩], ?_⟩, fun q j hq hl hne => ?_, fun f hf => ?_,
      owns_or_free h hinv hacc1, fun f hf => ?_, by omega⟩
    · rw [h2.held_of_kept hkept (.inl rfl), hcopy]
    · rw [hpte q j hq hl, if_neg hne, hpte2 q j hq hl]
    · rw [h2.held_of_kept hkept (.inr hf)]
      exact update_of_ne (fun hc : f = g => hng (hc ▸ hf)) _ _
    · rw [hfree]
      exact List.mem_cons_of_mem g (hkept.free.subset hf)

/-- a round that has been completed -/
theorem RanOut.before {u : Phys} (h : RanOut d (a + PGSIZE) t u) (hlt : a.toNat < 2 ^ 47)
    (hc : Copied kend d hand a pte s t) : RanOut d a s u := by
  have hcount := hc.count
  cases h with
  | data m hm hu =>
    rw [toNat_add_PGSIZE (by omega)] at hm
    exact .data m (by omega) fun f => (hu f).trans (hc.owns f)
  | table m g hlow hhigh hg hu =>
    rw [toNat_add_PGSIZE (by omega)] at hlow hhigh
    exact .table m g (by omega) (by omega) (hc.free g hg) fun f => (hu f).trans (and_congr_left' (hc.owns f))

/-- a lookup is only recorded -/
theorem Phys.looked_eq (s : Phys) (root : Frame) (a : Addr) : ∃ tr, s.looked root a = { s with trace := tr } := by
  rw [Phys.looked]
  split_ifs
  · exact ⟨_, rfl⟩
  · exact ⟨s.trace, rfl⟩

theorem RanOut.of_trace {tr : List Event} (h : RanOut d a { s with trace := tr } t) : RanOut d a s t := by
  cases h with
  | data m hm ht => exact .data m hm ht
  | table m g hlow hhigh hg ht => exact .table m g hlow hhigh hg ht

/-- the child has the pages of l as the parent has them, on new frames; nothing else has changed -/
structure Copies (kend : ℕ) (pgdir d : Frame) (hand : Frame → Prop) (l : List Addr) (s t : Phys) : Prop where
  inv : PageTable kend d hand t
  page : ∀ b ∈ l, ∃ e, s.pteAt pgdir (dir b) (ptx b) = some e ∧ ∃ g ∈ s.free,
    t.pteAt d (dir b) (ptx b) = some (mkPte g (pteFlags e ||| PTE_P)) ∧ (hand (pteFrame e) → t.mem g = s.mem (pteFrame e))
  pte : ∀ q j, Starts UserSlot q → q.length = 3 → (∀ b ∈ l, ¬ (q = dir b ∧ j = ptx b)) → t.pteAt d q j = s.pteAt d q j
  mem : ∀ f, f ∉ s.free → ¬ s.Table d f → t.mem f = s.mem f

theorem Copies.nil (h : PageTable kend d hand s) : Copies kend pgdir d hand [] s s :=
  ⟨h, fun _ hb => (by cases hb), fun _ _ _ _ _ => rfl, fun _ _ _ => rfl⟩

theorem Copies.of_trace {tr : List Event} {l : List Addr} (h : Copies kend pgdir d hand l { s with trace := tr } t) :
    Copies kend pgdir d hand l s t := ⟨h.inv, h.page, h.pte, h.mem⟩

/-- a round, and then the others -/
theorem Copies.cons {u : Phys} {e : Addr} {l : List Addr} (h1 : Copied kend d hand b e s t) (h2 : Copies kend pgdir d hand l t u)
    (hb : UserSlot (pmx b)) (he : s.pteAt pgdir (dir b) (ptx b) = some e)
    (hl : ∀ c ∈ l, UserSlot (pmx c) ∧ ¬ (dir c = dir b ∧ ptx c = ptx b))
    (hsame : ∀ q j, Starts UserSlot q → q.length = 3 → t.pteAt pgdir q j = s.pteAt pgdir q j) :
    Copies kend pgdir d hand (b :: l) s u := by
  obtain ⟨g, hg, hpte, hmem⟩ := h1.page
  refine ⟨h2.inv, fun c hc => ?_, fun q j hq hlen hout => ?_, fun f hf htab => ?_⟩
  · obtain rfl | hc := List.mem_cons.1 hc
    · -- the page just copied is the child's, so the other rounds leave it alone
      have hchild : pteFrame (mkPte g (pteFlags e ||| PTE_P)) = g := pteFrame_mkPte g (pteFlags_lt e).1
      have hpage := h1.inv.page_apart (starts_path hb) rfl hpte
      rw [hchild] at hpage
      refine ⟨e, he, g, hg, ?_, fun _ => ?_⟩
      · rw [h2.pte _ _ (starts_dir hb) rfl fun c hc hcb => (hl c hc).2 ⟨hcb.1.symm, hcb.2.symm⟩]
        exact hpte
      · rw [h2.mem g hpage.1 hpage.2, hmem]
    · obtain ⟨e', he', g', hg', hpte', hmem'⟩ := h2.page c hc
      rw [hsame _ _ (starts_dir (hl c hc).1) rfl] at he'
      refine ⟨e', he', g', h1.free g' hg', hpte', fun hh => ?_⟩
      rw [hmem' hh, h1.held _ hh]
  · rw [h2.pte q j hq hlen fun c hc => hout c (List.mem_cons_of_mem b hc), h1.pte q j hq hlen (hout b List.mem_cons_self)]
  · rw [h2.mem f (fun hc => hf (h1.free f hc)) ?_, h1.kept.mem f hf htab]
    rintro ⟨p, hp, hlen, hp'⟩
    obtain hx | hx := h1.kept.at_new p f hp hlen hp'
    · exact htab ⟨p, hp, hlen, hx⟩
    · exact hf hx

/-- **The loop of `copyuvm`.** It panics only over a page the parent does not have; when memory runs out, the free list
gets back what the child had, except a data page that could not be mapped. -/
theorem copyuvmLoop_spec (l : List Addr) (hl : l = pageAddrs a sz) (hsz : sz.toNat ≤ 2 ^ 47) (halign : a.toNat % 4096 = 0)
    (hle : 4096 ≤ a.toNat) (h : PageTable kend d hand s) (htight : Tight d a s)
    (habs : ∀ b ∈ l, s.pteAt d (dir b) (ptx b) = none) (hpar : ∀ f, s.Table pgdir f → hand f) :
    wp (copyuvmLoop kend pgdir d l)
      (fun r t => (r = none → RanOut d a s t) ∧ ∀ d', r = some d' → d' = d ∧ Copies kend pgdir d hand l s t)
      (fun e _ => e ≠ .pageFault 0 ∧ ∃ b ∈ l, s.pteAt pgdir (dir b) (ptx b) = none) s := by
  induction l generalizing a s with
  | nil => exact wp_return ⟨by simp, fun d' hd => ⟨(Option.some.inj hd).symm, Copies.nil h⟩⟩
  | cons b l ih =>
    have hlt : a.toNat < sz.toNat := by
      by_contra hc
      rw [pageAddrs_nil (by omega)] at hl
      cases hl
    have hcons := pageAddrs_succ hlt (by omega)
    rw [hcons] at hl
    obtain ⟨rfl, hl⟩ := List.cons.inj hl
    have huser : ∀ c ∈ l, c.toNat < 2 ^ 47 ∧ ¬ (dir c = dir b ∧ ptx c = ptx b) := by
      intro c hc
      rw [hl, mem_pageAddrs, toNat_add_PGSIZE (by omega)] at hc
      obtain ⟨k, hk, hlt⟩ := hc
      refine ⟨by omega, fun hsame => ?_⟩
      have hpath := path_inj (a := c) (b := b) (by rw [path, path, hsame.1, hsame.2])
      omega
    rw [copyuvmLoop, wp_bind, wp_walkpgdir_false]
    change wp _ _ _ (s.looked pgdir b)
    cases hpt : follow child s.entry pgdir (dir b) with
    | none => exact (wp_throw _ _).2 ⟨by simp, b, List.mem_cons_self, Phys.pteAt_eq_none hpt⟩
    | some pt =>
      simp only [Option.map_some, wp_bind (x := get), wp_get, Phys.entry_looked]
      by_cases hpres : s.entry pt (ptx b) &&& PTE_P = 0
      · rw [if_pos hpres]
        refine (wp_throw _ _).2 ⟨by simp, b, List.mem_cons_self, ?_⟩
        rw [Phys.pteAt_eq_filter hpt, Option.filter_some, hpres]
        rfl
      rw [if_neg hpres]
      obtain ⟨tr, htr⟩ := s.looked_eq pgdir b
      rw [htr]
      refine wp_copyPage (s := { s with trace := tr })
        (Q := fun r t => (r = none → RanOut d b s t) ∧ ∀ d', r = some d' → d' = d ∧ Copies kend pgdir d hand (b :: l) s t)
        (h.of_at rfl fun _ _ _ => rfl) htight halign hle (by omega) (habs b List.mem_cons_self)
        (fun t ht => ⟨fun _ => ht.of_trace, by simp⟩) fun t ht => ?_
      obtain ⟨hpar', hsame⟩ := parent_kept hpar ht.held
      have hnext := toNat_add_PGSIZE (a := b) (by omega)
      have he : s.pteAt pgdir (dir b) (ptx b) = some (s.entry pt (ptx b)) := by
        rw [Phys.pteAt_eq_filter hpt, Option.filter_some, if_pos (by simpa using hpres)]
      have habs' : ∀ c ∈ l, t.pteAt d (dir c) (ptx c) = none := fun c hc => by
        rw [ht.pte _ _ (starts_dir (pmx_of_lt (huser c hc).1)) rfl (huser c hc).2]
        exact habs c (List.mem_cons_of_mem b hc)
      refine wp_mono (ih hl (by omega) (by omega) ht.inv ht.tight habs' hpar') ?_ fun e u he => ⟨he.1, ?_⟩
      · refine fun r u hu => ⟨fun hr => ((hu.1 hr).before (by omega) ht).of_trace, fun d' hd => ⟨(hu.2 d' hd).1, ?_⟩⟩
        exact (Copies.cons (s := { s with trace := tr }) ht (hu.2 d' hd).2 (pmx_of_lt (by omega)) he
          (fun c hc => ⟨pmx_of_lt (huser c hc).1, (huser c hc).2⟩) hsame).of_trace
      · obtain ⟨c, hc, hnone⟩ := he.2
        refine ⟨c, List.mem_cons_of_mem b hc, ?_⟩
        rw [← hsame _ _ (starts_dir (pmx_of_lt (huser c hc).1)) rfl]
        exact hnone

/-! ## `fork` -/

/-- k pages had been taken when the loop ran out of pages, and all have been given back, or all but the one it had just
taken -/
inductive Short (k : ℕ) (s t : Phys) : Prop where
  | data (m : ℕ) (hcount : s.free.length = k + imagePages (4096 * m)) (hfree : ∀ f, f ∈ t.free ↔ f ∈ s.free)
  | table (m : ℕ) (g : Frame) (hlow : k + imagePages (4096 * m) < s.free.length)
      (hhigh : s.free.length < k + imagePages (4096 * (m + 1))) (hg : g ∈ s.free)
      (hfree : ∀ f, f ∈ t.free ↔ f ∈ s.free ∧ f ≠ g)

/-- d is an address space with the pages of the parent at l, on frames that were free, and no others -/
structure Duplicate (kend : ℕ) (pgdir d : Frame) (hand : Frame → Prop) (l : List Addr) (s t : Phys) : Prop where
  inv : PageTable kend d hand t
  page : ∀ b ∈ l, ∃ e, s.pteAt pgdir (dir b) (ptx b) = some e ∧ ∃ g ∈ s.free,
    t.pteAt d (dir b) (ptx b) = some (mkPte g (pteFlags e ||| PTE_P)) ∧ (hand (pteFrame e) → t.mem g = s.mem (pteFrame e))
  absent : ∀ q j, Starts UserSlot q → q.length = 3 → (∀ b ∈ l, ¬ (q = dir b ∧ j = ptx b)) → t.pteAt d q j = none
  held : ∀ f, hand f → t.mem f = s.mem f

/-- **`copyuvm`** of a parent whose tables are in hand. -/
theorem copyuvm_spec (halloc : Allocator kend hand s) (hpar : ∀ f, s.Table pgdir f → hand f) (sz : BitVec 32) :
    wp (copyuvm kend kpdpt pgdir sz)
      (fun r t => (r = none → Short 1 s t) ∧
        ∀ d, r = some d → Duplicate kend pgdir d hand (pageAddrs PGSIZE (sz.setWidth 64)) s t)
      (fun e _ => (e = .pageFault 0 ∧ s.free = []) ∨
        e ≠ .pageFault 0 ∧ ∃ b ∈ pageAddrs PGSIZE (sz.setWidth 64), s.pteAt pgdir (dir b) (ptx b) = none) s := by
  have hsz : (sz.setWidth 64).toNat ≤ 2 ^ 47 := by
    rw [BitVec.toNat_setWidth]
    have := sz.isLt
    omega
  have huser : ∀ b ∈ pageAddrs PGSIZE (sz.setWidth 64), b.toNat < 2 ^ 47 := fun b hb => by
    obtain ⟨k, -, hlt⟩ := mem_pageAddrs.1 hb
    omega
  rw [copyuvm, wp_bind]
  refine wp_mono (wp_and (Space.new halloc kpdpt) (wp_and (setupkvm_spec halloc kpdpt) (setupkvm_mem kpdpt s))) ?_
    (fun e t he => .inl ⟨he.1.1, he.1.2.2⟩)
  intro d s2 ⟨⟨hspace, hfree, _⟩, ⟨_, _, _, _, hnone, hat⟩, hmem⟩
  have hd : d ∈ s.free := by rw [hfree]; exact List.mem_cons_self
  have hheld : ∀ f, hand f → s2.mem f = s.mem f := fun f hf => hmem f fun hc => halloc.apart f hf (hc ▸ hd)
  obtain ⟨hpar2, hsame⟩ := parent_kept hpar hheld
  have hlen : s.free.length = s2.free.length + 1 := by rw [hfree]; rfl
  have hall : ∀ f, s2.Owns d f ∨ f ∈ s2.free ↔ f ∈ s.free := fun f => by rw [Phys.owns_bare hat, hfree, List.mem_cons]
  refine wp_mono (copyuvmLoop_spec _ rfl hsz (by decide) (by decide) hspace.inv hspace.tight
    (fun b hb => hnone _ _ (starts_dir (pmx_of_lt (huser b hb))) rfl) hpar2) ?_ ?_
  · refine fun r t ht => ⟨fun hr => ?_, fun d' hr => ?_⟩
    swap
    · obtain ⟨rfl, hc⟩ := ht.2 d' hr
      refine ⟨hc.inv, fun b hb => ?_, fun q j hq hl hout => ?_, fun f hf => ?_⟩
      · obtain ⟨e, he, g, hg, hpte, hcopy⟩ := hc.page b hb
        rw [hsame _ _ (starts_dir (pmx_of_lt (huser b hb))) rfl] at he
        exact ⟨e, he, g, by rw [hfree]; exact List.mem_cons_of_mem d' hg, hpte, fun hh => by rw [hcopy hh, hheld _ hh]⟩
      · rw [hc.pte q j hq hl hout, hnone q j hq hl]
      · obtain ⟨hown, hnf⟩ := hspace.inv.hand_apart f hf
        rw [hc.mem f hnf fun htab => hown htab.owns, hheld f hf]
    cases ht.1 hr with
    | data m hm hu =>
      change s2.free.length + 0 = _ at hm
      exact .data m (by omega) fun f => (hu f).trans (hall f)
    | table m g hlow hhigh hg hu =>
      change _ < s2.free.length + 0 at hlow
      change s2.free.length + 0 < _ at hhigh
      refine .table m g (by omega) (by omega) ?_ fun f => (hu f).trans (and_congr_left' (hall f))
      rw [hfree]
      exact List.mem_cons_of_mem d hg
  · intro e t ⟨hne, b, hb, hb'⟩
    refine .inr ⟨hne, b, hb, ?_⟩
    rw [← hsame _ _ (starts_dir (pmx_of_lt (huser b hb))) rfl]
    exact hb'

variable {trapret forkret : Addr} {found : Bool}

/-- **`fork`** writes through a null pointer only when it finds one free page, and panics only over a page the parent
does not have. -/
theorem fork_spec (h : PageTable kend pgdir hand s) (sz : Addr) :
    wp (fork kend kpdpt trapret forkret found pgdir sz)
      (fun r t => r = none → (found = false ∨ s.free = []) ∧ t.free = s.free ∨ Short 2 s t)
      (fun e _ => (e = .pageFault 0 ∧ found = true ∧ s.free.length = 1) ∨ e ≠ .pageFault 0 ∧
        ∃ b ∈ pageAddrs PGSIZE ((sz.setWidth 32).setWidth 64), s.pteAt pgdir (dir b) (ptx b) = none) s := by
  rw [fork, wp_bind, allocproc]
  cases found with
  | false => exact wp_return (wp_return fun _ => .inl ⟨.inl rfl, rfl⟩)
  | true =>
    rw [if_neg (by decide), wp_bind]
    refine wp_kalloc (fun hnil => wp_return (wp_return fun _ => .inl ⟨.inr hnil, rfl⟩)) fun kstack rest hfree => ?_
    rw [wp_bind, wp_modify, wp_pure, wp_bind]
    have hk : kstack ∈ s.free := by rw [hfree]; exact List.mem_cons_self
    have hrest : ∀ f ∈ rest, f ∈ s.free := fun f hf => by rw [hfree]; exact List.mem_cons_of_mem kstack hf
    have hnd := h.nodup
    rw [hfree, List.nodup_cons] at hnd
    have hlen : s.free.length = rest.length + 1 := by rw [hfree]; rfl
    set s1 : Phys := { s with free := rest, mem := update s.mem kstack (newStack trapret forkret (s.mem kstack)) }
    have halloc : Allocator kend (fun f => f = kstack ∨ s.Owns pgdir f) s1 := by
      refine ⟨hnd.2, ?_, ?_⟩
      · rintro f (rfl | hf) hm
        · exact hnd.1 hm
        · exact h.free_apart f (hrest f hm) hf
      · rintro f (hf | rfl | hf)
        · exact h.usable f (.inl (hrest f hf))
        · exact h.usable f (.inl hk)
        · exact h.usable f (.inr (.inr hf))
    have hkept : ∀ f, s.Owns pgdir f → s1.mem f = s.mem f := fun f hf =>
      update_of_ne (fun hc : f = kstack => h.free_apart kstack hk (hc ▸ hf)) _ _
    obtain ⟨hpar, hsame⟩ := parent_kept (fun f hf => hf.owns) hkept
    refine wp_mono (copyuvm_spec halloc (fun f hf => .inr (hpar f hf)) (sz.setWidth 32)) ?_ ?_
    · rintro (_ | d) t ht
      swap
      · exact wp_return nofun
      rw [wp_bind]
      refine wp_kfree (h.usable kstack (.inl hk)) (wp_return fun _ => .inr ?_)
      -- the stack page goes back on top of what is left of the free list
      have hback : ∀ f, f ∈ (t.release kstack).free ↔ f = kstack ∨ f ∈ t.free := fun f => List.mem_cons
      cases ht.1 rfl with
      | data m hm hu =>
        change rest.length = _ at hm
        refine .data m (by omega) fun f => ?_
        rw [hback, hu, hfree, List.mem_cons]
      | table m g hlow hhigh hg hu =>
        change _ < rest.length at hlow
        change rest.length < _ at hhigh
        refine .table m g (by omega) (by omega) (hrest g hg) fun f => ?_
        rw [hback, hu, hfree, List.mem_cons, or_and_right]
        refine or_congr_left ⟨fun hf => ⟨hf, fun hc => hnd.1 ?_⟩, And.left⟩
        rw [← hf, hc]
        exact hg
    · rintro e t (⟨rfl, hnil⟩ | ⟨hne, b, hb, hb'⟩)
      · change rest = [] at hnil
        exact .inl ⟨rfl, rfl, by rw [hlen, hnil]; rfl⟩
      · have hlt : b.toNat < 2 ^ 47 := by
          obtain ⟨k, -, hlt⟩ := mem_pageAddrs.1 hb
          have := (sz.setWidth 32).isLt
          rw [BitVec.toNat_setWidth] at hlt
          omega
        refine .inr ⟨hne, b, hb, ?_⟩
        rw [← hsame _ _ (starts_dir (pmx_of_lt hlt)) rfl]
        exact hb'

theorem Short.leak_iff {k : ℕ} (h : Short k s t) :
    (∀ f, f ∈ t.free ↔ f ∈ s.free) ↔ ∃ m, s.free.length = k + imagePages (4096 * m) := by
  cases h with
  | data m hm hu => exact ⟨fun _ => ⟨m, hm⟩, fun _ => hu⟩
  | table m g hlow hhigh hg hu =>
    constructor
    · intro hall
      exact absurd rfl ((hu g).1 ((hall g).2 hg)).2
    · intro ⟨m', hm'⟩
      -- between the prices of m and m + 1 rounds there is no price
      exfalso
      rcases Nat.lt_or_ge m m' with hlt | hge
      · have := imagePages_mono (show 4096 * (m + 1) ≤ 4096 * m' by omega)
        omega
      · have := imagePages_mono (show 4096 * m' ≤ 4096 * m by omega)
        omega

/-- **A failed `fork`** leaks nothing exactly when the free list ran out at a data page. -/
theorem fork_leak_iff (h : PageTable kend pgdir hand s) (hfree : 2 ≤ s.free.length)
    (hrun : fork kend kpdpt trapret forkret true pgdir sz s = .ok none t) :
    (∀ f, f ∈ t.free ↔ f ∈ s.free) ↔ ∃ m, s.free.length = 2 + imagePages (4096 * m) := by
  rcases wp_ok (fork_spec h sz) hrun rfl with ⟨hearly, -⟩ | hshort
  · rcases hearly with hc | hc
    · cases hc
    · rw [hc] at hfree
      exact absurd hfree (by decide)
  · exact hshort.leak_iff

/-- a parent with the pages of [PGSIZE, sz), taken from a free list -/
def parentSpace (sz : Addr) (free : List Frame) : Phys := final (allocuvm 0x100000 0x200 0x1000 sz (bareSpace free))

/-- a parent with one page, and the given free pages -/
def onePage (free : List Frame) : Phys := parentSpace 0x2000 (0x202 :: 0x203 :: 0x204 :: 0x205 :: free)

theorem parentSpace_ok {sz : Addr} {free : List Frame} (hlow : 0x1000 ≤ sz) (hhigh : sz.toNat ≤ 2 ^ 47)
    (hnd : (0x200 :: 0x201 :: free : List Frame).Nodup)
    (hus : ∀ f ∈ (0x200 :: 0x201 :: free : List Frame), Usable 0x100000 f) :
    PageTable 0x100000 0x200 (· = 0x201) (parentSpace sz free) := by
  obtain ⟨h, -, hnone⟩ := bareSpace_ok hnd hus
  have hspec := allocuvm_spec (by decide) h hlow hhigh fun a ha =>
    hnone _ _ (starts_dir (pmx_of_lt (by
      obtain ⟨k, -, hlt⟩ := mem_pageAddrs.1 ha
      exact hlt.trans_le hhigh))) rfl
  refine ((wp_returns _).1 (wp_mono hspec ?_ fun _ _ he => he)).2
  rintro r t (⟨-, ht⟩ | ⟨-, ht⟩)
  · exact ht.inv
  · exact ht.inv

theorem onePage_ok {free : List Frame}
    (hnd : (0x200 :: 0x201 :: 0x202 :: 0x203 :: 0x204 :: 0x205 :: free : List Frame).Nodup)
    (hus : ∀ f ∈ (0x200 :: 0x201 :: 0x202 :: 0x203 :: 0x204 :: 0x205 :: free : List Frame), Usable 0x100000 f) :
    PageTable 0x100000 0x200 (· = 0x201) (onePage free) := parentSpace_ok (by decide) (by decide) hnd hus

/-- With two free pages the data page is the one that cannot be had, and both come back. -/
theorem fork_leak_iff_two_pages : ∃ t, fork 0x100000 0x201 0 0 true 0x200 0x2000 (onePage [0x206, 0x207]) = .ok none t ∧
    ∀ f, f ∈ t.free ↔ f ∈ (onePage [0x206, 0x207]).free := by
  have hrun : (match fork 0x100000 0x201 0 0 true 0x200 0x2000 (onePage [0x206, 0x207]) with
      | .ok none _ => true
      | _ => false) = true := by decide +kernel
  have h := @onePage_ok [0x206, 0x207] (by decide) (by simp [Usable, Frame.addr, PHYSTOP])
  split at hrun
  next t ht => exact ⟨t, ht, (fork_leak_iff h (by decide +kernel) ht).2 ⟨0, by decide +kernel⟩⟩
  next => cases hrun

/-- With three free pages the kernel stack, the PML4 and the data page are taken, the walk finds no page for the first
table, and the data page is lost. -/
theorem fork_loses_data_page : PageTable 0x100000 0x200 (· = 0x201) (onePage [0x206, 0x207, 0x208]) ∧
    (onePage [0x206, 0x207, 0x208]).free = [0x206, 0x207, 0x208] ∧
    ∃ t, fork 0x100000 0x201 0 0 true 0x200 0x2000 (onePage [0x206, 0x207, 0x208]) = .ok none t ∧
      t.free = [0x206, 0x207] := by
  have hrun : (match fork 0x100000 0x201 0 0 true 0x200 0x2000 (onePage [0x206, 0x207, 0x208]) with
      | .ok none t => some t.free
      | _ => none) = some [0x206, 0x207] := by decide +kernel
  refine ⟨onePage_ok (by decide) (by simp [Usable, Frame.addr, PHYSTOP]), by decide +kernel, ?_⟩
  split at hrun
  next t ht => exact ⟨t, ht, Option.some.inj hrun⟩
  next => cases hrun

end Xv6.Vm
