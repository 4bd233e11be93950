/-
The life of an address space, from `setupkvm` to `freevm`.

An `Op` is a call of `mappages` for one page, `allocuvm`, `deallocuvm` or `clearpteu`, or a `kalloc` or `kfree` by
somebody else: the free list is the kernel's, so between two calls it may run empty or be filled again, and `kalloc` may
fail at any call. `Life` is the memory with two accounts beside it, both kept from what the free list loses and gains:
`held`, the pages taken by others, and `mine`, the pages taken for this address space and not given back.

- `lookup` is what `walkpgdir` finds without allocating; `Op.Effect` says which of its values a call changes.
- `page_tables_free_completely`: in every run no call panics, each changes exactly the pages it names, every page of the
  address space but its root is referred to by exactly one entry below the slots 0..255, slot 256 stays as `setupkvm`
  made it, and `freevm` puts exactly the pages in `mine` on the free list, each once.
-/
import Xv6.Core.Machine
import Xv6.Vm.Space
import Xv6.Vm.UserHalf

namespace Xv6.Vm

open Xv6.Bytes Xv6.Wp Xv6.Radix

/-! ## Lookups -/

/-- the present PTE that `walkpgdir` finds for va -/
def lookup (s : Phys) (root : Frame) (va : Addr) : Option Addr :=
  match walkpgdir root va false s with
  | .ok (some (pt, i)) t => (some (t.entry pt i)).filter fun e => e &&& PTE_P ≠ 0
  | _ => none

/-- the page addresses from sz up to newsz, as `allocuvm` and `deallocuvm` go through them -/
def range (sz newsz : Addr) : List Addr := if sz ≤ newsz then pageAddrs (pgRoundUp sz) newsz else []

variable {kend : ℕ} {root kpdpt : Frame} {hand hand' : Frame → Prop} {s t : Phys} {a b : Addr}

theorem lookup_eq (s : Phys) (root : Frame) (va : Addr) : lookup s root va = s.pteAt root (dir va) (ptx va) := by
  have hwalk : wp (walkpgdir root va false)
      (fun r t => r = (s.at root (dir va)).map (fun pt => (pt, ptx va)) ∧ t = s.looked root va) (fun _ _ => False) s :=
    wp_walkpgdir_false.2 ⟨rfl, rfl⟩
  obtain ⟨r, t, hrun, rfl, rfl⟩ := wp_exists.1 hwalk
  rw [lookup, hrun]
  cases hpt : s.at root (dir va) with
  | none => rw [Phys.pteAt_eq_none hpt]; rfl
  | some pt =>
    rw [Phys.pteAt_eq_filter hpt]
    simp only [Option.map_some, Phys.entry_looked]

theorem dir_pgRoundDown (a : Addr) : dir (pgRoundDown a) = dir a ∧ ptx (pgRoundDown a) = ptx a := by
  have hdown := pgRoundDown_toNat a
  have hpm : pmx (pgRoundDown a) = pmx a := BitVec.eq_of_toNat_eq (by rw [toNat_pmx, toNat_pmx, hdown]; omega)
  have hpdp : pdpx (pgRoundDown a) = pdpx a := BitVec.eq_of_toNat_eq (by rw [toNat_pdpx, toNat_pdpx, hdown]; omega)
  have hpd : pdx (pgRoundDown a) = pdx a := BitVec.eq_of_toNat_eq (by rw [toNat_pdx, toNat_pdx, hdown]; omega)
  have hpt : ptx (pgRoundDown a) = ptx a := BitVec.eq_of_toNat_eq (by rw [toNat_ptx, toNat_ptx, hdown]; omega)
  exact ⟨by rw [dir, dir, hpm, hpdp, hpd], hpt⟩

/-- user addresses share a PTE when they are in one page -/
theorem same_page (ha : a.toNat < 2 ^ 47) (hb : b.toNat < 2 ^ 47) :
    (dir a = dir b ∧ ptx a = ptx b) ↔ pgRoundDown a = pgRoundDown b := by
  constructor
  · intro ⟨hdir, hptx⟩
    have hpage := path_inj (a := a) (b := b) (by rw [path, path, hdir, hptx])
    exact BitVec.eq_of_toNat_eq (by rw [pgRoundDown_toNat, pgRoundDown_toNat]; omega)
  · intro h
    rw [← (dir_pgRoundDown a).1, ← (dir_pgRoundDown a).2, h]
    exact dir_pgRoundDown b

theorem lookup_pgRoundDown (s : Phys) (root : Frame) (a : Addr) : lookup s root (pgRoundDown a) = lookup s root a := by
  rw [lookup_eq, lookup_eq, (dir_pgRoundDown a).1, (dir_pgRoundDown a).2]

/-- a call that stays within one page is a call for that page -/
theorem mappages_one {va size : Addr} (h : pgRoundDown va = pgRoundDown (va + size - 1)) (pgdir pa : Frame) (perm : Addr) :
    mappages pgdir va size pa perm = mappages pgdir (pgRoundDown va) PGSIZE pa perm := by
  have halign : (pgRoundDown va).toNat % 4096 = 0 := by rw [pgRoundDown_toNat]; omega
  rw [mappages_page halign, mappages, ← h, BitVec.sub_self]
  rfl

/-! ## Runs -/

inductive Op where
  | kalloc
  | kfree (f : Frame)
  | mappages (va size : Addr) (g : Frame) (perm : Addr)
  | allocuvm (oldsz newsz : Addr)
  | deallocuvm (oldsz newsz : Addr)
  | clearpteu (va : Addr)

/-- the call, and whether it succeeded -/
def Op.run (kend : ℕ) (root : Frame) : Op → K Bool
  | .kalloc => do return (← Vm.kalloc).isSome
  | .kfree f => do
    Vm.kfree kend f
    return true
  | .mappages va size g perm => do return (← Vm.mappages root va size g perm) = 0
  | .allocuvm oldsz newsz => do return (← Vm.allocuvm kend root oldsz newsz) ≠ 0
  | .deallocuvm oldsz newsz => do
    let _ ← Vm.deallocuvm kend root oldsz newsz
    return true
  | .clearpteu va => do
    Vm.clearpteu root va
    return true

structure Life where
  phys : Phys
  held : Finset Frame
  mine : Finset Frame

/-- the pages of x with those that have left the free list, without those that are on it -/
def settle (x : Finset Frame) (s t : Phys) : Finset Frame := (x ∪ s.free.toFinset) \ t.free.toFinset

/-- the accounts after a call that led to memory t -/
def Life.after (s : Life) (t : Phys) (ok : Bool) : Op → Life
  | .kalloc | .kfree _ => ⟨t, settle s.held s.phys t, s.mine⟩
  | .mappages _ _ g _ =>
    if ok then ⟨t, s.held.erase g, settle (insert g s.mine) s.phys t⟩ else ⟨t, s.held, settle s.mine s.phys t⟩
  | .allocuvm _ _ | .deallocuvm _ _ | .clearpteu _ => ⟨t, s.held, settle s.mine s.phys t⟩

/-- none: the call panics -/
def Life.step (kend : ℕ) (root : Frame) (s : Life) (op : Op) : Option Life :=
  match op.run kend root s.phys with
  | .ok ok t => some (s.after t ok op)
  | .error _ _ => none

/-- the calls of a caller that keeps to the contract: a page not yet present mapped to a page of its own, a range with
no present page, a page that is mapped, and user addresses only -/
def Op.Ok (root : Frame) (s : Life) : Op → Prop
  | .kalloc => True
  | .kfree f => f ∈ s.held
  | .mappages va size g perm => g ∈ s.held ∧ va.toNat < 2 ^ 47 ∧ pgRoundDown va = pgRoundDown (va + size - 1) ∧
      perm.toNat < 4096 ∧ lookup s.phys root va = none
  | .allocuvm oldsz newsz => newsz.toNat ≤ 2 ^ 47 ∧ ∀ a ∈ range oldsz newsz, lookup s.phys root a = none
  | .deallocuvm oldsz _ => oldsz.toNat ≤ 2 ^ 47
  | .clearpteu va => va.toNat < 2 ^ 47 ∧ (lookup s.phys root va).isSome

instance (root : Frame) (s : Life) : (op : Op) → Decidable (op.Ok root s)
  | .kalloc => inferInstanceAs (Decidable True)
  | .kfree f => inferInstanceAs (Decidable (f ∈ s.held))
  | .mappages _ _ _ _ => inferInstanceAs (Decidable (_ ∧ _ ∧ _ ∧ _ ∧ _))
  | .allocuvm _ _ => @instDecidableAnd _ _ inferInstance (List.decidableBAll _ _)
  | .deallocuvm _ _ => inferInstanceAs (Decidable (_ ≤ _))
  | .clearpteu _ => inferInstanceAs (Decidable (_ ∧ _))

/-- after `setupkvm` in a kernel whose other pages are in `held` -/
def Life.Init (kend : ℕ) (kpdpt root : Frame) (s : Life) : Prop :=
  ∃ s₀, Allocator kend (· ∈ s.held) s₀ ∧ kpdpt ∉ s₀.free ∧ kpdpt ∉ s.held ∧ setupkvm kpdpt s₀ = .ok root s.phys ∧
    s.mine = {root}

def Life.machine (kend : ℕ) (kpdpt root : Frame) : Machine Life Op :=
  (Machine.ofStep (Life.Init kend kpdpt root) (Life.step kend root)).restrict fun s op => op.Ok root s

/-- what a call changes of the map: the PTEs of the pages it names -/
def Op.Effect (root : Frame) (s t : Phys) (ok : Bool) : Op → Prop
  | .kalloc | .kfree _ => ∀ a, a.toNat < 2 ^ 47 → lookup t root a = lookup s root a
  | .mappages va _ g perm => ∀ a, a.toNat < 2 ^ 47 → lookup t root a =
      if ok = true ∧ pgRoundDown a = pgRoundDown va then some (mkPte g (perm ||| PTE_P)) else lookup s root a
  | .allocuvm oldsz newsz => ∀ a, a.toNat < 2 ^ 47 →
      if ok = true ∧ pgRoundDown a ∈ range oldsz newsz then
        ∃ g ∈ s.free, lookup t root a = some (mkPte g userFlags) ∧ t.mem g = fun _ => 0
      else lookup t root a = lookup s root a
  | .deallocuvm oldsz newsz => ∀ a, a.toNat < 2 ^ 47 → lookup t root a =
      if pgRoundDown a ∈ range newsz oldsz then none else lookup s root a
  | .clearpteu va => ∀ a, a.toNat < 2 ^ 47 → lookup t root a =
      if pgRoundDown a = pgRoundDown va then (lookup s root a).map (· &&& ~~~PTE_U) else lookup s root a

/-! ## The invariant -/

structure Life.Inv (kend : ℕ) (kpdpt root : Frame) (s : Life) : Prop where
  table : PageTable kend root (· ∈ s.held) s.phys
  kernel : KernelSlot root s.phys
  slot : s.phys.entry root 256 = mkPte kpdpt (PTE_P ||| PTE_W)
  mine : ∀ f, f ∈ s.mine ↔ s.phys.Owns root f
  apart : kpdpt ∉ account root (· ∈ s.held) s.phys

section

variable {l : Life}

/-- the account of an address space after a call that loses no page -/
theorem settle_owns {x : Finset Frame} (hs : PageTable kend root hand s) (ht : PageTable kend root hand' t)
    (hacc : account root hand' t = account root hand s) (hsub : ∀ f, hand' f → hand f)
    (hx : ∀ f, f ∈ x ↔ s.Owns root f ∨ hand f ∧ ¬ hand' f) (f : Frame) : f ∈ settle x s t ↔ t.Owns root f := by
  have hf : f ∈ t.free ∨ hand' f ∨ t.Owns root f ↔ f ∈ s.free ∨ hand f ∨ s.Owns root f := by
    rw [← mem_account, ← mem_account, hacc]
  rw [settle, Finset.mem_sdiff, Finset.mem_union, List.mem_toFinset, List.mem_toFinset, hx]
  constructor
  · intro ⟨hin, hnot⟩
    have hheld : ¬ hand' f := by
      intro hc
      rcases hin with (hown | hh) | hfree
      · exact (hs.hand_apart f (hsub f hc)).1 hown
      · exact hh.2 hc
      · exact (hs.hand_apart f (hsub f hc)).2 hfree
    have hold : f ∈ s.free ∨ hand f ∨ s.Owns root f := by
      rcases hin with (hown | hh) | hfree
      · exact .inr (.inr hown)
      · exact .inr (.inl hh.1)
      · exact .inl hfree
    exact ((hf.2 hold).resolve_left hnot).resolve_left hheld
  · intro hown
    refine ⟨?_, fun hc => ht.free_apart f hc hown⟩
    rcases hf.1 (.inr (.inr hown)) with hfree | hh | hold
    · exact .inr hfree
    · exact .inl (.inr ⟨hh, fun hc => (ht.hand_apart f hc).1 hown⟩)
    · exact .inl (.inl hold)

/-- a call that leaves the kernel's slots alone and loses no page -/
theorem Life.Inv.of_account {m : Life} (h : l.Inv kend kpdpt root) (ht : PageTable kend root (· ∈ m.held) m.phys)
    (hslots : ∀ i, ¬ UserSlot i → m.phys.entry root i = l.phys.entry root i)
    (hacc : account root (· ∈ m.held) m.phys = account root (· ∈ l.held) l.phys)
    (hmine : ∀ f, f ∈ m.mine ↔ m.phys.Owns root f) : m.Inv kend kpdpt root :=
  ⟨ht, h.kernel.of_slots hslots, (hslots 256 not_userSlot_256).trans h.slot, hmine, hacc ▸ h.apart⟩

/-- a call after which the same pages are in hand -/
theorem Life.Inv.settled (h : l.Inv kend kpdpt root) (ht : PageTable kend root (· ∈ l.held) t)
    (hslots : ∀ i, ¬ UserSlot i → t.entry root i = l.phys.entry root i)
    (hacc : account root (· ∈ l.held) t = account root (· ∈ l.held) l.phys) :
    Life.Inv kend kpdpt root ⟨t, l.held, settle l.mine l.phys t⟩ :=
  h.of_account (m := ⟨t, l.held, settle l.mine l.phys t⟩) ht hslots hacc
    (settle_owns h.table ht hacc (fun _ hf => hf) fun f => by simp [h.mine])

/-! ## The calls -/

theorem lookup_congr (hpte : ∀ q j, Starts UserSlot q → q.length = 3 → t.pteAt root q j = s.pteAt root q j)
    (ha : a.toNat < 2 ^ 47) : lookup t root a = lookup s root a := by
  rw [lookup_eq, lookup_eq, hpte _ _ (starts_dir (pmx_of_lt ha)) rfl]

theorem Op.kalloc_ok (h : l.Inv kend kpdpt root) :
    wp (Op.kalloc.run kend root)
      (fun ok t => (l.after t ok .kalloc).Inv kend kpdpt root ∧ Op.kalloc.Effect root l.phys t ok)
      (fun _ _ => False) l.phys := by
  rw [Op.run, wp_bind]
  refine wp_kalloc (fun _ => wp_return ⟨?_, fun _ _ => rfl⟩) fun g rest hfree => wp_return ⟨?_, fun a ha => ?_⟩
  · have hheld : settle l.held l.phys l.phys = l.held := by
      ext f
      have := (h.table.hand_apart f ·)
      rw [settle, Finset.mem_sdiff, Finset.mem_union, List.mem_toFinset]
      tauto
    change Life.Inv kend kpdpt root ⟨l.phys, settle l.held l.phys l.phys, l.mine⟩
    rw [hheld]
    exact h
  · have hnd := h.table.nodup
    rw [hfree, List.nodup_cons] at hnd
    have hheld : (· ∈ settle l.held l.phys { l.phys with free := rest }) = fun f => f = g ∨ f ∈ l.held := by
      funext f
      have hf := (h.table.hand_apart f ·)
      simp only [hfree, List.mem_cons] at hf
      rw [settle, Finset.mem_sdiff, Finset.mem_union, List.mem_toFinset, List.mem_toFinset, hfree, List.mem_cons]
      by_cases hfg : f = g
      · simp [hfg, hnd.1]
      · simp only [hfg, false_or] at hf ⊢
        exact propext (by tauto)
    refine h.of_account (by rw [Life.after, hheld]; exact h.table.take hfree) (fun _ _ => rfl) ?_ h.mine
    simp only [Life.after, hheld]
    ext f
    rw [mem_account, mem_account, hfree, List.mem_cons]
    change f ∈ rest ∨ _ ∨ l.phys.Owns root f ↔ _
    tauto
  · rw [lookup_eq, lookup_eq]
    rfl

theorem Op.kfree_ok (h : l.Inv kend kpdpt root) {f : Frame} (hf : f ∈ l.held) :
    wp (Op.run kend root (.kfree f))
      (fun ok t => (l.after t ok (.kfree f)).Inv kend kpdpt root ∧ Op.Effect root l.phys t ok (.kfree f))
      (fun _ _ => False) l.phys := by
  obtain ⟨hown, hfree⟩ := h.table.hand_apart f hf
  have hu := h.table.usable f (.inr (.inl hf))
  obtain ⟨hrel, hat⟩ := h.table.release hown hfree hu
  have hmem : ∀ x, l.phys.Table root x → (l.phys.release f).mem x = l.phys.mem x := fun x hx =>
    Function.update_of_ne (fun hc : x = f => hown (hc ▸ hx.owns)) _ _
  have hheld : (· ∈ settle l.held l.phys (l.phys.release f)) = fun x => x ∈ l.held ∧ x ≠ f := by
    funext x
    have hx := (h.table.hand_apart x ·)
    rw [settle, Finset.mem_sdiff, Finset.mem_union, List.mem_toFinset, List.mem_toFinset, Phys.release, List.mem_cons]
    exact propext (by tauto)
  rw [Op.run, wp_bind]
  refine wp_kfree hu (wp_return ⟨h.of_account (by rw [Life.after, hheld]; exact hrel) (fun i _ => ?_) ?_ fun x => ?_,
    fun a ha => lookup_congr (fun q j hq hl => Phys.pteAt_congr hmem j hq hl) ha⟩)
  · have hroot := hmem root ⟨[], starts_nil, by simp, rfl⟩
    simp only [Life.after, Phys.entry, hroot]
  · simp only [Life.after, hheld]
    ext x
    rw [mem_account, mem_account, Phys.owns_congr hat, Phys.release, List.mem_cons]
    by_cases hx : x = f
    · simp [hx, hf]
    · simp [hx]
  · rw [Life.after, Phys.owns_congr hat]
    exact h.mine x

theorem Op.mappages_ok (h : l.Inv kend kpdpt root) {va size perm : Addr} {g : Frame}
    (hok : Op.Ok root l (.mappages va size g perm)) :
    wp (Op.run kend root (.mappages va size g perm))
      (fun ok t => (l.after t ok (.mappages va size g perm)).Inv kend kpdpt root ∧
        Op.Effect root l.phys t ok (.mappages va size g perm))
      (fun _ _ => False) l.phys := by
  obtain ⟨hg, hva, hone, hperm, hnone⟩ := hok
  have hdown := pgRoundDown_toNat va
  have halign : (pgRoundDown va).toNat % 4096 = 0 := by omega
  have hflags : (perm ||| PTE_P).toNat < 4096 ∧ (perm ||| PTE_P).toNat % 2 = 1 := by
    rw [BitVec.toNat_or]
    refine ⟨Nat.or_lt_two_pow (n := 12) hperm (by decide), ?_⟩
    rw [Nat.or_mod_two_eq_one]
    exact .inr rfl
  have hslot : UserSlot (pmx (pgRoundDown va)) := pmx_of_lt (by omega)
  have hfresh : l.phys.pteAt root (dir (pgRoundDown va)) (ptx (pgRoundDown va)) = none := by
    rw [← lookup_eq, lookup_pgRoundDown, hnone]
  rw [Op.run, wp_bind, mappages_one hone]
  refine wp_imp (mappages_spec h.table halign hslot hg hflags hfresh) ?_
  rintro r t ⟨⟨rfl, hgrown, -⟩ | ⟨rfl, hinv, hkept, -, hpte⟩, hacc⟩
  · simp only [Int.reduceNeg, Int.neg_eq_zero, one_ne_zero, false_implies, and_true] at hacc
    refine wp_return ⟨h.settled hgrown.inv hgrown.kept.slots hacc, fun a ha => ?_⟩
    rw [if_neg (by simp)]
    exact lookup_congr hgrown.pte ha
  · have hheld : (· ∈ l.held.erase g) = fun f => f ∈ l.held ∧ f ≠ g := by
      funext f
      rw [Finset.mem_erase, and_comm]
    simp only [true_implies] at hacc
    refine wp_return ⟨h.of_account (m := ⟨t, l.held.erase g, settle (insert g l.mine) l.phys t⟩)
      (by rw [hheld]; exact hinv) hkept.slots (by rw [hheld]; exact hacc) ?_, fun a ha => ?_⟩
    · refine settle_owns h.table hinv hacc (fun f hf => hf.1) fun f => ?_
      rw [Finset.mem_insert, h.mine, or_comm]
      refine or_congr_right ⟨fun hf => ⟨hf ▸ hg, fun hc => hc.2 hf⟩, fun hf => ?_⟩
      by_contra hne
      exact hf.2 ⟨hf.1, hne⟩
    · have hround : pgRoundDown (pgRoundDown va) = pgRoundDown va :=
        BitVec.eq_of_toNat_eq (by rw [pgRoundDown_toNat, hdown]; omega)
      rw [lookup_eq, lookup_eq, hpte _ _ (starts_dir (pmx_of_lt ha)) rfl]
      refine if_congr ?_ rfl rfl
      rw [same_page ha (by omega), hround]
      simp

/-- pages off a range have none of its PTEs -/
theorem off_range {lo hi : Addr} (hlo : lo.toNat % 4096 = 0) (hhi : hi.toNat ≤ 2 ^ 47) (ha : a.toNat < 2 ^ 47)
    (hout : pgRoundDown a ∉ pageAddrs lo hi) : ∀ c ∈ pageAddrs lo hi, ¬ (dir a = dir c ∧ ptx a = ptx c) := by
  intro c hc hsame
  obtain ⟨k, hk, hlt⟩ := mem_pageAddrs.1 hc
  rw [same_page ha (by omega)] at hsame
  have hround : pgRoundDown c = c := BitVec.eq_of_toNat_eq (by rw [pgRoundDown_toNat]; omega)
  exact hout (by rw [hsame, hround]; exact hc)

theorem Op.allocuvm_ok (hk : 0 < kend) (h : l.Inv kend kpdpt root) {oldsz newsz : Addr}
    (hok : Op.Ok root l (.allocuvm oldsz newsz)) :
    wp (Op.run kend root (.allocuvm oldsz newsz))
      (fun ok t => (l.after t ok (.allocuvm oldsz newsz)).Inv kend kpdpt root ∧
        Op.Effect root l.phys t ok (.allocuvm oldsz newsz))
      (fun _ _ => False) l.phys := by
  obtain ⟨hnew, habs⟩ := hok
  rw [Op.run, wp_bind]
  by_cases hle : oldsz ≤ newsz
  swap
  · -- nothing to do
    rw [Vm.allocuvm, if_neg (BitVec.not_le.2 (lt_KERNBASE hnew)), if_pos (BitVec.not_le.1 hle)]
    refine wp_return (wp_return ⟨h.settled h.table (fun _ _ => rfl) rfl, fun a _ => ?_⟩)
    rw [range, if_neg hle, if_neg (by simp)]
  rw [range, if_pos hle] at habs
  have hle' := hle
  rw [BitVec.le_def] at hle'
  have hup := pgRoundUp_toNat oldsz (by omega)
  have hlo : (pgRoundUp oldsz).toNat % 4096 = 0 := by omega
  have huser : ∀ a ∈ pageAddrs (pgRoundUp oldsz) newsz, a.toNat % 4096 = 0 ∧ a.toNat < 2 ^ 47 := fun a ha => by
    obtain ⟨k, hk, hlt⟩ := mem_pageAddrs.1 ha
    omega
  have hnone : ∀ a ∈ pageAddrs (pgRoundUp oldsz) newsz, l.phys.pteAt root (dir a) (ptx a) = none := fun a ha => by
    rw [← lookup_eq, habs a ha]
  refine wp_imp (allocuvm_spec hk h.table hle hnew hnone) ?_
  rintro r t ⟨⟨rfl, hundone⟩ | ⟨rfl, halloc⟩, hsame, -⟩
  · refine wp_return ⟨h.settled hundone.inv hundone.slots hsame, fun a ha => ?_⟩
    rw [if_neg (by simp)]
    by_cases hin : pgRoundDown a ∈ pageAddrs (pgRoundUp oldsz) newsz
    · rw [← lookup_pgRoundDown, ← lookup_pgRoundDown l.phys, lookup_eq, lookup_eq, hnone _ hin,
        hundone.gone _ hin (pmx_of_lt (huser _ hin).2)]
    · rw [lookup_eq, lookup_eq, hundone.pte _ _ (starts_dir (pmx_of_lt ha)) rfl (off_range hlo hnew ha hin)]
  · refine wp_return ⟨h.settled halloc.inv halloc.kept.slots hsame, fun a ha => ?_⟩
    rw [range, if_pos hle]
    by_cases hin : pgRoundDown a ∈ pageAddrs (pgRoundUp oldsz) r
    · obtain ⟨g, hpte, -, hfree, hzero⟩ := halloc.new _ hin
      have hr : r ≠ 0 := by
        rintro rfl
        obtain ⟨k, -, hlt⟩ := mem_pageAddrs.1 hin
        exact absurd hlt (Nat.not_lt_zero _)
      rw [if_pos ⟨by simpa using hr, hin⟩]
      exact ⟨g, hfree, by rw [← lookup_pgRoundDown, lookup_eq, hpte], hzero⟩
    · rw [if_neg fun hc => hin hc.2, lookup_eq, lookup_eq,
        halloc.pte _ _ (starts_dir (pmx_of_lt ha)) rfl (off_range hlo hnew ha hin)]

theorem Op.deallocuvm_ok (hk : 0 < kend) (h : l.Inv kend kpdpt root) {oldsz newsz : Addr} (hold : oldsz.toNat ≤ 2 ^ 47) :
    wp (Op.run kend root (.deallocuvm oldsz newsz))
      (fun ok t => (l.after t ok (.deallocuvm oldsz newsz)).Inv kend kpdpt root ∧
        Op.Effect root l.phys t ok (.deallocuvm oldsz newsz))
      (fun _ _ => False) l.phys := by
  rw [Op.run, wp_bind]
  by_cases hlt : newsz < oldsz
  swap
  · -- nothing to do, and no page in the range
    have hempty : range newsz oldsz = [] := by
      rw [range]
      split_ifs with hle
      · rw [BitVec.lt_def] at hlt
        rw [BitVec.le_def] at hle
        exact pageAddrs_nil (by rw [pgRoundUp_toNat newsz (by omega)]; omega)
      · rfl
    rw [Vm.deallocuvm, if_pos (BitVec.not_lt.1 hlt)]
    refine wp_return (wp_return ⟨h.settled h.table (fun _ _ => rfl) rfl, fun a _ => ?_⟩)
    rw [hempty, if_neg List.not_mem_nil]
  have hlt' := hlt
  rw [BitVec.lt_def] at hlt'
  have hup := pgRoundUp_toNat newsz (by omega)
  have hrange : range newsz oldsz = pageAddrs (pgRoundUp newsz) oldsz := by
    rw [range, if_pos (by rw [BitVec.le_def]; omega)]
  have huser : ∀ a ∈ pageAddrs (pgRoundUp newsz) oldsz, a.toNat < 2 ^ 47 := fun a ha => by
    obtain ⟨k, -, hlt⟩ := mem_pageAddrs.1 ha
    omega
  have hwalk : ∀ a ∈ pageAddrs (pgRoundUp newsz) oldsz, Walkable l.phys root a := fun a ha =>
    .inl (pmx_of_lt (huser a ha))
  refine wp_imp (deallocuvm_spec hk h.table hlt hwalk) ?_
  rintro _ t ⟨-, hclear⟩
  refine wp_return ⟨h.settled hclear.inv hclear.slots hclear.pages, fun a ha => ?_⟩
  rw [hrange]
  split_ifs with hin
  · rw [← lookup_pgRoundDown, lookup_eq, hclear.gone _ hin (pmx_of_lt (huser _ hin))]
  · rw [lookup_eq, lookup_eq, hclear.pte _ _ (starts_dir (pmx_of_lt ha)) rfl (off_range (by omega) hold ha hin)]

theorem Op.clearpteu_ok (h : l.Inv kend kpdpt root) {va : Addr} (hok : Op.Ok root l (.clearpteu va)) :
    wp (Op.run kend root (.clearpteu va))
      (fun ok t => (l.after t ok (.clearpteu va)).Inv kend kpdpt root ∧ Op.Effect root l.phys t ok (.clearpteu va))
      (fun _ _ => False) l.phys := by
  obtain ⟨hva, hsome⟩ := hok
  obtain ⟨e, he⟩ := Option.isSome_iff_exists.1 hsome
  have hpte := he
  rw [lookup_eq] at hpte
  have hslot : UserSlot (pmx va) := pmx_of_lt hva
  rw [Op.run, wp_bind]
  refine wp_imp (clearpteu_spec h.table hslot hpte) ?_
  intro _ t ⟨hinv, hkept, _, hmap, hacc⟩
  refine wp_return ⟨h.settled hinv hkept.slots hacc, fun a ha => ?_⟩
  rw [lookup_eq t, hmap _ _ (starts_dir (pmx_of_lt ha)) rfl]
  refine Eq.trans (if_congr (same_page ha hva) rfl rfl) ?_
  split_ifs with hsame
  · rw [← lookup_pgRoundDown, hsame, lookup_pgRoundDown, he]
    rfl
  · rw [lookup_eq]

/-- **One call** within the contract does not panic, keeps the invariant and changes the pages it names. -/
theorem Op.spec (hk : 0 < kend) (h : l.Inv kend kpdpt root) (op : Op) (hok : op.Ok root l) :
    wp (op.run kend root) (fun ok t => (l.after t ok op).Inv kend kpdpt root ∧ op.Effect root l.phys t ok)
      (fun _ _ => False) l.phys := by
  cases op with
  | kalloc => exact Op.kalloc_ok h
  | kfree f => exact Op.kfree_ok h hok
  | mappages va size g perm => exact Op.mappages_ok h hok
  | allocuvm oldsz newsz => exact Op.allocuvm_ok hk h hok
  | deallocuvm oldsz newsz => exact Op.deallocuvm_ok hk h hok
  | clearpteu va => exact Op.clearpteu_ok h hok

/-! ## Whole runs -/

theorem setupkvm_slot (kpdpt : Frame) (s : Phys) :
    wp (setupkvm kpdpt) (fun root t => t.entry root 256 = mkPte kpdpt (PTE_P ||| PTE_W)) (fun _ _ => True) s := by
  rw [setupkvm, wp_bind]
  refine wp_kalloc (fun _ => (wp_throw _ _).2 trivial) fun g rest _ => ?_
  rw [wp_bind, wp_modify, wp_pure, Phys.entry_store, set_same]

theorem Life.Inv.init (h : Life.Init kend kpdpt root l) : l.Inv kend kpdpt root := by
  obtain ⟨s₀, halloc, hfree₀, hheld, hrun, hmine⟩ := h
  obtain ⟨htable, hkernel, hfree, -, -, hat⟩ := wp_ok (setupkvm_spec halloc kpdpt) hrun
  have howns : ∀ f, l.phys.Owns root f ↔ f = root := fun f => Phys.owns_bare hat
  have hslot := wp_ok (setupkvm_slot kpdpt s₀) hrun
  refine ⟨htable, hkernel, hslot, fun f => by rw [hmine, Finset.mem_singleton, howns], ?_⟩
  rw [mem_account, howns]
  rw [hfree, List.mem_cons] at hfree₀
  tauto

theorem Life.Inv.of_reach (hk : 0 < kend) (h : (Life.machine kend kpdpt root).Reach l) : l.Inv kend kpdpt root := by
  refine h.invariant (I := fun l : Life => l.Inv kend kpdpt root) (fun _ h0 => Life.Inv.init h0) fun l op l' hinv hnext => ?_
  obtain ⟨hok, hstep⟩ := hnext
  obtain ⟨ok, t, hrun, hinv', -⟩ := wp_exists.1 (Op.spec hk hinv op hok)
  change Life.step kend root l op = some l' at hstep
  rw [Life.step, hrun] at hstep
  exact Option.some.inj hstep ▸ hinv'

/-- **`freevm`** gives back exactly the pages of the account, each once, and touches no other page. -/
theorem Life.Inv.freevm (h : l.Inv kend kpdpt root) : ∃ t, freevm kend root l.phys = .ok ⟨⟩ t ∧
    t.free.Perm (l.mine.toList ++ l.phys.free) ∧ ∀ f, f ∉ l.mine → t.mem f = l.phys.mem f := by
  obtain ⟨_, t, hrun, ⟨hmem, -⟩, hfreed⟩ := wp_exists.1 (freevm_spec h.table)
  refine ⟨t, hrun, ?_, fun f hf => hmem f fun hown => hf ((h.mine f).2 hown)⟩
  refine (List.perm_ext_iff_of_nodup hfreed.nodup ?_).2 fun f => ?_
  · refine List.nodup_append.2 ⟨Finset.nodup_toList _, h.table.nodup, fun f hf g hg hfg => ?_⟩
    rw [Finset.mem_toList, h.mine] at hf
    exact h.table.free_apart g hg (hfg ▸ hf)
  · rw [hfreed.mem f, List.mem_append, Finset.mem_toList, h.mine]

/-- **Page tables are trees that free completely.** -/
theorem page_tables_free_completely (hk : 0 < kend) (h : (Life.machine kend kpdpt root).Reach l) :
    (∀ f, f ∈ l.mine ∧ f ≠ root ↔ ∃ x, Refers child UserSlot 4 l.phys.entry root x f) ∧
      (∀ f ∈ l.mine, f ≠ root → ∃! x, Refers child UserSlot 4 l.phys.entry root x f) ∧
      (∀ op : Op, op.Ok root l → ∃ ok t, op.run kend root l.phys = .ok ok t ∧ op.Effect root l.phys t ok) ∧
      l.phys.entry root 256 = mkPte kpdpt (PTE_P ||| PTE_W) ∧ kpdpt ∉ l.mine ∧
      ∃ t, freevm kend root l.phys = .ok ⟨⟩ t ∧ t.free.Perm (l.mine.toList ++ l.phys.free) ∧
        ∀ f, f ∉ l.mine → t.mem f = l.phys.mem f := by
  have hinv := Life.Inv.of_reach hk h
  have hone : ∀ f, f ∈ l.mine → f ≠ root → ∃! x, Refers child UserSlot 4 l.phys.entry root x f := by
    intro f hf hne
    obtain ⟨q, hq, hl, hat⟩ := (hinv.mine f).1 hf
    refine hinv.table.tree.existsUnique_refers hq hl ?_ hat
    intro hnil
    rw [hnil] at hat
    exact hne (Option.some.inj hat).symm
  refine ⟨fun f => ⟨fun hf => (hone f hf.1 hf.2).exists, ?_⟩, hone, fun op hok => ?_, hinv.slot, ?_, hinv.freevm⟩
  · intro ⟨x, hx⟩
    obtain ⟨q, hq, hl, hne, hat⟩ := hx.follow
    refine ⟨(hinv.mine f).2 ⟨q, hq, hl, hat⟩, fun hroot => hne ?_⟩
    exact hinv.table.owns_root hq hl (hroot ▸ hat)
  · obtain ⟨ok, t, hrun, -, heffect⟩ := wp_exists.1 (Op.spec hk hinv op hok)
    exact ⟨ok, t, hrun, heffect⟩
  · intro hmem
    exact hinv.apart (.inr (.inr ((hinv.mine kpdpt).1 hmem)))

end

/-- the kernel after `setupkvm` has taken page 0x200, with kpdpt at page 0x201 -/
def newLife (free : List Frame) : Life := ⟨bareSpace free, ∅, {0x200}⟩

/-- the calls of a run, each within the contract -/
def Life.calls (kend : ℕ) (root : Frame) (l : Life) (ops : List Op) : Option Life :=
  ops.foldlM (fun l op => if Op.Ok root l op then Life.step kend root l op else none) l

/-- A page mapped, two more allocated, one of them made inaccessible, the other freed; then `freevm` gives back what is
left. -/
theorem page_tables_free_completely_run :
    ∃ l : Life, (newLife [0x202, 0x203, 0x204, 0x205, 0x206, 0x207, 0x208]).calls 0x100000 0x200
        [.kalloc, .mappages 0x1000 0x1000 0x202 (PTE_W ||| PTE_U), .allocuvm 0x2000 0x4000, .clearpteu 0x2000,
          .deallocuvm 0x4000 0x3000] = some l ∧ l.mine.card = 6 ∧
      ∃ t, freevm 0x100000 0x200 l.phys = .ok ⟨⟩ t ∧ t.free.Perm (l.mine.toList ++ l.phys.free) := by
  have hsome : ((newLife [0x202, 0x203, 0x204, 0x205, 0x206, 0x207, 0x208]).calls 0x100000 0x200
      [.kalloc, .mappages 0x1000 0x1000 0x202 (PTE_W ||| PTE_U), .allocuvm 0x2000 0x4000, .clearpteu 0x2000,
        .deallocuvm 0x4000 0x3000]).map (fun l => l.mine.card) = some 6 := by decide +kernel
  obtain ⟨l, hrun, hcard⟩ := Option.map_eq_some_iff.1 hsome
  have hfree : Allocator 0x100000 (· ∈ (∅ : Finset Frame))
      (blank [0x200, 0x202, 0x203, 0x204, 0x205, 0x206, 0x207, 0x208]) :=
    ⟨by decide, by simp, by simp [blank, Usable, Frame.addr, PHYSTOP]⟩
  have hinit : (Life.machine 0x100000 0x201 0x200).Reach (newLife [0x202, 0x203, 0x204, 0x205, 0x206, 0x207, 0x208]) :=
    .init ⟨_, hfree, by decide, by simp [newLife], rfl, rfl⟩
  obtain ⟨-, -, -, -, -, t, hfreevm, hperm, -⟩ :=
    page_tables_free_completely (by decide) (Machine.Reach.foldlM_restrict _ hinit hrun)
  exact ⟨l, hrun, hcard, t, hfreevm, hperm⟩

end Xv6.Vm
