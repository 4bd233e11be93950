/-
The child's address space, by addresses.

`Duplicate` says what `copyuvm` leaves in terms of table paths. Here it is read through `lookup`, the PTE that
`walkpgdir` finds for a user address.

- `SeparateCopy`: the child has the pages of [PGSIZE, PGROUNDUP(sz)) and no others, with the parent's flags and bytes, each
  on a frame that was free and that no other page of either process is on; the parent is as it was;
- `copyuvm_separate`: what `copyuvm` returns is such a copy.
-/
import Xv6.Vm.Fork
import Xv6.Vm.Lifetime

namespace Xv6.Vm

open Xv6.Bytes Xv6.Wp Xv6.Radix

/-- the address space d of t is a copy of the user memory of pgdir in s, of size sz, and shares nothing with it -/
structure SeparateCopy (pgdir d : Frame) (sz : Addr) (s t : Phys) : Prop where
  pages : ∀ a : Addr, a.toNat < 2 ^ 47 → ((lookup t d a).isSome ↔ PGSIZE ≤ a ∧ a < pgRoundUp sz)
  copied : ∀ a e : Addr, a.toNat < 2 ^ 47 → lookup t d a = some e → ∃ e', lookup s pgdir a = some e' ∧
    pteFlags e = pteFlags e' ∧ t.mem (pteFrame e) = s.mem (pteFrame e')
  fresh : ∀ a e : Addr, a.toNat < 2 ^ 47 → lookup t d a = some e →
    pteFrame e ∈ s.free ∧ pteFrame e ∉ t.free ∧ ¬ t.Owns pgdir (pteFrame e)
  alone : ∀ a b e e' : Addr, a.toNat < 2 ^ 47 → b.toNat < 2 ^ 47 → lookup t d a = some e → lookup t d b = some e' →
    pteFrame e = pteFrame e' → pgRoundDown a = pgRoundDown b
  table : ∀ a : Addr, a.toNat < 2 ^ 47 → lookup t pgdir a = lookup s pgdir a
  memory : ∀ f, s.Owns pgdir f → t.mem f = s.mem f

variable {kend : ℕ} {kpdpt pgdir d : Frame} {s t : Phys} {a b sz : Addr}

/-- a present entry keeps its flags when the frame is replaced -/
theorem pteFlags_mkPte (g : Frame) {e : Addr} (hpres : e &&& PTE_P ≠ 0) :
    pteFlags (mkPte g (pteFlags e ||| PTE_P)) = pteFlags e := by
  have hand : ∀ x : ℕ, x &&& 4095 = x % 4096 := fun x => Nat.and_two_pow_sub_one_eq_mod x 12
  have hodd : (pteFlags e).toNat % 2 = 1 := by
    rw [pteFlags, BitVec.toNat_and, show (0xFFF : Addr).toNat = 4095 from rfl, hand]
    have := (present_iff e).1 hpres
    omega
  have hor : pteFlags e ||| PTE_P = pteFlags e := by
    refine BitVec.eq_of_toNat_eq ?_
    rw [BitVec.toNat_or, show PTE_P.toNat = 1 from rfl]
    refine Nat.eq_of_testBit_eq fun i => ?_
    cases i with
    | zero => simp [hodd]
    | succ i => rw [Nat.testBit_or, Nat.testBit_succ 1, show 1 / 2 = 0 from rfl, Nat.zero_testBit, Bool.or_false]
  refine BitVec.eq_of_toNat_eq ?_
  have hlt := (pteFlags_lt e).1
  rw [hor] at hlt ⊢
  rw [pteFlags, BitVec.toNat_and, toNat_mkPte g hlt, show (0xFFF : Addr).toNat = 4095 from rfl, hand]
  omega

theorem lookup_present {e : Addr} (h : lookup s pgdir a = some e) : e &&& PTE_P ≠ 0 := by
  rw [lookup_eq, Phys.pteAt, Option.filter_eq_some_iff] at h
  simpa using h.2

/-- the addresses of the pages that the loop visits -/
theorem mem_image_iff (hsz : sz.toNat < 2 ^ 32) (ha : a.toNat < 2 ^ 47) :
    (∃ b ∈ pageAddrs PGSIZE sz, dir a = dir b ∧ ptx a = ptx b) ↔ PGSIZE ≤ a ∧ a < pgRoundUp sz := by
  have hup := pgRoundUp_toNat sz (by omega)
  have hdown := pgRoundDown_toNat a
  have hle : (PGSIZE ≤ a ∧ a < pgRoundUp sz) ↔ 4096 ≤ a.toNat ∧ a.toNat < (sz.toNat + 4095) / 4096 * 4096 := by
    rw [BitVec.le_def, BitVec.lt_def, hup]
    rfl
  rw [hle]
  constructor
  · rintro ⟨b, hb, hab⟩
    have hbb := mem_image.1 hb
    have hpage := congrArg BitVec.toNat ((same_page ha (by omega)).1 hab)
    rw [hdown, pgRoundDown_toNat] at hpage
    omega
  · intro ⟨hlo, hhi⟩
    refine ⟨pgRoundDown a, mem_image.2 ?_, ?_⟩
    · rw [hdown]
      omega
    · exact ⟨(dir_pgRoundDown a).1.symm, (dir_pgRoundDown a).2.symm⟩

/-- a page of the child is one of those copied -/
theorem Duplicate.lookup {hand : Frame → Prop} {l : List Addr} (h : Duplicate kend pgdir d hand l s t) {e : Addr}
    (ha : a.toNat < 2 ^ 47) (he : lookup t d a = some e) : ∃ b ∈ l, (dir a = dir b ∧ ptx a = ptx b) ∧
      ∃ e', lookup s pgdir a = some e' ∧ ∃ g ∈ s.free, e = mkPte g (pteFlags e' ||| PTE_P) ∧
        (hand (pteFrame e') → t.mem g = s.mem (pteFrame e')) := by
  rw [lookup_eq] at he
  by_cases hb : ∃ b ∈ l, dir a = dir b ∧ ptx a = ptx b
  · obtain ⟨b, hb, hdir, hptx⟩ := hb
    obtain ⟨e', he', g, hg, hpte, hmem⟩ := h.page b hb
    rw [← hdir, ← hptx] at he' hpte
    refine ⟨b, hb, ⟨hdir, hptx⟩, e', by rw [lookup_eq]; exact he', g, hg, ?_, hmem⟩
    exact Option.some.inj (he.symm.trans hpte)
  · rw [h.absent _ _ (starts_dir (pmx_of_lt ha)) rfl fun b hb' hab => hb ⟨b, hb', hab⟩] at he
    cases he

/-- **`copyuvm` copies the address space.** The pages of the parent are in use, so not on the free list. -/
theorem copyuvm_separate (halloc : Allocator kend (s.Owns pgdir) s) (sz : BitVec 32)
    (hrun : copyuvm kend kpdpt pgdir sz s = .ok (some d) t) : SeparateCopy pgdir d (sz.setWidth 64) s t := by
  have hdup := (wp_ok (copyuvm_spec halloc (fun f hf => hf.owns) sz) hrun).2 d rfl
  have hsz : (sz.setWidth 64).toNat < 2 ^ 32 := by
    rw [BitVec.toNat_setWidth]
    have := sz.isLt
    omega
  have htab : ∀ f, s.Table pgdir f → t.mem f = s.mem f := fun f hf => hdup.held f hf.owns
  have hsame : ∀ a : Addr, a.toNat < 2 ^ 47 → lookup t pgdir a = lookup s pgdir a := fun a ha => by
    rw [lookup_eq, lookup_eq, Phys.pteAt_congr htab _ (starts_dir (pmx_of_lt ha)) rfl]
  -- where the entries of the child come from
  have hframe : ∀ a e : Addr, a.toNat < 2 ^ 47 → lookup t d a = some e → t.at d (dir a ++ [ptx a]) = some (pteFrame e) :=
    fun a e _ he => pteAt_frame (by rw [← lookup_eq]; exact he)
  refine ⟨fun a ha => ?_, fun a e ha he => ?_, fun a e ha he => ?_, fun a b e e' ha hb he he' hee => ?_, hsame, hdup.held⟩
  · rw [← mem_image_iff hsz ha, Option.isSome_iff_exists]
    constructor
    · rintro ⟨e, he⟩
      obtain ⟨b, hb, hab, -⟩ := hdup.lookup ha he
      exact ⟨b, hb, hab⟩
    · rintro ⟨b, hb, hdir, hptx⟩
      obtain ⟨e', -, g, -, hpte, -⟩ := hdup.page b hb
      exact ⟨_, by rw [lookup_eq, hdir, hptx]; exact hpte⟩
  · obtain ⟨b, -, -, e', he', g, -, rfl, hmem⟩ := hdup.lookup ha he
    refine ⟨e', he', pteFlags_mkPte g (lookup_present he'), ?_⟩
    rw [pteFrame_mkPte g (pteFlags_lt e').1, hmem]
    exact ⟨_, starts_path (pmx_of_lt ha), by simp [dir], pteAt_frame (by rw [← lookup_eq]; exact he')⟩
  · obtain ⟨b, -, -, e', -, g, hg, rfl, -⟩ := hdup.lookup ha he
    have hown : t.Owns d (pteFrame (mkPte g (pteFlags e' ||| PTE_P))) :=
      ⟨_, starts_path (pmx_of_lt ha), by simp [dir], hframe a _ ha he⟩
    have hnot := fun hf => hdup.inv.free_apart _ hf hown
    rw [pteFrame_mkPte g (pteFlags_lt e').1] at hnot ⊢
    refine ⟨hg, hnot, fun hc => halloc.apart g ?_ hg⟩
    exact (Phys.owns_congr fun q hq hl => Phys.at_congr htab hq hl).1 hc
  · -- the tables of the child are a tree
    have htree := hdup.inv.tree _ _ _ (starts_path (pmx_of_lt ha)) (starts_path (pmx_of_lt hb)) (by simp [dir]) (by simp [dir])
      (hframe a e ha he) (by rw [hee]; exact hframe b e' hb he')
    obtain ⟨hdir, hptx⟩ := List.append_inj' htree rfl
    exact (same_page ha hb).1 ⟨hdir, List.singleton_injective hptx⟩

/-- a parent with two pages, and six free -/
def twoPages : Phys :=
  parentSpace 0x3000 [0x202, 0x203, 0x204, 0x205, 0x206, 0x207, 0x208, 0x209, 0x20a, 0x20b, 0x20c]

theorem copyuvm_separate_two_pages :
    ∃ d t, copyuvm 0x100000 0x201 0x200 0x3000 twoPages = .ok (some d) t ∧ SeparateCopy 0x200 d 0x3000 twoPages t ∧
      (lookup t d 0x1000).isSome ∧ (lookup t d 0x2000).isSome := by
  obtain ⟨r, t, ht, hr⟩ := wp_exists.1 (wp_of_eval (x := copyuvm 0x100000 0x201 0x200 0x3000)
    (s := twoPages) (P := fun r _ => r.isSome) (by decide +kernel))
  obtain ⟨d, rfl⟩ := Option.isSome_iff_exists.1 hr
  have h : PageTable 0x100000 0x200 (· = 0x201) twoPages :=
    parentSpace_ok (by decide) (by decide) (by decide) (by simp [Usable, Frame.addr, PHYSTOP])
  have hcopy := copyuvm_separate ⟨h.nodup, fun f hf hfree => h.free_apart f hfree hf,
    fun f hf => h.usable f (hf.imp_right .inr)⟩ 0x3000 ht
  exact ⟨d, t, ht, hcopy, (hcopy.pages 0x1000 (by decide)).2 (by decide), (hcopy.pages 0x2000 (by decide)).2 (by decide)⟩

end Xv6.Vm
