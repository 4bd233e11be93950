/-
Addresses and page-table entries as `mmu.h` and `memlayout.h` define them.

`addr_t` is a 64-bit word. A physical page is named by its page number, the upper 52 bits of its address, so that every
name is page-aligned; `PTE_ADDR` of an entry is such a number. `pageAddrs lo hi` lists the values of the loop variable in
`for(a = lo; a < hi; a += PGSIZE)`.
Results: `pgRoundDown_toNat` and `pgRoundUp_toNat` give the rounding macros as integer arithmetic (the second one needs
the sum not to wrap), `mem_pageAddrs` says which addresses such a loop visits, and `path_inj` that two page addresses
share a path through the tables only if they agree modulo 2^48.
-/
import Mathlib.Tactic

namespace Xv6

/-- `addr_t` -/
abbrev Addr := BitVec 64

/-- bytes mapped by a page -/
def PGSIZE : Addr := 4096

/-- first kernel virtual address -/
def KERNBASE : Addr := 0xFFFF800000000000

/-- top physical memory -/
def PHYSTOP : ℕ := 0xE000000

def pgRoundUp (sz : Addr) : Addr := (sz + (PGSIZE - 1)) &&& ~~~(PGSIZE - 1)

def pgRoundDown (a : Addr) : Addr := a &&& ~~~(PGSIZE - 1)

/-- clearing the low k bits rounds down to a multiple of 2^k -/
theorem toNat_clear_low {k : ℕ} (a : Addr) {m : Addr} (hm : m = BitVec.allOnes 64 <<< k) :
    (a &&& m).toNat = a.toNat / 2 ^ k * 2 ^ k := by
  have hshift : a &&& m = (a >>> k) <<< k := by
    rw [hm]
    ext i hi
    simp only [BitVec.getElem_and, BitVec.getElem_shiftLeft, BitVec.getElem_ushiftRight, BitVec.getElem_allOnes]
    by_cases h : i < k
    · simp [h]
    · simp [h, show k + (i - k) = i by omega, BitVec.getLsbD_eq_getElem hi]
  rw [hshift, BitVec.toNat_shiftLeft, BitVec.toNat_ushiftRight, Nat.shiftRight_eq_div_pow, Nat.shiftLeft_eq,
    Nat.mod_eq_of_lt ((Nat.div_mul_le_self _ _).trans_lt a.isLt)]

theorem pgRoundDown_toNat (a : Addr) : (pgRoundDown a).toNat = a.toNat / 4096 * 4096 :=
  toNat_clear_low (k := 12) a (by decide)

theorem pgRoundUp_toNat (a : Addr) (h : a.toNat + 4095 < 2 ^ 64) :
    (pgRoundUp a).toNat = (a.toNat + 4095) / 4096 * 4096 := by
  have hsum : (a + (PGSIZE - 1)).toNat = a.toNat + 4095 := by
    rw [BitVec.toNat_add, show (PGSIZE - 1).toNat = 4095 from rfl, Nat.mod_eq_of_lt h]
  rw [← hsum]
  exact pgRoundDown_toNat _

/-! ## Page addresses -/

/-- the values of a in `for(a = lo; a < hi; a += PGSIZE)` -/
def pageAddrs (lo hi : Addr) : List Addr :=
  (List.range ((hi.toNat - lo.toNat + 4095) / 4096)).map fun k => lo + BitVec.ofNat 64 (4096 * k)

theorem toNat_add_pages {lo : Addr} {k n : ℕ} (h : lo.toNat + 4096 * k < n) (hn : n ≤ 2 ^ 64) :
    (lo + BitVec.ofNat 64 (4096 * k)).toNat = lo.toNat + 4096 * k := by
  rw [BitVec.toNat_add, BitVec.toNat_ofNat, Nat.mod_eq_of_lt (show 4096 * k < 2 ^ 64 by omega),
    Nat.mod_eq_of_lt (by omega)]

theorem mem_pageAddrs {lo hi a : Addr} :
    a ∈ pageAddrs lo hi ↔ ∃ k, a.toNat = lo.toNat + 4096 * k ∧ a.toNat < hi.toNat := by
  have hhi := hi.isLt
  simp only [pageAddrs, List.mem_map, List.mem_range]
  constructor
  · rintro ⟨k, hk, rfl⟩
    have hlt : lo.toNat + 4096 * k < hi.toNat := by omega
    exact ⟨k, toNat_add_pages hlt hhi.le, by rw [toNat_add_pages hlt hhi.le]; exact hlt⟩
  · rintro ⟨k, hk, hlt⟩
    exact ⟨k, by omega, BitVec.eq_of_toNat_eq (by rw [toNat_add_pages (hk ▸ hlt) hhi.le, hk])⟩

/-- a loop over page addresses cut at one of them -/
theorem pageAddrs_append {lo mid hi : Addr} {m : ℕ} (hmid : mid.toNat = lo.toNat + 4096 * m) (hle : mid.toNat ≤ hi.toNat) :
    pageAddrs lo hi = pageAddrs lo mid ++ pageAddrs mid hi := by
  have hlt := mid.isLt
  have hcount : (hi.toNat - lo.toNat + 4095) / 4096 = m + (hi.toNat - mid.toNat + 4095) / 4096 := by omega
  have hm : (mid.toNat - lo.toNat + 4095) / 4096 = m := by omega
  have hadd : mid = lo + BitVec.ofNat 64 (4096 * m) :=
    BitVec.eq_of_toNat_eq (by rw [toNat_add_pages (n := 2 ^ 64) (by omega) le_rfl, hmid])
  rw [pageAddrs, pageAddrs, pageAddrs, hcount, hm, List.range_add, List.map_append, List.map_map]
  congr 1
  refine List.map_congr_left fun k _ => ?_
  rw [Function.comp_apply, hadd, Nat.mul_add, BitVec.ofNat_add, BitVec.add_assoc]

theorem pageAddrs_cons {lo hi : Addr} (h : lo.toNat < hi.toNat) : ∃ l, pageAddrs lo hi = lo :: l := by
  obtain ⟨n, hn⟩ : ∃ n, (hi.toNat - lo.toNat + 4095) / 4096 = n + 1 := ⟨(hi.toNat - lo.toNat - 1) / 4096, by omega⟩
  rw [pageAddrs, hn, List.range_succ_eq_map, List.map_cons]
  exact ⟨_, by rw [Nat.mul_zero, BitVec.add_zero]⟩

/-! ## Table indices -/

/-- an index into a table of 512 entries -/
abbrev Idx := BitVec 9

def pmx (va : Addr) : Idx := (va >>> 39).setWidth 9
def pdpx (va : Addr) : Idx := (va >>> 30).setWidth 9
def pdx (va : Addr) : Idx := (va >>> 21).setWidth 9
def ptx (va : Addr) : Idx := (va >>> 12).setWidth 9

theorem toNat_pmx (va : Addr) : (pmx va).toNat = va.toNat / 2 ^ 39 % 512 := by
  simp [pmx, Nat.shiftRight_eq_div_pow]
theorem toNat_pdpx (va : Addr) : (pdpx va).toNat = va.toNat / 2 ^ 30 % 512 := by
  simp [pdpx, Nat.shiftRight_eq_div_pow]
theorem toNat_pdx (va : Addr) : (pdx va).toNat = va.toNat / 2 ^ 21 % 512 := by
  simp [pdx, Nat.shiftRight_eq_div_pow]
theorem toNat_ptx (va : Addr) : (ptx va).toNat = va.toNat / 2 ^ 12 % 512 := by
  simp [ptx, Nat.shiftRight_eq_div_pow]

/-- the indices that lead from the PML4 to the page table of an address -/
def dir (va : Addr) : List Idx := [pmx va, pdpx va, pdx va]

/-- the indices that lead from the PML4 to the page of an address -/
def path (va : Addr) : List Idx := dir va ++ [ptx va]

theorem path_inj {a b : Addr} (h : path a = path b) : a.toNat / 4096 % 2 ^ 36 = b.toNat / 4096 % 2 ^ 36 := by
  simp only [path, dir, List.cons_append, List.nil_append, List.cons.injEq, and_true] at h
  obtain ⟨h1, h2, h3, h4⟩ := h
  have h1 := congrArg BitVec.toNat h1
  have h2 := congrArg BitVec.toNat h2
  have h3 := congrArg BitVec.toNat h3
  have h4 := congrArg BitVec.toNat h4
  rw [toNat_pmx, toNat_pmx] at h1
  rw [toNat_pdpx, toNat_pdpx] at h2
  rw [toNat_pdx, toNat_pdx] at h3
  rw [toNat_ptx, toNat_ptx] at h4
  omega

/-- over less than 2^48 bytes no two pages share a path -/
theorem pageAddrs_pairwise {lo hi : Addr} (h : hi.toNat ≤ lo.toNat + 2 ^ 48) :
    (pageAddrs lo hi).Pairwise fun a b => path a ≠ path b := by
  have hhi := hi.isLt
  rw [pageAddrs, List.pairwise_map]
  refine List.Pairwise.imp_of_mem (fun {k k'} hk hk' hlt hpath => ?_) List.pairwise_lt_range
  rw [List.mem_range] at hk hk'
  have hmod := path_inj hpath
  rw [toNat_add_pages (n := hi.toNat) (by omega) hhi.le, toNat_add_pages (n := hi.toNat) (by omega) hhi.le] at hmod
  omega

theorem pmx_of_lt {a : Addr} (h : a.toNat < 2 ^ 47) : (pmx a).toNat < 256 := by
  rw [toNat_pmx]
  omega

/-! ## Entries -/

/-- a physical page number -/
abbrev Frame := BitVec 52

/-- the physical address of a page -/
def Frame.addr (f : Frame) : ℕ := f.toNat * 4096

/-- present, writeable, user -/
def PTE_P : Addr := 1
def PTE_W : Addr := 2
def PTE_U : Addr := 4

/-- the page an entry points to, `PTE_ADDR` as a page number -/
def pteFrame (e : Addr) : Frame := (e >>> 12).setWidth 52

/-- the entry `pa | flags` -/
def mkPte (f : Frame) (flags : Addr) : Addr := (f.setWidth 64 <<< 12) ||| flags

/-- the table or page a present entry points to -/
def child (e : Addr) : Option Frame := if e &&& PTE_P ≠ 0 then some (pteFrame e) else none

theorem present_iff (e : Addr) : e &&& PTE_P ≠ 0 ↔ e.toNat % 2 = 1 := by
  have hbit : (e &&& PTE_P).toNat = e.toNat % 2 := by
    rw [BitVec.toNat_and, show PTE_P.toNat = 1 from rfl, Nat.and_one_is_mod]
  rw [ne_eq, ← BitVec.toNat_inj, hbit, show (0 : Addr).toNat = 0 from rfl]
  omega

theorem toNat_mkPte (f : Frame) {flags : Addr} (h : flags.toNat < 4096) :
    (mkPte f flags).toNat = f.toNat * 4096 + flags.toNat := by
  have hf := f.isLt
  have hshift : (f.setWidth 64 <<< 12).toNat = f.toNat <<< 12 := by
    rw [BitVec.toNat_shiftLeft, BitVec.toNat_setWidth, Nat.mod_eq_of_lt (show f.toNat < 2 ^ 64 by omega),
      Nat.shiftLeft_eq, Nat.mod_eq_of_lt (by omega)]
  rw [mkPte, BitVec.toNat_or, hshift, ← Nat.shiftLeft_add_eq_or_of_lt (by simpa using h), Nat.shiftLeft_eq]

theorem pteFrame_mkPte (f : Frame) {flags : Addr} (h : flags.toNat < 4096) : pteFrame (mkPte f flags) = f := by
  refine BitVec.eq_of_toNat_eq ?_
  have hf := f.isLt
  rw [pteFrame, BitVec.toNat_setWidth, BitVec.toNat_ushiftRight, toNat_mkPte f h, Nat.shiftRight_eq_div_pow]
  omega

theorem child_mkPte (f : Frame) {flags : Addr} (h : flags.toNat < 4096) (hp : flags.toNat % 2 = 1) :
    child (mkPte f flags) = some f := by
  have hpres : mkPte f flags &&& PTE_P ≠ 0 := by
    rw [present_iff, toNat_mkPte f h]
    omega
  rw [child, if_pos hpres, pteFrame_mkPte f h]

end Xv6
