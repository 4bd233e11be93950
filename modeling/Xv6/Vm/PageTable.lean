/-
Physical pages and page tables: `kalloc.c` and `vm.c`.

The state is physical memory by pages, the free list of `kalloc` and a record of what has been done (it is written and
never read): the PML4 slots `walkpgdir` went through, the pages `allocuvm` took for user memory and the pages `loaduvm`
copied file bytes into, with the present bit of the PTE it found them by. A kernel path is an `EStateM`, so that the state at a panic is kept.
The kernel reaches a physical page through the direct map at KERNBASE; pages are named by their number. `kend` is the
physical address of the first byte after the kernel image, `V2P(end)`.
-/
import Xv6.Core.Bytes
import Xv6.Core.Radix
import Xv6.Core.Wp
import Xv6.Param
import Xv6.Vm.Mmu

namespace Xv6.Vm

open Xv6.Bytes Xv6.Wp Xv6.Radix

/-- what the record remembers -/
inductive Event where
  | walk (slot : Idx)
  | alloc (f : Frame)
  | load (f : Frame) (present : Bool)
deriving DecidableEq

structure Phys where
  mem : Frame → Store
  free : List Frame
  trace : List Event

/-- a kernel path over physical memory -/
abbrev K (α : Type) := EStateM Fault Phys α

/-- entry i of the table in a page -/
def Phys.entry (s : Phys) (f : Frame) (i : Idx) : Addr := BitVec.ofNat 64 (getLE (s.mem f) (8 * i.toNat) 8)

def Phys.store (s : Phys) (f : Frame) (i : Idx) (e : Addr) : Phys :=
  { s with mem := Function.update s.mem f (putLE (s.mem f) (8 * i.toNat) 8 e.toNat) }

/-- `memset` of a whole page -/
def Phys.fill (s : Phys) (f : Frame) (c : Byte) : Phys := { s with mem := Function.update s.mem f fun _ => c }

def Phys.record (s : Phys) (e : Event) : Phys := { s with trace := s.trace ++ [e] }

/-! ## `kalloc.c` -/

def kalloc : K (Option Frame) := do
  match (← get).free with
  | [] => return none
  | r :: next =>
    modify fun s => { s with free := next }
    return some r

/-- the direct-map address stored in `r->next` -/
def nextPtr (free : List Frame) : ℕ :=
  match free with
  | [] => 0
  | f :: _ => KERNBASE.toNat + f.addr

/-- page f is filled with junk and put on the free list -/
def Phys.release (s : Phys) (f : Frame) : Phys :=
  { s with mem := Function.update s.mem f (putLE (fun _ => 1) 0 8 (nextPtr s.free)), free := f :: s.free }

def kfree (kend : ℕ) (f : Frame) : K PUnit := do
  if f.addr < kend ∨ PHYSTOP ≤ f.addr then throw (.panic .kfree)
  else modify fun s => s.release f

/-! ## `vm.c` -/

/-- one level of `walkpgdir`: find the next table, or allocate it and fill the entry -/
def walkLevel (f : Frame) (i : Idx) (alloc : Bool) : K (Option Frame) := do
  let e := (← get).entry f i
  if e &&& PTE_P ≠ 0 then return some (pteFrame e)
  else if alloc = false then return none
  else
    match ← kalloc with
    | none => return none
    | some g =>
      modify fun s => (s.fill g 0).store f i (mkPte g (PTE_P ||| PTE_W ||| PTE_U))
      return some g

/-- the page table and the index of the PTE for va -/
def walkpgdir (pml4 : Frame) (va : Addr) (alloc : Bool) : K (Option (Frame × Idx)) := do
  match ← walkLevel pml4 (pmx va) alloc with
  | none => return none
  | some pdp =>
    modify fun s => s.record (.walk (pmx va))
    match ← walkLevel pdp (pdpx va) alloc with
    | none => return none
    | some pd =>
      match ← walkLevel pd (pdx va) alloc with
      | none => return none
      | some pgtab => return some (pgtab, ptx va)

/-- the loop of `mappages` when n pages follow a -/
def mappagesLoop (pgdir : Frame) (perm : Addr) : ℕ → Addr → Frame → K ℤ
  | n, a, pa => do
    match ← walkpgdir pgdir a true with
    | none => return -1
    | some (pt, i) =>
      if (← get).entry pt i &&& PTE_P ≠ 0 then throw (.panic .remap)
      else
        modify fun s => s.store pt i (mkPte pa (perm ||| PTE_P))
        match n with
        | 0 => return 0
        | n + 1 => mappagesLoop pgdir perm n (a + PGSIZE) (pa + 1)

def mappages (pgdir : Frame) (va size : Addr) (pa : Frame) (perm : Addr) : K ℤ :=
  let a := pgRoundDown va
  let last := pgRoundDown (va + size - 1)
  mappagesLoop pgdir perm ((last - a).toNat / 4096) a pa

/-- the body of the loop of `deallocuvm` -/
def deallocPage (kend : ℕ) (pgdir : Frame) (a : Addr) : K PUnit := do
  match ← walkpgdir pgdir a false with
  | none => return ()
  | some (pt, i) =>
    let e := (← get).entry pt i
    if e &&& PTE_P ≠ 0 then
      if pteFrame e = 0 then throw (.panic .kfree)
      else
        kfree kend (pteFrame e)
        modify fun s => s.store pt i 0
    else return ()

def deallocuvm (kend : ℕ) (pgdir : Frame) (oldsz newsz : Addr) : K Addr := do
  if oldsz ≤ newsz then return oldsz
  else
    forM (pageAddrs (pgRoundUp newsz) oldsz) (deallocPage kend pgdir)
    return newsz

/-- the loop of `allocuvm` over the page addresses still to be mapped -/
def allocuvmLoop (kend : ℕ) (pgdir : Frame) (oldsz newsz : Addr) : List Addr → K Addr
  | [] => return newsz
  | a :: as => do
    match ← kalloc with
    | none =>
      let _ ← deallocuvm kend pgdir newsz oldsz
      return 0
    | some mem =>
      modify fun s => (s.fill mem 0).record (.alloc mem)
      if (← mappages pgdir a PGSIZE mem (PTE_W ||| PTE_U)) < 0 then
        let _ ← deallocuvm kend pgdir newsz oldsz
        kfree kend mem
        return 0
      else allocuvmLoop kend pgdir oldsz newsz as

def allocuvm (kend : ℕ) (pgdir : Frame) (oldsz newsz : Addr) : K Addr :=
  if KERNBASE ≤ newsz then return 0
  else if newsz < oldsz then return oldsz
  else allocuvmLoop kend pgdir oldsz newsz (pageAddrs (pgRoundUp oldsz) newsz)

/-- a new PML4 with the kernel's PDPT in slot 256 -/
def setupkvm (kpdpt : Frame) : K Frame := do
  match ← kalloc with
  | none => throw (.pageFault 0)  -- memset of the null pointer
  | some pml4 =>
    modify fun s => (s.fill pml4 0).store pml4 256 (mkPte kpdpt (PTE_P ||| PTE_W))
    return pml4

/-- the first n indices of a table -/
def firstIdx (n : ℕ) : List Idx := (List.range n).map (BitVec.ofNat 9)

/-- free a page that is n table levels above the user pages, with all that hangs below it: the loops of `freevm` over a
page table (n = 1), a page directory (n = 2) and a page directory pointer table (n = 3) -/
def freeLevel (kend : ℕ) : ℕ → Frame → K PUnit
  | 0, f => kfree kend f
  | n + 1, f => do
    forM (firstIdx 512) fun i => do
      let e := (← get).entry f i
      if e &&& PTE_P ≠ 0 then freeLevel kend n (pteFrame e) else return ()
    kfree kend f

def freevm (kend : ℕ) (pml4 : Frame) : K PUnit := do
  forM (firstIdx 256) fun i => do
    let e := (← get).entry pml4 i
    if e &&& PTE_P ≠ 0 then freeLevel kend 3 (pteFrame e) else return ()
  kfree kend pml4

def clearpteu (pgdir : Frame) (uva : Addr) : K PUnit := do
  match ← walkpgdir pgdir uva false with
  | none => throw (.panic .clearpteu)
  | some (pt, i) => modify fun s => s.store pt i (s.entry pt i &&& ~~~PTE_U)

/-! ## Entries -/

theorem Phys.entry_store (s : Phys) (f : Frame) (i : Idx) (e : Addr) : (s.store f i e).entry = set s.entry f i e := by
  funext g j
  by_cases hg : g = f
  · subst hg
    by_cases hj : j = i
    · subst hj
      rw [set_same, Phys.entry, Phys.store]
      simp only [Function.update_self, getLE_putLE]
      exact BitVec.eq_of_toNat_eq (by rw [BitVec.toNat_ofNat]; have := e.isLt; omega)
    · have hne : j.toNat ≠ i.toNat := fun h => hj (BitVec.eq_of_toNat_eq h)
      rw [set_other _ _ (fun _ => hj), Phys.entry, Phys.store]
      simp only [Function.update_self]
      rw [getLE_putLE_disjoint _ _ _ _ _ _ (by omega)]
      rfl
  · rw [set_other _ _ (fun h => absurd h hg), Phys.entry, Phys.store]
    simp only [Function.update_of_ne hg]
    rfl

theorem Phys.entry_fill (s : Phys) (g f : Frame) (i : Idx) :
    (s.fill g 0).entry f i = if f = g then 0 else s.entry f i := by
  by_cases h : f = g
  · subst h
    rw [if_pos rfl, Phys.entry, Phys.fill]
    simp only [Function.update_self, getLE_zero]
    rfl
  · rw [if_neg h, Phys.entry, Phys.fill]
    simp only [Function.update_of_ne h]
    rfl

/-! ## Allocation and lookup -/

section

variable {E : Fault → Phys → Prop} {s : Phys} {root f : Frame} {i : Idx} {va : Addr}

theorem wp_kalloc {Q : Option Frame → Phys → Prop} (hnone : s.free = [] → Q none s)
    (hsome : ∀ g rest, s.free = g :: rest → Q (some g) { s with free := rest }) : wp kalloc Q E s := by
  simp only [kalloc, wp_bind, wp_get]
  cases h : s.free with
  | nil => exact (wp_pure _ _).2 (hnone h)
  | cons g rest =>
    simp only [wp_bind, wp_modify, wp_pure]
    exact hsome g rest h

theorem wp_walkLevel_false {Q : Option Frame → Phys → Prop} :
    wp (walkLevel f i false) Q E s ↔ Q (child (s.entry f i)) s := by
  simp only [walkLevel, wp_bind, wp_get, child]
  by_cases h : s.entry f i &&& PTE_P ≠ 0
  · simp only [if_pos h, wp_pure]
  · simp only [if_neg h, if_true, wp_pure]

/-- a walk that must not allocate looks the page table up -/
theorem wp_walkpgdir_false {Q : Option (Frame × Idx) → Phys → Prop} :
    wp (walkpgdir root va false) Q E s ↔
      Q ((follow child s.entry root (dir va)).map fun pt => (pt, ptx va))
        (if (child (s.entry root (pmx va))).isSome then s.record (.walk (pmx va)) else s) := by
  simp only [walkpgdir, wp_bind, wp_walkLevel_false, dir, follow]
  cases h1 : child (s.entry root (pmx va)) with
  | none => simp
  | some pdp =>
    simp only [wp_bind, wp_modify, wp_walkLevel_false, Option.bind_some, Option.isSome_some, if_true]
    have hrec : ∀ f i, (s.record (.walk (pmx va))).entry f i = s.entry f i := fun _ _ => rfl
    simp only [hrec]
    cases h2 : child (s.entry pdp (pdpx va)) with
    | none => simp
    | some pd =>
      simp only [wp_bind, wp_walkLevel_false, Option.bind_some, hrec]
      cases h3 : child (s.entry pd (pdx va)) <;> simp

end

end Xv6.Vm
