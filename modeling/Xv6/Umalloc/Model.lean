/-
The user-space allocator (`umalloc.c`), the one of Kernighan and Ritchie.

Addresses are byte addresses and do not wrap; sizes are counted in headers of 16 bytes and are 32-bit numbers. The memory
is what can be read as a header at each address. The loops have fuel, and none says that it has run out.

`sbrk` is a parameter of every call: what it answers to a request may depend on everything that was obtained before.
`chunks` records what it gave, and `live` the blocks that `malloc` has returned and `free` has not got back; no step of the
code reads either. Between two calls the program writes into its blocks as it likes (`Act.write`).
-/
import Xv6.Core.Machine
import Xv6.Core.Tiling

namespace Xv6.Umalloc

open Xv6.Tiling

structure Header where
  ptr : ℕ
  size : ℕ
deriving DecidableEq

/-- sizeof(Header) -/
def HDR : ℕ := 16

/-- freep 0: the null pointer -/
structure Heap where
  mem : ℕ → Header
  freep : ℕ
  chunks : List Block

/-- p->s.ptr -/
def Heap.ptr (h : Heap) (p : ℕ) : ℕ := (h.mem p).ptr

/-- p->s.size -/
def Heap.size (h : Heap) (p : ℕ) : ℕ := (h.mem p).size

/-- p->s.ptr = q -/
def Heap.setPtr (h : Heap) (p q : ℕ) : Heap := { h with mem := Function.update h.mem p { h.mem p with ptr := q } }

/-- p->s.size = n -/
def Heap.setSize (h : Heap) (p n : ℕ) : Heap := { h with mem := Function.update h.mem p { h.mem p with size := n % 2 ^ 32 } }

/-! ## free -/

/-- the loop of `free`: the node after which the block goes -/
def freeLoop (h : Heap) (bp : ℕ) : ℕ → ℕ → Option ℕ
  | 0, _ => none
  | k + 1, p =>
    if bp > p ∧ bp < h.ptr p then some p
    else if p ≥ h.ptr p ∧ (bp > p ∨ bp < h.ptr p) then some p
    else freeLoop h bp k (h.ptr p)

/-- join to the upper neighbour -/
def joinUpper (h : Heap) (bp p : ℕ) : Heap :=
  if bp + HDR * h.size bp = h.ptr p then
    let h := h.setSize bp (h.size bp + h.size (h.ptr p))
    h.setPtr bp (h.ptr (h.ptr p))
  else h.setPtr bp (h.ptr p)

/-- join to the lower neighbour -/
def joinLower (h : Heap) (bp p : ℕ) : Heap :=
  if p + HDR * h.size p = bp then
    let h := h.setSize p (h.size p + h.size bp)
    h.setPtr p (h.ptr bp)
  else h.setPtr p bp

def free (fuel : ℕ) (h : Heap) (ap : ℕ) : Option Heap :=
  let bp := ap - HDR
  (freeLoop h bp fuel h.freep).map fun p => { joinLower (joinUpper h bp p) bp p with freep := p }

/-! ## malloc -/

/-- what `sbrk` answers to a request for units, when it has given chunks before -/
abbrev Sbrk := List Block → ℕ → Option ℕ

/-- the new heap and the pointer that is returned, 0 when there is no more memory -/
def morecore (sbrk : Sbrk) (fuel : ℕ) (h : Heap) (nu : ℕ) : Option (Heap × ℕ) :=
  let nu := if nu < 4096 then 4096 else nu
  match sbrk h.chunks nu with
  | none => some (h, 0)
  | some p =>
    let h := { h with chunks := (p, nu) :: h.chunks }
    (free fuel (h.setSize p nu) (p + HDR)).map fun h => (h, h.freep)

/-- the block at p, which is big enough, is taken out of the list, or its tail is cut off -/
def take (h : Heap) (nunits prevp p : ℕ) : Heap × ℕ :=
  if h.size p = nunits then ({ h.setPtr prevp (h.ptr p) with freep := prevp }, p + HDR)
  else
    let h := h.setSize p (h.size p - nunits)
    let p := p + HDR * h.size p
    ({ h.setSize p nunits with freep := prevp }, p + HDR)

def mallocLoop (sbrk : Sbrk) (nunits : ℕ) : ℕ → Heap → ℕ → ℕ → Option (Heap × ℕ)
  | 0, _, _, _ => none
  | k + 1, h, prevp, p =>
    if nunits ≤ h.size p then some (take h nunits prevp p)
    else if p = h.freep then
      match morecore sbrk k h nunits with
      | none => none
      | some (h, p) => if p = 0 then some (h, 0) else mallocLoop sbrk nunits k h p (h.ptr p)
    else mallocLoop sbrk nunits k h p (h.ptr p)

def units (nbytes : ℕ) : ℕ := ((nbytes + HDR - 1) / HDR + 1) % 2 ^ 32

/-- the list is made at the first call -/
def ready (base : ℕ) (h : Heap) : Heap :=
  if h.freep = 0 then { (h.setPtr base base).setSize base 0 with freep := base } else h

def malloc (base : ℕ) (sbrk : Sbrk) (fuel : ℕ) (h : Heap) (nbytes : ℕ) : Option (Heap × ℕ) :=
  let h := ready base h
  mallocLoop sbrk (units nbytes) fuel h h.freep (h.ptr h.freep)

/-! ## Runs -/

structure St where
  heap : Heap
  live : List Block

inductive Act where
  | malloc (nbytes : ℕ) (sbrk : Sbrk)
  | free (ap : ℕ)
  | write (mem : ℕ → Header)

/-- fresh memory above the static base and above all that was given before, fewer than 2^32 units in total -/
def Fresh (base : ℕ) (sbrk : Sbrk) : Prop := ∀ chunks nu p, sbrk chunks nu = some p →
  base + HDR ≤ p ∧ (∀ c ∈ chunks, c.1 + HDR * c.2 ≤ p) ∧ (chunks.map Prod.snd).sum + nu < 2 ^ 32

/-- what the program may do: calls with 32-bit numbers, a `free` of what is live, writes inside its blocks -/
inductive Next (base : ℕ) : St → Act → St → Prop where
  | malloc {s : St} {nbytes fuel ap : ℕ} {sbrk : Sbrk} {h : Heap} : nbytes < 2 ^ 32 → Fresh base sbrk →
      malloc base sbrk fuel s.heap nbytes = some (h, ap) → ap ≠ 0 →
      Next base s (.malloc nbytes sbrk) ⟨h, (ap - HDR, units nbytes) :: s.live⟩
  | fails {s : St} {nbytes fuel : ℕ} {sbrk : Sbrk} {h : Heap} : nbytes < 2 ^ 32 → Fresh base sbrk →
      malloc base sbrk fuel s.heap nbytes = some (h, 0) → Next base s (.malloc nbytes sbrk) ⟨h, s.live⟩
  | free {s : St} {fuel : ℕ} {b : Block} {h : Heap} : b ∈ s.live → free fuel s.heap (b.1 + HDR) = some h →
      Next base s (.free (b.1 + HDR)) ⟨h, s.live.erase b⟩
  | write {s : St} {mem : ℕ → Header} :
      (∀ x, (∀ b ∈ s.live, ¬ (b.1 < x ∧ x < b.1 + HDR * b.2)) → mem x = s.heap.mem x) →
      Next base s (.write mem) ⟨{ s.heap with mem := mem }, s.live⟩

/-- at first there is no list and no memory -/
def machine (base : ℕ) : Machine St Act where
  init s := s.heap.freep = 0 ∧ s.heap.chunks = [] ∧ s.live = []
  next := Next base

end Xv6.Umalloc
