/-
What `exec` does with an arbitrary file.

`verdict` is the pass over the program headers in the abstract: it reads the headers, keeps the size of the image and
counts the pages it takes, and says whether `exec` gives the file up, loads it, faults, or copies file bytes through a
PTE that is not present. Page 0 is never mapped, so a segment at address 0 with file bytes is the case that goes wrong;
`exec` goes on after it, and `headersSize` and `headersImage` say what it comes to.
- `loadHeaders_spec`: the loop over the headers does what `verdict` says, and leaves the image of that size;
- `loadImage_spec`: so does `exec` up to its arguments, or every page has been given back;
- `exec_on_any_file`: `exec` returns and writes only pages of the new image exactly when the verdict says so.
A header that asks for memory between 2^47 and KERNBASE makes `allocuvm` run into the kernel's slot (`Xv6.Vm.UserHalf`);
the verdict of such a file is `wild`.
-/
import Xv6.Exec.Image

namespace Xv6.Exec

open Xv6.Bytes Xv6.Vm Xv6.Wp Xv6.Radix

variable {kend : ℕ} {root : Frame} {hand : Frame → Prop} {s0 s t : Phys} {sz : Addr} {ip : File} {img : Store} {pages : ℕ}

/-! ## What the code adds to the record -/

theorem pgRoundUp_aligned (a : Addr) : (pgRoundUp a).toNat % 4096 = 0 := by
  rw [show pgRoundUp a = pgRoundDown (a + (PGSIZE - 1)) from rfl, pgRoundDown_toNat, Nat.mul_mod_left]

theorem walks_allocuvm (oldsz newsz : Addr) : WalksIn (fun _ => True) (allocuvm kend root oldsz newsz) := by
  refine Within.ite (Within.pure _) (Within.ite (Within.pure _) ?_)
  refine (walks_allocuvmLoop _ (fun a ha => ?_) fun _ ha => ha).mono fun _ _ => trivial
  obtain ⟨k, hk, -⟩ := mem_pageAddrs.1 ha
  have := pgRoundUp_aligned oldsz
  omega

theorem walks_lookup (va : Addr) : WalksIn (fun _ => True) (walkpgdir root va false) :=
  (walks_walkpgdir va false).mono fun _ _ => trivial

theorem walks_copyIn (pte : Addr) (bytes : List Byte) :
    WalksIn (fun _ => True) (modify fun s : Phys => copyIn s pte bytes : K PUnit) := fun s => by
  rw [wp_modify, copyIn]
  split_ifs
  · exact Walks.of_trace rfl
  · exact ⟨[.load (pteFrame pte) _], rfl, fun _ _ => trivial⟩

theorem walks_loaduvmLoop (addr : Addr) (offset n : UInt) (rounds : ℕ) (i : UInt) :
    WalksIn (fun _ => True) (loaduvmLoop root addr ip offset n rounds i) := by
  induction rounds generalizing i with
  | zero => exact Within.throw nofun
  | succ rounds ih =>
    refine Within.ite (Within.pure _) ((walks_lookup _).bind fun r => ?_)
    cases r with
    | none => exact WalksIn.panic _
    | some x =>
      refine Within.get.bind fun s => ?_
      dsimp only
      cases ip.readi (offset + i) (if n - i < 4096 then n - i else 4096) with
      | none => exact Within.pure _
      | some bytes => exact (walks_copyIn _ _).bind fun _ => Within.ite (Within.pure _) (ih _)

theorem walks_loaduvm (addr : Addr) (offset n : UInt) : WalksIn (fun _ => True) (loaduvm root addr ip offset n) :=
  Within.ite (WalksIn.panic _) (walks_loaduvmLoop _ _ _ _ _)

theorem walks_loadHeaders (n : ℕ) (off : UInt) (sz : Addr) : WalksIn (fun _ => True) (loadHeaders kend root ip n off sz) := by
  induction n generalizing off sz with
  | zero => exact Within.pure _
  | succ n ih =>
    rw [loadHeaders]
    cases (ip.readAll off sizeofProgHdr).map ProgHdr.decode with
    | none => exact Within.pure _
    | some ph =>
      refine Within.ite (ih _ _) (Within.ite (Within.pure _) (Within.ite (Within.pure _) ?_))
      refine (walks_allocuvm _ _).bind fun _ => Within.ite (Within.pure _) (Within.ite (Within.pure _) ?_)
      exact (walks_loaduvm _ _ _).bind fun _ => Within.ite (Within.pure _) (ih _ _)

theorem walks_freeLevel (n : ℕ) (f : Frame) : WalksIn (fun _ => True) (freeLevel kend n f) := by
  induction n generalizing f with
  | zero => exact walks_kfree f
  | succ n ih =>
    rw [freeLevel]
    generalize firstIdx 512 = l
    exact Within.bind (Within.forM fun _ _ => Within.get.bind fun _ => Within.ite (ih _) (Within.pure _))
      fun _ => walks_kfree f

theorem walks_freevm : WalksIn (fun _ => True) (freevm kend root) := by
  rw [freevm]
  generalize firstIdx 256 = l
  exact Within.bind (Within.forM fun _ _ => Within.get.bind fun _ => Within.ite (walks_freeLevel _ _) (Within.pure _))
    fun _ => walks_kfree root

/-! ## The verdict on a file -/

/-- what a file comes to: `exec` gives it up, builds an image of some size, faults, copies bytes through a PTE that is
not present, or asks for memory past 2^47 -/
inductive Verdict where
  | bad
  | image (sz : Addr)
  | fault (e : Fault)
  | strays
  | wild
deriving DecidableEq

/-- the verdict on loading the file bytes of a header into an image of size sz -/
def loadVerdict (ip : File) (sz : Addr) (ph : ProgHdr) : Verdict :=
  if ph.vaddr = 0 ∧ ph.filesz.setWidth 32 ≠ (0 : UInt) then
    if sz.toNat ≤ 4096 then .fault (.panic .loaduvmExist)
    else if (ph.off.setWidth 32 : UInt).toNat < ip.size then .strays
    else .bad
  else if ip.Holds (ph.off.setWidth 32) (ph.filesz.setWidth 32) then .image sz
  else .bad

/-- the verdict on one LOAD header of an image of size sz; `image` is its new size -/
def segmentVerdict (ip : File) (pages : ℕ) (sz : Addr) (ph : ProgHdr) : Verdict :=
  let top := ph.vaddr + ph.memsz
  let newsz := if top < sz then sz else top
  if ph.memsz < ph.filesz ∨ top < ph.vaddr ∨ KERNBASE ≤ top then .bad
  else if 2 ^ 47 < top.toNat then .wild
  else if pages < imagePages newsz.toNat ∨ ph.vaddr % PGSIZE ≠ 0 then .bad
  else loadVerdict ip newsz ph

/-- the verdict on the n program headers from offset off on, with `pages` pages of memory for the whole image -/
def headersVerdict (ip : File) (pages : ℕ) : ℕ → UInt → Addr → Verdict
  | 0, _, sz => .image sz
  | n + 1, off, sz =>
    match (ip.readAll off sizeofProgHdr).map ProgHdr.decode with
    | none => .bad
    | some ph =>
      if ph.type ≠ ELF_PROG_LOAD then headersVerdict ip pages n (off + 56) sz
      else
        match segmentVerdict ip pages sz ph with
        | .image newsz => headersVerdict ip pages n (off + 56) newsz
        | v => v

/-- the verdict on a file when `free` pages are free -/
def verdict (ip : File) (free : ℕ) : Verdict :=
  match ip.header with
  | none => .bad
  | some elf =>
    if free = 0 then .fault (.pageFault 0)
    else headersVerdict ip (free - 1) elf.phnum.toNat (elf.phoff.setWidth 32) PGSIZE

/-! ## The image a file comes to -/

/-- the size of the image after a LOAD header, if `exec` accepts the header and `pages` pages are enough -/
def segmentSize (ip : File) (pages : ℕ) (sz : Addr) (ph : ProgHdr) : Option Addr :=
  let top := ph.vaddr + ph.memsz
  let newsz := if top < sz then sz else top
  if ph.memsz < ph.filesz ∨ top < ph.vaddr ∨ KERNBASE ≤ top ∨ pages < imagePages newsz.toNat ∨ ph.vaddr % PGSIZE ≠ 0 ∨
      ¬ ip.Holds (ph.off.setWidth 32) (ph.filesz.setWidth 32) then none
  else some newsz

/-- the size of the image after n headers from offset off on -/
def headersSize (ip : File) (pages : ℕ) : ℕ → UInt → Addr → Option Addr
  | 0, _, sz => some sz
  | n + 1, off, sz =>
    match (ip.readAll off sizeofProgHdr).map ProgHdr.decode with
    | none => none
    | some ph =>
      if ph.type ≠ ELF_PROG_LOAD then headersSize ip pages n (off + 56) sz
      else
        match segmentSize ip pages sz ph with
        | none => none
        | some newsz => headersSize ip pages n (off + 56) newsz

/-- the bytes of the image after them -/
def headersImage (ip : File) : ℕ → UInt → Store → Store
  | 0, _, img => img
  | n + 1, off, img =>
    match (ip.readAll off sizeofProgHdr).map ProgHdr.decode with
    | none => img
    | some ph =>
      if ph.type ≠ ELF_PROG_LOAD then headersImage ip n (off + 56) img
      else headersImage ip n (off + 56)
        (blit img ph.vaddr.toNat (ip.segment (ph.off.setWidth 32) (ph.filesz.setWidth 32 : UInt).toNat))

/-- a LOAD header that asks `allocuvm` for memory between 2^47 and KERNBASE -/
def ProgHdr.Wild (ph : ProgHdr) : Prop :=
  ¬ ph.memsz < ph.filesz ∧ ¬ ph.vaddr + ph.memsz < ph.vaddr ∧ ¬ KERNBASE ≤ ph.vaddr + ph.memsz ∧
    2 ^ 47 < (ph.vaddr + ph.memsz).toNat

instance (ph : ProgHdr) : Decidable ph.Wild := inferInstanceAs (Decidable (_ ∧ _))

/-- one of the n headers from offset off on is such a header, and `exec` gets to it -/
def headersWild (ip : File) (pages : ℕ) : ℕ → UInt → Addr → Bool
  | 0, _, _ => false
  | n + 1, off, sz =>
    match (ip.readAll off sizeofProgHdr).map ProgHdr.decode with
    | none => false
    | some ph =>
      if ph.type ≠ ELF_PROG_LOAD then headersWild ip pages n (off + 56) sz
      else if ph.Wild then true
      else
        match segmentSize ip pages sz ph with
        | none => false
        | some newsz => headersWild ip pages n (off + 56) newsz

/-- the size of the image, if the file is accepted and `pages` pages are enough for it -/
def File.imageSize (ip : File) (pages : ℕ) : Option Addr :=
  match ip.header with
  | none => none
  | some elf =>
    match headersSize ip pages elf.phnum.toNat (elf.phoff.setWidth 32) PGSIZE with
    | none => none
    | some sz =>
      let newsz := pgRoundUp sz + 2 * PGSIZE
      if pages < imagePages newsz.toNat then none else some newsz

/-- the bytes of the image before the arguments are pushed -/
def File.image (ip : File) : Store :=
  match ip.header with
  | none => fun _ => 0
  | some elf => headersImage ip elf.phnum.toNat (elf.phoff.setWidth 32) fun _ => 0

/-- `exec` gets to a header that asks for memory between 2^47 and KERNBASE -/
def File.wild (ip : File) (pages : ℕ) : Bool :=
  match ip.header with
  | none => false
  | some elf => headersWild ip pages elf.phnum.toNat (elf.phoff.setWidth 32) PGSIZE

/-! ## The code does what the verdict says -/

/-- the record after a return that fits the verdict -/
def Traced (s0 : Phys) (v : Verdict) (t : Phys) : Prop :=
  match v with
  | .bad | .image _ => Clean s0 t
  | .fault _ => False
  | .strays => Strayed s0 t
  | .wild => True

theorem Traced.quiet {v : Verdict} (h : Traced s0 v s) (hq : Quiet s t) : Traced s0 v t := by
  cases v with
  | bad | image sz => exact Clean.quiet h hq
  | fault e => exact h
  | strays => exact Strayed.quiet h hq
  | wild => trivial

/-- a fault that fits the verdict -/
def Faulted (s0 : Phys) (v : Verdict) (e : Fault) (t : Phys) : Prop :=
  match v with
  | .fault e' => e = e'
  | .strays => Strayed s0 t
  | .wild => True
  | _ => False

/-- after a verdict that is not to give the file up or to build an image, whatever comes fits it -/
theorem Traced.append {v : Verdict} {k : List Event} (h : Traced s0 v s) (hbad : v ≠ .bad) (himage : ¬ ∃ sz, v = .image sz)
    (hk : t.trace = s.trace ++ k) : Traced s0 v t ∧ ∀ e, Faulted s0 v e t := by
  cases v with
  | bad => exact absurd rfl hbad
  | image sz => exact absurd ⟨sz, rfl⟩ himage
  | fault e => exact h.elim
  | strays => exact ⟨Strayed.append h hk, fun _ => Strayed.append h hk⟩
  | wild => exact ⟨trivial, fun _ => trivial⟩

/-- what the loop over the headers leaves: the image of the size, or a page table that can be freed, unless a wild header
has been there -/
structure Passed (kend : ℕ) (root : Frame) (hand : Frame → Prop) (s0 : Phys) (pages : ℕ) (size : Option Addr) (img : Store)
    (wild : Bool) (v : Verdict) (r : Option Addr) (t : Phys) : Prop where
  result : r = size
  built : ∀ sz, r = some sz → Built kend root hand s0 pages sz img t
  given : wild = false ∨ v = .bad ∨ (∃ sz, v = .image sz) → Given kend root hand s0 t

/-- a way out by `goto bad` -/
theorem Passed.bad {wild : Bool} {v : Verdict} (h : Given kend root hand s0 t) :
    Passed kend root hand s0 pages none img wild v none t := ⟨rfl, by simp, fun _ => h⟩

/-- the file bytes of a segment lie below the new size -/
theorem ProgHdr.fits {ph : ProgHdr} (hfile : ¬ ph.memsz < ph.filesz) (hwrap : ¬ ph.vaddr + ph.memsz < ph.vaddr) (sz : Addr) :
    ph.vaddr.toNat + (ph.filesz.setWidth 32 : UInt).toNat ≤
      (if ph.vaddr + ph.memsz < sz then sz else ph.vaddr + ph.memsz).toNat := by
  have hsum : (ph.vaddr + ph.memsz).toNat = ph.vaddr.toNat + ph.memsz.toNat := by
    rw [BitVec.lt_def, BitVec.toNat_add] at hwrap
    rw [BitVec.toNat_add]
    have := ph.vaddr.isLt
    have := ph.memsz.isLt
    omega
  have hfit : (ph.filesz.setWidth 32 : UInt).toNat ≤ ph.memsz.toNat := by
    rw [BitVec.lt_def] at hfile
    rw [BitVec.toNat_setWidth]
    exact (Nat.mod_le _ _).trans (by omega)
  split_ifs with hlt
  · rw [BitVec.lt_def] at hlt
    omega
  · omega

/-- the file bytes of a segment at address 0 go astray, if there are any and a table to look them up -/
theorem loadVerdict_eq {ph : ProgHdr} (h : ¬ ((ph.filesz.setWidth 32 : UInt) ≠ 0 ∧ ph.vaddr = 0 ∧ sz.toNat ≤ 4096)) :
    loadVerdict ip sz ph = if ph.vaddr = 0 ∧ ip.segment (ph.off.setWidth 32) (ph.filesz.setWidth 32 : UInt).toNat ≠ [] then .strays
      else if ip.Holds (ph.off.setWidth 32) (ph.filesz.setWidth 32) then .image sz else .bad := by
  rw [loadVerdict]
  generalize (ph.filesz.setWidth 32 : UInt) = n at h ⊢
  generalize (ph.off.setWidth 32 : UInt) = off
  have hn : n = 0 ↔ n.toNat = 0 := by rw [← BitVec.toNat_inj]; rfl
  have hnil : ip.segment off n.toNat = [] ↔ n.toNat = 0 ∨ ip.size ≤ off.toNat := by
    rw [← List.length_eq_zero_iff, File.length_segment]
    omega
  by_cases hzero : ph.vaddr = 0 ∧ n ≠ 0
  · have hpos : n.toNat ≠ 0 := fun hc => hzero.2 (hn.2 hc)
    rw [if_pos hzero, if_neg fun hc => h ⟨hzero.2, hzero.1, hc⟩]
    by_cases hoff : off.toNat < ip.size
    · rw [if_pos hoff, if_pos ⟨hzero.1, fun hc => (hnil.1 hc).elim hpos (Nat.not_le.2 hoff)⟩]
    · rw [if_neg hoff, if_neg fun hc => hc.2 (hnil.2 (.inr (Nat.not_lt.1 hoff))), if_neg]
      rintro (hc | hc)
      · exact hzero.2 hc
      · omega
  · have hnone : ¬ (ph.vaddr = 0 ∧ ip.segment off n.toNat ≠ []) := fun hc =>
      hzero ⟨hc.1, fun h0 => hc.2 (hnil.2 (.inl (hn.1 h0)))⟩
    rw [if_neg hzero, if_neg hnone]

/-- x, run from t, leaves what the headers come to; the record is known if it was clean at s -/
def Follows (kend : ℕ) (root : Frame) (hand : Frame → Prop) (s0 : Phys) (pages : ℕ) (size : Option Addr) (img : Store)
    (wild : Bool) (v : Verdict) (x : K (Option Addr)) (s t : Phys) : Prop :=
  wp x (fun r u => Passed kend root hand s0 pages size img wild v r u ∧ (Clean s0 s → Traced s0 v u))
    (fun e u => Clean s0 s → Faulted s0 v e u) t

section

variable {ph : ProgHdr} {next : Addr → K (Option Addr)} {size : Addr → Option Addr} {wild : Addr → Bool} {v : Addr → Verdict}
  {img' : Store} (hk : 0 < kend) (hwalks : ∀ newsz, WalksIn (fun _ => True) (next newsz))
  (hnext : ∀ newsz t, Built kend root hand s0 pages newsz
      (blit img ph.vaddr.toNat (ip.segment (ph.off.setWidth 32) (ph.filesz.setWidth 32 : UInt).toNat)) t →
    Follows kend root hand s0 pages (size newsz) img' (wild newsz) (v newsz) (next newsz) t t)
include hk hwalks hnext

/-- the file bytes of a LOAD header, followed by whatever the loop does next -/
theorem Built.follows_bytes (h : Built kend root hand s0 pages sz img t) (hclean : Clean s0 s → Clean s0 t)
    (halign : ph.vaddr % PGSIZE = 0) (htop : ph.vaddr.toNat + (ph.filesz.setWidth 32 : UInt).toNat ≤ sz.toNat) :
    Follows kend root hand s0 pages (if ip.Holds (ph.off.setWidth 32) (ph.filesz.setWidth 32) then size sz else none) img'
      (if ip.Holds (ph.off.setWidth 32) (ph.filesz.setWidth 32) then wild sz else false)
      (match loadVerdict ip sz ph with | .image newsz => v newsz | v => v)
      (do
        if (← Exec.loaduvm root ph.vaddr ip (ph.off.setWidth 32) (ph.filesz.setWidth 32)) < 0 then return none
        else next sz) s t := by
  rw [Follows, wp_bind]
  by_cases hzero : (ph.filesz.setWidth 32 : UInt) ≠ 0 ∧ ph.vaddr = 0 ∧ sz.toNat ≤ 4096
  · have hfault : loadVerdict ip sz ph = .fault (.panic .loaduvmExist) := by
      rw [loadVerdict, if_pos ⟨hzero.2.1, hzero.1⟩, if_pos hzero.2.2]
    rw [hfault, hzero.2.1]
    exact wp_mono (loaduvm_zero_panics hzero.1 h.space hzero.2.2) (fun _ _ hf => hf.elim) (fun _ _ he _ => he)
  rw [loadVerdict_eq hzero]
  refine wp_safe (h.loaduvm hk halign htop fun hn hv => ?_) ?_
  · by_contra hc
    exact hzero ⟨hn, BitVec.eq_of_toNat_eq hv, Nat.not_lt.1 hc⟩
  rintro x u ⟨rfl, hbuilt, hloads⟩
  by_cases hstray : ph.vaddr = 0 ∧ ip.segment (ph.off.setWidth 32) (ph.filesz.setWidth 32 : UInt).toNat ≠ []
  · -- the loop goes on, and the stray load stays in the record
    have hstrayed : Clean s0 s → Strayed s0 u := fun hc => (hloads (hclean hc)).1 hstray
    rw [if_pos hstray]
    by_cases hholds : ip.Holds (ph.off.setWidth 32) (ph.filesz.setWidth 32)
    · simp only [if_pos hholds]
      rw [if_neg (by decide)]
      refine wp_mono (wp_and (hnext sz u hbuilt) (hwalks sz u)) ?_ ?_
      · rintro r w ⟨⟨hpassed, -⟩, l, hl, -⟩
        exact ⟨⟨hpassed.result, hpassed.built, fun hc => hpassed.given (.inl (by simpa using hc))⟩,
          fun hc => (hstrayed hc).append hl⟩
      · rintro e w ⟨-, ⟨l, hl, -⟩, -⟩ hc
        exact (hstrayed hc).append hl
    · simp only [if_neg hholds]
      rw [if_pos (by decide)]
      exact wp_return ⟨.bad hbuilt.given, hstrayed⟩
  · have hclean' : Clean s0 s → Clean s0 u := fun hc => (hloads (hclean hc)).2 hstray
    rw [if_neg hstray]
    by_cases hholds : ip.Holds (ph.off.setWidth 32) (ph.filesz.setWidth 32)
    · simp only [if_pos hholds]
      rw [if_neg (by decide)]
      exact wp_mono (hnext sz u hbuilt) (fun _ _ hw => ⟨hw.1, fun hc => hw.2 (hclean' hc)⟩) (fun _ _ hw hc => hw (hclean' hc))
    · simp only [if_neg hholds]
      rw [if_pos (by decide)]
      exact wp_return ⟨.bad hbuilt.given, hclean'⟩

/-- one LOAD header, followed by whatever the loop does next -/
theorem Built.follows_segment (hpages : pages ≤ 57344) (h : Built kend root hand s0 pages sz img s)
    (hfile : ¬ ph.memsz < ph.filesz) (hwrap : ¬ ph.vaddr + ph.memsz < ph.vaddr) :
    Follows kend root hand s0 pages (match segmentSize ip pages sz ph with | none => none | some newsz => size newsz) img'
      (if ph.Wild then true else match segmentSize ip pages sz ph with | none => false | some newsz => wild newsz)
      (match segmentVerdict ip pages sz ph with | .image newsz => v newsz | v => v)
      (do
        let sz ← Vm.allocuvm kend root sz (ph.vaddr + ph.memsz)
        if sz = 0 then return none
        else if ph.vaddr % PGSIZE ≠ 0 then return none
        else if (← Exec.loaduvm root ph.vaddr ip (ph.off.setWidth 32) (ph.filesz.setWidth 32)) < 0 then return none
        else next sz) s s := by
  rw [Follows, wp_bind]
  by_cases hkern : KERNBASE ≤ ph.vaddr + ph.memsz
  · -- refused by allocuvm
    have hsize : segmentSize ip pages sz ph = none := if_pos (.inr (.inr (.inl hkern)))
    have hbad : segmentVerdict ip pages sz ph = .bad := if_pos (.inr (.inr hkern))
    rw [hsize, hbad, Vm.allocuvm, if_pos hkern, wp_pure, if_pos rfl]
    exact wp_return ⟨.bad h.given, fun hc => hc⟩
  have hseg : segmentVerdict ip pages sz ph = if 2 ^ 47 < (ph.vaddr + ph.memsz).toNat then .wild
      else if pages < imagePages (if ph.vaddr + ph.memsz < sz then sz else ph.vaddr + ph.memsz).toNat ∨
        ph.vaddr % PGSIZE ≠ 0 then .bad
      else loadVerdict ip (if ph.vaddr + ph.memsz < sz then sz else ph.vaddr + ph.memsz) ph :=
    if_neg (not_or.2 ⟨hfile, not_or.2 ⟨hwrap, hkern⟩⟩)
  by_cases hhigh : 2 ^ 47 < (ph.vaddr + ph.memsz).toNat
  · have hsize : segmentSize ip pages sz ph = none := by
      have hge : 2 ^ 47 < (if ph.vaddr + ph.memsz < sz then sz else ph.vaddr + ph.memsz).toNat := by
        split_ifs with hlt
        · rw [BitVec.lt_def] at hlt
          omega
        · exact hhigh
      have := le_imagePages (if ph.vaddr + ph.memsz < sz then sz else ph.vaddr + ph.memsz).toNat
      exact if_pos (.inr (.inr (.inr (.inl (by omega)))))
    rw [hsize, hseg, if_pos hhigh, if_pos ⟨hfile, hwrap, hkern, hhigh⟩]
    refine wp_mono (allocuvm_short h.space (h.bound hpages) hhigh) ?_ (fun _ _ _ _ => trivial)
    rintro r t rfl
    rw [if_pos rfl]
    exact wp_return ⟨⟨rfl, by simp, by simp⟩, fun _ => trivial⟩
  have htame : ¬ ph.Wild := fun hc => hhigh hc.2.2.2
  rw [if_neg htame, hseg, if_neg hhigh]
  refine wp_safe (h.allocuvm hk (Nat.not_lt.1 hhigh)) ?_
  rintro r t ⟨hquiet, ⟨rfl, hfew, ht⟩ | ⟨hr, hsz, hmem, ht⟩⟩
  · have hsize : segmentSize ip pages sz ph = none := if_pos (.inr (.inr (.inr (.inl hfew))))
    rw [if_pos rfl, hsize, if_pos (.inl hfew)]
    exact wp_return ⟨.bad ht, fun hc => hc.quiet hquiet⟩
  have hsize : segmentSize ip pages sz ph = if ph.vaddr % PGSIZE ≠ 0 ∨
      ¬ ip.Holds (ph.off.setWidth 32) (ph.filesz.setWidth 32) then none else some r := by
    rw [segmentSize, ← hsz]
    simp only [hfile, hwrap, hkern, hmem, false_or]
  rw [if_neg hr, hsize, ← hsz]
  by_cases halign : ph.vaddr % PGSIZE ≠ 0
  · rw [if_pos halign, if_pos (.inl halign), if_pos (.inr halign)]
    exact wp_return ⟨.bad ht.given, fun hc => hc.quiet hquiet⟩
  have hshort : ¬ (pages < imagePages r.toNat ∨ ph.vaddr % PGSIZE ≠ 0) := not_or.2 ⟨hmem, halign⟩
  have hbytes := ht.follows_bytes hk hwalks hnext (fun hc => hc.quiet hquiet) (not_not.1 halign)
    (hsz ▸ ProgHdr.fits hfile hwrap sz)
  rw [if_neg halign, if_neg hshort]
  by_cases hholds : ip.Holds (ph.off.setWidth 32) (ph.filesz.setWidth 32)
  · rw [if_pos hholds, if_pos hholds] at hbytes
    rw [if_neg (not_or.2 ⟨halign, not_not.2 hholds⟩)]
    exact hbytes
  · rw [if_neg hholds, if_neg hholds] at hbytes
    rw [if_pos (.inr hholds)]
    exact hbytes

end

/-- **The loop over the program headers.** -/
theorem loadHeaders_spec (hk : 0 < kend) (hpages : pages ≤ 57344) (n : ℕ) (off : UInt)
    (h : Built kend root hand s0 pages sz img s) :
    Follows kend root hand s0 pages (headersSize ip pages n off sz) (headersImage ip n off img) (headersWild ip pages n off sz)
      (headersVerdict ip pages n off sz) (loadHeaders kend root ip n off sz) s s := by
  induction n generalizing off sz img s with
  | zero => exact wp_return ⟨⟨rfl, fun sz' hr => Option.some.inj hr ▸ h, fun _ => h.given⟩, fun hc => hc⟩
  | succ n ih =>
    rw [loadHeaders, headersSize, headersImage, headersWild, headersVerdict]
    cases (ip.readAll off sizeofProgHdr).map ProgHdr.decode with
    | none => exact wp_return ⟨.bad h.given, fun hc => hc⟩
    | some ph =>
      by_cases htype : ph.type ≠ ELF_PROG_LOAD
      · simp only [if_pos htype]
        exact ih (off + 56) h
      simp only [if_neg htype]
      by_cases hfile : ph.memsz < ph.filesz
      · have hsize : segmentSize ip pages sz ph = none := if_pos (.inl hfile)
        have hbad : segmentVerdict ip pages sz ph = .bad := if_pos (.inl hfile)
        rw [if_pos hfile, hsize, hbad]
        exact wp_return ⟨.bad h.given, fun hc => hc⟩
      by_cases hwrap : ph.vaddr + ph.memsz < ph.vaddr
      · have hsize : segmentSize ip pages sz ph = none := if_pos (.inr (.inl hwrap))
        have hbad : segmentVerdict ip pages sz ph = .bad := if_pos (.inr (.inl hwrap))
        rw [if_neg hfile, if_pos hwrap, hsize, hbad]
        exact wp_return ⟨.bad h.given, fun hc => hc⟩
      rw [if_neg hfile, if_neg hwrap]
      exact h.follows_segment hk (fun newsz => walks_loadHeaders n (off + 56) newsz) (fun newsz t ht => ih (off + 56) ht) hpages
        hfile hwrap

/-! ## The whole file -/

/-- **`exec` up to its arguments** does what the verdict says; the new image is complete, or every page has been given
back. -/
theorem loadImage_spec (hk : 0 < kend) (h : Allocator kend hand s) (kpdpt : Frame) (ip : File) :
    wp (loadImage kend kpdpt ip)
      (fun r t => (r.map Image.sz = ip.imageSize (s.free.length - 1) ∧
        (r = none → ip.wild (s.free.length - 1) = false → Restored hand s t) ∧
        ∀ im, r = some im → Finished kend im.pgdir hand s im.sz ip.image t) ∧ Traced s (verdict ip s.free.length) t)
      (Faulted s (verdict ip s.free.length)) s := by
  have hclean : Clean s s := ⟨[], (List.append_nil _).symm, LoadsOk.nil⟩
  rw [loadImage, wp_bind, loadProgram, verdict, File.imageSize, File.wild, File.image]
  cases ip.header with
  | none => exact wp_return (wp_return ⟨⟨rfl, fun _ _ => Restored.refl _ _, by simp⟩, hclean⟩)
  | some elf =>
    dsimp only
    rw [wp_bind]
    refine wp_mono (Built.new h kpdpt) ?_ ?_
    swap
    · rintro e t ⟨rfl, -, hnil⟩
      rw [if_pos (by rw [hnil]; rfl)]
      rfl
    rintro root t ⟨hbuilt, hne, htr⟩
    have hbound := hbuilt.space.inv.free_bound
    have hpages : s.free.length - 1 ≤ 57344 := by rw [← hbuilt.count]; exact hbound
    rw [if_neg fun hc => hne (List.length_eq_zero_iff.1 hc), wp_bind]
    refine wp_mono (loadHeaders_spec hk hpages _ _ hbuilt) ?_ (fun e u hu => hu (hclean.quiet (Quiet.of_eq htr)))
    rintro r u ⟨⟨rfl, hbuilt, hgiven⟩, htraced⟩
    have htraced := htraced (hclean.quiet (Quiet.of_eq htr))
    generalize headersVerdict ip (s.free.length - 1) elf.phnum.toNat (elf.phoff.setWidth 32) PGSIZE = v at hgiven htraced ⊢
    cases hsize : headersSize ip (s.free.length - 1) elf.phnum.toNat (elf.phoff.setWidth 32) PGSIZE with
    | none =>
      dsimp only
      rw [wp_bind]
      by_cases hfreed : headersWild ip (s.free.length - 1) elf.phnum.toNat (elf.phoff.setWidth 32) PGSIZE = false ∨
          v = .bad ∨ ∃ sz, v = .image sz
      · refine wp_safe ((hgiven hfreed).freevm h) ?_
        rintro _ w ⟨hw, hquiet⟩
        exact wp_return (wp_return ⟨⟨rfl, fun _ _ => hw, by simp⟩, htraced.quiet (Quiet.of_eq hquiet)⟩)
      · -- after a wild header nothing is known of the new page table
        obtain ⟨hwild, hbad, himage⟩ := not_or.1 hfreed |>.imp_right not_or.1
        refine wp_mono (walks_freevm u) ?_ ?_
        · rintro _ w ⟨l, hl, -⟩
          exact wp_return (wp_return ⟨⟨rfl, fun _ hc => absurd hc hwild, by simp⟩, (htraced.append hbad himage hl).1⟩)
        · rintro e w ⟨⟨l, hl, -⟩, -⟩
          exact (htraced.append hbad himage hl).2 e
    | some sz =>
      dsimp only
      refine wp_return ?_
      dsimp only
      rw [loadStack, wp_bind]
      refine wp_safe ((hbuilt sz hsize).stackPages hk hpages) ?_
      rintro r w ⟨hquiet, hgiven, hfin, hr⟩
      by_cases hshort : s.free.length - 1 < imagePages (pgRoundUp sz + 2 * PGSIZE).toNat
      · rw [if_pos hshort] at hr ⊢
        subst hr
        dsimp only
        rw [wp_bind]
        refine wp_safe (hgiven.freevm h) ?_
        rintro _ x ⟨hx, hquiet'⟩
        exact wp_return ⟨⟨rfl, fun _ _ => hx, by simp⟩, htraced.quiet (hquiet.trans (Quiet.of_eq hquiet'))⟩
      · rw [if_neg hshort] at hr ⊢
        subst hr
        refine wp_return ⟨⟨rfl, by simp, fun im him => ?_⟩, htraced.quiet hquiet⟩
        cases him
        exact hfin _ rfl

theorem loadImage_verdict (hk : 0 < kend) (h : Allocator kend hand s) (kpdpt : Frame) (ip : File) :
    wp (loadImage kend kpdpt ip) (fun _ t => Traced s (verdict ip s.free.length) t) (Faulted s (verdict ip s.free.length)) s :=
  wp_imp (loadImage_spec hk h kpdpt ip) fun _ _ ht => ht.2

/-- an executable of 120 bytes with one LOAD header, whose segment starts at file offset 0 -/
def oneSegment (vaddr filesz memsz : ℕ) : File where
  data := (List.range 120).map <|
    putLE (putLE (putLE (putLE (putLE (putLE (putLE (fun _ => 0) 0 4 0x464C457F) 32 8 64) 56 2 1) 64 4 1) 80 8 vaddr)
      96 8 filesz) 104 8 memsz
  bound := by rw [List.length_map, List.length_range]; decide

theorem allocator_blank {kend : ℕ} {free : List Frame} (hnd : free.Nodup) (hus : ∀ f ∈ free, Usable kend f) :
    Allocator kend (fun _ => False) (blank free) :=
  ⟨hnd, fun _ hf => hf.elim, fun f hf => hf.elim (hus f) False.elim⟩

end Xv6.Exec
