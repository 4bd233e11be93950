/-
The argument area of a new image.

The stack is one page with a guard page below it. A string that does not fit in the stack page runs into the guard, or
starts in a page of the program or in page 0, and `copyout` returns -1 in each case. A string longer than the stack
pointer itself makes the pointer wrap: the address then lies in the last PML4 slot, which has no tables, and `uva2ka`
reads through the null pointer that `walkpgdir` returns.
- `copyout_stack`: a copy inside the stack page succeeds;
- `copyout_guard`: a copy that starts below the stack page and reaches the guard returns -1;
- `copyout_wrapped`: a copy to an address of the last slot faults;
- `exec_arguments`: pushing the arguments ends by a return exactly when no string is longer than the stack pointer it
  is pushed from.
-/
import Xv6.Exec.Load

namespace Xv6.Exec

open Xv6.Bytes Xv6.Vm Xv6.Wp Xv6.Radix

variable {kend : ℕ} {root : Frame} {hand : Frame → Prop} {s t : Phys} {sz va a : Addr} {buf : List Byte}

/-! ## One page -/

section

variable (h : Ready kend root hand sz s)

include h

theorem Ready.looked : Ready kend root hand sz (s.looked root a) := by
  have hmem : ∀ f, s.Table root f → (s.looked root a).mem f = s.mem f := fun f _ => by rw [Phys.mem_looked]
  refine ⟨h.space.congr hmem (by rw [Phys.looked]; split_ifs <;> rfl), h.align, h.low, fun b hb e he => ?_⟩
  exact h.user b hb e ((Phys.pteAt_looked root a _ _).symm.trans he)

theorem Ready.write {e : Addr} (ha : a ∈ pageAddrs PGSIZE sz)
    (he : s.pteAt root (dir a) (ptx a) = some e) (o : ℕ) (bytes : List Byte) :
    Ready kend root hand sz (write s (pteFrame e) o bytes) := by
  obtain ⟨-, htable⟩ := h.space.inv.page_apart (starts_path (image_userSlot h.space.high ha)) rfl he
  have hmem : ∀ f, s.Table root f → (Exec.write s (pteFrame e) o bytes).mem f = s.mem f := fun f hf =>
    Function.update_of_ne (fun hc : f = pteFrame e => htable (hc ▸ hf)) _ _
  refine ⟨h.space.congr hmem rfl, h.align, h.low, fun b hb e' he' => h.user b hb e' ?_⟩
  rw [← he']
  exact (Phys.pteAt_congr hmem _ (starts_dir (image_userSlot h.space.high hb)) rfl).symm

section

variable {Q : Option Frame → Phys → Prop} {E : Fault → Phys → Prop}

/-- a page of the image other than the guard -/
theorem uva2ka_user (ha : a ∈ pageAddrs PGSIZE sz) (hguard : a.toNat + 8192 ≠ sz.toNat)
    (hQ : ∀ e, s.pteAt root (dir a) (ptx a) = some e → Q (some (pteFrame e)) (s.looked root a)) :
    wp (uva2ka root a) Q E s := by
  obtain ⟨e, he⟩ := Option.ne_none_iff_exists'.1 (h.space.page a ha)
  obtain ⟨pt, hpt, hentry, hpres⟩ := pteAt_some he
  have huser : ¬ e &&& PTE_U = 0 := fun hc => hguard ((h.user a ha e he).1 hc)
  rw [uva2ka, wp_bind]
  refine wp_lookup hpt ?_
  rw [wp_bind, wp_get, Phys.entry_looked, hentry, if_neg hpres, if_neg huser]
  exact wp_return (hQ e he)

/-- the guard page -/
theorem uva2ka_guard (ha : a ∈ pageAddrs PGSIZE sz) (hguard : a.toNat + 8192 = sz.toNat)
    (hQ : Q none (s.looked root a)) : wp (uva2ka root a) Q E s := by
  obtain ⟨e, he⟩ := Option.ne_none_iff_exists'.1 (h.space.page a ha)
  obtain ⟨pt, hpt, hentry, hpres⟩ := pteAt_some he
  rw [uva2ka, wp_bind]
  refine wp_lookup hpt ?_
  rw [wp_bind, wp_get, Phys.entry_looked, hentry, if_neg hpres, if_pos ((h.user a ha e he).2 hguard)]
  exact wp_return hQ

/-- page 0 has a PTE that is not present -/
theorem uva2ka_zero (hQ : Q none (s.looked root 0)) : wp (uva2ka root 0) Q E s := by
  have hlow := h.low
  obtain ⟨pt, hpt, hpres⟩ := h.space.page_zero (by omega)
  rw [uva2ka, wp_bind]
  refine wp_lookup hpt ?_
  rw [wp_bind, wp_get, Phys.entry_looked, if_pos hpres]
  exact wp_return hQ

/-- the slots above the kernel's have no tables -/
theorem uva2ka_wrapped (ha : 256 < (pmx a).toNat) (hE : E (.pageFault 0) (s.looked root a)) :
    wp (uva2ka root a) Q E s := by
  have hnone : s.at root (dir a) = none := by rw [Phys.at, dir, follow, h.space.kernel.empty _ ha, Option.bind_none]
  rw [uva2ka, wp_bind]
  exact wp_lookup_none hnone ((wp_throw _ _).2 hE)

end

end

/-! ## `copyout` -/

theorem mem_image_roundDown (hlow : 4096 ≤ va.toNat) (hhigh : va.toNat < sz.toNat) :
    pgRoundDown va ∈ pageAddrs PGSIZE sz := by
  have hdown := pgRoundDown_toNat va
  exact mem_image.2 (by omega)

/-- **Inside the stack page** a copy succeeds. -/
theorem copyout_stack (h : Ready kend root hand sz s) (hlow : sz.toNat ≤ va.toNat + 4096)
    (hhigh : va.toNat + buf.length ≤ sz.toNat) :
    wp (copyout root va buf) (fun r t => r = 0 ∧ Ready kend root hand sz t) (fun _ _ => False) s := by
  have hsz := h.low
  have halign := h.align
  have hdown := pgRoundDown_toNat va
  cases buf with
  | nil =>
    rw [copyout]
    exact wp_return ⟨rfl, h⟩
  | cons b buf =>
    rw [List.length_cons] at hhigh
    have hpage : pgRoundDown va ∈ pageAddrs PGSIZE sz := mem_image_roundDown (by omega) (by omega)
    have hrest : (b :: buf).drop (roomIn va) = [] := by
      rw [List.drop_eq_nil_iff, List.length_cons, roomIn]
      omega
    rw [copyout, wp_bind]
    refine uva2ka_user h hpage (by omega) fun e he => ?_
    rw [wp_bind, wp_modify, hrest, copyout]
    exact wp_return ⟨rfl, h.looked.write hpage (by rw [Phys.pteAt_looked]; exact he) _ _⟩

/-- **From below the stack page** up to the guard a copy returns -1: it meets page 0 or the guard. -/
theorem copyout_guard (h : Ready kend root hand sz s) (hne : buf ≠ []) (hlow : va.toNat + 4096 < sz.toNat)
    (hhigh : sz.toNat < va.toNat + buf.length + 8192) :
    wp (copyout root va buf) (fun r t => r = -1 ∧ Ready kend root hand sz t) (fun _ _ => False) s := by
  have hsz := h.low
  have hszhigh := h.space.high
  have halign := h.align
  -- on the bytes left: every round that does not end it copies at least one
  induction hn : buf.length using Nat.strong_induction_on generalizing va buf s with
  | _ n ih =>
    subst hn
    have hdown := pgRoundDown_toNat va
    obtain ⟨b, buf, rfl⟩ := List.exists_cons_of_ne_nil hne
    rw [List.length_cons] at hhigh
    rw [copyout, wp_bind]
    by_cases hzero : va.toNat < 4096
    · have hva0 : pgRoundDown va = 0 := BitVec.eq_of_toNat_eq (by rw [hdown, show (0 : Addr).toNat = 0 from rfl]; omega)
      rw [hva0]
      exact uva2ka_zero h (wp_return ⟨rfl, h.looked⟩)
    have hpage : pgRoundDown va ∈ pageAddrs PGSIZE sz := mem_image_roundDown (by omega) (by omega)
    by_cases hguard : (pgRoundDown va).toNat + 8192 = sz.toNat
    · exact uva2ka_guard h hpage hguard (wp_return ⟨rfl, h.looked⟩)
    · refine uva2ka_user h hpage hguard fun e he => ?_
      rw [wp_bind, wp_modify]
      have hnext : (pgRoundDown va + PGSIZE).toNat = (pgRoundDown va).toNat + 4096 := toNat_add_PGSIZE (by omega)
      have hleft : ((b :: buf).drop (roomIn va)).length = buf.length + 1 - roomIn va := by
        rw [List.length_drop, List.length_cons]
      have hroom : roomIn va = 4096 - va.toNat % 4096 := rfl
      have hmore : (b :: buf).drop (roomIn va) ≠ [] := by
        rw [ne_eq, ← List.length_eq_zero_iff, hleft]
        omega
      exact ih _ (by rw [hleft, List.length_cons]; omega) (h.looked.write hpage (by rw [Phys.pteAt_looked]; exact he) _ _)
        hmore (by omega) (by rw [hleft]; omega) rfl

/-- **A wrapped address** has no PTE. -/
theorem copyout_wrapped (h : Ready kend root hand sz s) (hva : 256 < (pmx (pgRoundDown va)).toNat) (hne : buf ≠ []) :
    wp (copyout root va buf) (fun _ _ => False) (fun e _ => e = .pageFault 0) s := by
  obtain ⟨b, buf, rfl⟩ := List.exists_cons_of_ne_nil hne
  rw [copyout, wp_bind]
  exact uva2ka_wrapped h hva rfl

/-! ## Pushing the strings -/

theorem pushed_toNat (sp : Addr) (str : List Byte) :
    (pushed sp str).toNat = (sp - BitVec.ofNat 64 (str.length + 1)).toNat / 8 * 8 :=
  toNat_clear_low (k := 3) _ (by decide)

/-- a string that is no longer than the stack pointer is pushed below it -/
theorem pushed_fits {sp : Addr} {str : List Byte} (h : str.length + 1 ≤ sp.toNat) :
    (pushed sp str).toNat = (sp.toNat - (str.length + 1)) / 8 * 8 := by
  have hsp := sp.isLt
  have hlen : (BitVec.ofNat 64 (str.length + 1)).toNat = str.length + 1 := by
    rw [BitVec.toNat_ofNat, Nat.mod_eq_of_lt (by omega)]
  rw [pushed_toNat, BitVec.toNat_sub_of_le (by rw [BitVec.le_def, hlen]; exact h), hlen]

/-- a longer one makes it wrap to the last slot -/
theorem pushed_wraps {sp : Addr} {str : List Byte} (h : sp.toNat < str.length + 1) (hlen : str.length + 1 < 2 ^ 31) :
    256 < (pmx (pgRoundDown (pushed sp str))).toNat := by
  have hlen' : (BitVec.ofNat 64 (str.length + 1)).toNat = str.length + 1 := by
    rw [BitVec.toNat_ofNat, Nat.mod_eq_of_lt (by omega)]
  have hsub : (sp - BitVec.ofNat 64 (str.length + 1)).toNat = 2 ^ 64 - (str.length + 1) + sp.toNat := by
    rw [BitVec.toNat_sub, hlen']
    omega
  rw [toNat_pmx, pgRoundDown_toNat, pushed_toNat, hsub]
  omega

/-- no string is longer than the stack pointer it is pushed from, as long as the strings before it lie in the stack page
of an image of size sz -/
def Fits (sz : Addr) : List (List Byte) → ℕ → Addr → Prop
  | [], _, _ => True
  | str :: argv, argc, sp => MAXARG ≤ argc ∨ (str.length + 1 ≤ sp.toNat ∧
      ((pushed sp str).toNat + 4096 < sz.toNat ∨ Fits sz argv (argc + 1) (pushed sp str)))

/-- one string: it lands in the stack page, or the copy returns -1 -/
theorem copyout_pushed (h : Ready kend root hand sz s) {sp : Addr} {str : List Byte} (hlow : sz.toNat ≤ sp.toNat + 4096)
    (hhigh : sp.toNat ≤ sz.toNat) (hfit : str.length + 1 ≤ sp.toNat) :
    wp (copyout root (pushed sp str) (str ++ [0]))
      (fun r t => Ready kend root hand sz t ∧ r = if (pushed sp str).toNat + 4096 < sz.toNat then -1 else 0)
      (fun _ _ => False) s := by
  have hsz := h.low
  have hp := pushed_fits hfit
  have hlen : (str ++ [0]).length = str.length + 1 := List.length_append
  by_cases hbelow : (pushed sp str).toNat + 4096 < sz.toNat
  · rw [if_pos hbelow]
    refine wp_mono (copyout_guard h (by simp) hbelow ?_) (fun _ _ ht => ht.symm) (fun _ _ hf => hf)
    rw [hlen]
    omega
  · rw [if_neg hbelow]
    refine wp_mono (copyout_stack h (by omega) ?_) (fun _ _ ht => ht.symm) (fun _ _ hf => hf)
    rw [hlen]
    omega

/-- what is left after the strings: a stack pointer in the stack page -/
def Pushed (kend : ℕ) (root : Frame) (hand : Frame → Prop) (sz : Addr) (r : Option (Addr × List Addr)) (t : Phys) : Prop :=
  Ready kend root hand sz t ∧ ∀ sp ustack, r = some (sp, ustack) →
    sz.toNat ≤ sp.toNat + 4096 ∧ sp.toNat ≤ sz.toNat ∧ ustack.length ≤ MAXARG

theorem pushStrings_spec (argv : List (List Byte)) {sp : Addr} {ustack : List Addr} (h : Ready kend root hand sz s)
    (hlow : sz.toNat ≤ sp.toNat + 4096) (hhigh : sp.toNat ≤ sz.toNat) (hargc : ustack.length ≤ MAXARG)
    (hfits : Fits sz argv ustack.length sp) :
    wp (pushStrings root argv sp ustack) (Pushed kend root hand sz) (fun _ _ => False) s := by
  induction argv generalizing sp ustack s with
  | nil => exact wp_return ⟨h, fun _ _ hr => by cases hr; exact ⟨hlow, hhigh, hargc⟩⟩
  | cons str argv ih =>
    rw [pushStrings]
    by_cases hmax : MAXARG ≤ ustack.length
    · rw [if_pos hmax]
      exact wp_return ⟨h, fun _ _ hr => by cases hr⟩
    obtain ⟨hfit, hnext⟩ := hfits.resolve_left hmax
    rw [if_neg hmax, wp_bind]
    refine wp_imp (copyout_pushed h hlow hhigh hfit) ?_
    rintro r t ⟨ht, rfl⟩
    by_cases hbelow : (pushed sp str).toNat + 4096 < sz.toNat
    · rw [if_pos hbelow, if_pos (by decide)]
      exact wp_return ⟨ht, fun _ _ hr => by cases hr⟩
    · rw [if_neg hbelow, if_neg (by decide)]
      have hp := pushed_fits hfit
      have hlen : (ustack ++ [pushed sp str]).length = ustack.length + 1 := List.length_append
      exact ih ht (by omega) (by omega) (by omega) (by rw [hlen]; exact hnext.resolve_left hbelow)

/-- a string that does not fit is reached, and faults -/
theorem pushStrings_faults (argv : List (List Byte)) {sp : Addr} {ustack : List Addr} (h : Ready kend root hand sz s)
    (hlen : ∀ str ∈ argv, str.length + 1 < 2 ^ 31)
    (hlow : sz.toNat ≤ sp.toNat + 4096) (hhigh : sp.toNat ≤ sz.toNat) (hfits : ¬ Fits sz argv ustack.length sp) :
    wp (pushStrings root argv sp ustack) (fun _ _ => False) (fun e _ => e = .pageFault 0) s := by
  induction argv generalizing sp ustack s with
  | nil => exact absurd trivial hfits
  | cons str argv ih =>
    rw [Fits, not_or, not_and_or] at hfits
    obtain ⟨hmax, hfits⟩ := hfits
    rw [pushStrings, if_neg hmax, wp_bind]
    by_cases hfit : str.length + 1 ≤ sp.toNat
    · obtain ⟨hbelow, hnext⟩ := not_or.1 (hfits.resolve_left (not_not.2 hfit))
      refine wp_safe (copyout_pushed h hlow hhigh hfit) ?_
      rintro r t ⟨ht, rfl⟩
      rw [if_neg hbelow, if_neg (by decide)]
      have hp := pushed_fits hfit
      have hlen' : (ustack ++ [pushed sp str]).length = ustack.length + 1 := List.length_append
      exact ih ht (fun x hx => hlen x (List.mem_cons_of_mem str hx)) (by omega) (by omega) (by rw [hlen']; exact hnext)
    · exact wp_imp (copyout_wrapped h (pushed_wraps (by omega) (hlen str List.mem_cons_self)) (by simp))
        (fun _ _ hf => hf.elim)

/-! ## All the arguments -/

theorem length_bytesOf (ws : List Addr) : (bytesOf ws).length = 8 * ws.length := by
  rw [bytesOf, List.length_map, List.length_range]

/-- the array of addresses goes below the strings, or into the guard -/
theorem copyout_ustack (h : Ready kend root hand sz s) {sp : Addr} {ustack : List Addr} (hlow : sz.toNat ≤ sp.toNat + 4096)
    (hhigh : sp.toNat ≤ sz.toNat) (hargc : ustack.length ≤ MAXARG) :
    wp (copyout root (sp - (1 + BitVec.ofNat 64 ustack.length + 1) * 8) (bytesOf (0xffffffffffffffff :: ustack ++ [0])))
      (fun _ t => Ready kend root hand sz t) (fun _ _ => False) s := by
  have hsz := h.low
  have hspan := h.space.high
  have hlen : (bytesOf (0xffffffffffffffff :: ustack ++ [0])).length = 8 * (ustack.length + 2) := by
    rw [length_bytesOf, List.length_append, List.length_cons, List.length_singleton]
  rw [MAXARG] at hargc
  have hwords : ((1 + BitVec.ofNat 64 ustack.length + 1) * 8).toNat = 8 * (ustack.length + 2) := by
    rw [BitVec.toNat_mul, BitVec.toNat_add, BitVec.toNat_add, BitVec.toNat_ofNat, show (1 : Addr).toNat = 1 from rfl,
      show (8 : Addr).toNat = 8 from rfl]
    omega
  have hsp : (sp - (1 + BitVec.ofNat 64 ustack.length + 1) * 8).toNat = sp.toNat - 8 * (ustack.length + 2) := by
    rw [BitVec.toNat_sub_of_le (by rw [BitVec.le_def, hwords]; omega), hwords]
  generalize sp - (1 + BitVec.ofNat 64 ustack.length + 1) * 8 = va at hsp ⊢
  by_cases hbelow : va.toNat + 4096 < sz.toNat
  · have hne : bytesOf (0xffffffffffffffff :: ustack ++ [0]) ≠ [] := by
      rw [ne_eq, ← List.length_eq_zero_iff, hlen]
      omega
    exact wp_mono (copyout_guard h hne hbelow (by omega)) (fun _ _ ht => ht.2) (fun _ _ hf => hf)
  · exact wp_mono (copyout_stack h (by omega) (by omega)) (fun _ _ ht => ht.2) (fun _ _ hf => hf)

theorem execArgs_returns {im : Image} {argv : List (List Byte)} (h : Ready kend im.pgdir hand im.sz s)
    (hfits : Fits im.sz argv 0 im.sz) : wp (execArgs kend im argv) (fun _ _ => True) (fun _ _ => False) s := by
  have hbad : ∀ t, Ready kend im.pgdir hand im.sz t →
      wp (do freevm kend im.pgdir; return none : K (Option (Addr × Addr × Addr))) (fun _ _ => True) (fun _ _ => False) t :=
    fun t ht => by
      rw [wp_bind]
      exact wp_imp (freevm_spec ht.space.inv) fun _ _ _ => wp_return trivial
  rw [execArgs, pushArgs, wp_bind]
  refine wp_imp (pushStrings_spec argv h (by omega) le_rfl (Nat.zero_le _) hfits) ?_
  rintro (_ | ⟨sp, ustack⟩) t ⟨ht, hsp⟩
  · exact hbad t ht
  · obtain ⟨hlow, hhigh, hargc⟩ := hsp sp ustack rfl
    dsimp only
    rw [wp_bind, wp_pure, wp_bind]
    refine wp_imp (copyout_ustack ht hlow hhigh hargc) fun r u hu => ?_
    split_ifs
    · exact hbad u hu
    · exact wp_return trivial

theorem execArgs_faults (im : Image) {argv : List (List Byte)} (h : Ready kend im.pgdir hand im.sz s)
    (hlen : ∀ str ∈ argv, str.length + 1 < 2 ^ 31) (hfits : ¬ Fits im.sz argv 0 im.sz) :
    wp (execArgs kend im argv) (fun _ _ => False) (fun e _ => e = .pageFault 0) s := by
  rw [execArgs, pushArgs, wp_bind]
  exact wp_imp (pushStrings_faults argv h hlen (by omega) le_rfl hfits) fun _ _ hf => hf.elim

/-- **The arguments of `exec`.** For strings of the caller's memory, all of it below PHYSTOP, pushing the arguments ends by
a return, with the registers of the new image or with -1, exactly when no string is longer than the stack pointer it is
pushed from. -/
theorem exec_arguments (im : Image) (argv : List (List Byte)) (h : Ready kend im.pgdir hand im.sz s)
    (hlen : ∀ str ∈ argv, str.length + 1 ≤ PHYSTOP) :
    Returns (execArgs kend im argv s) ↔ Fits im.sz argv 0 im.sz := by
  constructor
  · intro hret
    by_contra hfits
    obtain ⟨r, t, hr⟩ := hret
    exact wp_ok (execArgs_faults im h (fun str hstr => (hlen str hstr).trans_lt (by decide)) hfits) hr
  · exact fun hfits => ((wp_returns fun _ => True).1 (execArgs_returns h hfits)).1

/-- the smallest image: no segment, only the guard and the stack -/
def smallest : K (Frame × Option Addr) := do
  let pgdir ← setupkvm 0x201
  let sz ← stackPages 0x100000 pgdir PGSIZE
  return (pgdir, sz)

theorem smallest_ready : ∃ root t, smallest (blank [0x202, 0x203, 0x204, 0x205, 0x206, 0x207]) = .ok (root, some 0x3000) t ∧
    Ready 0x100000 root (fun _ => False) 0x3000 t := by
  have h : Allocator 0x100000 (fun _ => False) (blank [0x202, 0x203, 0x204, 0x205, 0x206, 0x207]) :=
    allocator_blank (by decide) (by simp [Usable, Frame.addr, PHYSTOP])
  have hrun : wp smallest (fun r t => r.2 = some 0x3000 ∧ Ready 0x100000 r.1 (fun _ => False) 0x3000 t) (fun _ _ => False)
      (blank [0x202, 0x203, 0x204, 0x205, 0x206, 0x207]) := by
    rw [smallest, wp_bind]
    refine wp_mono (Built.new h 0x201) ?_ ?_
    · rintro root t ⟨hbuilt, -⟩
      rw [wp_bind]
      refine wp_imp (hbuilt.stackPages (by decide) (by decide)) ?_
      rintro r u ⟨-, -, hfin, hr⟩
      rw [if_neg (by decide), show pgRoundUp PGSIZE + 2 * PGSIZE = 0x3000 by decide] at hr
      exact wp_return ⟨hr, (hfin _ hr).ready⟩
    · rintro e t ⟨-, -, hnil⟩
      cases hnil
  obtain ⟨⟨root, r⟩, t, hok, hr, hready⟩ := wp_exists.1 hrun
  obtain rfl : r = some 0x3000 := hr
  exact ⟨root, t, hok, hready⟩

/-- Two arguments, of two bytes and of one, for the smallest image. -/
theorem exec_arguments_two : ∃ root t,
    smallest (blank [0x202, 0x203, 0x204, 0x205, 0x206, 0x207]) = .ok (root, some 0x3000) t ∧
      Returns (execArgs 0x100000 ⟨root, 0x3000, 0x1000⟩ [[108, 115], [97]] t) := by
  obtain ⟨root, t, hok, hready⟩ := smallest_ready
  refine ⟨root, t, hok, (exec_arguments ⟨root, 0x3000, 0x1000⟩ [[108, 115], [97]] hready (by decide)).2 ?_⟩
  have hfirst : ([108, 115] : List Byte).length + 1 ≤ (0x3000 : Addr).toNat := by decide
  have hsecond : ([97] : List Byte).length + 1 ≤ (pushed 0x3000 [108, 115]).toNat := by decide
  exact .inr ⟨hfirst, .inr (.inr ⟨hsecond, .inr trivial⟩)⟩

/-- A string as long as the smallest image: the stack pointer wraps and `copyout` faults. -/
theorem long_argument_faults : ∃ root t,
    smallest (blank [0x202, 0x203, 0x204, 0x205, 0x206, 0x207]) = .ok (root, some 0x3000) t ∧
      ¬ Returns (execArgs 0x100000 ⟨root, 0x3000, 0x1000⟩ [List.replicate 0x3000 97] t) := by
  obtain ⟨root, t, hok, hready⟩ := smallest_ready
  refine ⟨root, t, hok, fun hret => ?_⟩
  obtain ⟨r, u, hr⟩ := hret
  have hlen : ∀ str ∈ [List.replicate 0x3000 (97 : Byte)], str.length + 1 < 2 ^ 31 := fun str hstr => by
    rw [List.mem_singleton.1 hstr, List.length_replicate]
    decide
  have hfits : ¬ Fits 0x3000 [List.replicate 0x3000 97] 0 0x3000 := by
    rintro (hmax | ⟨hfit, -⟩)
    · exact absurd hmax (by decide)
    · rw [List.length_replicate] at hfit
      exact absurd hfit (by decide)
  exact wp_ok (execArgs_faults ⟨root, 0x3000, 0x1000⟩ hready hlen hfits) hr

end Xv6.Exec
