/-
The allocator is sound: over every run of calls of `malloc` and `free`, with any answers of `sbrk`.

`Inv` holds in every reachable state: nothing has been allocated yet, or the free list is one (`Rep`). `umalloc_sound` adds
that every call ends, what the memory is that `malloc` returns, and when it returns none.
-/
import Xv6.Umalloc.List

namespace Xv6.Umalloc

open Xv6.Tiling

/-! ## Fuel -/

section

variable {h h' : Heap} {bp p q k j : ℕ} {sbrk : Sbrk} {n : ℕ} {r : Heap × ℕ}

theorem freeLoop_mono (hk : freeLoop h bp k p = some q) : freeLoop h bp (k + j) p = some q := by
  induction k generalizing p with
  | zero => cases hk
  | succ k ih =>
    rw [Nat.succ_add]
    rw [freeLoop] at hk ⊢
    split_ifs at hk ⊢
    · exact hk
    · exact hk
    · exact ih hk

theorem free_mono (hk : free k h p = some h') : free (k + j) h p = some h' := by
  obtain ⟨q, hq, rfl⟩ := Option.map_eq_some_iff.1 hk
  exact Option.map_eq_some_iff.2 ⟨q, freeLoop_mono hq, rfl⟩

theorem morecore_mono (hk : morecore sbrk k h n = some r) : morecore sbrk (k + j) h n = some r := by
  unfold morecore at hk ⊢
  dsimp only at hk ⊢
  split at hk
  · exact hk
  · obtain ⟨g, hg, rfl⟩ := Option.map_eq_some_iff.1 hk
    exact Option.map_eq_some_iff.2 ⟨g, free_mono hg, rfl⟩

theorem mallocLoop_mono (hk : mallocLoop sbrk n k h q p = some r) : mallocLoop sbrk n (k + j) h q p = some r := by
  induction k generalizing h q p with
  | zero => cases hk
  | succ k ih =>
    rw [Nat.succ_add]
    rw [mallocLoop] at hk ⊢
    split_ifs at hk ⊢
    · exact hk
    · cases hm : morecore sbrk k h n with
      | none => simp [hm] at hk
      | some g =>
        rw [morecore_mono hm]
        simp only [hm] at hk ⊢
        split_ifs at hk ⊢
        · exact hk
        · exact ih hk
    · exact ih hk

end

/-! ## malloc -/

section

variable {base : ℕ} {h : Heap} {fs live : List Block} {sbrk : Sbrk} {n k : ℕ}

/-- what a request for n units leaves: one more live block, or nothing changed when `sbrk` has failed -/
inductive Served (base : ℕ) (sbrk : Sbrk) (h : Heap) (live : List Block) (n : ℕ) : Heap × ℕ → Prop where
  | block {h' : Heap} {p : ℕ} {fs' : List Block} : Rep base h' fs' ((p, n) :: live) → Served base sbrk h live n (h', p + HDR)
  | none {fs : List Block} : Rep base h fs live → (∀ f ∈ fs, f.2 < n) →
      sbrk h.chunks (max 4096 n) = none → Served base sbrk h live n (h, 0)

theorem Rep.freep_ne_zero (hr : Rep base h fs live) (hbase : 0 < base) : h.freep ≠ 0 := by
  obtain ⟨x, hx, hxp⟩ := hr.freep
  rw [← hxp]
  obtain rfl | hx := List.mem_cons.1 hx
  · exact hbase.ne'
  · have := hr.base_le (List.mem_append_left live hx)
    omega

/-- a block that is big enough is taken -/
theorem mallocLoop_fits (sbrk : Sbrk) (hr : Rep base h fs live) (hn : 0 < n) (hfit : ∃ x ∈ fs, n ≤ x.2) (hk : fs.length < k) :
    ∃ h' p fs', mallocLoop sbrk n k h h.freep (h.ptr h.freep) = some (h', p + HDR) ∧ Rep base h' fs' ((p, n) :: live) := by
  obtain ⟨x, hx, hxn⟩ := hfit
  obtain ⟨v, hv, hvn, hloop⟩ := hr.mallocLoop_found sbrk ⟨x, List.mem_cons_of_mem _ hx, hxn⟩ hk
  obtain ⟨p, fs', hp, hrep, -⟩ := hr.take hv hn hvn
  refine ⟨(take h n v.1 (h.ptr v.1)).1, p, fs', ?_, hrep⟩
  rw [hloop, ← hp]

/-- The loop of `malloc` ends, and serves the request. -/
theorem mallocLoop_served (hbase : 0 < base) (hr : Rep base h fs live) (hfresh : Fresh base sbrk) (hn : 0 < n) :
    ∃ k r, mallocLoop sbrk n k h h.freep (h.ptr h.freep) = some r ∧ Served base sbrk h live n r := by
  by_cases hfit : ∃ x ∈ fs, n ≤ x.2
  · obtain ⟨h', p, fs', hloop, hrep⟩ := mallocLoop_fits sbrk hr hn hfit (Nat.lt_succ_self _)
    exact ⟨_, _, hloop, .block hrep⟩
  · push Not at hfit
    have hall : ∀ x ∈ (base, 0) :: fs, x.2 < n := by
      simp only [List.mem_cons, forall_eq_or_imp]
      exact ⟨hn, hfit⟩
    cases hp : sbrk h.chunks (if n < 4096 then 4096 else n) with
    | none =>
      have hmax : (if n < 4096 then 4096 else n) = max 4096 n := by split_ifs <;> omega
      refine ⟨fs.length + (0 + 1), (h, 0), ?_, .none hr hfit (hmax ▸ hp)⟩
      simp [hr.mallocLoop_full sbrk hall, morecore, hp]
    | some p =>
      -- enough for the list as it was, and for the list with the new block
      obtain ⟨g, gs, hmore, hrep, -, hbig⟩ := hr.morecore hfresh (Nat.lt_succ_self _) hp
      have hne := hrep.freep_ne_zero hbase
      obtain ⟨h', q, fs', hloop, hrep'⟩ := mallocLoop_fits sbrk hrep hn hbig
        (k := fs.length + 1 + gs.length) (by omega)
      refine ⟨fs.length + (fs.length + 1 + gs.length + 1), (h', q + HDR), ?_, .block hrep'⟩
      rw [hr.mallocLoop_full sbrk hall, morecore_mono hmore]
      simp only [if_neg hne]
      exact hloop

end

/-! ## Runs -/

/-- nothing has been allocated yet, or there is a list -/
def Inv (base : ℕ) (s : St) : Prop :=
  (s.heap.freep = 0 ∧ s.heap.chunks = [] ∧ s.live = []) ∨ ∃ fs, Rep base s.heap fs s.live

section

variable {base : ℕ} {s t : St} {a : Act} {sbrk : Sbrk} {nbytes : ℕ}

/-- the units of a request hold its bytes after the header -/
theorem units_bound (hn : nbytes < 2 ^ 32) : 0 < units nbytes ∧ HDR + nbytes ≤ HDR * units nbytes := by
  have hmod : units nbytes = (nbytes + 15) / 16 + 1 := Nat.mod_eq_of_lt (by simp only [HDR]; omega)
  have : HDR = 16 := rfl
  rw [hmod, this]
  omega

/-- the first call makes the list -/
theorem ready_rep (hbase : 0 < base) (h : Inv base s) : ∃ fs, Rep base (ready base s.heap) fs s.live := by
  obtain ⟨hfreep, hchunks, hlive⟩ | ⟨fs, hr⟩ := h
  · refine ⟨[], ?_⟩
    unfold ready
    rw [if_pos hfreep, hlive]
    refine ⟨⟨?_, ?_, trivial⟩, List.pairwise_singleton _ _, ⟨_, List.mem_singleton_self _, rfl⟩, by simp, ?_, ?_, ?_⟩
    · change ((s.heap.setPtr base base).setSize base 0).ptr base = base
      simp
    · change ((s.heap.setPtr base base).setSize base 0).size base = 0
      simp
    · change Tiles HDR s.heap.chunks []
      rw [hchunks]
      exact ⟨by simp, .nil, by simp, rfl⟩
    · change ∀ c ∈ s.heap.chunks, _
      simp [hchunks]
    · change (s.heap.chunks.map Prod.snd).sum < _
      simp [hchunks]
  · refine ⟨fs, ?_⟩
    rwa [ready, if_neg (hr.freep_ne_zero hbase)]

theorem malloc_mono {h : Heap} {r : Heap × ℕ} {k j : ℕ} (hk : malloc base sbrk k h nbytes = some r) :
    malloc base sbrk (k + j) h nbytes = some r := mallocLoop_mono hk

/-- **malloc ends**, with a block or without. -/
theorem malloc_served (hbase : 0 < base) (h : Inv base s) (hfresh : Fresh base sbrk) (hn : nbytes < 2 ^ 32) :
    ∃ k r, (∀ j, malloc base sbrk (k + j) s.heap nbytes = some r) ∧
      Served base sbrk (ready base s.heap) s.live (units nbytes) r := by
  obtain ⟨fs, hr⟩ := ready_rep hbase h
  obtain ⟨k, r, hk, hserved⟩ := mallocLoop_served hbase hr hfresh (units_bound hn).1
  exact ⟨k, r, fun j => mallocLoop_mono hk, hserved⟩

/-- **free ends.** -/
theorem free_ends (h : Inv base s) {b : Block} (hb : b ∈ s.live) : ∃ k h' fs',
    (∀ j, free (k + j) s.heap (b.1 + HDR) = some h') ∧ Rep base h' fs' (s.live.erase b) := by
  obtain ⟨-, -, hlive⟩ | ⟨fs, hr⟩ := h
  · simp [hlive] at hb
  · obtain ⟨h', fs', hfree, hrep, -⟩ := (hr.perm (List.perm_cons_erase hb)).free (Nat.lt_succ_self _)
    exact ⟨_, h', fs', fun j => free_mono hfree, hrep⟩

theorem Inv.step (hbase : 0 < base) (h : Inv base s) (hnext : Next base s a t) : Inv base t := by
  cases hnext with
  | malloc hn hfresh hm hap =>
    rename_i fuel ap sbrk h'
    obtain ⟨k, r, hk, hserved⟩ := malloc_served hbase h hfresh hn
    have heq := hk fuel
    rw [Nat.add_comm, malloc_mono hm] at heq
    cases heq
    cases hserved with
    | block hrep =>
      rw [Nat.add_sub_cancel]
      exact .inr ⟨_, hrep⟩
    | none hrep _ _ => exact absurd rfl hap
  | fails hn hfresh hm =>
    rename_i fuel sbrk h'
    obtain ⟨k, r, hk, hserved⟩ := malloc_served hbase h hfresh hn
    have heq := hk fuel
    rw [Nat.add_comm, malloc_mono hm] at heq
    cases heq
    cases hserved with
    | none hrep _ _ => exact .inr ⟨_, hrep⟩
  | free hb hf =>
    rename_i fuel b h'
    obtain ⟨k, g, fs', hk, hrep⟩ := free_ends h hb
    have heq := hk fuel
    rw [Nat.add_comm, free_mono hf] at heq
    cases heq
    exact .inr ⟨fs', hrep⟩
  | write hmem =>
    rename_i mem
    obtain ⟨hfreep, hchunks, hlive⟩ | ⟨fs, hr⟩ := h
    · exact .inl ⟨hfreep, hchunks, hlive⟩
    · refine .inr ⟨fs, hr.congr (fun x hx => hmem x.1 fun b hb => ?_) (fun l hl => hmem l.1 fun b hb => ?_) rfl rfl⟩
      · obtain rfl | hx := List.mem_cons.1 hx
        · have := hr.base_le (List.mem_append_right fs hb)
          simp only
          omega
        · have hap := (List.pairwise_append.1 hr.tiles.apart).2.2 x hx b hb
          have hpos := hr.tiles.pos x (List.mem_append_left s.live hx)
          obtain hap | hap := hap
          · omega
          · omega
      · obtain rfl | hne := eq_or_ne b l
        · omega
        · have hap := hr.tiles.apart_of_ne (List.mem_append_right fs hb) (List.mem_append_right fs hl) hne.symm
          have hpos := hr.tiles.pos l (List.mem_append_right fs hl)
          obtain hap | hap := hap
          · omega
          · omega

/-- the bytes at ap are nobody else's: no live block and no header has any of them -/
def Own (base : ℕ) (fs live : List Block) (ap nbytes : ℕ) : Prop := ∀ x, ap ≤ x → x < ap + nbytes →
  (∀ b ∈ live, ¬ Holds HDR b x) ∧ (∀ f ∈ (base, 0) :: fs, ¬ (f.1 ≤ x ∧ x < f.1 + HDR))

theorem Rep.own {h : Heap} {fs live : List Block} {p n : ℕ} (hr : Rep base h fs ((p, n) :: live))
    (hn : HDR + nbytes ≤ HDR * n) : Own base fs live (p + HDR) nbytes := by
  intro x hlo hhi
  have hx : Holds HDR (p, n) x := ⟨by omega, by simp only; omega⟩
  refine ⟨fun b hb => ?_, fun f hf => ?_⟩
  · have hpw := (List.pairwise_append.1 hr.tiles.apart).2.1
    exact ((List.pairwise_cons.1 hpw).1 b hb).not_holds hx
  · obtain rfl | hf := List.mem_cons.1 hf
    · have hlow : base + HDR ≤ p := hr.base_le (l := (p, n)) (by simp)
      simp only
      omega
    · have hap := (List.pairwise_append.1 hr.tiles.apart).2.2 f hf (p, n) List.mem_cons_self
      have hpos := hr.tiles.pos f (by simp [hf])
      have hf2 : HDR ≤ HDR * f.2 := Nat.le_mul_of_pos_right HDR (Nat.pos_of_mul_pos_left hpos)
      obtain hap | hap := hap
      · omega
      · simp only at hap
        omega

/-- **The allocator is sound.** After any run there is no list yet or a circle of free blocks in order of address through
the static header, which with the live blocks makes up the memory from `sbrk`; every `free` of a live block ends; and every
`malloc` ends, with bytes of its own, or with 0 when no free block is big enough and `sbrk` has no memory for a block of
that size, or of 4096 units if that is more. -/
theorem umalloc_sound (hbase : 0 < base) (h : (machine base).Reach s) :
    Inv base s ∧
    (∀ b ∈ s.live, ∃ k h', ∀ fuel, k ≤ fuel → free fuel s.heap (b.1 + HDR) = some h') ∧
    ∀ nbytes sbrk, nbytes < 2 ^ 32 → Fresh base sbrk → ∃ k h' ap fs,
      (∀ fuel, k ≤ fuel → malloc base sbrk fuel s.heap nbytes = some (h', ap)) ∧
      (ap ≠ 0 → Rep base h' fs ((ap - HDR, units nbytes) :: s.live) ∧ HDR ≤ ap ∧ Own base fs s.live ap nbytes) ∧
      (ap = 0 → Rep base h' fs s.live ∧ (∀ f ∈ fs, f.2 < units nbytes) ∧
        sbrk h'.chunks (max 4096 (units nbytes)) = none) := by
  have hinv : Inv base s := h.invariant (fun _ h0 => .inl h0) fun _ _ _ hs hnext => hs.step hbase hnext
  refine ⟨hinv, fun b hb => ?_, fun nbytes sbrk hn hfresh => ?_⟩
  · obtain ⟨k, h', -, hk, -⟩ := free_ends hinv hb
    refine ⟨k, h', fun fuel hfuel => ?_⟩
    rw [← Nat.add_sub_of_le hfuel]
    exact hk _
  · obtain ⟨k, r, hk, hserved⟩ := malloc_served hbase hinv hfresh hn
    have hall : ∀ fuel, k ≤ fuel → malloc base sbrk fuel s.heap nbytes = some r := by
      intro fuel hfuel
      rw [← Nat.add_sub_of_le hfuel]
      exact hk _
    have hpos : 0 < HDR := by decide
    cases hserved with
    | @block h' p fs hrep =>
      refine ⟨k, h', p + HDR, fs, hall, fun _ => ⟨?_, Nat.le_add_left _ _, hrep.own (units_bound hn).2⟩, fun hc => ?_⟩
      · rwa [Nat.add_sub_cancel]
      · omega
    | @none fs hrep hsmall hfail => exact ⟨k, _, 0, fs, hall, fun hc => absurd rfl hc, fun _ => ⟨hrep, hsmall, hfail⟩⟩

end

/-- memory from 4096 on, as much as is asked for, once -/
def once : Sbrk := fun chunks nu => if chunks = [] ∧ nu < 2 ^ 32 then some 4096 else none

theorem once_fresh : Fresh 64 once := by
  intro chunks nu p hp
  unfold once at hp
  split_ifs at hp with hc
  cases hp
  obtain ⟨rfl, hnu⟩ := hc
  exact ⟨by decide, by simp, by simpa using hnu⟩

/-- no call yet -/
def start : St := ⟨⟨fun _ => ⟨0, 0⟩, 0, []⟩, []⟩

/-- Two blocks are allocated and freed; the second `free` joins its block to both neighbours. -/
theorem umalloc_sound_joined : ∃ s, (machine 64).Reach s ∧ s.live = [] ∧ s.heap.ptr 64 = 4096 ∧
    s.heap.size 4096 = 4096 ∧ s.heap.ptr 4096 = 64 ∧ Inv 64 s ∧
    (∀ b ∈ s.live, ∃ k h', ∀ fuel, k ≤ fuel → free fuel s.heap (b.1 + HDR) = some h') ∧
    ∀ nbytes sbrk, nbytes < 2 ^ 32 → Fresh 64 sbrk → ∃ k h' ap fs,
      (∀ fuel, k ≤ fuel → malloc 64 sbrk fuel s.heap nbytes = some (h', ap)) ∧
      (ap ≠ 0 → Rep 64 h' fs ((ap - HDR, units nbytes) :: s.live) ∧ HDR ≤ ap ∧ Own 64 fs s.live ap nbytes) ∧
      (ap = 0 → Rep 64 h' fs s.live ∧ (∀ f ∈ fs, f.2 < units nbytes) ∧
        sbrk h'.chunks (max 4096 (units nbytes)) = none) := by
  have hrun : ((malloc 64 once 10 start.heap 100).bind fun x => (malloc 64 once 10 x.1 200).bind fun y =>
      (free 10 y.1 x.2).bind fun g => (free 10 g y.2).map fun h =>
        ((x.2, y.2), (h.ptr 64, (h.size 4096, h.ptr 4096)))) = some ((69520, 69296), (4096, (4096, 64))) := by
    decide +kernel
  simp only [Option.bind_eq_some_iff, Option.map_eq_some_iff, Prod.mk.injEq] at hrun
  obtain ⟨⟨h₁, ap⟩, h1, ⟨h₂, bp⟩, h2, h₃, h3, h₄, h4, ⟨rfl, rfl⟩, hptr, hsize, hback⟩ := hrun
  have hreach₁ : (machine 64).Reach ⟨h₁, [(69504, 8)]⟩ :=
    .step _ (.init (s := start) ⟨rfl, rfl, rfl⟩) (.malloc (by decide) once_fresh h1 (by decide))
  have hreach₂ : (machine 64).Reach ⟨h₂, [(69280, 14), (69504, 8)]⟩ :=
    .step (.malloc 200 once) hreach₁ (.malloc (s := ⟨h₁, [(69504, 8)]⟩) (by decide) once_fresh h2 (by decide))
  have hreach₃ : (machine 64).Reach ⟨h₃, [(69280, 14)]⟩ :=
    .step _ hreach₂ (.free (b := (69504, 8)) (List.mem_cons_of_mem _ List.mem_cons_self) h3)
  have hreach₄ : (machine 64).Reach ⟨h₄, []⟩ := .step _ hreach₃ (.free (b := (69280, 14)) List.mem_cons_self h4)
  exact ⟨_, hreach₄, rfl, hptr, hsize, hback, umalloc_sound (by decide) hreach₄⟩

end Xv6.Umalloc
