/-
Which PML4 slots `allocuvm` reaches.

`newsz < KERNBASE` admits addresses from 2^47 on, whose PML4 slot is computed modulo 512: from 2^47 it is 256, the
kernel's. The growing loop stops for lack of memory, but the `deallocuvm` on the failure path visits every page address
of the request.
- `walks_allocuvmLoop`: every slot walked is the slot of a page address of the request;
- `allocuvm_user_half`: the calls that stay in the user half are those whose page addresses all have a slot below 256,
  and those that start above slot 256, find fewer than two free pages and meet no page address of slot 256.
-/
import Xv6.Vm.Alloc

namespace Xv6.Vm

open Xv6.Bytes Xv6.Wp Xv6.Radix

variable {kend : ℕ} {root : Frame} {hand : Frame → Prop} {s t u : Phys}

/-! ## The record -/

/-- the slots walked from s to t satisfy P -/
def Walks (P : Idx → Prop) (s t : Phys) : Prop := ∃ l, t.trace = s.trace ++ l ∧ ∀ slot, .walk slot ∈ l → P slot

/-- some slot walked from s to t is not in the user half -/
def Strays (s t : Phys) : Prop := ∃ l, t.trace = s.trace ++ l ∧ ∃ slot, .walk slot ∈ l ∧ ¬ UserSlot slot

theorem Walks.of_trace {P : Idx → Prop} (h : t.trace = s.trace) : Walks P s t :=
  ⟨[], by rw [h, List.append_nil], fun _ hs => by cases hs⟩

theorem Walks.trans {P : Idx → Prop} (h1 : Walks P s t) (h2 : Walks P t u) : Walks P s u := by
  obtain ⟨l1, ht1, hp1⟩ := h1
  obtain ⟨l2, ht2, hp2⟩ := h2
  refine ⟨l1 ++ l2, by rw [ht2, ht1, List.append_assoc], fun slot hs => ?_⟩
  rcases List.mem_append.1 hs with hs | hs
  · exact hp1 slot hs
  · exact hp2 slot hs

theorem Walks.mono {P Q : Idx → Prop} (h : Walks P s t) (hpq : ∀ i, P i → Q i) : Walks Q s t := by
  obtain ⟨l, ht, hp⟩ := h
  exact ⟨l, ht, fun slot hs => hpq slot (hp slot hs)⟩

theorem Strays.not_walks (h : Strays s t) : ¬ Walks UserSlot s t := by
  rintro ⟨l, ht, hu⟩
  obtain ⟨l', ht', slot, hs, hn⟩ := h
  obtain rfl := List.append_cancel_left (ht.symm.trans ht')
  exact hn (hu slot hs)

theorem Strays.after {P : Idx → Prop} (h2 : Strays t u) (h1 : Walks P s t) : Strays s u := by
  obtain ⟨l1, ht1, -⟩ := h1
  obtain ⟨l2, ht2, slot, hs, hn⟩ := h2
  exact ⟨l1 ++ l2, by rw [ht2, ht1, List.append_assoc], slot, List.mem_append_right _ hs, hn⟩

theorem Strays.then {P : Idx → Prop} (h1 : Strays s t) (h2 : Walks P t u) : Strays s u := by
  obtain ⟨l1, ht1, slot, hs, hn⟩ := h1
  obtain ⟨l2, ht2, -⟩ := h2
  exact ⟨l1 ++ l2, by rw [ht2, ht1, List.append_assoc], slot, List.mem_append_left _ hs, hn⟩

theorem Strays.record {slot : Idx} (h : ¬ UserSlot slot) : Strays s (s.record (.walk slot)) :=
  ⟨[.walk slot], rfl, slot, List.mem_cons_self, h⟩

instance (P : Idx → Prop) : IsPreorder Phys (Walks P) where
  refl _ := Walks.of_trace rfl
  trans _ _ _ h1 h2 := h1.trans h2

/-- not a load or store through the null pointer -/
def NotNull (e : Fault) : Prop := e ≠ .pageFault 0

/-- x walks slots in P only, whether it returns or panics, and does not use the null pointer -/
def WalksIn {α : Type} (P : Idx → Prop) (x : K α) : Prop := Within (Walks P) (fun e _ => NotNull e) x

section

variable {α : Type} {P : Idx → Prop}

theorem WalksIn.panic (p : Panic) : WalksIn P (throw (.panic p) : K α) := Within.throw fun _ => nofun

theorem WalksIn.modify {g : Phys → Phys} (h : ∀ s, (g s).trace = s.trace) : WalksIn P (modify g : K PUnit) :=
  Within.modify fun s => Walks.of_trace (h s)

theorem WalksIn.mono {Q : Idx → Prop} {x : K α} (h : WalksIn P x) (hpq : ∀ i, P i → Q i) : WalksIn Q x :=
  fun s => wp_mono (h s) (fun _ _ ht => ht.mono hpq) (fun _ _ ht => ht.imp_left (·.mono hpq))

end

theorem walks_kalloc {P : Idx → Prop} : WalksIn P kalloc := fun _ =>
  wp_kalloc (fun _ => Walks.of_trace rfl) fun _ _ _ => Walks.of_trace rfl

theorem walks_kfree {P : Idx → Prop} (f : Frame) : WalksIn P (kfree kend f) :=
  Within.ite (WalksIn.panic _) (WalksIn.modify fun _ => rfl)

theorem walks_walkLevel {P : Idx → Prop} (f : Frame) (i : Idx) (alloc : Bool) : WalksIn P (walkLevel f i alloc) := by
  refine Within.get.bind fun s => Within.ite (Within.pure _) (Within.ite (Within.pure _) ?_)
  refine walks_kalloc.bind fun r => ?_
  cases r with
  | none => exact Within.pure _
  | some g => exact Within.bind (WalksIn.modify fun _ => rfl) fun _ => Within.pure _

theorem walks_walkpgdir (va : Addr) (alloc : Bool) : WalksIn (· = pmx va) (walkpgdir root va alloc) := by
  refine (walks_walkLevel root (pmx va) alloc).bind (Within.option (Within.pure _) fun pdp => ?_)
  have hrec : WalksIn (· = pmx va) (modify fun s : Phys => s.record (.walk (pmx va)) : K PUnit) := fun s =>
    (wp_modify _ _).2 ⟨[.walk (pmx va)], rfl, fun slot hs => by cases List.mem_singleton.1 hs; rfl⟩
  refine hrec.bind fun _ => (walks_walkLevel pdp (pdpx va) alloc).bind (Within.option (Within.pure _) fun pd => ?_)
  refine (walks_walkLevel pd (pdx va) alloc).bind fun r => ?_
  cases r <;> exact Within.pure _

theorem walks_mappages {a : Addr} (ha : a.toNat % 4096 = 0) (g : Frame) (perm : Addr) :
    WalksIn (· = pmx a) (mappages root a PGSIZE g perm) := by
  rw [mappages_page ha, mappagesLoop]
  refine (walks_walkpgdir a true).bind (Within.option (Within.pure _) fun x => ?_)
  refine Within.get.bind fun s => Within.ite (WalksIn.panic _) ?_
  exact Within.bind (WalksIn.modify fun _ => rfl) fun _ => Within.pure _

theorem walks_deallocPage (a : Addr) : WalksIn (· = pmx a) (deallocPage kend root a) := by
  refine (walks_walkpgdir a false).bind (Within.option (Within.pure _) fun x => ?_)
  refine Within.get.bind fun s => Within.ite (Within.ite (WalksIn.panic _) ?_) (Within.pure _)
  exact (walks_kfree _).bind fun _ => WalksIn.modify fun _ => rfl

/-- the slots of the page addresses in l -/
def slotsOf (l : List Addr) (i : Idx) : Prop := ∃ a ∈ l, i = pmx a

theorem walks_deallocuvm (oldsz newsz : Addr) :
    WalksIn (slotsOf (pageAddrs (pgRoundUp newsz) oldsz)) (deallocuvm kend root oldsz newsz) := by
  refine Within.ite (Within.pure _) (Within.bind ?_ fun _ => Within.pure _)
  exact Within.forM fun a ha => (walks_deallocPage a).mono fun i hi => ⟨a, ha, hi⟩

theorem walks_allocuvmLoop {oldsz newsz : Addr} (l : List Addr) (hal : ∀ a ∈ l, a.toNat % 4096 = 0)
    (hl : ∀ a ∈ l, a ∈ pageAddrs (pgRoundUp oldsz) newsz) :
    WalksIn (slotsOf (pageAddrs (pgRoundUp oldsz) newsz)) (allocuvmLoop kend root oldsz newsz l) := by
  induction l with
  | nil => exact Within.pure _
  | cons a l ih =>
    refine walks_kalloc.bind fun r => ?_
    cases r with
    | none => exact (walks_deallocuvm newsz oldsz).bind fun _ => Within.pure _
    | some g =>
      have hrec : WalksIn (slotsOf (pageAddrs (pgRoundUp oldsz) newsz))
          (modify fun s : Phys => (s.fill g 0).record (.alloc g) : K PUnit) := fun s =>
        (wp_modify _ _).2 ⟨[.alloc g], rfl, fun slot hs => by cases List.mem_singleton.1 hs⟩
      refine hrec.bind fun _ => Within.bind ((walks_mappages (hal a List.mem_cons_self) g _).mono fun i hi =>
        ⟨a, hl a List.mem_cons_self, hi⟩) fun r => Within.ite ?_ ?_
      · exact (walks_deallocuvm newsz oldsz).bind fun _ => (walks_kfree g).bind fun _ => Within.pure _
      · exact ih (fun b hb => hal b (List.mem_cons_of_mem a hb)) fun b hb => hl b (List.mem_cons_of_mem a hb)

/-! ## Leaving the user half -/

/-- from s, x walks a slot outside the user half, whether it returns or panics -/
def StraysIn {α : Type} (s : Phys) (x : K α) : Prop := wp x (fun _ t => Strays s t) (fun _ t => Strays s t) s

section

variable {α β : Type} {x : K α} {f : α → K β}

theorem StraysIn.after {P : Idx → Prop} (h2 : StraysIn t x) (h1 : Walks P s t) :
    wp x (fun _ u => Strays s u) (fun _ u => Strays s u) t :=
  wp_mono h2 (fun _ _ hu => hu.after h1) (fun _ _ hu => hu.after h1)

theorem walks_alloc {g : Frame} (h : t.trace = s.trace ++ [.alloc g]) : Walks UserSlot s t :=
  ⟨_, h, fun slot hs => by cases List.mem_singleton.1 hs⟩

theorem strays_bind (hx : StraysIn s x) (hf : ∀ a, WalksIn (fun _ => True) (f a)) : StraysIn s (x >>= f) := by
  rw [StraysIn, wp_bind]
  refine wp_imp hx (fun a t ht => ?_)
  exact wp_mono (hf a t) (fun _ _ hu => ht.then hu) (fun _ _ hu => ht.then hu.1)

theorem strays_after {Q : α → Phys → Prop} {P : Idx → Prop} (hx : wp x Q (fun _ _ => False) s) (hw : WalksIn P x)
    (hf : ∀ a t, Q a t → StraysIn t (f a)) : StraysIn s (x >>= f) := by
  rw [StraysIn, wp_bind]
  exact wp_mono (wp_and hx (hw s)) (fun a t ht => (hf a t ht.1).after ht.2) (fun _ _ he => he.1.elim)

end

/-- the first level of a walk succeeds if the entry is present, or may be allocated and a page is free -/
theorem walkLevel_some {f : Frame} {i : Idx} {alloc : Bool}
    (h : child (s.entry f i) ≠ none ∨ alloc = true ∧ s.free ≠ []) :
    wp (walkLevel f i alloc) (fun r _ => r ≠ none) (fun _ _ => False) s := by
  rw [walkLevel, wp_bind, wp_get]
  by_cases hpres : s.entry f i &&& PTE_P ≠ 0
  · rw [if_pos hpres]
    exact wp_return (Option.some_ne_none _)
  · obtain ⟨rfl, hfree⟩ := h.resolve_left fun hc => hc (if_neg hpres)
    rw [if_neg hpres, if_neg (by decide), wp_bind]
    refine wp_kalloc (fun hnil => absurd hnil hfree) fun g rest _ => ?_
    rw [wp_bind, wp_modify]
    exact wp_return (Option.some_ne_none g)

theorem walkpgdir_strays {a : Addr} {alloc : Bool} (hn : ¬ UserSlot (pmx a))
    (h : child (s.entry root (pmx a)) ≠ none ∨ alloc = true ∧ s.free ≠ []) :
    StraysIn s (walkpgdir root a alloc) := by
  refine strays_after (walkLevel_some h) (walks_walkLevel (P := fun _ => True) root (pmx a) alloc) fun r t hr => ?_
  cases r with
  | none => exact absurd rfl hr
  | some pdp =>
    refine strays_bind ((wp_modify _ _).2 (Strays.record hn)) fun _ => (walks_walkLevel pdp (pdpx a) alloc).bind (Within.option (Within.pure _) fun pd => ?_)
    refine (walks_walkLevel pd (pdx a) alloc).bind fun r => ?_
    cases r <;> exact Within.pure _

theorem mappages_strays {a : Addr} (ha : a.toNat % 4096 = 0) (hn : ¬ UserSlot (pmx a))
    (h : child (s.entry root (pmx a)) ≠ none ∨ s.free ≠ []) (g : Frame) (perm : Addr) :
    StraysIn s (mappages root a PGSIZE g perm) := by
  rw [mappages_page ha, mappagesLoop]
  refine strays_bind (walkpgdir_strays hn (h.imp_right fun hf => ⟨rfl, hf⟩)) fun r => ?_
  cases r with
  | none => exact Within.pure _
  | some x =>
    refine Within.get.bind fun s => Within.ite (WalksIn.panic _) ?_
    exact Within.bind (WalksIn.modify fun _ => rfl) fun _ => Within.pure _

theorem deallocPage_strays {a : Addr} (hn : ¬ UserSlot (pmx a)) (h : child (s.entry root (pmx a)) ≠ none) :
    StraysIn s (deallocPage kend root a) := by
  refine strays_bind (walkpgdir_strays hn (.inl h)) fun r => ?_
  cases r with
  | none => exact Within.pure _
  | some x =>
    refine Within.get.bind fun s => Within.ite (Within.ite (WalksIn.panic _) ?_) (Within.pure _)
    exact (walks_kfree _).bind fun _ => WalksIn.modify fun _ => rfl

/-- `deallocuvm` over a range that has a page address b of a present slot outside the user half, the page addresses
before b being of user slots or of empty ones -/
theorem deallocuvm_strays (hk : 0 < kend) (h : PageTable kend root hand s) {oldsz newsz b : Addr} {pre post : List Addr}
    (hlt : newsz < oldsz) (hsplit : pageAddrs (pgRoundUp newsz) oldsz = pre ++ b :: post)
    (hpre : ∀ a ∈ pre, Walkable s root a) (hn : ¬ UserSlot (pmx b))
    (hb : child (s.entry root (pmx b)) ≠ none) :
    StraysIn s (deallocuvm kend root oldsz newsz) := by
  rw [deallocuvm, if_neg (BitVec.not_le.2 hlt), hsplit]
  refine strays_bind ?_ fun _ => Within.pure _
  rw [List.forM_append]
  refine strays_after (deallocPages_spec hk h pre hpre)
    (P := fun _ => True) (Within.forM fun a _ => (walks_deallocPage a).mono fun _ _ => trivial) fun _ t ht => ?_
  rw [List.forM_cons]
  refine strays_bind (deallocPage_strays hn (by rw [ht.slots _ hn]; exact hb)) fun _ => ?_
  exact Within.forM fun a _ => (walks_deallocPage a).mono fun _ _ => trivial

/-- what `allocuvm` does once a page has been taken stays in the record's terms -/
theorem walks_rest {oldsz newsz : Addr} {l : List Addr} (hal : ∀ a ∈ l, a.toNat % 4096 = 0)
    (hl : ∀ a ∈ l, a ∈ pageAddrs (pgRoundUp oldsz) newsz) (g : Frame) (r : ℤ) :
    WalksIn (fun _ => True) (if r < 0 then do
        let _ ← deallocuvm kend root newsz oldsz
        kfree kend g
        return 0
      else allocuvmLoop kend root oldsz newsz l) := by
  refine Within.ite ?_ ((walks_allocuvmLoop l hal hl).mono fun _ _ => trivial)
  exact ((walks_deallocuvm newsz oldsz).mono fun _ _ => trivial).bind fun _ =>
    (walks_kfree g).bind fun _ => Within.pure _

/-- the growing loop from user pages that are absent up to a page address b of the kernel's slot -/
theorem allocuvmLoop_strays (hk : 0 < kend) {oldsz newsz b : Addr} {done pre post : List Addr}
    (h : PageTable kend root hand s) (hlt : oldsz < newsz)
    (hsplit : pageAddrs (pgRoundUp oldsz) newsz = done ++ (pre ++ b :: post))
    (halign : ∀ a ∈ pageAddrs (pgRoundUp oldsz) newsz, a.toNat % 4096 = 0)
    (huser : ∀ a ∈ done ++ pre, UserSlot (pmx a)) (hn : ¬ UserSlot (pmx b))
    (hb : child (s.entry root (pmx b)) ≠ none)
    (habs : ∀ a ∈ pre, s.pteAt root (dir a) (ptx a) = none) (hdis : pre.Pairwise fun a b => path a ≠ path b) :
    StraysIn s (allocuvmLoop kend root oldsz newsz (pre ++ b :: post)) := by
  have hundo : ∀ {hand' t}, PageTable kend root hand' t → child (t.entry root (pmx b)) ≠ none →
      StraysIn t (deallocuvm kend root newsz oldsz) := fun ht hbt =>
    deallocuvm_strays hk ht hlt (by rw [hsplit, List.append_assoc]) (fun a ha => .inl (huser a ha)) hn hbt
  have hmem : ∀ a ∈ pre ++ b :: post, a ∈ pageAddrs (pgRoundUp oldsz) newsz := fun a ha => by
    rw [hsplit]
    exact List.mem_append_right _ ha
  induction pre generalizing s done hand with
  | nil =>
    rw [List.nil_append, allocuvmLoop, StraysIn, wp_bind]
    refine wp_kalloc (fun _ => strays_bind (hundo h hb) fun _ => Within.pure _) fun g rest hfree => ?_
    obtain ⟨-, hkept, -⟩ := h.take_page hfree
    rw [wp_bind, wp_modify]
    have hb' := hb
    rw [← hkept.slots _ hn] at hb'
    exact StraysIn.after (strays_bind (mappages_strays (halign b (hmem b (by simp))) hn (.inl hb') g _) fun r =>
      walks_rest (fun a ha => halign a (hmem a (List.mem_cons_of_mem b ha)))
        (fun a ha => hmem a (List.mem_cons_of_mem b ha)) g r) (walks_alloc rfl)
  | cons a pre ih =>
    have hva : UserSlot (pmx a) := huser a (by simp)
    obtain ⟨hfirst, hrest⟩ := List.pairwise_cons.1 hdis
    rw [List.cons_append, allocuvmLoop, StraysIn, wp_bind]
    refine wp_kalloc (fun _ => strays_bind (hundo h hb) fun _ => Within.pure _) fun g rest hfree => ?_
    obtain ⟨h2, hkept2, hpte2, -⟩ := h.take_page hfree
    have hb2 := hb
    rw [← hkept2.slots _ hn] at hb2
    rw [wp_bind, wp_modify]
    refine StraysIn.after (strays_after (mappages_spec h2 (halign a (hmem a (by simp))) hva (.inl rfl) (by decide)
      ((hpte2 _ _ (starts_dir hva) rfl).trans (habs a List.mem_cons_self))) (walks_mappages (halign a (hmem a (by simp))) g _)
      fun r t ht => ?_) (walks_alloc rfl)
    rcases ht.1 with ⟨rfl, hgrown, -⟩ | ⟨rfl, hinv, hkept3, -, hpte3⟩
    · rw [if_pos (by decide)]
      refine strays_bind (hundo hgrown.inv ?_) fun _ => (walks_kfree g).bind fun _ => Within.pure _
      rw [hgrown.kept.slots _ hn]
      exact hb2
    · rw [if_neg (by decide)]
      have hsplit' : pageAddrs (pgRoundUp oldsz) newsz = (done ++ [a]) ++ (pre ++ b :: post) := by
        rw [hsplit, List.append_assoc]
        rfl
      refine ih hinv hsplit'
        (fun c hc => huser c (by simpa using hc)) (by rw [hkept3.slots _ hn]; exact hb2) (fun c hc => ?_) hrest
        (fun c hc => hmem c (List.mem_cons_of_mem a hc))
      have hvc : UserSlot (pmx c) := huser c (by simp [hc])
      rw [hpte3 _ _ (starts_dir hvc) rfl, if_neg, hpte2 _ _ (starts_dir hvc) rfl, habs c (List.mem_cons_of_mem a hc)]
      exact fun hcon => hfirst c hc (by rw [path, path, hcon.1, hcon.2])

/-! ## Starting above the kernel's slot -/

/-- without a free page a walk through an empty slot stops there -/
theorem mappages_no_table {a : Addr} (ha : a.toNat % 4096 = 0) (hempty : child (s.entry root (pmx a)) = none)
    (hfree : s.free = []) (g : Frame) (perm : Addr) :
    wp (mappages root a PGSIZE g perm) (fun r t => r = -1 ∧ t = s) (fun _ _ => False) s := by
  have hpres : ¬ s.entry root (pmx a) &&& PTE_P ≠ 0 := fun hc => by
    rw [child, if_pos hc] at hempty
    cases hempty
  rw [mappages_page ha, mappagesLoop, wp_bind, walkpgdir, wp_bind, walkLevel, wp_bind, wp_get, if_neg hpres,
    if_neg (by decide), wp_bind]
  refine wp_kalloc (fun _ => ?_) fun g rest hcons => by rw [hfree] at hcons; cases hcons
  exact wp_return (wp_return (wp_return ⟨rfl, rfl⟩))

/-- with two free pages the first page address of an empty slot fills the slot -/
theorem allocuvmLoop_fills {a oldsz newsz : Addr} {l : List Addr} (hfree : 2 ≤ s.free.length)
    (hn : ¬ UserSlot (pmx a)) (halign : ∀ b ∈ a :: l, b.toNat % 4096 = 0)
    (hl : ∀ b ∈ a :: l, b ∈ pageAddrs (pgRoundUp oldsz) newsz) :
    StraysIn s (allocuvmLoop kend root oldsz newsz (a :: l)) := by
  rw [allocuvmLoop, StraysIn, wp_bind]
  refine wp_kalloc (fun hnil => by rw [hnil] at hfree; simp at hfree) fun g rest hcons => ?_
  have hne : rest ≠ [] := fun hc => by rw [hcons, hc] at hfree; simp at hfree
  rw [wp_bind, wp_modify]
  exact StraysIn.after (strays_bind (mappages_strays (halign a List.mem_cons_self) hn (.inr hne) g _) fun r =>
    walks_rest (fun b hb => halign b (List.mem_cons_of_mem a hb)) (fun b hb => hl b (List.mem_cons_of_mem a hb)) g r)
    (walks_alloc rfl)

/-- with fewer than two free pages an allocation that starts at an empty slot undoes the whole range at once -/
theorem allocuvmLoop_first_fails {Q : Addr → Phys → Prop} {E : Fault → Phys → Prop} {a oldsz newsz : Addr}
    {l : List Addr} (hfree : s.free.length < 2) (ha : a.toNat % 4096 = 0)
    (hempty : child (s.entry root (pmx a)) = none) (hroot : root ∉ s.free)
    (h0 : s.free = [] → wp (deallocuvm kend root newsz oldsz >>= fun _ => pure 0) Q E s)
    (h1 : ∀ g, s.free = [g] → wp (do
        let _ ← deallocuvm kend root newsz oldsz
        kfree kend g
        return 0) Q E ((({ s with free := [] } : Phys).fill g 0).record (.alloc g))) :
    wp (allocuvmLoop kend root oldsz newsz (a :: l)) Q E s := by
  rw [allocuvmLoop, wp_bind]
  refine wp_kalloc h0 fun g rest hcons => ?_
  obtain rfl : rest = [] := List.length_eq_zero_iff.1 (by rw [hcons, List.length_cons] at hfree; omega)
  have hrg : root ≠ g := fun hc => hroot (by rw [hcons, hc]; exact List.mem_cons_self)
  rw [wp_bind, wp_modify, wp_bind]
  refine wp_safe (mappages_no_table (s := (({ s with free := [] } : Phys).fill g 0).record (.alloc g)) ha ?_ rfl g _) ?_
  · rw [show ((({ s with free := [] } : Phys).fill g 0).record (.alloc g)).entry root (pmx a) =
      (({ s with free := [] } : Phys).fill g 0).entry root (pmx a) from rfl, Phys.entry_fill, if_neg hrg]
    exact hempty
  · rintro r t ⟨rfl, rfl⟩
    rw [if_pos (by decide)]
    exact h1 g hcons

/-! ## The condition -/

/-- from s to t only slots of the user half have been walked, and neither the other slots nor the pages in hand (the
kernel's tables, the pages of other processes) have changed -/
structure StaysUser (root : Frame) (hand : Frame → Prop) (s t : Phys) : Prop where
  walks : Walks UserSlot s t
  slots : ∀ i, ¬ UserSlot i → t.entry root i = s.entry root i
  held : ∀ f, hand f → t.mem f = s.mem f

theorem Quiet.walks (h : Quiet s t) : Walks UserSlot s t := by
  obtain ⟨l, ht, -, hw⟩ := h
  exact ⟨l, ht, hw⟩

theorem Undone.stays {l : List Addr} (h : Undone kend root hand l s t) : StaysUser root hand s t :=
  ⟨h.trace.walks, h.slots, h.held⟩

theorem Allocated.stays {l : List Addr} (hs : PageTable kend root hand s) (h : Allocated kend root hand l s t) :
    StaysUser root hand s t :=
  ⟨h.kept.trace.walks, h.kept.slots, fun _ hf => hs.held_of_kept h.kept hf⟩

theorem KernelSlot.walkable (h : KernelSlot root s) {a : Addr} (ha : pmx a ≠ 256) : Walkable s root a := by
  rcases lt_trichotomy (pmx a).toNat 256 with hlt | heq | hgt
  · exact .inl hlt
  · exact absurd (BitVec.eq_of_toNat_eq heq) ha
  · exact .inr (h.empty _ hgt)

theorem not_userSlot_256 : ¬ UserSlot 256 := by decide

/-- the first address of slot 256 after an address of a user slot -/
def kernelSlotAfter (a : Addr) : Addr := BitVec.ofNat 64 (a.toNat / 2 ^ 48 * 2 ^ 48 + 2 ^ 47)

theorem toNat_kernelSlotAfter (a : Addr) : (kernelSlotAfter a).toNat = a.toNat / 2 ^ 48 * 2 ^ 48 + 2 ^ 47 := by
  have := a.isLt
  rw [kernelSlotAfter, BitVec.toNat_ofNat, Nat.mod_eq_of_lt (by omega)]

theorem pmx_kernelSlotAfter (a : Addr) : pmx (kernelSlotAfter a) = 256 :=
  BitVec.eq_of_toNat_eq (by rw [toNat_pmx, toNat_kernelSlotAfter, show (256 : Idx).toNat = 256 from rfl]; omega)

/-- a range of page addresses that starts in a user slot and goes on past the kernel's slot meets it first -/
theorem pageAddrs_kernelSlot {lo hi : Addr} (halign : lo.toNat % 4096 = 0) (hlo : UserSlot (pmx lo))
    (hhi : (kernelSlotAfter lo).toNat < hi.toNat) :
    ∃ post, pageAddrs lo hi = pageAddrs lo (kernelSlotAfter lo) ++ kernelSlotAfter lo :: post := by
  have hk := toNat_kernelSlotAfter lo
  rw [UserSlot, toNat_pmx] at hlo
  obtain ⟨post, hpost⟩ := pageAddrs_cons hhi
  refine ⟨post, ?_⟩
  rw [pageAddrs_append (m := ((kernelSlotAfter lo).toNat - lo.toNat) / 4096) (by omega) hhi.le, hpost]

theorem userSlot_below_kernelSlot {lo a : Addr} (h : a ∈ pageAddrs lo (kernelSlotAfter lo)) :
    UserSlot (pmx a) ∧ a.toNat / 2 ^ 47 = lo.toNat / 2 ^ 47 := by
  obtain ⟨k, hk, hlt⟩ := mem_pageAddrs.1 h
  rw [toNat_kernelSlotAfter] at hlt
  rw [UserSlot, toNat_pmx]
  omega

section

variable {oldsz newsz : Addr}

section

variable (hle : oldsz ≤ newsz) (hnew : newsz < KERNBASE)

include hle hnew

theorem toNat_roundUp_of_lt : (pgRoundUp oldsz).toNat = (oldsz.toNat + 4095) / 4096 * 4096 := by
  rw [BitVec.le_def] at hle
  rw [BitVec.lt_def, show KERNBASE.toNat = 0xFFFF800000000000 from rfl] at hnew
  exact pgRoundUp_toNat oldsz (by omega)

theorem pageAddrs_aligned : ∀ a ∈ pageAddrs (pgRoundUp oldsz) newsz, a.toNat % 4096 = 0 := fun a ha => by
  obtain ⟨k, hk, -⟩ := mem_pageAddrs.1 ha
  rw [toNat_roundUp_of_lt hle hnew] at hk
  omega

theorem lt_of_pageAddrs {a : Addr} (ha : a ∈ pageAddrs (pgRoundUp oldsz) newsz) : oldsz < newsz := by
  obtain ⟨k, hk, hlt⟩ := mem_pageAddrs.1 ha
  rw [toNat_roundUp_of_lt hle hnew] at hk
  rw [BitVec.lt_def]
  omega

/-- a request whose page addresses all have a user slot ends before the next kernel slot -/
theorem end_of_user_range (huser : ∀ a ∈ pageAddrs (pgRoundUp oldsz) newsz, UserSlot (pmx a)) {a : Addr}
    (ha : a ∈ pageAddrs (pgRoundUp oldsz) newsz) : newsz.toNat ≤ (kernelSlotAfter (pgRoundUp oldsz)).toNat := by
  by_contra hc
  have hlo : UserSlot (pmx (pgRoundUp oldsz)) := by
    obtain ⟨k, hk, hlt⟩ := mem_pageAddrs.1 ha
    exact huser _ (mem_pageAddrs.2 ⟨0, by omega, by omega⟩)
  have halign : (pgRoundUp oldsz).toNat % 4096 = 0 := by
    rw [toNat_roundUp_of_lt hle hnew]
    omega
  obtain ⟨post, hsplit⟩ := pageAddrs_kernelSlot halign hlo (not_le.1 hc)
  refine not_userSlot_256 (pmx_kernelSlotAfter (pgRoundUp oldsz) ▸ huser _ ?_)
  rw [hsplit]
  exact List.mem_append_right _ List.mem_cons_self

end

/-- a request inside the user half -/
theorem stays_of_user (hk : 0 < kend) (h : PageTable kend root hand s) (hle : oldsz ≤ newsz) (hnew : newsz < KERNBASE)
    (habs : ∀ a ∈ pageAddrs (pgRoundUp oldsz) newsz, UserSlot (pmx a) →
      a.toNat / 2 ^ 47 = (pgRoundUp oldsz).toNat / 2 ^ 47 → s.pteAt root (dir a) (ptx a) = none)
    (huser : ∀ a ∈ pageAddrs (pgRoundUp oldsz) newsz, UserSlot (pmx a)) :
    StaysUser root hand s (final (allocuvm kend root oldsz newsz s)) := by
  have hblock : ∀ a ∈ pageAddrs (pgRoundUp oldsz) newsz, a.toNat / 2 ^ 47 = (pgRoundUp oldsz).toNat / 2 ^ 47 := by
    intro a ha
    obtain ⟨k, hk, hlt⟩ := mem_pageAddrs.1 ha
    have hend := end_of_user_range hle hnew huser ha
    exact (userSlot_below_kernelSlot (mem_pageAddrs.2 ⟨k, hk, by omega⟩)).2
  have hdis : (pageAddrs (pgRoundUp oldsz) newsz).Pairwise fun a b => path a ≠ path b := by
    by_cases hne : pageAddrs (pgRoundUp oldsz) newsz = []
    · rw [hne]
      exact List.Pairwise.nil
    · obtain ⟨a, ha⟩ := List.exists_mem_of_ne_nil _ hne
      have hend := end_of_user_range hle hnew huser ha
      rw [toNat_kernelSlotAfter] at hend
      exact pageAddrs_pairwise (by omega)
  rw [allocuvm_eq hle hnew, ← wp_final (P := StaysUser root hand s)]
  refine wp_safe (allocuvmLoop_spec hk _ h (fun _ ha => ha) (fun hne => ?_) (fun a ha => .inl (huser a ha))
    (fun a ha => ⟨pageAddrs_aligned hle hnew a ha, huser a ha, habs a ha (huser a ha) (hblock a ha)⟩) hdis) ?_
  · obtain ⟨a, ha⟩ := List.exists_mem_of_ne_nil _ hne
    exact lt_of_pageAddrs hle hnew ha
  · rintro r t (⟨-, ht⟩ | ⟨-, ht⟩)
    · exact ht.stays
    · exact ht.stays h

/-- a request above the kernel's slot that meets no address of slot 256 and cannot even get its first table -/
theorem stays_of_no_memory (hk : 0 < kend) (h : PageTable kend root hand s) (hs : KernelSlot root s)
    (hle : oldsz ≤ newsz) (hnew : newsz < KERNBASE) (hfree : s.free.length < 2)
    (hlo : 256 < (pmx (pgRoundUp oldsz)).toNat) (hno : ∀ a ∈ pageAddrs (pgRoundUp oldsz) newsz, pmx a ≠ 256) :
    StaysUser root hand s (final (allocuvm kend root oldsz newsz s)) := by
  have hrange : ∀ a ∈ pageAddrs (pgRoundUp oldsz) newsz, Walkable s root a := fun a ha => hs.walkable (hno a ha)
  have hroot : root ∉ s.free := fun hf => h.free_apart root hf (s.owns_self root)
  rw [allocuvm_eq hle hnew, ← wp_final (P := StaysUser root hand s)]
  by_cases hlt : (pgRoundUp oldsz).toNat < newsz.toNat
  swap
  · have hnil : pageAddrs (pgRoundUp oldsz) newsz = [] := by
      rw [List.eq_nil_iff_forall_not_mem]
      intro a ha
      obtain ⟨k, hk, hlt'⟩ := mem_pageAddrs.1 ha
      omega
    rw [hnil]
    exact wp_return ⟨Walks.of_trace rfl, fun _ _ => rfl, fun _ _ => rfl⟩
  obtain ⟨l, hl⟩ := pageAddrs_cons hlt
  have hmem : pgRoundUp oldsz ∈ pageAddrs (pgRoundUp oldsz) newsz := by rw [hl]; exact List.mem_cons_self
  have holt := lt_of_pageAddrs hle hnew hmem
  rw [hl]
  refine allocuvmLoop_first_fails hfree (pageAddrs_aligned hle hnew _ hmem) (hs.empty _ hlo) hroot (fun _ => ?_) ?_
  · rw [wp_bind]
    exact wp_safe (deallocuvm_spec hk h holt hrange) (fun _ _ ht => wp_return ht.2.undone.stays)
  · intro g hg
    exact wp_safe (undo_and_free hk h hg holt (Grown.refl (h.take_page hg).1) hrange (account_take h hg))
      (fun _ _ ht => ht.2.1.stays)

theorem exists_first {α : Type} (P : α → Prop) [DecidablePred P] (l : List α) (h : ∃ a ∈ l, P a) :
    ∃ pre b post, l = pre ++ b :: post ∧ P b ∧ ∀ a ∈ pre, ¬ P a := by
  induction l with
  | nil => obtain ⟨a, ha, -⟩ := h; cases ha
  | cons c l ih =>
    by_cases hc : P c
    · exact ⟨[], c, l, rfl, hc, fun a ha => by cases ha⟩
    · obtain ⟨a, ha, hpa⟩ := h
      rcases List.mem_cons.1 ha with rfl | ha
      · exact absurd hpa hc
      · obtain ⟨pre, b, post, rfl, hb, hpre⟩ := ih ⟨a, ha, hpa⟩
        refine ⟨c :: pre, b, post, rfl, hb, fun x hx => ?_⟩
        rcases List.mem_cons.1 hx with rfl | hx
        · exact hc
        · exact hpre x hx

/-- a request with a page address outside the user half strays, unless it stops before its first table -/
theorem allocuvm_strays (hk : 0 < kend) (h : PageTable kend root hand s) (hs : KernelSlot root s)
    (hle : oldsz ≤ newsz) (hnew : newsz < KERNBASE)
    (habs : ∀ a ∈ pageAddrs (pgRoundUp oldsz) newsz, UserSlot (pmx a) →
      a.toNat / 2 ^ 47 = (pgRoundUp oldsz).toNat / 2 ^ 47 → s.pteAt root (dir a) (ptx a) = none)
    {a : Addr} (ha : a ∈ pageAddrs (pgRoundUp oldsz) newsz) (hna : ¬ UserSlot (pmx a))
    (hmem : 256 < (pmx (pgRoundUp oldsz)).toNat → s.free.length < 2 →
      ∃ b ∈ pageAddrs (pgRoundUp oldsz) newsz, pmx b = 256) :
    StraysIn s (allocuvm kend root oldsz newsz) := by
  have halign := pageAddrs_aligned hle hnew
  have holt := lt_of_pageAddrs hle hnew ha
  have hlt : (pgRoundUp oldsz).toNat < newsz.toNat := by
    obtain ⟨k, hk', hlt⟩ := mem_pageAddrs.1 ha
    omega
  obtain ⟨l, hl⟩ := pageAddrs_cons hlt
  have hfst : pgRoundUp oldsz ∈ pageAddrs (pgRoundUp oldsz) newsz := by rw [hl]; exact List.mem_cons_self
  rw [allocuvm_eq hle hnew]
  rcases lt_trichotomy (pmx (pgRoundUp oldsz)).toNat 256 with hlo | hlo | hlo
  · -- the range starts in the user half, so it reaches slot 256 first
    have hpast : (kernelSlotAfter (pgRoundUp oldsz)).toNat < newsz.toNat := by
      by_contra hc
      obtain ⟨k, hk', hlt'⟩ := mem_pageAddrs.1 ha
      exact hna (userSlot_below_kernelSlot (mem_pageAddrs.2 ⟨k, hk', by omega⟩)).1
    obtain ⟨post, hsplit⟩ := pageAddrs_kernelSlot (halign _ hfst) hlo hpast
    have hpre : ∀ b ∈ pageAddrs (pgRoundUp oldsz) (kernelSlotAfter (pgRoundUp oldsz)),
        b ∈ pageAddrs (pgRoundUp oldsz) newsz := fun b hb => by rw [hsplit]; exact List.mem_append_left _ hb
    have hpmx := pmx_kernelSlotAfter (pgRoundUp oldsz)
    have hsplit' : pageAddrs (pgRoundUp oldsz) newsz = [] ++ (pageAddrs (pgRoundUp oldsz)
        (kernelSlotAfter (pgRoundUp oldsz)) ++ kernelSlotAfter (pgRoundUp oldsz) :: post) := by
      rw [List.nil_append, hsplit]
    have hstray := allocuvmLoop_strays hk h holt hsplit' halign
      (fun b hb => (userSlot_below_kernelSlot (List.nil_append _ ▸ hb)).1) (by rw [hpmx]; exact not_userSlot_256)
      (by rw [hpmx]; exact hs.present)
      (fun b hb => habs b (hpre b hb) (userSlot_below_kernelSlot hb).1 (userSlot_below_kernelSlot hb).2)
      (pageAddrs_pairwise (by rw [toNat_kernelSlotAfter]; omega))
    rw [← hsplit] at hstray
    exact hstray
  · have hpmx : pmx (pgRoundUp oldsz) = 256 := BitVec.eq_of_toNat_eq hlo
    have hsplit : pageAddrs (pgRoundUp oldsz) newsz = [] ++ ([] ++ pgRoundUp oldsz :: l) := by
      rw [List.nil_append, List.nil_append, hl]
    have hstray := allocuvmLoop_strays hk h holt hsplit halign (fun b hb => by cases hb)
      (by rw [hpmx]; exact not_userSlot_256) (by rw [hpmx]; exact hs.present) (fun b hb => by cases hb) List.Pairwise.nil
    rw [List.nil_append, ← hl] at hstray
    exact hstray
  · have hn : ¬ UserSlot (pmx (pgRoundUp oldsz)) := by rw [UserSlot]; omega
    by_cases hfree : 2 ≤ s.free.length
    · rw [hl]
      exact allocuvmLoop_fills hfree hn (hl ▸ halign) fun b hb => hl ▸ hb
    · obtain ⟨pre, b, post, hsplit, hb, hpre⟩ := exists_first (pmx · = 256) _ (hmem hlo (by omega))
      have hroot : root ∉ s.free := fun hf => h.free_apart root hf (s.owns_self root)
      have hundo : ∀ {hand' t}, PageTable kend root hand' t → KernelSlot root t →
          StraysIn t (deallocuvm kend root newsz oldsz) := fun ht hst =>
        deallocuvm_strays hk ht holt hsplit (fun c hc => hst.walkable (hpre c hc)) (by rw [hb]; exact not_userSlot_256)
          (by rw [hb]; exact hst.present)
      rw [hl]
      refine allocuvmLoop_first_fails (by omega) (halign _ hfst) (hs.empty _ hlo) hroot
        (fun _ => strays_bind (hundo h hs) fun _ => Within.pure _) fun g hg => ?_
      obtain ⟨h2, hkept, -⟩ := h.take_page hg
      have hs2 : KernelSlot root ((({ s with free := [] } : Phys).fill g 0).record (.alloc g)) :=
        ⟨by rw [hkept.slots _ not_userSlot_256]; exact hs.present,
          fun i hi => by rw [hkept.slots _ (by rw [UserSlot]; omega)]; exact hs.empty i hi⟩
      exact StraysIn.after (strays_bind (hundo h2 hs2) fun _ => (walks_kfree g).bind fun _ => Within.pure _) (walks_alloc rfl)

/-- A request that crosses address 2^47 in a space without user pages strays, whatever memory is left. -/
theorem allocuvm_strays_past_half (hk : 0 < kend) (h : PageTable kend root hand s) (hs : KernelSlot root s)
    (hnone : ∀ q j, Starts UserSlot q → q.length = 3 → s.pteAt root q j = none)
    (hold : oldsz.toNat ≤ 2 ^ 46) (hpast : 2 ^ 47 < newsz.toNat) (hnew : newsz < KERNBASE) :
    Strays s (final (allocuvm kend root oldsz newsz s)) := by
  have hle : oldsz ≤ newsz := by
    rw [BitVec.le_def]
    omega
  have hup := toNat_roundUp_of_lt hle hnew
  have hlow : (pmx (pgRoundUp oldsz)).toNat < 256 := pmx_of_lt (by omega)
  have ha : BitVec.ofNat 64 (2 ^ 47) ∈ pageAddrs (pgRoundUp oldsz) newsz :=
    mem_pageAddrs.2 ⟨2 ^ 35 - (oldsz.toNat + 4095) / 4096, by rw [hup, BitVec.toNat_ofNat]; omega, hpast⟩
  have hstray := allocuvm_strays hk h hs hle hnew (fun a _ ha _ => hnone _ _ (starts_dir ha) rfl) ha (by decide)
    fun hc => absurd hc (by omega)
  rw [StraysIn, wp_final (P := Strays s)] at hstray
  exact hstray

/-- **When `allocuvm` stays in the user half.** On an address space whose request meets no present page before the next
kernel slot, exactly when every page address of the request has a slot below 256, or the request starts above slot 256,
fewer than two pages are free and no page address has slot 256. -/
theorem allocuvm_user_half (hk : 0 < kend) (h : PageTable kend root hand s) (hs : KernelSlot root s)
    (hle : oldsz ≤ newsz) (hnew : newsz < KERNBASE)
    (habs : ∀ a ∈ pageAddrs (pgRoundUp oldsz) newsz, UserSlot (pmx a) →
      a.toNat / 2 ^ 47 = (pgRoundUp oldsz).toNat / 2 ^ 47 → s.pteAt root (dir a) (ptx a) = none) :
    StaysUser root hand s (final (allocuvm kend root oldsz newsz s)) ↔
      (∀ a ∈ pageAddrs (pgRoundUp oldsz) newsz, UserSlot (pmx a)) ∨
      (s.free.length < 2 ∧ 256 < (pmx (pgRoundUp oldsz)).toNat ∧
        ∀ a ∈ pageAddrs (pgRoundUp oldsz) newsz, pmx a ≠ 256) := by
  constructor
  · intro hstay
    by_contra hc
    push Not at hc
    obtain ⟨⟨a, ha, hna⟩, hmem⟩ := hc
    have hstray := allocuvm_strays hk h hs hle hnew habs ha hna fun h1 h2 => hmem h2 h1
    rw [StraysIn, wp_final (P := Strays s)] at hstray
    exact hstray.not_walks hstay.walks
  · rintro (huser | ⟨hfree, hlo, hno⟩)
    · exact stays_of_user hk h hle hnew habs huser
    · exact stays_of_no_memory hk h hs hle hnew hfree hlo hno

end

/-- memory of zeroes with the given free pages -/
def blank (free : List Frame) : Phys := ⟨fun _ _ => 0, free, []⟩

/-- an address space without user pages: PML4 at page 0x200, the kernel's PDPT at page 0x201 -/
def bareSpace (free : List Frame) : Phys :=
  ((blank free).fill 0x200 0).store 0x200 256 (mkPte 0x201 (PTE_P ||| PTE_W))

theorem bareSpace_ok {free : List Frame} (hnd : (0x200 :: 0x201 :: free).Nodup)
    (hus : ∀ f ∈ (0x200 :: 0x201 :: free : List Frame), Usable 0x100000 f) :
    PageTable 0x100000 0x200 (· = 0x201) (bareSpace free) ∧ KernelSlot 0x200 (bareSpace free) ∧
      ∀ q j, Starts UserSlot q → q.length = 3 → (bareSpace free).pteAt 0x200 q j = none := by
  have hperm : (0x201 :: 0x200 :: free : List Frame).Nodup := (List.Perm.swap _ _ _).nodup_iff.1 hnd
  have h : Allocator 0x100000 (· = 0x201) (blank (0x200 :: free)) := by
    refine ⟨(List.nodup_cons.1 hperm).2, fun f hf => hf ▸ (List.nodup_cons.1 hperm).1, fun f hf => hus f ?_⟩
    rcases hf with hf | rfl
    · rcases List.mem_cons.1 hf with rfl | hf
      · exact List.mem_cons_self
      · exact List.mem_cons_of_mem _ (List.mem_cons_of_mem _ hf)
    · exact List.mem_cons_of_mem _ List.mem_cons_self
  obtain ⟨hinv, hslot, -, -, hnone, -⟩ := wp_ok (setupkvm_spec h 0x201) (a := 0x200) (t := bareSpace free) rfl
  exact ⟨hinv, hslot, hnone⟩

/-- Two pages from address 0x1000 on, with six pages free. -/
theorem allocuvm_user_half_two_pages :
    StaysUser 0x200 (· = 0x201) (bareSpace [0x202, 0x203, 0x204, 0x205, 0x206, 0x207])
      (final (allocuvm 0x100000 0x200 0x1000 0x3000 (bareSpace [0x202, 0x203, 0x204, 0x205, 0x206, 0x207]))) := by
  obtain ⟨h, hs, hnone⟩ := @bareSpace_ok [0x202, 0x203, 0x204, 0x205, 0x206, 0x207] (by decide)
    (by simp [Usable, Frame.addr, PHYSTOP])
  have huser : ∀ a ∈ pageAddrs (pgRoundUp 0x1000) 0x3000, UserSlot (pmx a) := fun a ha => by
    obtain ⟨-, -, hlt⟩ := mem_pageAddrs.1 ha
    exact pmx_of_lt (hlt.trans (by decide))
  exact (allocuvm_user_half (by decide) h hs (by decide) (by decide)
    (fun a _ ha _ => hnone _ _ (starts_dir ha) rfl)).2 (.inl huser)

/-- A request for one page past 2^47 is accepted; with no page free, the undoing loop walks the kernel's slot. -/
theorem undo_walks_kernel_slot : (0x800000001000 : Addr) < KERNBASE ∧
    Strays (bareSpace []) (final (allocuvm 0x100000 0x200 0x1000 0x800000001000 (bareSpace []))) := by
  obtain ⟨h, hs, hnone⟩ := @bareSpace_ok [] (by decide) (by simp [Usable, Frame.addr, PHYSTOP])
  exact ⟨by decide, allocuvm_strays_past_half (by decide) h hs hnone (by decide) (by decide) (by decide)⟩

end Xv6.Vm
