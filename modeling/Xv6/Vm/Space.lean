/-
The address space of a process, as `exec`, `fork` and `sbrk` lay it out, and how many pages of memory it takes.

`Space` says that the present pages of the user half are exactly those of [PGSIZE, sz), that the tables are exactly those
these pages need, and that the slots of the kernel half are as `setupkvm` leaves them. `imagePages sz` counts the pages and tables of such a space.
- `Space.new`: what `setupkvm` makes is the space of size PGSIZE;
- `Space.grow`: `allocuvm` makes the space of the new size, or fails because memory is short by this count.
-/
import Xv6.Vm.Alloc

namespace Xv6.Vm

open Xv6.Bytes Xv6.Wp Xv6.Radix

variable {kend : ℕ} {root : Frame} {hand : Frame → Prop} {s t : Phys} {a b sz newsz : Addr}

/-! ## Which tables pages need -/

/-- the tables of the user half are those the pages of [PGSIZE, sz) need -/
def Tight (root : Frame) (sz : Addr) (s : Phys) : Prop :=
  ∀ q, Starts UserSlot q → q ≠ [] → q.length < 4 → ((s.at root q).isSome ↔ ∃ a ∈ pageAddrs PGSIZE sz, q <+: dir a)

/-- pages and tables of a space of size sz, besides its PML4 -/
def imagePages (sz : ℕ) : ℕ :=
  if sz ≤ 4096 then 0
  else ((sz + 4095) / 4096 - 1) + (sz + (2 ^ 21 - 1)) / 2 ^ 21 + (sz + (2 ^ 30 - 1)) / 2 ^ 30 + (sz + (2 ^ 39 - 1)) / 2 ^ 39

theorem pageAddrs_nil {lo hi : Addr} (h : hi.toNat ≤ lo.toNat) : pageAddrs lo hi = [] := by
  rw [pageAddrs, show (hi.toNat - lo.toNat + 4095) / 4096 = 0 by omega]
  rfl

theorem toNat_add_PGSIZE (h : a.toNat < 2 ^ 48) : (a + PGSIZE).toNat = a.toNat + 4096 := by
  rw [BitVec.toNat_add, toNat_PGSIZE]
  omega

/-- the first round of a loop over page addresses -/
theorem pageAddrs_succ (h : a.toNat < sz.toNat) (hlt : a.toNat < 2 ^ 48) :
    pageAddrs a sz = a :: pageAddrs (a + PGSIZE) sz := by
  have hcount : (sz.toNat - a.toNat + 4095) / 4096 = (sz.toNat - (a.toNat + 4096) + 4095) / 4096 + 1 := by omega
  rw [pageAddrs, pageAddrs, toNat_add_PGSIZE hlt, hcount, List.range_succ_eq_map, List.map_cons, List.map_map]
  refine congrArg₂ List.cons (BitVec.add_zero a) (List.map_congr_left fun k _ => ?_)
  rw [Function.comp_apply, Nat.succ_eq_add_one, Nat.mul_add, Nat.add_comm, BitVec.ofNat_add, BitVec.add_assoc]
  rfl

/-- the last round -/
theorem pageAddrs_snoc (halign : a.toNat % 4096 = 0) (hle : 4096 ≤ a.toNat) (hlt : a.toNat < 2 ^ 48) :
    pageAddrs PGSIZE (a + PGSIZE) = pageAddrs PGSIZE a ++ [a] := by
  have hnext := toNat_add_PGSIZE hlt
  rw [@pageAddrs_append PGSIZE a (a + PGSIZE) ((a.toNat - 4096) / 4096) (by rw [toNat_PGSIZE]; omega) (by omega),
    pageAddrs_succ (by omega) hlt, pageAddrs_nil le_rfl]

/-- the page addresses depend on the end only up to rounding -/
theorem pageAddrs_pgRoundUp (h : sz.toNat ≤ 2 ^ 47) : pageAddrs PGSIZE (pgRoundUp sz) = pageAddrs PGSIZE sz := by
  rw [pageAddrs, pageAddrs, pgRoundUp_toNat sz (by omega), toNat_PGSIZE,
    show ((sz.toNat + 4095) / 4096 * 4096 - 4096 + 4095) / 4096 = (sz.toNat - 4096 + 4095) / 4096 by omega]

/-- the pages of an image -/
theorem mem_image : a ∈ pageAddrs PGSIZE sz ↔ a.toNat % 4096 = 0 ∧ 4096 ≤ a.toNat ∧ a.toNat < sz.toNat := by
  rw [mem_pageAddrs, toNat_PGSIZE]
  constructor
  · rintro ⟨k, hk, hlt⟩
    omega
  · rintro ⟨halign, hle, hlt⟩
    exact ⟨(a.toNat - 4096) / 4096, by omega, hlt⟩

theorem mem_image_grow (h : 4096 ≤ sz.toNat) (hle : sz.toNat ≤ newsz.toNat) (hnew : newsz.toNat ≤ 2 ^ 47) :
    a ∈ pageAddrs PGSIZE newsz ↔ a ∈ pageAddrs PGSIZE sz ∨ a ∈ pageAddrs (pgRoundUp sz) newsz := by
  have hround := pgRoundUp_toNat sz (by omega)
  simp only [mem_pageAddrs, toNat_PGSIZE]
  constructor
  · rintro ⟨k, hk, hlt⟩
    by_cases hsz : a.toNat < sz.toNat
    · exact .inl ⟨k, hk, hsz⟩
    · exact .inr ⟨(a.toNat - (pgRoundUp sz).toNat) / 4096, by omega, hlt⟩
  · rintro (⟨k, hk, hlt⟩ | ⟨k, hk, hlt⟩)
    · exact ⟨k, hk, by omega⟩
    · exact ⟨(a.toNat - 4096) / 4096, by omega, hlt⟩

/-- below 2^47 a page address is determined by its path -/
theorem path_ne (ha : a.toNat % 4096 = 0) (hb : b.toNat % 4096 = 0) (hal : a.toNat < 2 ^ 47) (hbl : b.toNat < 2 ^ 47)
    (hne : a ≠ b) : ¬ (dir a = dir b ∧ ptx a = ptx b) := by
  rintro ⟨hd, hp⟩
  have := path_inj (a := a) (b := b) (by rw [path, path, hd, hp])
  exact hne (BitVec.eq_of_toNat_eq (by omega))

theorem mem_tablePaths_iff {q : List Idx} : q ∈ tablePaths a ↔ q ≠ [] ∧ q.length < 4 ∧ q <+: dir a := by
  simp only [tablePaths, List.mem_cons, List.not_mem_nil, or_false]
  constructor
  · rintro (rfl | rfl | rfl) <;> simp [dir]
  · rintro ⟨hne, -, hpre⟩
    rcases q with _ | ⟨i, _ | ⟨j, _ | ⟨k, q⟩⟩⟩
    · exact absurd rfl hne
    · simp_all [dir]
    · simp_all [dir]
    · simp_all [dir]

/-- **A page more** needs its own three tables. -/
theorem Tight.spend (h : Tight root a s) (hsp : Spent root a s t) (halign : a.toNat % 4096 = 0) (hle : 4096 ≤ a.toNat)
    (hlt : a.toNat < 2 ^ 48) : Tight root (a + PGSIZE) t := by
  intro q hq hne hl
  rw [hsp.tables q hq hl, h q hq hne hl, pageAddrs_snoc halign hle hlt, mem_tablePaths_iff]
  constructor
  · rintro (⟨b, hb, hpre⟩ | ⟨-, -, hpre⟩)
    · exact ⟨b, List.mem_append_left _ hb, hpre⟩
    · exact ⟨a, List.mem_append_right _ List.mem_cons_self, hpre⟩
  · rintro ⟨b, hb, hpre⟩
    rcases List.mem_append.1 hb with hb | hb
    · exact .inl ⟨b, hb, hpre⟩
    · exact .inr ⟨hne, hl, List.mem_singleton.1 hb ▸ hpre⟩

/-! ## Counting -/

theorem mem_image_lt (hlt : a.toNat < 2 ^ 47) (hb : b ∈ pageAddrs PGSIZE a) : b.toNat < 2 ^ 47 := by
  obtain ⟨k, -, hb⟩ := mem_pageAddrs.1 hb
  omega

theorem image_userSlot (hsz : sz.toNat ≤ 2 ^ 47) (hb : b ∈ pageAddrs PGSIZE sz) : UserSlot (pmx b) := by
  obtain ⟨k, -, hb⟩ := mem_pageAddrs.1 hb
  exact pmx_of_lt (by omega)

/-- among the addresses of the user half the paths of k indices stand for blocks of 2^(48-9k) bytes -/
theorem prefix_dir_iff (ha : a.toNat < 2 ^ 47) (hb : b.toNat < 2 ^ 47) :
    ([pmx a] <+: dir b ↔ b.toNat / 2 ^ 39 = a.toNat / 2 ^ 39) ∧
      ([pmx a, pdpx a] <+: dir b ↔ b.toNat / 2 ^ 30 = a.toNat / 2 ^ 30) ∧
      (dir a <+: dir b ↔ b.toNat / 2 ^ 21 = a.toNat / 2 ^ 21) := by
  simp only [dir, List.cons_prefix_cons, List.nil_prefix, and_true, ← BitVec.toNat_inj, toNat_pmx, toNat_pdpx, toNat_pdx]
  omega

/-- does a block of d bytes hold an image page before a? -/
theorem exists_before_iff {d : ℕ} (hd : d = 2 ^ 21 ∨ d = 2 ^ 30 ∨ d = 2 ^ 39) (halign : a.toNat % 4096 = 0)
    (hle : 4096 ≤ a.toNat) :
    (∃ b ∈ pageAddrs PGSIZE a, b.toNat / d = a.toNat / d) ↔ 4096 < a.toNat ∧ a.toNat % d ≠ 0 := by
  have hlt := a.isLt
  constructor
  · rintro ⟨b, hb, hdiv⟩
    have := mem_image.1 hb
    rcases hd with rfl | rfl | rfl <;> omega
  · rintro ⟨hgt, hmod⟩
    have hprev : (BitVec.ofNat 64 (a.toNat - 4096)).toNat = a.toNat - 4096 := by
      rw [BitVec.toNat_ofNat, Nat.mod_eq_of_lt (by omega)]
    refine ⟨BitVec.ofNat 64 (a.toNat - 4096), mem_image.2 ?_, ?_⟩
    · rw [hprev]
      omega
    · rw [hprev]
      rcases hd with rfl | rfl | rfl <;> omega

theorem Tight.lacks (h : Tight root a s) {q : List Idx} (hq : Starts UserSlot q) (hne : q ≠ []) (hl : q.length < 4)
    {d : ℕ} (hd : d = 2 ^ 21 ∨ d = 2 ^ 30 ∨ d = 2 ^ 39)
    (hpre : ∀ b ∈ pageAddrs PGSIZE a, q <+: dir b ↔ b.toNat / d = a.toNat / d)
    (halign : a.toNat % 4096 = 0) (hle : 4096 ≤ a.toNat) :
    s.lacks root q = if 4096 < a.toNat ∧ a.toNat % d ≠ 0 then 0 else 1 := by
  rw [Phys.lacks]
  refine if_congr ?_ rfl rfl
  rw [h q hq hne hl, ← exists_before_iff hd halign hle]
  exact exists_congr fun b => and_congr_right fun hb => hpre b hb

/-- the next page starts a new block of d bytes, or not -/
theorem blocks_succ {n d : ℕ} (hd : d = 2 ^ 21 ∨ d = 2 ^ 30 ∨ d = 2 ^ 39) (halign : n % 4096 = 0) :
    (n + 4096 + (d - 1)) / d = (n + (d - 1)) / d + if n % d = 0 then 1 else 0 := by
  rcases hd with rfl | rfl | rfl <;> split_ifs <;> omega

/-- the tables of a first page, or of a further one -/
theorem imagePages_succ {n : ℕ} (halign : n % 4096 = 0) (hle : 4096 ≤ n) :
    imagePages (n + 4096) = imagePages n + 1 + (if 4096 < n ∧ n % 2 ^ 39 ≠ 0 then 0 else 1) +
      (if 4096 < n ∧ n % 2 ^ 30 ≠ 0 then 0 else 1) + (if 4096 < n ∧ n % 2 ^ 21 ≠ 0 then 0 else 1) := by
  rcases eq_or_lt_of_le hle with rfl | hlt
  · rfl
  · rw [imagePages, imagePages, if_neg (by omega), if_neg (by omega), blocks_succ (.inl rfl) halign,
      blocks_succ (.inr (.inl rfl)) halign, blocks_succ (.inr (.inr rfl)) halign,
      show (n + 4096 + 4095) / 4096 - 1 = (n + 4095) / 4096 - 1 + 1 by omega]
    simp only [hlt, true_and, ne_eq, ite_not]
    ring

/-- **The price of a page** in a space that ends at it. -/
theorem Tight.missing (h : Tight root a s) (halign : a.toNat % 4096 = 0) (hle : 4096 ≤ a.toNat) (hlt : a.toNat < 2 ^ 47) :
    imagePages a.toNat + (s.missing root a + 1) = imagePages (a.toNat + 4096) := by
  have hst : ∀ p : List Idx, Starts UserSlot (pmx a :: p) := fun p i hi => by cases hi; exact pmx_of_lt hlt
  have hpre := fun b hb => prefix_dir_iff hlt (mem_image_lt hlt (b := b) hb)
  have h1 := h.lacks (hst []) (by simp) (by simp) (.inr (.inr rfl)) (fun b hb => (hpre b hb).1) halign hle
  have h2 := h.lacks (hst [pdpx a]) (by simp) (by simp) (.inr (.inl rfl)) (fun b hb => (hpre b hb).2.1) halign hle
  have h3 := h.lacks (hst [pdpx a, pdx a]) (by simp) (by simp) (.inl rfl) (fun b hb => (hpre b hb).2.2) halign hle
  have hsum : s.missing root a = s.lacks root [pmx a] + (s.lacks root [pmx a, pdpx a] + s.lacks root (dir a)) := rfl
  rw [hsum, h1, h2, dir, h3, imagePages_succ halign hle]
  ring

theorem imagePages_mono {m n : ℕ} (h : m ≤ n) : imagePages m ≤ imagePages n := by
  rw [imagePages, imagePages]
  split_ifs
  · exact le_rfl
  · exact Nat.zero_le _
  · omega
  · gcongr

/-- blocks are counted the same after rounding up to a page -/
theorem blocks_round {n m d : ℕ} (hd : d = 2 ^ 21 ∨ d = 2 ^ 30 ∨ d = 2 ^ 39) (hm : n ≤ 4096 * m) (hm' : 4096 * m < n + 4096) :
    (4096 * m + (d - 1)) / d = (n + (d - 1)) / d := by
  rcases hd with rfl | rfl | rfl <;> omega

theorem imagePages_pgRoundUp (h : sz.toNat ≤ 2 ^ 47) : imagePages (pgRoundUp sz).toNat = imagePages sz.toNat := by
  obtain ⟨m, hm, hle, hlt⟩ : ∃ m, (pgRoundUp sz).toNat = 4096 * m ∧ sz.toNat ≤ 4096 * m ∧ 4096 * m < sz.toNat + 4096 :=
    ⟨(sz.toNat + 4095) / 4096, by rw [pgRoundUp_toNat sz (by omega), Nat.mul_comm], by omega, by omega⟩
  rw [hm, imagePages, imagePages, blocks_round (.inl rfl) hle hlt, blocks_round (.inr (.inl rfl)) hle hlt,
    blocks_round (.inr (.inr rfl)) hle hlt, show (4096 * m + 4095) / 4096 = (sz.toNat + 4095) / 4096 by omega]
  exact if_congr (by omega) rfl rfl

/-- **What `allocuvm` costs**, from a space that ends at a. -/
theorem allocuvmLoop_count (hk : 0 < kend) {oldsz : Addr} (l : List Addr) (hl : l = pageAddrs a newsz)
    (h : PageTable kend root hand s) (htight : Tight root a s) (hnew : newsz.toNat ≤ 2 ^ 47)
    (halign : a.toNat % 4096 = 0) (hle : 4096 ≤ a.toNat) (hend : a.toNat < newsz.toNat + 4096)
    (hold : l ≠ [] → oldsz < newsz)
    (habs : ∀ b ∈ pageAddrs a newsz, s.pteAt root (dir b) (ptx b) = none) :
    wp (allocuvmLoop kend root oldsz newsz l)
      (fun r t => (r = 0 ∧ s.free.length + imagePages a.toNat < imagePages newsz.toNat) ∨
        (r = newsz ∧ t.free.length + imagePages newsz.toNat = s.free.length + imagePages a.toNat ∧ Tight root newsz t))
      (fun _ _ => False) s := by
  have hwalk : ∀ {t}, ∀ b ∈ pageAddrs (pgRoundUp oldsz) newsz, Walkable t root b := fun b hb => by
    obtain ⟨k, -, hlt⟩ := mem_pageAddrs.1 hb
    exact .inl (pmx_of_lt (by omega))
  induction l generalizing a s with
  | nil =>
    have hge : newsz.toNat ≤ a.toNat := by
      by_contra hc
      rw [pageAddrs_succ (by omega) (by omega)] at hl
      cases hl
    have hround : a = pgRoundUp newsz := BitVec.eq_of_toNat_eq (by rw [pgRoundUp_toNat newsz (by omega)]; omega)
    have hpages : pageAddrs PGSIZE a = pageAddrs PGSIZE newsz := by rw [hround, pageAddrs_pgRoundUp hnew]
    refine wp_return (.inr ⟨rfl, by rw [hround, imagePages_pgRoundUp hnew], ?_⟩)
    intro q hq hne hlen
    rw [htight q hq hne hlen, hpages]
  | cons b l ih =>
    have hlt : a.toNat < newsz.toNat := by
      by_contra hc
      rw [pageAddrs_nil (by omega)] at hl
      cases hl
    have hcons := pageAddrs_succ hlt (by omega)
    rw [hcons] at hl habs
    obtain ⟨rfl, hl⟩ := List.cons.inj hl
    have hnext : (b + PGSIZE).toNat = b.toNat + 4096 := toNat_add_PGSIZE (by omega)
    have hprice := htight.missing halign hle (by omega)
    have hlt' := hold (List.cons_ne_nil b l)
    refine wp_allocuvmLoop_cons hk h hlt' hwalk halign (pmx_of_lt (by omega)) (habs b List.mem_cons_self) ?_ ?_
    · intro t _ _ hfew
      refine .inl ⟨rfl, ?_⟩
      have hmono : imagePages (b.toNat + 4096) ≤ imagePages newsz.toNat := by
        rw [← imagePages_pgRoundUp hnew]
        exact imagePages_mono (by rw [pgRoundUp_toNat newsz (by omega)]; omega)
      omega
    · intro t hone _ hspent
      refine wp_imp (ih hl hone.inv (htight.spend hspent halign hle (by omega)) (by omega) (by omega) (by omega)
        (fun _ => hlt') ?_) ?_
      · intro c hc
        have hvc : UserSlot (pmx c) := by
          obtain ⟨k, -, hlt⟩ := mem_pageAddrs.1 hc
          exact pmx_of_lt (by omega)
        rw [hone.pte _ _ (starts_dir hvc) rfl, habs c (List.mem_cons_of_mem b hc)]
        rintro x hx ⟨hd, hp⟩
        obtain rfl := List.mem_singleton.1 hx
        have hpath := path_inj (a := c) (b := x) (by rw [path, path, hd, hp])
        obtain ⟨k, hk, hlt⟩ := mem_pageAddrs.1 hc
        omega
      · have hcount := hspent.count
        rw [hnext]
        rintro r u (⟨rfl, hr⟩ | ⟨rfl, hr, htu⟩)
        · exact .inl ⟨rfl, by omega⟩
        · exact .inr ⟨rfl, by omega, htu⟩

/-! ## Spaces -/

/-- the address space of a process of size sz -/
structure Space (kend : ℕ) (root : Frame) (hand : Frame → Prop) (sz : Addr) (s : Phys) : Prop where
  inv : PageTable kend root hand s
  kernel : KernelSlot root s
  low : 4096 ≤ sz.toNat
  high : sz.toNat ≤ 2 ^ 47
  page : ∀ a ∈ pageAddrs PGSIZE sz, s.pteAt root (dir a) (ptx a) ≠ none
  absent : ∀ a, a.toNat % 4096 = 0 → a.toNat < 2 ^ 47 → a ∉ pageAddrs PGSIZE sz → s.pteAt root (dir a) (ptx a) = none
  tight : Tight root sz s

/-- **`setupkvm`** makes the smallest space; without a free page it writes through address 0. -/
theorem Space.new (h : Allocator kend hand s) (kpdpt : Frame) :
    wp (setupkvm kpdpt)
      (fun root t => Space kend root hand PGSIZE t ∧ s.free = root :: t.free ∧ t.trace = s.trace)
      (fun e t => e = .pageFault 0 ∧ t = s ∧ s.free = []) s := by
  refine wp_imp (setupkvm_spec h kpdpt) ?_
  rintro root t ⟨hinv, hslot, hfree, htr, hnone, htables⟩
  have hempty : pageAddrs PGSIZE PGSIZE = [] := pageAddrs_nil le_rfl
  refine ⟨⟨hinv, hslot, le_rfl, by decide, ?_, ?_, ?_⟩, hfree, htr⟩
  · rw [hempty]
    exact fun a ha => by cases ha
  · exact fun a _ hlt _ => hnone _ _ (starts_dir (pmx_of_lt hlt)) rfl
  · intro q hq hne _
    rw [hempty, htables q hq hne]
    simp

theorem KernelSlot.of_slots (h : KernelSlot root s) (hslots : ∀ i, ¬ UserSlot i → t.entry root i = s.entry root i) :
    KernelSlot root t :=
  ⟨by rw [hslots 256 (by decide)]; exact h.present, fun i hi => by
    rw [hslots i fun hc => absurd hc (by rw [UserSlot]; omega)]
    exact h.empty i hi⟩

/-- **`allocuvm`** makes the space of the new size, or fails because memory is short by the count of pages. -/
theorem Space.grow (hk : 0 < kend) (h : Space kend root hand sz s) (hle : sz ≤ newsz) (hnew : newsz.toNat ≤ 2 ^ 47) :
    wp (allocuvm kend root sz newsz)
      (fun r t => (r = 0 ∧ s.free.length + imagePages sz.toNat < imagePages newsz.toNat ∧
          Undone kend root hand (pageAddrs (pgRoundUp sz) newsz) s t) ∨
        (r = newsz ∧ t.free.length + imagePages newsz.toNat = s.free.length + imagePages sz.toNat ∧
          Space kend root hand newsz t ∧ Allocated kend root hand (pageAddrs (pgRoundUp sz) newsz) s t))
      (fun _ _ => False) s := by
  have hlow := h.low
  have hle' := hle
  rw [BitVec.le_def] at hle'
  have hround := pgRoundUp_toNat sz (by omega)
  have hkern := lt_KERNBASE hnew
  have hnewpage : ∀ a ∈ pageAddrs (pgRoundUp sz) newsz,
      a.toNat % 4096 = 0 ∧ sz.toNat ≤ a.toNat ∧ a.toNat < 2 ^ 47 := fun a ha => by
    obtain ⟨k, hk, hlt⟩ := mem_pageAddrs.1 ha
    omega
  have habs : ∀ a ∈ pageAddrs (pgRoundUp sz) newsz, s.pteAt root (dir a) (ptx a) = none := fun a ha => by
    obtain ⟨halign, hge, hlt⟩ := hnewpage a ha
    refine h.absent a halign hlt fun hc => ?_
    obtain ⟨k, -, hk⟩ := mem_pageAddrs.1 hc
    omega
  have hold : pageAddrs (pgRoundUp sz) newsz ≠ [] → sz < newsz := fun hne => by
    obtain ⟨a, ha⟩ := List.exists_mem_of_ne_nil _ hne
    obtain ⟨k, hk, hlt⟩ := mem_pageAddrs.1 ha
    rw [BitVec.lt_def]
    omega
  have htight : Tight root (pgRoundUp sz) s := fun q hq hne hl => by
    rw [h.tight q hq hne hl, pageAddrs_pgRoundUp h.high]
  have hcount := allocuvmLoop_count hk _ rfl h.inv htight hnew (by omega) (by omega) (by omega) hold habs
  rw [← allocuvm_eq hle hkern, imagePages_pgRoundUp h.high] at hcount
  refine wp_mono (wp_and (allocuvm_spec hk h.inv hle hnew habs) hcount) ?_ (fun _ _ he => he.1)
  have hzero : newsz ≠ 0 := fun hc => by rw [hc] at hle'; exact absurd hle' (by simp; omega)
  rintro r t ⟨⟨⟨rfl, hundone⟩ | ⟨rfl, halloc⟩, -⟩, ⟨hr, hfew⟩ | ⟨hr, hfree, htight'⟩⟩
  · exact .inl ⟨rfl, hfew, hundone⟩
  · exact absurd hr.symm hzero
  · exact absurd hr hzero
  · refine .inr ⟨rfl, hfree, ⟨halloc.inv, h.kernel.of_slots halloc.kept.slots, by omega, hnew, ?_, ?_, htight'⟩, halloc⟩
    · intro a ha
      rcases (mem_image_grow hlow hle' hnew).1 ha with ha | ha
      · obtain ⟨halign, -, hlt⟩ := mem_image.1 ha
        have hpte := halloc.pte (dir a) (ptx a) (starts_dir (pmx_of_lt (by omega))) rfl fun b hb => by
          obtain ⟨hb1, hb2, hb3⟩ := hnewpage b hb
          exact path_ne (by omega) hb1 (by omega) hb3 fun hc => by rw [hc] at hlt; omega
        rw [hpte]
        exact h.page a ha
      · obtain ⟨g, hg, -⟩ := halloc.new a ha
        rw [hg]
        exact Option.some_ne_none _
    · intro a halign hlt hout
      rw [mem_image_grow hlow hle' hnew, not_or] at hout
      rw [halloc.pte (dir a) (ptx a) (starts_dir (pmx_of_lt hlt)) rfl fun b hb => ?_]
      · exact h.absent a halign hlt hout.1
      · obtain ⟨hb1, -, hb3⟩ := hnewpage b hb
        exact path_ne halign hb1 hlt hb3 fun hc => hout.2 (hc ▸ hb)

/-- the space in a state with the same tables -/
theorem Space.of_tables {hand' : Frame → Prop} (h : Space kend root hand sz s)
    (hmem : ∀ f, s.Table root f → t.mem f = s.mem f) (hinv : PageTable kend root hand' t) : Space kend root hand' sz t := by
  have hat : ∀ q, Starts UserSlot q → q.length ≤ 4 → t.at root q = s.at root q := fun q hq hl =>
    Phys.at_congr hmem hq hl
  have hpte : ∀ a : Addr, a.toNat < 2 ^ 47 → t.pteAt root (dir a) (ptx a) = s.pteAt root (dir a) (ptx a) := fun a ha =>
    Phys.pteAt_congr hmem _ (starts_dir (pmx_of_lt ha)) rfl
  have hroot : t.mem root = s.mem root := hmem root ⟨[], starts_nil, by simp, rfl⟩
  refine ⟨hinv, h.kernel.of_slots fun i _ => by simp only [Phys.entry, hroot], h.low, h.high, ?_, ?_, ?_⟩
  · intro a ha
    obtain ⟨k, -, hlt⟩ := mem_pageAddrs.1 ha
    have hhigh := h.high
    rw [hpte a (by omega)]
    exact h.page a ha
  · intro a halign hlt hout
    rw [hpte a hlt]
    exact h.absent a halign hlt hout
  · intro q hq hne hl
    rw [hat q hq (by omega)]
    exact h.tight q hq hne hl

/-- a space depends on the state through its tables and the free list only -/
theorem Space.congr (h : Space kend root hand sz s) (hmem : ∀ f, s.Table root f → t.mem f = s.mem f)
    (hfree : t.free = s.free) : Space kend root hand sz t :=
  h.of_tables hmem (h.inv.of_at hfree fun _ hq hl => Phys.at_congr hmem hq hl)

/-- the size matters up to the end of its last page -/
theorem Space.round (h : Space kend root hand sz s) (hsz : sz.toNat < 2 ^ 46) : Space kend root hand (pgRoundUp sz) s := by
  have hround := pgRoundUp_toNat sz (by omega)
  have hlow := h.low
  have hpages := pageAddrs_pgRoundUp h.high
  refine ⟨h.inv, h.kernel, by omega, by omega, by rw [hpages]; exact h.page, by rw [hpages]; exact h.absent, ?_⟩
  intro q hq hne hl
  rw [hpages]
  exact h.tight q hq hne hl

/-- the tables of page 0 are there as soon as there is a page -/
theorem Space.first_table (h : Space kend root hand sz s) : (s.at root (dir 0)).isSome ↔ 4096 < sz.toNat := by
  rw [h.tight (dir 0) (starts_dir (by decide)) (by simp [dir]) (by simp [dir])]
  constructor
  · rintro ⟨a, ha, -⟩
    have := mem_image.1 ha
    omega
  · intro hlt
    exact ⟨PGSIZE, mem_image.2 ⟨rfl, le_rfl, hlt⟩, by decide⟩

/-- there are no more free pages than physical memory has -/
theorem PageTable.free_bound (h : PageTable kend root hand s) : s.free.length ≤ 57344 := by
  have hnd : (s.free.map BitVec.toNat).Nodup := h.nodup.map fun x y hxy => BitVec.eq_of_toNat_eq hxy
  have hsub : s.free.map BitVec.toNat ⊆ List.range 57344 := fun n hn => by
    obtain ⟨f, hf, rfl⟩ := List.mem_map.1 hn
    have := (h.usable f (.inl hf)).2
    rw [Frame.addr, PHYSTOP] at this
    exact List.mem_range.2 (by omega)
  calc s.free.length = (s.free.map BitVec.toNat).length := (List.length_map _).symm
    _ ≤ (List.range 57344).length := (hnd.subperm hsub).length_le
    _ = 57344 := List.length_range

/-! ## Looking up an address -/

theorem wp_lookup {Q : Option (Frame × Idx) → Phys → Prop} {E : Fault → Phys → Prop} {a : Addr} {pt : Frame}
    (h : s.at root (dir a) = some pt) (hQ : Q (some (pt, ptx a)) (s.looked root a)) : wp (walkpgdir root a false) Q E s := by
  rw [wp_walkpgdir_false, show follow child s.entry root (dir a) = some pt from h]
  exact hQ

theorem wp_lookup_none {Q : Option (Frame × Idx) → Phys → Prop} {E : Fault → Phys → Prop} {a : Addr}
    (h : s.at root (dir a) = none) (hQ : Q none (s.looked root a)) : wp (walkpgdir root a false) Q E s := by
  rw [wp_walkpgdir_false, show follow child s.entry root (dir a) = none from h]
  exact hQ

theorem Phys.pteAt_looked (root : Frame) (a : Addr) (p : List Idx) (i : Idx) :
    (s.looked root a).pteAt root p i = s.pteAt root p i := by
  rw [Phys.looked]
  split_ifs <;> rfl

theorem pteAt_some {p : List Idx} {i : Idx} {e : Addr} (h : s.pteAt root p i = some e) :
    ∃ pt, s.at root p = some pt ∧ s.entry pt i = e ∧ e &&& PTE_P ≠ 0 := by
  cases hpt : s.at root p with
  | none => rw [Phys.pteAt_eq_none hpt] at h; cases h
  | some pt =>
    rw [Phys.pteAt_eq_filter hpt, Option.filter_eq_some_iff] at h
    exact ⟨pt, rfl, Option.some.inj h.1, by simpa [Option.some.inj h.1] using h.2⟩

theorem pteAt_none {p : List Idx} {i : Idx} {pt : Frame} (h : s.pteAt root p i = none) (hpt : s.at root p = some pt) :
    s.entry pt i &&& PTE_P = 0 := by
  rw [Phys.pteAt_eq_filter hpt] at h
  simpa using h

/-- the PTE of page 0 is there but not present -/
theorem Space.page_zero (h : Space kend root hand sz s) (hsz : 4096 < sz.toNat) :
    ∃ pt, s.at root (dir 0) = some pt ∧ s.entry pt (ptx 0) &&& PTE_P = 0 := by
  obtain ⟨pt, hpt⟩ := Option.isSome_iff_exists.1 (h.first_table.2 hsz)
  refine ⟨pt, hpt, pteAt_none (h.absent 0 rfl (by decide) fun hc => ?_) hpt⟩
  obtain ⟨k, hk, -⟩ := mem_pageAddrs.1 hc
  rw [toNat_PGSIZE, show (0 : Addr).toNat = 0 from rfl] at hk
  omega

end Xv6.Vm
