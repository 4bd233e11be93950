/-
What `exec` puts into the new address space.

The memory of the new image is a store `img` by address: `Shows root sz img t` says that the pages of [PGSIZE, sz) hold
it. `Built` is the state of `exec` between two headers: the pages and tables come from the free list, all of them are
accounted for, the pages in use by others are as before, and the image shows img, which is 0 from sz on. The file bytes
copied so far are in the record: it is `Clean` if all of them went to pages of the image.

- `Built.loaduvm`: the file bytes of a segment are written over the image, or the file is too short. For a segment at
  address 0 the bytes of the first page go to the page of an entry that is 0, which is nobody's;
- `Built.allocuvm`: the image grows by pages of zeros, or memory is short;
- `Built.stackPages`: the guard and the stack are two more pages of zeros.
-/
import Xv6.Exec.Model
import Xv6.Vm.Sbrk
import Xv6.Vm.Tidy
import Xv6.Vm.UserHalf

namespace Xv6.Exec

open Xv6.Bytes Xv6.Vm Xv6.Wp Xv6.Radix

variable {kend : ℕ} {root : Frame} {hand : Frame → Prop} {s0 s t : Phys} {sz : Addr} {ip : File} {img : Store} {pages : ℕ}

/-! ## The record of loads -/

/-- every page that received file bytes was found by a present PTE and had been taken by `allocuvm` before -/
def LoadsOk (l : List Event) : Prop :=
  ∀ l1 f b l2, l = l1 ++ .load f b :: l2 → b = true ∧ .alloc f ∈ l1

theorem LoadsOk.nil : LoadsOk [] := fun l1 f b l2 h => by
  have := congrArg List.length h
  simp at this

theorem LoadsOk.snoc {l : List Event} {e : Event} (h : LoadsOk l)
    (he : ∀ f b, e = .load f b → b = true ∧ .alloc f ∈ l) : LoadsOk (l ++ [e]) := by
  intro l1 f b l2 hl
  rcases List.eq_nil_or_concat l2 with rfl | ⟨l3, x, rfl⟩
  · obtain ⟨rfl, hx⟩ := List.append_inj' hl rfl
    exact he f b (List.singleton_inj.1 hx)
  · rw [List.concat_eq_append, ← List.cons_append, ← List.append_assoc] at hl
    obtain ⟨rfl, -⟩ := List.append_inj' hl rfl
    exact h l1 f b l3 rfl

theorem LoadsOk.append {l k : List Event} (h : LoadsOk l) (hk : ∀ f b, .load f b ∉ k) : LoadsOk (l ++ k) := by
  induction k generalizing l with
  | nil => rw [List.append_nil]; exact h
  | cons e k ih =>
    rw [← List.singleton_append, ← List.append_assoc]
    exact ih (h.snoc fun f b he => absurd (he ▸ List.mem_cons_self) (hk f b))
      fun f b hf => hk f b (List.mem_cons_of_mem e hf)

/-- no stray load since s -/
def Clean (s t : Phys) : Prop := ∃ l, t.trace = s.trace ++ l ∧ LoadsOk l

theorem Clean.quiet (h : Clean s0 s) (hq : Quiet s t) : Clean s0 t := by
  obtain ⟨l, hl, hok⟩ := h
  obtain ⟨k, hk, hload, -⟩ := hq
  exact ⟨l ++ k, by rw [hk, hl, List.append_assoc], hok.append hload⟩

/-- file bytes in a page that `allocuvm` has taken -/
theorem Clean.load (h : Clean s0 s) {f : Frame} (hf : Since s0 s (.alloc f)) (ht : t.trace = s.trace ++ [.load f true]) :
    Clean s0 t := by
  obtain ⟨l, hl, hok⟩ := h
  obtain ⟨k, hk, hmem⟩ := hf
  obtain rfl := List.append_cancel_left (hl.symm.trans hk)
  refine ⟨l ++ [.load f true], by rw [ht, hl, List.append_assoc], hok.snoc fun g b he => ?_⟩
  cases he
  exact ⟨rfl, hmem⟩

/-- since s0 some file bytes have been copied through a PTE that is not present -/
def Strayed (s0 t : Phys) : Prop := ∃ l, t.trace = s0.trace ++ l ∧ ∃ f, .load f false ∈ l

theorem Strayed.append {k : List Event} (h : Strayed s0 s) (ht : t.trace = s.trace ++ k) : Strayed s0 t := by
  obtain ⟨l, hl, f, hf⟩ := h
  exact ⟨l ++ k, by rw [ht, hl, List.append_assoc], f, List.mem_append_left _ hf⟩

theorem Strayed.quiet (h : Strayed s0 s) (hq : Quiet s t) : Strayed s0 t := by
  obtain ⟨k, hk, -⟩ := hq
  exact h.append hk

theorem Clean.stray (h : Clean s0 s) {f : Frame} (ht : t.trace = s.trace ++ [.load f false]) : Strayed s0 t := by
  obtain ⟨l, hl, -⟩ := h
  exact ⟨l ++ [.load f false], by rw [ht, hl, List.append_assoc], f, List.mem_append_right _ List.mem_cons_self⟩

/-- the loads since s0: some of them went astray, or none did -/
def Loads (s0 t : Phys) (astray : Prop) : Prop := (astray → Strayed s0 t) ∧ (¬ astray → Clean s0 t)

theorem Loads.quiet {p : Prop} (h : Loads s0 s p) (hq : Quiet s t) : Loads s0 t p :=
  ⟨fun hp => (h.1 hp).quiet hq, fun hp => (h.2 hp).quiet hq⟩

/-- file bytes copied through an entry, which is absent or leads to a page that `allocuvm` has taken -/
theorem Loads.copyIn {p : Prop} {e : Addr} (h : Loads s0 s p) (hpage : e &&& PTE_P ≠ 0 → Since s0 s (.alloc (pteFrame e)))
    (bytes : List Byte) : Loads s0 (copyIn s e bytes) (p ∨ e &&& PTE_P = 0 ∧ bytes ≠ []) := by
  by_cases hnil : bytes = []
  · rw [Exec.copyIn, if_pos hnil]
    simpa [hnil] using h
  have htrace : (Exec.copyIn s e bytes).trace = s.trace ++ [.load (pteFrame e) (e &&& PTE_P ≠ 0)] := by
    rw [Exec.copyIn, if_neg hnil]
    rfl
  refine ⟨fun hp => ?_, fun hp => ?_⟩
  · by_cases hold : p
    · exact (h.1 hold).append htrace
    · have habsent := (hp.resolve_left hold).1
      exact (h.2 hold).stray (by rw [htrace, decide_eq_false (not_not.2 habsent)])
  · have hpres : e &&& PTE_P ≠ 0 := fun hc => hp (.inr ⟨hc, hnil⟩)
    exact (h.2 fun hc => hp (.inl hc)).load (hpage hpres) (by rw [htrace, decide_eq_true hpres])

/-! ## `readi` -/

theorem File.size_lt (ip : File) : ip.size ≤ 71680 := ip.bound

/-- a read of at most a page: all the bytes there are, or -1 from an offset past the end -/
theorem File.readi_page (ip : File) (off : UInt) {n : UInt} (hn : n.toNat ≤ 4096) :
    (ip.size < off.toNat ∧ ip.readi off n = none) ∨
      (off.toNat ≤ ip.size ∧ ∃ bytes, ip.readi off n = some bytes ∧ bytes = (ip.data.drop off.toNat).take n.toNat ∧
        bytes.length = min n.toNat (ip.size - off.toNat)) := by
  have hsize := ip.size_lt
  rcases lt_or_ge ip.size off.toNat with hlt | hge
  · exact .inl ⟨hlt, by rw [File.readi, if_pos (.inl hlt)]⟩
  · have hsum : (off + n).toNat = off.toNat + n.toNat := by rw [BitVec.toNat_add]; omega
    have hnowrap : ¬ (ip.size < off.toNat ∨ off + n < off) := by
      rw [BitVec.lt_def]
      omega
    refine .inr ⟨hge, _, by rw [File.readi, if_neg hnowrap], ?_, ?_⟩
    · rw [hsum]
      split_ifs with hlong
      · rw [List.take_of_length_le (by rw [List.length_drop, ← File.size]), List.take_of_length_le]
        rw [List.length_drop, ← File.size]
        omega
      · rfl
    · rw [List.length_take, List.length_drop, hsum, ← File.size]
      split_ifs <;> omega

/-- the file has the bytes of a segment -/
def File.Holds (ip : File) (offset n : UInt) : Prop := n = 0 ∨ offset.toNat + n.toNat ≤ ip.size

instance (ip : File) (offset n : UInt) : Decidable (ip.Holds offset n) := inferInstanceAs (Decidable (_ ∨ _))

/-- the bytes of a segment -/
def File.segment (ip : File) (offset : UInt) (m : ℕ) : List Byte := (ip.data.drop offset.toNat).take m

theorem File.segment_eq (ip : File) {offset : UInt} {m j : ℕ} (h : ip.size - offset.toNat ≤ m)
    (h' : ip.size - offset.toNat ≤ j) : ip.segment offset m = ip.segment offset j := by
  rw [File.size, ← List.length_drop] at h h'
  rw [File.segment, File.segment, List.take_of_length_le h, List.take_of_length_le h']

theorem File.length_segment (ip : File) (offset : UInt) (m : ℕ) :
    (ip.segment offset m).length = min m (ip.size - offset.toNat) := by
  rw [File.segment, List.length_take, List.length_drop, File.size]

/-! ## Pages and their bytes -/

/-- the pages of [PGSIZE, sz) hold the bytes of img -/
def Shows (root : Frame) (sz : Addr) (img : Store) (t : Phys) : Prop :=
  ∀ a ∈ pageAddrs PGSIZE sz, ∀ e, t.pteAt root (dir a) (ptx a) = some e → ∀ i < 4096, t.mem (pteFrame e) i = img (a.toNat + i)

/-- the image below PGSIZE does not show -/
theorem Shows.congr {img' : Store} (h : Shows root sz img t) (himg : ∀ x, 4096 ≤ x → img' x = img x) : Shows root sz img' t := by
  intro a ha e he i hi
  have := mem_image.1 ha
  rw [h a ha e he i hi, himg _ (by omega)]

/-- the same pages with the same bytes -/
theorem Shows.of_pages (h : Shows root sz img s)
    (hpte : ∀ a ∈ pageAddrs PGSIZE sz, (t.pteAt root (dir a) (ptx a)).map pteFrame = (s.pteAt root (dir a) (ptx a)).map pteFrame)
    (hmem : ∀ a ∈ pageAddrs PGSIZE sz, ∀ e, s.pteAt root (dir a) (ptx a) = some e → t.mem (pteFrame e) = s.mem (pteFrame e)) :
    Shows root sz img t := by
  intro a ha e he i hi
  have hmap := hpte a ha
  rw [he, Option.map_some] at hmap
  obtain ⟨e', he', hframe⟩ := Option.map_eq_some_iff.1 hmap.symm
  rw [← hframe, hmem a ha e' he']
  exact h a ha e' he' i hi

/-- **Bytes written to a page** are written to the image. -/
theorem Shows.write (hspace : Space kend root hand sz s) (h : Shows root sz img s) {a e : Addr} (ha : a ∈ pageAddrs PGSIZE sz)
    (he : s.pteAt root (dir a) (ptx a) = some e) {o : ℕ} {bytes : List Byte} (hlen : o + bytes.length ≤ 4096) :
    Shows root sz (blit img (a.toNat + o) bytes) (Exec.write s (pteFrame e) o bytes) := by
  have hslot := fun b hb => image_userSlot (b := b) hspace.high hb
  obtain ⟨-, htable⟩ := hspace.inv.page_apart (starts_path (hslot a ha)) rfl he
  have hmem : ∀ f, s.Table root f → (Exec.write s (pteFrame e) o bytes).mem f = s.mem f := fun f hf =>
    Function.update_of_ne (fun hc : f = pteFrame e => htable (hc ▸ hf)) _ _
  have haa := mem_image.1 ha
  intro b hb e' he' i hi
  have hbb := mem_image.1 hb
  have hhigh := hspace.high
  rw [Phys.pteAt_congr hmem _ (starts_dir (hslot b hb)) rfl] at he'
  by_cases hab : b = a
  · subst hab
    obtain rfl := Option.some.inj (he.symm.trans he')
    have hput : (Exec.write s (pteFrame e) o bytes).mem (pteFrame e) = blit (s.mem (pteFrame e)) o bytes :=
      Function.update_self _ _ _
    rw [hput]
    by_cases hin : o ≤ i ∧ i < o + bytes.length
    · obtain ⟨k, rfl⟩ := Nat.exists_eq_add_of_le hin.1
      rw [blit_inside _ _ (by omega), ← Nat.add_assoc, blit_inside _ _ (by omega)]
    · rw [blit_outside _ _ (by omega), blit_outside _ _ (by omega)]
      exact h b hb e he' i hi
  · -- another page is on another frame, and at other addresses
    have hne : pteFrame e' ≠ pteFrame e := by
      intro hc
      have hpath := hspace.inv.tree _ _ _ (starts_path (hslot b hb)) (starts_path (hslot a ha)) (by simp [dir]) (by simp [dir])
        (pteAt_frame he') (by rw [hc]; exact pteAt_frame he)
      obtain ⟨hdir, hptx⟩ := List.append_inj' hpath rfl
      exact path_ne hbb.1 haa.1 (by omega) (by omega) hab ⟨hdir, List.singleton_injective hptx⟩
    have hput : (Exec.write s (pteFrame e) o bytes).mem (pteFrame e') = s.mem (pteFrame e') := Function.update_of_ne hne _ _
    have hnat : a.toNat ≠ b.toNat := fun hc => hab (BitVec.eq_of_toNat_eq hc.symm)
    rw [hput, blit_outside _ _ (by omega)]
    exact h b hb e' he' i hi

/-! ## The image -/

/-- a page table whose pages came from the free list of s0; the pages in hand are as they were -/
structure Given (kend : ℕ) (root : Frame) (hand : Frame → Prop) (s0 t : Phys) : Prop where
  inv : PageTable kend root hand t
  held : ∀ f, hand f → t.mem f = s0.mem f
  account : account root hand t = {f | f ∈ s0.free ∨ hand f}

/-- the new image after some headers -/
structure Built (kend : ℕ) (root : Frame) (hand : Frame → Prop) (s0 : Phys) (pages : ℕ) (sz : Addr) (img : Store) (t : Phys) :
    Prop where
  space : Space kend root hand sz t
  tidy : Tidy root t
  count : t.free.length + imagePages sz.toNat = pages
  record : ∃ k, t.trace = s0.trace ++ k
  page : ∀ a ∈ pageAddrs PGSIZE sz, ∀ e, t.pteAt root (dir a) (ptx a) = some e →
    e &&& PTE_U ≠ 0 ∧ Since s0 t (.alloc (pteFrame e))
  given : Given kend root hand s0 t
  shows : Shows root sz img t
  blank : ∀ x, sz.toNat ≤ x → img x = 0

/-- a new page table is an image without pages -/
theorem Built.new (h : Allocator kend hand s) (kpdpt : Frame) :
    wp (setupkvm kpdpt)
      (fun root t => Built kend root hand s (s.free.length - 1) PGSIZE (fun _ => 0) t ∧ s.free ≠ [] ∧ t.trace = s.trace)
      (fun e t => e = .pageFault 0 ∧ t = s ∧ s.free = []) s := by
  refine wp_mono (wp_and (Space.new h kpdpt) (wp_and (setupkvm_spec h kpdpt) (setupkvm_mem kpdpt s))) ?_ (fun _ _ he => he.1)
  rintro root t ⟨⟨hspace, hfree, htr⟩, ⟨-, -, -, -, -, hat⟩, hmem⟩
  have hroot : root ∈ s.free := by rw [hfree]; exact List.mem_cons_self
  have howns : ∀ f, t.Owns root f ↔ f = root := fun f => Phys.owns_bare hat
  have hnil : pageAddrs PGSIZE PGSIZE = [] := pageAddrs_nil le_rfl
  refine ⟨⟨hspace, ?_, ?_, ⟨[], by rw [htr, List.append_nil]⟩, ?_, ⟨hspace.inv, ?_, ?_⟩, ?_, fun _ _ => rfl⟩,
    List.ne_nil_of_mem hroot, htr⟩
  · intro x pt j hx hl hpt
    rw [hat x hx (by rintro rfl; cases hl)] at hpt
    cases hpt
  · rw [hfree, List.length_cons, show imagePages PGSIZE.toNat = 0 from rfl]
    omega
  · rw [hnil]
    exact fun a ha => by cases ha
  · exact fun f hf => hmem f fun hc => h.apart f hf (hc ▸ hroot)
  · ext f
    rw [mem_account, howns]
    change _ ↔ f ∈ s.free ∨ hand f
    rw [hfree, List.mem_cons]
    tauto
  · intro a ha
    rw [hnil] at ha
    cases ha

theorem Built.image_congr {img' : Store} (h : Built kend root hand s0 pages sz img t) (himg : ∀ x, 4096 ≤ x → img' x = img x) :
    Built kend root hand s0 pages sz img' t :=
  { h with
    shows := h.shows.congr himg
    blank := fun x hx => by rw [himg x (h.space.low.trans hx)]; exact h.blank x hx }

theorem Given.congr (h : Given kend root hand s0 s) (hfree : t.free = s.free)
    (htab : ∀ f, s.Table root f → t.mem f = s.mem f) (hmem : ∀ f, hand f → t.mem f = s.mem f) : Given kend root hand s0 t := by
  have hat : ∀ q, Starts UserSlot q → q.length ≤ 4 → t.at root q = s.at root q := fun q hq hl => Phys.at_congr htab hq hl
  refine ⟨h.inv.of_at hfree hat, fun f hf => (hmem f hf).trans (h.held f hf), ?_⟩
  rw [account_congr hfree hat]
  exact h.account

/-- pages other than the tables and those in hand may be written -/
theorem Built.congr {img' : Store} {k : List Event} (h : Built kend root hand s0 pages sz img s) (hfree : t.free = s.free)
    (htrace : t.trace = s.trace ++ k) (htab : ∀ f, s.Table root f → t.mem f = s.mem f)
    (hmem : ∀ f, hand f → t.mem f = s.mem f) (hshows : Shows root sz img' t) (hblank : ∀ x, sz.toNat ≤ x → img' x = 0) :
    Built kend root hand s0 pages sz img' t := by
  have hpte : ∀ a ∈ pageAddrs PGSIZE sz, t.pteAt root (dir a) (ptx a) = s.pteAt root (dir a) (ptx a) := fun a ha =>
    Phys.pteAt_congr htab _ (starts_dir (image_userSlot h.space.high ha)) rfl
  obtain ⟨l, hl⟩ := h.record
  refine ⟨h.space.congr htab hfree, h.tidy.congr htab, by rw [hfree]; exact h.count,
    ⟨l ++ k, by rw [htrace, hl, List.append_assoc]⟩, fun a ha e he => ?_, h.given.congr hfree htab hmem, hshows, hblank⟩
  obtain ⟨huser, hsince⟩ := h.page a ha e ((hpte a ha).symm.trans he)
  exact ⟨huser, hsince.append htrace⟩

theorem Built.quiet_looked (h : Built kend root hand s0 pages sz img s) {a : Addr} (ha : UserSlot (pmx a)) :
    Quiet s (s.looked root a) := (Grown.looked h.space.inv (.inl ha)).kept.trace

theorem Built.looked (h : Built kend root hand s0 pages sz img s) {a : Addr} (ha : UserSlot (pmx a)) :
    Built kend root hand s0 pages sz img (s.looked root a) := by
  have hmem : ∀ f, (s.looked root a).mem f = s.mem f := fun f => by rw [Phys.mem_looked]
  have hfree : (s.looked root a).free = s.free := by rw [Phys.looked]; split_ifs <;> rfl
  obtain ⟨k, hk, -⟩ := h.quiet_looked ha
  refine h.congr hfree hk (fun f _ => hmem f) (fun f _ => hmem f) ?_ h.blank
  exact h.shows.of_pages (fun b _ => by rw [Phys.pteAt_looked]) fun b _ e _ => hmem _

/-- an image is no larger than its pages -/
theorem le_imagePages (n : ℕ) : n ≤ 4096 * (imagePages n + 1) := by
  rw [imagePages]
  split_ifs
  · omega
  · generalize (n + (2 ^ 21 - 1)) / 2 ^ 21 = x
    generalize (n + (2 ^ 30 - 1)) / 2 ^ 30 = y
    generalize (n + (2 ^ 39 - 1)) / 2 ^ 39 = z
    omega

theorem Built.bound (h : Built kend root hand s0 pages sz img s) (hpages : pages ≤ 57344) : sz.toNat < 2 ^ 28 := by
  have hle := le_imagePages sz.toNat
  have hcount := h.count
  omega

/-! ## Loading a segment -/

theorem blit_blank (h : ∀ x, sz.toNat ≤ x → img x = 0) {off : ℕ} {bytes : List Byte} (hle : off + bytes.length ≤ sz.toNat) :
    ∀ x, sz.toNat ≤ x → blit img off bytes x = 0 := fun x hx => by
  rw [blit_outside _ _ (.inr (by omega)), h x hx]

/-- file bytes copied into a page of the image -/
theorem Built.copyIn (h : Built kend root hand s0 pages sz img s) {a e : Addr} (ha : a ∈ pageAddrs PGSIZE sz)
    (he : s.pteAt root (dir a) (ptx a) = some e) {bytes : List Byte} (hlen : bytes.length ≤ 4096)
    (hle : a.toNat + bytes.length ≤ sz.toNat) :
    Built kend root hand s0 pages sz (blit img a.toNat bytes) (Exec.copyIn s e bytes) := by
  rw [Exec.copyIn]
  split_ifs with hnil
  · rw [hnil, blit_nil]
    exact h
  have hslot := image_userSlot h.space.high ha
  obtain ⟨-, htable⟩ := h.space.inv.page_apart (starts_path hslot) rfl he
  have hown : s.Owns root (pteFrame e) := ⟨_, starts_path hslot, by simp [dir], pteAt_frame he⟩
  refine h.congr rfl rfl (fun f hf => Function.update_of_ne (fun hc : f = pteFrame e => htable (hc ▸ hf)) _ _)
    (fun f hf => Function.update_of_ne (fun hc : f = pteFrame e => (h.space.inv.hand_apart f hf).1 (hc ▸ hown)) _ _) ?_
    (blit_blank h.blank hle)
  exact Shows.write h.space h.shows ha he (o := 0) (by omega)

/-- file bytes copied through an entry that is 0: they go to page 0 of physical memory -/
theorem Built.copyIn_zero (hk : 0 < kend) (h : Built kend root hand s0 pages sz img s) (bytes : List Byte) :
    Built kend root hand s0 pages sz img (Exec.copyIn s 0 bytes) := by
  rw [Exec.copyIn]
  split_ifs with hnil
  · exact h
  have hzero : pteFrame 0 = 0 := by decide
  have hunused : ∀ f, f ∈ s.free ∨ hand f ∨ s.Owns root f → f ≠ 0 := by
    rintro f hf rfl
    have := (h.space.inv.usable 0 hf).1
    rw [show Frame.addr 0 = 0 from rfl] at this
    omega
  have hmem : ∀ f, f ∈ s.free ∨ hand f ∨ s.Owns root f → (Exec.write s (pteFrame 0) 0 bytes).mem f = s.mem f := fun f hf =>
    Function.update_of_ne (by rw [hzero]; exact hunused f hf) _ _
  refine h.congr rfl rfl (fun f hf => hmem f (.inr (.inr hf.owns))) (fun f hf => hmem f (.inr (.inl hf))) ?_ h.blank
  refine h.shows.of_pages (fun a ha => ?_) fun a ha e he => ?_
  · exact congrArg _ (Phys.pteAt_congr (fun f hf => hmem f (.inr (.inr hf.owns))) _
      (starts_dir (image_userSlot h.space.high ha)) rfl)
  · exact hmem _ (.inr (.inr ⟨_, starts_path (image_userSlot h.space.high ha), by simp [dir], pteAt_frame he⟩))

/-- the length of one round -/
theorem toNat_round {n i : UInt} (h : i.toNat ≤ n.toNat) :
    (if n - i < 4096 then n - i else 4096).toNat = min (n.toNat - i.toNat) 4096 := by
  rw [← BitVec.toNat_sub_of_le (by rw [BitVec.le_def]; exact h)]
  split_ifs with hlt <;> rw [BitVec.lt_def, show (4096 : UInt).toNat = 4096 from rfl] at hlt
  · omega
  · rw [show (4096 : UInt).toNat = 4096 from rfl]
    omega

section

variable {addr : Addr} {offset n : UInt}

/-- **One round of `loaduvm`** on an address whose tables exist: it copies the bytes there are into the page of the PTE,
and goes on if they were all. -/
theorem wp_loaduvmLoop {rounds : ℕ} {i : UInt} {pt : Frame} {a e : Addr} (hi : i.toNat < n.toNat) (ha : addr + i.setWidth 64 = a)
    (hpt : s.at root (dir a) = some pt) (he : s.entry pt (ptx a) = e)
    {Q : ℤ → Phys → Prop} {E : Fault → Phys → Prop}
    (hpast : ip.size < (offset + i).toNat → Q (-1) (s.looked root a))
    (hread : ∀ bytes : List Byte, (offset + i).toNat ≤ ip.size →
      bytes.length = min (min (n.toNat - i.toNat) 4096) (ip.size - (offset + i).toNat) →
      bytes = (ip.data.drop (offset + i).toNat).take (min (n.toNat - i.toNat) 4096) →
      wp (if bytes.length ≠ min (n.toNat - i.toNat) 4096 then pure (-1)
        else loaduvmLoop root addr ip offset n rounds (i + 4096)) Q E
        (copyIn (s.looked root a) e bytes)) :
    wp (loaduvmLoop root addr ip offset n (rounds + 1) i) Q E s := by
  have hmore : ¬ n ≤ i := by
    rw [BitVec.le_def]
    omega
  have hlen := toNat_round hi.le
  rw [loaduvmLoop, if_neg hmore, wp_bind, ha]
  refine wp_lookup hpt ?_
  rw [wp_bind, wp_get]
  simp only [Phys.entry_looked, he]
  generalize (if n - i < 4096 then n - i else 4096) = m at hlen ⊢
  rw [← hlen] at hread
  rcases ip.readi_page (offset + i) (n := m) (by omega) with ⟨hlt, hr⟩ | ⟨hge, bytes, hr, hdata, hbytes⟩
  · simp only [hr, wp_pure]
    exact hpast hlt
  · simp only [hr]
    rw [wp_bind, wp_modify]
    exact hread bytes hge hbytes hdata

theorem umod_PGSIZE {a : Addr} : a % PGSIZE = 0 ↔ a.toNat % 4096 = 0 := by
  rw [← BitVec.toNat_inj, BitVec.toNat_umod, toNat_PGSIZE]
  rfl

section

variable {I : List Byte → Phys → Prop} (hhigh : addr.toNat + n.toNat < 2 ^ 64)
  (hround : ∀ l t a, a.toNat = addr.toNat + l.length → l.length % 4096 = 0 → l.length < n.toNat → I l t →
    ∃ pt, t.at root (dir a) = some pt ∧ I l (t.looked root a) ∧ ∀ bytes : List Byte, bytes.length ≤ 4096 →
      l.length + bytes.length ≤ n.toNat → I (l ++ bytes) (copyIn (t.looked root a) (t.entry pt (ptx a)) bytes))
include hhigh hround

/-- the loop of `loaduvm` after k rounds: what has been read lies in the file, so i is far from wrapping -/
theorem loaduvmLoop_spec (rounds k : ℕ) {i : UInt} {l : List Byte} (hrounds : rounds + k = 2 ^ 20) (hi : i.toNat = 4096 * k)
    (hlen : l.length = min n.toNat (4096 * k)) (hsofar : 4096 * k < n.toNat + 4096) (hl : l = ip.segment offset l.length)
    (h : I l s) :
    wp (loaduvmLoop root addr ip offset n rounds i)
      (fun r t => (r = if ip.Holds offset n then 0 else -1) ∧ I (ip.segment offset n.toNat) t) (fun _ _ => False) s := by
  have hsize := ip.size_lt
  have hn := n.isLt
  induction rounds generalizing k i l s with
  | zero => omega
  | succ rounds ih =>
    have hin := congrArg List.length hl
    rw [File.length_segment] at hin
    rcases le_or_gt n.toNat i.toNat with hdone | hmore
    · rw [loaduvmLoop, if_pos (BitVec.le_def.2 hdone), wp_pure]
      rw [show l.length = n.toNat by omega] at hl hin
      refine ⟨(if_pos ?_).symm, hl ▸ h⟩
      rcases Nat.eq_zero_or_pos n.toNat with hzero | hpos
      · exact .inl (BitVec.eq_of_toNat_eq hzero)
      · exact .inr (by omega)
    have haddr : (addr + i.setWidth 64).toNat = addr.toNat + l.length := by
      rw [BitVec.toNat_add, BitVec.toNat_setWidth]
      omega
    have hoff : (offset + i).toNat = offset.toNat + l.length := by
      have := offset.isLt
      rw [BitVec.toNat_add]
      omega
    have hshort : ip.size < offset.toNat + n.toNat → ¬ ip.Holds offset n := by
      rintro hlt (rfl | hc)
      · exact absurd hmore (Nat.not_lt_zero _)
      · omega
    obtain ⟨pt, hpt, hlook, hcopy⟩ := hround l s _ haddr (by omega) (by omega) h
    refine wp_loaduvmLoop hmore rfl hpt rfl (fun hlt => ⟨(if_neg (hshort (by omega))).symm, ?_⟩) fun bytes hge hbytes hdata => ?_
    · rw [ip.segment_eq (j := l.length) (by omega) (by omega), ← hl]
      exact hlook
    have hnext := hcopy bytes (by omega) (by omega)
    -- the bytes read follow those of the rounds before
    have hjoin : l ++ bytes = ip.segment offset (l.length + min (n.toNat - i.toNat) 4096) := by
      rw [File.segment, List.take_add, List.drop_drop, ← hoff, ← hdata]
      exact congrArg (· ++ bytes) hl
    by_cases hfull : bytes.length ≠ min (n.toNat - i.toNat) 4096
    · rw [if_pos hfull, wp_pure]
      refine ⟨(if_neg (hshort (by omega))).symm, ?_⟩
      rw [ip.segment_eq (j := l.length + min (n.toNat - i.toNat) 4096) (by omega) (by omega), ← hjoin]
      exact hnext
    rw [if_neg hfull]
    refine ih (k + 1) (by omega) ?_ (by rw [List.length_append]; omega) (by omega) ?_ hnext
    · rw [BitVec.toNat_add, hi, show (4096 : UInt).toNat = 4096 from rfl]
      omega
    · rw [List.length_append, not_not.1 hfull]
      exact hjoin

/-- **The loop rule of `loaduvm`.** I l: the bytes l have been read. A segment is loaded as far as the file has it. -/
theorem wp_loaduvm (halign : addr % PGSIZE = 0) (h : I [] s) :
    wp (loaduvm root addr ip offset n)
      (fun r t => (r = if ip.Holds offset n then 0 else -1) ∧ I (ip.segment offset n.toNat) t) (fun _ _ => False) s := by
  rw [loaduvm, if_neg (not_not.2 halign)]
  exact loaduvmLoop_spec hhigh hround (2 ^ 20) 0 (Nat.add_zero _) rfl (by simp) (by omega) (by simp [File.segment]) h

end

/-- the page of one round, with its entry: of the image, or page 0 with an entry that is 0 -/
theorem Built.round_page (hk : 0 < kend) (h : Built kend root hand s0 pages sz img s) {a : Addr} (halign : a.toNat % 4096 = 0)
    (hhigh : a.toNat < sz.toNat) (hzero : a.toNat = 0 → 4096 < sz.toNat) : ∃ pt, s.at root (dir a) = some pt ∧
      UserSlot (pmx a) ∧ (s.entry pt (ptx a) &&& PTE_P = 0 ↔ a = 0) ∧
      (s.entry pt (ptx a) &&& PTE_P ≠ 0 → Since s0 s (.alloc (pteFrame (s.entry pt (ptx a))))) ∧
      ∀ bytes : List Byte, bytes.length ≤ 4096 → a.toNat + bytes.length ≤ sz.toNat →
        Built kend root hand s0 pages sz (blit img a.toNat bytes) (Exec.copyIn (s.looked root a) (s.entry pt (ptx a)) bytes) := by
  by_cases ha : a.toNat = 0
  · obtain rfl : a = 0 := BitVec.eq_of_toNat_eq ha
    obtain ⟨pt, hpt, hpres⟩ := h.space.page_zero (hzero ha)
    refine ⟨pt, hpt, by decide, iff_of_true hpres rfl, fun hc => absurd hpres hc, fun bytes hlen hle => ?_⟩
    rw [h.tidy _ pt _ (starts_dir (by decide)) rfl hpt hpres]
    refine ((h.looked (by decide)).copyIn_zero hk bytes).image_congr fun x hx => blit_outside _ _ (.inr ?_)
    rw [ha]
    omega
  · have hpage : a ∈ pageAddrs PGSIZE sz := mem_image.2 ⟨halign, by omega, hhigh⟩
    have hslot := image_userSlot h.space.high hpage
    obtain ⟨e, he⟩ := Option.ne_none_iff_exists'.1 (h.space.page _ hpage)
    obtain ⟨pt, hpt, rfl, hpres⟩ := pteAt_some he
    exact ⟨pt, hpt, hslot, iff_of_false hpres fun hc => ha (by rw [hc]; rfl), fun _ => (h.page a hpage _ he).2,
      fun bytes => (h.looked hslot).copyIn hpage (by rw [Phys.pteAt_looked]; exact he)⟩

/-- **A segment of the image.** File bytes go astray only at address 0. -/
theorem Built.loaduvm (hk : 0 < kend) (h : Built kend root hand s0 pages sz img s) (halign : addr % PGSIZE = 0)
    (hhigh : addr.toNat + n.toNat ≤ sz.toNat) (hzero : n ≠ 0 → addr.toNat = 0 → 4096 < sz.toNat) :
    wp (loaduvm root addr ip offset n)
      (fun r t => (r = if ip.Holds offset n then 0 else -1) ∧
        Built kend root hand s0 pages sz (blit img addr.toNat (ip.segment offset n.toNat)) t ∧
        (Clean s0 s → Loads s0 t (addr = 0 ∧ ip.segment offset n.toNat ≠ []))) (fun _ _ => False) s := by
  have hszhigh := h.space.high
  have hmod := umod_PGSIZE.1 halign
  refine wp_loaduvm (I := fun l t => Built kend root hand s0 pages sz (blit img addr.toNat l) t ∧
    (Clean s0 s → Loads s0 t (addr = 0 ∧ l ≠ []))) (by omega) ?_ halign ?_
  · rintro l t a ha hl hlt ⟨ht, hloads⟩
    have hzero := hzero fun hn => by simp [hn] at hlt
    obtain ⟨pt, hpt, hslot, habsent, hsince, hcopy⟩ := ht.round_page hk (a := a) (by omega) (by omega) (by omega)
    have hquiet := ht.quiet_looked hslot
    refine ⟨pt, hpt, ⟨ht.looked hslot, fun hc => (hloads hc).quiet hquiet⟩, fun bytes hlen hle => ⟨?_, fun hc => ?_⟩⟩
    · rw [← blit_append, ← ha]
      exact hcopy bytes hlen (by omega)
    · have hfirst : a = 0 ↔ addr = 0 ∧ l = [] := by
        rw [← BitVec.toNat_inj, ← BitVec.toNat_inj, ← List.length_eq_zero_iff, ha]
        exact Nat.add_eq_zero_iff
      have hstep := ((hloads hc).quiet hquiet).copyIn (fun hp => (hsince hp).after hquiet) bytes
      have hiff : (addr = 0 ∧ l ≠ [] ∨ (addr = 0 ∧ l = []) ∧ bytes ≠ []) ↔ addr = 0 ∧ l ++ bytes ≠ [] := by
        by_cases hnil : l = [] <;> simp [hnil]
      rw [habsent, hfirst, hiff] at hstep
      exact hstep
  · rw [blit_nil]
    exact ⟨h, fun hc => ⟨fun hp => absurd rfl hp.2, fun _ => hc⟩⟩

end

/-! ## A segment at address 0 -/

/-- without a page in the image there is no table for address 0 -/
theorem loaduvm_zero_panics {offset n : UInt} (hn : n ≠ 0) (h : Space kend root hand sz s) (hsz : sz.toNat ≤ 4096) :
    wp (loaduvm root 0 ip offset n) (fun _ _ => False) (fun e _ => e = .panic .loaduvmExist) s := by
  have hmore : ¬ n ≤ 0 := fun hc => hn (BitVec.le_zero_iff.1 hc)
  have hnone : s.at root (dir 0) = none := by
    rw [← Option.not_isSome_iff_eq_none, h.first_table]
    omega
  rw [loaduvm, if_neg (by decide), show (2 ^ 20 : ℕ) = 1048575 + 1 from rfl, loaduvmLoop, if_neg hmore, wp_bind,
    show (0 : Addr) + (0 : UInt).setWidth 64 = 0 by decide]
  exact wp_lookup_none hnone ((wp_throw _ _).2 rfl)

/-! ## Growing the image -/

theorem mkPte_userFlags (g : Frame) : mkPte g userFlags &&& PTE_U ≠ 0 := fun hc => by
  have := congrArg (fun e => BitVec.getLsbD e 2) hc
  simp [mkPte, userFlags, PTE_U, PTE_W, PTE_P] at this

/-- a page of the new image is an old one with its old PTE, or one `allocuvm` has just mapped -/
theorem page_cases {newsz : Addr} (h : Space kend root hand sz s) (hle : sz.toNat ≤ newsz.toNat) (hhigh : newsz.toNat ≤ 2 ^ 47)
    (halloc : Allocated kend root hand (pageAddrs (pgRoundUp sz) newsz) s t) {a e : Addr} (ha : a ∈ pageAddrs PGSIZE newsz)
    (he : t.pteAt root (dir a) (ptx a) = some e) :
    (a ∈ pageAddrs PGSIZE sz ∧ s.pteAt root (dir a) (ptx a) = some e) ∨
      (sz.toNat ≤ a.toNat ∧ ∃ g, e = mkPte g userFlags ∧ Since s t (.alloc g) ∧ t.mem g = fun _ => 0) := by
  have hlow := h.low
  have hround := pgRoundUp_toNat sz (by omega)
  rcases (mem_image_grow hlow hle hhigh).1 ha with ha | ha
  · refine .inl ⟨ha, ?_⟩
    obtain ⟨halign, -, hlt⟩ := mem_image.1 ha
    rw [← halloc.pte (dir a) (ptx a) (starts_dir (image_userSlot h.high ha)) rfl fun b hb => ?_]
    · exact he
    · obtain ⟨m, hm, hb⟩ := mem_pageAddrs.1 hb
      exact path_ne (by omega) (by omega) (by omega) (by omega) fun hc => by rw [hc] at hlt; omega
  · obtain ⟨g, hg, hsince, -, hzero⟩ := halloc.new a ha
    obtain ⟨m, hm, -⟩ := mem_pageAddrs.1 ha
    exact .inr ⟨by omega, g, Option.some.inj (he.symm.trans hg), hsince, hzero⟩

/-- **`allocuvm`** adds pages of zeros to the image, or memory is short. -/
theorem Built.allocuvm (hk : 0 < kend) (h : Built kend root hand s0 pages sz img s) {top : Addr} (htop : top.toNat ≤ 2 ^ 47) :
    wp (allocuvm kend root sz top)
      (fun r t => Quiet s t ∧
        ((r = 0 ∧ pages < imagePages (if top < sz then sz else top).toNat ∧ Given kend root hand s0 t) ∨
          (r ≠ 0 ∧ r = (if top < sz then sz else top) ∧ ¬ pages < imagePages r.toNat ∧ Built kend root hand s0 pages r img t)))
      (fun _ _ => False) s := by
  have hlow := h.space.low
  have hcount := h.count
  have hne : ∀ a : Addr, 4096 ≤ a.toNat → a ≠ 0 := fun a ha hc => by rw [hc] at ha; exact absurd ha (by decide)
  by_cases hlt : top < sz
  · rw [Vm.allocuvm, if_neg (BitVec.not_le.2 (lt_KERNBASE htop)), if_pos hlt, if_pos hlt, wp_pure]
    exact ⟨Quiet.of_eq rfl, .inr ⟨hne sz hlow, rfl, by omega, h⟩⟩
  have hle := BitVec.not_lt.1 hlt
  rw [if_neg hlt]
  have habs : ∀ a ∈ pageAddrs (pgRoundUp sz) top, s.pteAt root (dir a) (ptx a) = none := fun a ha =>
    (h.space.beyond htop ha).2.2
  refine wp_mono (wp_and (wp_and (h.space.grow hk hle htop) (allocuvm_spec hk h.space.inv hle htop habs))
    (allocuvm_tidy h.space h.tidy htop)) ?_ (fun _ _ he => he.1.1)
  rw [BitVec.le_def] at hle
  rintro r t ⟨⟨⟨rfl, hfew, hundone⟩ | ⟨rfl, hfree, hspace, halloc⟩, -, hacc, -⟩, htidy⟩
  · exact ⟨hundone.trace, .inl ⟨rfl, by omega, hundone.inv, fun f hf => (hundone.held f hf).trans (h.given.held f hf),
      hacc.trans h.given.account⟩⟩
  · have hheld : ∀ f, hand f → t.mem f = s0.mem f := fun f hf =>
      (h.space.inv.held_of_kept halloc.kept hf).trans (h.given.held f hf)
    obtain ⟨l, hl⟩ := h.record
    obtain ⟨k, hk, -⟩ := halloc.kept.trace
    refine ⟨halloc.kept.trace, .inr ⟨hne r (by omega), rfl, by omega, hspace, htidy (hne r (by omega)), hfree.trans hcount,
      ⟨l ++ k, by rw [hk, hl, List.append_assoc]⟩, fun a ha e he => ?_, ⟨halloc.inv, hheld, hacc.trans h.given.account⟩, fun a ha e he i hi => ?_,
      fun x hx => h.blank x (by omega)⟩⟩
    · rcases page_cases h.space hle htop halloc ha he with ⟨hold, hpte⟩ | ⟨-, g, rfl, hsince, -⟩
      · obtain ⟨huser, hsince⟩ := h.page a hold e hpte
        exact ⟨huser, hsince.after halloc.kept.trace⟩
      · exact ⟨mkPte_userFlags g, by rw [pteFrame_mkPte g (by decide)]; exact hsince.prepend hl⟩
    · rcases page_cases h.space hle htop halloc ha he with ⟨hold, hpte⟩ | ⟨hbeyond, g, rfl, -, hzero⟩
      · obtain ⟨hfree', htab⟩ := h.space.inv.page_apart (starts_path (image_userSlot h.space.high hold)) rfl hpte
        rw [halloc.kept.mem _ hfree' htab]
        exact h.shows a hold e hpte i hi
      · rw [pteFrame_mkPte g (by decide), hzero, h.blank _ (by omega)]

/-! ## The stack -/

/-- a finished image: a page without PTE_U, the guard, below the last page; all other pages have PTE_U -/
structure Ready (kend : ℕ) (root : Frame) (hand : Frame → Prop) (sz : Addr) (t : Phys) : Prop where
  space : Space kend root hand sz t
  align : sz.toNat % 4096 = 0
  low : 12288 ≤ sz.toNat
  user : ∀ a ∈ pageAddrs PGSIZE sz, ∀ e, t.pteAt root (dir a) (ptx a) = some e →
    (e &&& PTE_U = 0 ↔ a.toNat + 8192 = sz.toNat)

/-- **`clearpteu`** makes the page below the last one the guard. -/
theorem clearpteu_ready (h : Space kend root hand sz s)
    (huser : ∀ a ∈ pageAddrs PGSIZE sz, ∀ e, s.pteAt root (dir a) (ptx a) = some e → e &&& PTE_U ≠ 0) {guard : Addr}
    (halign : sz.toNat % 4096 = 0) (hguard : guard.toNat + 8192 = sz.toNat) (hlow : 4096 ≤ guard.toNat) :
    wp (clearpteu root guard)
      (fun _ t => Ready kend root hand sz t ∧ Kept root s t ∧ account root hand t = account root hand s ∧
        ∀ a ∈ pageAddrs PGSIZE sz, (t.pteAt root (dir a) (ptx a)).map pteFrame = (s.pteAt root (dir a) (ptx a)).map pteFrame) (fun _ _ => False) s := by
  have hhigh := h.high
  have hmem : guard ∈ pageAddrs PGSIZE sz := mem_image.2 (by omega)
  obtain ⟨e, he⟩ := Option.ne_none_iff_exists'.1 (h.page guard hmem)
  refine wp_imp (clearpteu_spec h.inv (image_userSlot hhigh hmem) he) ?_
  rintro _ t ⟨hinv, hkept, hat, hpte, hacc⟩
  have hpte' : ∀ a : Addr, a.toNat % 4096 = 0 → a.toNat < 2 ^ 47 → t.pteAt root (dir a) (ptx a) =
      if a = guard then some (e &&& ~~~PTE_U) else s.pteAt root (dir a) (ptx a) := fun a ha hlt => by
    rw [hpte _ _ (starts_dir (pmx_of_lt hlt)) rfl]
    by_cases hag : a = guard
    · rw [if_pos hag, if_pos ⟨by rw [hag], by rw [hag]⟩]
    · rw [if_neg hag, if_neg (path_ne ha (by omega) hlt (by omega) hag)]
  have hpage : ∀ a ∈ pageAddrs PGSIZE sz, a.toNat % 4096 = 0 ∧ a.toNat < 2 ^ 47 := fun a ha => by
    have := mem_image.1 ha
    omega
  refine ⟨⟨⟨hinv, h.kernel.of_slots hkept.slots, h.low, hhigh, ?_, ?_, ?_⟩, halign, by omega, ?_⟩, hkept, hacc, ?_⟩
  · intro a ha
    rw [hpte' a (hpage a ha).1 (hpage a ha).2]
    split_ifs
    · exact Option.some_ne_none _
    · exact h.page a ha
  · intro a ha hlt hout
    have hne : a ≠ guard := fun hc => hout (by rw [hc]; exact hmem)
    rw [hpte' a ha hlt, if_neg hne]
    exact h.absent a ha hlt hout
  · intro q hq hne hlen
    rw [hat q hq hlen]
    exact h.tight q hq hne hlen
  · intro a ha e' he'
    rw [hpte' a (hpage a ha).1 (hpage a ha).2] at he'
    split_ifs at he' with hag
    · cases he'
      rw [BitVec.and_assoc, show ~~~PTE_U &&& PTE_U = 0 by decide, hag]
      exact ⟨fun _ => hguard, fun _ => BitVec.and_zero⟩
    · refine ⟨fun hc => absurd hc (huser a ha e' he'), fun hc => absurd (BitVec.eq_of_toNat_eq ?_) hag⟩
      omega
  · intro a ha
    rw [hpte' a (hpage a ha).1 (hpage a ha).2]
    split_ifs with hag
    · rw [hag, he, Option.map_some, Option.map_some, pteFrame_clear_user]
    · rfl

/-- a finished image with its bytes -/
structure Finished (kend : ℕ) (root : Frame) (hand : Frame → Prop) (s0 : Phys) (sz : Addr) (img : Store) (t : Phys) : Prop where
  ready : Ready kend root hand sz t
  given : Given kend root hand s0 t
  shows : Shows root sz img t

theorem Built.round (h : Built kend root hand s0 pages sz img s) (hsz : sz.toNat < 2 ^ 46) :
    Built kend root hand s0 pages (pgRoundUp sz) img s := by
  have himg := imagePages_pgRoundUp h.space.high
  have hpg := pageAddrs_pgRoundUp h.space.high
  have hround := pgRoundUp_toNat sz (by omega)
  exact ⟨h.space.round hsz, h.tidy, by rw [himg]; exact h.count, h.record, by rw [hpg]; exact h.page, h.given,
    fun a ha => h.shows a (by rw [← hpg]; exact ha), fun x hx => h.blank x (by omega)⟩

theorem Built.clearpteu (h : Built kend root hand s0 pages sz img s) {guard : Addr} (halign : sz.toNat % 4096 = 0)
    (hguard : guard.toNat + 8192 = sz.toNat) (hlow : 4096 ≤ guard.toNat) :
    wp (clearpteu root guard) (fun _ t => Quiet s t ∧ Finished kend root hand s0 sz img t) (fun _ _ => False) s := by
  refine wp_imp (clearpteu_ready h.space (fun a ha e he => (h.page a ha e he).1) halign hguard hlow) ?_
  rintro _ t ⟨hready, hkept, hacc, hframes⟩
  refine ⟨hkept.trace, hready, ⟨hready.space.inv, fun f hf => (h.space.inv.held_of_kept hkept hf).trans (h.given.held f hf),
    hacc.trans h.given.account⟩, h.shows.of_pages hframes fun a ha e he => ?_⟩
  obtain ⟨hfree, htab⟩ := h.space.inv.page_apart (starts_path (image_userSlot h.space.high ha)) rfl he
  exact hkept.mem _ hfree htab

/-- **The two stack pages** finish the image, or memory is short. -/
theorem Built.stackPages (hk : 0 < kend) (h : Built kend root hand s0 pages sz img s) (hpages : pages ≤ 57344) :
    wp (Exec.stackPages kend root sz)
      (fun r t => Quiet s t ∧ Given kend root hand s0 t ∧ (∀ newsz, r = some newsz → Finished kend root hand s0 newsz img t) ∧
        r = if pages < imagePages (pgRoundUp sz + 2 * PGSIZE).toNat then none else some (pgRoundUp sz + 2 * PGSIZE))
      (fun _ _ => False) s := by
  have hbound := h.bound hpages
  have hlow := h.space.low
  have hround := pgRoundUp_toNat sz (by omega)
  have hbuilt := h.round (by omega)
  rw [Exec.stackPages]
  generalize pgRoundUp sz = base at hround hbuilt ⊢
  have htop : (base + 2 * PGSIZE).toNat = base.toNat + 8192 := by
    rw [BitVec.toNat_add, show (2 * PGSIZE).toNat = 8192 from rfl]
    omega
  have hback : base + 2 * PGSIZE - 2 * PGSIZE = base := BitVec.add_sub_cancel base _
  have hnlt : ¬ base + 2 * PGSIZE < base := by
    rw [BitVec.lt_def]
    omega
  generalize base + 2 * PGSIZE = top at htop hback hnlt ⊢
  rw [wp_bind]
  refine wp_imp (hbuilt.allocuvm hk (by omega)) ?_
  rw [if_neg hnlt]
  rintro r t ⟨hquiet, ⟨rfl, hshort, ht⟩ | ⟨hr, rfl, hfew, ht⟩⟩
  · rw [if_pos rfl, if_pos hshort]
    exact wp_return ⟨hquiet, ht, by simp, rfl⟩
  · rw [if_neg hr, hback, wp_bind, if_neg hfew]
    refine wp_imp (ht.clearpteu (by omega) htop.symm (by omega)) ?_
    rintro _ u ⟨hquiet', hu⟩
    exact wp_return ⟨hquiet.trans hquiet', hu.given, fun newsz hn => Option.some.inj hn ▸ hu, rfl⟩

/-! ## Giving up -/

/-- what a call that fails leaves of memory: the pages in use are as they were, and the free list has the same pages -/
structure Restored (hand : Frame → Prop) (s t : Phys) : Prop where
  held : ∀ f, hand f → t.mem f = s.mem f
  free : ∀ f, f ∈ t.free ↔ f ∈ s.free

theorem Restored.refl (hand : Frame → Prop) (s : Phys) : Restored hand s s := ⟨fun _ _ => rfl, fun _ => Iff.rfl⟩

/-- **`freevm`** of the new page table gives every page back. -/
theorem Given.freevm (halloc : Allocator kend hand s0) (h : Given kend root hand s0 s) :
    wp (Vm.freevm kend root) (fun _ t => Restored hand s0 t ∧ t.trace = s.trace) (fun _ _ => False) s := by
  refine wp_imp (freevm_spec h.inv) ?_
  rintro _ t ⟨⟨hmem, htrace⟩, hfreed⟩
  refine ⟨⟨fun f hf => (hmem f (h.inv.hand_apart f hf).1).trans (h.held f hf), fun f => ?_⟩, htrace⟩
  have hacc : f ∈ Vm.account root hand s ↔ f ∈ s0.free ∨ hand f := by rw [h.account]; exact Iff.rfl
  rw [mem_account] at hacc
  have hp := halloc.apart f
  have hq := h.inv.hand_apart f
  rw [hfreed.mem]
  tauto

end Xv6.Exec
