/-
The free list.

`Rep base h fs live` says that the list of free blocks is a circle through the static header in the order of addresses, no
two of them adjacent, and that it and the live blocks make up the memory obtained from `sbrk`. Each function of the
allocator leaves such a list:
- `Rep.free`: a live block goes back, joined to its neighbours;
- `Rep.take`: a block, or its tail, becomes live;
- `Rep.morecore`: the new memory is one more free block, or part of one.
All of them say how much fuel is enough, so the loops end.
-/
import Xv6.Core.Seg
import Xv6.Umalloc.Model

namespace Xv6.Umalloc

open Xv6.Tiling Function

/-! ## Headers -/

section

variable {h : Heap} {p q n : ℕ}

@[simp] theorem ptr_setPtr : (h.setPtr p q).ptr = update h.ptr p q := by
  funext x
  by_cases hx : x = p
  · subst hx
    simp [Heap.ptr, Heap.setPtr]
  · simp [Heap.ptr, Heap.setPtr, update_of_ne hx]

@[simp] theorem size_setPtr : (h.setPtr p q).size = h.size := by
  funext x
  by_cases hx : x = p
  · subst hx
    simp [Heap.size, Heap.setPtr]
  · simp [Heap.size, Heap.setPtr, update_of_ne hx]

@[simp] theorem ptr_setSize : (h.setSize p n).ptr = h.ptr := by
  funext x
  by_cases hx : x = p
  · subst hx
    simp [Heap.ptr, Heap.setSize]
  · simp [Heap.ptr, Heap.setSize, update_of_ne hx]

@[simp] theorem size_setSize : (h.setSize p n).size = update h.size p (n % 2 ^ 32) := by
  funext x
  by_cases hx : x = p
  · subst hx
    simp [Heap.size, Heap.setSize]
  · simp [Heap.size, Heap.setSize, update_of_ne hx]

@[simp] theorem chunks_setPtr : (h.setPtr p q).chunks = h.chunks := rfl

@[simp] theorem chunks_setSize : (h.setSize p n).chunks = h.chunks := rfl

@[simp] theorem freep_setPtr : (h.setPtr p q).freep = h.freep := rfl

@[simp] theorem freep_setSize : (h.setSize p n).freep = h.freep := rfl

/-- joining to the upper neighbour changes the block only -/
theorem joinUpper_eq (h : Heap) (p bp : ℕ) :
    (joinUpper h bp p).ptr = update h.ptr bp
      (if bp + HDR * h.size bp = h.ptr p then h.ptr (h.ptr p) else h.ptr p) ∧
    (joinUpper h bp p).size = update h.size bp
      (if bp + HDR * h.size bp = h.ptr p then (h.size bp + h.size (h.ptr p)) % 2 ^ 32 else h.size bp) ∧
    (joinUpper h bp p).chunks = h.chunks := by
  unfold joinUpper
  split_ifs
  · simp
  · simp

/-- joining to the lower neighbour changes that only -/
theorem joinLower_eq (h : Heap) (p bp : ℕ) :
    (joinLower h bp p).ptr = update h.ptr p (if p + HDR * h.size p = bp then h.ptr bp else bp) ∧
    (joinLower h bp p).size = update h.size p
      (if p + HDR * h.size p = bp then (h.size p + h.size bp) % 2 ^ 32 else h.size p) ∧
    (joinLower h bp p).chunks = h.chunks := by
  unfold joinLower
  split_ifs
  · simp
  · simp

end

/-! ## The list -/

/-- the first block ends before the second begins, and does not touch it -/
def Below (a b : Block) : Prop := a.1 + HDR * a.2 < b.1

theorem Below.lt {a b : Block} (h : Below a b) : a.1 < b.1 := lt_of_le_of_lt (Nat.le_add_right _ _) h

structure Rep (base : ℕ) (h : Heap) (fs live : List Block) : Prop where
  circle : Seg h.ptr h.size ((base, 0) :: fs) base
  sorted : ((base, 0) :: fs).Pairwise Below
  freep : ∃ x ∈ (base, 0) :: fs, x.1 = h.freep
  header : ∀ l ∈ live, h.size l.1 = l.2
  tiles : Tiles HDR h.chunks (fs ++ live)
  low : ∀ c ∈ h.chunks, base + HDR ≤ c.1
  few : (h.chunks.map Prod.snd).sum < 2 ^ 32

/-- the place of a new address in a list in order: after the last one below it -/
theorem exists_split {x : Block} {l : List Block} {bp : ℕ} (hl : (x :: l).Pairwise Below) (hx : x.1 < bp)
    (hne : ∀ a ∈ l, a.1 ≠ bp) : ∃ A w B, x :: l = A ++ w :: B ∧ w.1 < bp ∧ ∀ b ∈ B, bp < b.1 := by
  induction l generalizing x with
  | nil => exact ⟨[], x, [], rfl, hx, by simp⟩
  | cons y l ih =>
    have hrest := (List.pairwise_cons.1 hl).2
    obtain hlt | hgt := lt_or_gt_of_ne (hne y List.mem_cons_self)
    · obtain ⟨A, w, B, heq, hw, hB⟩ := ih hrest hlt fun a ha => hne a (List.mem_cons_of_mem y ha)
      exact ⟨x :: A, w, B, by rw [heq, List.cons_append], hw, hB⟩
    · refine ⟨[], x, y :: l, rfl, hx, ?_⟩
      simp only [List.mem_cons, forall_eq_or_imp]
      exact ⟨hgt, fun b hb => hgt.trans ((List.pairwise_cons.1 hrest).1 b hb).lt⟩

namespace Rep

variable {base : ℕ} {h h' : Heap} {fs live live' A B : List Block} {l w : Block}

theorem perm (hr : Rep base h fs live) (hp : List.Perm live live') : Rep base h fs live' where
  circle := hr.circle
  sorted := hr.sorted
  freep := hr.freep
  header x hx := hr.header x (hp.mem_iff.2 hx)
  tiles := hr.tiles.perm (hp.append_left fs)
  low := hr.low
  few := hr.few

/-- only the headers matter -/
theorem congr (hr : Rep base h fs live) (hfs : ∀ x ∈ (base, 0) :: fs, h'.mem x.1 = h.mem x.1)
    (hlive : ∀ l ∈ live, h'.mem l.1 = h.mem l.1) (hfreep : h'.freep = h.freep) (hchunks : h'.chunks = h.chunks) :
    Rep base h' fs live where
  circle := hr.circle.congr fun x hx => by
    unfold Heap.ptr Heap.size
    rw [hfs x hx]
    exact ⟨rfl, rfl⟩
  sorted := hr.sorted
  freep := hfreep ▸ hr.freep
  header l hl := by
    unfold Heap.size
    rw [hlive l hl]
    exact hr.header l hl
  tiles := hchunks ▸ hr.tiles
  low := hchunks ▸ hr.low
  few := hchunks ▸ hr.few

/-- all blocks are above the static header -/
theorem base_le (hr : Rep base h fs live) (hl : l ∈ fs ++ live) : base + HDR ≤ l.1 := by
  obtain ⟨c, hc, hle, -⟩ := hr.tiles.mem_whole hl
  exact (hr.low c hc).trans hle

/-- a node of the list is not where a live block begins -/
theorem ne_live (hr : Rep base h fs live) (hw : w ∈ (base, 0) :: fs) (hl : l ∈ live) : w.1 ≠ l.1 := by
  have hbase := hr.base_le (List.mem_append_right fs hl)
  obtain rfl | hw := List.mem_cons.1 hw
  · intro hc
    have : HDR = 16 := rfl
    simp only at hc
    omega
  · have hapart : Apart HDR w l := (List.pairwise_append.1 hr.tiles.apart).2.2 w hw l hl
    have hwpos := hr.tiles.pos w (List.mem_append_left live hw)
    have hlpos := hr.tiles.pos l (List.mem_append_right fs hl)
    intro hc
    obtain hap | hap := hapart
    · omega
    · omega

/-! ## free -/

/-- where the loop of `free` stops -/
def Stops (h : Heap) (bp p : ℕ) : Prop := (bp > p ∧ bp < h.ptr p) ∨ p ≥ h.ptr p ∧ (bp > p ∨ bp < h.ptr p)

instance (h : Heap) (bp : ℕ) : DecidablePred (Stops h bp) := fun p => by
  unfold Stops
  infer_instance

theorem freeLoop_eq_walk (h : Heap) (bp fuel p : ℕ) : freeLoop h bp fuel p = walk h.ptr (Stops h bp) fuel p := by
  induction fuel generalizing p with
  | zero => rfl
  | succ k ih =>
    rw [freeLoop, walk, ih]
    by_cases h1 : bp > p ∧ bp < h.ptr p
    · rw [if_pos h1, if_pos (show Stops h bp p from .inl h1)]
    rw [if_neg h1]
    by_cases h2 : p ≥ h.ptr p ∧ (bp > p ∨ bp < h.ptr p)
    · rw [if_pos h2, if_pos (show Stops h bp p from .inr h2)]
    · rw [if_neg h2, if_neg (show ¬ Stops h bp p from not_or.2 ⟨h1, h2⟩)]

/-- the loop of `free` finds the place of a live block in the list -/
theorem place (hr : Rep base h fs live) (hl : l ∈ live) {fuel : ℕ} (hfuel : fs.length < fuel) :
    ∃ A w B, (base, 0) :: fs = A ++ w :: B ∧ w.1 < l.1 ∧ (∀ b ∈ B, l.1 < b.1) ∧
      freeLoop h l.1 fuel h.freep = some w.1 := by
  have hbase : base < l.1 := by
    have := hr.base_le (List.mem_append_right fs hl)
    have : HDR = 16 := rfl
    omega
  have hne : ∀ a ∈ fs, a.1 ≠ l.1 := fun a ha => hr.ne_live (List.mem_cons_of_mem _ ha) hl
  -- the place is where the loop stops
  have hstop : ∀ A w B, (base, 0) :: fs = A ++ w :: B → (Stops h l.1 w.1 ↔ w.1 < l.1 ∧ ∀ b ∈ B, l.1 < b.1) := by
    intro A w B heq
    have hcircle := hr.circle
    have hsorted := hr.sorted
    rw [heq] at hcircle hsorted
    have hnext := hcircle.next_eq
    obtain ⟨hwB, hB⟩ := List.pairwise_cons.1 (List.pairwise_append.1 hsorted).2.1
    have hwbase : base ≤ w.1 := by
      have hw : w ∈ (base, 0) :: fs := by
        rw [heq]
        simp
      obtain rfl | hw := List.mem_cons.1 hw
      · exact le_rfl
      · exact (Nat.le_add_right _ _).trans (hr.base_le (List.mem_append_left live hw))
    unfold Stops
    rw [hnext]
    cases B with
    | nil =>
      simp only [firstOr, List.not_mem_nil, false_implies, implies_true, and_true]
      omega
    | cons b B =>
      have hwb := (hwB b List.mem_cons_self).lt
      have hbB := (List.pairwise_cons.1 hB).1
      simp only [firstOr, List.mem_cons, forall_eq_or_imp]
      constructor
      · intro hs
        have hlb : w.1 < l.1 ∧ l.1 < b.1 := by omega
        exact ⟨hlb.1, hlb.2, fun c hc => hlb.2.trans (hbB c hc).lt⟩
      · rintro ⟨h1, h2, -⟩
        exact .inl ⟨h1, h2⟩
  obtain ⟨A, w, B, heq, hw, hB⟩ := exists_split hr.sorted hbase hne
  have hwmem : w ∈ (base, 0) :: fs := by
    rw [heq]
    simp
  obtain ⟨z, hz, hzp⟩ := hr.freep
  obtain ⟨v, hv, hpv, hwalk⟩ := hr.circle.walk hz ⟨w, hwmem, (hstop A w B heq).2 ⟨hw, hB⟩⟩ (k := fuel) hfuel
  obtain ⟨C, D, heq'⟩ := List.append_of_mem hv
  obtain ⟨hvl, hD⟩ := (hstop C v D heq').1 hpv
  refine ⟨C, v, D, heq', hvl, hD, ?_⟩
  rw [freeLoop_eq_walk, ← hzp]
  exact hwalk

/-- a block that begins before another one ends before it begins -/
theorem end_le {a b : Block} (hap : Apart HDR a b) (hpos : 0 < HDR * b.2) (hlt : a.1 < b.1) : a.1 + HDR * a.2 ≤ b.1 := by
  obtain hap | hap := hap
  · exact hap
  · omega

/-- what the block is after it has been joined to its upper neighbour, if it touches it, and what comes after it -/
structure Upper (base : ℕ) (h h' : Heap) (l : Block) (B live : List Block) (c : Block) (B' : List Block) : Prop where
  addr : c.1 = l.1
  le : l.2 ≤ c.2
  seg : Seg h'.ptr h'.size (c :: B') base
  other : ∀ x, x ≠ l.1 → h'.ptr x = h.ptr x ∧ h'.size x = h.size x
  chunks : h'.chunks = h.chunks
  sub : ∀ b ∈ B', b ∈ B
  sorted : (c :: B').Pairwise Below
  tiles : ∀ T, Tiles HDR h.chunks (T ++ (B ++ l :: live)) → Tiles HDR h.chunks (T ++ (c :: B' ++ live))

theorem upper {T : List Block} (ht : Tiles HDR h.chunks (T ++ (B ++ l :: live))) (hseg : Seg h.ptr h.size (w :: B) base)
    (hB : B.Pairwise Below) (hlow : base < l.1) (hlB : ∀ b ∈ B, l.1 < b.1) (hl : h.size l.1 = l.2)
    (hfew : (h.chunks.map Prod.snd).sum < 2 ^ 32) : ∃ c B', Upper base h (joinUpper h l.1 w.1) l B live c B' := by
  obtain ⟨hptr, hsize, hchunks⟩ := joinUpper_eq h w.1 l.1
  obtain ⟨hnext, -, hsegB⟩ := hseg
  rw [hnext, hl] at hptr hsize
  have hother : ∀ x, x ≠ l.1 → (joinUpper h l.1 w.1).ptr x = h.ptr x ∧ (joinUpper h l.1 w.1).size x = h.size x := by
    intro x hx
    rw [hptr, hsize, update_of_ne hx, update_of_ne hx]
    exact ⟨rfl, rfl⟩
  have hkeep : ∀ B', (∀ b ∈ B', b ∈ B) → Seg h.ptr h.size B' base →
      Seg (joinUpper h l.1 w.1).ptr (joinUpper h l.1 w.1).size B' base :=
    fun B' hsub hB' => hB'.congr fun b hb => hother b.1 (hlB b (hsub b hb)).ne'
  by_cases hjoin : l.1 + HDR * l.2 = firstOr B base
  · cases B with
    | nil =>
      simp only [firstOr] at hjoin
      omega
    | cons q B =>
      obtain ⟨q, k⟩ := q
      have hq : l.1 + HDR * l.2 = q := hjoin
      subst hq
      have htiles : ∀ T, Tiles HDR h.chunks (T ++ ((l.1 + HDR * l.2, k) :: B ++ l :: live)) →
          Tiles HDR h.chunks ((l.1, l.2 + k) :: (T ++ (B ++ live))) := by
        intro T ht
        refine Tiles.join (ht.perm ?_)
        refine List.perm_iff_count.2 fun x => ?_
        simp only [List.count_append, List.count_cons, Prod.mk.eta]
        omega
      have hle := (htiles T ht).le_units List.mem_cons_self
      have hqptr : h.ptr (firstOr ((l.1 + HDR * l.2, k) :: B) base) = firstOr B base := hsegB.1
      have hqsize : h.size (firstOr ((l.1 + HDR * l.2, k) :: B) base) = k := hsegB.2.1
      rw [if_pos hjoin, hqptr] at hptr
      rw [if_pos hjoin, hqsize, Nat.mod_eq_of_lt (lt_of_le_of_lt hle hfew)] at hsize
      refine ⟨(l.1, l.2 + k), B, rfl, Nat.le_add_right _ _, ⟨?_, ?_, ?_⟩, hother, hchunks, ?_, ?_, ?_⟩
      · rw [hptr, update_self]
      · rw [hsize, update_self]
      · exact hkeep B (fun b hb => List.mem_cons_of_mem _ hb) hsegB.2.2
      · exact fun b hb => List.mem_cons_of_mem _ hb
      · obtain ⟨hq, hrest⟩ := List.pairwise_cons.1 hB
        refine List.pairwise_cons.2 ⟨fun b hb => ?_, hrest⟩
        have := hq b hb
        simp only [Below, Nat.mul_add] at this ⊢
        omega
      · intro T ht
        refine (htiles T ht).perm (List.perm_iff_count.2 fun x => ?_)
        simp only [List.count_append, List.count_cons]
        omega
  · rw [if_neg hjoin] at hptr hsize
    refine ⟨l, B, rfl, le_rfl, ⟨?_, ?_, ?_⟩, hother, hchunks, fun b hb => hb, ?_, ?_⟩
    · rw [hptr, update_self]
    · rw [hsize, update_self]
    · exact hkeep B (fun b hb => hb) hsegB
    · refine List.pairwise_cons.2 ⟨fun b hb => ?_, hB⟩
      -- it ends before the first of B begins, and does not touch it
      have hend : ∀ b ∈ B, l.1 + HDR * l.2 ≤ b.1 := fun b hb =>
        have hBl := (List.pairwise_append.1 ht.apart).2.1
        end_le ((List.pairwise_append.1 hBl).2.2 b hb l List.mem_cons_self).symm
          (ht.pos b (List.mem_append_right T (List.mem_append_left _ hb))) (hlB b hb)
      cases B with
      | nil => cases hb
      | cons q B =>
        have hq : l.1 + HDR * l.2 < q.1 := lt_of_le_of_ne (hend q List.mem_cons_self) hjoin
        obtain rfl | hb' := List.mem_cons.1 hb
        · exact hq
        · exact hq.trans ((List.pairwise_cons.1 hB).1 b hb').lt
    · intro T ht
      refine ht.perm (List.perm_iff_count.2 fun x => ?_)
      simp only [List.count_append, List.count_cons]
      omega

/-- the heap when the block, joined to its upper neighbour, has been put after w -/
structure Lower (base : ℕ) (h t : Heap) (l w c : Block) (A B' live : List Block) : Prop where
  before : Seg t.ptr t.size A w.1
  after : Seg t.ptr t.size B' base
  ptr : t.ptr w.1 = if w.1 + HDR * w.2 = l.1 then firstOr B' base else l.1
  size : t.size w.1 = if w.1 + HDR * w.2 = l.1 then (w.2 + c.2) % 2 ^ 32 else w.2
  block : t.ptr l.1 = firstOr B' base ∧ t.size l.1 = c.2
  header : ∀ x ∈ live, t.size x.1 = x.2
  chunks : t.chunks = h.chunks
  freep : t.freep = w.1

theorem lower {c : Block} {B' : List Block} (hr : Rep base h fs (l :: live)) (heq : (base, 0) :: fs = A ++ w :: B)
    (hw : w.1 < l.1) (hup : Upper base h h' l B live c B') :
    Lower base h { joinLower h' l.1 w.1 with freep := w.1 } l w c A B' live := by
  obtain ⟨hptr, hsize, hchunks⟩ := joinLower_eq h' w.1 l.1
  generalize htj : joinLower h' l.1 w.1 = j at hptr hsize hchunks ⊢
  obtain ⟨hcaddr, -, ⟨hcptr, hcsize, hsegB'⟩, hother, hchunks', hsub, -, -⟩ := hup
  rw [hcaddr] at hcptr hcsize
  have hcircle := hr.circle
  have hsorted := hr.sorted
  have hwmem : w ∈ (base, 0) :: fs := by
    rw [heq]
    simp
  rw [heq] at hcircle hsorted
  obtain ⟨hsegA, -, hwsize, -⟩ := Seg.append.1 hcircle
  obtain ⟨-, hsortB, hAB⟩ := List.pairwise_append.1 hsorted
  have hwB := (List.pairwise_cons.1 hsortB).1
  rw [(hother w.1 hw.ne).2, hwsize, hcptr] at hptr
  rw [(hother w.1 hw.ne).2, hwsize, hcsize] at hsize
  -- what is neither the block nor its lower neighbour is as it was
  have hframe : ∀ x, x ≠ w.1 → j.ptr x = h'.ptr x ∧ j.size x = h'.size x := by
    intro x hx
    rw [hptr, hsize, update_of_ne hx, update_of_ne hx]
    exact ⟨rfl, rfl⟩
  refine ⟨?_, ?_, ?_, ?_, ?_, ?_, hchunks.trans hchunks', rfl⟩
  · change Seg j.ptr j.size A w.1
    refine hsegA.congr fun a ha => ?_
    have hlt := (hAB a ha w List.mem_cons_self).lt
    obtain ⟨h1, h2⟩ := hframe a.1 hlt.ne
    obtain ⟨h3, h4⟩ := hother a.1 (hlt.trans hw).ne
    exact ⟨h1.trans h3, h2.trans h4⟩
  · exact hsegB'.congr fun b hb => hframe b.1 (hwB b (hsub b hb)).lt.ne'
  · change j.ptr w.1 = _
    rw [hptr, update_self]
  · change j.size w.1 = _
    rw [hsize, update_self]
  · exact ⟨(hframe l.1 hw.ne').1.trans hcptr, (hframe l.1 hw.ne').2.trans hcsize⟩
  · intro x hx
    have hxl : x.1 ≠ l.1 := by
      have hap := (List.pairwise_cons.1 (List.pairwise_append.1 hr.tiles.apart).2.1).1 x hx
      have hlpos := hr.tiles.pos l (by simp)
      have hxpos := hr.tiles.pos x (by simp [hx])
      obtain hap | hap := hap
      · omega
      · omega
    have hxw : x.1 ≠ w.1 := (hr.ne_live hwmem (List.mem_cons_of_mem l hx)).symm
    change j.size x.1 = x.2
    rw [(hframe x.1 hxw).2, (hother x.1 hxl).2]
    exact hr.header x (List.mem_cons_of_mem l hx)

/-- the blocks up to a node of the list, without the static header -/
theorem before (heq : (base, 0) :: fs = A ++ w :: B) :
    ∃ T, fs = T ++ B ∧ ∀ D, (base, 0) :: (T ++ D) = A ++ w :: D := by
  cases A with
  | nil =>
    obtain ⟨rfl, rfl⟩ := List.cons.inj heq
    exact ⟨[], rfl, fun D => rfl⟩
  | cons a A =>
    obtain ⟨rfl, rfl⟩ := List.cons.inj heq
    exact ⟨A ++ [w], by simp, fun D => by simp⟩

/-- the lower neighbour touches the block: they are one -/
theorem joined {t : Heap} {c : Block} {B' : List Block} (hr : Rep base h fs (l :: live))
    (heq : (base, 0) :: fs = A ++ w :: B) (hup : Upper base h h' l B live c B') (hlow : Lower base h t l w c A B' live)
    (hjoin : w.1 + HDR * w.2 = l.1) : ∃ fs', Rep base t fs' live ∧ ∃ x ∈ fs', l.2 ≤ x.2 := by
  have hbase : base + HDR ≤ l.1 := hr.base_le (by simp)
  have hsorted := hr.sorted
  rw [heq] at hsorted
  cases A with
  | nil =>
    -- the static header touches nothing
    obtain ⟨rfl, -⟩ := List.cons.inj heq
    have : HDR = 16 := rfl
    simp only [Nat.mul_zero, Nat.add_zero] at hjoin
    omega
  | cons a A =>
    obtain ⟨rfl, rfl⟩ := List.cons.inj heq
    have htiles := hup.tiles (A ++ [w]) (by simpa using hr.tiles)
    have htile : Tiles HDR t.chunks ((w.1, w.2 + c.2) :: (A ++ (B' ++ live))) := by
      rw [hlow.chunks]
      have hc : c = (w.1 + HDR * w.2, c.2) := by rw [hjoin, ← hup.addr]
      refine Tiles.join (htiles.perm (List.perm_iff_count.2 fun x => ?_))
      rw [← hc]
      simp only [List.count_append, List.count_cons, List.count_nil, Prod.mk.eta]
      omega
    have hfew : (t.chunks.map Prod.snd).sum < 2 ^ 32 := hlow.chunks ▸ hr.few
    have hptr := hlow.ptr
    have hsize := hlow.size
    rw [if_pos hjoin] at hptr hsize
    rw [Nat.mod_eq_of_lt (lt_of_le_of_lt (htile.le_units List.mem_cons_self) hfew)] at hsize
    obtain ⟨hsortA, hsortB, hAB⟩ := List.pairwise_append.1 hsorted
    refine ⟨A ++ (w.1, w.2 + c.2) :: B', ⟨?_, ?_, ?_, hlow.header, ?_, hlow.chunks ▸ hr.low, hfew⟩,
      (w.1, w.2 + c.2), by simp, ?_⟩
    · rw [← List.cons_append, Seg.append]
      exact ⟨hlow.before, hptr, hsize, hlow.after⟩
    · rw [← List.cons_append, List.pairwise_append]
      obtain ⟨hcB, hB'⟩ := List.pairwise_cons.1 hup.sorted
      refine ⟨hsortA, List.pairwise_cons.2 ⟨fun b hb => ?_, hB'⟩, fun a ha x hx => ?_⟩
      · have := hcB b hb
        simp only [Below, hup.addr, Nat.mul_add] at this ⊢
        omega
      · obtain rfl | hx := List.mem_cons.1 hx
        · exact hAB a ha w List.mem_cons_self
        · exact hAB a ha x (List.mem_cons_of_mem w (hup.sub x hx))
    · exact ⟨(w.1, w.2 + c.2), by simp, hlow.freep.symm⟩
    · refine htile.perm (List.perm_iff_count.2 fun x => ?_)
      simp only [List.count_append, List.count_cons]
      omega
    · have := hup.le
      simp only
      omega

/-- it does not: the block is one more node -/
theorem alone {t : Heap} {c : Block} {B' : List Block} (hr : Rep base h fs (l :: live))
    (heq : (base, 0) :: fs = A ++ w :: B) (hw : w.1 < l.1) (hup : Upper base h h' l B live c B')
    (hlow : Lower base h t l w c A B' live) (hjoin : w.1 + HDR * w.2 ≠ l.1) :
    ∃ fs', Rep base t fs' live ∧ ∃ x ∈ fs', l.2 ≤ x.2 := by
  have hsorted := hr.sorted
  rw [heq] at hsorted
  obtain ⟨hsortA, hsortB, hAB⟩ := List.pairwise_append.1 hsorted
  have hwB := (List.pairwise_cons.1 hsortB).1
  obtain ⟨T, hT, hN⟩ := before heq
  have hwl : w.1 + HDR * w.2 < c.1 := by
    rw [hup.addr]
    refine lt_of_le_of_ne ?_ hjoin
    have hwmem : w ∈ (base, 0) :: fs := by
      rw [heq]
      simp
    obtain rfl | hwmem := List.mem_cons.1 hwmem
    · exact hw.le
    · exact end_le ((List.pairwise_append.1 hr.tiles.apart).2.2 w hwmem l List.mem_cons_self) (hr.tiles.pos l (by simp)) hw
  have hptr := hlow.ptr
  have hsize := hlow.size
  rw [if_neg hjoin, ← hup.addr] at hptr
  rw [if_neg hjoin] at hsize
  obtain ⟨hcB, hB'⟩ := List.pairwise_cons.1 hup.sorted
  refine ⟨T ++ c :: B', ⟨?_, ?_, ?_, hlow.header, ?_, hlow.chunks ▸ hr.low, hlow.chunks ▸ hr.few⟩, c, by simp, hup.le⟩
  · rw [hN, Seg.append]
    refine ⟨hlow.before, hptr, hsize, ?_, ?_, hlow.after⟩
    · rw [hup.addr]
      exact hlow.block.1
    · rw [hup.addr]
      exact hlow.block.2
  · rw [hN, List.pairwise_append, List.pairwise_cons, List.pairwise_cons]
    have hbelow : ∀ x ∈ c :: B', w.1 < x.1 ∧ Below w x := by
      intro x hx
      obtain rfl | hx := List.mem_cons.1 hx
      · exact ⟨hup.addr ▸ hw, hwl⟩
      · exact ⟨(hwB x (hup.sub x hx)).lt, hwB x (hup.sub x hx)⟩
    refine ⟨hsortA, ⟨fun x hx => (hbelow x hx).2, hcB, hB'⟩, fun a ha x hx => ?_⟩
    have haw : Below a w := hAB a ha w List.mem_cons_self
    obtain rfl | hx := List.mem_cons.1 hx
    · exact haw
    · exact haw.trans (hbelow x hx).1
  · refine ⟨w, ?_, hlow.freep.symm⟩
    rw [hN]
    simp
  · rw [hlow.chunks, List.append_assoc]
    refine hup.tiles T ?_
    rw [← List.append_assoc, ← hT]
    exact hr.tiles

/-- **free.** The block goes back to the list, alone or joined to its neighbours. -/
theorem free {fuel : ℕ} (hr : Rep base h fs (l :: live)) (hfuel : fs.length < fuel) :
    ∃ h' fs', free fuel h (l.1 + HDR) = some h' ∧ Rep base h' fs' live ∧ h'.chunks = h.chunks ∧ ∃ x ∈ fs', l.2 ≤ x.2 := by
  obtain ⟨A, w, B, heq, hw, hB, hloop⟩ := hr.place List.mem_cons_self hfuel
  have hcircle := hr.circle
  have hsorted := hr.sorted
  rw [heq] at hcircle hsorted
  have hlow : base < l.1 := by
    have : base + HDR ≤ l.1 := hr.base_le (by simp)
    have : HDR = 16 := rfl
    omega
  obtain ⟨T, rfl, -⟩ := before heq
  obtain ⟨c, B', hup⟩ := upper (by simpa using hr.tiles) (Seg.append.1 hcircle).2
    (List.pairwise_cons.1 (List.pairwise_append.1 hsorted).2.1).2 hlow hB (hr.header l List.mem_cons_self) hr.few
  have hlower := hr.lower heq hw hup
  refine ⟨{ joinLower (joinUpper h l.1 w.1) l.1 w.1 with freep := w.1 }, ?_⟩
  have hfree : Umalloc.free fuel h (l.1 + HDR) =
      some { joinLower (joinUpper h l.1 w.1) l.1 w.1 with freep := w.1 } := by
    simp only [Umalloc.free, Nat.add_sub_cancel, hloop, Option.map_some]
  have hrep : ∃ fs', Rep base { joinLower (joinUpper h l.1 w.1) l.1 w.1 with freep := w.1 } fs' live ∧
      ∃ x ∈ fs', l.2 ≤ x.2 := by
    by_cases hjoin : w.1 + HDR * w.2 = l.1
    · exact hr.joined heq hup hlower hjoin
    · exact hr.alone heq hw hup hlower hjoin
  obtain ⟨fs', hrep, hbig⟩ := hrep
  exact ⟨fs', hfree, hrep, hlower.chunks, hbig⟩

/-! ## malloc -/

/-- the block after v is taken out of the list -/
theorem unlink {z v : Block} {D : List Block} (hr : Rep base h fs live) (heq : (base, 0) :: fs = A ++ v :: z :: D) :
    ∃ fs', Rep base { h.setPtr v.1 (h.ptr z.1) with freep := v.1 } fs' (z :: live) := by
  obtain ⟨T, rfl, hN⟩ := before heq
  have hcircle := hr.circle
  have hsorted := hr.sorted
  rw [heq] at hcircle hsorted
  obtain ⟨hsegA, -, hvsize, hzptr, hzsize, hsegD⟩ := Seg.append.1 hcircle
  obtain ⟨hsortA, hsortvz, hAB⟩ := List.pairwise_append.1 hsorted
  obtain ⟨hvD, hsortz⟩ := List.pairwise_cons.1 hsortvz
  have hptr : ∀ x, x ≠ v.1 → (h.setPtr v.1 (h.ptr z.1)).ptr x = h.ptr x := by
    intro x hx
    rw [ptr_setPtr, update_of_ne hx]
  refine ⟨T ++ D, ?_, ?_, ?_, ?_, ?_, hr.low, hr.few⟩
  · rw [hN, Seg.append]
    refine ⟨hsegA.congr fun a ha => ⟨hptr a.1 (hAB a ha v List.mem_cons_self).lt.ne, congrFun size_setPtr a.1⟩, ?_, ?_, ?_⟩
    · change (h.setPtr v.1 (h.ptr z.1)).ptr v.1 = _
      rw [ptr_setPtr, update_self, hzptr]
    · exact (congrFun size_setPtr v.1).trans hvsize
    · exact hsegD.congr fun d hd =>
        ⟨hptr d.1 (hvD d (List.mem_cons_of_mem z hd)).lt.ne', congrFun size_setPtr d.1⟩
  · rw [hN]
    refine hsorted.sublist ?_
    exact List.Sublist.append_left (List.Sublist.cons_cons v (List.sublist_cons_self z D)) A
  · refine ⟨v, ?_, rfl⟩
    rw [hN]
    simp
  · intro x hx
    refine (congrFun size_setPtr x.1).trans ?_
    obtain rfl | hx := List.mem_cons.1 hx
    · exact hzsize
    · exact hr.header x hx
  · refine hr.tiles.perm (List.perm_iff_count.2 fun x => ?_)
    simp only [List.count_append, List.count_cons]
    omega

/-- the tail of the block z is cut off -/
theorem cut {z v : Block} {D : List Block} {k n : ℕ} (hr : Rep base h fs live)
    (heq : (base, 0) :: fs = A ++ v :: z :: D) (hz : z.2 = k + n) (hk : 0 < k) (hn : 0 < n) :
    ∃ fs', Rep base { (h.setSize z.1 k).setSize (z.1 + HDR * k) n with freep := v.1 } fs' ((z.1 + HDR * k, n) :: live) := by
  obtain ⟨z, m⟩ := z
  obtain rfl : m = k + n := hz
  obtain ⟨T, rfl, hN⟩ := before heq
  have hcircle := hr.circle
  have hsorted := hr.sorted
  rw [heq] at hcircle hsorted
  obtain ⟨hsegA, hvptr, hvsize, hzptr, hzsize, hsegD⟩ := Seg.append.1 hcircle
  obtain ⟨hsortA, hsortvz, hAB⟩ := List.pairwise_append.1 hsorted
  obtain ⟨hvD, hsortz⟩ := List.pairwise_cons.1 hsortvz
  obtain ⟨hzD, hsortD⟩ := List.pairwise_cons.1 hsortz
  have hvz : v.1 < z := (hvD (z, k + n) List.mem_cons_self).lt
  have hk' : 0 < HDR * k := Nat.mul_pos (by decide) hk
  have hn' : 0 < HDR * n := Nat.mul_pos (by decide) hn
  have hunits : k + n < 2 ^ 32 :=
    lt_of_le_of_lt (hr.tiles.le_units (a := (z, k + n)) (by simp)) hr.few
  generalize ht : ({ (h.setSize z k).setSize (z + HDR * k) n with freep := v.1 } : Heap) = t
  have hptr : t.ptr = h.ptr := by
    rw [← ht]
    exact (ptr_setSize.trans ptr_setSize)
  have hsize : t.size = update (update h.size z k) (z + HDR * k) n := by
    rw [← ht]
    refine (size_setSize).trans ?_
    rw [size_setSize, Nat.mod_eq_of_lt (by omega), Nat.mod_eq_of_lt (by omega)]
  have hframe : ∀ x, x ≠ z → x ≠ z + HDR * k → t.size x = h.size x := by
    intro x h1 h2
    rw [hsize, update_of_ne h2, update_of_ne h1]
  have hbelow : ∀ x, x < z → t.ptr x = h.ptr x ∧ t.size x = h.size x :=
    fun x hx => ⟨congrFun hptr x, hframe x (by omega) (by omega)⟩
  refine ⟨T ++ (z, k) :: D, ?_, ?_, ?_, ?_, ?_, ?_, ?_⟩
  · rw [hN, Seg.append]
    refine ⟨hsegA.congr fun a ha => hbelow a.1 (hAB a ha (z, k + n) (by simp)).lt, ?_, ?_, ?_, ?_, ?_⟩
    · exact (hbelow v.1 hvz).1.trans hvptr
    · exact (hbelow v.1 hvz).2.trans hvsize
    · exact (congrFun hptr z).trans hzptr
    · rw [hsize, update_of_ne (by omega), update_self]
    · refine hsegD.congr fun d hd => ⟨congrFun hptr d.1, hframe d.1 ?_ ?_⟩
      · exact (hzD d hd).lt.ne'
      · have := hzD d hd
        simp only [Below, Nat.mul_add] at this
        omega
  · rw [hN, List.pairwise_append, List.pairwise_cons, List.pairwise_cons]
    have hzk : ∀ x, Below x (z, k + n) → Below x (z, k) := fun x hx => hx
    refine ⟨hsortA, ⟨?_, fun d hd => ?_, hsortD⟩, ?_⟩
    · simp only [List.mem_cons, forall_eq_or_imp]
      exact ⟨hvD (z, k + n) List.mem_cons_self, fun d hd => hvD d (List.mem_cons_of_mem _ hd)⟩
    · have := hzD d hd
      simp only [Below, Nat.mul_add] at this ⊢
      omega
    · intro a ha
      simp only [List.mem_cons, forall_eq_or_imp]
      exact ⟨hAB a ha v (by simp), hAB a ha (z, k + n) (by simp), fun d hd => hAB a ha d (by simp [hd])⟩
  · refine ⟨v, ?_, by rw [← ht]⟩
    rw [hN]
    simp
  · simp only [List.mem_cons, forall_eq_or_imp]
    refine ⟨by rw [hsize, update_self], fun x hx => ?_⟩
    have hap := (List.pairwise_append.1 hr.tiles.apart).2.2 (z, k + n) (by simp) x hx
    have hxpos := hr.tiles.pos x (by simp [hx])
    simp only [Apart, Nat.mul_add] at hap
    refine (hframe x.1 ?_ ?_).trans (hr.header x hx)
    · omega
    · omega
  · rw [← ht]
    refine Tiles.perm (l := (z, k) :: (z + HDR * k, n) :: (T ++ (D ++ live))) (Tiles.split ?_ hk' hn') ?_
    · refine hr.tiles.perm (List.perm_iff_count.2 fun x => ?_)
      simp only [List.count_append, List.count_cons]
      omega
    · refine List.perm_iff_count.2 fun x => ?_
      simp only [List.count_append, List.count_cons]
      omega
  · rw [← ht]
    exact hr.low
  · rw [← ht]
    exact hr.few

/-- **A block is taken.** The block that is returned, or the tail that is cut off, becomes live. -/
theorem take {v : Block} {n : ℕ} (hr : Rep base h fs live) (hv : v ∈ (base, 0) :: fs) (hn : 0 < n)
    (hfit : n ≤ h.size (h.ptr v.1)) : ∃ p fs', (Umalloc.take h n v.1 (h.ptr v.1)).2 = p + HDR ∧
      Rep base (Umalloc.take h n v.1 (h.ptr v.1)).1 fs' ((p, n) :: live) ∧
      (Umalloc.take h n v.1 (h.ptr v.1)).1.chunks = h.chunks := by
  obtain ⟨A, D, heq⟩ := List.append_of_mem hv
  have hcircle := hr.circle
  rw [heq] at hcircle
  rw [hcircle.next_eq] at hfit ⊢
  cases D with
  | nil =>
    -- the static header has size 0
    have hzero : h.size base = 0 := hr.circle.2.1
    simp only [firstOr] at hfit
    omega
  | cons z D =>
    have hzsize : h.size z.1 = z.2 := hcircle.val_eq (by simp)
    simp only [firstOr] at hfit ⊢
    unfold Umalloc.take
    rw [hzsize] at hfit ⊢
    by_cases heqn : z.2 = n
    · rw [if_pos heqn]
      obtain ⟨fs', hrep⟩ := hr.unlink heq
      exact ⟨z.1, fs', rfl, by rwa [← heqn], rfl⟩
    · rw [if_neg heqn]
      obtain ⟨fs', hrep⟩ := hr.cut (k := z.2 - n) (n := n) heq (by omega) (by omega) hn
      have hzmem : z ∈ fs ++ live := by
        obtain ⟨T, rfl, -⟩ := before heq
        simp
      have hmod : (z.2 - n) % 2 ^ 32 = z.2 - n := by
        refine Nat.mod_eq_of_lt (lt_of_le_of_lt (Nat.sub_le _ _) ?_)
        exact lt_of_le_of_lt (hr.tiles.le_units hzmem) hr.few
      simp only [size_setSize, update_self, hmod]
      exact ⟨z.1 + HDR * (z.2 - n), fs', rfl, hrep, rfl⟩

/-- **More memory.** What `sbrk` gives becomes a free block, or part of one. -/
theorem morecore {sbrk : Sbrk} {fuel n p : ℕ} (hr : Rep base h fs live) (hfresh : Fresh base sbrk)
    (hfuel : fs.length < fuel) (hp : sbrk h.chunks (if n < 4096 then 4096 else n) = some p) :
    ∃ h' fs', Umalloc.morecore sbrk fuel h n = some (h', h'.freep) ∧ Rep base h' fs' live ∧
      h'.chunks = (p, if n < 4096 then 4096 else n) :: h.chunks ∧ ∃ x ∈ fs', n ≤ x.2 := by
  unfold Umalloc.morecore
  generalize hnu : (if n < 4096 then 4096 else n) = nu at hp ⊢
  have hn : n ≤ nu ∧ 0 < nu := by
    split_ifs at hnu
    · omega
    · omega
  obtain ⟨hlow, hends, hsum⟩ := hfresh h.chunks nu p hp
  generalize hg : ({ h with chunks := (p, nu) :: h.chunks } : Heap).setSize p nu = g
  have hgptr : g.ptr = h.ptr := by
    rw [← hg]
    exact ptr_setSize
  have hgsize : ∀ x, x ≠ p → g.size x = h.size x := by
    intro x hx
    rw [← hg, size_setSize, update_of_ne hx]
    rfl
  -- the new block is above all others
  have habove : ∀ b ∈ fs ++ live, b.1 < p ∧ Apart HDR (p, nu) b := by
    intro b hb
    have hbpos := hr.tiles.pos b hb
    have hlast : Holds HDR b (b.1 + HDR * b.2 - 1) := ⟨by omega, by omega⟩
    obtain ⟨c, hc, -, hlt⟩ := (hr.tiles.cover _).2 ⟨b, hb, hlast⟩
    have hend := hends c hc
    exact ⟨by omega, .inr (by simp only; omega)⟩
  have hgsize' : g.size p = nu := by
    rw [← hg, size_setSize, update_self, Nat.mod_eq_of_lt (by omega)]
  have hgchunks : g.chunks = (p, nu) :: h.chunks := by rw [← hg, chunks_setSize]
  have hrep : Rep base g fs ((p, nu) :: live) := by
    refine ⟨hr.circle.congr fun x hx => ⟨congrFun hgptr x.1, hgsize x.1 ?_⟩, hr.sorted, ?_, ?_, ?_, ?_, ?_⟩
    · have : HDR = 16 := rfl
      obtain rfl | hx := List.mem_cons.1 hx
      · simp only
        omega
      · exact (habove x (List.mem_append_left live hx)).1.ne
    · obtain ⟨x, hx, hxp⟩ := hr.freep
      exact ⟨x, hx, by rw [← hg, freep_setSize]; exact hxp⟩
    · simp only [List.mem_cons, forall_eq_or_imp]
      refine ⟨hgsize', fun x hx => ?_⟩
      rw [hgsize x.1 (habove x (List.mem_append_right fs hx)).1.ne]
      exact hr.header x hx
    · rw [hgchunks]
      exact (hr.tiles.grow (Nat.mul_pos (by decide) hn.2) fun b hb => (habove b hb).2).perm List.perm_middle.symm
    · rw [hgchunks]
      simp only [List.mem_cons, forall_eq_or_imp]
      exact ⟨hlow, hr.low⟩
    · rw [hgchunks, List.map_cons, List.sum_cons]
      omega
  obtain ⟨h', fs', hfree, hrep', hchunks, x, hx, hxn⟩ := hrep.free hfuel
  refine ⟨h', fs', ?_, hrep', hchunks.trans hgchunks, x, hx, hn.1.trans hxn⟩
  simp only [hp, hg, hfree, Option.map_some]

/-! ## The loop of malloc -/

section

variable {n k : ℕ}

/-- the loop passes the nodes that are too small, up to freep -/
theorem mallocLoop_skip (sbrk : Sbrk) {y : ℕ} {v : Block} {l : List Block} (hseg : Seg h.ptr h.size (v :: l) y)
    (hl : ∀ x ∈ l, h.size x.1 < n ∧ x.1 ≠ h.freep) :
    ∃ w ∈ v :: l, h.ptr w.1 = y ∧ mallocLoop sbrk n (l.length + k) h v.1 (h.ptr v.1) = mallocLoop sbrk n k h w.1 y := by
  induction l generalizing v with
  | nil => exact ⟨v, List.mem_cons_self, hseg.1, by rw [hseg.1, List.length_nil, Nat.zero_add]; rfl⟩
  | cons x l ih =>
    obtain ⟨hnext, -, hrest⟩ := hseg
    obtain ⟨hsmall, hne⟩ := hl x List.mem_cons_self
    obtain ⟨w, hw, hwy, hloop⟩ := ih hrest fun z hz => hl z (List.mem_cons_of_mem x hz)
    refine ⟨w, List.mem_cons_of_mem v hw, hwy, ?_⟩
    rw [← hloop, hnext, List.length_cons, Nat.add_right_comm]
    simp only [firstOr]
    rw [mallocLoop, if_neg (by omega), if_neg hne]

/-- the circle from freep on -/
theorem from_freep (hr : Rep base h fs live) : ∃ f m, f.1 = h.freep ∧ Seg h.ptr h.size (f :: m) f.1 ∧
    List.Perm (f :: m) ((base, 0) :: fs) ∧ ∀ x ∈ m, x.1 ≠ h.freep := by
  obtain ⟨f, hf, hfp⟩ := hr.freep
  obtain ⟨m, hm, hperm⟩ := Seg.exists_rotate (x := (base, 0)) hr.circle hf
  refine ⟨f, m, hfp, hm, hperm, fun x hx => ?_⟩
  have hdistinct : (f :: m).Pairwise (fun a b : Block => a.1 ≠ b.1) :=
    (hperm.pairwise_iff fun hne => hne.symm).2 (hr.sorted.imp fun hb => hb.lt.ne)
  exact hfp ▸ ((List.pairwise_cons.1 hdistinct).1 x hx).symm

/-- the loop takes the first block that is big enough, if there is one -/
theorem mallocLoop_found (sbrk : Sbrk) (hr : Rep base h fs live) (hfit : ∃ x ∈ (base, 0) :: fs, n ≤ x.2) (hk : fs.length < k) :
    ∃ v ∈ (base, 0) :: fs, n ≤ h.size (h.ptr v.1) ∧
      mallocLoop sbrk n k h h.freep (h.ptr h.freep) = some (Umalloc.take h n v.1 (h.ptr v.1)) := by
  obtain ⟨f, m, hfp, hseg, hperm, hne⟩ := hr.from_freep
  have hlen : m.length = fs.length := by simpa using hperm.length_eq
  -- the nodes before the first one that is big enough
  obtain ⟨C, z, hzfit, hC, hCle, hsegC⟩ : ∃ C z, n ≤ h.size z ∧ (∀ x ∈ C, h.size x.1 < n ∧ x ∈ m) ∧
      C.length ≤ m.length ∧ Seg h.ptr h.size (f :: C) z := by
    by_cases hm : ∃ x ∈ m, n ≤ x.2
    · obtain ⟨x, hx, hxn⟩ := hm
      obtain ⟨z, hz⟩ : ∃ z, m.find? (fun x => decide (n ≤ x.2)) = some z := by
        rw [← Option.isSome_iff_exists, List.find?_isSome]
        exact ⟨x, hx, by simpa using hxn⟩
      obtain ⟨hzn, C, E, rfl, hC⟩ := List.find?_eq_some_iff_append.1 hz
      have hval : ∀ x ∈ f :: (C ++ z :: E), h.size x.1 = x.2 := fun x hx => hseg.val_eq hx
      refine ⟨C, z.1, ?_, fun x hx => ⟨?_, List.mem_append_left _ hx⟩, by simp, ?_⟩
      · rw [hval z (by simp)]
        simpa using hzn
      · rw [hval x (by simp [hx])]
        simpa using hC x hx
      · rw [← List.cons_append] at hseg
        exact (Seg.append.1 hseg).1
    · push Not at hm
      obtain ⟨x, hx, hxn⟩ := hfit
      have hval : ∀ x ∈ f :: m, h.size x.1 = x.2 := fun x hx => hseg.val_eq hx
      obtain rfl : x = f := by
        obtain hx | hx := List.mem_cons.1 (hperm.mem_iff.2 hx)
        · exact hx
        · exact absurd hxn (Nat.not_le.2 (hm x hx))
      refine ⟨m, x.1, ?_, fun w hw => ⟨?_, hw⟩, le_rfl, hseg⟩
      · rwa [hval x List.mem_cons_self]
      · rw [hval w (List.mem_cons_of_mem x hw)]
        exact hm w hw
  obtain ⟨j, rfl⟩ : ∃ j, k = C.length + (j + 1) := ⟨k - C.length - 1, by omega⟩
  obtain ⟨w, hw, hwz, hloop⟩ := mallocLoop_skip sbrk (k := j + 1) hsegC fun x hx => ⟨(hC x hx).1, hne x (hC x hx).2⟩
  have hwmem : w ∈ f :: m := by
    obtain rfl | hw := List.mem_cons.1 hw
    · exact List.mem_cons_self
    · exact List.mem_cons_of_mem f (hC w hw).2
  refine ⟨w, hperm.mem_iff.1 hwmem, hwz ▸ hzfit, ?_⟩
  rw [← hfp, hloop, mallocLoop, if_pos hzfit, hwz]

/-- otherwise it gets back to freep and asks for more -/
theorem mallocLoop_full (sbrk : Sbrk) (hr : Rep base h fs live) (hfit : ∀ x ∈ (base, 0) :: fs, x.2 < n) :
    mallocLoop sbrk n (fs.length + (k + 1)) h h.freep (h.ptr h.freep) =
      match Umalloc.morecore sbrk k h n with
      | none => none
      | some (h, p) => if p = 0 then some (h, 0) else mallocLoop sbrk n k h p (h.ptr p) := by
  obtain ⟨f, m, hfp, hseg, hperm, hne⟩ := hr.from_freep
  have hlen : m.length = fs.length := by simpa using hperm.length_eq
  have hsmall : ∀ x ∈ f :: m, h.size x.1 < n := by
    intro x hx
    rw [hseg.val_eq hx]
    exact hfit x (hperm.mem_iff.1 hx)
  obtain ⟨w, -, -, hloop⟩ := mallocLoop_skip sbrk (k := k + 1) hseg
    fun x hx => ⟨hsmall x (List.mem_cons_of_mem f hx), hne x hx⟩
  rw [← hlen, ← hfp, hloop, mallocLoop]
  exact (if_neg (Nat.not_le.2 (hsmall f List.mem_cons_self))).trans (if_pos hfp)

end

end Rep

end Xv6.Umalloc
