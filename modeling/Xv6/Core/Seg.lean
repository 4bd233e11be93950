/-
Linked nodes with data, over any type of addresses and of data.

`Seg next val l y` says that the nodes of l, each with its data, follow one another and then comes y. A circle is a segment
that leads back to its first node.
- `Seg.append`, `Seg.congr`: segments are put together, and only depend on their own nodes;
- `Seg.exists_rotate`: a circle may be read from any of its nodes on;
- `Seg.walk`: a loop that follows the pointers of a circle finds a node of the kind it looks for.
-/
import Mathlib.Tactic

namespace Xv6

variable {α δ : Type} {next next' : α → α} {val val' : α → δ} {l m : List (α × δ)} {x z : α × δ} {y : α}

/-- the first address of l, or y when there is none -/
def firstOr : List (α × δ) → α → α
  | [], y => y
  | x :: _, _ => x.1

def Seg (next : α → α) (val : α → δ) : List (α × δ) → α → Prop
  | [], _ => True
  | x :: l, y => next x.1 = firstOr l y ∧ val x.1 = x.2 ∧ Seg next val l y

/-- follow the pointers from x until p holds, in at most the given number of steps -/
def walk (next : α → α) (p : α → Prop) [DecidablePred p] : ℕ → α → Option α
  | 0, _ => none
  | k + 1, x => if p x then some x else walk next p k (next x)

@[simp] theorem firstOr_append (l m : List (α × δ)) (y : α) : firstOr (l ++ m) y = firstOr l (firstOr m y) := by
  cases l <;> rfl

namespace Seg

theorem append : Seg next val (l ++ m) y ↔ Seg next val l (firstOr m y) ∧ Seg next val m y := by
  induction l with
  | nil => simp [Seg]
  | cons x l ih => simp only [List.cons_append, Seg, firstOr_append, ih, and_assoc]

theorem congr (h : Seg next val l y) (heq : ∀ x ∈ l, next' x.1 = next x.1 ∧ val' x.1 = val x.1) :
    Seg next' val' l y := by
  induction l with
  | nil => trivial
  | cons x l ih =>
    obtain ⟨hn, hv⟩ := heq x List.mem_cons_self
    exact ⟨hn.trans h.1, hv.trans h.2.1, ih h.2.2 fun z hz => heq z (List.mem_cons_of_mem x hz)⟩

theorem val_eq (h : Seg next val l y) (hx : x ∈ l) : val x.1 = x.2 := by
  induction l with
  | nil => cases hx
  | cons z l ih =>
    obtain rfl | hx := List.mem_cons.1 hx
    · exact h.2.1
    · exact ih h.2.2 hx

/-- the node after a node of the segment -/
theorem next_eq (h : Seg next val (l ++ x :: m) y) : next x.1 = firstOr m y := (append.1 h).2.1

theorem rotate (h : Seg next val (x :: l ++ z :: m) x.1) : Seg next val (z :: m ++ x :: l) z.1 := by
  rw [append] at h ⊢
  exact ⟨h.2, h.1⟩

/-- a circle, read from any of its nodes on -/
theorem exists_rotate (h : Seg next val (x :: l) x.1) (hz : z ∈ x :: l) :
    ∃ m, Seg next val (z :: m) z.1 ∧ List.Perm (z :: m) (x :: l) := by
  obtain ⟨A, B, hsplit⟩ := List.append_of_mem hz
  cases A with
  | nil =>
    obtain ⟨rfl, rfl⟩ := List.cons.inj hsplit
    exact ⟨l, h, .refl _⟩
  | cons a A =>
    obtain ⟨rfl, rfl⟩ := List.cons.inj hsplit
    refine ⟨B ++ x :: A, rotate h, ?_⟩
    have hperm : List.Perm (z :: B ++ x :: A) (x :: A ++ z :: B) := List.perm_append_comm
    exact hperm

/-- the loop goes through a segment up to the first node it looks for -/
theorem walk_segment {p : α → Prop} [DecidablePred p] {k : ℕ} (h : Seg next val l y) (hx : ∃ x ∈ l, p x.1)
    (hk : l.length ≤ k) : ∃ x ∈ l, p x.1 ∧ walk next p k (firstOr l y) = some x.1 := by
  induction l generalizing k with
  | nil =>
    obtain ⟨x, hx, -⟩ := hx
    cases hx
  | cons a l ih =>
    obtain ⟨k, rfl⟩ := Nat.exists_eq_add_one_of_ne_zero (Nat.ne_of_gt (Nat.lt_of_lt_of_le (Nat.succ_pos _) hk))
    by_cases ha : p a.1
    · exact ⟨a, List.mem_cons_self, ha, if_pos ha⟩
    · obtain ⟨x, hx, hp⟩ := hx
      have hxl : x ∈ l := (List.mem_cons.1 hx).resolve_left fun heq => ha (heq ▸ hp)
      obtain ⟨w, hw, hpw, hwalk⟩ := ih h.2.2 ⟨x, hxl, hp⟩ (Nat.le_of_succ_le_succ hk)
      refine ⟨w, List.mem_cons_of_mem a hw, hpw, ?_⟩
      rw [← hwalk, ← h.1]
      exact if_neg ha

/-- **A loop over a circle** finds a node of the kind it looks for, if there is one, wherever it starts. -/
theorem walk {p : α → Prop} [DecidablePred p] {k : ℕ} (h : Seg next val (x :: l) x.1) (hz : z ∈ x :: l)
    (hp : ∃ w ∈ x :: l, p w.1) (hk : (x :: l).length ≤ k) : ∃ w ∈ x :: l, p w.1 ∧ walk next p k z.1 = some w.1 := by
  obtain ⟨m, hm, hperm⟩ := h.exists_rotate hz
  obtain ⟨w, hw, hpw⟩ := hp
  obtain ⟨v, hv, hpv, hwalk⟩ := hm.walk_segment ⟨w, hperm.mem_iff.2 hw, hpw⟩ (hperm.length_eq.trans_le hk)
  exact ⟨v, hperm.mem_iff.1 hv, hpv, hwalk⟩

end Seg

end Xv6
