/-
Intervals that tile other intervals.

A block is an address and a number of units of u bytes. `Tiles u whole l` says that the blocks of l are apart from one
another and make up the bytes of whole, which are themselves blocks.
- `Tiles.perm`, `Tiles.join`, `Tiles.split`: the order does not matter, and neighbours may be taken together or apart;
- `Tiles.grow`: a new block that is apart from all that was there;
- `Tiles.units`: the units of both are the same in number.
-/
import Mathlib.Tactic

namespace Xv6

/-- address, units -/
abbrev Block := ℕ × ℕ

namespace Tiling

variable {u : ℕ} {a b c : Block} {whole l m : List Block}

/-- the block holds the byte -/
def Holds (u : ℕ) (a : Block) (x : ℕ) : Prop := a.1 ≤ x ∧ x < a.1 + u * a.2

/-- one ends before the other begins -/
def Apart (u : ℕ) (a b : Block) : Prop := a.1 + u * a.2 ≤ b.1 ∨ b.1 + u * b.2 ≤ a.1

theorem Apart.symm (h : Apart u a b) : Apart u b a := Or.symm h

/-- blocks that are apart have no byte in common -/
theorem Apart.not_holds {x : ℕ} (h : Apart u a b) (ha : Holds u a x) : ¬ Holds u b x := by
  obtain ⟨h1, h2⟩ := ha
  rintro ⟨h3, h4⟩
  obtain h | h := h
  · omega
  · omega

structure Tiles (u : ℕ) (whole l : List Block) : Prop where
  pos : ∀ a ∈ l, 0 < u * a.2
  apart : l.Pairwise (Apart u)
  cover : ∀ x, (∃ a ∈ whole, Holds u a x) ↔ ∃ a ∈ l, Holds u a x
  units : (l.map Prod.snd).sum = (whole.map Prod.snd).sum

namespace Tiles

theorem perm (h : Tiles u whole l) (hp : List.Perm l m) : Tiles u whole m where
  pos a ha := h.pos a (hp.mem_iff.2 ha)
  apart := (hp.pairwise_iff Apart.symm).1 h.apart
  cover x := by simp only [h.cover x, hp.mem_iff]
  units := by rw [← h.units, (hp.map Prod.snd).sum_eq]

/-- two blocks, or one: the same bytes -/
theorem holds_join {x : ℕ} {n k : ℕ} {p : ℕ} :
    Holds u (p, n) x ∨ Holds u (p + u * n, k) x ↔ Holds u (p, n + k) x := by
  simp only [Holds, Nat.mul_add]
  omega

theorem join {p n k : ℕ} (h : Tiles u whole ((p, n) :: (p + u * n, k) :: l)) : Tiles u whole ((p, n + k) :: l) := by
  obtain ⟨hpos, hap, hcov, hunits⟩ := h
  simp only [List.pairwise_cons, List.mem_cons, forall_eq_or_imp] at hpos hap
  obtain ⟨⟨-, h1⟩, h2, hl⟩ := hap
  obtain ⟨hn, -, hpos⟩ := hpos
  refine ⟨?_, List.pairwise_cons.2 ⟨fun b hb => ?_, hl⟩, fun x => ?_, ?_⟩
  · simp only [List.mem_cons, forall_eq_or_imp, Nat.mul_add]
    exact ⟨by omega, hpos⟩
  · have h0 := hpos b hb
    have h1 := h1 b hb
    have h2 := h2 b hb
    simp only [Apart, Nat.mul_add] at h1 h2 ⊢
    omega
  · simp only [hcov x, List.mem_cons, exists_eq_or_imp, ← holds_join, or_assoc]
  · simpa [Nat.add_assoc] using hunits

theorem split {p n k : ℕ} (h : Tiles u whole ((p, n + k) :: l)) (hn : 0 < u * n) (hk : 0 < u * k) :
    Tiles u whole ((p, n) :: (p + u * n, k) :: l) := by
  obtain ⟨hpos, hap, hcov, hunits⟩ := h
  obtain ⟨h1, hl⟩ := List.pairwise_cons.1 hap
  have hsub : ∀ b ∈ l, Apart u (p, n) b ∧ Apart u (p + u * n, k) b := by
    intro b hb
    have := h1 b hb
    simp only [Apart, Nat.mul_add] at this ⊢
    omega
  refine ⟨?_, ?_, fun x => ?_, ?_⟩
  · simp only [List.mem_cons, forall_eq_or_imp]
    exact ⟨hn, hk, fun b hb => hpos b (List.mem_cons_of_mem _ hb)⟩
  · simp only [List.pairwise_cons, List.mem_cons, forall_eq_or_imp]
    exact ⟨⟨.inl le_rfl, fun b hb => (hsub b hb).1⟩, fun b hb => (hsub b hb).2, hl⟩
  · simp only [hcov x, List.mem_cons, exists_eq_or_imp, ← holds_join, or_assoc]
  · simpa [Nat.add_assoc] using hunits

theorem grow (h : Tiles u whole l) (hpos : 0 < u * c.2) (hc : ∀ b ∈ l, Apart u c b) : Tiles u (c :: whole) (c :: l) where
  pos := by
    simp only [List.mem_cons, forall_eq_or_imp]
    exact ⟨hpos, h.pos⟩
  apart := List.pairwise_cons.2 ⟨hc, h.apart⟩
  cover x := by simp only [List.mem_cons, exists_eq_or_imp, h.cover x]
  units := by simp [h.units]

theorem apart_of_ne (h : Tiles u whole l) (ha : a ∈ l) (hb : b ∈ l) (hne : b ≠ a) : Apart u a b :=
  (List.pairwise_cons.1 (h.perm (List.perm_cons_erase ha)).apart).1 b ((List.mem_erase_of_ne hne).2 hb)

/-- a block has no more units than there are -/
theorem le_units (h : Tiles u whole l) (ha : a ∈ l) : a.2 ≤ (whole.map Prod.snd).sum := by
  rw [← h.units]
  exact List.le_sum_of_mem (List.mem_map_of_mem ha)

/-- where a block begins, that belongs to the whole -/
theorem mem_whole (h : Tiles u whole l) (ha : a ∈ l) : ∃ b ∈ whole, Holds u b a.1 :=
  (h.cover a.1).2 ⟨a, ha, le_rfl, Nat.lt_add_of_pos_right (h.pos a ha)⟩

end Tiles

end Tiling

end Xv6
