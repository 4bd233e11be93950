/-
Moves done one after the other against moves done at once.

A store holds a value at each place. `moves src dst m n` is the store m after n moves, the i-th from place src i to place
dst i, each reading what the earlier ones have left. `Moved src dst m m' n` says that m' is m after the same moves done at
once, all reading m.
- `moved_moves_iff`: with distinct destinations the two are the same exactly when every place that is read after it was
  written had, before the first move, the value that was moved into it;
- `moved_moves`: no place is read after it was written.
-/
import Mathlib.Tactic

namespace Xv6

variable {α β : Type} [DecidableEq α]

/-- the store after the moves 0, 1, …, n - 1 -/
def moves (src dst : ℕ → α) (m : α → β) : ℕ → α → β
  | 0 => m
  | n + 1 => Function.update (moves src dst m n) (dst n) (moves src dst m n (src n))

/-- the moves i < n done at once on m -/
structure Moved (src dst : ℕ → α) (m m' : α → β) (n : ℕ) : Prop where
  moved : ∀ i < n, m' (dst i) = m (src i)
  frame : ∀ a, (∀ i < n, a ≠ dst i) → m' a = m a

variable {src dst : ℕ → α} {m m' : α → β} {n : ℕ}

omit [DecidableEq α] in
theorem Moved.unique {m'' : α → β} (h' : Moved src dst m m' n) (h'' : Moved src dst m m'' n) : m' = m'' := by
  funext a
  by_cases ha : ∃ i < n, a = dst i
  · obtain ⟨i, hi, rfl⟩ := ha
    exact (h'.moved i hi).trans (h''.moved i hi).symm
  · have hframe : ∀ i < n, a ≠ dst i := fun i hi h => ha ⟨i, hi, h⟩
    exact (h'.frame a hframe).trans (h''.frame a hframe).symm

omit [DecidableEq α] in
/-- the moves in another order, done at once -/
theorem Moved.reorder {src' dst' : ℕ → α} (h : Moved src' dst' m m' n) (f : ℕ → ℕ) (hlt : ∀ i < n, f i < n)
    (hinv : ∀ i < n, f (f i) = i) (hsrc : ∀ i < n, src' i = src (f i)) (hdst : ∀ i < n, dst' i = dst (f i)) :
    Moved src dst m m' n := by
  have hback : ∀ i < n, src' (f i) = src i ∧ dst' (f i) = dst i := fun i hi =>
    ⟨(hsrc _ (hlt i hi)).trans (congrArg src (hinv i hi)), (hdst _ (hlt i hi)).trans (congrArg dst (hinv i hi))⟩
  refine ⟨fun i hi => ?_, fun a ha => h.frame a fun i hi => ?_⟩
  · have hmoved := h.moved (f i) (hlt i hi)
    rwa [(hback i hi).1, (hback i hi).2] at hmoved
  · rw [hdst i hi]
    exact ha (f i) (hlt i hi)

/-- the first move first -/
theorem moves_succ (n : ℕ) : moves src dst m (n + 1) =
    moves (fun i => src (i + 1)) (fun i => dst (i + 1)) (Function.update m (dst 0) (m (src 0))) n := by
  induction n with
  | zero => rfl
  | succ n ih => rw [moves, ih, moves]

theorem moves_frame (a : α) (ha : ∀ i < n, a ≠ dst i) : moves src dst m n a = m a := by
  induction n with
  | zero => rfl
  | succ n ih =>
    calc moves src dst m (n + 1) a
        = moves src dst m n a := Function.update_of_ne (ha n n.lt_succ_self) _ _
      _ = m a := ih fun i hi => ha i (hi.trans n.lt_succ_self)

/-- a place keeps what was moved into it, the value that the source of the move had at that time -/
theorem moves_dst (hinj : ∀ i < n, ∀ j < n, dst i = dst j → i = j) (i : ℕ) (hi : i < n) :
    moves src dst m n (dst i) = moves src dst m i (src i) := by
  induction n with
  | zero => exact absurd hi i.not_lt_zero
  | succ n ih =>
    rcases Nat.lt_succ_iff_lt_or_eq.1 hi with hlt | rfl
    · have hne : dst i ≠ dst n := fun h => hlt.ne (hinj i hi n n.lt_succ_self h)
      rw [moves, Function.update_of_ne hne]
      exact ih (fun i hi j hj => hinj i (hi.trans n.lt_succ_self) j (hj.trans n.lt_succ_self)) hlt
    · exact Function.update_self ..

/-- **One after the other and at once.** -/
theorem moved_moves_iff (hinj : ∀ i < n, ∀ j < n, dst i = dst j → i = j) :
    Moved src dst m (moves src dst m n) n ↔ ∀ i < n, ∀ j < i, src i = dst j → m (src i) = m (src j) := by
  -- a place written by move j and read by move i has at both times what move j has put there
  have hread : ∀ i < n, ∀ j < i, src i = dst j → moves src dst m n (dst i) = moves src dst m n (dst j) := by
    intro i hi j hj h
    have hj' : ∀ k < i, ∀ l < i, dst k = dst l → k = l := fun k hk l hl =>
      hinj k (hk.trans hi) l (hl.trans hi)
    rw [moves_dst hinj i hi, moves_dst hinj j (hj.trans hi), h, moves_dst hj' j hj]
  constructor
  · intro h i hi j hj hij
    calc m (src i) = moves src dst m n (dst i) := (h.moved i hi).symm
      _ = moves src dst m n (dst j) := hread i hi j hj hij
      _ = m (src j) := h.moved j (hj.trans hi)
  · intro h
    refine ⟨fun i => ?_, fun a ha => moves_frame a ha⟩
    induction i using Nat.strong_induction_on with
    | _ i ih =>
      intro hi
      by_cases hw : ∃ j < i, src i = dst j
      · obtain ⟨j, hj, hij⟩ := hw
        rw [hread i hi j hj hij, ih j hj (hj.trans hi), h i hi j hj hij]
      · rw [moves_dst hinj i hi]
        exact moves_frame _ fun j hj hij => hw ⟨j, hj, hij⟩

theorem moved_moves (hinj : ∀ i < n, ∀ j < n, dst i = dst j → i = j) (hno : ∀ i < n, ∀ j < i, src i ≠ dst j) :
    Moved src dst m (moves src dst m n) n :=
  (moved_moves_iff hinj).2 fun i hi j hj h => absurd h (hno i hi j hj)

end Xv6
