/-
Singly linked queues, over any type of elements.

The pointers are those of the head, `none`, and of the elements. `Queue next l` says that from the head they lead through
the elements of l in order, none of them twice, and then end.
- `Queue.last`: a loop that looks for the pointer at the end finds it;
- `Queue.push`, `Queue.pop`: the pointer operations append an element and take the first one out.
-/
import Mathlib.Tactic

namespace Xv6.Sll

open Function

variable {α : Type}

/-- from x the pointers lead through the elements of l and end -/
def Path (next : Option α → Option α) : Option α → List α → Prop
  | x, [] => next x = none
  | x, b :: l => next x = some b ∧ Path next (some b) l

structure Queue (next : Option α → Option α) (l : List α) : Prop where
  nodup : l.Nodup
  path : Path next none l

/-- the pointer at the end, from x on, in at most the given number of steps -/
def last (next : Option α → Option α) : ℕ → Option α → Option (Option α)
  | 0, _ => none
  | m + 1, x =>
    match next x with
    | none => some x
    | some b => last next m (some b)

/-- where a path ends -/
def endOf : Option α → List α → Option α
  | x, [] => x
  | _, b :: l => endOf (some b) l

variable {next next' : Option α → Option α} {l : List α} {x : Option α} {b : α} {m : ℕ}

theorem Path.congr (h : Path next x l) (heq : ∀ y, y = x ∨ y ∈ l.map some → next' y = next y) : Path next' x l := by
  induction l generalizing x with
  | nil => exact (heq x (.inl rfl)).trans h
  | cons c l ih =>
    refine ⟨(heq x (.inl rfl)).trans h.1, ih h.2 fun y hy => heq y (.inr ?_)⟩
    rw [List.map_cons, List.mem_cons]
    exact hy

theorem endOf_mem (x : Option α) (l : List α) : endOf x l = x ∨ endOf x l ∈ l.map some := by
  induction l generalizing x with
  | nil => exact .inl rfl
  | cons c l ih =>
    refine .inr ?_
    rw [List.map_cons, List.mem_cons]
    exact ih (some c)

theorem last_path (h : Path next x l) (hm : l.length < m) : last next m x = some (endOf x l) := by
  induction l generalizing x m with
  | nil =>
    cases m with
    | zero => cases hm
    | succ m =>
      have hx : next x = none := h
      simp [last, endOf, hx]
  | cons c l ih =>
    cases m with
    | zero => cases hm
    | succ m =>
      have hx : next x = some c := h.1
      simp only [last, endOf, hx]
      exact ih h.2 (Nat.lt_of_succ_lt_succ hm)

/-- **The loop over the queue.** -/
theorem Queue.last (h : Queue next l) (hm : l.length < m) : last next m none = some (endOf none l) := last_path h.path hm

theorem Queue.empty (h : next none = none) : Queue next [] := ⟨List.nodup_nil, h⟩

/-- the first element is where the head points -/
theorem Queue.head (h : Queue next l) : next none = l.head? := by
  cases l with
  | nil => exact h.path
  | cons b l => exact h.path.1

section

variable [DecidableEq α]

/-- the pointers of an element that is not in the queue do not matter -/
theorem Queue.congr (h : Queue next l) (hb : b ∉ l) (y : Option α) : Queue (update next (some b) y) l := by
  refine ⟨h.nodup, h.path.congr fun z hz => update_of_ne ?_ _ _⟩
  rintro rfl
  obtain hz | hz := hz
  · cases hz
  · obtain ⟨c, hc, hcb⟩ := List.mem_map.1 hz
    exact hb (Option.some.inj hcb ▸ hc)

theorem Path.append (h : Path next x l) (hx : x ∉ l.map some) (hnd : l.Nodup) (hb : b ∉ l) (hxb : x ≠ some b)
    (hend : next (some b) = none) : Path (update next (endOf x l) (some b)) x (l ++ [b]) := by
  induction l generalizing x with
  | nil =>
    refine ⟨update_self _ _ _, ?_⟩
    exact (update_of_ne (fun hc => hxb hc.symm) _ _).trans hend
  | cons c l ih =>
    rw [List.map_cons, List.mem_cons, not_or] at hx
    obtain ⟨hcl, hnd⟩ := List.nodup_cons.1 hnd
    rw [List.mem_cons, not_or] at hb
    have hne : x ≠ endOf (some c) l := by
      rintro rfl
      obtain he | he := endOf_mem (some c) l
      · exact hx.1 he
      · exact hx.2 he
    refine ⟨(update_of_ne hne _ _).trans h.1, ih h.2 ?_ hnd hb.2 ?_⟩
    · intro hc
      obtain ⟨d, hd, hdc⟩ := List.mem_map.1 hc
      exact hcl (Option.some.inj hdc ▸ hd)
    · intro hc
      exact hb.1 (Option.some.inj hc).symm

/-- **Appending** an element: its own pointer is cleared, the last pointer is set to it. -/
theorem Queue.push (h : Queue next l) (hb : b ∉ l) (hend : next (some b) = none) :
    Queue (update next (endOf none l) (some b)) (l ++ [b]) := by
  refine ⟨List.nodup_append.2 ⟨h.nodup, List.nodup_singleton b, ?_⟩, ?_⟩
  · intro c hc d hd hcd
    exact hb (List.mem_singleton.1 hd ▸ hcd ▸ hc)
  · refine h.path.append ?_ h.nodup hb (fun hc => by cases hc) hend
    intro hc
    obtain ⟨d, -, hd⟩ := List.mem_map.1 hc
    cases hd

/-- **Taking out** the first element: the head gets its pointer. -/
theorem Queue.pop (h : Queue next (b :: l)) : Queue (update next none (next (some b))) l := by
  refine ⟨(List.nodup_cons.1 h.nodup).2, ?_⟩
  have hpath := h.path.2
  cases l with
  | nil =>
    refine (update_self _ _ _).trans ?_
    exact hpath
  | cons c l =>
    refine ⟨(update_self _ _ _).trans hpath.1, hpath.2.congr fun y hy => update_of_ne ?_ _ _⟩
    rintro rfl
    obtain hy | hy := hy
    · cases hy
    · obtain ⟨d, -, hd⟩ := List.mem_map.1 hy
      cases hd

end

end Xv6.Sll
