/-
Locks and program counters.

`Excl f pc l`: the processes whose program counter lies in a locked section, as told by f, are exactly the holder that
the lock l records; so there is at most one of them. The lemmas are the ways one process can move: inside or outside
the section (`keep`), into it (`acquire`), out of it (`release`), or all processes at once without crossing its border
(`map`).
`update_keep`, `some_of_update`, `sum_update`: what stays, what can be new, and a sum over the processes, when one of
them moves.
-/
import Mathlib.Algebra.BigOperators.Group.Finset.Basic

namespace Xv6

open Function

variable {P C : Type} {f : C → Bool} {pc : P → C} {l : Option P}

/-- exactly the holder of l is where f says that the lock is held -/
def Excl (f : C → Bool) (pc : P → C) (l : Option P) : Prop := ∀ p, f (pc p) = true ↔ l = some p

theorem Excl.of_free (h : ∀ p, f (pc p) = false) : Excl f pc none := fun p => by
  rw [h p]
  exact ⟨fun hf => Bool.noConfusion hf, fun he => by cases he⟩

theorem Excl.unique (h : Excl f pc l) {p q : P} (hp : f (pc p) = true) (hq : f (pc q) = true) : p = q :=
  Option.some.inj (((h p).1 hp).symm.trans ((h q).1 hq))

theorem Excl.free (h : Excl f pc none) (p : P) : f (pc p) = false := by
  cases hp : f (pc p)
  · rfl
  · cases (h p).1 hp

theorem Excl.map {pc' : P → C} (h : Excl f pc l) (heq : ∀ p, f (pc' p) = f (pc p)) : Excl f pc' l := fun p => by
  rw [heq]
  exact h p

section

variable [DecidableEq P] {p : P} {x : C}

theorem update_keep {N : Type} (g : C → N) (hx : g x = g (pc p)) (q : P) : g (update pc p x q) = g (pc q) := by
  by_cases hq : q = p
  · rw [hq, update_self, hx]
  · rw [update_of_ne hq]

/-- what x does not show comes from another process -/
theorem some_of_update {N : Type} {g : C → Option N} {q : P} {a : N} (hq : g (update pc p x q) = some a) (hx : g x = none) :
    q ≠ p ∧ g (pc q) = some a := by
  by_cases hqp : q = p
  · rw [hqp, update_self, hx] at hq
    cases hq
  · rw [update_of_ne hqp] at hq
    exact ⟨hqp, hq⟩

theorem Excl.keep (h : Excl f pc l) (hx : f x = f (pc p)) : Excl f (update pc p x) l := h.map (update_keep f hx)

theorem Excl.acquire (h : Excl f pc none) (hx : f x = true) : Excl f (update pc p x) (some p) := fun q => by
  by_cases hq : q = p
  · rw [hq, update_self, hx]
    exact ⟨fun _ => rfl, fun _ => rfl⟩
  · rw [update_of_ne hq, h.free q]
    exact ⟨fun hf => Bool.noConfusion hf, fun he => absurd (Option.some.inj he).symm hq⟩

theorem Excl.release (h : Excl f pc l) (hp : f (pc p) = true) (hx : f x = false) :
    Excl f (update pc p x) none := fun q => by
  refine ⟨fun hq => ?_, fun he => by cases he⟩
  by_cases hqp : q = p
  · rw [hqp, update_self, hx] at hq
    cases hq
  · rw [update_of_ne hqp] at hq
    exact absurd (h.unique hq hp) hqp

theorem sum_update [Fintype P] {N : Type} [AddCommMonoid N] (g : C → N) (pc : P → C) (p : P) (x : C) :
    ∑ q, g (update pc p x q) + g (pc p) = ∑ q, g (pc q) + g x := by
  have h1 := Finset.add_sum_erase Finset.univ (fun q => g (pc q)) (Finset.mem_univ p)
  have h2 := Finset.add_sum_erase Finset.univ (fun q => g (update pc p x q)) (Finset.mem_univ p)
  have h3 : ∑ q ∈ Finset.univ.erase p, g (update pc p x q) = ∑ q ∈ Finset.univ.erase p, g (pc q) :=
    Finset.sum_congr rfl fun q hq => by rw [update_of_ne (Finset.ne_of_mem_erase hq)]
  rw [← h1, ← h2, h3, update_self, add_right_comm, add_right_comm (g (pc p)), add_comm (g x)]

end

end Xv6
