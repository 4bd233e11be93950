/-
Ownership: cells that an allocator has given out, each to one owner.

For any type of owners and of cells. An owner has at most one cell.
- `Owned.mono`, `Owned.trade`: cells may be forgotten, and two owners may exchange theirs;
- `Owned.alloc`, `Owned.release`: a free cell gets one owner, and a cell given back has none.
-/
import Mathlib.Logic.Equiv.Basic

namespace Xv6

variable {ι α : Type}

/-- no cell has two owners, and no owned cell is free -/
structure Owned (own : ι → Option α) (free : α → Bool) : Prop where
  apart : ∀ o o' d, own o = some d → own o' = some d → o = o'
  live : ∀ o d, own o = some d → free d = false

namespace Owned

variable {own own' : ι → Option α} {free : α → Bool}

/-- the owners keep at most what they had -/
theorem mono (h : Owned own free) (hown : ∀ o d, own' o = some d → own o = some d) : Owned own' free where
  apart o o' d ho ho' := h.apart o o' d (hown o d ho) (hown o' d ho')
  live o d ho := h.live o d (hown o d ho)

/-- two owners pass their cells to each other, or forget them -/
theorem trade [DecidableEq ι] (h : Owned own free) {x y : ι} (hx : ∀ d, own' x = some d → own y = some d)
    (hy : ∀ d, own' y = some d → own x = some d) (hown : ∀ o d, o ≠ x → o ≠ y → own' o = some d → own o = some d) :
    Owned own' free := by
  have hswap : ∀ o d, own' o = some d → own (Equiv.swap x y o) = some d := by
    intro o d ho
    by_cases hox : o = x
    · rw [hox, Equiv.swap_apply_left]
      exact hx d (hox ▸ ho)
    · by_cases hoy : o = y
      · rw [hoy, Equiv.swap_apply_right]
        exact hy d (hoy ▸ ho)
      · rw [Equiv.swap_apply_of_ne_of_ne hox hoy]
        exact hown o d hox hoy ho
  constructor
  · intro o o' d ho ho'
    exact (Equiv.swap x y).injective (h.apart _ _ d (hswap o d ho) (hswap o' d ho'))
  · intro o d ho
    exact h.live _ d (hswap o d ho)

variable [DecidableEq α] {d : α}

/-- a free cell is given to o -/
theorem alloc {o : ι} (h : Owned own free) (hfree : free d = true)
    (hown : ∀ o' e, own' o' = some e → o' = o ∧ e = d ∨ own o' = some e) : Owned own' (Function.update free d false) := by
  have hnone : ∀ o', own o' ≠ some d := by
    intro o' ho'
    rw [h.live o' d ho'] at hfree
    exact Bool.noConfusion hfree
  constructor
  · intro o₁ o₂ e h₁ h₂
    rcases hown o₁ e h₁ with ⟨rfl, rfl⟩ | h₁ <;> rcases hown o₂ _ h₂ with ⟨rfl, h₂⟩ | h₂
    · rfl
    · exact absurd h₂ (hnone o₂)
    · exact absurd (h₂ ▸ h₁) (hnone o₁)
    · exact h.apart o₁ o₂ e h₁ h₂
  · intro o' e ho'
    rw [Function.update_apply]
    split_ifs with he
    · rfl
    · rcases hown o' e ho' with ⟨-, hd⟩ | ho'
      · exact absurd hd he
      · exact h.live o' e ho'

/-- the cell of o is given back -/
theorem release {o : ι} (h : Owned own free) (ho : own o = some d) (hown : ∀ o' e, own' o' = some e → o' ≠ o ∧ own o' = some e) :
    Owned own' (Function.update free d true) where
  apart o₁ o₂ e h₁ h₂ := h.apart o₁ o₂ e (hown o₁ e h₁).2 (hown o₂ e h₂).2
  live o' e ho' := by
    obtain ⟨hne, hold⟩ := hown o' e ho'
    have hd : e ≠ d := fun he => hne (h.apart o' o d (he ▸ hold) ho)
    rw [Function.update_of_ne hd]
    exact h.live o' e hold

end Owned

end Xv6
