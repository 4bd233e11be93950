/-
Ring buffers with free-running counters.

A queue of at most cap elements is kept in an array of cap cells between two counters of w bits that only grow and
wrap at 2^w: the element k places from the front sits in cell (r + k) mod cap, where r is the reader's counter. As long
as cap divides 2^w the wrap does not disturb the cells, and full and empty are told apart by comparing the counters.
- `Rep.push`, `Rep.front`, `Rep.pop`: the operations are those of a queue;
- `Rep.last`, `Rep.unpush`: the last element can be taken back;
- `Rep.empty_iff`, `Rep.full_iff`, `Rep.size`: the tests on the counters.
-/
import Mathlib.Tactic

namespace Xv6.Ring

variable {β : Type} {w cap : ℕ} {data : ℕ → β} {r t : BitVec w} {q : List β}

/-- the queue q is stored in data from counter r to counter t -/
structure Rep (cap : ℕ) (data : ℕ → β) (r t : BitVec w) (q : List β) : Prop where
  fits : q.length ≤ cap
  count : t = r + BitVec.ofNat w q.length
  cell : ∀ k b, q[k]? = some b → data ((r.toNat + k) % cap) = b

theorem Rep.new (cap : ℕ) (data : ℕ → β) (r : BitVec w) : Rep cap data r r [] :=
  ⟨Nat.zero_le cap, by simp, fun k b hk => by simp at hk⟩

theorem Rep.empty_iff (h : Rep cap data r t q) (hlt : cap < 2 ^ w) : r = t ↔ q = [] := by
  have hfits := h.fits
  rw [h.count, ← List.length_eq_zero_iff]
  constructor
  · intro heq
    have hzero : BitVec.ofNat w q.length = 0#w := by simpa using heq.symm
    have := congrArg BitVec.toNat hzero
    rwa [BitVec.toNat_ofNat, Nat.mod_eq_of_lt (by omega), BitVec.toNat_zero] at this
  · intro hzero
    simp [hzero]

theorem Rep.full_iff (h : Rep cap data r t q) (hlt : cap < 2 ^ w) : t = r + BitVec.ofNat w cap ↔ q.length = cap := by
  have hfits := h.fits
  rw [h.count]
  constructor
  · intro heq
    have := congrArg BitVec.toNat ((BitVec.add_right_inj r).1 heq)
    rwa [BitVec.toNat_ofNat, BitVec.toNat_ofNat, Nat.mod_eq_of_lt (by omega), Nat.mod_eq_of_lt hlt] at this
  · intro heq
    rw [heq]

theorem Rep.size (h : Rep cap data r t q) (hlt : cap < 2 ^ w) : (t - r).toNat = q.length := by
  have hfits := h.fits
  rw [h.count, BitVec.add_comm, BitVec.add_sub_cancel, BitVec.toNat_ofNat, Nat.mod_eq_of_lt (by omega)]

/-- the cell after the last element -/
theorem Rep.end_cell (h : Rep cap data r t q) (hdvd : cap ∣ 2 ^ w) : t.toNat % cap = (r.toNat + q.length) % cap := by
  rw [h.count, BitVec.toNat_add, BitVec.toNat_ofNat, Nat.add_mod_mod, Nat.mod_mod_of_dvd _ hdvd]

theorem Rep.push (h : Rep cap data r t q) (hdvd : cap ∣ 2 ^ w) (hroom : q.length < cap) (b : β) :
    Rep cap (Function.update data (t.toNat % cap) b) r (t + 1) (q ++ [b]) := by
  refine ⟨?_, ?_, fun k c hk => ?_⟩
  · rw [List.length_append]
    exact hroom
  · rw [List.length_append, List.length_singleton, h.count, BitVec.add_assoc, BitVec.ofNat_add]
    rfl
  · rw [h.end_cell hdvd]
    rcases Nat.lt_trichotomy k q.length with hlt | rfl | hgt
    · -- another cell: both offsets are below cap
      have hne : (r.toNat + k) % cap ≠ (r.toNat + q.length) % cap := fun heq => by
        have := Nat.ModEq.add_left_cancel' r.toNat heq
        rw [Nat.ModEq, Nat.mod_eq_of_lt (by omega), Nat.mod_eq_of_lt hroom] at this
        omega
      rw [Function.update_of_ne hne]
      rw [List.getElem?_append_left hlt] at hk
      exact h.cell k c hk
    · rw [List.getElem?_concat_length] at hk
      rw [Function.update_self]
      exact Option.some.inj hk
    · rw [List.getElem?_eq_none (by rw [List.length_append, List.length_singleton]; omega)] at hk
      cases hk

theorem Rep.front {b : β} (h : Rep cap data r t (b :: q)) : data (r.toNat % cap) = b := h.cell 0 b rfl

theorem Rep.pop {b : β} (h : Rep cap data r t (b :: q)) (hdvd : cap ∣ 2 ^ w) : Rep cap data (r + 1) t q := by
  refine ⟨?_, ?_, fun k c hk => ?_⟩
  · have := h.fits
    rw [List.length_cons] at this
    omega
  · rw [h.count, List.length_cons, BitVec.add_assoc, Nat.add_comm, BitVec.ofNat_add]
    rfl
  · have hnext : ((r + 1).toNat + k) % cap = (r.toNat + (k + 1)) % cap := by
      calc ((r + 1).toNat + k) % cap
          = ((r.toNat + 1) % 2 ^ w + k) % cap := by rw [BitVec.toNat_add, show (1 : BitVec w) = 1#w from rfl,
              BitVec.toNat_ofNat, Nat.add_mod_mod]
        _ = (r.toNat + 1 + k) % cap := by rw [Nat.add_mod, Nat.mod_mod_of_dvd _ hdvd, ← Nat.add_mod]
        _ = (r.toNat + (k + 1)) % cap := by rw [Nat.add_assoc, Nat.add_comm 1 k]
    rw [hnext]
    exact h.cell (k + 1) c hk

theorem Rep.unpush {b : β} (h : Rep cap data r t (q ++ [b])) : Rep cap data r (t - 1) q := by
  have hfits := h.fits
  rw [List.length_append, List.length_singleton] at hfits
  refine ⟨by omega, ?_, fun k c hk => ?_⟩
  · rw [h.count, List.length_append, List.length_singleton, BitVec.ofNat_add, ← BitVec.add_assoc]
    exact BitVec.add_sub_cancel _ _
  · refine h.cell k c ?_
    rw [List.getElem?_append_left (List.getElem?_eq_some_iff.1 hk).1]
    exact hk

theorem Rep.last {b : β} (h : Rep cap data r t (q ++ [b])) (hdvd : cap ∣ 2 ^ w) : data ((t - 1).toNat % cap) = b := by
  rw [h.unpush.end_cell hdvd]
  exact h.cell q.length b List.getElem?_concat_length

end Xv6.Ring
