/-
Little-endian words in a byte store.

A byte store is a function from byte offsets to bytes: a disk block, a buffer, a header in memory. `getLE` reads a
w-byte unsigned word at an offset, `putLE` writes one. The two facts every on-disk format rests on:
- `getLE_putLE`: a word read back where it was written is the word, modulo 256^w;
- `getLE_putLE_disjoint`: a write elsewhere does not change it.
`putWords` writes an array of w-byte words; `getLE_putWords` reads one of them back. `blit` writes a string of bytes.
-/
import Mathlib.Tactic

namespace Xv6.Bytes

abbrev Byte := BitVec 8

abbrev Store := ℕ → Byte

/-- the w-byte little-endian word at offset `off` -/
def getLE (f : Store) : ℕ → ℕ → ℕ
  | _, 0 => 0
  | off, w + 1 => (f off).toNat + 256 * getLE f (off + 1) w

/-- write `v` as a w-byte little-endian word at offset `off` -/
def putLE (f : Store) : ℕ → ℕ → ℕ → Store
  | _, 0, _ => f
  | off, w + 1, v => putLE (Function.update f off (BitVec.ofNat 8 v)) (off + 1) w (v / 256)

theorem putLE_outside (f : Store) (off w v i : ℕ) (h : i < off ∨ off + w ≤ i) : putLE f off w v i = f i := by
  induction w generalizing f off v with
  | zero => rfl
  | succ w ih =>
    rw [putLE, ih _ _ _ (by omega)]
    exact Function.update_of_ne (by omega) _ _

theorem getLE_congr (f g : Store) (off w : ℕ) (h : ∀ i, off ≤ i → i < off + w → f i = g i) :
    getLE f off w = getLE g off w := by
  induction w generalizing off with
  | zero => rfl
  | succ w ih =>
    rw [getLE, getLE, h off le_rfl (by omega), ih (off + 1) (fun i h1 h2 => h i (by omega) (by omega))]

theorem getLE_zero (off w : ℕ) : getLE (fun _ => 0) off w = 0 := by
  induction w generalizing off with
  | zero => rfl
  | succ w ih => rw [getLE, ih]; rfl

/-- **Read back.** A word is read back where it was written. -/
theorem getLE_putLE (f : Store) (off w v : ℕ) : getLE (putLE f off w v) off w = v % 256 ^ w := by
  induction w generalizing f off v with
  | zero => simp [getLE, Nat.mod_one]
  | succ w ih =>
    have hp : 256 ^ (w + 1) = 256 * 256 ^ w := by rw [pow_succ, mul_comm]
    rw [getLE, putLE, ih, putLE_outside _ _ _ _ _ (Or.inl (by omega)), Function.update_self, BitVec.toNat_ofNat,
      hp, Nat.mod_mul]

/-- **Frame.** A write of a disjoint range does not change a word. -/
theorem getLE_putLE_disjoint (f : Store) (off w off' w' v : ℕ) (h : off + w ≤ off' ∨ off' + w' ≤ off) :
    getLE (putLE f off' w' v) off w = getLE f off w := by
  apply getLE_congr
  intro i h1 h2
  exact putLE_outside _ _ _ _ _ (by omega)

/-- write the words `vs`, w bytes each, from offset `off` on -/
def putWords (w : ℕ) (f : Store) : ℕ → List ℕ → Store
  | _, [] => f
  | off, v :: vs => putWords w (putLE f off w v) (off + w) vs

theorem putWords_outside (w : ℕ) (f : Store) (off : ℕ) (vs : List ℕ) (i : ℕ)
    (h : i < off ∨ off + w * vs.length ≤ i) : putWords w f off vs i = f i := by
  induction vs generalizing f off with
  | nil => rfl
  | cons v vs ih =>
    rw [List.length_cons, Nat.mul_add, Nat.mul_one] at h
    rw [putWords, ih _ _ (by omega), putLE_outside _ _ _ _ _ (by omega)]

theorem getLE_putWords_disjoint (w : ℕ) (f : Store) (off : ℕ) (vs : List ℕ) (off' w' : ℕ)
    (h : off' + w' ≤ off ∨ off + w * vs.length ≤ off') : getLE (putWords w f off vs) off' w' = getLE f off' w' := by
  apply getLE_congr
  intro i h1 h2
  exact putWords_outside _ _ _ _ _ (by omega)

/-- the i-th word of an array is read back from its place -/
theorem getLE_putWords (w : ℕ) (f : Store) (off : ℕ) (vs : List ℕ) (i : ℕ) (hi : i < vs.length) :
    getLE (putWords w f off vs) (off + w * i) w = vs[i] % 256 ^ w := by
  induction vs generalizing f off i with
  | nil => simp at hi
  | cons v vs ih =>
    cases i with
    | zero =>
      rw [Nat.mul_zero, Nat.add_zero, putWords, getLE_putWords_disjoint _ _ _ _ _ _ (Or.inl le_rfl), getLE_putLE]
      rfl
    | succ i =>
      have hi' : i < vs.length := by simpa using hi
      rw [putWords, show off + w * (i + 1) = off + w + w * i by ring, ih _ _ _ hi']
      rfl

/-! ## Strings of bytes -/

/-- write `bytes` from offset `off` on -/
def blit (f : Store) (off : ℕ) (bytes : List Byte) : Store := fun i =>
  if off ≤ i ∧ i < off + bytes.length then bytes.getD (i - off) 0 else f i

theorem blit_outside (f : Store) {off : ℕ} (bytes : List Byte) {i : ℕ} (h : i < off ∨ off + bytes.length ≤ i) :
    blit f off bytes i = f i := if_neg (by omega)

theorem blit_inside (f : Store) (off : ℕ) {bytes : List Byte} {i : ℕ} (h : i < bytes.length) :
    blit f off bytes (off + i) = bytes.getD i 0 := by
  rw [blit, if_pos ⟨Nat.le_add_right _ _, Nat.add_lt_add_left h _⟩, Nat.add_sub_cancel_left]

@[simp] theorem blit_nil (f : Store) (off : ℕ) : blit f off [] = f := by
  funext i
  exact blit_outside f [] (by simp only [List.length_nil]; omega)

/-- two strings one after the other -/
theorem blit_append (f : Store) (off : ℕ) (xs ys : List Byte) :
    blit (blit f off xs) (off + xs.length) ys = blit f off (xs ++ ys) := by
  funext i
  rcases Nat.lt_or_ge i (off + xs.length) with hi | hi
  · rw [blit_outside _ _ (.inl hi)]
    rcases Nat.lt_or_ge i off with hlt | hge
    · rw [blit_outside _ _ (.inl hlt), blit_outside _ _ (.inl hlt)]
    · obtain ⟨k, rfl⟩ := Nat.exists_eq_add_of_le hge
      rw [blit_inside f off (by omega), blit_inside f off (by rw [List.length_append]; omega),
        List.getD_eq_getElem?_getD, List.getD_eq_getElem?_getD, List.getElem?_append_left (by omega)]
  · obtain ⟨k, rfl⟩ := Nat.exists_eq_add_of_le hi
    rcases Nat.lt_or_ge k ys.length with hk | hk
    · rw [blit_inside _ _ hk, Nat.add_assoc, blit_inside f off (by rw [List.length_append]; omega),
        List.getD_eq_getElem?_getD, List.getD_eq_getElem?_getD, List.getElem?_append_right (by omega), Nat.add_sub_cancel_left]
    · rw [blit_outside _ _ (.inr (by omega)), blit_outside _ _ (.inr (by omega)),
        blit_outside _ _ (.inr (by rw [List.length_append]; omega))]

/-- a word of a store is a word of the same store seen from another offset -/
theorem getLE_shift (f : Store) (x off w : ℕ) : getLE f (x + off) w = getLE (fun i => f (x + i)) off w := by
  induction w generalizing off with
  | zero => rfl
  | succ w ih => rw [getLE, getLE, Nat.add_assoc, ih]

end Xv6.Bytes
