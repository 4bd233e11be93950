/-
`memmove` of the kernel (`string.c`) and of the user library (`ulib.c`).

Both walk two pointers over the bytes, and a call is a sequence of moves of one byte (`Core/Moves`). The kernel's starts
at the upper end when the destination begins inside the source; the user library's always starts at the lower end. The
count is a uint in the kernel and an int in the library.
- `kernel_memmove_moves`: the kernel's moves any two ranges;
- `memmove_moves_iff`: so does the library's exactly when a destination that begins inside the source finds there the
  bytes that it is to hold, and on the counts that both can take exactly then the two leave the same memory.
-/
import Xv6.Core.Bytes
import Xv6.Core.Moves

namespace Xv6.Lib

open Bytes (Byte)

abbrev Addr := BitVec 64

abbrev Mem := Addr → Byte

/-! ## The code -/

/-- while(n-- > 0) *d++ = *s++ -/
def copyUp (mem : Mem) (d s : Addr) : ℕ → Mem
  | 0 => mem
  | n + 1 => copyUp (Function.update mem d (mem s)) (d + 1) (s + 1) n

/-- while(n-- > 0) *--d = *--s -/
def copyDown (mem : Mem) (d s : Addr) : ℕ → Mem
  | 0 => mem
  | n + 1 => copyDown (Function.update mem (d - 1) (mem (s - 1))) (d - 1) (s - 1) n

/-- `memmove` of `string.c`: the memory after it, and its result -/
def Kernel.memmove (mem : Mem) (dst src : Addr) (n : BitVec 32) : Mem × Addr :=
  if src < dst ∧ src + n.setWidth 64 > dst then
    (copyDown mem (dst + n.setWidth 64) (src + n.setWidth 64) n.toNat, dst)
  else
    (copyUp mem dst src n.toNat, dst)

/-- `memmove` of `ulib.c`; n is an int, and the loop does nothing when it is not positive -/
def User.memmove (mem : Mem) (vdst vsrc : Addr) (n : BitVec 32) : Mem × Addr :=
  (copyUp mem vdst vsrc n.toInt.toNat, vdst)

/-! ## What a call is for -/

/-- the n bytes from p on, in order -/
def cells (p : Addr) (i : ℕ) : Addr := p + BitVec.ofNat 64 i

/-- the range [p, p + n) does not wrap around -/
def NoWrap (p : Addr) (n : ℕ) : Prop := p.toNat + n ≤ 2 ^ 64

/-- [dst, dst + n) has the bytes that were at [src, src + n), and every other byte is unchanged -/
def Copied (mem mem' : Mem) (dst src : Addr) (n : ℕ) : Prop := Moved (cells src) (cells dst) mem mem' n

/-- if dst is inside (src, src + n), then what is there up to the end of the source already equals what is to be moved
there -/
def Repeats (mem : Mem) (dst src : Addr) (n : ℕ) : Prop :=
  src < dst → ∀ i, dst.toNat + i < src.toNat + n → mem (cells dst i) = mem (cells src i)

theorem cells_toNat {p : Addr} {n i : ℕ} (h : NoWrap p n) (hi : i < n) : (cells p i).toNat = p.toNat + i := by
  unfold NoWrap at h
  rw [cells, BitVec.toNat_add, BitVec.toNat_ofNat, Nat.add_mod_mod, Nat.mod_eq_of_lt (by omega)]

theorem cells_eq_iff {p q : Addr} {n i j : ℕ} (hp : NoWrap p n) (hq : NoWrap q n) (hi : i < n) (hj : j < n) :
    cells p i = cells q j ↔ p.toNat + i = q.toNat + j := by
  rw [BitVec.toNat_eq, cells_toNat hp hi, cells_toNat hq hj]

theorem cells_injective {p : Addr} {n : ℕ} (hp : NoWrap p n) : ∀ i < n, ∀ j < n, cells p i = cells p j → i = j :=
  fun _ hi _ hj h => Nat.add_left_cancel ((cells_eq_iff hp hp hi hj).1 h)

/-! ## The loops are sequences of moves -/

theorem cells_succ (p : Addr) (i : ℕ) : cells (p + 1) i = cells p (i + 1) := by
  rw [cells, cells, BitVec.add_assoc, Nat.add_comm i 1, BitVec.ofNat_add]
  rfl

theorem copyUp_eq_moves (mem : Mem) (d s : Addr) (n : ℕ) : copyUp mem d s n = moves (cells s) (cells d) mem n := by
  induction n generalizing mem d s with
  | zero => rfl
  | succ n ih =>
    have hzero : ∀ p : Addr, cells p 0 = p := fun p => BitVec.add_zero p
    rw [copyUp, ih, moves_succ, hzero, hzero]
    exact congrArg₂ (fun f g => moves f g _ n) (funext (cells_succ s)) (funext (cells_succ d))

/-- the bytes below p, downwards -/
def below (p : Addr) (i : ℕ) : Addr := p - BitVec.ofNat 64 (i + 1)

theorem below_succ (p : Addr) (i : ℕ) : below (p - 1) i = below p (i + 1) := by
  rw [below, below, Nat.add_comm (i + 1) 1, BitVec.ofNat_add]
  generalize BitVec.ofNat 64 (i + 1) = k
  bv_omega

theorem copyDown_eq_moves (mem : Mem) (d s : Addr) (n : ℕ) :
    copyDown mem d s n = moves (below s) (below d) mem n := by
  induction n generalizing mem d s with
  | zero => rfl
  | succ n ih =>
    rw [copyDown, ih, moves_succ]
    exact congrArg₂ (fun f g => moves f g _ n) (funext (below_succ s)) (funext (below_succ d))

theorem below_end (p : Addr) {n i : ℕ} (hi : i < n) : below (cells p n) i = cells p (n - 1 - i) := by
  have hn : BitVec.ofNat 64 n = BitVec.ofNat 64 (n - 1 - i) + BitVec.ofNat 64 (i + 1) := by
    rw [← BitVec.ofNat_add]
    congr 1
    omega
  rw [below, cells, cells, hn, ← BitVec.add_assoc, BitVec.add_sub_cancel]

/-! ## The two directions -/

section

variable {mem : Mem} {dst src : Addr} {n : ℕ}

/-- upwards, a byte is read after it was written exactly when the destination begins inside the source -/
theorem copied_copyUp_iff (hsrc : NoWrap src n) (hdst : NoWrap dst n) :
    Copied mem (copyUp mem dst src n) dst src n ↔ Repeats mem dst src n := by
  rw [Copied, copyUp_eq_moves, moved_moves_iff (cells_injective hdst)]
  constructor
  · intro h hlt i hi
    -- the byte dst + i is the byte src + k of the source
    have hlt := BitVec.lt_def.1 hlt
    obtain ⟨k, hk⟩ : ∃ k, dst.toNat + i = src.toNat + k := Nat.exists_eq_add_of_le (by omega)
    have hcell : cells src k = cells dst i := (cells_eq_iff hsrc hdst (by omega) (by omega)).2 hk.symm
    rw [← hcell]
    exact h k (by omega) i (by omega) hcell
  · intro h i hi j hj hij
    have hnat := (cells_eq_iff hsrc hdst hi (hj.trans hi)).1 hij
    rw [hij]
    exact h (BitVec.lt_def.2 (by omega)) j (by omega)

/-- downwards, no byte is read after it was written if the destination begins above the source -/
theorem copied_copyDown (hsrc : NoWrap src n) (hdst : NoWrap dst n) (hlt : src < dst) :
    Copied mem (copyDown mem (cells dst n) (cells src n) n) dst src n := by
  have hlt := BitVec.lt_def.1 hlt
  have hmoved : Moved (below (cells src n)) (below (cells dst n)) mem
      (copyDown mem (cells dst n) (cells src n) n) n := by
    rw [copyDown_eq_moves]
    refine moved_moves (fun i hi j hj h => ?_) fun i hi j hj h => ?_
    · rw [below_end dst hi, below_end dst hj] at h
      have hij := cells_injective hdst _ (by omega) _ (by omega) h
      omega
    · rw [below_end src hi, below_end dst (hj.trans hi)] at h
      have hij := (cells_eq_iff hsrc hdst (by omega) (by omega)).1 h
      omega
  refine hmoved.reorder (fun i => n - 1 - i) ?_ ?_ (fun i => below_end src) fun i => below_end dst
  · exact fun i hi => show n - 1 - i < n by omega
  · exact fun i hi => show n - 1 - (n - 1 - i) = i by omega

end

/-- **The kernel moves any two ranges.** -/
theorem kernel_memmove_moves (mem : Mem) (dst src : Addr) (n : BitVec 32) (hsrc : NoWrap src n.toNat)
    (hdst : NoWrap dst n.toNat) : Copied mem (Kernel.memmove mem dst src n).1 dst src n.toNat := by
  have hn : n.setWidth 64 = BitVec.ofNat 64 n.toNat := by
    rw [← BitVec.ofNat_toNat]
  rw [Kernel.memmove]
  split_ifs with hover
  · rw [hn]
    exact copied_copyDown hsrc hdst hover.1
  · refine (copied_copyUp_iff hsrc hdst).2 fun hlt i hi => absurd ⟨hlt, ?_⟩ hover
    -- src + n does not wrap around, being below dst + n
    have hlt := BitVec.lt_def.1 hlt
    unfold NoWrap at hdst
    have hsum : (src + n.setWidth 64).toNat = src.toNat + n.toNat := by
      rw [BitVec.toNat_add, BitVec.toNat_setWidth, Nat.add_mod_mod, Nat.mod_eq_of_lt (by omega)]
    exact BitVec.lt_def.2 (by omega)

/-- **The library moves what does not run into itself.** -/
theorem memmove_moves_iff (mem : Mem) (dst src : Addr) :
    (∀ n : BitVec 32, NoWrap src n.toNat → NoWrap dst n.toNat →
      Copied mem (Kernel.memmove mem dst src n).1 dst src n.toNat) ∧
    (∀ n : BitVec 32, NoWrap src n.toInt.toNat → NoWrap dst n.toInt.toNat →
      (Copied mem (User.memmove mem dst src n).1 dst src n.toInt.toNat ↔ Repeats mem dst src n.toInt.toNat)) ∧
    (∀ n : BitVec 32, 0 ≤ n.toInt → NoWrap src n.toNat → NoWrap dst n.toNat →
      (Kernel.memmove mem dst src n = User.memmove mem dst src n ↔ Repeats mem dst src n.toNat)) := by
  have huser : ∀ n : BitVec 32, NoWrap src n.toInt.toNat → NoWrap dst n.toInt.toNat →
      (Copied mem (User.memmove mem dst src n).1 dst src n.toInt.toNat ↔ Repeats mem dst src n.toInt.toNat) :=
    fun n hsrc hdst => copied_copyUp_iff hsrc hdst
  refine ⟨kernel_memmove_moves mem dst src, huser, fun n hn hsrc hdst => ?_⟩
  have hcount : n.toInt.toNat = n.toNat := by
    rw [BitVec.toInt_eq_toNat_of_lt (BitVec.toInt_pos_iff.1 hn)]
    rfl
  have hkernel := kernel_memmove_moves mem dst src n hsrc hdst
  have huser := huser n (hcount.symm ▸ hsrc) (hcount.symm ▸ hdst)
  rw [hcount] at huser
  rw [← huser]
  constructor
  · exact fun heq => heq ▸ hkernel
  · intro hmoved
    have hresult : (Kernel.memmove mem dst src n).2 = (User.memmove mem dst src n).2 := by
      rw [Kernel.memmove]
      split_ifs <;> rfl
    exact Prod.ext (hkernel.unique hmoved) hresult

/-- three bytes 0, 1, 2 at the addresses 0, 1, 2, moved up by one -/
theorem memmove_moves_iff_up : Copied (fun a => a.setWidth 8) (Kernel.memmove (fun a => a.setWidth 8) 1 0 3).1 1 0 3 ∧
    (Copied (fun a => a.setWidth 8) (User.memmove (fun a => a.setWidth 8) 1 0 3).1 1 0 3 ↔
      Repeats (fun a => a.setWidth 8) 1 0 3) ∧
    (Kernel.memmove (fun a => a.setWidth 8) 1 0 3 = User.memmove (fun a => a.setWidth 8) 1 0 3 ↔
      Repeats (fun a => a.setWidth 8) 1 0 3) := by
  have hsrc : NoWrap 0 3 := by unfold NoWrap; decide
  have hdst : NoWrap 1 3 := by unfold NoWrap; decide
  have h := memmove_moves_iff (fun a => a.setWidth 8) 1 0
  exact ⟨h.1 3 hsrc hdst, h.2.1 3 hsrc hdst, h.2.2 3 (by decide) hsrc hdst⟩

/-- the library has moved the byte at 0 twice, and the kernel has not -/
theorem user_memmove_smears : ¬ Copied (fun a => a.setWidth 8) (User.memmove (fun a => a.setWidth 8) 1 0 2).1 1 0 2 ∧
    Kernel.memmove (fun a => a.setWidth 8) 1 0 2 ≠ User.memmove (fun a => a.setWidth 8) 1 0 2 := by
  have hkernel : (Kernel.memmove (fun a => a.setWidth 8) 1 0 2).1 2 = 1 := by decide
  have huser : (User.memmove (fun a => a.setWidth 8) 1 0 2).1 2 = 0 := by decide
  constructor
  · intro h
    have hmoved : (User.memmove (fun a => a.setWidth 8) 1 0 2).1 2 = 1 := h.moved 1 (by decide)
    exact absurd (huser.symm.trans hmoved) (by decide)
  · intro h
    rw [← h] at huser
    exact absurd (huser.symm.trans hkernel) (by decide)

end Xv6.Lib
