/-
Files on a disk: which blocks an inode owns, and the bytes it holds.

A slot is a place that holds a block number: one of the `addrs` of an inode, or a word of its indirect block. `own` is
the block in each slot of an allocated inode. `FreeMap` relates it to the free map: no block is in two slots, a block in
a slot is a data block and marked in use, and, on a tight disk, nothing else is. `byteOf` is byte x of an inode, found
through the slots.

`Vol` is the whole invariant of a disk and of the inode table m that the kernel sees (the cached copies where it has
one): a is what the inodes are to a user of them. Two kinds of disk are treated together. On a tight disk (τ) every
block index below the size is mapped, every block in use has an owner, and cached and stored inodes differ only while an
update is under way (`dirty`). On any other disk reading may allocate a block whose number stays in memory, so stored
inodes may lag behind (`Lag`).

One lemma for each thing that happens to a disk: a block is allocated to a slot (`Vol.alloc_addr`, `Vol.alloc_entry`),
a block is written (`Vol.write`), an inode is stored (`Vol.store`), emptied (`Vol.trunc`), freed (`Vol.dead`) or dropped
from memory (`Vol.evict`).
-/
import Xv6.Core.Own
import Xv6.Fs.Disk

namespace Xv6.Fs

open Xv6.Bytes Function

/-! ## Slots -/

/-- a place for a block number: `addrs[k]` of inode i, or word j of its indirect block -/
inductive Slot where
  | addr (i : ℕ) (k : Fin (NDIRECT + 1))
  | entry (i : ℕ) (j : Fin NINDIRECT)
deriving DecidableEq, Repr

namespace Slot

def inum : Slot → ℕ
  | .addr i _ => i
  | .entry i _ => i

/-- the block number in a slot; 0: none -/
def get (m : ℕ → Dinode) (blk : ℕ → Store) : Slot → ℕ
  | .addr i k => ((m i).addrs k).toNat
  | .entry i j => if (m i).indirect = 0 then 0 else getLE (blk (m i).indirect) (4 * j) 4

theorem get_congr {m m' : ℕ → Dinode} (blk : ℕ → Store) (x : Slot) (h : (m' x.inum).addrs = (m x.inum).addrs) :
    x.get m' blk = x.get m blk := by
  cases x with
  | addr i k => exact congrArg (fun f => (f k).toNat) h
  | entry i j =>
    have hind : (m' i).indirect = (m i).indirect := congrArg (fun f => (f (Fin.last NDIRECT)).toNat) h
    simp only [get, hind]

theorem get_empty {m : ℕ → Dinode} (blk : ℕ → Store) (x : Slot) (h : (m x.inum).addrs = fun _ => 0) :
    x.get m blk = 0 := by
  cases x with
  | addr i k => exact congrArg (fun f => (f k).toNat) h
  | entry i j => exact if_pos (congrArg (fun f => (f (Fin.last NDIRECT)).toNat) h)

end Slot

/-- the slot of the nth block of inode i -/
def slotOf (i bn : ℕ) : Option Slot :=
  if h : bn < NDIRECT then some (.addr i ⟨bn, Nat.lt_succ_of_lt h⟩)
  else if h : bn - NDIRECT < NINDIRECT then some (.entry i ⟨bn - NDIRECT, h⟩)
  else none

/-- the block in a slot of an allocated inode -/
def own (sb : Superblock) (m : ℕ → Dinode) (blk : ℕ → Store) (x : Slot) : Option ℕ :=
  if x.inum < sb.ninodes ∧ (m x.inum).type ≠ 0 ∧ x.get m blk ≠ 0 then some (x.get m blk) else none

/-- byte x of inode i; a block that is not there reads as zeros -/
def byteOf (o : Slot → Option ℕ) (blk : ℕ → Store) (i x : ℕ) : Byte :=
  match (slotOf i (x / BSIZE)).bind o with
  | none => 0
  | some b => blk b (x % BSIZE)

section Own

variable {sb : Superblock} {m m' : ℕ → Dinode} {blk blk' : ℕ → Store} {i b : ℕ}

theorem own_eq_some {x : Slot} :
    own sb m blk x = some b ↔ (x.inum < sb.ninodes ∧ (m x.inum).type ≠ 0) ∧ b ≠ 0 ∧ x.get m blk = b := by
  unfold own
  constructor
  · intro h
    split_ifs at h with hx
    cases h
    exact ⟨⟨hx.1, hx.2.1⟩, hx.2.2, rfl⟩
  · rintro ⟨⟨h1, h2⟩, h3, rfl⟩
    exact if_pos ⟨h1, h2, h3⟩

/-- the slots keep what they hold -/
theorem own_congr (htype : ∀ j, (m' j).type = (m j).type)
    (hget : ∀ x : Slot, x.inum < sb.ninodes → (m x.inum).type ≠ 0 → x.get m' blk' = x.get m blk) :
    own sb m' blk' = own sb m blk := by
  funext x
  unfold own
  rw [htype]
  by_cases hx : x.inum < sb.ninodes ∧ (m x.inum).type ≠ 0
  · rw [hget x hx.1 hx.2]
  · rw [if_neg fun h => hx ⟨h.1, h.2.1⟩, if_neg fun h => hx ⟨h.1, h.2.1⟩]

/-- one slot gets a block, the others keep what they hold -/
theorem own_update {x₀ : Slot} (htype : ∀ j, (m' j).type = (m j).type) (hi : x₀.inum < sb.ninodes)
    (ht : (m x₀.inum).type ≠ 0) (hb : b ≠ 0) (h₀ : x₀.get m' blk' = b)
    (hget : ∀ x : Slot, x ≠ x₀ → x.inum < sb.ninodes → (m x.inum).type ≠ 0 → x.get m' blk' = x.get m blk) :
    own sb m' blk' = update (own sb m blk) x₀ (some b) := by
  funext x
  by_cases hx : x = x₀
  · subst hx
    rw [update_self, own_eq_some, htype]
    exact ⟨⟨hi, ht⟩, hb, h₀⟩
  · rw [update_of_ne hx]
    unfold own
    rw [htype]
    by_cases hl : x.inum < sb.ninodes ∧ (m x.inum).type ≠ 0
    · rw [hget x hx hl.1 hl.2]
    · rw [if_neg fun h => hl ⟨h.1, h.2.1⟩, if_neg fun h => hl ⟨h.1, h.2.1⟩]

theorem own_of_ne {y : Slot} (x : Dinode) (hy : y.inum ≠ i) :
    own sb (update m i x) blk y = own sb m blk y := by
  have hget : y.get (update m i x) blk = y.get m blk :=
    y.get_congr blk (by rw [update_of_ne hy])
  simp only [own, hget, update_of_ne hy]

/-- an inode changes in other things than its block numbers -/
theorem own_attrs {x : Dinode} (haddrs : x.addrs = (m i).addrs) (htype : x.type = (m i).type) :
    own sb (update m i x) blk = own sb m blk := by
  apply own_congr
  · intro j
    by_cases hj : j = i
    · subst hj
      rw [update_self, htype]
    · rw [update_of_ne hj]
  · intro y _ _
    apply y.get_congr
    by_cases hj : y.inum = i
    · rw [hj, update_self, haddrs]
    · rw [update_of_ne hj]

theorem own_empty {y : Slot} (h : (m y.inum).addrs = fun _ => 0) : own sb m blk y = none := by
  rw [own, if_neg]
  rintro ⟨-, -, h0⟩
  exact h0 (y.get_empty blk h)

theorem own_indirect (hi : i < sb.ninodes) (ht : (m i).type ≠ 0) (hp : (m i).indirect ≠ 0) :
    own sb m blk (.addr i (Fin.last NDIRECT)) = some (m i).indirect :=
  own_eq_some.2 ⟨⟨hi, ht⟩, hp, rfl⟩

/-- writing a block that is nobody's indirect block -/
theorem own_block (f : Store)
    (hb : ∀ i, own sb m blk (.addr i (Fin.last NDIRECT)) ≠ some b) :
    own sb m (update blk b f) = own sb m blk := by
  refine own_congr (fun _ => rfl) fun x hi ht => ?_
  cases x with
  | addr i k => rfl
  | entry i j =>
    simp only [Slot.get]
    by_cases hp : (m i).indirect = 0
    · rw [if_pos hp, if_pos hp]
    · have hne : (m i).indirect ≠ b := by
        intro h
        exact hb i (h ▸ own_indirect hi ht hp)
      rw [if_neg hp, if_neg hp, update_of_ne hne]

/-- a block number is stored in `addrs`; a new indirect block is empty -/
theorem own_setAddr {k : Fin (NDIRECT + 1)} (hi : i < sb.ninodes) (ht : (m i).type ≠ 0) (hz : (m i).addrs k = 0)
    (hb : b ≠ 0) (hlt : b < 2 ^ 32) (hblk : blk b = fun _ => 0) :
    own sb (update m i ((m i).setAddr k b)) blk = update (own sb m blk) (.addr i k) (some b) := by
  have htoNat : (BitVec.ofNat 32 b).toNat = b := by rw [BitVec.toNat_ofNat, Nat.mod_eq_of_lt hlt]
  refine own_update (fun j => ?_) hi ht hb ?_ fun x hx _ _ => ?_
  · by_cases hj : j = i
    · subst hj
      rw [update_self]
      rfl
    · rw [update_of_ne hj]
  · simp [Slot.get, Dinode.setAddr, htoNat]
  · cases x with
    | addr j l =>
      simp only [Slot.get]
      by_cases hj : j = i
      · subst hj
        have hl : l ≠ k := fun h => hx (h ▸ rfl)
        simp [Dinode.setAddr, update_of_ne hl]
      · rw [update_of_ne hj]
    | entry j l =>
      simp only [Slot.get]
      by_cases hj : j = i
      · subst hj
        rw [update_self]
        by_cases hk : k = Fin.last NDIRECT
        · have hold : (m j).indirect = 0 := by rw [Dinode.indirect, ← hk, hz]; rfl
          have hnew : ((m j).setAddr k b).indirect = b := by simp [Dinode.indirect, Dinode.setAddr, hk, htoNat]
          rw [hold, hnew, if_neg hb, if_pos rfl, hblk, getLE_zero]
        · have hsame : ((m j).setAddr k b).indirect = (m j).indirect := by
            simp [Dinode.indirect, Dinode.setAddr, update_of_ne (Ne.symm hk)]
          rw [hsame]
      · rw [update_of_ne hj]

/-- a block number is stored in an indirect block -/
theorem own_setWord {j : Fin NINDIRECT} (hi : i < sb.ninodes) (ht : (m i).type ≠ 0) (hp : (m i).indirect ≠ 0)
    (hb : b ≠ 0) (hlt : b < 2 ^ 32)
    (hapart : ∀ i', own sb m blk (.addr i' (Fin.last NDIRECT)) = some (m i).indirect → i' = i) :
    own sb m (update blk (m i).indirect (putLE (blk (m i).indirect) (4 * j) 4 b)) =
      update (own sb m blk) (.entry i j) (some b) := by
  refine own_update (fun _ => rfl) hi ht hb ?_ fun x hx hi' ht' => ?_
  · rw [Slot.get, if_neg hp, update_self, getLE_putLE, Nat.mod_eq_of_lt (by norm_num; omega)]
  · cases x with
    | addr i' k => rfl
    | entry i' l =>
      simp only [Slot.get]
      by_cases hp' : (m i').indirect = 0
      · rw [if_pos hp', if_pos hp']
      · rw [if_neg hp', if_neg hp']
        by_cases hsame : (m i').indirect = (m i).indirect
        · -- two inodes do not share an indirect block, so it is another word of this one
          obtain rfl := hapart i' (hsame ▸ own_indirect hi' ht' hp')
          have hl : (l : ℕ) ≠ j := fun h => hx (Fin.ext h ▸ rfl)
          rw [update_self, getLE_putLE_disjoint _ _ _ _ _ _ (by omega)]
        · rw [update_of_ne hsame]

/-- a slot of a file's contents is not that of the indirect block -/
theorem slotOf_ne_indirect {bn : ℕ} {x : Slot} (h : slotOf i bn = some x) (j : ℕ) : x ≠ .addr j (Fin.last NDIRECT) := by
  unfold slotOf at h
  split_ifs at h with h1 h2
  · cases h
    intro he
    have := congrArg Fin.val (Slot.addr.inj he).2
    simp at this
    omega
  · cases h
    exact Slot.noConfusion

theorem slotOf_inum {bn : ℕ} {x : Slot} (h : slotOf i bn = some x) : x.inum = i := by
  unfold slotOf at h
  split_ifs at h <;> obtain rfl := Option.some.inj h <;> rfl

theorem slotOf_inj {j bn bn' : ℕ} {x : Slot} (h : slotOf i bn = some x) (h' : slotOf j bn' = some x) :
    i = j ∧ bn = bn' := by
  refine ⟨(slotOf_inum h).symm.trans (slotOf_inum h'), ?_⟩
  unfold slotOf at h h'
  split_ifs at h h' with h1 h2 h3 h4 h5 <;> cases h
  all_goals simp only [Option.some.injEq, Slot.addr.injEq, Slot.entry.injEq, Fin.mk.injEq, reduceCtorEq] at h'
  all_goals omega

end Own

/-! ## The bytes of an inode -/

section Bytes

variable {o : Slot → Option ℕ} {blk blk' : ℕ → Store} {i b : ℕ}

theorem byteOf_some {x : ℕ} {y : Slot} (hs : slotOf i (x / BSIZE) = some y) (ho : o y = some b) :
    byteOf o blk i x = blk b (x % BSIZE) := by
  simp [byteOf, hs, ho]

/-- the bytes of an inode are those of the blocks in its slots -/
theorem byteOf_congr (h : ∀ bn y b, slotOf i bn = some y → o y = some b → blk' b = blk b) (x : ℕ) :
    byteOf o blk' i x = byteOf o blk i x := by
  unfold byteOf
  cases hs : slotOf i (x / BSIZE) with
  | none => rfl
  | some y =>
    cases ho : o y with
    | none => simp [ho]
    | some b => simp [ho, h _ y b hs ho]

/-- an empty block in a slot that had none reads as before -/
theorem byteOf_update {y : Slot} (hy : o y = none) (hb : blk b = fun _ => 0) (x : ℕ) :
    byteOf (update o y (some b)) blk i x = byteOf o blk i x := by
  unfold byteOf
  cases hs : slotOf i (x / BSIZE) with
  | none => rfl
  | some z =>
    by_cases hz : z = y
    · subst hz
      simp [hy, hb]
    · simp [update_of_ne hz]

/-- a block in a slot is replaced, and no other slot has it -/
theorem byteOf_write {bn : ℕ} {y : Slot} (f : Store) (hs : slotOf i bn = some y) (ho : o y = some b)
    (hapart : ∀ z, o z = some b → z = y) (j x : ℕ) :
    byteOf o (update blk b f) j x = if j = i ∧ x / BSIZE = bn then f (x % BSIZE) else byteOf o blk j x := by
  by_cases hx : j = i ∧ x / BSIZE = bn
  · obtain ⟨rfl, rfl⟩ := hx
    rw [if_pos ⟨rfl, rfl⟩, byteOf_some hs ho, update_self]
  · rw [if_neg hx]
    unfold byteOf
    cases hz : slotOf j (x / BSIZE) with
    | none => rfl
    | some z =>
      cases hc : o z with
      | none => simp [hc]
      | some c =>
        have hcb : c ≠ b := by
          rintro rfl
          obtain rfl := hapart z hc
          exact hx (slotOf_inj hz hs)
        simp [hc, update_of_ne hcb]

/-- a block in no slot is written -/
theorem byteOf_unowned {sb : Superblock} {m : ℕ → Dinode} {f : Store} (hb : ∀ y, own sb m blk y ≠ some b) (j x : ℕ) :
    byteOf (own sb m (update blk b f)) (update blk b f) j x = byteOf (own sb m blk) blk j x := by
  rw [own_block f fun j => hb _]
  apply byteOf_congr
  intro bn y c _ ho
  apply update_of_ne
  rintro rfl
  exact hb y ho

/-- the two bytes of an entry's inode number are in one block -/
theorem getLE_byteOf {f : Store} {g : ℕ → Byte} {p : ℕ} (hp : 16 ∣ p)
    (h : ∀ x, x / BSIZE = p / BSIZE → g x = f (x % BSIZE)) : getLE g p 2 = getLE f (p % BSIZE) 2 := by
  obtain ⟨q, rfl⟩ := hp
  have h1 : (16 * q + 1) / BSIZE = 16 * q / BSIZE := by simp only [BSIZE]; omega
  have h2 : (16 * q + 1) % BSIZE = 16 * q % BSIZE + 1 := by simp only [BSIZE]; omega
  simp only [getLE]
  rw [h _ rfl, h _ h1, h2]

end Bytes

section

variable {sb : Superblock} {m m' : ℕ → Dinode} {blk blk' : ℕ → Store} {x : Slot} {b : ℕ}

/-- the slot x had no block, and now has the block b, which is empty; nothing else changes for the users of inodes -/
structure Allocated (sb : Superblock) (m : ℕ → Dinode) (blk : ℕ → Store) (x : Slot) (b : ℕ) (m' : ℕ → Dinode)
    (blk' : ℕ → Store) : Prop where
  was : own sb m blk x = none
  own : own sb m' blk' = Function.update (own sb m blk) x (some b)
  zero : blk' b = fun _ => 0
  blocks : ∀ j bn y c, slotOf j bn = some y → Fs.own sb m blk y = some c → blk' c = blk c
  attrs : ∀ j, m' j = { m j with addrs := (m' j).addrs }

/-- slots keep their blocks and inodes their bytes -/
structure Grown (sb : Superblock) (m : ℕ → Dinode) (blk : ℕ → Store) (m' : ℕ → Dinode) (blk' : ℕ → Store) : Prop where
  mono : ∀ y c, own sb m blk y = some c → own sb m' blk' y = some c
  bytes : ∀ j p, byteOf (own sb m' blk') blk' j p = byteOf (own sb m blk) blk j p

theorem Grown.trans {m'' : ℕ → Dinode} {blk'' : ℕ → Store} (h : Grown sb m blk m' blk')
    (h' : Grown sb m' blk' m'' blk'') : Grown sb m blk m'' blk'' where
  mono y c hy := h'.mono y c (h.mono y c hy)
  bytes j p := (h'.bytes j p).trans (h.bytes j p)

theorem Allocated.grown (h : Allocated sb m blk x b m' blk') : Grown sb m blk m' blk' where
  mono y c hy := by
    rw [h.own, update_of_ne]
    · exact hy
    · rintro rfl
      rw [h.was] at hy
      cases hy
  bytes j p := by
    rw [h.own, byteOf_update h.was h.zero, byteOf_congr fun bn y c => h.blocks j bn y c]

end

/-! ## The free map -/

/-- the free map against the blocks in the slots -/
structure FreeMap (sb : Superblock) (τ : Prop) (o : Slot → Option ℕ) (used : ℕ → Bool) : Prop where
  owned : Owned o fun b => !used b
  range : ∀ x b, o x = some b → sb.nmeta ≤ b ∧ b < sb.size
  system : ∀ b < sb.nmeta, used b = true
  exact : τ → ∀ b, used b = true → b < sb.nmeta ∨ ∃ x, o x = some b

namespace FreeMap

variable {sb : Superblock} {τ : Prop} {o : Slot → Option ℕ} {used : ℕ → Bool} {x : Slot} {b : ℕ}

theorem marked (h : FreeMap sb τ o used) (hx : o x = some b) : used b = true := by
  simpa using h.owned.live x b hx

theorem fresh (h : FreeMap sb τ o used) (hf : used b = false) (x : Slot) : o x ≠ some b := by
  intro hx
  rw [h.marked hx] at hf
  exact Bool.noConfusion hf

theorem nmeta_le (h : FreeMap sb τ o used) (hf : used b = false) : sb.nmeta ≤ b := by
  by_contra hlt
  rw [h.system b (by omega)] at hf
  exact Bool.noConfusion hf

theorem alloc (h : FreeMap sb τ o used) (hb : b < sb.size) (hf : used b = false) (hx : o x = none) :
    FreeMap sb τ (update o x (some b)) (update used b true) where
  owned := by
    have hfree : (fun c => !update used b true c) = update (fun c => !used c) b false := by
      funext c
      by_cases hc : c = b <;> simp [hc]
    rw [hfree]
    refine Owned.alloc (o := x) h.owned (by simpa using hf) fun y e he => ?_
    by_cases hy : y = x
    · subst hy
      rw [update_self] at he
      exact Or.inl ⟨rfl, (Option.some.inj he).symm⟩
    · rw [update_of_ne hy] at he
      exact Or.inr he
  range := by
    intro y c hc
    by_cases hy : y = x
    · subst hy
      rw [update_self] at hc
      cases hc
      exact ⟨h.nmeta_le hf, hb⟩
    · rw [update_of_ne hy] at hc
      exact h.range y c hc
  system := by
    intro c hc
    by_cases hcb : c = b
    · rw [hcb, update_self]
    · rw [update_of_ne hcb]
      exact h.system c hc
  exact := by
    intro ht c hc
    by_cases hcb : c = b
    · exact Or.inr ⟨x, by rw [update_self, hcb]⟩
    · rw [update_of_ne hcb] at hc
      apply (h.exact ht c hc).imp_right
      rintro ⟨y, hy⟩
      refine ⟨y, ?_⟩
      rw [update_of_ne fun he => ?_]
      · exact hy
      · rw [he, hx] at hy
        cases hy

theorem release (h : FreeMap sb τ o used) (hx : o x = some b) :
    FreeMap sb τ (update o x none) (update used b false) where
  owned := by
    have hfree : (fun c => !update used b false c) = update (fun c => !used c) b true := by
      funext c
      by_cases hc : c = b <;> simp [hc]
    rw [hfree]
    refine Owned.release h.owned hx fun y e he => ?_
    by_cases hy : y = x
    · subst hy
      rw [update_self] at he
      cases he
    · rw [update_of_ne hy] at he
      exact ⟨hy, he⟩
  range := by
    intro y c hc
    by_cases hy : y = x
    · subst hy
      rw [update_self] at hc
      cases hc
    · rw [update_of_ne hy] at hc
      exact h.range y c hc
  system := by
    intro c hc
    have := h.range x b hx
    rw [update_of_ne (by omega)]
    exact h.system c hc
  exact := by
    intro ht c hc
    by_cases hcb : c = b
    · rw [hcb, update_self] at hc
      exact Bool.noConfusion hc
    · rw [update_of_ne hcb] at hc
      apply (h.exact ht c hc).imp_right
      rintro ⟨y, hy⟩
      refine ⟨y, ?_⟩
      rw [update_of_ne fun he => hcb ?_]
      · exact hy
      · rw [he, hx] at hy
        exact (Option.some.inj hy).symm

/-- on a disk that is not tight, blocks may lose their owner -/
theorem mono {o' : Slot → Option ℕ} (h : FreeMap sb τ o used) (ht : ¬τ) (ho : ∀ y c, o' y = some c → o y = some c) :
    FreeMap sb τ o' used where
  owned := h.owned.mono ho
  range y c hc := h.range y c (ho y c hc)
  system := h.system
  exact ht' := absurd ht' ht

end FreeMap

/-! ## Inodes -/

/-- an inode as its users know it -/
structure Node where
  type : BitVec 16
  major : BitVec 16
  minor : BitVec 16
  nlink : BitVec 16
  size : ℕ
  data : Store

/-- what an inode with the bytes f is to its users -/
def nodeOf (x : Dinode) (f : Store) : Node := ⟨x.type, x.major, x.minor, x.nlink, x.size.toNat, f⟩

/-- x is a stored copy of y that may miss blocks allocated since -/
structure Lag (x y : Dinode) : Prop where
  same : x = { y with addrs := x.addrs }
  addrs : ∀ k, x.addrs k = 0 ∨ x.addrs k = y.addrs k

theorem Lag.refl (x : Dinode) : Lag x x := ⟨rfl, fun _ => Or.inr rfl⟩

/-- what is known of a disk: whether it is tight, and whether the entries of its directories name inodes of the disk -/
structure Mode where
  tight : Prop
  dirs : Prop

instance : CoeSort Mode Prop := ⟨Mode.tight⟩

instance : Coe Mode Prop := ⟨Mode.tight⟩

/-- a disk with the inode table m stands for the inodes a; τ: the disk is tight; dirty: the inode that is not stored
yet as m has it -/
structure Vol (sb : Superblock) (τ : Mode) (dirty : Option ℕ) (m : ℕ → Dinode) (V : View) (a : ℕ → Node) : Prop where
  super : V.super = sb
  node : ∀ i < sb.ninodes, a i = nodeOf (m i) (a i).data
  map : FreeMap sb τ (own sb m V.block) V.used
  lag : ∀ i < sb.ninodes, Lag (V.inode i) (m i)
  synced : τ → ∀ i < sb.ninodes, dirty ≠ some i → V.inode i = m i
  full : τ → ∀ i < sb.ninodes, (m i).type ≠ 0 → ∀ bn, bn * BSIZE < (m i).size.toNat →
    ∃ x b, slotOf i bn = some x ∧ own sb m V.block x = some b
  data : τ → ∀ i < sb.ninodes, (m i).type ≠ 0 → ∀ x < MAXFILE * BSIZE,
    byteOf (own sb m V.block) V.block i x = (a i).data x
  /-- the entries of directories name inodes of the disk -/
  ents : τ.dirs → ∀ i < sb.ninodes, (m i).type = Dinode.T_DIR → ∀ p, 16 ∣ p → p + 16 ≤ (m i).size.toNat →
    getLE (byteOf (own sb m V.block) V.block i) p 2 < sb.ninodes

namespace Vol

variable {sb : Superblock} {τ : Mode} {dirty : Option ℕ} {m m' : ℕ → Dinode} {V : View} {a : ℕ → Node} {i b : ℕ}

/-- the inode table and the disk differ from those before only in what the users of the inodes do not see -/
theorem of_bytes {used : ℕ → Bool} {blk : ℕ → Store} {dirty' : Option ℕ} (h : Vol sb τ dirty m V a)
    (hm : ∀ j, m' j = { m j with addrs := (m' j).addrs }) (hmap : FreeMap sb τ (own sb m' blk) used)
    (hlag : ∀ j < sb.ninodes, Lag (V.inode j) (m' j))
    (hsynced : τ → ∀ j < sb.ninodes, dirty' ≠ some j → V.inode j = m' j)
    (hfull : τ → ∀ x b, own sb m V.block x = some b → ∃ c, own sb m' blk x = some c)
    (hbytes : ∀ j x, byteOf (own sb m' blk) blk j x = byteOf (own sb m V.block) V.block j x) :
    Vol sb τ dirty' m' { V with used := used, block := blk } a where
  super := h.super
  node j hj := by
    rw [hm j]
    exact h.node j hj
  map := hmap
  lag := hlag
  synced := hsynced
  full ht j hj htype bn hbn := by
    rw [hm j] at htype hbn
    obtain ⟨x, b, hs, hb⟩ := h.full ht j hj htype bn hbn
    obtain ⟨c, hc⟩ := hfull ht x b hb
    exact ⟨x, c, hs, hc⟩
  data ht j hj htype x hx := by
    rw [hm j] at htype
    exact (hbytes j x).trans (h.data ht j hj htype x hx)
  ents hdirs j hj htype p hp hsize := by
    rw [hm j] at htype hsize
    rw [funext (hbytes j)]
    exact h.ents hdirs j hj htype p hp hsize

/-- what an allocated block can be -/
theorem fresh_block (wf : sb.WF) (h : Vol sb τ dirty m V a) (hb : b < sb.size) (hf : V.used b = false) :
    b ≠ 0 ∧ b < 2 ^ 32 ∧ sb.nmeta ≤ b := by
  have h1 := h.map.nmeta_le hf
  have h2 := wf.one_lt_nmeta
  have h3 := wf.size.2
  exact ⟨by omega, by omega, h1⟩

/-- an empty block has been put into a slot of inode i -/
theorem alloc {x : Slot} {blk : ℕ → Store} (h : Vol sb τ dirty m V a) (hd : ∀ j, dirty = some j → j = i)
    (hb : b < sb.size) (hf : V.used b = false) (hx : Allocated sb m V.block x b m' blk)
    (hne : ∀ j, j ≠ i → m' j = m j) (hlag : ∀ j < sb.ninodes, Lag (V.inode j) (m' j)) :
    Vol sb τ (some i) m' { V with used := update V.used b true, block := blk } a := by
  apply h.of_bytes hx.attrs
  · rw [hx.own]
    exact h.map.alloc hb hf hx.was
  · exact hlag
  · intro ht j hj hji
    have hij : j ≠ i := fun he => hji (congrArg some he.symm)
    rw [hne j hij]
    exact h.synced ht j hj fun he => hij (hd j he)
  · intro _ y c hy
    exact ⟨c, hx.grown.mono y c hy⟩
  · exact hx.grown.bytes

/-- slot `addrs[k]` had no block and gets an empty one -/
theorem allocated_addr (wf : sb.WF) {k : Fin (NDIRECT + 1)} (h : Vol sb τ dirty m V a) (hi : i < sb.ninodes)
    (ht : (m i).type ≠ 0) (hz : (m i).addrs k = 0) (hb : b < sb.size) (hf : V.used b = false) :
    Allocated sb m V.block (.addr i k) b (update m i ((m i).setAddr k b))
      (update V.block b fun _ => 0) := by
  obtain ⟨hb0, hb32, -⟩ := h.fresh_block wf hb hf
  have hfresh := h.map.fresh hf
  have hblock := own_block (fun _ => 0) fun j => hfresh (.addr j (Fin.last NDIRECT))
  refine ⟨?_, ?_, update_self _ _ _, ?_, ?_⟩
  · rw [own, if_neg]
    rintro ⟨-, -, h0⟩
    exact h0 (by rw [Slot.get, hz]; rfl)
  · rw [own_setAddr hi ht hz hb0 hb32 (update_self _ _ _), hblock]
  · intro j bn y c _ hc
    have hcb : c ≠ b := fun he => hfresh y (he ▸ hc)
    exact update_of_ne hcb _ _
  · intro j
    by_cases hj : j = i
    · subst hj
      rw [update_self]
      rfl
    · rw [update_of_ne hj]

/-- **Allocation to an inode.** -/
theorem alloc_addr (wf : sb.WF) {k : Fin (NDIRECT + 1)} (h : Vol sb τ dirty m V a) (hd : ∀ j, dirty = some j → j = i)
    (hi : i < sb.ninodes) (ht : (m i).type ≠ 0) (hz : (m i).addrs k = 0) (hb : b < sb.size) (hf : V.used b = false) :
    Vol sb τ (some i) (update m i ((m i).setAddr k b))
      { V with used := update V.used b true, block := update V.block b fun _ => 0 } a := by
  refine h.alloc hd hb hf (h.allocated_addr wf hi ht hz hb hf) (fun j hj => update_of_ne hj _ _) ?_
  intro j hj
  have hold := h.lag j hj
  by_cases hji : j = i
  · subst hji
    rw [update_self]
    refine ⟨hold.same, fun l => ?_⟩
    by_cases hl : l = k
    · subst hl
      left
      rcases hold.addrs l with h0 | h0
      · exact h0
      · rw [h0, hz]
    · simpa [Dinode.setAddr, update_of_ne hl] using hold.addrs l
  · rw [update_of_ne hji]
    exact hold

/-- word j of an indirect block had no block and gets an empty one -/
theorem allocated_entry (wf : sb.WF) {j : Fin NINDIRECT} (h : Vol sb τ dirty m V a) (hi : i < sb.ninodes)
    (ht : (m i).type ≠ 0) (hp : (m i).indirect ≠ 0) (hz : getLE (V.block (m i).indirect) (4 * j) 4 = 0)
    (hb : b < sb.size) (hf : V.used b = false) :
    let blk := update V.block b fun _ => 0
    Allocated sb m V.block (.entry i j) b m
      (update blk (m i).indirect (putLE (blk (m i).indirect) (4 * j) 4 b)) := by
  intro blk
  obtain ⟨hb0, hb32, -⟩ := h.fresh_block wf hb hf
  have hfresh := h.map.fresh hf
  have hblock : own sb m blk = own sb m V.block := own_block _ fun j => hfresh (.addr j (Fin.last NDIRECT))
  have hind : own sb m V.block _ = _ := own_indirect hi ht hp
  have hne : (m i).indirect ≠ b := fun he => hfresh _ (he ▸ hind)
  refine ⟨?_, ?_, ?_, ?_, fun _ => rfl⟩
  · rw [own, if_neg]
    rintro ⟨-, -, h0⟩
    exact h0 (by rw [Slot.get, if_neg hp, hz])
  · rw [own_setWord hi ht hp hb0 hb32, hblock]
    intro i' hi'
    rw [hblock] at hi'
    exact (Slot.addr.inj (h.map.owned.apart _ _ _ hi' hind)).1
  · rw [update_of_ne hne.symm]
    exact update_self _ _ _
  · intro l bn y c hs hc
    have hcp : c ≠ (m i).indirect := by
      rintro rfl
      exact slotOf_ne_indirect hs i (h.map.owned.apart _ _ _ hc hind)
    have hcb : c ≠ b := fun he => hfresh y (he ▸ hc)
    rw [update_of_ne hcp]
    exact update_of_ne hcb _ _

/-- **Allocation to an indirect block.** -/
theorem alloc_entry (wf : sb.WF) {j : Fin NINDIRECT} (h : Vol sb τ dirty m V a) (hd : ∀ j, dirty = some j → j = i)
    (hi : i < sb.ninodes) (ht : (m i).type ≠ 0) (hp : (m i).indirect ≠ 0)
    (hz : getLE (V.block (m i).indirect) (4 * j) 4 = 0) (hb : b < sb.size) (hf : V.used b = false) :
    let blk := update V.block b fun _ => 0
    Vol sb τ (some i) m
      { V with used := update V.used b true
               block := update blk (m i).indirect (putLE (blk (m i).indirect) (4 * j) 4 b) } a :=
  h.alloc hd hb hf (h.allocated_entry wf hi ht hp hz hb hf) (fun _ _ => rfl) h.lag

/-- **Writing.** The nth block of inode i becomes f. -/
theorem write {bn : ℕ} {y : Slot} {f : Store} (h : Vol sb τ dirty m V a) (hs : slotOf i bn = some y)
    (ho : own sb m V.block y = some b)
    (hents : τ.dirs → (m i).type = Dinode.T_DIR → ∀ p, 16 ∣ p → p + 16 ≤ (m i).size.toNat → p / BSIZE = bn →
      getLE f (p % BSIZE) 2 < sb.ninodes) :
    Vol sb τ dirty m { V with block := update V.block b f }
      (update a i { a i with data := fun x => if x / BSIZE = bn then f (x % BSIZE) else (a i).data x }) := by
  have hapart : ∀ z, own sb m V.block z = some b → z = y := fun z hz => h.map.owned.apart _ _ _ hz ho
  have hown : own sb m (update V.block b f) = own sb m V.block :=
    own_block f fun j hj => slotOf_ne_indirect hs j (hapart _ hj).symm
  have hbytes : ∀ j x, byteOf _ (update V.block b f) j x = _ := byteOf_write f hs ho hapart
  constructor
  · exact h.super
  · intro j hj
    by_cases hji : j = i
    · subst hji
      rw [update_self, h.node j hj]
      rfl
    · rw [update_of_ne hji]
      exact h.node j hj
  · rw [hown]
    exact h.map
  · exact h.lag
  · exact h.synced
  · rw [hown]
    exact h.full
  · intro ht j hj htype x hx
    rw [hown, hbytes]
    by_cases hji : j = i
    · subst hji
      rw [update_self]
      by_cases hbn : x / BSIZE = bn
      · simp [hbn]
      · simp only [hbn, and_false, if_false]
        exact h.data ht j hj htype x hx
    · rw [update_of_ne hji, if_neg fun hc => hji hc.1]
      exact h.data ht j hj htype x hx
  · intro hdirs j hj htype p hp hsize
    rw [hown, funext (hbytes j)]
    by_cases hji : j = i ∧ p / BSIZE = bn
    · obtain ⟨rfl, rfl⟩ := hji
      rw [getLE_byteOf hp fun x hx => by rw [if_pos ⟨rfl, hx⟩]]
      exact hents hdirs htype p hp hsize rfl
    · -- neither byte of the entry is in the block
      have hsame := h.ents hdirs j hj htype p hp hsize
      obtain ⟨q, rfl⟩ := hp
      have h1 : (16 * q + 1) / BSIZE = 16 * q / BSIZE := by simp only [BSIZE]; omega
      simpa only [getLE, h1, if_neg hji] using hsame

/-- inode i is stored as x, with the bytes f -/
theorem put {x : Dinode} {used : ℕ → Bool} {f : Store} (h : Vol sb τ dirty m V a)
    (hd : ∀ j, dirty = some j → j = i) (hmap : FreeMap sb τ (own sb (update m i x) V.block) used)
    (hfull : τ → x.type ≠ 0 → ∀ bn, bn * BSIZE < x.size.toNat →
      ∃ y b, slotOf i bn = some y ∧ own sb (update m i x) V.block y = some b)
    (hdata : τ → x.type ≠ 0 → ∀ p < MAXFILE * BSIZE,
      byteOf (own sb (update m i x) V.block) V.block i p = f p)
    (hents : τ.dirs → x.type = Dinode.T_DIR → ∀ p, 16 ∣ p → p + 16 ≤ x.size.toNat →
      getLE (byteOf (own sb (update m i x) V.block) V.block i) p 2 < sb.ninodes) :
    Vol sb τ none (update m i x)
      { V with inode := update V.inode i x, used := used } (update a i (nodeOf x f)) := by
  have hbytes : ∀ j, j ≠ i → ∀ p, byteOf (own sb (update m i x) V.block) V.block j p =
      byteOf (own sb m V.block) V.block j p := by
    intro j hj p
    unfold byteOf
    cases hs : slotOf j (p / BSIZE) with
    | none => rfl
    | some y =>
      rw [Option.bind_some, Option.bind_some, own_of_ne x (by rw [slotOf_inum hs]; exact hj)]
  constructor
  · exact h.super
  · intro j hj
    by_cases hji : j = i
    · subst hji
      rw [update_self, update_self]
      rfl
    · rw [update_of_ne hji, update_of_ne hji]
      exact h.node j hj
  · exact hmap
  · intro j hj
    by_cases hji : j = i
    · subst hji
      simp only [update_self]
      exact Lag.refl x
    · simp only [update_of_ne hji]
      exact h.lag j hj
  · intro ht j hj _
    by_cases hji : j = i
    · subst hji
      simp only [update_self]
    · simp only [update_of_ne hji]
      exact h.synced ht j hj fun he => hji (hd j he)
  · intro ht j hj htype bn hbn
    by_cases hji : j = i
    · subst hji
      rw [update_self] at htype hbn
      exact hfull ht htype bn hbn
    · rw [update_of_ne hji] at htype hbn
      obtain ⟨y, b, hs, hb⟩ := h.full ht j hj htype bn hbn
      exact ⟨y, b, hs, by rw [own_of_ne x (by rw [slotOf_inum hs]; exact hji), hb]⟩
  · intro ht j hj htype p hp
    by_cases hji : j = i
    · subst hji
      rw [update_self] at htype
      rw [update_self]
      exact hdata ht htype p hp
    · rw [update_of_ne hji] at htype
      rw [update_of_ne hji, hbytes j hji]
      exact h.data ht j hj htype p hp
  · intro hdirs j hj htype p hp hsize
    by_cases hji : j = i
    · subst hji
      rw [update_self] at htype hsize
      exact hents hdirs htype p hp hsize
    · rw [update_of_ne hji] at htype hsize
      rw [funext (hbytes j hji)]
      exact h.ents hdirs j hj htype p hp hsize

/-- an inode with no block in its slots reads as zeros -/
theorem byteOf_empty {o : Slot → Option ℕ} {blk : ℕ → Store} (h : ∀ y : Slot, y.inum = i → o y = none) (p : ℕ) :
    byteOf o blk i p = 0 := by
  unfold byteOf
  cases hs : slotOf i (p / BSIZE) with
  | none => rfl
  | some y => simp [h y (slotOf_inum hs)]

/-- **Storing.** Inode i is stored with other attributes or another size; its slots stay. -/
theorem store {x : Dinode} (h : Vol sb τ dirty m V a) (hd : ∀ j, dirty = some j → j = i) (hi : i < sb.ninodes)
    (haddrs : x.addrs = (m i).addrs) (htype : x.type = (m i).type)
    (hfull : τ → (m i).type ≠ 0 → ∀ bn, bn * BSIZE < x.size.toNat →
      ∃ y b, slotOf i bn = some y ∧ own sb m V.block y = some b)
    (hents : τ.dirs → (m i).type = Dinode.T_DIR → ∀ p, 16 ∣ p → p + 16 ≤ x.size.toNat →
      getLE (byteOf (own sb m V.block) V.block i) p 2 < sb.ninodes) :
    Vol sb τ none (update m i x) { V with inode := update V.inode i x }
      (update a i (nodeOf x (a i).data)) := by
  have hown : own sb (update m i x) V.block = own sb m V.block := own_attrs haddrs htype
  refine h.put hd ?_ ?_ ?_ ?_
  · rw [hown]
    exact h.map
  · rw [hown, htype]
    exact hfull
  · rw [hown, htype]
    intro ht htype p hp
    exact h.data ht i hi htype p hp
  · rw [hown, htype]
    exact hents

/-- **Emptying an inode.** Its blocks are free again. -/
theorem trunc {used : ℕ → Bool} (h : Vol sb τ none m V a)
    (hmap : FreeMap sb τ (fun y => if y.inum = i then none else own sb m V.block y) used) :
    let x : Dinode := { m i with addrs := fun _ => 0, size := 0 }
    Vol sb τ none (update m i x) { V with inode := update V.inode i x, used := used }
      (update a i (nodeOf x fun _ => 0)) := by
  intro x
  have hown : own sb (update m i x) V.block = fun y => if y.inum = i then none else own sb m V.block y := by
    funext y
    by_cases hy : y.inum = i
    · rw [if_pos hy]
      exact own_empty (by rw [hy, update_self])
    · rw [if_neg hy]
      exact own_of_ne _ hy
  refine h.put (fun j hj => by cases hj) (hown ▸ hmap) ?_ ?_ ?_
  · intro _ _ bn hbn
    simp [x] at hbn
  · intro _ _ p _
    rw [hown]
    exact byteOf_empty (fun y hy => if_pos hy) p
  · intro _ _ p _ hp
    simp [x] at hp

/-- **Freeing an inode** that has no blocks. -/
theorem dead (h : Vol sb τ none m V a) (haddrs : (m i).addrs = fun _ => 0) :
    Vol sb τ none (update m i { m i with type := 0 })
      { V with inode := update V.inode i { m i with type := 0 } }
      (update a i (nodeOf { m i with type := 0 } (a i).data)) := by
  have hown : own sb (update m i { m i with type := 0 }) V.block = own sb m V.block := by
    funext y
    by_cases hy : y.inum = i
    · rw [own_empty (by rw [hy, update_self, haddrs]), own_empty (by rw [hy, haddrs])]
    · exact own_of_ne _ hy
  refine h.put (fun j hj => by cases hj) (hown ▸ h.map) ?_ ?_ ?_
  · intro _ h0
    exact absurd rfl h0
  · intro _ h0
    exact absurd rfl h0
  · intro _ h0
    exact absurd h0 (show (0 : BitVec 16) ≠ Dinode.T_DIR by decide)

/-- the stored copy of an inode has no block that the inode does not have -/
theorem own_stored {y : Slot} {c : ℕ} (h : Vol sb τ dirty m V a) (hi : i < sb.ninodes)
    (hy : own sb (update m i (V.inode i)) V.block y = some c) : own sb m V.block y = some c := by
  have hlag := h.lag i hi
  by_cases hyi : y.inum = i
  · obtain ⟨⟨h1, h2⟩, h3, h4⟩ := own_eq_some.1 hy
    have h2' : (V.inode i).type ≠ 0 := by rw [hyi, update_self] at h2; exact h2
    refine own_eq_some.2 ⟨⟨h1, ?_⟩, h3, ?_⟩
    · rw [hlag.same] at h2'
      rw [hyi]
      exact h2'
    · subst hyi
      cases y with
      | addr j k =>
        simp only [Slot.get, Slot.inum, update_self] at h4 ⊢
        rcases hlag.addrs k with h0 | h0
        · exact absurd (by rw [← h4]; exact congrArg BitVec.toNat h0) h3
        · rw [← h4]
          exact congrArg BitVec.toNat h0.symm
      | entry j l =>
        simp only [Slot.get, Slot.inum, update_self] at h4 ⊢
        rcases hlag.addrs (Fin.last NDIRECT) with h0 | h0
        · have hz : (V.inode j).indirect = 0 := congrArg BitVec.toNat h0
          rw [if_pos hz] at h4
          exact absurd h4.symm h3
        · have hz : (V.inode j).indirect = (m j).indirect := congrArg BitVec.toNat h0
          rw [← hz]
          exact h4
  · rw [own_of_ne _ hyi] at hy
    exact hy

/-- **Dropping the cached copy** of inode i. Blocks that were never stored with it are lost, on a disk that is not tight. -/
theorem evict (h : Vol sb τ dirty m V a) (hd : dirty ≠ some i) (hi : i < sb.ninodes) :
    Vol sb τ dirty (update m i (V.inode i)) V a := by
  by_cases ht : τ
  · rw [h.synced ht i hi hd, update_eq_self]
    exact h
  have hlag := h.lag i hi
  have hm : ∀ j, update m i (V.inode i) j =
      { m j with addrs := (update m i (V.inode i) j).addrs } := by
    intro j
    by_cases hj : j = i
    · subst hj
      rw [update_self]
      exact hlag.same
    · rw [update_of_ne hj]
  constructor
  · exact h.super
  · intro j hj
    rw [hm j]
    exact h.node j hj
  · exact h.map.mono ht fun y c => h.own_stored hi
  · intro j hj
    by_cases hji : j = i
    · subst hji
      rw [update_self]
      exact Lag.refl _
    · rw [update_of_ne hji]
      exact h.lag j hj
  · exact fun ht' => absurd ht' ht
  · exact fun ht' => absurd ht' ht
  · exact fun ht' => absurd ht' ht
  · intro hdirs j hj htype p hp hsize
    rw [hm j] at htype hsize
    have hold := h.ents hdirs j hj htype p hp hsize
    cases hs : slotOf j (p / BSIZE) with
    | none =>
      rw [getLE_byteOf (f := fun _ => 0) hp fun x hx => by simp [byteOf, hx, hs], getLE_zero]
      omega
    | some y =>
      cases ho : own sb (update m i (V.inode i)) V.block y with
      | none =>
        rw [getLE_byteOf (f := fun _ => 0) hp fun x hx => by simp [byteOf, hx, hs, ho], getLE_zero]
        omega
      | some c =>
        rw [getLE_byteOf (f := V.block c) hp fun x hx => by simp [byteOf, hx, hs, h.own_stored hi ho]] at hold
        rw [getLE_byteOf (f := V.block c) hp fun x hx => by simp [byteOf, hx, hs, ho]]
        exact hold

/-- a block allocated to an inode changes nothing for its stored copy -/
theorem stored_addr (h : Vol sb τ dirty m V a) (hi : i < sb.ninodes) (hf : V.used b = false) (f : Store) (j x : ℕ) :
    byteOf (own sb (update m i (V.inode i)) (update V.block b f)) (update V.block b f) j x =
      byteOf (own sb (update m i (V.inode i)) V.block) V.block j x :=
  byteOf_unowned (fun y hy => h.map.fresh hf y (h.own_stored hi hy)) j x

/-- nor does a block allocated to its indirect block -/
theorem stored_entry (wf : sb.WF) {j : Fin NINDIRECT} (h : Vol sb τ dirty m V a) (hτ : ¬τ) (hi : i < sb.ninodes)
    (ht : (m i).type ≠ 0) (hp : (m i).indirect ≠ 0) (hz : getLE (V.block (m i).indirect) (4 * j) 4 = 0)
    (hb : b < sb.size) (hf : V.used b = false) (l x : ℕ) :
    let blk := update V.block b fun _ => 0
    let blk' := update blk (m i).indirect (putLE (blk (m i).indirect) (4 * j) 4 b)
    byteOf (own sb (update m i (V.inode i)) blk') blk' l x =
      byteOf (own sb (update m i (V.inode i)) V.block) V.block l x := by
  intro blk blk'
  have hclean : Vol sb τ none m V a := { h with synced := fun h' => absurd h' hτ }
  have hold := hclean.evict (i := i) (fun hc => by cases hc) hi
  have hself : update m i (V.inode i) i = V.inode i := update_self _ _ _
  rcases (h.lag i hi).addrs (Fin.last NDIRECT) with h0 | h0
  · -- the stored copy does not have the indirect block
    rw [← h.stored_addr hi hf fun _ => 0]
    apply byteOf_unowned
    intro y hy
    rw [own_block _ fun j hj => h.map.fresh hf _ (h.own_stored hi hj)] at hy
    have hslot := h.map.owned.apart _ _ _ (h.own_stored hi hy) (own_indirect hi ht hp)
    subst hslot
    rw [own, if_neg] at hy
    · cases hy
    · rintro ⟨-, -, h1⟩
      apply h1
      rw [Slot.get, hself, h0]
      rfl
  · have hind : (update m i (V.inode i) i).indirect = (m i).indirect := by
      rw [hself]
      exact congrArg BitVec.toNat h0
    have htype : (update m i (V.inode i) i).type ≠ 0 := by
      rw [hself, (h.lag i hi).same]
      exact ht
    have hnew := hold.allocated_entry (j := j) wf hi htype (hind ▸ hp) (by rw [hind]; exact hz) hb hf
    rw [hind] at hnew
    exact hnew.grown.bytes l x

end Vol

end Xv6.Fs
