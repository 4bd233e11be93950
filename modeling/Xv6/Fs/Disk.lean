/-
The disk format (`fs.h`): superblock, inode blocks, free map, data blocks.

A disk maps block numbers to the bytes of the block, as the buffer cache shows them. `getDinode` and `putDinode` are the
64 bytes of a `struct dinode`, `bit` and `setBit` one bit of the free map.

`view` is what a disk means: the superblock, a table of inodes, a free map and the data blocks. Each write the format
has changes one part of it:
- `view_setDinode`: storing an inode replaces that inode;
- `view_setBit`: setting or clearing a bit changes the map at that block;
- `view_update`: storing into a data block replaces that block.
-/
import Xv6.Core.Bytes
import Xv6.Fs.Dinode

namespace Xv6.Fs

open Xv6.Bytes Function

/-- the blocks of the disk -/
abbrev Disk := ℕ → Store

/-- root i-number -/
def ROOTINO : ℕ := 1

/-- inodes per block -/
def IPB : ℕ := BSIZE / 64

/-- bitmap bits per block -/
def BPB : ℕ := BSIZE * 8

structure Superblock where
  size : ℕ
  nblocks : ℕ
  ninodes : ℕ
  nlog : ℕ
  logstart : ℕ
  inodestart : ℕ
  bmapstart : ℕ
deriving DecidableEq, Repr

namespace Superblock

variable (sb : Superblock)

/-- the blocks before the data blocks -/
def nmeta : ℕ := sb.size - sb.nblocks

/-- IBLOCK: the block of inode i -/
def iblock (i : ℕ) : ℕ := i / IPB + sb.inodestart

/-- BBLOCK: the block of the free map with the bit of block b -/
def bblock (b : ℕ) : ℕ := b / BPB + sb.bmapstart

/-- the parts of the disk follow each other: boot block, superblock, log, inodes, free map, data blocks; block numbers
are `int`s -/
structure WF : Prop where
  log : 2 ≤ sb.logstart ∧ sb.logstart + sb.nlog ≤ sb.inodestart
  inodes : ∀ i < sb.ninodes, sb.iblock i < sb.bmapstart
  bitmap : ∀ b < sb.size, sb.bblock b < sb.nmeta
  root : ROOTINO < sb.ninodes
  size : 0 < sb.size ∧ sb.size < 2 ^ 31

end Superblock

/-- `readsb` -/
def readsb (d : Disk) : Superblock where
  size := getLE (d 1) 0 4
  nblocks := getLE (d 1) 4 4
  ninodes := getLE (d 1) 8 4
  nlog := getLE (d 1) 12 4
  logstart := getLE (d 1) 16 4
  inodestart := getLE (d 1) 20 4
  bmapstart := getLE (d 1) 24 4

/-! ## Inodes -/

/-- the `struct dinode` at offset o of a block -/
def getDinode (f : Store) (o : ℕ) : Dinode where
  type := BitVec.ofNat 16 (getLE f o 2)
  major := BitVec.ofNat 16 (getLE f (o + 2) 2)
  minor := BitVec.ofNat 16 (getLE f (o + 4) 2)
  nlink := BitVec.ofNat 16 (getLE f (o + 6) 2)
  size := BitVec.ofNat 32 (getLE f (o + 8) 4)
  addrs j := BitVec.ofNat 32 (getLE f (o + 12 + 4 * j) 4)

/-- store a `struct dinode` at offset o of a block -/
def putDinode (f : Store) (o : ℕ) (x : Dinode) : Store :=
  let f := putLE f o 2 x.type.toNat
  let f := putLE f (o + 2) 2 x.major.toNat
  let f := putLE f (o + 4) 2 x.minor.toNat
  let f := putLE f (o + 6) 2 x.nlink.toNat
  let f := putLE f (o + 8) 4 x.size.toNat
  putWords 4 f (o + 12) ((List.finRange (NDIRECT + 1)).map fun j => (x.addrs j).toNat)

theorem length_addrs (x : Dinode) : ((List.finRange (NDIRECT + 1)).map fun j => (x.addrs j).toNat).length = 13 := by
  simp [NDIRECT]

theorem putDinode_outside (f : Store) (o : ℕ) (x : Dinode) (i : ℕ) (h : i < o ∨ o + 64 ≤ i) :
    putDinode f o x i = f i := by
  unfold putDinode
  rw [putWords_outside _ _ _ _ _ (by rw [length_addrs]; omega), putLE_outside _ _ _ _ _ (by omega),
    putLE_outside _ _ _ _ _ (by omega), putLE_outside _ _ _ _ _ (by omega), putLE_outside _ _ _ _ _ (by omega),
    putLE_outside _ _ _ _ _ (by omega)]

theorem getDinode_congr {f g : Store} {o : ℕ} (h : ∀ i, o ≤ i → i < o + 64 → f i = g i) :
    getDinode f o = getDinode g o := by
  have hw : ∀ p w, o ≤ p → p + w ≤ o + 64 → getLE f p w = getLE g p w := by
    intro p w h1 h2
    apply getLE_congr
    intro i h3 h4
    exact h i (by omega) (by omega)
  unfold getDinode
  congr 1
  · rw [hw _ _ (by omega) (by omega)]
  · rw [hw _ _ (by omega) (by omega)]
  · rw [hw _ _ (by omega) (by omega)]
  · rw [hw _ _ (by omega) (by omega)]
  · rw [hw _ _ (by omega) (by omega)]
  · funext j
    have hj := j.isLt
    rw [hw _ _ (by omega) (by simp only [NDIRECT] at hj; omega)]

/-- an inode is read back where it was stored -/
theorem getDinode_putDinode (f : Store) (o : ℕ) (x : Dinode) : getDinode (putDinode f o x) o = x := by
  have hlen := length_addrs x
  have hword : ∀ {n w v : ℕ} (b : BitVec n), 256 ^ w = 2 ^ n → v = b.toNat % 256 ^ w → BitVec.ofNat n v = b := by
    intro n w v b hp hv
    apply BitVec.eq_of_toNat_eq
    rw [BitVec.toNat_ofNat, hv, hp, Nat.mod_mod, Nat.mod_eq_of_lt b.isLt]
  unfold putDinode
  apply Dinode.ext
  · refine hword x.type (show 256 ^ 2 = 2 ^ 16 by norm_num) ?_
    rw [getLE_putWords_disjoint _ _ _ _ _ _ (by omega), getLE_putLE_disjoint _ _ _ _ _ _ (by omega),
      getLE_putLE_disjoint _ _ _ _ _ _ (by omega), getLE_putLE_disjoint _ _ _ _ _ _ (by omega),
      getLE_putLE_disjoint _ _ _ _ _ _ (by omega), getLE_putLE]
  · refine hword x.major (show 256 ^ 2 = 2 ^ 16 by norm_num) ?_
    rw [getLE_putWords_disjoint _ _ _ _ _ _ (by omega), getLE_putLE_disjoint _ _ _ _ _ _ (by omega),
      getLE_putLE_disjoint _ _ _ _ _ _ (by omega), getLE_putLE_disjoint _ _ _ _ _ _ (by omega), getLE_putLE]
  · refine hword x.minor (show 256 ^ 2 = 2 ^ 16 by norm_num) ?_
    rw [getLE_putWords_disjoint _ _ _ _ _ _ (by omega), getLE_putLE_disjoint _ _ _ _ _ _ (by omega),
      getLE_putLE_disjoint _ _ _ _ _ _ (by omega), getLE_putLE]
  · refine hword x.nlink (show 256 ^ 2 = 2 ^ 16 by norm_num) ?_
    rw [getLE_putWords_disjoint _ _ _ _ _ _ (by omega), getLE_putLE_disjoint _ _ _ _ _ _ (by omega), getLE_putLE]
  · refine hword x.size (show 256 ^ 4 = 2 ^ 32 by norm_num) ?_
    rw [getLE_putWords_disjoint _ _ _ _ _ _ (by omega), getLE_putLE]
  · funext j
    refine hword (x.addrs j) (show 256 ^ 4 = 2 ^ 32 by norm_num) ?_
    have hj : (j : ℕ) < ((List.finRange (NDIRECT + 1)).map fun k => (x.addrs k).toNat).length := by
      have := j.isLt
      simp only [NDIRECT] at this
      omega
    rw [getLE_putWords _ _ _ _ _ hj]
    simp

/-- inode i -/
def dinode (sb : Superblock) (d : Disk) (i : ℕ) : Dinode := getDinode (d (sb.iblock i)) (64 * (i % IPB))

/-- store inode i -/
def setDinode (sb : Superblock) (d : Disk) (i : ℕ) (x : Dinode) : Disk :=
  Function.update d (sb.iblock i) (putDinode (d (sb.iblock i)) (64 * (i % IPB)) x)

theorem dinode_congr {sb : Superblock} {d e : Disk} {i : ℕ} (h : d (sb.iblock i) = e (sb.iblock i)) :
    dinode sb d i = dinode sb e i := by
  rw [dinode, dinode, h]

theorem dinode_setDinode (sb : Superblock) (d : Disk) (i j : ℕ) (x : Dinode) :
    dinode sb (setDinode sb d i x) j = if j = i then x else dinode sb d j := by
  unfold dinode setDinode
  by_cases hij : j = i
  · subst hij
    rw [update_self, getDinode_putDinode, if_pos rfl]
  rw [if_neg hij]
  by_cases hb : sb.iblock j = sb.iblock i
  · -- the same block, so another place in it
    rw [hb, update_self]
    apply getDinode_congr
    intro p h1 h2
    apply putDinode_outside
    simp only [Superblock.iblock, IPB, BSIZE] at hb h1 h2 ⊢
    omega
  · rw [update_of_ne hb]

/-! ## The free map -/

/-- m = 1 << (bi % 8) -/
def bitMask (b : ℕ) : Byte := 1#8 <<< (b % BPB % 8)

/-- (data[bi/8] & m) != 0 -/
def bit (sb : Superblock) (d : Disk) (b : ℕ) : Bool := d (sb.bblock b) (b % BPB / 8) &&& bitMask b != 0

/-- data[bi/8] |= m, or data[bi/8] &= ~m -/
def setBit (sb : Superblock) (d : Disk) (b : ℕ) (v : Bool) : Disk :=
  let f := d (sb.bblock b)
  let x := f (b % BPB / 8)
  Function.update d (sb.bblock b) (Function.update f (b % BPB / 8) (if v then x ||| bitMask b else x &&& ~~~bitMask b))

theorem and_bitMask (x : Byte) (b : ℕ) : (x &&& bitMask b != 0) = x.getLsbD (b % BPB % 8) := by
  have hm : bitMask b = BitVec.twoPow 8 (b % BPB % 8) := rfl
  have hlt : b % BPB % 8 < 8 := Nat.mod_lt _ (by norm_num)
  have hne : BitVec.twoPow 8 (b % BPB % 8) ≠ 0#8 := by
    intro h
    have := congrArg (fun y => y.getLsbD (b % BPB % 8)) h
    simp [hlt] at this
  rw [hm, BitVec.and_twoPow]
  cases x.getLsbD (b % BPB % 8) with
  | false => simp
  | true => simpa using hne

theorem getLsbD_bitMask (b i : ℕ) : (bitMask b).getLsbD i = decide (b % BPB % 8 = i) := by
  have hlt : b % BPB % 8 < 8 := Nat.mod_lt _ (by norm_num)
  rw [show bitMask b = BitVec.twoPow 8 (b % BPB % 8) from rfl, BitVec.getLsbD_twoPow]
  simp [hlt]

theorem bit_setBit (sb : Superblock) (d : Disk) (b c : ℕ) (v : Bool) :
    bit sb (setBit sb d b v) c = if c = b then v else bit sb d c := by
  have hlt : c % BPB % 8 < 8 := Nat.mod_lt _ (by norm_num)
  unfold bit setBit
  rw [and_bitMask, and_bitMask]
  by_cases hb : sb.bblock c = sb.bblock b
  · rw [hb, update_self]
    by_cases ho : c % BPB / 8 = b % BPB / 8
    · rw [ho, update_self]
      have hiff : b % BPB % 8 = c % BPB % 8 ↔ c = b := by
        simp only [Superblock.bblock, BPB, BSIZE] at hb ho ⊢
        constructor
        · intro h
          omega
        · intro h
          rw [h]
      have hmask : (bitMask b).getLsbD (c % BPB % 8) = decide (c = b) := by
        rw [getLsbD_bitMask, decide_eq_decide.2 hiff]
      cases v with
      | false =>
        rw [if_neg (by simp), BitVec.getLsbD_and, BitVec.getLsbD_not, hmask]
        by_cases h : c = b <;> simp [h, hlt]
      | true =>
        rw [if_pos rfl, BitVec.getLsbD_or, hmask]
        by_cases h : c = b <;> simp [h]
    · rw [update_of_ne ho, if_neg]
      rintro rfl
      exact ho rfl
  · rw [update_of_ne hb, if_neg]
    rintro rfl
    exact hb rfl

/-! ## What a disk means -/

structure View where
  super : Superblock
  /-- the inode table -/
  inode : ℕ → Dinode
  /-- the free map: the blocks in use -/
  used : ℕ → Bool
  /-- the data blocks -/
  block : ℕ → Store

def view (sb : Superblock) (d : Disk) : View where
  super := readsb d
  inode i := if i < sb.ninodes then dinode sb d i else .fresh 0
  used b := decide (b < sb.size) && bit sb d b
  block b := if sb.nmeta ≤ b then d b else fun _ => 0

section

variable {sb : Superblock} {d : Disk}

theorem view_inode {i : ℕ} (hi : i < sb.ninodes) : (view sb d).inode i = dinode sb d i := if_pos hi

theorem view_used {b : ℕ} (hb : b < sb.size) : (view sb d).used b = bit sb d b := by simp [view, hb]

theorem view_block {b : ℕ} (hb : sb.nmeta ≤ b) : (view sb d).block b = d b := if_pos hb

theorem readsb_congr {e : Disk} (h : d 1 = e 1) : readsb d = readsb e := by simp only [readsb, h]

namespace Superblock.WF

variable (wf : sb.WF)

include wf

theorem one_lt_iblock (i : ℕ) : 1 < sb.iblock i := by
  have := wf.log
  have : sb.inodestart ≤ sb.iblock i := Nat.le_add_left _ _
  omega

theorem bmapstart_le (b : ℕ) : 1 < sb.bmapstart ∧ sb.bmapstart ≤ sb.bblock b := by
  have h0 := wf.inodes 0 (by have := wf.root; omega)
  have h1 := wf.one_lt_iblock 0
  exact ⟨by omega, Nat.le_add_left _ _⟩

theorem bblock_lt {b : ℕ} (hb : b < sb.size) : sb.bblock b < sb.nmeta := wf.bitmap b hb

/-- an inode block is not a block of the free map -/
theorem iblock_ne_bblock {i b : ℕ} (hi : i < sb.ninodes) : sb.iblock i ≠ sb.bblock b := by
  have := wf.inodes i hi
  have := wf.bmapstart_le b
  omega

/-- an inode block is not a data block -/
theorem iblock_lt {i : ℕ} (hi : i < sb.ninodes) : sb.iblock i < sb.nmeta := by
  have := wf.inodes i hi
  have := wf.bmapstart_le 0
  have := wf.bblock_lt wf.size.1
  omega

theorem one_lt_nmeta : 1 < sb.nmeta := by
  have := wf.bmapstart_le 0
  have := wf.bblock_lt wf.size.1
  omega

end Superblock.WF

theorem view_setDinode (wf : sb.WF) {i : ℕ} (hi : i < sb.ninodes) (x : Dinode) :
    view sb (setDinode sb d i x) = { view sb d with inode := update (view sb d).inode i x } := by
  have hlt := wf.iblock_lt hi
  have h1 := wf.one_lt_iblock i
  simp only [view, View.mk.injEq]
  refine ⟨readsb_congr (update_of_ne (by omega) _ _), ?_, ?_, ?_⟩
  · funext j
    rw [dinode_setDinode]
    by_cases hj : j = i
    · subst hj
      rw [if_pos hi, if_pos rfl, update_self]
    · rw [if_neg hj, update_of_ne hj]
  · funext b
    by_cases hb : b < sb.size
    · have : sb.bblock b ≠ sb.iblock i := (wf.iblock_ne_bblock hi).symm
      simp only [bit, setDinode, update_of_ne this]
    · simp [hb]
  · funext b
    split_ifs with hb
    · exact update_of_ne (by omega) _ _
    · rfl

theorem view_setBit (wf : sb.WF) {b : ℕ} (hb : b < sb.size) (v : Bool) :
    view sb (setBit sb d b v) = { view sb d with used := update (view sb d).used b v } := by
  have hlt := wf.bblock_lt hb
  have h1 := wf.bmapstart_le b
  simp only [view, View.mk.injEq]
  refine ⟨readsb_congr (update_of_ne (by omega) _ _), ?_, ?_, ?_⟩
  · funext i
    split_ifs with hi
    · exact dinode_congr (update_of_ne (wf.iblock_ne_bblock hi) _ _)
    · rfl
  · funext c
    rw [bit_setBit]
    by_cases hc : c = b
    · subst hc
      simp [hb]
    · rw [if_neg hc, update_of_ne hc]
  · funext c
    split_ifs with hc
    · exact update_of_ne (by omega) _ _
    · rfl

theorem view_update (wf : sb.WF) {b : ℕ} (hb : sb.nmeta ≤ b) (f : Store) :
    view sb (update d b f) = { view sb d with block := update (view sb d).block b f } := by
  have hmeta := wf.one_lt_nmeta
  simp only [view, View.mk.injEq]
  refine ⟨readsb_congr (update_of_ne (by omega) _ _), ?_, ?_, ?_⟩
  · funext i
    split_ifs with hi
    · have := wf.iblock_lt hi
      exact dinode_congr (update_of_ne (by omega) _ _)
    · rfl
  · funext c
    by_cases hc : c < sb.size
    · have := wf.bblock_lt hc
      have hne : sb.bblock c ≠ b := by omega
      simp only [bit, update_of_ne hne]
    · simp [hc]
  · funext c
    by_cases hc : c = b
    · subst hc
      rw [if_pos hb, update_self, update_self]
    · rw [update_of_ne hc, update_of_ne hc]

end

end Xv6.Fs
