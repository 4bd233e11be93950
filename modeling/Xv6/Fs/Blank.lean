/-
A volume whose inodes have no blocks.

`RepM.bare`: such a disk, with one inode in the cache, is a state of the file system. `smallState` is the smallest that is
of use: eight inodes, of which inode 1 is a regular file of any size (a hole, or empty), and 32 data blocks; other states
have directories as inodes 1 and 2.
-/
import Xv6.Fs.Rep

namespace Xv6.Fs

open Xv6.Bytes

/-- the first entry of the inode cache -/
def entry0 : Fin NINODE := ⟨0, NINODE_pos⟩

/-- an inode cache with one reference to inode i -/
def oneInode (i : ℕ) (k : Fin NINODE) : Inode := if k = entry0 then { Inode.unused with inum := i, ref := 1 } else .unused

/-- the pins and locks of such a cache -/
def oneGhost (i : ℕ) (o : Outer) : Ghost := ⟨{(entry0, i)}, ∅, none, none, False, o⟩

theorem oneInode_not_holds (i : ℕ) (k : Fin NINODE) (j : ℕ) : ¬ (oneInode i k).Holds j := by
  apply Inode.not_holds
  unfold oneInode
  split_ifs <;> rfl

theorem oneInode_cached {sb : Superblock} {m dn : ℕ → Dinode} (hm : ∀ j < sb.ninodes, dn j = m j) (i : ℕ) (o : Outer) :
    Cached sb m dn (oneGhost i o) (oneInode i) where
  count k := by
    have hcount : Multiset.countP (fun p : Fin NINODE × ℕ => p.1 = k) {(entry0, i)} = if k = entry0 then 1 else 0 := by
      rw [← Multiset.cons_zero, Multiset.countP_cons, Multiset.countP_zero]
      simp only [eq_comm, Nat.zero_add]
    change (oneInode i k).ref = Multiset.countP (fun p => p.1 = k) {(entry0, i)}
    rw [hcount, oneInode]
    split_ifs <;> rfl
  names p hp := by
    obtain rfl := Multiset.mem_singleton.1 hp
    rfl
  unique p hp q hq _ := by
    rw [Multiset.mem_singleton.1 hp, Multiset.mem_singleton.1 hq]
  locked k := by
    unfold oneInode oneGhost
    split_ifs <;> simp [Inode.unused]
  held k hk := absurd hk (Finset.notMem_empty k)
  range k j hj := absurd hj (oneInode_not_holds i k j)
  copy k j hj := absurd hj (oneInode_not_holds i k j)
  stored j hj _ := hm j hj
  orphan hw := hw.elim

/-- **A volume without blocks.** -/
theorem RepM.bare {sb : Superblock} {s : St} {i : ℕ} (hsuper : readsb s.disk = sb) (hsb : s.sb = sb)
    (hmap : ∀ b < sb.nmeta, b < sb.size ∧ bit sb s.disk b = true)
    (haddrs : ∀ j < sb.ninodes, ∀ c, (dinode sb s.disk j).addrs c = 0) (hcache : s.icache = oneInode i) :
    RepM sb ⟨False, False⟩ (view sb s.disk).inode (fun j => nodeOf ((view sb s.disk).inode j) fun _ => 0)
      (oneGhost i s.out) s := by
  have hown : ∀ x, own sb (view sb s.disk).inode (view sb s.disk).block x = none := by
    intro x
    by_cases hx : x.inum < sb.ninodes
    · refine own_empty (funext fun c => ?_)
      rw [view_inode hx]
      exact haddrs _ hx c
    · rw [own, if_neg fun hc => hx hc.1]
  refine ⟨⟨hsuper, fun j _ => rfl, ⟨⟨?_, ?_⟩, ?_, ?_, by simp⟩, fun j _ => Lag.refl _, by simp, by simp, by simp, by simp⟩, ?_, hsb, rfl⟩
  · intro x y b hx
    rw [hown] at hx
    cases hx
  · intro x b hx
    rw [hown] at hx
    cases hx
  · intro x b hx
    rw [hown] at hx
    cases hx
  · intro b hb
    obtain ⟨h1, h2⟩ := hmap b hb
    change (decide (b < sb.size) && bit sb s.disk b) = true
    rw [h2, decide_eq_true h1]
    rfl
  · rw [hcache]
    exact oneInode_cached (fun _ _ => rfl) i s.out

/-! ## A small volume -/

/-- 72 blocks: boot block, superblock, 31 log blocks, one block of inodes, one of the free map, and after block 40 the data -/
def smallSb : Superblock := ⟨72, 32, 8, 31, 2, 33, 34⟩

theorem smallSb_wf : smallSb.WF := by
  refine ⟨by decide, by decide, fun b hb => ?_, by decide, by decide⟩
  have hb : b < 72 := hb
  have hblock : smallSb.bblock b = b / 4096 + 34 := rfl
  have hmeta : smallSb.nmeta = 40 := rfl
  omega

/-- a disk with that superblock and inodes 1 and 2 -/
def smallDisk (x y : Dinode) : Disk := fun b =>
  if b = 1 then putWords 4 (fun _ => 0) 0 [72, 32, 8, 31, 2, 33, 34]
  else if b = 33 then putDinode (putDinode (fun _ => 0) 64 x) 128 y
  else if b = 34 then fun i => if i < 5 then 0xff else 0
  else fun _ => 0

/-- a directory without entries -/
def emptyDirInode : Dinode := ⟨Dinode.T_DIR, 0, 0, 1, 0, fun _ => 0⟩

/-- the first file of the file table -/
def file0 : Fin NFILE := ⟨0, by decide⟩

/-- every file is open on inode 1, a regular file of the given size without blocks, at offset off -/
def smallState (size off : ℕ) : St where
  disk := smallDisk ⟨Dinode.T_FILE, 0, 0, 1, BitVec.ofNat 32 size, fun _ => 0⟩ (.fresh 0)
  sb := smallSb
  icache := oneInode 1
  logsize := 31
  lh := []
  out := {
    file := fun _ => ⟨.FD_INODE, true, entry0, off⟩
    cwd := fun _ => none
    outstanding := 0 }

theorem smallDisk_inode (x y : Dinode) {j : ℕ} (hj : j < smallSb.ninodes) :
    dinode smallSb (smallDisk x y) j = if j = 2 then y else if j = 1 then x else .fresh 0 := by
  have hj : j < 8 := hj
  have hblock : smallSb.iblock j = 33 := by
    rw [Superblock.iblock, show j / IPB = 0 from Nat.div_eq_of_lt hj]
    rfl
  have hmod : j % IPB = j := Nat.mod_eq_of_lt hj
  have hdisk : smallDisk x y 33 = putDinode (putDinode (fun _ => 0) 64 x) 128 y := by
    rw [smallDisk, if_neg (by decide), if_pos rfl]
  have hskip : ∀ (f : Store) (i : ℕ) (z : Dinode), j ≠ i → getDinode (putDinode f (64 * i) z) (64 * j) = getDinode f (64 * j) :=
    fun f i z hne => getDinode_congr fun p h2 h3 => putDinode_outside _ _ _ _ (by omega)
  rw [dinode, hblock, hmod, hdisk]
  split_ifs with h2 h1
  · rw [h2]
    exact getDinode_putDinode _ 128 y
  · rw [hskip _ 2 y h2, h1]
    exact getDinode_putDinode _ 64 x
  · rw [hskip _ 2 y h2, hskip _ 1 x h1]
    simp only [getDinode, getLE_zero]
    rfl

/-- a state with that disk and one reference to inode 1 -/
theorem smallDisk_rep {s : St} {x y : Dinode} (hdisk : s.disk = smallDisk x y) (hsb : s.sb = smallSb)
    (hx : ∀ c, x.addrs c = 0) (hy : ∀ c, y.addrs c = 0) (hcache : s.icache = oneInode 1) :
    RepM smallSb ⟨False, False⟩ (view smallSb s.disk).inode (fun j => nodeOf ((view smallSb s.disk).inode j) fun _ => 0)
      (oneGhost 1 s.out) s := by
  refine RepM.bare ?_ hsb (fun b hb => ?_) ?_ hcache
  · have hsuper : readsb (fun _ => putWords 4 (fun _ => 0) 0 [72, 32, 8, 31, 2, 33, 34]) = smallSb := by decide +kernel
    rw [hdisk]
    exact hsuper
  · have hb : b < 40 := hb
    have hblock : smallSb.bblock b = 34 := by
      rw [Superblock.bblock, show b / BPB = 0 from Nat.div_eq_of_lt (by rw [BPB, BSIZE]; omega)]
      rfl
    have hmask : ∀ b < 40, ((0xff : Byte) &&& bitMask b != 0) = true := by decide
    have hbyte : smallDisk x y 34 (b % BPB / 8) = 0xff := if_pos (by rw [BPB, BSIZE]; omega)
    refine ⟨hb.trans (by decide), ?_⟩
    rw [bit, hdisk, hblock, hbyte]
    exact hmask b hb
  · intro j hj c
    rw [hdisk, smallDisk_inode x y hj]
    split_ifs
    · exact hy c
    · exact hx c
    · rfl

theorem smallState_inode (size off : ℕ) {j : ℕ} (hj : j < smallSb.ninodes) :
    dinode smallSb (smallState size off).disk j =
      if j = 1 then ⟨Dinode.T_FILE, 0, 0, 1, BitVec.ofNat 32 size, fun _ => 0⟩ else .fresh 0 := by
  rw [smallState, smallDisk_inode _ _ hj]
  split_ifs with h2 h1
  · omega
  · rfl
  · rfl
  · rfl

theorem smallState_rep (size off : ℕ) : RepM smallSb ⟨False, False⟩ (view smallSb (smallState size off).disk).inode
    (fun j => nodeOf ((view smallSb (smallState size off).disk).inode j) fun _ => 0)
    (oneGhost 1 (smallState size off).out) (smallState size off) :=
  smallDisk_rep rfl rfl (fun _ => rfl) (fun _ => rfl) rfl

end Xv6.Fs
