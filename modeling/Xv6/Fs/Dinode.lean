/-
Inodes as they stand on the disk and in the inode cache (`fs.h`, `file.h`).
-/
import Xv6.Param

namespace Xv6

/-- `struct dinode`, and the copy of it in `struct inode` -/
@[ext]
structure Dinode where
  type : BitVec 16
  major : BitVec 16
  minor : BitVec 16
  nlink : BitVec 16
  size : BitVec 32
  addrs : Fin (NDIRECT + 1) → BitVec 32

namespace Dinode

def T_DIR : BitVec 16 := 1

def T_FILE : BitVec 16 := 2

def T_DEV : BitVec 16 := 3

/-- all zero but the type: what `ialloc` writes -/
def fresh (type : BitVec 16) : Dinode := ⟨type, 0, 0, 0, 0, fun _ => 0⟩

/-- the block number of the indirect block; 0: none -/
def indirect (x : Dinode) : ℕ := (x.addrs (Fin.last NDIRECT)).toNat

/-- addrs[k] = b -/
def setAddr (x : Dinode) (k : Fin (NDIRECT + 1)) (b : ℕ) : Dinode :=
  { x with addrs := Function.update x.addrs k (BitVec.ofNat 32 b) }

end Dinode

end Xv6
