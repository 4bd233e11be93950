/-
Constants of `param.h` and `fs.h` and the panics of the modelled code.
-/
import Mathlib.Tactic

namespace Xv6

/-- max # of blocks any FS op writes -/
def MAXOPBLOCKS : ℕ := 10

/-- max data blocks in on-disk log -/
def LOGSIZE : ℕ := MAXOPBLOCKS * 3

/-- number of log blocks `mkfs` writes into the superblock, the header block included -/
def nlog : ℤ := LOGSIZE

/-- size of disk block cache -/
def NBUF : ℕ := MAXOPBLOCKS * 3

theorem NBUF_pos : 0 < NBUF := by decide

/-- device number of file system root disk -/
def ROOTDEV : BitVec 32 := 1

/-- block size -/
def BSIZE : ℕ := 512

/-- direct block numbers of an inode -/
def NDIRECT : ℕ := 12

/-- block numbers in an indirect block -/
def NINDIRECT : ℕ := BSIZE / 4

/-- blocks of the largest file -/
def MAXFILE : ℕ := NDIRECT + NINDIRECT

/-- max exec arguments -/
def MAXARG : ℕ := 32

/-- maximum number of processes -/
def NPROC : ℕ := 64

/-- open files per process -/
def NOFILE : ℕ := 16

/-- open files per system -/
def NFILE : ℕ := 100

/-- maximum number of active i-nodes -/
def NINODE : ℕ := 50

theorem NINODE_pos : 0 < NINODE := by decide

/-- maximum major device number -/
def NDEV : ℕ := 10

/-- size of file system in blocks -/
def FSSIZE : ℕ := 1000

/-- length of a name in a directory entry -/
def DIRSIZ : ℕ := 14

/-- the `panic` calls of the modelled code -/
inductive Panic where
  | tooBigTransaction
  | logWriteOutsideTrans
  | logCommitting
  | failedFetch
  | kfree
  | remap
  | clearpteu
  | loaduvmAligned
  | loaduvmExist
  | copyuvmExist
  | copyuvmPresent
  | outOfBlocks
  | freeingFreeBlock
  | igetNoInodes
  | ilock
  | ilockNoType
  | iunlock
  | bmapRange
  | dirlookupNotDir
  | dirlookupRead
  | dirlinkRead
  | dirlink
  | isdiremptyReadi
  | unlinkWritei
  | filewrite
  | shortFilewrite
deriving DecidableEq, Repr

/-- how a kernel path can go other than by returning: a `panic` call, a store past the end of an array, a load or store
at a virtual address whose page is not present, or a loop that repeats for ever -/
inductive Fault where
  | panic (p : Panic)
  | overrun
  | pageFault (a : BitVec 64)
  | endless
deriving DecidableEq, Repr

end Xv6
