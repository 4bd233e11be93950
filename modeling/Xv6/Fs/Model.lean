/-
The file system of the kernel (`fs.c`, `filewrite`), its calls run one after another.

The state is the disk as the buffer cache shows it, the inode cache, the open transaction and, in `Outer`, what only the
upper layers touch: the file table, each process's working directory and `log.outstanding`. A function is an `EStateM`: it
returns, or it ends in a panic or in a wait that nobody ends (`Fault.endless`: a lock the process itself holds, a log that
nobody commits).

Loops over a counter run on fuel that the counter cannot use up. There is one device, so `dev` is left out. What `readi`
gets from the console and what pipes do is given by the caller. Paths come from `argstr`, so they hold no NUL.
-/
import Xv6.Core.Wp
import Xv6.Fs.Disk
import Xv6.Fs.Icache

namespace Xv6.Fs

open Xv6.Bytes

/-! ## State -/

/-- `struct inode` -/
structure Inode extends Icache.Entry where
  /-- the sleep lock -/
  locked : Bool

inductive FdType where
  | FD_NONE
  | FD_PIPE
  | FD_INODE
deriving DecidableEq, Repr

/-- `struct file` -/
structure File where
  type : FdType
  writable : Bool
  ip : Fin NINODE
  off : ℕ
deriving DecidableEq, Repr

/-- the state above the inodes -/
structure Outer where
  /-- the file table -/
  file : Fin NFILE → File
  /-- the working directory of each process in use -/
  cwd : Fin NPROC → Option (Fin NINODE)
  /-- log.outstanding -/
  outstanding : ℕ

structure St where
  disk : Disk
  /-- the copy of the superblock in memory -/
  sb : Superblock
  icache : Fin NINODE → Inode
  /-- log.size -/
  logsize : ℤ
  /-- log.lh.block, the blocks of the running transaction -/
  lh : List ℕ
  out : Outer

abbrev M (α : Type) := EStateM Fault St α

/-! ## Blocks -/

/-- the blocks of the transaction once b is one of them -/
def addLog (lh : List ℕ) (b : ℕ) : List ℕ := if b ∈ lh then lh else lh ++ [b]

/-- `log_write` of the buffer of block b -/
def logWrite (b : ℕ) : M PUnit := do
  let s ← get
  if s.lh.length ≥ LOGSIZE ∨ (s.lh.length : ℤ) ≥ s.logsize - 1 then throw (.panic .tooBigTransaction)
  else if s.out.outstanding < 1 then throw (.panic .logWriteOutsideTrans)
  else set { s with lh := addLog s.lh b }

def bzero (b : ℕ) : M PUnit := do
  modify fun s => { s with disk := Function.update s.disk b fun _ => 0 }
  logWrite b

/-- the search of `balloc`: the blocks of the free map one by one, the bits of each one by one -/
def findFree (sb : Superblock) (d : Disk) : Option ℕ :=
  (List.range ((sb.size + BPB - 1) / BPB)).findSome? fun k =>
    ((List.range BPB).find? fun bi => decide (k * BPB + bi < sb.size) && !bit sb d (k * BPB + bi)).map (k * BPB + ·)

def balloc : M ℕ := do
  let s ← get
  match findFree s.sb s.disk with
  | none => throw (.panic .outOfBlocks)
  | some b =>
    set { s with disk := setBit s.sb s.disk b true }
    logWrite (s.sb.bblock b)
    bzero b
    return b

def bfree (b : ℕ) : M PUnit := do
  modify fun s => { s with sb := readsb s.disk }
  let s ← get
  if bit s.sb s.disk b then
    set { s with disk := setBit s.sb s.disk b false }
    logWrite (s.sb.bblock b)
  else throw (.panic .freeingFreeBlock)

/-! ## Inodes -/

/-- assign to fields of an inode in memory -/
def setInode (k : Fin NINODE) (f : Inode → Inode) : M PUnit :=
  modify fun s => { s with icache := Function.update s.icache k (f (s.icache k)) }

def iget (inum : ℕ) : M (Fin NINODE) := do
  let s ← get
  match (List.finRange NINODE).find? fun k => decide (0 < (s.icache k).ref ∧ (s.icache k).inum = inum) with
  | some k =>
    setInode k fun x => { x with ref := x.ref + 1 }
    return k
  | none =>
    match (List.finRange NINODE).find? fun k => decide ((s.icache k).ref = 0) with
    | none => throw (.panic .igetNoInodes)
    | some k =>
      setInode k fun x => { x with inum, ref := 1, valid := false }
      return k

def idup (k : Fin NINODE) : M (Fin NINODE) := do
  setInode k fun x => { x with ref := x.ref + 1 }
  return k

def iupdate (k : Fin NINODE) : M PUnit := do
  let s ← get
  let ip := s.icache k
  set { s with disk := setDinode s.sb s.disk ip.inum ip.ino }
  logWrite (s.sb.iblock ip.inum)

def ilock (k : Fin NINODE) : M PUnit := do
  let s ← get
  let ip := s.icache k
  if ip.ref < 1 then throw (.panic .ilock)
  else if ip.locked then throw .endless
  else do
    setInode k fun x => { x with locked := true }
    if ip.valid then return
    else do
      let dip := dinode s.sb s.disk ip.inum
      setInode k fun x => { x with ino := dip, valid := true }
      if dip.type = 0 then throw (.panic .ilockNoType) else return

def iunlock (k : Fin NINODE) : M PUnit := do
  let s ← get
  if !(s.icache k).locked ∨ (s.icache k).ref < 1 then throw (.panic .iunlock)
  else setInode k fun x => { x with locked := false }

/-- one round of the first loop of `itrunc` -/
def truncDirect (k : Fin NINODE) (i : Fin NDIRECT) : M PUnit := do
  let b := ((← get).icache k).ino.addrs i.castSucc
  if b ≠ 0 then do
    bfree b.toNat
    setInode k fun x => { x with ino := x.ino.setAddr i.castSucc 0 }
  else return

/-- one round of the second loop of `itrunc`, over the indirect block p -/
def truncEntry (p : ℕ) (j : Fin NINDIRECT) : M PUnit := do
  let b := getLE ((← get).disk p) (4 * j) 4
  if b ≠ 0 then bfree b else return

/-- the indirect block in `itrunc` -/
def truncIndirect (k : Fin NINODE) : M PUnit := do
  let p := ((← get).icache k).ino.indirect
  if p ≠ 0 then do
    forM (List.finRange NINDIRECT) (truncEntry p)
    bfree p
    setInode k fun x => { x with ino := x.ino.setAddr (Fin.last NDIRECT) 0 }
  else return

def itrunc (k : Fin NINODE) : M PUnit := do
  forM (List.finRange NDIRECT) (truncDirect k)
  truncIndirect k
  setInode k fun x => { x with ino := { x.ino with size := 0 } }
  iupdate k

/-- `iput` of the last reference to an inode without links -/
def freeInode (k : Fin NINODE) : M PUnit := do
  itrunc k
  setInode k fun x => { x with ino := { x.ino with type := 0 } }
  iupdate k
  setInode k fun x => { x with valid := false }

def iput (k : Fin NINODE) : M PUnit := do
  let ip := (← get).icache k
  if ip.ref = 1 ∧ ip.valid ∧ ip.ino.nlink = 0 then freeInode k else pure ()
  setInode k fun x => { x with ref := x.ref - 1 }

def iunlockput (k : Fin NINODE) : M PUnit := do
  iunlock k
  iput k

/-! ## Inode content -/

/-- `bmap` for word j of the indirect block, once there is one -/
def bmapEntry (k : Fin NINODE) (j : ℕ) : M ℕ := do
  let s ← get
  let p := (s.icache k).ino.indirect
  if getLE (s.disk p) (4 * j) 4 = 0 then do
    let addr ← balloc
    modify fun s => { s with disk := Function.update s.disk p (putLE (s.disk p) (4 * j) 4 addr) }
    logWrite p
    return addr
  else return getLE (s.disk p) (4 * j) 4

def bmap (k : Fin NINODE) (bn : ℕ) : M ℕ := do
  let ip := ((← get).icache k).ino
  if h : bn < NDIRECT then do
    let i : Fin (NDIRECT + 1) := ⟨bn, by omega⟩
    if ip.addrs i = 0 then do
      let addr ← balloc
      setInode k fun x => { x with ino := x.ino.setAddr i addr }
      return addr
    else return (ip.addrs i).toNat
  else if bn - NDIRECT < NINDIRECT then do
    -- load the indirect block, allocating it if necessary
    if ip.indirect = 0 then do
      let addr ← balloc
      setInode k fun x => { x with ino := x.ino.setAddr (Fin.last NDIRECT) addr }
    else pure ()
    bmapEntry k (bn - NDIRECT)
  else throw (.panic .bmapRange)

/-- the only device with a driver in `devsw` -/
def CONSOLE : BitVec 16 := 1

/-- `ip->major < 0 || ip->major >= NDEV || !devsw[ip->major].read` -/
def noDevice (ip : Dinode) : Prop := ip.major.toInt < 0 ∨ NDEV ≤ ip.major.toInt ∨ ip.major ≠ CONSOLE

instance (ip : Dinode) : Decidable (noDevice ip) := inferInstanceAs (Decidable (_ ∨ _ ∨ _))

/-- the loop of `readi`: n bytes still to be copied -/
def readLoop (k : Fin NINODE) : (fuel off n : ℕ) → M (List Byte)
  | 0, _, _ => return []
  | fuel + 1, off, n =>
    if n = 0 then return []
    else do
      let b ← bmap k (off / BSIZE)
      let m := min n (BSIZE - off % BSIZE)
      let f := (← get).disk b
      let rest ← readLoop k fuel (off + m) (n - m)
      return (List.range m).map (fun j => f (off % BSIZE + j)) ++ rest

/-- the bytes copied; none: -1. tty: what the console gives -/
def readi (tty : Option (List Byte)) (k : Fin NINODE) (off n : ℕ) : M (Option (List Byte)) := do
  let ip := ((← get).icache k).ino
  if ip.type = Dinode.T_DEV then
    if noDevice ip then return none
    else do
      -- `consoleread` gives up the lock while it waits
      iunlock k
      ilock k
      return tty
  else if off > ip.size.toNat ∨ (off + n) % 2 ^ 32 < off then return none
  else do
    let n := if off + n > ip.size.toNat then ip.size.toNat - off else n
    let bytes ← readLoop k n off n
    return some bytes

/-- the loop of `writei`: n bytes from src still to be copied -/
def writeLoop (k : Fin NINODE) : (fuel : ℕ) → (src : Store) → (off n : ℕ) → M PUnit
  | 0, _, _, _ => return
  | fuel + 1, src, off, n =>
    if n = 0 then return
    else do
      let b ← bmap k (off / BSIZE)
      let m := min n (BSIZE - off % BSIZE)
      modify fun s => { s with disk := Function.update s.disk b fun x =>
        if off % BSIZE ≤ x ∧ x < off % BSIZE + m then src (x - off % BSIZE) else s.disk b x }
      logWrite b
      writeLoop k fuel (fun x => src (x + m)) (off + m) (n - m)

/-- the end of `writei`: ip->size = off, if n bytes up to off have made the file longer -/
def extend (k : Fin NINODE) (off n : ℕ) : M PUnit := do
  if n > 0 ∧ off > ((← get).icache k).ino.size.toNat then do
    setInode k fun x => { x with ino := { x.ino with size := BitVec.ofNat 32 off } }
    iupdate k
  else return

def writei (k : Fin NINODE) (src : Store) (off n : ℕ) : M ℤ := do
  let ip := ((← get).icache k).ino
  if ip.type = Dinode.T_DEV then
    if noDevice ip then return -1
    else do
      iunlock k
      ilock k
      return n
  else if off > ip.size.toNat ∨ (off + n) % 2 ^ 32 < off then return -1
  else if off + n > MAXFILE * BSIZE then return -1
  else do
    writeLoop k n src off n
    extend k (off + n) n
    return n

/-! ## Directories -/

def strncmp : (p q : List Byte) → ℕ → ℤ
  | _, _, 0 => 0
  | p, q, n + 1 =>
    let x := p.headD 0
    let y := q.headD 0
    if x ≠ 0 ∧ x = y then strncmp p.tail q.tail n else (x.toNat : ℤ) - y.toNat

def strncpy : (t : List Byte) → ℕ → List Byte
  | _, 0 => []
  | [], n + 1 => 0 :: strncpy [] n
  | c :: t, n + 1 => if c = 0 then List.replicate (n + 1) 0 else c :: strncpy t n

def namecmp (s t : List Byte) : ℤ := strncmp s t DIRSIZ

/-- the bytes of a `struct dirent` -/
def dirent (name : List Byte) (inum : ℕ) : Store := fun x =>
  (BitVec.ofNat 8 inum :: BitVec.ofNat 8 (inum / 256) :: strncpy name DIRSIZ).getD x 0

/-- de.inum -/
def deInum (de : List Byte) : ℕ := getLE (fun x => de.getD x 0) 0 2

/-- sizeof(struct dirent) -/
def DESIZE : ℕ := 16

/-- read the directory entry at off; p: the panic if it is not there in full -/
def readDirent (p : Panic) (k : Fin NINODE) (off : ℕ) : M (List Byte) := do
  match ← readi none k off DESIZE with
  | none => throw (.panic p)
  | some de => if de.length ≠ DESIZE then throw (.panic p) else return de

/-- the loop of `dirlookup` -/
def lookupLoop (k : Fin NINODE) (name : List Byte) : (fuel off : ℕ) → M (Option (Fin NINODE × ℕ))
  | 0, _ => throw .endless
  | fuel + 1, off => do
    if off < ((← get).icache k).ino.size.toNat then do
      let de ← readDirent .dirlookupRead k off
      if deInum de = 0 then lookupLoop k name fuel (off + DESIZE)
      else if namecmp name (de.drop 2) = 0 then do
        let ip ← iget (deInum de)
        return some (ip, off)
      else lookupLoop k name fuel (off + DESIZE)
    else return none

/-- the inode and the offset of the entry -/
def dirlookup (k : Fin NINODE) (name : List Byte) : M (Option (Fin NINODE × ℕ)) := do
  let dp := ((← get).icache k).ino
  if dp.type ≠ Dinode.T_DIR then throw (.panic .dirlookupNotDir)
  else lookupLoop k name (dp.size.toNat / DESIZE + 2) 0

/-- the loop of `dirlink` that looks for an empty entry -/
def emptyLoop (k : Fin NINODE) : (fuel off : ℕ) → M ℕ
  | 0, _ => throw .endless
  | fuel + 1, off => do
    if off < ((← get).icache k).ino.size.toNat then do
      let de ← readDirent .dirlinkRead k off
      if deInum de = 0 then return off else emptyLoop k fuel (off + DESIZE)
    else return off

/-- true: 0, false: -1 -/
def dirlink (k : Fin NINODE) (name : List Byte) (inum : ℕ) : M Bool := do
  match ← dirlookup k name with
  | some (ip, _) =>
    iput ip
    return false
  | none =>
    let off ← emptyLoop k (((← get).icache k).ino.size.toNat / DESIZE + 2) 0
    let r ← writei k (dirent name inum) off DESIZE
    if r ≠ DESIZE then throw (.panic .dirlink) else return true

/-! ## Paths -/

/-- the byte '/' -/
def slash : Byte := 47

/-- the next path element, cut to DIRSIZ bytes, and the rest of the path -/
def skipelem (path : List Byte) : Option (List Byte × List Byte) :=
  let s := path.dropWhile (· == slash)
  if s = [] then none
  else some ((s.takeWhile (· != slash)).take DIRSIZ, (s.dropWhile (· != slash)).dropWhile (· == slash))

/-- the loop of `namex` -/
def namexLoop (parent : Bool) : (fuel : ℕ) → (ip : Fin NINODE) → (path name : List Byte) →
    M (Option (Fin NINODE × List Byte))
  | 0, _, _, _ => throw .endless
  | fuel + 1, ip, path, name =>
    match skipelem path with
    | none =>
      if parent then do
        iput ip
        return none
      else return some (ip, name)
    | some (name, path) => do
      ilock ip
      if ((← get).icache ip).ino.type ≠ Dinode.T_DIR then do
        iunlockput ip
        return none
      else if parent ∧ path = [] then do
        -- stop one level early
        iunlock ip
        return some (ip, name)
      else
        match ← dirlookup ip name with
        | none =>
          iunlockput ip
          return none
        | some (next, _) =>
          iunlockput ip
          namexLoop parent fuel next path name

/-- the inode and the last path element that was taken off -/
def namex (p : Fin NPROC) (parent : Bool) (path : List Byte) : M (Option (Fin NINODE × List Byte)) := do
  if path.head? = some slash then do
    let ip ← iget ROOTINO
    namexLoop parent (path.length + 1) ip path []
  else
    match (← get).out.cwd p with
    | none => throw (.pageFault 0)
    | some cwd =>
      let ip ← idup cwd
      namexLoop parent (path.length + 1) ip path []

def namei (p : Fin NPROC) (path : List Byte) : M (Option (Fin NINODE)) := do
  return (← namex p false path).map Prod.fst

def nameiparent (p : Fin NPROC) (path : List Byte) : M (Option (Fin NINODE × List Byte)) := namex p true path

/-! ## Transactions -/

def beginOp : M PUnit := do
  let s ← get
  if s.lh.length + (s.out.outstanding + 1) * MAXOPBLOCKS > LOGSIZE then throw .endless
  else set { s with out := { s.out with outstanding := s.out.outstanding + 1 } }

/-- the commit empties the log -/
def endOp : M PUnit := modify fun s => { s with
  lh := if s.out.outstanding = 1 then [] else s.lh
  out := { s.out with outstanding := s.out.outstanding - 1 } }

/-! ## Files -/

def setFile (f : Fin NFILE) (g : File → File) : M PUnit :=
  modify fun s => { s with out := { s.out with file := Function.update s.out.file f (g (s.out.file f)) } }

/-- if(r > 0) f->off += r -/
def advance (f : Fin NFILE) (r : ℤ) : M PUnit :=
  if r > 0 then setFile f fun x => { x with off := (x.off + r.toNat) % 2 ^ 32 } else return

/-- ((LOGSIZE-1-1-2) / 2) * 512 -/
def maxWrite : ℕ := (LOGSIZE - 1 - 1 - 2) / 2 * 512

/-- one chunk of `filewrite`: n1 bytes from src -/
def writeChunk (f : Fin NFILE) (src : Store) (n1 : ℕ) : M ℤ := do
  let ff := (← get).out.file f
  beginOp
  ilock ff.ip
  let r ← writei ff.ip src ff.off n1
  advance f r
  iunlock ff.ip
  endOp
  return r

/-- the loop of `filewrite`: the bytes i, .., n-1 are still to be written; true: all of them have been -/
def filewriteLoop (f : Fin NFILE) (src : Store) (n : ℕ) : (fuel i : ℕ) → M Bool
  | 0, _ => throw .endless
  | fuel + 1, i =>
    if i < n then do
      let n1 := min (n - i) maxWrite
      let r ← writeChunk f (fun x => src (i + x)) n1
      if r < 0 then return false
      else if r ≠ n1 then throw (.panic .shortFilewrite)
      else filewriteLoop f src n fuel (i + n1)
    else return true

/-- pw: what `pipewrite` returns -/
def filewrite (pw : ℤ) (f : Fin NFILE) (src : Store) (n : ℤ) : M ℤ := do
  let ff := (← get).out.file f
  if !ff.writable then return -1
  else
    match ff.type with
    | .FD_PIPE => return pw
    | .FD_INODE => do
      let all ← filewriteLoop f src n.toNat (n.toNat + 1) 0
      return if all ∧ 0 ≤ n then n else -1
    | .FD_NONE => throw (.panic .filewrite)

/-! ## Entries of a directory in `sys_unlink` -/

/-- the loop of `isdirempty` -/
def isdiremptyLoop (k : Fin NINODE) : (fuel off : ℕ) → M Bool
  | 0, _ => throw .endless
  | fuel + 1, off => do
    if off < ((← get).icache k).ino.size.toNat then do
      let de ← readDirent .isdiremptyReadi k off
      if deInum de ≠ 0 then return false else isdiremptyLoop k fuel (off + DESIZE)
    else return true

def isdirempty (k : Fin NINODE) : M Bool := do
  isdiremptyLoop k (((← get).icache k).ino.size.toNat / DESIZE + 2) (2 * DESIZE)

/-- the bytes "." -/
def dot : List Byte := [46]

/-- the bytes ".." -/
def dotdot : List Byte := [46, 46]

/-- the part of `sys_unlink` that clears the entry of a name -/
def eraseEntry (k : Fin NINODE) (name : List Byte) : M Bool := do
  match ← dirlookup k name with
  | none => return false
  | some (_, off) =>
    let r ← writei k (fun _ => 0) off DESIZE
    if r ≠ DESIZE then throw (.panic .unlinkWritei) else return true

/-- an empty slot of the inode cache -/
def Inode.unused : Inode := ⟨⟨0, 0, false, .fresh 0⟩, false⟩

end Xv6.Fs
