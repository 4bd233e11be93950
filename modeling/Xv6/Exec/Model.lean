/-
`exec`: `exec.c` with `loaduvm`, `uva2ka` and `copyout` of `vm.c`.

The executable is the byte string of a regular file, at most MAXFILE*BSIZE bytes; `readi` reads it as `fs.c` does, with
`uint` offsets and lengths. Headers are decoded from the bytes read, in the layout of `elf.h`. `none` stands for
`goto bad`; there the caller frees the new page table and returns -1.
-/
import Xv6.Vm.PageTable

namespace Xv6.Exec

open Xv6.Bytes Xv6.Vm

/-- `uint` -/
abbrev UInt := BitVec 32

/-! ## The file -/

/-- the contents of a regular file -/
structure File where
  data : List Byte
  bound : data.length ≤ MAXFILE * BSIZE

def File.size (ip : File) : ℕ := ip.data.length

/-- the bytes `readi` copies; `none` is its result -1 -/
def File.readi (ip : File) (off n : UInt) : Option (List Byte) :=
  if ip.size < off.toNat ∨ off + n < off then none
  else
    let n := if ip.size < (off + n).toNat then ip.size - off.toNat else n.toNat
    some ((ip.data.drop off.toNat).take n)

/-- a structure of n bytes read from the file in full -/
def File.readAll (ip : File) (off : UInt) (n : ℕ) : Option Store :=
  match ip.readi off (BitVec.ofNat 32 n) with
  | none => none
  | some bytes => if bytes.length = n then some fun i => bytes.getD i 0 else none

/-- file header; `elf.h` -/
structure ElfHdr where
  magic : UInt
  entry : Addr
  phoff : Addr
  phnum : BitVec 16

/-- program section header -/
structure ProgHdr where
  type : UInt
  off : Addr
  vaddr : Addr
  filesz : Addr
  memsz : Addr

/-- sizeof(struct elfhdr) -/
def sizeofElfHdr : ℕ := 64

/-- sizeof(struct proghdr) -/
def sizeofProgHdr : ℕ := 56

def ElfHdr.decode (b : Store) : ElfHdr :=
  { magic := BitVec.ofNat 32 (getLE b 0 4)
    entry := BitVec.ofNat 64 (getLE b 24 8)
    phoff := BitVec.ofNat 64 (getLE b 32 8)
    phnum := BitVec.ofNat 16 (getLE b 56 2) }

def ProgHdr.decode (b : Store) : ProgHdr :=
  { type := BitVec.ofNat 32 (getLE b 0 4)
    off := BitVec.ofNat 64 (getLE b 8 8)
    vaddr := BitVec.ofNat 64 (getLE b 16 8)
    filesz := BitVec.ofNat 64 (getLE b 32 8)
    memsz := BitVec.ofNat 64 (getLE b 40 8) }

def ELF_MAGIC : UInt := 0x464C457F

def ELF_PROG_LOAD : UInt := 1

/-- the file header, if the file has one with the right magic number -/
def File.header (ip : File) : Option ElfHdr :=
  ((ip.readAll 0 sizeofElfHdr).map ElfHdr.decode).filter fun elf => elf.magic = ELF_MAGIC

/-! ## Loading -/

/-- `memmove` of bytes into a page, from byte o on -/
def write (s : Phys) (f : Frame) (o : ℕ) (bytes : List Byte) : Phys :=
  { s with mem := Function.update s.mem f fun i => if o ≤ i ∧ i < o + bytes.length then bytes.getD (i - o) 0 else s.mem f i }

/-- file bytes copied by `readi` into the page a PTE names, whether or not the PTE is present -/
def copyIn (s : Phys) (pte : Addr) (bytes : List Byte) : Phys :=
  if bytes = [] then s
  else (write s (pteFrame pte) 0 bytes).record (.load (pteFrame pte) (pte &&& PTE_P ≠ 0))

/-- the loop of `loaduvm` from i on; i is a `uint`, and after 2^20 rounds it is 0 again -/
def loaduvmLoop (pgdir : Frame) (addr : Addr) (ip : File) (offset sz : UInt) : ℕ → UInt → K ℤ
  | 0, _ => throw .endless
  | rounds + 1, i => do
    if sz ≤ i then return 0
    else
      match ← walkpgdir pgdir (addr + i.setWidth 64) false with
      | none => throw (.panic .loaduvmExist)
      | some (pt, j) =>
        let pte := (← get).entry pt j
        let n := if sz - i < 4096 then sz - i else 4096
        match ip.readi (offset + i) n with
        | none => return -1
        | some bytes =>
          modify fun s => copyIn s pte bytes
          if bytes.length ≠ n.toNat then return -1
          else loaduvmLoop pgdir addr ip offset sz rounds (i + 4096)

def loaduvm (pgdir : Frame) (addr : Addr) (ip : File) (offset sz : UInt) : K ℤ :=
  if addr % PGSIZE ≠ 0 then throw (.panic .loaduvmAligned)
  else loaduvmLoop pgdir addr ip offset sz (2 ^ 20) 0

/-- the loop of `exec` over the program headers, with n of them left: the size of the image, or `goto bad` -/
def loadHeaders (kend : ℕ) (pgdir : Frame) (ip : File) : ℕ → UInt → Addr → K (Option Addr)
  | 0, _, sz => return some sz
  | n + 1, off, sz => do
    match (ip.readAll off sizeofProgHdr).map ProgHdr.decode with
    | none => return none
    | some ph =>
      if ph.type ≠ ELF_PROG_LOAD then loadHeaders kend pgdir ip n (off + 56) sz
      else if ph.memsz < ph.filesz then return none
      else if ph.vaddr + ph.memsz < ph.vaddr then return none
      else
        let sz ← allocuvm kend pgdir sz (ph.vaddr + ph.memsz)
        if sz = 0 then return none
        else if ph.vaddr % PGSIZE ≠ 0 then return none
        else if (← loaduvm pgdir ph.vaddr ip (ph.off.setWidth 32) (ph.filesz.setWidth 32)) < 0 then return none
        else loadHeaders kend pgdir ip n (off + 56) sz

/-- a new user image, before the arguments are pushed -/
structure Image where
  pgdir : Frame
  sz : Addr
  entry : Addr

/-- two pages at the next page boundary, the first made inaccessible -/
def stackPages (kend : ℕ) (pgdir : Frame) (sz : Addr) : K (Option Addr) := do
  let sz ← allocuvm kend pgdir (pgRoundUp sz) (pgRoundUp sz + 2 * PGSIZE)
  if sz = 0 then return none
  else
    clearpteu pgdir (sz - 2 * PGSIZE)
    return some sz

/-- the program into a new page table; `none`: the page table has been freed -/
def loadProgram (kend : ℕ) (kpdpt : Frame) (ip : File) : K (Option Image) := do
  match ip.header with
  | none => return none
  | some elf =>
    let pgdir ← setupkvm kpdpt
    match ← loadHeaders kend pgdir ip elf.phnum.toNat (elf.phoff.setWidth 32) PGSIZE with
    | none => freevm kend pgdir; return none
    | some sz => return some ⟨pgdir, sz, elf.entry⟩

/-- the stack of the program -/
def loadStack (kend : ℕ) (im : Image) : K (Option Image) := do
  match ← stackPages kend im.pgdir im.sz with
  | none => freevm kend im.pgdir; return none
  | some sz => return some { im with sz := sz }

/-- `exec` up to the point where it pushes the arguments; `none`: it has returned -1 -/
def loadImage (kend : ℕ) (kpdpt : Frame) (ip : File) : K (Option Image) := do
  match ← loadProgram kend kpdpt ip with
  | none => return none
  | some im => loadStack kend im

/-! ## The arguments -/

/-- the page a user address maps to, when user code may access it -/
def uva2ka (pgdir : Frame) (uva : Addr) : K (Option Frame) := do
  match ← walkpgdir pgdir uva false with
  | none => throw (.pageFault 0)  -- *pte of the null pointer
  | some (pt, i) =>
    let pte := (← get).entry pt i
    if pte &&& PTE_P = 0 then return none
    else if pte &&& PTE_U = 0 then return none
    else return some (pteFrame pte)

/-- bytes from va to the end of its page -/
def roomIn (va : Addr) : ℕ := 4096 - va.toNat % 4096

theorem roomIn_pos (va : Addr) : 0 < roomIn va := by
  rw [roomIn]
  omega

def copyout (pgdir : Frame) (va : Addr) : List Byte → K ℤ
  | [] => return 0
  | b :: buf => do
    let va0 := pgRoundDown va
    match ← uva2ka pgdir va0 with
    | none => return -1
    | some pa0 =>
      modify fun s => write s pa0 (va - va0).toNat ((b :: buf).take (roomIn va))
      copyout pgdir (va0 + PGSIZE) ((b :: buf).drop (roomIn va))
termination_by buf => buf.length
decreasing_by
  have := roomIn_pos va
  rw [List.length_drop, List.length_cons]
  omega

/-- the stack pointer below a pushed string -/
def pushed (sp : Addr) (str : List Byte) : Addr := (sp - BitVec.ofNat 64 (str.length + 1)) &&& ~~~7

/-- the loop that pushes the argument strings; argc counts those already pushed, ustack holds their addresses -/
def pushStrings (pgdir : Frame) : List (List Byte) → Addr → List Addr → K (Option (Addr × List Addr))
  | [], sp, ustack => return some (sp, ustack)
  | str :: argv, sp, ustack => do
    if MAXARG ≤ ustack.length then return none
    else
      let sp := pushed sp str
      if (← copyout pgdir sp (str ++ [0])) < 0 then return none
      else pushStrings pgdir argv sp (ustack ++ [sp])

/-- an array of addresses as bytes -/
def bytesOf (ws : List Addr) : List Byte := (List.range (8 * ws.length)).map (putWords 8 (fun _ => 0) 0 (ws.map BitVec.toNat))

/-- the arguments of the new image: its stack pointer and its rdi and rsi, or `none`, after the new page table has been
freed. `store` puts rdi and rsi into the trap frame, before it is known that the array of addresses fits -/
def pushArgs {m : Type → Type} [Monad m] [MonadLiftT K m] (store : Addr → Addr → m PUnit) (kend : ℕ) (im : Image)
    (argv : List (List Byte)) : m (Option (Addr × Addr × Addr)) := do
  match ← pushStrings im.pgdir argv im.sz [] with
  | none => freevm kend im.pgdir; return none
  | some (sp, ustack) =>
    -- argc and argv for main() entry point
    let argc := BitVec.ofNat 64 ustack.length
    let rsi := sp - (argc + 1) * 8
    store argc rsi
    let sp := sp - (1 + argc + 1) * 8
    -- fake return PC, the addresses of the strings, 0
    if (← copyout im.pgdir sp (bytesOf (0xffffffffffffffff :: ustack ++ [0]))) < 0 then
      freevm kend im.pgdir
      return none
    else return some (sp, argc, rsi)

/-- `exec` from its arguments on, in memory: the registers of the new image; `none`: it has returned -1 -/
def execArgs (kend : ℕ) (im : Image) (argv : List (List Byte)) : K (Option (Addr × Addr × Addr)) :=
  pushArgs (fun _ _ => pure ⟨⟩) kend im argv

end Xv6.Exec
