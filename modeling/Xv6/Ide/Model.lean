/-
The IDE driver (`ide.c`), its device, and the memory disk (`memide.c`).

The state is the buffers, the queue as the pointers `idequeue` and `qnext` make it, the processes inside `iderw`, and the
device. What the driver does under `idelock` is one step: `enter` is `iderw` up to its first `sleep`, `retry` what it does
when it has been woken, `intr` is `ideintr`. The device carries out one command at a time and raises one interrupt for
each (`finish`); it sees of a request what `idestart` puts in its registers. A process may be woken for no reason
(`wake`). A buffer belongs to the process that has locked it, which may change it as it likes between two requests.

`asked` and `served` are a record that no step reads: the requests in the order of the queue, and what each one came to.

`Memide.iderw` is the same function for a kernel that keeps its disk in memory.
-/
import Xv6.Core.Bytes
import Xv6.Core.Machine
import Xv6.Core.Sll
import Xv6.Param

namespace Xv6.Ide

open Xv6.Bytes Xv6.Sll

/-- the data of a block -/
abbrev Block := Fin BSIZE → Byte

structure Buf where
  dev : ℕ
  blockno : ℕ
  valid : Bool
  dirty : Bool
  data : Block

/-- (b->flags & (B_VALID|B_DIRTY)) == B_VALID -/
def Buf.done (b : Buf) : Bool := b.valid && !b.dirty

/-! ## The memory disk -/

namespace Memide

/-- `iderw` on the disk in memory, for a buffer that is locked; none: it panics -/
def iderw (memdisk : ℕ → Block) (b : Buf) : Option (Buf × (ℕ → Block)) :=
  if b.done then none  -- iderw: nothing to do
  else if b.dev ≠ 1 then none  -- iderw: request not for disk 1
  else if FSSIZE ≤ b.blockno then none  -- iderw: block out of range
  else if b.dirty then some ({ b with dirty := false, valid := true }, Function.update memdisk b.blockno b.data)
  else some ({ b with data := memdisk b.blockno, valid := true }, memdisk)

end Memide

/-! ## The device -/

/-- the registers of the device, and the data sent with a write command -/
structure Regs where
  count : ℕ
  lba0 : ℕ
  lba1 : ℕ
  lba2 : ℕ
  select : ℕ
  write : Option Block

def SECTOR_SIZE : ℕ := 512

/-- what `idestart` puts in the registers -/
def Regs.ofBuf (b : Buf) : Regs :=
  let sector := b.blockno * (BSIZE / SECTOR_SIZE)
  { count := BSIZE / SECTOR_SIZE
    lba0 := sector % 256
    lba1 := sector / 2 ^ 8 % 256
    lba2 := sector / 2 ^ 16 % 256
    select := 0xe0 ||| (b.dev % 2) * 16 ||| sector / 2 ^ 24 % 16
    write := if b.dirty then some b.data else none }

/-- the disk a command is for -/
def Regs.disk (r : Regs) : ℕ := r.select / 16 % 2

def Regs.sector (r : Regs) : ℕ := r.lba0 + 2 ^ 8 * r.lba1 + 2 ^ 16 * r.lba2 + 2 ^ 24 * (r.select % 16)

/-- the two disks; cmd: the command in progress; irq: an interrupt is raised; reply: what a read command has read -/
structure Device where
  disk : ℕ → ℕ → Block
  cmd : Option Regs
  irq : Bool
  reply : Block

/-- the command in progress comes to its end -/
def Device.finish (d : Device) : Option Device :=
  match d.cmd with
  | none => none
  | some r =>
    match r.write with
    | some x => some { d with
        disk := Function.update d.disk r.disk (Function.update (d.disk r.disk) r.sector x), cmd := none, irq := true }
    | none => some { d with reply := d.disk r.disk r.sector, cmd := none, irq := true }

/-! ## The driver -/

section

variable {ι : Type} [DecidableEq ι]

/-- where a process is; k: its request is the kth -/
inductive Pc where
  | out
  | called (b : Fin NBUF)
  | sleeping (b : Fin NBUF) (k : ℕ)
  | awake (b : Fin NBUF) (k : ℕ)
deriving DecidableEq

/-- a request: the buffer, and what it was like -/
structure Request where
  buf : Fin NBUF
  was : Buf

/-- what a request came to: the buffer and the disks at its interrupt -/
structure Result where
  buf : Buf
  disk : ℕ → ℕ → Block

/-- next none: idequeue; next (some b): b->qnext; lock: the process that holds b->lock -/
structure St (ι : Type) where
  buf : Fin NBUF → Buf
  next : Option (Fin NBUF) → Option (Fin NBUF)
  lock : Fin NBUF → Option ι
  pc : ι → Pc
  dev : Device
  havedisk1 : Bool
  asked : List Request
  served : List Result

def St.setPc (s : St ι) (p : ι) (x : Pc) : St ι := { s with pc := Function.update s.pc p x }

/-- `idestart`; none: it panics, or waits for a device that is busy -/
def idestart (s : St ι) (b : Fin NBUF) : Option (St ι) :=
  if FSSIZE ≤ (s.buf b).blockno then none  -- incorrect blockno
  else if s.dev.cmd.isSome then none
  else some { s with dev := { s.dev with cmd := some (Regs.ofBuf (s.buf b)) } }

/-- the checks of `iderw`; none: it panics -/
def call (s : St ι) (p : ι) (b : Fin NBUF) : Option (St ι) :=
  if (s.buf b).done then none  -- iderw: nothing to do
  else if (s.buf b).dev ≠ 0 ∧ s.havedisk1 = false then none  -- iderw: ide disk 1 not present
  else some (s.setPc p (.called b))

/-- the loop of `iderw`: return, or sleep -/
def await (s : St ι) (p : ι) (b : Fin NBUF) (k : ℕ) : St ι :=
  s.setPc p (if (s.buf b).done then .out else .sleeping b k)

/-- append b to idequeue -/
def append (s : St ι) (b : Fin NBUF) : Option (St ι) :=
  let next := Function.update s.next (some b) none
  (last next (NBUF + 1) none).map fun pp =>
    { s with next := Function.update next pp (some b), asked := s.asked ++ [⟨b, s.buf b⟩] }

/-- start the disk if necessary -/
def startIf (s : St ι) (b : Fin NBUF) : Option (St ι) := if s.next none = some b then idestart s b else some s

/-- `iderw` under the lock -/
def enter (s : St ι) (p : ι) (b : Fin NBUF) : Option (St ι) := do
  let u ← append s b
  let v ← startIf u b
  return await v p b s.asked.length

/-- `wakeup(b)` -/
def wakeup (pc : ι → Pc) (b : Fin NBUF) (p : ι) : Pc :=
  match pc p with
  | .sleeping c k => if c = b then .awake c k else .sleeping c k
  | x => x

/-- the buffer when its command is done -/
def Buf.complete (b : Buf) (reply : Block) : Buf :=
  { b with data := if b.dirty then b.data else reply, valid := true, dirty := false }

def ideintr (s : St ι) : Option (St ι) :=
  match s.next none with
  | none => some s
  | some b =>
    let x := (s.buf b).complete s.dev.reply
    let s := { s with
      next := Function.update s.next none (s.next (some b))
      buf := Function.update s.buf b x
      pc := wakeup s.pc b
      served := s.served ++ [⟨x, s.dev.disk⟩] }
    match s.next none with
    | none => some s
    | some c => idestart s c

/-! ## Runs -/

inductive Act (ι : Type) where
  | lock (p : ι) (b : Fin NBUF)
  | unlock (p : ι) (b : Fin NBUF)
  | edit (p : ι) (b : Fin NBUF) (x : Buf)
  | call (p : ι) (b : Fin NBUF)
  | enter (p : ι)
  | wake (p : ι)
  | retry (p : ι)
  | finish
  | intr

def step (s : St ι) : Act ι → Option (St ι)
  | .lock p b => if s.pc p = .out ∧ s.lock b = none then some { s with lock := Function.update s.lock b (some p) } else none
  | .unlock p b => if s.pc p = .out ∧ s.lock b = some p then some { s with lock := Function.update s.lock b none } else none
  | .edit p b x => if s.pc p = .out ∧ s.lock b = some p then some { s with buf := Function.update s.buf b x } else none
  | .call p b => if s.pc p = .out ∧ s.lock b = some p then call s p b else none
  | .enter p =>
    match s.pc p with
    | .called b => enter s p b
    | _ => none
  | .wake p =>
    match s.pc p with
    | .sleeping b k => some (s.setPc p (.awake b k))
    | _ => none
  | .retry p =>
    match s.pc p with
    | .awake b k => some (await s p b k)
    | _ => none
  | .finish => s.dev.finish.map fun d => { s with dev := d }
  | .intr => if s.dev.irq then ideintr { s with dev := { s.dev with irq := false } } else none

/-- no request, a device at rest; the buffers and the disks are arbitrary -/
structure Init (disk : ℕ → ℕ → Block) (s : St ι) : Prop where
  next : ∀ x, s.next x = none
  lock : ∀ b, s.lock b = none
  pc : ∀ p, s.pc p = .out
  disk : s.dev.disk = disk
  cmd : s.dev.cmd = none
  irq : s.dev.irq = false
  asked : s.asked = []
  served : s.served = []

def machine (ι : Type) [DecidableEq ι] (disk : ℕ → ℕ → Block) : Machine (St ι) (Act ι) := .ofStep (Init disk) step

end

end Xv6.Ide
