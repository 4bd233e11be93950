/-
The buffer cache (`bio.c`), with the disk driver and `log_write` as far as they touch buffers.

n buffers on a circular list through their prev and next pointers, each with a sleep lock; processes of any type P;
contents of a block of any type D. A step is one critical section of `bcache.lock`, one operation on a sleep lock, or a
stretch of code of a process that holds the buffer's sleep lock. A request to the disk ends in one step (`iderw`) in
which the block is transferred and the flags are set; the process waits for it holding the buffer. A run is any
interleaving.

Callers use a buffer only while they hold its lock, and release it only after a modification has been handed to
`log_write` or `bwrite`. Steps that end in a panic are not possible; `bget` without a buffer to recycle is `none`.

History variables: `store` is what was last handed to `log_write` or `bwrite` for each block, the disk's contents
before that; `unsaved` marks buffers modified since.
-/
import Xv6.Core.Dll
import Xv6.Core.Machine
import Xv6.Param

namespace Xv6.Bio

open Function

/-- `struct buf`, without the lock and the links -/
structure Buf (D : Type) where
  /-- B_VALID -/
  valid : Bool
  /-- B_DIRTY -/
  dirty : Bool
  dev : BitVec 32
  blockno : BitVec 32
  refcnt : ℕ
  data : D

/-- labelled with a block of the root device -/
def Buf.Holds {D : Type} (x : Buf D) (k : BitVec 32) : Prop := x.dev = ROOTDEV ∧ x.blockno = k

instance {D : Type} (x : Buf D) (k : BitVec 32) : Decidable (x.Holds k) := inferInstanceAs (Decidable (_ ∧ _))

/-- where a process is -/
inductive Pc (n : ℕ) where
  /-- outside `bio.c` -/
  | idle
  /-- `bread(ROOTDEV, k)`: about to enter the critical section of `bget` -/
  | bget (k : BitVec 32)
  /-- in acquiresleep, in `bget` -/
  | lock (b : Fin n) (k : BitVec 32)
  /-- about to test B_VALID -/
  | check (b : Fin n) (k : BitVec 32)
  /-- in `iderw`, called by `bread` -/
  | read (b : Fin n) (k : BitVec 32)
  /-- `bread` has returned b -/
  | got (b : Fin n) (k : BitVec 32)
  /-- in `iderw`, called by `bwrite` -/
  | write (b : Fin n)
  /-- in `brelse`, after releasesleep -/
  | relse (b : Fin n)
deriving DecidableEq, Repr

/-- the buffer of a request to the disk, and what follows it -/
def Pc.disk {n : ℕ} : Pc n → Option (Fin n × Pc n)
  | .read b k => some (b, .got b k)
  | .write b => some (b, .idle)
  | _ => none

structure St (n : ℕ) (P D : Type) where
  buf : Fin n → Buf D
  links : Dll.Links (Fin n)
  /-- the holder of a buffer's sleep lock -/
  lock : Fin n → Option P
  disk : BitVec 32 → D
  pc : P → Pc n
  unsaved : Fin n → Bool
  store : BitVec 32 → D

inductive Act (n : ℕ) (P D : Type) where
  /-- calls `bread(ROOTDEV, k)` -/
  | bread (p : P) (k : BitVec 32)
  /-- the next step of p -/
  | move (p : P)
  /-- p writes into a buffer it holds -/
  | modify (p : P) (b : Fin n) (d : D)
  | logWrite (p : P) (b : Fin n)
  /-- calls `bwrite(b)` -/
  | bwrite (p : P) (b : Fin n)
  /-- calls `brelse(b)` -/
  | brelse (p : P) (b : Fin n)

section

variable {n : ℕ} {P D : Type} [DecidableEq P]

def St.modify (s : St n P D) (b : Fin n) (f : Buf D → Buf D) : St n P D :=
  { s with buf := update s.buf b (f (s.buf b)) }

def St.goto (s : St n P D) (p : P) (x : Pc n) : St n P D := { s with pc := update s.pc p x }

/-- the first loop of `bget`: is the block cached? -/
def St.cached (s : St n P D) (dev k : BitVec 32) : Option (Fin n) :=
  Dll.find s.links.next (fun b => (s.buf b).dev = dev ∧ (s.buf b).blockno = k) (n + 1) (s.links.next none)

/-- the second loop of `bget`: a buffer to recycle -/
def St.victim (s : St n P D) : Option (Fin n) :=
  Dll.find s.links.prev (fun b => (s.buf b).refcnt = 0 ∧ (s.buf b).dirty = false) (n + 1) (s.links.prev none)

/-- the critical section of `bget`; none: panic("bget: no buffers") -/
def St.bget (s : St n P D) (dev k : BitVec 32) : Option (Fin n × St n P D) :=
  match s.cached dev k with
  | some b => some (b, s.modify b fun x => { x with refcnt := x.refcnt + 1 })
  | none =>
    match s.victim with
    | some b =>
      some (b, s.modify b fun x => { x with dev := dev, blockno := k, valid := false, dirty := false, refcnt := 1 })
    | none => none

/-- sync buf with disk -/
def St.iderw (size : ℕ) (s : St n P D) (b : Fin n) : Option (St n P D) :=
  if (s.buf b).valid = true ∧ (s.buf b).dirty = false then none
  else if (s.buf b).dev ≠ 1 then none
  else if size ≤ (s.buf b).blockno.toNat then none
  else if (s.buf b).dirty then
    some { s.modify b fun x => { x with dirty := false, valid := true } with
      disk := update s.disk (s.buf b).blockno (s.buf b).data }
  else some (s.modify b fun x => { x with data := s.disk x.blockno, valid := true })

/-- the critical section of `brelse` -/
def St.unref (s : St n P D) (b : Fin n) : St n P D :=
  let s := s.modify b fun x => { x with refcnt := x.refcnt - 1 }
  -- no one is waiting for it: move it to the head of the list
  if (s.buf b).refcnt = 0 then { s with links := (s.links.unlink b).insert b } else s

/-- `log_write(b)` on the buffer, and the first line of `bwrite(b)` -/
def St.setDirty (s : St n P D) (b : Fin n) : St n P D := s.modify b fun x => { x with dirty := true }

/-- the history of a step that hands a buffer over -/
def St.save (s : St n P D) (b : Fin n) : St n P D :=
  { s with
    store := update s.store (s.buf b).blockno (s.buf b).data
    unsaved := update s.unsaved b false }

/-- the next step of p -/
def move (size : ℕ) (s : St n P D) (p : P) : Option (St n P D) :=
  match s.pc p with
  | .idle => none
  | .bget k => (s.bget ROOTDEV k).map fun r => r.2.goto p (.lock r.1 k)
  | .lock b k => if s.lock b = none then some { s.goto p (.check b k) with lock := update s.lock b (some p) } else none
  | .check b k => some (s.goto p (if (s.buf b).valid then .got b k else .read b k))
  | .read b k => (s.iderw size b).map (·.goto p (.got b k))
  | .got _ _ => some (s.goto p .idle)
  | .write b => (s.iderw size b).map (·.goto p .idle)
  | .relse b => some ((s.unref b).goto p .idle)

def step (size : ℕ) (s : St n P D) : Act n P D → Option (St n P D)
  | .bread p k => if s.pc p = .idle then some (s.goto p (.bget k)) else none
  | .move p => move size s p
  | .modify p b d =>
    if s.pc p = .idle ∧ s.lock b = some p then
      some { s.modify b fun x => { x with data := d } with unsaved := update s.unsaved b true }
    else none
  | .logWrite p b => if s.pc p = .idle ∧ s.lock b = some p then some ((s.setDirty b).save b) else none
  | .bwrite p b => if s.pc p = .idle ∧ s.lock b = some p then some (((s.setDirty b).save b).goto p (.write b)) else none
  | .brelse p b =>
    if s.pc p = .idle ∧ s.lock b = some p ∧ s.unsaved b = false then
      some { s.goto p (.relse b) with lock := update s.lock b none }
    else none

/-- the links `binit` makes -/
def binit (n : ℕ) : Dll.Links (Fin n) := (List.finRange n).foldl Dll.Links.insert ⟨fun _ => none, fun _ => none⟩

/-- after `binit` -/
def Init (s : St n P D) : Prop :=
  s.links = binit n ∧ (∀ b, ∃ d, s.buf b = ⟨false, false, 0, 0, 0, d⟩) ∧ (∀ b, s.lock b = none) ∧
    (∀ p, s.pc p = .idle) ∧ (∀ b, s.unsaved b = false) ∧ s.store = s.disk

/-- all interleavings; size: blocks of the disk -/
def machine (n : ℕ) (P D : Type) [DecidableEq P] (size : ℕ) : Machine (St n P D) (Act n P D) := .ofStep Init (step size)

/-! ## What a step does -/

/-- all that a step can do -/
inductive Step (s : St n P D) : Act n P D → St n P D → Prop where
  | bread {p : P} {k : BitVec 32} (hpc : s.pc p = .idle) :
      Step s (.bread p k) { s with pc := update s.pc p (.bget k) }
  | hit {p : P} {k : BitVec 32} {b : Fin n} (hpc : s.pc p = .bget k) (hcached : s.cached ROOTDEV k = some b) :
      Step s (.move p) { s with
        buf := update s.buf b { s.buf b with refcnt := (s.buf b).refcnt + 1 }
        pc := update s.pc p (.lock b k) }
  | recycle {p : P} {k : BitVec 32} {b : Fin n} (hpc : s.pc p = .bget k) (hcached : s.cached ROOTDEV k = none)
      (hvictim : s.victim = some b) :
      Step s (.move p) { s with
        buf := update s.buf b { s.buf b with
          dev := ROOTDEV, blockno := k, valid := false, dirty := false, refcnt := 1 }
        pc := update s.pc p (.lock b k) }
  | lock {p : P} {k : BitVec 32} {b : Fin n} (hpc : s.pc p = .lock b k) (hfree : s.lock b = none) :
      Step s (.move p) { s with
        lock := update s.lock b (some p)
        pc := update s.pc p (.check b k) }
  | valid {p : P} {k : BitVec 32} {b : Fin n} (hpc : s.pc p = .check b k) (hvalid : (s.buf b).valid = true) :
      Step s (.move p) { s with pc := update s.pc p (.got b k) }
  | invalid {p : P} {k : BitVec 32} {b : Fin n} (hpc : s.pc p = .check b k) (hvalid : (s.buf b).valid = false) :
      Step s (.move p) { s with pc := update s.pc p (.read b k) }
  | fetch {p : P} {b : Fin n} {x : Pc n} (hpc : (s.pc p).disk = some (b, x)) (hvalid : (s.buf b).valid = false)
      (hdirty : (s.buf b).dirty = false) :
      Step s (.move p) { s with
        buf := update s.buf b { s.buf b with data := s.disk (s.buf b).blockno, valid := true }
        pc := update s.pc p x }
  | flush {p : P} {b : Fin n} {x : Pc n} (hpc : (s.pc p).disk = some (b, x)) (hdirty : (s.buf b).dirty = true) :
      Step s (.move p) { s with
        buf := update s.buf b { s.buf b with dirty := false, valid := true }
        disk := update s.disk (s.buf b).blockno (s.buf b).data
        pc := update s.pc p x }
  | got {p : P} {k : BitVec 32} {b : Fin n} (hpc : s.pc p = .got b k) :
      Step s (.move p) { s with pc := update s.pc p .idle }
  | relse {p : P} {b : Fin n} {links : Dll.Links (Fin n)} (hpc : s.pc p = .relse b)
      (hlinks : links = s.links ∨ links = (s.links.unlink b).insert b) :
      Step s (.move p) { s with
        buf := update s.buf b { s.buf b with refcnt := (s.buf b).refcnt - 1 }
        links
        pc := update s.pc p .idle }
  | modify {p : P} {b : Fin n} {d : D} (hpc : s.pc p = .idle) (hlock : s.lock b = some p) :
      Step s (.modify p b d) { s with
        buf := update s.buf b { s.buf b with data := d }
        unsaved := update s.unsaved b true }
  | logWrite {p : P} {b : Fin n} (hpc : s.pc p = .idle) (hlock : s.lock b = some p) :
      Step s (.logWrite p b) { s with
        buf := update s.buf b { s.buf b with dirty := true }
        store := update s.store (s.buf b).blockno (s.buf b).data
        unsaved := update s.unsaved b false }
  | bwrite {p : P} {b : Fin n} (hpc : s.pc p = .idle) (hlock : s.lock b = some p) :
      Step s (.bwrite p b) { s with
        buf := update s.buf b { s.buf b with dirty := true }
        store := update s.store (s.buf b).blockno (s.buf b).data
        unsaved := update s.unsaved b false
        pc := update s.pc p (.write b) }
  | brelse {p : P} {b : Fin n} (hpc : s.pc p = .idle) (hlock : s.lock b = some p) (hsaved : s.unsaved b = false) :
      Step s (.brelse p b) { s with
        lock := update s.lock b none
        pc := update s.pc p (.relse b) }

variable {size : ℕ} {s t u : St n P D} {p : P} {a : Act n P D}

omit [DecidableEq P] in
theorem save_setDirty (s : St n P D) (b : Fin n) : (s.setDirty b).save b = { s with
    buf := update s.buf b { s.buf b with dirty := true }
    store := update s.store (s.buf b).blockno (s.buf b).data
    unsaved := update s.unsaved b false } := by
  simp [St.setDirty, St.save, St.modify]

theorem iderw_cases {b : Fin n} {x : Pc n} (hpc : (s.pc p).disk = some (b, x)) (h : s.iderw size b = some u) :
    Step s (.move p) (u.goto p x) := by
  rw [St.iderw] at h
  split_ifs at h with hidle hdev hsize hdirty
  · cases h
    exact .flush hpc hdirty
  · rw [Bool.not_eq_true] at hdirty
    have hvalid : (s.buf b).valid = false := by
      cases hv : (s.buf b).valid
      · rfl
      · exact (hidle ⟨hv, hdirty⟩).elim
    cases h
    exact .fetch hpc hvalid hdirty

theorem move_cases (h : move size s p = some t) : Step s (.move p) t := by
  unfold move at h
  split at h
  · cases h
  · rename_i k hpc
    obtain ⟨⟨b, u⟩, hget, rfl⟩ := Option.map_eq_some_iff.1 h
    unfold St.bget at hget
    split at hget
    · rename_i b' hcached
      cases hget
      exact .hit hpc hcached
    · rename_i hcached
      split at hget
      · rename_i b' hvictim
        cases hget
        exact .recycle hpc hcached hvictim
      · cases hget
  · rename_i b k hpc
    split_ifs at h with hfree
    cases h
    exact .lock hpc hfree
  · rename_i b k hpc
    split_ifs at h with hvalid
    · cases h
      exact .valid hpc hvalid
    · cases h
      exact .invalid hpc (Bool.not_eq_true _ ▸ hvalid)
  · rename_i b k hpc
    obtain ⟨u, hu, rfl⟩ := Option.map_eq_some_iff.1 h
    exact iderw_cases (by rw [hpc]; rfl) hu
  · rename_i b k hpc
    cases h
    exact .got hpc
  · rename_i b hpc
    obtain ⟨u, hu, rfl⟩ := Option.map_eq_some_iff.1 h
    exact iderw_cases (by rw [hpc]; rfl) hu
  · rename_i b hpc
    rw [St.unref] at h
    split_ifs at h
    · cases h
      exact .relse hpc (.inr rfl)
    · cases h
      exact .relse hpc (.inl rfl)

theorem step_cases (h : step size s a = some t) : Step s a t := by
  cases a with
  | bread p k =>
    rw [step] at h
    split_ifs at h with hpc
    cases h
    exact .bread hpc
  | move p => exact move_cases h
  | modify p b d =>
    rw [step] at h
    split_ifs at h with hok
    cases h
    exact .modify hok.1 hok.2
  | logWrite p b =>
    rw [step] at h
    split_ifs at h with hok
    rw [← Option.some.inj h, save_setDirty]
    exact .logWrite hok.1 hok.2
  | bwrite p b =>
    rw [step] at h
    split_ifs at h with hok
    rw [← Option.some.inj h, save_setDirty]
    exact .bwrite hok.1 hok.2
  | brelse p b =>
    rw [step] at h
    split_ifs at h with hok
    cases h
    exact .brelse hok.1 hok.2.1 hok.2.2

end

end Xv6.Bio
