/-
Transactions over the buffer cache: `begin_op`, `log_write`, `end_op` and `commit` of `log.c`, call by call.

Every process is outside an operation, where it reads files holding one buffer at most (`fileread`), or between
`begin_op` and `end_op`, where it uses any buffers. The process whose `end_op` is the last runs `commit`: the loops of
`write_log` and `install_trans` and the two calls of `write_head`, with every `bread`, `bwrite` and `brelse` they make.
All of these are steps of the cache (`Bio.step`), so a run of this machine is a run of the cache.

The tests of `log_write` and its critical section are two steps, since the tests are made without the lock. Steps that
end in a panic, or that would write past the end of `log.lh.block`, are not possible.

History variable: `flushed`, the blocks that the running `commit` has handed to `bwrite`.
-/
import Xv6.Bio.Cache

namespace Xv6.Txn

/-- the loop of `write_log` and that of `install_trans` -/
inductive Loop where
  | writeLog
  | installTrans
deriving DecidableEq, Repr

/-- one turn of such a loop; b: the buffer of the log block, c: that of the home block -/
inductive Turn (n : ℕ) where
  /-- the test of the loop, and reading the log block -/
  | log
  /-- reading the home block -/
  | home (b : Fin n)
  /-- about to copy -/
  | copy (b c : Fin n)
  /-- about to write -/
  | write (b c : Fin n)
  /-- about to release the source -/
  | relse (b c : Fin n)
  /-- about to release the destination -/
  | last (b c : Fin n)
deriving DecidableEq, Repr

/-- `write_head` -/
inductive Head (n : ℕ) where
  /-- reading the header block -/
  | read
  | fill (b : Fin n)
  | write (b : Fin n)
  | relse (b : Fin n)
deriving DecidableEq, Repr

/-- where `commit` is -/
inductive Pos (n : ℕ) where
  | loop (d : Loop) (tail : ℕ) (x : Turn n)
  /-- again: the second call, after `log.lh.n = 0` -/
  | head (again : Bool) (x : Head n)
  | done
deriving DecidableEq, Repr

/-- where a process is with respect to operations -/
inductive Role (n : ℕ) where
  | out
  | op
  /-- in `log_write(b)`, past the tests -/
  | logging (b : Fin n)
deriving DecidableEq, Repr

structure St (n : ℕ) (P D : Type) where
  bio : Bio.St n P D
  /-- `log.lh` -/
  lh : List (BitVec 32)
  outstanding : ℕ
  /-- `log.committing`, and where the committing process is -/
  committing : Option (P × Pos n)
  role : P → Role n
  flushed : List (BitVec 32)

/-- what the code finds on the disk -/
structure Disk (D : Type) where
  /-- blocks of the disk -/
  size : ℕ
  logstart : BitVec 32
  /-- the contents of a header block -/
  header : List (BitVec 32) → D

inductive Act (n : ℕ) (P D : Type) where
  | beginOp (p : P)
  | bread (p : P) (k : BitVec 32)
  | modify (p : P) (b : Fin n) (d : D)
  /-- the tests of `log_write(b)` -/
  | logWrite (p : P) (b : Fin n)
  /-- its critical section -/
  | logAdd (p : P)
  | brelse (p : P) (b : Fin n)
  | endOp (p : P)
  /-- p goes on in `commit` -/
  | commit (p : P)
  /-- the next step of p within a call -/
  | move (p : P)

section

variable {n : ℕ} {P D : Type} [DecidableEq P]

/-- the buffer copied from -/
def Loop.src (d : Loop) (b c : Fin n) : Fin n := match d with | .writeLog => c | .installTrans => b

/-- the buffer copied to -/
def Loop.dst (d : Loop) (b c : Fin n) : Fin n := match d with | .writeLog => b | .installTrans => c

/-- `bread` has returned b -/
def Turn.ret (b : Fin n) : Turn n → Turn n
  | .log => .home b
  | .home b' => .copy b' b
  | x => x

def Head.ret (b : Fin n) : Head n → Head n
  | .read => .fill b
  | x => x

def Pos.ret (b : Fin n) : Pos n → Pos n
  | .loop d tail x => .loop d tail (x.ret b)
  | .head again x => .head again (x.ret b)
  | .done => .done

/-- where p is after a step within a call -/
def Pos.moved (x : Pos n) : Bio.Pc n → Pos n
  | .got b _ => x.ret b
  | _ => x

/-- p runs `commit` -/
def St.commits (s : St n P D) (p : P) : Bool := s.committing.any (·.1 = p)

/-- p is between calls and holds no buffer -/
def St.Free (s : St n P D) (p : P) : Prop := s.bio.pc p = .idle ∧ ∀ b, s.bio.lock b ≠ some p

instance (s : St n P D) (p : P) : Decidable (s.Free p) := inferInstanceAs (Decidable (_ ∧ _))

/-- the call that `commit` makes, and where it goes on; none: no call -/
def St.call (disk : Disk D) (s : St n P D) (p : P) : Pos n → Option (Bio.Act n P D × Pos n)
  | .loop d tail .log =>
    if tail < s.lh.length then some (.bread p (disk.logstart + (tail : BitVec 32) + 1), .loop d tail .log) else none
  | .loop d tail (.home b) => some (.bread p (s.lh.getD tail 0), .loop d tail (.home b))
  | .loop d tail (.copy b c) =>
    some (.modify p (d.dst b c) (s.bio.buf (d.src b c)).data, .loop d tail (.write b c))
  | .loop d tail (.write b c) => some (.bwrite p (d.dst b c), .loop d tail (.relse b c))
  | .loop d tail (.relse b c) => some (.brelse p (d.src b c), .loop d tail (.last b c))
  | .loop d tail (.last b c) => some (.brelse p (d.dst b c), .loop d (tail + 1) .log)
  | .head again .read => some (.bread p disk.logstart, .head again .read)
  | .head again (.fill b) => some (.modify p b (disk.header s.lh), .head again (.write b))
  | .head again (.write b) => some (.bwrite p b, .head again (.relse b))
  | .head again (.relse b) => some (.brelse p b, if again then .done else .loop .installTrans 0 .log)
  | .done => none

/-- the blocks that have been handed to `bwrite` after a call -/
def St.flush (s : St n P D) : Bio.Act n P D → List (BitVec 32)
  | .bwrite _ b => (s.bio.buf b).blockno :: s.flushed
  | _ => s.flushed

/-- `commit` at the end of a loop, and `end_op` after `commit` -/
def St.pass (s : St n P D) (p : P) : Pos n → Option (St n P D)
  | .loop .writeLog _ _ => some { s with committing := some (p, .head false .read) }
  | .loop .installTrans _ _ => some { s with lh := [], committing := some (p, .head true .read) }
  | .head _ _ => none
  | .done => some { s with committing := none, flushed := [] }

/-- p goes on in `commit` -/
def St.commit (disk : Disk D) (s : St n P D) (p : P) (x : Pos n) : Option (St n P D) :=
  match s.call disk p x with
  | some (a, y) =>
    (Bio.step disk.size s.bio a).map fun bio => { s with bio, committing := some (p, y), flushed := s.flush a }
  | none => s.pass p x

/-- the loop of `log_write`: log absorption -/
def absorb (lh : List (BitVec 32)) (k : BitVec 32) : List (BitVec 32) := if lh.contains k then lh else lh ++ [k]

/-- the critical section of `end_op` -/
def St.endOp (s : St n P D) (p : P) : St n P D :=
  let s := { s with outstanding := s.outstanding - 1, role := Function.update s.role p .out }
  if s.outstanding = 0 then
    { s with committing := some (p, if 0 < s.lh.length then .loop .writeLog 0 .log else .done) }
  else s

def step (disk : Disk D) (s : St n P D) : Act n P D → Option (St n P D)
  | .beginOp p =>
    if s.role p = .out ∧ s.Free p ∧ s.committing = none ∧ s.lh.length + (s.outstanding + 1) * MAXOPBLOCKS ≤ LOGSIZE then
      some { s with outstanding := s.outstanding + 1, role := Function.update s.role p .op }
    else none
  | .bread p k =>
    if s.commits p = false ∧ (s.role p = .op ∨ s.role p = .out ∧ s.Free p) then
      (Bio.step disk.size s.bio (.bread p k)).map fun bio => { s with bio }
    else none
  | .modify p b d =>
    if s.role p = .op then (Bio.step disk.size s.bio (.modify p b d)).map fun bio => { s with bio } else none
  | .logWrite p b =>
    if s.role p = .op ∧ s.bio.pc p = .idle ∧ s.bio.lock b = some p ∧
        s.lh.length < LOGSIZE ∧ (s.lh.length : ℤ) < nlog - 1 ∧ 1 ≤ s.outstanding then
      some { s with role := Function.update s.role p (.logging b) }
    else none
  | .logAdd p =>
    match s.role p with
    | .logging b =>
      let lh := absorb s.lh (s.bio.buf b).blockno
      if lh.length ≤ LOGSIZE then
        (Bio.step disk.size s.bio (.logWrite p b)).map fun bio =>
          { s with bio, lh, role := Function.update s.role p .op }
      else none
    | _ => none
  | .brelse p b =>
    if s.commits p = false ∧ (s.role p = .op ∨ s.role p = .out) then
      (Bio.step disk.size s.bio (.brelse p b)).map fun bio => { s with bio }
    else none
  | .endOp p => if s.role p = .op ∧ s.Free p ∧ s.committing = none then some (s.endOp p) else none
  | .commit p =>
    match s.committing with
    | some (q, x) => if q = p ∧ s.bio.pc p = .idle then s.commit disk p x else none
    | none => none
  | .move p =>
    (Bio.step disk.size s.bio (.move p)).map fun bio =>
      { s with bio, committing := s.committing.map fun (q, x) => (q, if q = p then x.moved (s.bio.pc p) else x) }

/-- after `initlog`: the cache has been used, nothing in it is held or dirty -/
def Init (disk : Disk D) (s : St n P D) : Prop :=
  (Bio.machine n P D disk.size).Reach s.bio ∧ (∀ p, s.Free p) ∧ (∀ b, (s.bio.buf b).dirty = false) ∧
    s.lh = [] ∧ s.outstanding = 0 ∧ s.committing = none ∧ (∀ p, s.role p = .out) ∧ s.flushed = []

/-- all interleavings -/
def machine (n : ℕ) (P : Type) [DecidableEq P] (disk : Disk D) : Machine (St n P D) (Act n P D) :=
  .ofStep (Init disk) (step disk)

/-! ## What a step does -/

/-- all that a step can do -/
inductive Step (disk : Disk D) (s : St n P D) : Act n P D → St n P D → Prop where
  | beginOp {p : P} (hrole : s.role p = .out) (hcom : s.committing = none) :
      Step disk s (.beginOp p) { s with outstanding := s.outstanding + 1, role := Function.update s.role p .op }
  /-- a call of p, not the committing process, that only uses the cache -/
  | use {p : P} {α : Act n P D} {a : Bio.Act n P D} {bio : Bio.St n P D} (hcom : s.commits p = false ∨ s.role p = .op)
      (ha : (∃ k, a = .bread p k) ∨ (∃ b d, a = .modify p b d) ∨ ∃ b, a = .brelse p b) (hbio : Bio.Step s.bio a bio) :
      Step disk s α { s with bio }
  | logWrite {p : P} {b : Fin n} (hrole : s.role p = .op) :
      Step disk s (.logWrite p b) { s with role := Function.update s.role p (.logging b) }
  | logAdd {p : P} {b : Fin n} {bio : Bio.St n P D} (hrole : s.role p = .logging b)
      (hbio : Bio.Step s.bio (.logWrite p b) bio) :
      Step disk s (.logAdd p)
        { s with bio, lh := absorb s.lh (s.bio.buf b).blockno, role := Function.update s.role p .op }
  | leave {p : P} (hrole : s.role p = .op) :
      Step disk s (.endOp p) { s with outstanding := s.outstanding - 1, role := Function.update s.role p .out }
  | last {p : P} {x : Pos n} (hrole : s.role p = .op) (hlast : s.outstanding - 1 = 0) (hfree : s.Free p)
      (hcom : s.committing = none) (hx : x = .loop .writeLog 0 .log ∨ s.lh = [] ∧ x = .done) :
      Step disk s (.endOp p) { s with
        outstanding := s.outstanding - 1, role := Function.update s.role p .out, committing := some (p, x) }
  | call {p : P} {x y : Pos n} {a : Bio.Act n P D} {bio : Bio.St n P D} (hcom : s.committing = some (p, x))
      (hcall : s.call disk p x = some (a, y)) (hbio : Bio.Step s.bio a bio) :
      Step disk s (.commit p) { s with bio, committing := some (p, y), flushed := s.flush a }
  | logged {p : P} {tail : ℕ} {x : Turn n} (hcom : s.committing = some (p, .loop .writeLog tail x)) :
      Step disk s (.commit p) { s with committing := some (p, .head false .read) }
  | installed {p : P} {tail : ℕ} (hcom : s.committing = some (p, .loop .installTrans tail .log))
      (htail : s.lh.length ≤ tail) :
      Step disk s (.commit p) { s with lh := [], committing := some (p, .head true .read) }
  | done {p : P} (hcom : s.committing = some (p, .done)) (hidle : s.bio.pc p = .idle) :
      Step disk s (.commit p) { s with committing := none, flushed := [] }
  | move {p : P} {bio : Bio.St n P D} {c : Option (P × Pos n)} (hbio : Bio.Step s.bio (.move p) bio)
      (hcom : s.commits p = false) (hc : c = s.committing) :
      Step disk s (.move p) { s with bio, committing := c }
  | moved {p : P} {x y : Pos n} {bio : Bio.St n P D} (hbio : Bio.Step s.bio (.move p) bio)
      (hcom : s.committing = some (p, x)) (hy : y = x.moved (s.bio.pc p)) :
      Step disk s (.move p) { s with bio, committing := some (p, y) }

variable {disk : Disk D} {s t : St n P D} {p : P} {α : Act n P D} {x : Pos n}

theorem commits_false (h : s.commits p = false) : s.committing ≠ some (p, x) := by
  intro hx
  rw [St.commits, hx] at h
  simp at h

theorem commit_cases (hcom : s.committing = some (p, x)) (hidle : s.bio.pc p = .idle) (h : s.commit disk p x = some t) :
    Step disk s (.commit p) t := by
  unfold St.commit at h
  cases hcall : s.call disk p x with
  | some c =>
    rw [hcall] at h
    obtain ⟨bio, hbio, rfl⟩ := Option.map_eq_some_iff.1 h
    exact .call hcom hcall (Bio.step_cases hbio)
  | none =>
    rw [hcall] at h
    cases x with
    | loop d tail y =>
      cases d with
      | writeLog =>
        cases h
        exact .logged hcom
      | installTrans =>
        cases h
        -- only the test of the loop makes no call
        cases y with
        | log =>
          rw [St.call] at hcall
          split_ifs at hcall with htail
          exact .installed hcom (not_lt.1 htail)
        | _ => cases hcall
    | head again y => cases h
    | done =>
      cases h
      exact .done hcom hidle

theorem step_cases (h : step disk s α = some t) : Step disk s α t := by
  cases α with
  | beginOp p =>
    rw [step] at h
    split_ifs at h with hp
    cases h
    exact .beginOp hp.1 hp.2.2.1
  | bread p k =>
    rw [step] at h
    split_ifs at h with hp
    obtain ⟨bio, hbio, rfl⟩ := Option.map_eq_some_iff.1 h
    exact .use (.inl hp.1) (.inl ⟨k, rfl⟩) (Bio.step_cases hbio)
  | modify p b d =>
    rw [step] at h
    split_ifs at h with hp
    obtain ⟨bio, hbio, rfl⟩ := Option.map_eq_some_iff.1 h
    exact .use (.inr hp) (.inr (.inl ⟨b, d, rfl⟩)) (Bio.step_cases hbio)
  | logWrite p b =>
    rw [step] at h
    split_ifs at h with hp
    cases h
    exact .logWrite hp.1
  | logAdd p =>
    rw [step] at h
    cases hrole : s.role p with
    | logging b =>
      simp only [hrole] at h
      split_ifs at h with hp
      obtain ⟨bio, hbio, rfl⟩ := Option.map_eq_some_iff.1 h
      exact .logAdd hrole (Bio.step_cases hbio)
    | _ => simp only [hrole, reduceCtorEq] at h
  | brelse p b =>
    rw [step] at h
    split_ifs at h with hp
    obtain ⟨bio, hbio, rfl⟩ := Option.map_eq_some_iff.1 h
    exact .use (.inl hp.1) (.inr (.inr ⟨b, rfl⟩)) (Bio.step_cases hbio)
  | endOp p =>
    rw [step] at h
    split_ifs at h with hp
    cases h
    obtain ⟨hrole, hfree, hcom⟩ := hp
    simp only [St.endOp]
    split_ifs with hlast hlh
    · exact .last hrole hlast hfree hcom (.inl rfl)
    · exact .last hrole hlast hfree hcom (.inr ⟨List.length_eq_zero_iff.1 (Nat.eq_zero_of_not_pos hlh), rfl⟩)
    · exact .leave hrole
  | commit p =>
    rw [step] at h
    cases hcom : s.committing with
    | none => simp only [hcom, reduceCtorEq] at h
    | some c =>
      simp only [hcom] at h
      split_ifs at h with hp
      obtain ⟨rfl, hidle⟩ := hp
      exact commit_cases hcom hidle h
  | move p =>
    rw [step] at h
    obtain ⟨bio, hbio, rfl⟩ := Option.map_eq_some_iff.1 h
    cases hcom : s.committing with
    | none => exact .move (Bio.step_cases hbio) (by rw [St.commits, hcom]; rfl) hcom.symm
    | some c =>
      obtain ⟨q, x⟩ := c
      simp only [Option.map_some]
      split_ifs with hq
      · subst hq
        exact .moved (Bio.step_cases hbio) hcom rfl
      · refine .move (Bio.step_cases hbio) ?_ hcom.symm
        rw [St.commits, hcom]
        simpa using hq

end

end Xv6.Txn
