/-
Freeing and reallocating inodes (`iput`, `ialloc`, `iget`, `ilock` of `fs.c`).

N cache entries, processes of any type P, the inodes of one disk. A step is one critical section of `icache.lock`, one
operation on an inode's sleep lock, or one access to an inode block under the buffer's lock (with the assignments to
the in-memory inode around it); a run is any interleaving. Processes call `ialloc` and then `ilock` on the result, use
the inode under its lock (`edit`, `iupdate`), unlock it after saving what they changed, lock it again, or drop it with
`iput`. `iput` frees the inode on the disk if this was the last reference and nlink is 0; it does so holding neither
`icache.lock` nor the sleep lock, and sets `ip->flags = 0` only when it has `icache.lock` again.

Steps that end in a panic are not possible. The blocks of the inode (`bfree`) are left out.
-/
import Xv6.Core.Machine
import Xv6.Fs.Dinode

namespace Xv6.Icache

open Function

/-- `struct inode` without the sleep lock -/
structure Entry where
  inum : ℕ
  ref : ℕ
  /-- I_VALID -/
  valid : Bool
  ino : Dinode

/-- where a process is -/
inductive Pc (N : ℕ) where
  /-- has no reference -/
  | idle
  /-- `ialloc`: about to read inode inum -/
  | scan (inum : ℕ) (type : BitVec 16)
  /-- `ialloc`: has marked inode inum allocated on the disk, about to call `iget` -/
  | iget (inum : ℕ)
  /-- has a reference -/
  | has (e : Fin N)
  /-- `ilock`: in acquiresleep -/
  | lock (e : Fin N)
  /-- `ilock`: about to test I_VALID -/
  | test (e : Fin N)
  /-- `ilock`: about to read the inode from the disk -/
  | read (e : Fin N)
  /-- `ilock` has returned; unsaved: the inode was modified since, or since `iupdate` -/
  | locked (e : Fin N) (unsaved : Bool)
  /-- `iput`: in `itrunc`, about to free block i -/
  | trunc (e : Fin N) (i : ℕ)
  /-- `iput`: about to set the type to 0 and call `iupdate` -/
  | free (e : Fin N)
  /-- `iput`: about to acquire `icache.lock` again -/
  | clear (e : Fin N)
deriving DecidableEq, Repr

structure St (N : ℕ) (P : Type) where
  entry : Fin N → Entry
  /-- the holder of an entry's sleep lock -/
  lock : Fin N → Option P
  /-- the inodes on the disk, as the buffer cache shows them -/
  disk : ℕ → Dinode
  pc : P → Pc N

inductive Act (P : Type) where
  /-- calls `ialloc(type)` -/
  | ialloc (p : P) (type : BitVec 16)
  /-- calls `ilock` -/
  | ilock (p : P)
  /-- assigns to fields of the inode it has locked -/
  | edit (p : P) (ino : Dinode)
  | iupdate (p : P)
  | iunlock (p : P)
  /-- calls `iput` -/
  | iput (p : P)
  /-- the next step of p -/
  | move (p : P)

section

variable {N : ℕ} {P : Type} [DecidableEq P]

/-- the loop of `iget`: the entry of the inode, or else an empty slot -/
def St.find (s : St N P) (inum : ℕ) : Option (Fin N) :=
  ((List.finRange N).find? fun e => 0 < (s.entry e).ref ∧ (s.entry e).inum = inum).or
    ((List.finRange N).find? fun e => (s.entry e).ref = 0)

/-- the entry after `iget` has found it -/
def Entry.get (x : Entry) (inum : ℕ) : Entry :=
  if 0 < x.ref then { x with ref := x.ref + 1 } else { x with inum, ref := 1, valid := false }

/-- the next step of p; ninodes: inodes of the disk -/
def move (ninodes : ℕ) (s : St N P) (p : P) : Option (St N P) :=
  match s.pc p with
  | .scan inum type =>
    if inum < ninodes then
      if (s.disk inum).type = 0 then
        some { s with disk := update s.disk inum (.fresh type), pc := update s.pc p (.iget inum) }
      else some { s with pc := update s.pc p (.scan (inum + 1) type) }
    else none
  | .iget inum =>
    (s.find inum).map fun e => { s with
      entry := update s.entry e ((s.entry e).get inum), pc := update s.pc p (.lock e) }
  | .lock e =>
    if s.lock e = none then
      some { s with lock := update s.lock e (some p), pc := update s.pc p (.test e) }
    else none
  | .test e =>
    some { s with pc := update s.pc p (if (s.entry e).valid then .locked e false else .read e) }
  | .read e =>
    if (s.disk (s.entry e).inum).type = 0 then none
    else some { s with
      entry := update s.entry e { s.entry e with ino := s.disk (s.entry e).inum, valid := true }
      pc := update s.pc p (.locked e false) }
  | .trunc e i =>
    let x := s.entry e
    if hi : i < NDIRECT + 1 then
      some { s with
        entry := update s.entry e { x with ino.addrs := update x.ino.addrs ⟨i, hi⟩ 0 }
        pc := update s.pc p (.trunc e (i + 1)) }
    else
      some { s with
        entry := update s.entry e { x with ino.size := 0 }
        disk := update s.disk x.inum { x.ino with size := 0 }
        pc := update s.pc p (.free e) }
  | .free e =>
    let x := s.entry e
    some { s with
      entry := update s.entry e { x with ino.type := 0 }
      disk := update s.disk x.inum { x.ino with type := 0 }
      pc := update s.pc p (.clear e) }
  | .clear e =>
    some { s with
      entry := update s.entry e { s.entry e with valid := false, ref := (s.entry e).ref - 1 }
      pc := update s.pc p .idle }
  | .idle | .has _ | .locked _ _ => none

def step (ninodes : ℕ) (s : St N P) : Act P → Option (St N P)
  | .ialloc p type =>
    if s.pc p = .idle ∧ type ≠ 0 then some { s with pc := update s.pc p (.scan 1 type) } else none
  | .ilock p =>
    match s.pc p with
    | .has e => if (s.entry e).ref < 1 then none else some { s with pc := update s.pc p (.lock e) }
    | _ => none
  | .edit p ino =>
    match s.pc p with
    | .locked e _ =>
      some { s with
        entry := update s.entry e { s.entry e with ino := { ino with type := (s.entry e).ino.type } }
        pc := update s.pc p (.locked e true) }
    | _ => none
  | .iupdate p =>
    match s.pc p with
    | .locked e _ =>
      some { s with
        disk := update s.disk (s.entry e).inum (s.entry e).ino
        pc := update s.pc p (.locked e false) }
    | _ => none
  | .iunlock p =>
    match s.pc p with
    | .locked e false =>
      if (s.entry e).ref < 1 then none
      else some { s with lock := update s.lock e none, pc := update s.pc p (.has e) }
    | _ => none
  | .iput p =>
    match s.pc p with
    | .has e =>
      if (s.entry e).ref = 1 ∧ (s.entry e).valid = true ∧ (s.entry e).ino.nlink = 0 then
        some { s with pc := update s.pc p (.trunc e 0) }
      else some { s with
        entry := update s.entry e { s.entry e with ref := (s.entry e).ref - 1 }
        pc := update s.pc p .idle }
    | _ => none
  | .move p => move ninodes s p

/-- the entry a process refers to -/
def Pc.ref : Pc N → Option (Fin N)
  | .has e | .lock e | .test e | .read e | .locked e _ | .trunc e _ | .free e | .clear e => some e
  | .idle | .scan _ _ | .iget _ => none

def Pc.count (e : Fin N) (x : Pc N) : ℕ := if x.ref = some e then 1 else 0

/-- nobody is in the middle of a call; every entry in use is one process's or more, and agrees with the disk -/
def Init [Fintype P] (s : St N P) : Prop :=
  (∀ p, s.pc p = .idle ∨ ∃ e, s.pc p = .has e) ∧ (∀ e, s.lock e = none) ∧
    (∀ e, (s.entry e).ref = ∑ p, (s.pc p).count e) ∧
    (∀ e e', 0 < (s.entry e).ref → 0 < (s.entry e').ref → (s.entry e).inum = (s.entry e').inum → e = e') ∧
    ∀ e, 0 < (s.entry e).ref → (s.disk (s.entry e).inum).type ≠ 0 ∧
      ((s.entry e).valid = true → (s.entry e).ino = s.disk (s.entry e).inum)

/-- all interleavings -/
def machine (N ninodes : ℕ) (P : Type) [Fintype P] [DecidableEq P] : Machine (St N P) (Act P) := .ofStep Init (step ninodes)

/-! ## What a step does -/

/-- all that a step can do -/
inductive Step (s : St N P) : Act P → St N P → Prop where
  | ialloc {p : P} {type : BitVec 16} (hpc : s.pc p = .idle) (htype : type ≠ 0) :
      Step s (.ialloc p type) { s with pc := update s.pc p (.scan 1 type) }
  | skip {p : P} {inum : ℕ} {type : BitVec 16} (hpc : s.pc p = .scan inum type) :
      Step s (.move p) { s with pc := update s.pc p (.scan (inum + 1) type) }
  | take {p : P} {inum : ℕ} {type : BitVec 16} (hpc : s.pc p = .scan inum type) (hfree : (s.disk inum).type = 0) :
      Step s (.move p)
        { s with disk := update s.disk inum (.fresh type), pc := update s.pc p (.iget inum) }
  | hit {p : P} {inum : ℕ} {e : Fin N} (hpc : s.pc p = .iget inum) (href : 0 < (s.entry e).ref)
      (hinum : (s.entry e).inum = inum) :
      Step s (.move p) { s with
        entry := update s.entry e { s.entry e with ref := (s.entry e).ref + 1 }
        pc := update s.pc p (.lock e) }
  | recycle {p : P} {inum : ℕ} {e : Fin N} (hpc : s.pc p = .iget inum) (href : (s.entry e).ref = 0)
      (hno : ∀ e', 0 < (s.entry e').ref → (s.entry e').inum ≠ inum) :
      Step s (.move p) { s with
        entry := update s.entry e { s.entry e with inum, ref := 1, valid := false }
        pc := update s.pc p (.lock e) }
  | ilock {p : P} {e : Fin N} (hpc : s.pc p = .has e) :
      Step s (.ilock p) { s with pc := update s.pc p (.lock e) }
  | lock {p : P} {e : Fin N} (hpc : s.pc p = .lock e) (hfree : s.lock e = none) :
      Step s (.move p) { s with lock := update s.lock e (some p), pc := update s.pc p (.test e) }
  | valid {p : P} {e : Fin N} (hpc : s.pc p = .test e) (hvalid : (s.entry e).valid = true) :
      Step s (.move p) { s with pc := update s.pc p (.locked e false) }
  | invalid {p : P} {e : Fin N} (hpc : s.pc p = .test e) (hvalid : (s.entry e).valid = false) :
      Step s (.move p) { s with pc := update s.pc p (.read e) }
  | read {p : P} {e : Fin N} (hpc : s.pc p = .read e) :
      Step s (.move p) { s with
        entry := update s.entry e { s.entry e with ino := s.disk (s.entry e).inum, valid := true }
        pc := update s.pc p (.locked e false) }
  | edit {p : P} {e : Fin N} {d : Bool} {ino : Dinode} (hpc : s.pc p = .locked e d) (htype : ino.type = (s.entry e).ino.type)
      {α : Act P} : Step s α { s with
        entry := update s.entry e { s.entry e with ino }
        pc := update s.pc p (.locked e true) }
  | iupdate {p : P} {e : Fin N} {d : Bool} (hpc : s.pc p = .locked e d) :
      Step s (.iupdate p) { s with
        disk := update s.disk (s.entry e).inum (s.entry e).ino
        pc := update s.pc p (.locked e false) }
  | iunlock {p : P} {e : Fin N} (hpc : s.pc p = .locked e false) :
      Step s (.iunlock p) { s with lock := update s.lock e none, pc := update s.pc p (.has e) }
  | last {p : P} {e : Fin N} (hpc : s.pc p = .has e) (href : (s.entry e).ref = 1) (hvalid : (s.entry e).valid = true) :
      Step s (.iput p) { s with pc := update s.pc p (.trunc e 0) }
  | put {p : P} {e : Fin N} (hpc : s.pc p = .has e) :
      Step s (.iput p) { s with
        entry := update s.entry e { s.entry e with ref := (s.entry e).ref - 1 }
        pc := update s.pc p .idle }
  | addr {p : P} {e : Fin N} {i : ℕ} {ino : Dinode} (hpc : s.pc p = .trunc e i) (htype : ino.type = (s.entry e).ino.type) :
      Step s (.move p) { s with
        entry := update s.entry e { s.entry e with ino }
        pc := update s.pc p (.trunc e (i + 1)) }
  | size {p : P} {e : Fin N} {i : ℕ} {ino : Dinode} (hpc : s.pc p = .trunc e i) (htype : ino.type = (s.entry e).ino.type) :
      Step s (.move p) { s with
        entry := update s.entry e { s.entry e with ino }
        disk := update s.disk (s.entry e).inum ino
        pc := update s.pc p (.free e) }
  | free {p : P} {e : Fin N} {ino : Dinode} (hpc : s.pc p = .free e) (htype : ino.type = 0) :
      Step s (.move p) { s with
        entry := update s.entry e { s.entry e with ino }
        disk := update s.disk (s.entry e).inum ino
        pc := update s.pc p (.clear e) }
  | clear {p : P} {e : Fin N} (hpc : s.pc p = .clear e) :
      Step s (.move p) { s with
        entry := update s.entry e { s.entry e with valid := false, ref := (s.entry e).ref - 1 }
        pc := update s.pc p .idle }

variable {ninodes : ℕ} {s t : St N P} {p : P} {a : Act P}

omit [DecidableEq P] in
/-- what `iget` finds: the entry in use for the inode, or, if there is none, an empty slot -/
theorem find_cases {inum : ℕ} {e : Fin N} (h : s.find inum = some e) :
    0 < (s.entry e).ref ∧ (s.entry e).inum = inum ∨
      (s.entry e).ref = 0 ∧ ∀ e', 0 < (s.entry e').ref → (s.entry e').inum ≠ inum := by
  unfold St.find at h
  cases hhit : (List.finRange N).find? fun e => 0 < (s.entry e).ref ∧ (s.entry e).inum = inum with
  | some e' =>
    rw [hhit] at h
    cases h
    exact .inl (by simpa using List.find?_some hhit)
  | none =>
    rw [hhit] at h
    refine .inr ⟨by simpa using List.find?_some h, fun e' href hinum => ?_⟩
    have := List.find?_eq_none.1 hhit e' (List.mem_finRange e')
    simp [href, hinum] at this

theorem move_cases (h : move ninodes s p = some t) : Step s (.move p) t := by
  unfold move at h
  split at h
  · next inum type hpc =>
    split_ifs at h with hlt hfree
    · cases h
      exact .take hpc hfree
    · cases h
      exact .skip hpc
  · next inum hpc =>
    obtain ⟨e, he, rfl⟩ := Option.map_eq_some_iff.1 h
    rcases find_cases he with ⟨href, hinum⟩ | ⟨href, hno⟩
    · rw [Entry.get, if_pos href]
      exact .hit hpc href hinum
    · rw [Entry.get, if_neg (by omega)]
      exact .recycle hpc href hno
  · next e hpc =>
    split_ifs at h with hfree
    cases h
    exact .lock hpc hfree
  · next e hpc =>
    cases h
    split_ifs with hvalid
    · exact .valid hpc hvalid
    · exact .invalid hpc (Bool.eq_false_iff.2 hvalid)
  · next e hpc =>
    split_ifs at h
    cases h
    exact .read hpc
  · next e i hpc =>
    split_ifs at h
    · cases h
      exact .addr hpc rfl
    · cases h
      exact .size hpc rfl
  · next e hpc =>
    cases h
    exact .free hpc rfl
  · next e hpc =>
    cases h
    exact .clear hpc
  all_goals cases h

theorem step_cases (h : step ninodes s a = some t) : Step s a t := by
  cases a with
  | ialloc p type =>
    rw [step] at h
    split_ifs at h with hp
    cases h
    exact .ialloc hp.1 hp.2
  | ilock p =>
    rw [step] at h
    split at h
    · next e hpc =>
      split_ifs at h
      cases h
      exact .ilock hpc
    · cases h
  | edit p ino =>
    rw [step] at h
    split at h
    · next e d hpc =>
      cases h
      exact .edit hpc (by rfl)
    · cases h
  | iupdate p =>
    rw [step] at h
    split at h
    · next e d hpc =>
      cases h
      exact .iupdate hpc
    · cases h
  | iunlock p =>
    rw [step] at h
    split at h
    · next e hpc =>
      split_ifs at h
      cases h
      exact .iunlock hpc
    · cases h
  | iput p =>
    rw [step] at h
    split at h
    · next e hpc =>
      split_ifs at h with hlast
      · cases h
        exact .last hpc hlast.1 hlast.2.1
      · cases h
        exact .put hpc
    · cases h
  | move p => exact move_cases h

end

end Xv6.Icache
