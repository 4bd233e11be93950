/-
The shell runs a command (`runcmd` of `sh.c`).

A process is its descriptors. `fork` copies them, so the processes of a command do not disturb one another, and `runcmd`
is given by what it and its descendants do with the descriptors they have by then: call `exec`, wait for a child, print
a message. A pipe is named after the node of the tree that makes it. Any call may fail for reasons of its own (`World`).

- `runcmd_jobs`: if no call fails, each program runs with the input and output that the tree assigns to it, with the
  shell's descriptor 2, and with no other; so do the processes that wait;
- `pipe_ends`: whatever fails, for any line the write end of a pipe is open only on its left side and the read end only
  on its right side, so the reader sees the end of its input once the processes on the left have ended.
-/
import Xv6.Param
import Xv6.Sh.Parse

namespace Xv6.Sh

open Xv6.Bytes Function

variable {ω : Type}

/-! ## Descriptors -/

/-- the way to a node from the root of the tree, last step first; true: to the right -/
abbrev Place := List Bool

inductive Obj (ω : Type) where
  /-- what the shell itself has there -/
  | own (fd : ℕ)
  | file (name : ω) (mode : ℕ)
  /-- an end of the pipe of the node at p. false: the left side writes to it; true: the right side reads from it -/
  | pipe (p : Place) (side : Bool)

abbrev Fds (ω : Type) := Fin NOFILE → Option (Obj ω)

def close (fds : Fds ω) (fd : ℕ) : Fds ω := fun d => if d.val = fd then none else fds d

/-- the lowest descriptor that is free -/
def fdalloc (fds : Fds ω) (x : Obj ω) : Option (Fin NOFILE × Fds ω) :=
  ((List.finRange NOFILE).find? fun d => (fds d).isNone).map fun d => (d, update fds d (some x))

def dup (fds : Fds ω) (fd : Fin NOFILE) : Fds ω :=
  ((fds fd).bind (fdalloc fds)).elim fds Prod.snd

def pipe (fds : Fds ω) (q : Place) : Option ((Fin NOFILE × Fin NOFILE) × Fds ω) := do
  let r ← fdalloc fds (.pipe q true)
  let w ← fdalloc r.2 (.pipe q false)
  return ((r.1, w.1), w.2)

def stderr : Fin NOFILE := ⟨2, Nat.le_of_ble_eq_true rfl⟩

/-- 0, 1 and 2 are open and nothing else -/
def std (i o e : Obj ω) : Fds ω := fun d => [i, o, e][d.val]?

def wide (i o e : Obj ω) (q : Place) : Fds ω := fun d => [i, o, e, .pipe q true, .pipe q false][d.val]?

/-! ## Running a command -/

/-- which calls fail, by the node that makes them; fork: its first and its second one -/
structure World where
  exec : Place → Bool
  opens : Place → Bool
  pipe : Place → Bool
  fork : Place → Bool → Bool

/-- the texts of `printf(2, ..)` and `panic` -/
inductive Msg (ω : Type) where
  | execFailed (argv0 : ω)
  | openFailed (file : ω)
  | pipe
  | fork

inductive Act (ω : Type) where
  | exec (argv : List ω)
  | wait
  | print (m : Msg ω)

/-- what the process at a node does, and its descriptors then -/
structure Event (ω : Type) where
  place : Place
  act : Act ω
  fds : Fds ω

def runcmd (w : World) : Cmd ω → Place → Fds ω → List (Event ω)
  | .exec [], _, _ => []
  | .exec (a :: argv), q, fds =>
    ⟨q, .exec (a :: argv), fds⟩ :: if w.exec q then [⟨q, .print (.execFailed a), fds⟩] else []
  | .redir cmd file mode fd, q, fds =>
    let fds := close fds fd
    match if w.opens q then none else fdalloc fds (.file file mode) with
    | none => [⟨q, .print (.openFailed file), fds⟩]
    | some (_, fds) => runcmd w cmd (false :: q) fds
  | .list left right, q, fds =>
    if w.fork q false then [⟨q, .print .fork, fds⟩]
    else runcmd w left (false :: q) fds ++ ⟨q, .wait, fds⟩ :: runcmd w right (true :: q) fds
  | .pipe left right, q, fds =>
    match if w.pipe q then none else pipe fds q with
    | none => [⟨q, .print .pipe, fds⟩]
    | some ((p0, p1), fds) =>
      if w.fork q false then [⟨q, .print .fork, fds⟩]
      else
        runcmd w left (false :: q) (close (close (dup (close fds 1) p1) p0) p1) ++
        if w.fork q true then [⟨q, .print .fork, fds⟩]
        else
          runcmd w right (true :: q) (close (close (dup (close fds 0) p0) p0) p1) ++
          List.replicate 2 ⟨q, .wait, close (close fds p0) p1⟩
  | .back cmd, q, fds =>
    if w.fork q false then [⟨q, .print .fork, fds⟩] else runcmd w cmd (false :: q) fds

variable {i o e : Obj ω} {q : Place} {w : World}

/-- the file takes the place of descriptor 0 or 1 -/
theorem runcmd_redir {cmd : Cmd ω} {file : ω} {mode fd : ℕ} (hfd : fd = 0 ∨ fd = 1) :
    runcmd w (.redir cmd file mode fd) q (std i o e) =
      if w.opens q then [⟨q, .print (.openFailed file), close (std i o e) fd⟩]
      else if fd = 0 then runcmd w cmd (false :: q) (std (.file file mode) o e)
      else runcmd w cmd (false :: q) (std i (.file file mode) e) := by
  have hin : fdalloc (close (std i o e) 0) (.file file mode) = some (⟨0, by decide⟩, std (.file file mode) o e) :=
    congrArg some (Prod.ext rfl (List.ofFn_injective rfl))
  have hout : fdalloc (close (std i o e) 1) (.file file mode) = some (⟨1, by decide⟩, std i (.file file mode) e) :=
    congrArg some (Prod.ext rfl (List.ofFn_injective rfl))
  rcases hfd with rfl | rfl <;> cases hq : w.opens q <;> simp [runcmd, hq, hin, hout]

/-- the left side writes into the pipe, the right side reads from it, and the parent has closed both ends -/
theorem runcmd_pipe {left right : Cmd ω} : runcmd w (.pipe left right) q (std i o e) =
    if w.pipe q then [⟨q, .print .pipe, std i o e⟩]
    else if w.fork q false then [⟨q, .print .fork, wide i o e q⟩]
    else runcmd w left (false :: q) (std i (.pipe q false) e) ++
      if w.fork q true then [⟨q, .print .fork, wide i o e q⟩]
      else runcmd w right (true :: q) (std (.pipe q true) o e) ++ List.replicate 2 ⟨q, .wait, std i o e⟩ := by
  have hpipe : pipe (std i o e) q = some ((⟨3, by decide⟩, ⟨4, by decide⟩), wide i o e q) :=
    congrArg some (Prod.ext rfl (List.ofFn_injective rfl))
  have hleft : close (close (dup (close (wide i o e q) 1) ⟨4, by decide⟩) 3) 4 = std i (.pipe q false) e :=
    List.ofFn_injective rfl
  have hright : close (close (dup (close (wide i o e q) 0) ⟨3, by decide⟩) 3) 4 = std (.pipe q true) o e :=
    List.ofFn_injective rfl
  have hparent : close (close (wide i o e q) 3) 4 = std i o e :=
    List.ofFn_injective rfl
  cases hq : w.pipe q <;> simp [runcmd, hq, hpipe, hleft, hright, hparent]

/-! ## What the tree says -/

/-- the redirections are of 0 and 1 -/
def Cmd.Plain : Cmd ω → Prop
  | .exec _ => True
  | .redir cmd _ _ fd => (fd = 0 ∨ fd = 1) ∧ cmd.Plain
  | .pipe left right | .list left right => left.Plain ∧ right.Plain
  | .back cmd => cmd.Plain

/-- a process that runs a program or waits, with its input and output -/
structure Job (ω : Type) where
  place : Place
  act : Act ω
  input : Obj ω
  output : Obj ω

def Job.event (e : Obj ω) (j : Job ω) : Event ω := ⟨j.place, j.act, std j.input j.output e⟩

/-- the processes of a command whose input is i and output is o -/
def jobs : Cmd ω → Place → (i o : Obj ω) → List (Job ω)
  | .exec [], _, _, _ => []
  | .exec (a :: argv), q, i, o => [⟨q, .exec (a :: argv), i, o⟩]
  | .redir cmd file mode fd, q, i, o =>
    if fd = 0 then jobs cmd (false :: q) (.file file mode) o else jobs cmd (false :: q) i (.file file mode)
  | .list left right, q, i, o => jobs left (false :: q) i o ++ ⟨q, .wait, i, o⟩ :: jobs right (true :: q) i o
  | .pipe left right, q, i, o =>
    jobs left (false :: q) i (.pipe q false) ++ (jobs right (true :: q) (.pipe q true) o ++ List.replicate 2 ⟨q, .wait, i, o⟩)
  | .back cmd, q, i, o => jobs cmd (false :: q) i o

/-- no call fails -/
structure World.Fine (w : World) : Prop where
  exec : ∀ q, w.exec q = false
  opens : ∀ q, w.opens q = false
  pipe : ∀ q, w.pipe q = false
  fork : ∀ q b, w.fork q b = false

/-- **The shell does what the tree says**, if no call fails. -/
theorem runcmd_jobs (hw : w.Fine) (c : Cmd ω) (hc : c.Plain) (q : Place) (i o e : Obj ω) :
    runcmd w c q (std i o e) = (jobs c q i o).map (Job.event e) := by
  induction c generalizing q i o with
  | exec argv => cases argv <;> simp [runcmd, jobs, hw.exec, Job.event]
  | redir cmd file mode fd ih =>
    rw [runcmd_redir hc.1, hw.opens, jobs]
    split_ifs <;> simp_all [ih hc.2]
  | pipe left right ihl ihr => simp [runcmd_pipe, jobs, hw.pipe, hw.fork, ihl hc.1, ihr hc.2, Job.event]
  | list left right ihl ihr => simp [runcmd, jobs, hw.fork, ihl hc.1, ihr hc.2, Job.event]
  | back cmd ih => simp [runcmd, jobs, hw.fork, ih hc]

def World.calm : World := ⟨fun _ => false, fun _ => false, fun _ => false, fun _ _ => false⟩

/-- (ls|wc)>f& -/
theorem runcmd_jobs_block : runcmd .calm blockTree [] (std (.own 0) (.own 1) (.own 2)) =
    [⟨[false, false, false], .exec [⟨1, chars "ls"⟩], .own 0, .pipe [false, false] false⟩,
      ⟨[true, false, false], .exec [⟨4, chars "wc"⟩], .pipe [false, false] true, .file ⟨8, chars "f"⟩ 0x201⟩,
      ⟨[false, false], .wait, .own 0, .file ⟨8, chars "f"⟩ 0x201⟩,
      ⟨[false, false], .wait, .own 0, .file ⟨8, chars "f"⟩ 0x201⟩].map (Job.event (.own 2)) :=
  runcmd_jobs ⟨fun _ => rfl, fun _ => rfl, fun _ => rfl, fun _ _ => rfl⟩ blockTree ⟨.inr rfl, trivial, trivial⟩ [] _ _ _

/-! ## The ends of the pipes -/

/-- the process at q may have x as its input (true) or output (false): an end of a pipe only on its own side -/
def Own (b : Bool) (q : Place) (x : Obj ω) : Prop := ∀ p a, x = .pipe p a → a = b ∧ b :: p <:+ q

theorem Own.down {b : Bool} {x : Obj ω} (h : Own b q x) (a : Bool) : Own b (a :: q) x := fun p c hx =>
  ⟨(h p c hx).1, (h p c hx).2.trans (List.suffix_cons a q)⟩

theorem own_end (q : Place) (b : Bool) : Own b (b :: q) (.pipe q b : Obj ω) := by simp [Own]

theorem own_file (b : Bool) (q : Place) (file : ω) (mode : ℕ) : Own b q (.file file mode) := by simp [Own]

/-- a message goes to e, and any other process has an input and an output that are its own, and e -/
def Fits (e : Obj ω) (v : Event ω) : Prop :=
  (∃ m, v.act = .print m ∧ v.fds stderr = some e) ∨ ∃ i o, v.fds = std i o e ∧ Own true v.place i ∧ Own false v.place o

theorem fits_print {m : Msg ω} {fds : Fds ω} (h : fds stderr = some e) : ∀ v ∈ [⟨q, .print m, fds⟩], Fits e v :=
  List.forall_mem_singleton.2 (.inl ⟨m, rfl, h⟩)

theorem fits_own (hi : Own true q i) (ho : Own false q o) (a : Act ω) : Fits e ⟨q, a, std i o e⟩ :=
  .inr ⟨i, o, rfl, hi, ho⟩

theorem runcmd_fits (w : World) (c : Cmd ω) (hc : c.Plain) (q : Place) (i o e : Obj ω) (hi : Own true q i) (ho : Own false q o) :
    ∀ v ∈ runcmd w c q (std i o e), Fits e v := by
  induction c generalizing q i o with
  | exec argv =>
    cases argv with
    | nil => simp [runcmd]
    | cons a argv =>
      rw [runcmd, List.forall_mem_cons]
      refine ⟨fits_own hi ho _, ?_⟩
      split_ifs
      · exact fits_print rfl
      · simp
  | redir cmd file mode fd ih =>
    rw [runcmd_redir hc.1]
    split_ifs
    · exact fits_print (by rcases hc.1 with rfl | rfl <;> rfl)
    · exact ih hc.2 _ _ _ (own_file _ _ file mode) (ho.down _)
    · exact ih hc.2 _ _ _ (hi.down _) (own_file _ _ file mode)
  | pipe left right ihl ihr =>
    have hleft := ihl hc.1 _ _ _ (hi.down false) (own_end q false)
    have hright := ihr hc.2 _ _ _ (own_end q true) (ho.down true)
    rw [runcmd_pipe]
    split_ifs
    · exact fits_print rfl
    · exact fits_print rfl
    · exact List.forall_mem_append.2 ⟨hleft, fits_print rfl⟩
    · refine List.forall_mem_append.2 ⟨hleft, List.forall_mem_append.2 ⟨hright, fun v hv => ?_⟩⟩
      rw [List.eq_of_mem_replicate hv]
      exact fits_own hi ho _
  | list left right ihl ihr =>
    rw [runcmd]
    split_ifs
    · exact fits_print rfl
    · refine List.forall_mem_append.2 ⟨ihl hc.1 _ _ _ (hi.down _) (ho.down _), List.forall_mem_cons.2 ⟨fits_own hi ho _, ?_⟩⟩
      exact ihr hc.2 _ _ _ (hi.down _) (ho.down _)
  | back cmd ih =>
    rw [runcmd]
    split_ifs
    · exact fits_print rfl
    · exact ih hc _ _ _ (hi.down _) (ho.down _)

theorem plain_map {α : Type} (f : α → ω) {c : Cmd α} (hc : c.Plain) : (c.map f).Plain := by
  induction c with
  | exec argv => trivial
  | redir cmd file mode fd ih => exact ⟨hc.1, ih hc.2⟩
  | pipe left right ihl ihr => exact ⟨ihl hc.1, ihr hc.2⟩
  | list left right ihl ihr => exact ⟨ihl hc.1, ihr hc.2⟩
  | back cmd ih => exact ih hc

/-- the trees of the grammar redirect 0 and 1 only -/
theorem Derives.plain {N : Symbol} {ts : List Token} {c : Cmd Word} (h : Derives N ts c) : c.Plain := by
  have hwrap (rs : List Redir) (c : Cmd Word) (hc : c.Plain) : (rs.foldl Redir.wrap c).Plain := by
    induction rs generalizing c with
    | nil => exact hc
    | cons r rs ih => exact ih _ ⟨by cases r.mode <;> simp [Mode.fd], hc⟩
  have hback (n : ℕ) (c : Cmd Word) (hc : c.Plain) : (Cmd.back^[n] c).Plain := by
    induction n generalizing c with
    | zero => exact hc
    | succ n ih => exact ih _ hc
  induction h with
  | block rs _ ih => exact hwrap rs _ ih
  | simple rs ws _ => exact hwrap _ _ trivial
  | single _ ih => exact ih
  | pipe _ _ ihl ihr => exact ⟨ihl, ihr⟩
  | last n _ ih => exact hback n _ ih
  | seq n _ _ ihl ihr => exact ⟨hback n _ ihl, ihr⟩

/-- **Nobody keeps the wrong end of a pipe.** A line is parsed and run. Whatever fails, messages go to the shell's
descriptor 2, and a process that runs a program or waits has the read end of a pipe only on its right side and as its
input, and the write end only on its left side and as its output. -/
theorem pipe_ends {mem mem' : ℕ → Byte} {s es fuel : ℕ} {line : List Byte} {c : Cmd Ptrs} (h : At mem es s line)
    (hfuel : 4 * line.length + 4 ≤ fuel) (hc : parsecmd fuel mem s = .ok (c, mem')) (w : World) {v : Event Ptrs}
    (hv : v ∈ runcmd w c [] (std (.own 0) (.own 1) (.own 2))) : v.fds stderr = some (.own 2) ∧ ((∀ m, v.act ≠ .print m) →
      ∀ d p side, v.fds d = some (.pipe p side) → d.val = (if side then 0 else 1) ∧ side :: p <:+ v.place) := by
  have hplain : c.Plain := by
    by_cases ht : ∃ t, Derives .line (lex s line) t
    · obtain ⟨t, ht⟩ := ht
      rw [parsecmd_derives h ht hfuel] at hc
      cases hc
      exact plain_map _ ht.plain
    · obtain ⟨msg, hmsg⟩ := parsecmd_panics h (not_exists.1 ht) hfuel
      rw [hmsg] at hc
      cases hc
  obtain ⟨m, hm, htwo⟩ | ⟨i, o, hfds, hin, hout⟩ := runcmd_fits w c hplain [] _ _ _ (by simp [Own]) (by simp [Own]) v hv
  · exact ⟨htwo, fun hact => absurd hm (hact m)⟩
  · rw [hfds]
    refine ⟨rfl, fun _ d p side hd => ?_⟩
    obtain ⟨_ | _ | _ | n, hlt⟩ := d
    · obtain ⟨rfl, hp⟩ := hin p side (by simpa [std] using hd)
      exact ⟨rfl, hp⟩
    · obtain ⟨rfl, hp⟩ := hout p side (by simpa [std] using hd)
      exact ⟨rfl, hp⟩
    · simp [std] at hd
    · simp [std] at hd

/-- the process that runs wc in (ls|wc)>f& -/
theorem pipe_ends_block : ∃ v ∈ runcmd .calm (blockTree.map Word.ptrs) [] (std (.own 0) (.own 1) (.own 2)),
    v.act = .exec [(4, 6)] ∧ v.fds stderr = some (.own 2) ∧ ((∀ m, v.act ≠ .print m) →
      ∀ d p side, v.fds d = some (.pipe p side) → d.val = (if side then 0 else 1) ∧ side :: p <:+ v.place) := by
  obtain ⟨v, hv, hact⟩ : ∃ v, (runcmd .calm (blockTree.map Word.ptrs) [] (std (.own 0) (.own 1) (.own 2)))[1]? = some v ∧
      v.act = .exec [(4, 6)] := ⟨_, rfl, rfl⟩
  have hmem := List.mem_of_getElem? hv
  have hparse := parsecmd_derives blockMem_at blockLine_derives (Nat.le_refl 44)
  exact ⟨v, hmem, hact, pipe_ends blockMem_at (Nat.le_refl 44) hparse .calm hmem⟩

end Xv6.Sh
