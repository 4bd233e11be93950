/-
Whether the cache is large enough to commit (`commit` of `log.c` over `bio.c`).

While `commit` runs no operation is outstanding, so the log does not grow; the buffers pinned are those of the logged
blocks that it has not written yet (`St.pending`). Readers (`fileread`) do not call `begin_op` and go on using buffers.
- `commit_room`: a `bget` in `commit` for a block that is not cached panics exactly when the pending blocks and the
  other buffers in use are as many as there are buffers;
- `full_log_and_reader`: with NBUF = LOGSIZE buffers, a log with all the blocks that `log_write` accepts, and one
  reader with a block that is not logged, leave no buffer for the first `bget` of `write_log`.
-/
import Xv6.Bio.Pins
import Xv6.Bio.Txn

namespace Xv6.Txn

open Function

variable {n : ℕ} {P D : Type} {disk : Disk D} {s t : St n P D} {α : Act n P D} {p q : P} {x y : Pos n} {k : BitVec 32}
  {a : Bio.Act n P D} {bio₀ bio : Bio.St n P D}

/-- the logged blocks that are not yet handed to `bwrite` -/
def St.pending (s : St n P D) : List (BitVec 32) := s.lh.filter (!s.flushed.contains ·)

def Role.count : Role n → ℕ
  | .out => 0
  | _ => 1

/-- block that a process in `bread` reads -/
def reads : Bio.Pc n → Option (BitVec 32)
  | .bget k | .lock _ k | .check _ k | .read _ k | .got _ k => some k
  | _ => none

/-- a turn of `install_trans` for block k -/
def Turn.Ok (bio : Bio.St n P D) (flushed : List (BitVec 32)) (p : P) (k : BitVec 32) : Turn n → Prop
  | .log => True
  | .home _ => ∀ k', reads (bio.pc p) = some k' → k' = k
  | .copy _ c | .write _ c => bio.lock c = some p ∧ (bio.buf c).Holds k
  | .relse _ _ | .last _ _ => k ∈ flushed

/-- what `install_trans` has done, and that it has done all at its end -/
def Pos.Ok (bio : Bio.St n P D) (lh flushed : List (BitVec 32)) (p : P) : Pos n → Prop
  | .loop .writeLog _ _ => True
  | .loop .installTrans tail x => (∀ k ∈ lh.take tail, k ∈ flushed) ∧ x.Ok bio flushed p (lh.getD tail 0)
  | .head again _ => again = true → lh = []
  | .done => lh = []

structure Inv [Fintype P] (s : St n P D) : Prop where
  bio : Bio.Inv s.bio
  count : s.outstanding = ∑ p, (s.role p).count
  quiet : s.committing ≠ none → s.outstanding = 0
  nodup : s.lh.Nodup
  fresh : s.committing = none → s.flushed = []
  pins : Bio.Pins s.bio s.pending
  writes : ∀ q b, s.bio.pc q = .write b → ∃ x, s.committing = some (q, x)
  ok : ∀ p x, s.committing = some (p, x) → x.Ok s.bio s.lh s.flushed p

theorem nodup_absorb {lh : List (BitVec 32)} (h : lh.Nodup) : (absorb lh k).Nodup := by
  unfold absorb
  split_ifs with hk
  · exact h
  · rw [List.contains_iff_mem] at hk
    rw [List.nodup_append_comm, List.singleton_append, List.nodup_cons]
    exact ⟨hk, h⟩

theorem mem_absorb {lh : List (BitVec 32)} {k' : BitVec 32} : k' ∈ absorb lh k ↔ k' ∈ lh ∨ k' = k := by
  unfold absorb
  split_ifs with hk
  · constructor
    · exact .inl
    · rintro (h | rfl)
      · exact h
      · exact List.contains_iff_mem.1 hk
  · rw [List.mem_append, List.mem_singleton]

theorem mem_pending : k ∈ s.pending ↔ k ∈ s.lh ∧ k ∉ s.flushed := by
  simp [St.pending]

/-- all blocks have been installed -/
theorem pending_nil (h : ∀ k ∈ s.lh, k ∈ s.flushed) : s.pending = [] :=
  List.eq_nil_iff_forall_not_mem.2 fun k hk => (mem_pending.1 hk).2 (h k (mem_pending.1 hk).1)

/-- the calls of `commit` -/
theorem call_act (hcall : s.call disk p x = some (a, y)) : a.actor = p ∧ a.logs = none := by
  unfold St.call at hcall
  split at hcall
  · split_ifs at hcall
    cases hcall
    exact ⟨rfl, rfl⟩
  all_goals
    cases hcall
    try exact ⟨rfl, rfl⟩

/-- `bread` has returned, or not yet -/
theorem moved_cases (x : Pos n) (pc : Bio.Pc n) : (∃ b k, pc = .got b k ∧ x.moved pc = x.ret b) ∨ x.moved pc = x := by
  cases pc with
  | got b k => exact .inl ⟨b, k, rfl, rfl⟩
  | _ => exact .inr rfl

section

variable [DecidableEq P]

/-- within a call, a process goes on with the block it reads -/
theorem reads_old (hbio : Bio.Step bio₀ (.move p) bio) (hk : reads (bio.pc p) = some k) : reads (bio₀.pc p) = some k := by
  cases hbio with
  | hit hpc | recycle hpc | lock hpc | valid hpc | invalid hpc =>
    simp only [update_self] at hk
    rw [hpc]
    exact hk
  | fetch hpc | flush hpc =>
    simp only [update_self] at hk
    cases hp : bio₀.pc p <;> rw [hp] at hpc <;> cases hpc
    · exact hk
    · cases hk
  | got | relse =>
    simp only [update_self] at hk
    cases hk

theorem got_idle {b : Fin n} (hbio : Bio.Step bio₀ (.move p) bio) (hp : bio₀.pc p = .got b k) : bio.pc p = .idle := by
  cases hbio with
  | got => exact update_self ..
  | hit hpc | recycle hpc | lock hpc | valid hpc | invalid hpc | relse hpc => cases hp.symm.trans hpc
  | fetch hpc | flush hpc =>
    rw [hp] at hpc
    cases hpc

end

section

variable [Fintype P]

/-- a process in an operation keeps the log from committing -/
theorem Inv.not_committing (h : Inv s) (hrole : s.role p ≠ .out) : s.committing = none := by
  by_contra hcom
  have hzero := h.quiet hcom
  rw [h.count, Finset.sum_eq_zero_iff] at hzero
  have := hzero p (Finset.mem_univ p)
  cases hp : s.role p with
  | out => exact hrole hp
  | _ =>
    rw [hp] at this
    cases this

variable [DecidableEq P]

/-- how the count of operations follows a role -/
theorem count_update (h : Inv s) (p : P) (x : Role n) :
    ∑ q, (update s.role p x q).count + (s.role p).count = s.outstanding + x.count := by
  rw [h.count]
  exact sum_update Role.count s.role p x

/-- a call or a step within a call, not of the committing process -/
theorem Inv.others (h : Inv s) (hbio : Bio.Step s.bio a bio) (hlogs : a.logs = none) (hwrites : a.writes = none)
    (hcom : ∀ x, s.committing ≠ some (a.actor, x)) : Inv { s with bio } := by
  refine ⟨h.bio.step hbio, h.count, h.quiet, h.nodup, h.fresh, h.pins.keep h.bio hbio hlogs hwrites, fun q b hq => ?_,
    fun p x hp => ?_⟩
  · refine h.writes q b (hbio.write_old (fun b' ha => ?_) hq)
    rw [ha] at hwrites
    cases hwrites
  · have hne : p ≠ a.actor := by
      rintro rfl
      exact hcom x hp
    have hpc := hbio.pc_other hne
    have hheld : ∀ c k, s.bio.lock c = some p ∧ (s.bio.buf c).Holds k → bio.lock c = some p ∧ (bio.buf c).Holds k := by
      rintro c k ⟨hlock, hk⟩
      obtain ⟨hlock', hlabel⟩ := hbio.held h.bio.refs hlock fun ha => hne (by rw [ha]; rfl)
      exact ⟨hlock', (Bio.Buf.holds_congr hlabel).2 hk⟩
    have hold := h.ok p x hp
    cases x with
    | loop d tail y =>
      cases d with
      | writeLog => trivial
      | installTrans =>
        refine ⟨hold.1, ?_⟩
        cases y with
        | log => trivial
        | home b =>
          intro k' hk'
          rw [hpc] at hk'
          exact hold.2 k' hk'
        | copy b c | write b c => exact hheld c _ hold.2
        | relse b c | last b c => exact hold.2
    | head again y => exact hold
    | done => exact hold

omit [DecidableEq P] in
/-- a step of operations only -/
theorem Inv.ops {role : P → Role n} {m : ℕ} (h : Inv s) (hm : m = ∑ p, (role p).count)
    (hquiet : s.committing ≠ none → m = 0) : Inv { s with outstanding := m, role } :=
  ⟨h.bio, hm, hquiet, h.nodup, h.fresh, h.pins, h.writes, h.ok⟩

theorem Inv.logAdd {b : Fin n} (h : Inv s) (hrole : s.role p = .logging b) (hbio : Bio.Step s.bio (.logWrite p b) bio) :
    Inv { s with bio, lh := absorb s.lh (s.bio.buf b).blockno, role := update s.role p .op } := by
  have hcom := h.not_committing (p := p) (by rw [hrole]; nofun)
  have hflushed := h.fresh hcom
  have hcount := count_update h p .op
  rw [hrole] at hcount
  refine ⟨h.bio.step hbio, (Nat.add_right_cancel hcount).symm, h.quiet, nodup_absorb h.nodup, h.fresh,
    h.pins.logWrite h.bio hbio fun k => ?_, fun q b' hq => h.writes q b' (hbio.write_old nofun hq), fun q x hq => ?_⟩
  · simp [mem_pending, hflushed, mem_absorb]
  · cases hcom.symm.trans hq

theorem Turn.Ok.moved {y : Turn n} {flushed : List (BitVec 32)} (h : y.Ok bio₀ flushed p k) (hinv : Bio.Inv bio₀)
    (hbio : Bio.Step bio₀ (.move p) bio) (tail : ℕ) :
    ∃ y', (Pos.loop .installTrans tail y).moved (bio₀.pc p) = .loop .installTrans tail y' ∧ y'.Ok bio flushed p k := by
  have hheld : ∀ c, bio₀.lock c = some p ∧ (bio₀.buf c).Holds k → bio.lock c = some p ∧ (bio.buf c).Holds k := by
    rintro c ⟨hlock, hk⟩
    obtain ⟨hlock', hlabel⟩ := hbio.held hinv.refs hlock nofun
    exact ⟨hlock', (Bio.Buf.holds_congr hlabel).2 hk⟩
  rcases moved_cases (.loop .installTrans tail y) (bio₀.pc p) with ⟨b, k', hpc, hret⟩ | hsame
  · refine ⟨y.ret b, hret, ?_⟩
    cases y with
    | log =>
      intro k' hk'
      rw [got_idle hbio hpc] at hk'
      cases hk'
    | home b' =>
      refine hheld b ⟨hinv.refs.holder p b (by rw [hpc]; rfl), ?_⟩
      rw [← h k' (by rw [hpc]; rfl)]
      exact hinv.labels.label p b k' (by rw [hpc]; rfl)
    | copy _ c | write _ c => exact hheld c h
    | relse | last => exact h
  · refine ⟨y, hsame, ?_⟩
    cases y with
    | log => trivial
    | home b' => exact fun k' hk' => h k' (reads_old hbio hk')
    | copy _ c | write _ c => exact hheld c h
    | relse | last => exact h

theorem Inv.moved (h : Inv s) (hbio : Bio.Step s.bio (.move p) bio) (hcom : s.committing = some (p, x)) :
    Inv { s with bio, committing := some (p, x.moved (s.bio.pc p)) } := by
  refine ⟨h.bio.step hbio, h.count, fun _ => h.quiet (by rw [hcom]; nofun), h.nodup, nofun,
    h.pins.keep h.bio hbio rfl rfl, fun q b hq => ?_, fun q y hq => ?_⟩
  · obtain ⟨y, hy⟩ := h.writes q b (hbio.write_old nofun hq)
    cases hcom.symm.trans hy
    exact ⟨_, rfl⟩
  · cases hq
    have hold := h.ok p x hcom
    rcases moved_cases x (s.bio.pc p) with ⟨b, k, -, hret⟩ | hsame
    all_goals
      cases x with
      | loop d tail y =>
        cases d with
        | writeLog => first | (rw [hret]; trivial) | (rw [hsame]; trivial)
        | installTrans =>
          obtain ⟨y', hy, hok⟩ := hold.2.moved h.bio hbio tail
          rw [hy]
          exact ⟨hold.1, hok⟩
      | head | done => first | (rw [hret]; exact hold) | (rw [hsame]; exact hold)

omit [DecidableEq P] in
/-- `commit` goes on without a call -/
theorem Inv.pass {lh : List (BitVec 32)} (h : Inv s) (hcom : s.committing = some (p, x)) (hnodup : lh.Nodup)
    (hpins : Bio.Pins s.bio (St.pending { s with lh })) (hok : y.Ok s.bio lh s.flushed p) :
    Inv { s with lh, committing := some (p, y) } := by
  refine ⟨h.bio, h.count, fun _ => h.quiet (by rw [hcom]; nofun), hnodup, nofun, hpins, fun q b hq => ?_, fun q z hq => ?_⟩
  · obtain ⟨z, hz⟩ := h.writes q b hq
    cases hcom.symm.trans hz
    exact ⟨y, rfl⟩
  · cases hq
    exact hok

theorem Turn.Ok.call {tail : ℕ} {z : Turn n} (h : z.Ok s.bio s.flushed p (s.lh.getD tail 0)) (hinv : Bio.Inv s.bio)
    (htake : ∀ k ∈ s.lh.take tail, k ∈ s.flushed)
    (hcall : s.call disk p (.loop .installTrans tail z) = some (a, y)) (hbio : Bio.Step s.bio a bio) :
    y.Ok bio s.lh (s.flush a) p := by
  cases z with
  | log =>
    rw [St.call] at hcall
    split_ifs at hcall
    cases hcall
    exact ⟨htake, trivial⟩
  | home b =>
    cases hcall
    refine ⟨htake, fun k' hk' => ?_⟩
    cases hbio
    simp only [update_self] at hk'
    exact (Option.some.inj hk').symm
  | copy b c =>
    cases hcall
    obtain ⟨hlock, hlabel⟩ := hbio.held hinv.refs h.1 (by simp)
    exact ⟨htake, hlock, (Bio.Buf.holds_congr hlabel).2 h.2⟩
  | write b c =>
    cases hcall
    refine ⟨fun k hk => List.mem_cons_of_mem _ (htake k hk), ?_⟩
    rw [← h.2.2]
    exact List.mem_cons_self
  | relse b c =>
    cases hcall
    exact ⟨htake, h⟩
  | last b c =>
    cases hcall
    refine ⟨fun k hk => ?_, trivial⟩
    rw [List.take_add_one, List.mem_append, Option.mem_toList] at hk
    rcases hk with hk | hk
    · exact htake k hk
    · have hget : s.lh.getD tail 0 = k := by
        rw [List.getD_eq_getElem?_getD, hk]
        rfl
      exact hget ▸ h

theorem Inv.call (h : Inv s) (hcom : s.committing = some (p, x)) (hcall : s.call disk p x = some (a, y))
    (hbio : Bio.Step s.bio a bio) : Inv { s with bio, committing := some (p, y), flushed := s.flush a } := by
  obtain ⟨hactor, hlogs⟩ := call_act hcall
  refine ⟨h.bio.step hbio, h.count, fun _ => h.quiet (by rw [hcom]; simp), h.nodup, by simp, ?_, fun q b hq => ?_,
    fun q z hq => ?_⟩
  · cases a with
    | bwrite q b =>
      refine h.pins.bwrite h.bio hbio fun k => ?_
      simp only [mem_pending, St.flush, List.mem_cons]
      tauto
    | logWrite => cases hlogs
    | _ => exact h.pins.keep h.bio hbio rfl rfl
  · by_cases hqp : q = p
    · exact ⟨y, by rw [hqp]⟩
    · rw [hbio.pc_other (hactor ▸ hqp)] at hq
      obtain ⟨z, hz⟩ := h.writes q b hq
      cases hcom.symm.trans hz
      exact (hqp rfl).elim
  · cases hq
    have hold := h.ok p x hcom
    cases x with
    | loop d tail z =>
      cases d with
      | installTrans => exact hold.2.call h.bio hold.1 hcall hbio
      | writeLog =>
        have hy : ∃ tail' z', y = .loop .writeLog tail' z' := by
          cases z with
          | log =>
            rw [St.call] at hcall
            split_ifs at hcall
            cases hcall
            exact ⟨_, _, rfl⟩
          | _ =>
            cases hcall
            exact ⟨_, _, rfl⟩
        obtain ⟨tail', z', rfl⟩ := hy
        trivial
    | head again z =>
      cases z with
      | relse b =>
        cases hcall
        cases again with
        | false => exact ⟨by simp, trivial⟩
        | true => exact hold rfl
      | _ =>
        cases hcall
        exact hold
    | done => cases hcall

theorem Inv.step (h : Inv s) (hstep : Step disk s α t) : Inv t := by
  cases hstep with
  | @beginOp p hrole hcom =>
    have hcount := count_update h p .op
    rw [hrole] at hcount
    exact h.ops hcount.symm fun hne => (hne hcom).elim
  | @use p _ a bio hp ha hbio =>
    have hnone : ∀ x, s.committing ≠ some (p, x) := by
      intro x hx
      rcases hp with hp | hp
      · exact commits_false hp hx
      · cases hx.symm.trans (h.not_committing (p := p) (by rw [hp]; nofun))
    rcases ha with ⟨k, rfl⟩ | ⟨b, d, rfl⟩ | ⟨b, rfl⟩
    all_goals exact h.others hbio rfl rfl hnone
  | @logWrite p b hrole =>
    have hcount := count_update h p (.logging b)
    rw [hrole] at hcount
    exact h.ops (Nat.add_right_cancel hcount).symm h.quiet
  | logAdd hrole hbio => exact h.logAdd hrole hbio
  | @leave p hrole =>
    have hcom := h.not_committing (p := p) (by rw [hrole]; nofun)
    have hcount := count_update h p .out
    rw [hrole] at hcount
    exact h.ops (Nat.sub_eq_of_eq_add hcount.symm) fun hne => (hne hcom).elim
  | @last p x hrole hlast hfree hcom hx =>
    have hcount := count_update h p .out
    rw [hrole] at hcount
    refine ⟨h.bio, Nat.sub_eq_of_eq_add hcount.symm, fun _ => hlast, h.nodup, nofun, h.pins, fun q b hq => ?_,
      fun q y hq => ?_⟩
    · obtain ⟨y, hy⟩ := h.writes q b hq
      cases hcom.symm.trans hy
    · cases hq
      rcases hx with rfl | ⟨hnil, rfl⟩
      · trivial
      · exact hnil
  | call hcom hcall hbio => exact h.call hcom hcall hbio
  | logged hcom => exact h.pass hcom h.nodup h.pins nofun
  | @installed p tail hcom htail =>
    have hnil := pending_nil fun k hk => (h.ok p _ hcom).1 k (by rwa [List.take_of_length_le htail])
    refine h.pass hcom List.nodup_nil ?_ fun _ => rfl
    rw [St.pending, List.filter_nil, ← hnil]
    exact h.pins
  | @done p hcom hidle =>
    have hnil : s.lh = [] := h.ok p _ hcom
    refine ⟨h.bio, h.count, nofun, h.nodup, fun _ => rfl, ?_, fun q b hq => ?_, nofun⟩
    · have hpins := h.pins
      unfold St.pending at hpins ⊢
      rw [hnil] at hpins ⊢
      exact hpins
    · obtain ⟨y, hy⟩ := h.writes q b hq
      cases hcom.symm.trans hy
      cases hidle.symm.trans hq
  | @move p bio c hbio hp hc =>
    subst hc
    exact h.others hbio rfl rfl fun x => commits_false hp
  | moved hbio hcom hy =>
    subst hy
    exact h.moved hbio hcom

omit [DecidableEq P] in
theorem Inv.init [DecidableEq P] (h0 : Init disk s) : Inv s := by
  obtain ⟨hreach, hfree, hclean, hlh, hout, hcom, hrole, hflushed⟩ := h0
  refine ⟨Bio.Inv.of_reach hreach, ?_, fun hne => (hne hcom).elim, hlh ▸ List.nodup_nil, fun _ => hflushed,
    ⟨?_, fun b hb => ?_⟩, fun q b hq => ?_, fun q x hq => ?_⟩
  · rw [hout, Finset.sum_eq_zero]
    intro p _
    rw [hrole]
    rfl
  · rw [St.pending, hlh]
    simp
  · rw [Bio.St.Pinned, hclean] at hb
    cases hb.1
  · rw [(hfree q).1] at hq
    cases hq
  · rw [hcom] at hq
    cases hq

theorem Inv.of_reach (h : (machine n P disk).Reach s) : Inv s :=
  Machine.Reach.invariant (I := Inv) (fun _ h0 => Inv.init h0) (fun _ _ _ hs hstep => hs.step (step_cases hstep)) h

/-- **Room to commit.** In every run, a `bget` of `write_log`, `write_head` or `install_trans` panics exactly when its
block is not cached and the logged blocks not yet written, with the other buffers in use, fill the cache. -/
theorem commit_room (h : (machine n P disk).Reach s) (hcom : s.committing = some (p, x)) (hpc : s.bio.pc p = .bget k) :
    s.bio.bget ROOTDEV k = none ↔
      (∀ b, ¬ (s.bio.buf b).Holds k) ∧ s.pending.length + (s.bio.inUse s.pending).card = n := by
  have hinv := Inv.of_reach h
  refine hinv.pins.bget_none hinv.bio (hinv.nodup.filter _) fun q b hq => ?_
  obtain ⟨y, hy⟩ := hinv.writes q b hq
  cases hcom.symm.trans hy
  cases hpc.symm.trans hq

end

/-- the disk that `mkfs` makes, without contents -/
def mkfsDisk : Disk Unit := ⟨1000, 2, fun _ => ()⟩

/-- after `initlog`, with no block cached -/
def booted (n : ℕ) (P : Type) : St n P Unit where
  bio :=
    { buf _ := ⟨false, false, 0, 0, 0, ()⟩, links := Bio.binit n, lock _ := none, disk _ := (), pc _ := .idle
      unsaved _ := false, store _ := () }
  lh := []
  outstanding := 0
  committing := none
  role _ := .out
  flushed := []

theorem booted_init (n : ℕ) (P : Type) [DecidableEq P] : Init mkfsDisk (booted n P) := by
  refine ⟨.init ⟨rfl, fun _ => ⟨(), rfl⟩, fun _ => rfl, fun _ => rfl, fun _ => rfl, rfl⟩, fun _ => ⟨rfl, nofun⟩, fun _ => rfl,
    rfl, rfl, rfl, fun _ => rfl, rfl⟩

/-- p reads block k -/
def readBlock {n : ℕ} {P : Type} (p : P) (k : BitVec 32) : List (Act n P Unit) := .bread p k :: .replicate 5 (.move p)

/-- p reads block k into buffer b, modifies it, logs it and releases it -/
def logBlock {n : ℕ} {P : Type} (p : P) (k : BitVec 32) (b : Fin n) : List (Act n P Unit) :=
  readBlock p k ++ [.modify p b (), .logWrite p b, .logAdd p, .brelse p b, .move p]

/-- p logs blocks 100 + i for i = lo, ..., lo + m - 1, in buffer i each -/
def logBlocks {n : ℕ} [NeZero n] {P : Type} (p : P) (lo m : ℕ) : List (Act n P Unit) :=
  (List.range' lo m).flatMap fun i => logBlock p (BitVec.ofNat 32 (100 + i)) (Fin.ofNat n i)

/-- the operation of p logs one block and commits, and q, a reader, holds another block -/
def smallRun {n : ℕ} [NeZero n] {P : Type} (p q : P) : List (Act n P Unit) :=
  .beginOp p :: logBlocks p 0 1 ++ readBlock q 500 ++ [.endOp p, .commit p]

theorem smallRun_bget : ((smallRun 0 1).foldlM (step mkfsDisk) (booted 3 (Fin 2))).map
    (fun s => ((s.committing, s.bio.pc 0), ((s.bio.bget ROOTDEV 3).isSome, decide (∀ b, ¬ (s.bio.buf b).Holds 3)))) =
      some ((some (0, .loop .writeLog 0 .log), .bget 3), (true, true)) := by decide +kernel

theorem commit_room_small : ∃ s : St 3 (Fin 2) Unit, (machine 3 (Fin 2) mkfsDisk).Reach s ∧
    s.committing = some (0, .loop .writeLog 0 .log) ∧ s.bio.pc 0 = .bget 3 ∧
      s.pending.length + (s.bio.inUse s.pending).card ≠ 3 := by
  obtain ⟨s, hrun, hs⟩ := Option.map_eq_some_iff.1 smallRun_bget
  simp only [Prod.mk.injEq, decide_eq_true_eq] at hs
  obtain ⟨⟨hcom, hpc⟩, hsome, huncached⟩ := hs
  have hreach : (machine 3 (Fin 2) mkfsDisk).Reach s := Machine.Reach.foldlM _ (.init (booted_init 3 (Fin 2))) hrun
  refine ⟨s, hreach, hcom, hpc, fun hfull => ?_⟩
  rw [(commit_room hreach hcom hpc).2 ⟨huncached, hfull⟩] at hsome
  cases hsome

instance : NeZero NBUF := ⟨by decide⟩

/-- three operations of ten, ten and nine blocks, and a reader with a block that is not logged -/
def fullRun : List (Act NBUF (Fin 4) Unit) :=
  [.beginOp 0, .beginOp 1, .beginOp 2] ++ logBlocks 0 0 10 ++ logBlocks 1 10 10 ++ logBlocks 2 20 9 ++ readBlock 3 500 ++
    [.endOp 0, .endOp 1, .endOp 2, .commit 2]

theorem fullRun_bget : (fullRun.foldlM (step mkfsDisk) (booted NBUF (Fin 4))).map
    (fun s => ((s.committing, s.bio.pc 2), ((s.bio.bget ROOTDEV 3).isNone, s.lh.length), s.role 3, s.bio.lock 29)) =
      some ((some (2, .loop .writeLog 0 .log), .bget 3), (true, LOGSIZE - 1), .out, some 3) := by decide +kernel

/-- **A full log and one reader.** `write_log` finds no buffer for the first block of the log. -/
theorem full_log_and_reader : ∃ s : St NBUF (Fin 4) Unit, (machine NBUF (Fin 4) mkfsDisk).Reach s ∧
    s.lh.length = LOGSIZE - 1 ∧ s.role 3 = .out ∧ s.bio.lock 29 = some 3 ∧
      s.committing = some (2, .loop .writeLog 0 .log) ∧ s.bio.pc 2 = .bget 3 ∧ s.bio.bget ROOTDEV 3 = none := by
  obtain ⟨s, hrun, hs⟩ := Option.map_eq_some_iff.1 fullRun_bget
  simp only [Prod.mk.injEq, Option.isNone_iff_eq_none] at hs
  obtain ⟨⟨hcom, hpc⟩, ⟨hnone, hlen⟩, hrole, hlock⟩ := hs
  exact ⟨s, Machine.Reach.foldlM fullRun (.init (booted_init NBUF (Fin 4))) hrun, hlen, hrole, hlock, hcom, hpc, hnone⟩

end Xv6.Txn
