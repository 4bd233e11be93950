/-
Log-space reservation (`log.c`): whether the admission test of `begin_op` keeps `log_write` from running out of log.

`begin_op` admits an operation when `log.lh.n + (log.outstanding+1)*MAXOPBLOCKS <= LOGSIZE`, so that every running
operation can still log its MAXOPBLOCKS blocks. `log_write` panics when the header already lists `log.size - 1`
blocks, before it looks whether the block is one of them. `mkfs` sets `log.size` to LOGSIZE, the header block included,
so the log has room for one block less than `begin_op` hands out.

Results, for runs in which every operation logs at most k distinct blocks (`Budget k`):
- `reserve_bound`: the blocks listed plus what the running operations may still log is at most MAXOPBLOCKS + 2k;
- `no_overrun`: with k = MAXOPBLOCKS the header array is never overrun;
- `too_big_iff`: with `log.size = LOGSIZE`, `log_write` panics exactly when LOGSIZE - 1 distinct blocks have been
  logged since the last commit;
- `three_full_operations`: three operations of ten blocks each reach the panic;
- `nine_blocks_suffice`: with k = MAXOPBLOCKS - 1 the panic is unreachable.
-/
import Xv6.Log.GroupCommit

namespace Xv6.Reservation

open Xv6.Log Xv6.GroupCommit Function

variable {P : Type}

/-- an operation `log_write`s at most k distinct blocks -/
def Budget (k : ℕ) (s : St P) : Act P → Prop
  | .logCheck p b => (insert b (s.written p)).card ≤ k
  | _ => True

instance (k : ℕ) (s : St P) (a : Act P) : Decidable (Budget k s a) :=
  match a with
  | .logCheck p b => inferInstanceAs (Decidable ((insert b (s.written p)).card ≤ k))
  | .call _ | .beginOp _ | .kill _ | .logAdd _ | .endOp _ | .erase _ | .finish _ => isTrue trivial

variable [DecidableEq P] [Fintype P]

/-- the blocks logged since the last commit -/
def loggedSince (s : St P) : Finset BlockNo := s.ended ∪ Finset.univ.biUnion s.written

/-- what p's running operation may still log -/
def allowance (k : ℕ) (s : St P) (p : P) : ℤ := if (s.pc p).inside then k - (s.written p).card else 0

/-- what all running operations may still log -/
def reserve (k : ℕ) (s : St P) : ℤ := ∑ p, allowance k s p

/-- operations stay within their budget, and the budgets of the running ones within the log -/
structure RInv (k : ℕ) (s : St P) : Prop where
  budget : ∀ p, (s.written p).card ≤ k
  next : ∀ p b, s.pc p = .logging b → (insert b (s.written p)).card ≤ k
  room : (s.lh.n : ℤ) + reserve k s ≤ MAXOPBLOCKS + 2 * k

/-- a sum that changes at one process only -/
theorem sum_move (f g : P → ℤ) (p : P) (h : ∀ q, q ≠ p → g q = f q) : ∑ q, g q = ∑ q, f q - f p + g p := by
  have h1 := Finset.add_sum_erase Finset.univ f (Finset.mem_univ p)
  have h2 := Finset.add_sum_erase Finset.univ g (Finset.mem_univ p)
  have h3 : ∑ q ∈ Finset.univ.erase p, g q = ∑ q ∈ Finset.univ.erase p, f q :=
    Finset.sum_congr rfl (fun q hq => h q (Finset.ne_of_mem_erase hq))
  omega

omit [DecidableEq P] in
theorem allowance_nonneg {k : ℕ} {s : St P} (h : RInv k s) (p : P) : 0 ≤ allowance k s p := by
  unfold allowance
  have := h.budget p
  split_ifs <;> omega

omit [DecidableEq P] in
theorem reserve_le (k : ℕ) (s : St P) : reserve k s ≤ (insideOps s.pc).card * k := by
  have h : reserve k s ≤ ∑ p, if (s.pc p).inside then (k : ℤ) else 0 := by
    refine Finset.sum_le_sum (fun p _ => ?_)
    unfold allowance
    split_ifs <;> omega
  refine h.trans (le_of_eq ?_)
  rw [← Finset.sum_filter, Finset.sum_const, nsmul_eq_mul]
  rfl

omit [DecidableEq P] in
theorem rinv_init (k : ℕ) (size : ℤ) : RInv k (init size : St P) := by
  refine ⟨by simp [init], by simp [init], ?_⟩
  have : reserve k (init size : St P) = 0 := by simp [reserve, allowance, init, Pc.inside]
  rw [this]
  simp only [init, LogHeader.n, LogHeader.empty, List.length_nil]
  omega

/-- a process that moves without entering or leaving an operation -/
theorem RInv.move {k : ℕ} {s : St P} (h : RInv k s) (p : P) (x : Pc) (hin : x.inside = (s.pc p).inside)
    (hb : ∀ b, x = .logging b → (insert b (s.written p)).card ≤ k) :
    RInv k { s with pc := update s.pc p x } := by
  refine ⟨h.budget, fun q b hq => ?_, ?_⟩
  · by_cases hqp : q = p
    · subst hqp; exact hb b (by simpa using hq)
    · exact h.next q b (by simpa [hqp] using hq)
  · have hr : reserve k { s with pc := update s.pc p x } = reserve k s := by
      refine Finset.sum_congr rfl (fun q _ => ?_)
      unfold allowance
      by_cases hqp : q = p
      · subst hqp; simp [hin]
      · simp [hqp]
    rw [hr]
    exact h.room

/-- admission: whatever is running was admitted with ten blocks each, so k ≤ 10 for one more still fit -/
theorem beginOp_rinv {k : ℕ} (hk : k ≤ MAXOPBLOCKS) (s : St P) (p : P) (hi : Inv s) (h : RInv k s)
    (hp : s.pc p = .entering) : RInv k (beginOp s p) := by
  unfold beginOp
  split_ifs with hc hfull
  · exact h.move p .asleep (by rw [hp]; rfl) (by simp)
  · exact h.move p .asleep (by rw [hp]; rfl) (by simp)
  · have hw : s.written p = ∅ := hi.outside p (by rw [hp]; rfl)
    refine ⟨h.budget, fun q b hq => ?_, ?_⟩
    · by_cases hqp : q = p
      · subst hqp; simp at hq
      · exact h.next q b (by simpa [hqp] using hq)
    · have hr : reserve k { s with outstanding := s.outstanding + 1, pc := update s.pc p .inOp } =
          reserve k s - allowance k s p + k := by
        have := sum_move (allowance k s)
          (allowance k { s with outstanding := s.outstanding + 1, pc := update s.pc p .inOp }) p
          (fun q hq => by simp [allowance, hq])
        simpa [reserve, allowance, Pc.inside, hw] using this
      have hp0 : allowance k s p = 0 := by simp [allowance, hp, Pc.inside]
      have hle := reserve_le k s
      rw [hr, hp0]
      simp only [not_lt, gt_iff_lt, LOGSIZE, MAXOPBLOCKS] at hfull hk ⊢
      rcases Nat.eq_zero_or_pos (insideOps s.pc).card with h0 | hpos
      · -- nothing outstanding: the log is empty
        have hnil := hi.idle (by simpa using hc) (by rw [hi.count, h0]; rfl)
        have hn : s.lh.n = 0 := by simp [LogHeader.n, hnil]
        rw [h0] at hle
        push_cast at hle
        omega
      · have hcount := hi.count
        have hc1 : (1 : ℤ) ≤ (insideOps s.pc).card := by exact_mod_cast hpos
        have hk' : (k : ℤ) ≤ 10 := by exact_mod_cast hk
        have hprod := mul_nonneg (sub_nonneg.2 hk') (sub_nonneg.2 hc1)
        have hexp : (10 - (k : ℤ)) * ((insideOps s.pc).card - 1) =
            10 * (insideOps s.pc).card - (insideOps s.pc).card * k - 10 + k := by ring
        push_cast at hfull ⊢
        linarith

theorem logAdd_rinv {k : ℕ} (s s' : St P) (p : P) (b : BlockNo) (hi : Inv s) (h : RInv k s)
    (hp : s.pc p = .logging b) (hs : logAdd s p b = .ok s') : RInv k s' := by
  obtain ⟨lh, hadd, rfl⟩ := logAdd_ok hs
  have hnext := h.next p b hp
  refine ⟨fun q => ?_, fun q c hq => ?_, ?_⟩
  · by_cases hqp : q = p
    · subst hqp; simpa using hnext
    · simpa [hqp] using h.budget q
  · by_cases hqp : q = p
    · subst hqp; simp at hq
    · simpa [hqp] using h.next q c (by simpa [hqp] using hq)
  · set t : St P := { s with
      lh := lh, pc := update s.pc p .inOp
      written := update s.written p (insert b (s.written p)) }
    have hr : reserve k t = reserve k s - allowance k s p + allowance k t p :=
      sum_move (allowance k s) (allowance k t) p (fun q hq => by simp [t, allowance, hq])
    have hold : allowance k s p = k - (s.written p).card := by simp [allowance, hp, Pc.inside]
    have hnew : allowance k t p = k - (insert b (s.written p)).card := by simp [t, allowance, Pc.inside]
    have hroom := h.room
    rw [hr, hold, hnew]
    have hmono : (s.written p).card ≤ (insert b (s.written p)).card := Finset.card_le_card (Finset.subset_insert _ _)
    rcases addBlock_block hadd with ⟨-, he⟩ | ⟨hb, he⟩
    · -- absorbed: the header does not grow
      have hn : t.lh.n = s.lh.n := by simp [t, LogHeader.n, he]
      omega
    · -- a new block is new for p too, so p pays for it
      have hn : t.lh.n = s.lh.n + 1 := by simp [t, LogHeader.n, he]
      have hbw : b ∉ s.written p := fun hm => hb ((hi.blocks b).2 (Or.inr ⟨p, hm⟩))
      rw [Finset.card_insert_of_notMem hbw] at hmono ⊢
      push_cast
      omega

theorem endOp_rinv {k : ℕ} (s s' : St P) (p : P) (h : RInv k s) (hs : endOp s p = .ok s') : RInv k s' := by
  have hkey : ∀ pc' : P → Pc, (pc' p).inside = false → (∀ q, q ≠ p → (pc' q).inside = (s.pc q).inside) →
      (∀ q b, pc' q = .logging b → q ≠ p ∧ s.pc q = .logging b) → ∀ (t : St P), t.lh = s.lh → t.pc = pc' →
      t.written = update s.written p ∅ → RInv k t := by
    intro pc' hpp hq hl t hlh hpc hw
    refine ⟨fun q => ?_, fun q b hqb => ?_, ?_⟩
    · rw [hw]
      by_cases hqp : q = p
      · subst hqp; simp
      · simpa [hqp] using h.budget q
    · rw [hpc] at hqb
      obtain ⟨hqp, hb⟩ := hl q b hqb
      rw [hw, update_of_ne hqp]
      exact h.next q b hb
    · have hr := sum_move (allowance k s) (allowance k t) p
        (fun q hqp => by simp [allowance, hpc, hw, hq q hqp, hqp])
      have hzero : allowance k t p = 0 := by simp [allowance, hpc, hpp]
      have hpos := allowance_nonneg h p
      have hroom := h.room
      simp only [reserve] at hroom ⊢
      rw [hr, hzero, hlh]
      omega
  unfold endOp at hs
  split_ifs at hs with hc h0
  · cases hs
    refine hkey (update s.pc p .committing) (by simp [Pc.inside]) (fun q hq => by simp [hq]) ?_ _ rfl rfl rfl
    intro q b hq
    by_cases hqp : q = p
    · subst hqp; simp at hq
    · exact ⟨hqp, by simpa [hqp] using hq⟩
  · cases hs
    refine hkey (wakeup (update s.pc p .idle)) (by rw [wakeup_inside]; simp [Pc.inside])
      (fun q hq => by simp [wakeup_inside, hq]) ?_ _ rfl rfl rfl
    intro q b hq
    unfold wakeup at hq
    split_ifs at hq
    by_cases hqp : q = p
    · subst hqp; simp at hq
    · exact ⟨hqp, by simpa [hqp] using hq⟩

theorem erase_rinv {k : ℕ} (s : St P) (p : P) (h : RInv k s) (hp : s.pc p = .committing) : RInv k (erase s p) := by
  have hm := h.move p .clearing (by rw [hp]; rfl) (by simp)
  refine ⟨hm.budget, hm.next, ?_⟩
  have hr : reserve k (erase s p) = reserve k { s with pc := update s.pc p .clearing } := rfl
  have hroom := hm.room
  have hn : (erase s p).lh.n = 0 := rfl
  rw [hr, hn]
  simp only at hroom
  omega

theorem finish_rinv {k : ℕ} (s : St P) (p : P) (h : RInv k s) (hp : s.pc p = .clearing) : RInv k (finish s p) := by
  have hm := h.move p .idle (by rw [hp]; rfl) (by simp)
  refine ⟨hm.budget, fun q b hq => ?_, ?_⟩
  · simp only [finish, wakeup] at hq
    split_ifs at hq
    exact hm.next q b hq
  · have hr : reserve k (finish s p) = reserve k { s with pc := update s.pc p .idle } := by
      refine Finset.sum_congr rfl (fun q _ => ?_)
      simp only [allowance, finish, wakeup_inside]
    rw [hr]
    exact hm.room

theorem step_rinv {k : ℕ} (hk : k ≤ MAXOPBLOCKS) (s s' : St P) (a : Act P) (hi : Inv s) (h : RInv k s)
    (hb : Budget k s a) (hs : step s a = some (.ok s')) : RInv k s' := by
  rcases step_ok hs with ⟨p, x, rfl, hin, -, -, -, hx⟩ | ⟨p, hp, rfl⟩ | ⟨p, b, hp, hadd⟩ | ⟨p, hp, hend⟩ |
    ⟨p, hp, rfl⟩ | ⟨p, hp, rfl⟩
  · refine h.move p x hin (fun b hb' => ?_)
    rw [hx b hb'] at hb
    exact hb
  · exact beginOp_rinv hk s p hi h hp
  · exact logAdd_rinv s s' p b hi h hp hadd
  · exact endOp_rinv s s' p h hend
  · exact erase_rinv s p h hp
  · exact finish_rinv s p h hp

/-- **Reservation bound.** In every run within budget k ≤ MAXOPBLOCKS, the blocks listed in the header plus all that the
running operations may still log is at most MAXOPBLOCKS + 2k. -/
theorem reserve_bound {k : ℕ} (hk : k ≤ MAXOPBLOCKS) {size : ℤ} {allow : St P → Act P → Prop}
    (hallow : ∀ s a, allow s a → Budget k s a) {s : St P} (hr : Reach size allow s) : RInv k s := by
  refine (Machine.Reach.invariant (I := fun s => Inv s ∧ RInv k s) ?_ (fun s a t ih hs => ?_) hr).2
  · rintro _ rfl
    exact ⟨inv_init size, rinv_init k size⟩
  · have hstep := step_of_move hs.2
    exact ⟨step_inv s t a ih.1 hstep, step_rinv hk s t a ih.1 ih.2 (hallow s a hs.1) hstep⟩

/-! ## The two limits of `log_write` -/

omit [DecidableEq P] in
/-- in a state of a run the header lists exactly the blocks logged since the last commit -/
theorem n_eq_card {s : St P} (hi : Inv s) : s.lh.n = (loggedSince s).card := by
  have h : s.lh.block.toFinset = loggedSince s := by
    ext b
    rw [List.mem_toFinset, hi.blocks b]
    simp [loggedSince]
  rw [← h, List.toFinset_card_of_nodup hi.nodup]
  rfl

/-- **The header array is never overrun**, although the checks of `log_write` are made without the lock. -/
theorem no_overrun {size : ℤ} {s : St P} (hr : Reach size (Budget MAXOPBLOCKS) s) (a : Act P) :
    step s a ≠ some (.error .overrun) := by
  intro hs
  have hi := reach_inv hr
  have h := reserve_bound le_rfl (fun _ _ ha => ha) hr
  rcases step_error hs with ⟨p, b, -, -, he⟩ | ⟨p, b, -, hp, -, hfull, hb⟩ | ⟨p, -, -, he, -⟩
  · unfold logCheck at he
    split_ifs at he <;> simp at he
  · -- p may still log b, so the header lists at most 29 blocks
    have hbw : b ∉ s.written p := fun hm => hb ((hi.blocks b).2 (Or.inr ⟨p, hm⟩))
    have hnext := h.next p b hp
    rw [Finset.card_insert_of_notMem hbw] at hnext
    have hp1 : allowance MAXOPBLOCKS s p = MAXOPBLOCKS - (s.written p).card := by
      simp [allowance, hp, Pc.inside]
    have hsum : allowance MAXOPBLOCKS s p ≤ reserve MAXOPBLOCKS s :=
      Finset.single_le_sum (fun q _ => allowance_nonneg h q) (Finset.mem_univ p)
    have hroom := h.room
    rw [hp1] at hsum
    simp only [LOGSIZE, MAXOPBLOCKS] at hfull hnext hsum hroom
    omega
  · simp at he

/-- with the log `mkfs` makes, `log_write` panics exactly when LOGSIZE - 1 blocks have been logged since the last
commit, whether or not b is one of them -/
theorem too_big_iff {allow : St P → Act P → Prop} {s : St P} (hr : Reach nlog allow s) (p : P) (b : BlockNo)
    (hp : s.pc p = .inOp) :
    step s (.logCheck p b) = some (.error (.panic .tooBigTransaction)) ↔ LOGSIZE - 1 ≤ (loggedSince s).card := by
  have hn := n_eq_card (reach_inv hr)
  have hsize := reach_size hr
  have hcheck : step s (.logCheck p b) = some (logCheck s p b) := by simp only [step, hp, if_true]
  rw [hcheck, Option.some.injEq, logCheck_tooBig, hsize, ← hn]
  simp only [nlog, LOGSIZE, MAXOPBLOCKS]
  omega

omit [Fintype P] in
/-- no other step makes that panic -/
theorem too_big_step {s : St P} {a : Act P} (hs : step s a = some (.error (.panic .tooBigTransaction))) :
    ∃ p b, a = .logCheck p b ∧ s.pc p = .inOp := by
  rcases step_error hs with ⟨p, b, ha, hp, -⟩ | ⟨p, b, -, -, he, -⟩ | ⟨p, -, -, he, -⟩
  · exact ⟨p, b, ha, hp⟩
  · simp at he
  · simp at he

/-- when `log_write` is called, fewer than LOGSIZE - 1 distinct blocks have been logged since the last commit -/
def Room (s : St P) : Act P → Prop
  | .logCheck _ _ => (loggedSince s).card < LOGSIZE - 1
  | _ => True

instance (s : St P) (a : Act P) : Decidable (Room s a) :=
  match a with
  | .logCheck _ _ => inferInstanceAs (Decidable ((loggedSince s).card < LOGSIZE - 1))
  | .call _ | .beginOp _ | .kill _ | .logAdd _ | .endOp _ | .erase _ | .finish _ => isTrue trivial

/-- **What the reservation does guarantee.** Operations log at most MAXOPBLOCKS distinct blocks each. In every run
whose `log_write` calls all find fewer than LOGSIZE - 1 distinct blocks logged since the last commit, the "too big a
transaction" panic is unreachable; and in every run whatsoever, a call that finds more reaches it. -/
theorem reservation :
    (∀ s : St P, Reach nlog (fun s a => Budget MAXOPBLOCKS s a ∧ Room s a) s → ∀ a, Budget MAXOPBLOCKS s a → Room s a →
      step s a ≠ some (.error (.panic .tooBigTransaction))) ∧
    ∀ s : St P, Reach nlog (Budget MAXOPBLOCKS) s → ∀ p b, s.pc p = .inOp →
      (step s (.logCheck p b) = some (.error (.panic .tooBigTransaction)) ↔ ¬ Room s (.logCheck p b)) := by
  constructor
  · intro s hr a _ hroom hs
    obtain ⟨p, b, rfl, hp⟩ := too_big_step hs
    have h := (too_big_iff hr p b hp).1 hs
    simp only [Room] at hroom
    omega
  · intro s hr p b hp
    rw [too_big_iff hr p b hp]
    simp only [Room, not_lt]

/-- **Nine blocks an operation suffice**: with one block less than MAXOPBLOCKS each, the panic is unreachable. -/
theorem nine_blocks_suffice {s : St P} (hr : Reach nlog (Budget (MAXOPBLOCKS - 1)) s) (a : Act P) :
    step s a ≠ some (.error (.panic .tooBigTransaction)) := by
  intro hs
  obtain ⟨p, b, rfl, hp⟩ := too_big_step hs
  have h := (too_big_iff hr p b hp).1 hs
  have hri := reserve_bound (Nat.sub_le _ _) (fun _ _ ha => ha) hr
  have hpos : 0 ≤ reserve (MAXOPBLOCKS - 1) s := Finset.sum_nonneg (fun q _ => allowance_nonneg hri q)
  have hroom := hri.room
  rw [n_eq_card (reach_inv hr)] at hroom
  simp only [LOGSIZE, MAXOPBLOCKS] at h hroom hpos
  omega

/-! ## Three full operations -/

/-- `op 0`, `op 1` and `op 2` are admitted together; `op i` logs the i-th of 29 distinct blocks -/
def fullOps {P : Type} (op : ℕ → P) : List (Act P) :=
  [.call (op 0), .call (op 1), .call (op 2), .beginOp (op 0), .beginOp (op 1), .beginOp (op 2)] ++
    (List.range 29).flatMap fun i => [.logCheck (op i) (BitVec.ofNat 32 (100 + i)), .logAdd (op i)]

def panics (r : Option (Except Fault (St (Fin 3)))) : Bool :=
  match r with
  | some (.error (.panic .tooBigTransaction)) => true
  | _ => false

theorem panics_iff (r : Option (Except Fault (St (Fin 3)))) (h : panics r = true) :
    r = some (.error (.panic .tooBigTransaction)) := by
  unfold panics at h
  split at h
  · rfl
  · cases h

/-- **Three operations within their budget reach the panic**: the third logs its tenth block. -/
theorem three_full_operations :
    ¬ ∀ s : St (Fin 3), Reach nlog (Budget MAXOPBLOCKS) s → ∀ a, Budget MAXOPBLOCKS s a →
      step s a ≠ some (.error (.panic .tooBigTransaction)) := by
  intro h
  have hrun : ((run (Budget MAXOPBLOCKS) (init nlog) (fullOps (Fin.ofNat 3))).map fun s =>
      decide (Budget MAXOPBLOCKS s (.logCheck 2 129)) && panics (step s (.logCheck 2 129))) = some true := by
    decide +kernel
  obtain ⟨s, hs, hb⟩ := Option.map_eq_some_iff.1 hrun
  rw [Bool.and_eq_true] at hb
  exact h s (run_reach _ (.init rfl) hs) (.logCheck 2 129) (of_decide_eq_true hb.1) (panics_iff _ hb.2)

/-- the last block of `fullOps` is about to be added -/
theorem no_overrun_full : ∃ s : St (Fin 3), s.lh.n = 28 ∧ step s (.logAdd 1) ≠ some (.error .overrun) := by
  have hrun : ((run (Budget MAXOPBLOCKS) (init nlog) ((fullOps (Fin.ofNat 3)).take 63)).map fun s => s.lh.n) = some 28 := by
    decide +kernel
  obtain ⟨s, hs, hn⟩ := Option.map_eq_some_iff.1 hrun
  exact ⟨s, hn, no_overrun (run_reach _ (.init rfl) hs) _⟩

/-- all three operations have logged nine blocks -/
theorem nine_blocks_suffice_full : ∃ s : St (Fin 3), s.lh.n = 27 ∧
    step s (.logCheck 2 100) ≠ some (.error (.panic .tooBigTransaction)) := by
  have hrun : ((run (Budget (MAXOPBLOCKS - 1)) (init nlog) ((fullOps (Fin.ofNat 3)).take 60)).map fun s => s.lh.n) = some 27 := by
    decide +kernel
  obtain ⟨s, hs, hn⟩ := Option.map_eq_some_iff.1 hrun
  exact ⟨s, hn, nine_blocks_suffice (run_reach _ (.init rfl) hs) _⟩

/-- the guarantee and its limit on one schedule: after 28 blocks a call is safe, after 29 it panics -/
theorem reservation_three_ops :
    (∃ s : St (Fin 3), Reach nlog (fun s a => Budget MAXOPBLOCKS s a ∧ Room s a) s ∧ s.lh.n = 28 ∧
      step s (.logCheck 1 128) ≠ some (.error (.panic .tooBigTransaction))) ∧
    ∃ s : St (Fin 3), Reach nlog (Budget MAXOPBLOCKS) s ∧ s.lh.n = 29 ∧
      step s (.logCheck 2 100) = some (.error (.panic .tooBigTransaction)) := by
  constructor
  · have hrun : ((run (fun s a => Budget MAXOPBLOCKS s a ∧ Room s a) (init nlog) ((fullOps (Fin.ofNat 3)).take 62)).map fun s =>
        decide (s.lh.n = 28 ∧ Budget MAXOPBLOCKS s (.logCheck 1 128) ∧ Room s (.logCheck 1 128))) = some true := by
      decide +kernel
    obtain ⟨s, hs, he⟩ := Option.map_eq_some_iff.1 hrun
    obtain ⟨hn, hb, hroom⟩ := of_decide_eq_true he
    have hr := run_reach _ (.init rfl) hs
    exact ⟨s, hr, hn, reservation.1 s hr _ hb hroom⟩
  · have hrun : ((run (Budget MAXOPBLOCKS) (init nlog) (fullOps (Fin.ofNat 3))).map fun s =>
        decide (s.lh.n = 29 ∧ s.pc 2 = .inOp ∧ ¬ Room s (.logCheck 2 100))) = some true := by
      decide +kernel
    obtain ⟨s, hs, he⟩ := Option.map_eq_some_iff.1 hrun
    obtain ⟨hn, hp, hroom⟩ := of_decide_eq_true he
    have hr := run_reach _ (.init rfl) hs
    exact ⟨s, hr, hn, (reservation.2 s hr 2 100 hp).2 hroom⟩

end Xv6.Reservation
