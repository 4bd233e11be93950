/-
The IDE driver serves requests one at a time, in the order of its queue, each as the memory disk would.

`Inv` relates the pointers, the processes and the device to the record of requests: the queue is the part of the record
that is not served yet, each entry of it is the request of one waiting process, and the device works on the first one or
has raised its interrupt for it. `ide_linearises` is what follows for every run.
-/
import Xv6.Ide.Model

namespace Xv6.Ide

open Xv6.Bytes Xv6.Sll Function

/-! ## Requests carried out one after another -/

/-- what a request does to its buffer and the disks, in one go -/
def carry (disk : ℕ → ℕ → Block) (b : Buf) : Result :=
  if b.dirty then
    { buf := { b with dirty := false, valid := true }
      disk := Function.update disk (b.dev % 2) (Function.update (disk (b.dev % 2)) b.blockno b.data) }
  else { buf := { b with data := disk (b.dev % 2) b.blockno, valid := true }, disk := disk }

/-- the disks after k results -/
def diskAt (disk : ℕ → ℕ → Block) (served : List Result) : ℕ → ℕ → ℕ → Block
  | 0 => disk
  | k + 1 =>
    match served[k]? with
    | none => disk
    | some r => r.disk

section

variable {disk : ℕ → ℕ → Block} {b : Buf} {served : List Result} {k : ℕ}

theorem carry_done (disk : ℕ → ℕ → Block) (b : Buf) : (carry disk b).buf.done = true := by
  unfold carry Buf.done
  split_ifs with hd
  · rfl
  · simpa using hd

/-- on disk 1 that is what the memory disk does -/
theorem carry_memide (hdone : b.done = false) (hdev : b.dev = 1) (hno : b.blockno < FSSIZE) :
    Memide.iderw (disk 1) b = some ((carry disk b).buf, (carry disk b).disk 1) := by
  have hmod : b.dev % 2 = 1 := by rw [hdev]
  unfold Memide.iderw carry
  rw [if_neg (by simp [hdone]), if_neg (by simp [hdev]), if_neg (by omega), hmod]
  split_ifs
  · simp
  · rfl

/-- a request for disk 0 leaves disk 1 alone -/
theorem carry_other (hdev : b.dev % 2 = 0) : (carry disk b).disk 1 = disk 1 := by
  unfold carry
  split_ifs
  · rw [hdev]
    simp
  · rfl

/-- an entry of a list that has got one more -/
theorem getElem?_snoc {α : Type} {l : List α} {x w : α} {k : ℕ} :
    (l ++ [x])[k]? = some w ↔ l[k]? = some w ∨ k = l.length ∧ w = x := by
  rw [List.getElem?_append]
  split_ifs with hk
  · refine ⟨.inl, fun h => h.resolve_right fun hc => ?_⟩
    omega
  · rw [List.getElem?_eq_none (Nat.not_lt.1 hk)]
    cases hj : k - l.length with
    | zero =>
      have hkl : k = l.length := by omega
      simp [hkl, eq_comm]
    | succ j =>
      have hkl : k ≠ l.length := by omega
      simp [hkl]

theorem diskAt_append {r : Result} (hk : k ≤ served.length) : diskAt disk (served ++ [r]) k = diskAt disk served k := by
  cases k with
  | zero => rfl
  | succ k => simp only [diskAt, List.getElem?_append_left hk]

theorem diskAt_last {r : Result} : diskAt disk (served ++ [r]) (served.length + 1) = r.disk := by
  simp [diskAt]

/-- the device decodes what `idestart` encodes -/
theorem regs_ofBuf (h : b.blockno < FSSIZE) :
    (Regs.ofBuf b).disk = b.dev % 2 ∧ (Regs.ofBuf b).sector = b.blockno := by
  have hfs : FSSIZE = 1000 := rfl
  have hsec : b.blockno * (BSIZE / SECTOR_SIZE) = b.blockno := Nat.mul_one _
  have hhigh : b.blockno / 2 ^ 24 % 16 = 0 := by omega
  have hsel : 0xe0 ||| b.dev % 2 * 16 ||| 0 = 0xe0 + b.dev % 2 * 16 := by
    obtain hp | hp : b.dev % 2 = 0 ∨ b.dev % 2 = 1 := by omega
    · rw [hp]
      rfl
    · rw [hp]
      rfl
  simp only [Regs.ofBuf, Regs.disk, Regs.sector, hsec, hhigh, hsel]
  omega

end

/-! ## The invariant -/

section

variable {ι : Type} {disk : ℕ → ℕ → Block} {s t : St ι} {p : ι} {b : Fin NBUF} {k : ℕ}

/-- the process has its kth request, for buffer b, in the queue or served -/
def Waits (s : St ι) (p : ι) (b : Fin NBUF) (k : ℕ) : Prop := s.pc p = .sleeping b k ∨ s.pc p = .awake b k

/-- the process is inside `iderw` with buffer b -/
def Uses (s : St ι) (p : ι) (b : Fin NBUF) : Prop := s.pc p = .called b ∨ ∃ k, Waits s p b k

/-- the requests that are not served yet -/
def St.queue (s : St ι) : List (Fin NBUF) := (s.asked.drop s.served.length).map (·.buf)

/-- the disks at the last interrupt -/
def St.seen (disk : ℕ → ℕ → Block) (s : St ι) : ℕ → ℕ → Block := diskAt disk s.served s.served.length

/-- the device works on the request x, or has finished it -/
def Busy (disk : ℕ → ℕ → Block) (d : Device) (x : Buf) : Prop :=
  x.blockno < FSSIZE ∧
  (d.cmd = some (Regs.ofBuf x) ∧ d.irq = false ∧ d.disk = disk ∨
    d.cmd = none ∧ d.irq = true ∧ d.disk = (carry disk x).disk ∧ (x.dirty = false → d.reply = disk (x.dev % 2) x.blockno))

structure Inv (disk : ℕ → ℕ → Block) (s : St ι) : Prop where
  len : s.served.length ≤ s.asked.length
  queue : Queue s.next s.queue
  owner : ∀ p b, Uses s p b → s.lock b = some p
  called : ∀ p b, s.pc p = .called b → (s.buf b).done = false
  waits : ∀ p b k, Waits s p b k → ∃ w, s.asked[k]? = some w ∧ w.buf = b
  served : ∀ p b k r, Waits s p b k → s.served[k]? = some r → s.pc p = .awake b k ∧ s.buf b = r.buf
  pending : ∀ k w, s.served.length ≤ k → s.asked[k]? = some w →
    (∃ p, Waits s p w.buf k) ∧ s.buf w.buf = w.was ∧ w.was.done = false
  rest : s.queue = [] → s.dev.cmd = none ∧ s.dev.irq = false ∧ s.dev.disk = s.seen disk
  busy : ∀ b, s.queue.head? = some b → Busy (s.seen disk) s.dev (s.buf b)
  results : ∀ k w r, s.asked[k]? = some w → s.served[k]? = some r →
    w.was.done = false ∧ w.was.blockno < FSSIZE ∧ r = carry (diskAt disk s.served k) w.was

/-- `idestart` on an idle device -/
theorem idestart_some (ht : idestart s b = some t) :
    (s.buf b).blockno < FSSIZE ∧ s.dev.cmd = none ∧
      t = { s with dev := { s.dev with cmd := some (Regs.ofBuf (s.buf b)) } } := by
  unfold idestart at ht
  split_ifs at ht with h1 h2
  refine ⟨by omega, ?_, (Option.some.inj ht).symm⟩
  simpa using h2

namespace Inv

theorem init (h : Init disk s) : Inv disk s := by
  have hq : s.queue = [] := by simp [St.queue, h.asked]
  have hpc : ∀ p b, ¬ Uses s p b := by
    rintro p b (hc | ⟨k, hc | hc⟩)
    · cases (h.pc p).symm.trans hc
    · cases (h.pc p).symm.trans hc
    · cases (h.pc p).symm.trans hc
  refine ⟨by simp [h.asked, h.served], ?_, ?_, ?_, ?_, ?_, ?_, ?_, ?_, ?_⟩
  · rw [hq]
    exact Queue.empty (h.next none)
  · exact fun p b hu => absurd hu (hpc p b)
  · exact fun p b hc => absurd (.inl hc) (hpc p b)
  · exact fun p b k hw => absurd (.inr ⟨k, hw⟩) (hpc p b)
  · exact fun p b k _ hw => absurd (.inr ⟨k, hw⟩) (hpc p b)
  · intro k w _ hw
    simp [h.asked] at hw
  · intro _
    refine ⟨h.cmd, h.irq, h.disk.trans ?_⟩
    simp [St.seen, h.served, diskAt]
  · intro b hb
    rw [hq] at hb
    cases hb
  · intro k w r hw
    simp [h.asked] at hw

/-- who is in the queue waits for it -/
theorem mem_queue (h : Inv disk s) : b ∈ s.queue ↔ ∃ p k, Waits s p b k ∧ s.served.length ≤ k := by
  rw [St.queue, List.mem_map]
  constructor
  · rintro ⟨w, hw, rfl⟩
    obtain ⟨j, hj⟩ := List.mem_iff_getElem?.1 hw
    rw [List.getElem?_drop] at hj
    obtain ⟨⟨p, hp⟩, -⟩ := h.pending _ w (by omega) hj
    exact ⟨p, _, hp, by omega⟩
  · rintro ⟨p, k, hp, hk⟩
    obtain ⟨w, hw, rfl⟩ := h.waits p b k hp
    refine ⟨w, List.mem_iff_getElem?.2 ⟨k - s.served.length, ?_⟩, rfl⟩
    rw [List.getElem?_drop]
    convert hw using 2
    omega

/-- a process uses one buffer, and a buffer is used by one process -/
theorem unique (h : Inv disk s) {p' : ι} (hu : Uses s p b) (hu' : Uses s p' b) : p = p' :=
  Option.some.inj ((h.owner p b hu).symm.trans (h.owner p' b hu'))

/-- a process that has called and not entered yet is not in the queue -/
theorem called_not_mem (h : Inv disk s) (hc : s.pc p = .called b) : b ∉ s.queue := by
  intro hb
  obtain ⟨p', k, hw, -⟩ := h.mem_queue.1 hb
  obtain rfl := h.unique (.inl hc) (.inr ⟨k, hw⟩)
  obtain hw | hw := hw
  · cases hc.symm.trans hw
  · cases hc.symm.trans hw

/-- the buffer of the first request, as it was asked for -/
theorem head (hb : s.queue.head? = some b) : ∃ w, s.asked[s.served.length]? = some w ∧ w.buf = b := by
  rw [St.queue, List.head?_map, List.head?_drop] at hb
  obtain ⟨w, hw, hwb⟩ := Option.map_eq_some_iff.1 hb
  exact ⟨w, hw, hwb⟩

/-- the buffer of a process that is not inside `iderw` is not used -/
theorem unused (h : Inv disk s) (hp : s.pc p = .out) (hb : s.lock b = some p) (q : ι) : ¬ Uses s q b := by
  intro hu
  obtain rfl : q = p := Option.some.inj ((h.owner q b hu).symm.trans hb)
  obtain hc | ⟨k, hc | hc⟩ := hu
  · cases hp.symm.trans hc
  · cases hp.symm.trans hc
  · cases hp.symm.trans hc

/-- the first request is the next to be served -/
theorem of_head (h : Inv disk s) (hb : s.queue.head? = some b) :
    ∃ p, Waits s p b s.served.length ∧ s.asked[s.served.length]? = some ⟨b, s.buf b⟩ ∧ (s.buf b).done = false := by
  obtain ⟨w, hw, rfl⟩ := head hb
  obtain ⟨⟨p, hp⟩, hwas, hdone⟩ := h.pending _ w le_rfl hw
  refine ⟨p, hp, ?_, ?_⟩
  · rw [hw, hwas]
  · rw [hwas]
    exact hdone

/-- `iderw` looks at the flags: it goes on when the request is served, and not before -/
theorem done_iff (h : Inv disk s) (hw : Waits s p b k) : (s.buf b).done = true ↔ k < s.served.length := by
  obtain ⟨w, hask, rfl⟩ := h.waits p b k hw
  constructor
  · intro hdone
    by_contra hk
    obtain ⟨-, hwas, hnot⟩ := h.pending k w (by omega) hask
    rw [hwas, hnot] at hdone
    cases hdone
  · intro hk
    have hr : s.served[k]? = some s.served[k] := List.getElem?_eq_getElem hk
    obtain ⟨-, hbuf⟩ := h.served p _ k _ hw hr
    rw [hbuf, (h.results k w _ hask hr).2.2]
    exact carry_done _ _

/-! ## Steps of the device -/

/-- the device ends the command of the first request -/
theorem finish {d : Device} (h : Inv disk s) (hd : s.dev.finish = some d) : Inv disk { s with dev := d } := by
  have hcmd : s.dev.cmd ≠ none := by
    intro hc
    rw [Device.finish, hc] at hd
    cases hd
  have hne : s.queue ≠ [] := fun hc => hcmd (h.rest hc).1
  obtain ⟨b, hb⟩ : ∃ b, s.queue.head? = some b := by
    obtain ⟨c, l, hl⟩ := List.exists_cons_of_ne_nil hne
    exact ⟨c, by rw [hl]; rfl⟩
  refine { h with rest := fun hc => absurd hc hne, busy := fun c hc => ?_ }
  obtain rfl := Option.some.inj (hb.symm.trans hc)
  obtain ⟨hno, ⟨hcmd, -, hdisk⟩ | ⟨hc, -⟩⟩ := h.busy b hb
  · refine ⟨hno, Or.inr ?_⟩
    obtain ⟨hdrive, hsector⟩ := regs_ofBuf hno
    have hwrite : (Regs.ofBuf (s.buf b)).write = if (s.buf b).dirty then some (s.buf b).data else none := rfl
    rw [Device.finish, hcmd] at hd
    dsimp only at hd
    rw [hwrite, hdrive, hsector, hdisk] at hd
    change d.cmd = none ∧ d.irq = true ∧ d.disk = (carry (s.seen disk) (s.buf b)).disk ∧
      ((s.buf b).dirty = false → d.reply = s.seen disk ((s.buf b).dev % 2) (s.buf b).blockno)
    unfold carry
    cases hdirty : (s.buf b).dirty with
    | true =>
      simp only [hdirty, if_true] at hd ⊢
      cases hd
      exact ⟨rfl, rfl, rfl, fun hc => by cases hc⟩
    | false =>
      simp only [hdirty, Bool.false_eq_true, if_false] at hd ⊢
      cases hd
      exact ⟨rfl, rfl, rfl, fun _ => rfl⟩
  · exact absurd hc hcmd

theorem waits_wakeup {q : ι} {c : Fin NBUF} (ht : t.pc = wakeup s.pc b) : Waits t q c k ↔ Waits s q c k := by
  simp only [Waits, ht, wakeup]
  cases hpc : s.pc q with
  | out => rfl
  | called e => rfl
  | sleeping e j =>
    dsimp only
    split_ifs <;> simp
  | awake e j => rfl

theorem called_wakeup {q : ι} {c : Fin NBUF} : wakeup s.pc b q = .called c ↔ s.pc q = .called c := by
  unfold wakeup
  cases hpc : s.pc q with
  | out => rfl
  | called e => rfl
  | sleeping e j =>
    dsimp only
    split_ifs <;> simp
  | awake e j => rfl

/-- the first request is served, and the device has been started on the next one if there is one -/
theorem popped {l : List (Fin NBUF)} (h : Inv disk s) (hq : s.queue = b :: l) (hno : (s.buf b).blockno < FSSIZE)
    (hpc : t.pc = wakeup s.pc b) (hlock : t.lock = s.lock) (hask : t.asked = s.asked)
    (hbuf : t.buf = update s.buf b (carry (s.seen disk) (s.buf b)).buf)
    (hserved : t.served = s.served ++ [carry (s.seen disk) (s.buf b)]) (hnext : Queue t.next l)
    (hrest : l = [] → t.dev.cmd = none ∧ t.dev.irq = false ∧ t.dev.disk = (carry (s.seen disk) (s.buf b)).disk)
    (hbusy : ∀ c, l.head? = some c → Busy (carry (s.seen disk) (s.buf b)).disk t.dev (s.buf c)) : Inv disk t := by
  have hlen := h.len
  obtain ⟨p, hp, hfirst, hdone⟩ := h.of_head (b := b) (by rw [hq]; rfl)
  have hlt : s.served.length < s.asked.length := (List.getElem?_eq_some_iff.1 hfirst).1
  have hwaits : ∀ q c k, Waits t q c k ↔ Waits s q c k := fun q c k => waits_wakeup hpc
  have hcalled : ∀ q c, t.pc q = .called c → s.pc q = .called c := fun q c hc => by
    rw [hpc] at hc
    exact called_wakeup.1 hc
  have hseen : t.seen disk = (carry (s.seen disk) (s.buf b)).disk := by
    rw [St.seen, hserved, List.length_append, List.length_singleton, diskAt_last]
  have hqueue : t.queue = l := by
    have : (s.asked.drop s.served.length).tail = s.asked.drop (s.served.length + 1) := List.tail_drop
    rw [St.queue, hask, hserved, List.length_append, List.length_singleton, ← this, List.map_tail]
    change s.queue.tail = l
    rw [hq]
    rfl
  -- the only process that waits for b is p
  have honly : ∀ q k, Waits s q b k → q = p ∧ k = s.served.length := by
    intro q k hw
    obtain rfl := h.unique (.inr ⟨k, hw⟩) (.inr ⟨_, hp⟩)
    refine ⟨rfl, ?_⟩
    obtain hw | hw := hw <;> obtain hp | hp := hp
    · simpa using hw.symm.trans hp
    · cases hw.symm.trans hp
    · cases hw.symm.trans hp
    · simpa using hw.symm.trans hp
  refine ⟨?_, ?_, ?_, ?_, ?_, ?_, ?_, ?_, ?_, ?_⟩
  · rw [hserved, hask, List.length_append, List.length_singleton]
    exact hlt
  · rw [hqueue]
    exact hnext
  · intro q c hu
    rw [hlock]
    refine h.owner q c (hu.imp (hcalled q c) ?_)
    rintro ⟨k, hw⟩
    exact ⟨k, (hwaits q c k).1 hw⟩
  · intro q c hc
    have hc' := hcalled q c hc
    have hcb : c ≠ b := by
      rintro rfl
      exact h.called_not_mem hc' (by rw [hq]; exact List.mem_cons_self)
    rw [hbuf, update_of_ne hcb]
    exact h.called q c hc'
  · intro q c k hw
    rw [hask]
    exact h.waits q c k ((hwaits q c k).1 hw)
  · intro q c k r hw hr
    have hw := (hwaits q c k).1 hw
    rw [hserved] at hr
    obtain hr | ⟨rfl, rfl⟩ := getElem?_snoc.1 hr
    · obtain ⟨hawake, hr'⟩ := h.served q c k r hw hr
      have hk := (List.getElem?_eq_some_iff.1 hr).1
      have hcb : c ≠ b := by
        rintro rfl
        have := (honly q k hw).2
        omega
      refine ⟨?_, ?_⟩
      · rw [hpc, wakeup, hawake]
      · rw [hbuf, update_of_ne hcb]
        exact hr'
    · obtain ⟨w, hw', rfl⟩ := h.waits q c _ hw
      obtain rfl := Option.some.inj (hw'.symm.trans hfirst)
      refine ⟨?_, ?_⟩
      · rw [hpc, wakeup]
        obtain hw | hw := hw <;> simp [hw]
      · rw [hbuf, update_self]
  · intro k w hk hw
    rw [hserved, List.length_append, List.length_singleton] at hk
    rw [hask] at hw
    obtain ⟨⟨q, hw'⟩, hwas⟩ := h.pending k w (by omega) hw
    have hcb : w.buf ≠ b := by
      intro hc
      rw [hc] at hw'
      have := (honly q k hw').2
      omega
    rw [hbuf, update_of_ne hcb]
    exact ⟨⟨q, (hwaits _ _ _).2 hw'⟩, hwas⟩
  · intro hc
    rw [hseen]
    exact hrest (hqueue.symm.trans hc)
  · intro c hc
    rw [hqueue] at hc
    have hcb : c ≠ b := by
      rintro rfl
      have := h.queue.nodup
      rw [hq] at this
      exact (List.nodup_cons.1 this).1 (List.mem_of_mem_head? hc)
    rw [hseen, hbuf, update_of_ne hcb]
    exact hbusy c hc
  · intro k w r hw hr
    rw [hask] at hw
    rw [hserved] at hr ⊢
    obtain hr | ⟨rfl, rfl⟩ := getElem?_snoc.1 hr
    · rw [diskAt_append (List.getElem?_eq_some_iff.1 hr).1.le]
      exact h.results k w r hw hr
    · obtain rfl := Option.some.inj (hw.symm.trans hfirst)
      rw [diskAt_append le_rfl]
      exact ⟨hdone, hno, rfl⟩

/-- the buffer `ideintr` leaves is that of the request carried out in one go -/
theorem complete_eq {x : Buf} {reply : Block} {d : ℕ → ℕ → Block} (h : x.dirty = false → reply = d (x.dev % 2) x.blockno) :
    x.complete reply = (carry d x).buf := by
  unfold Buf.complete carry
  cases hd : x.dirty with
  | true => simp
  | false =>
    rw [← h hd]
    simp

/-- **`ideintr`.** The interrupt is for the first request; it is served, and the next one started. -/
theorem intr (h : Inv disk s) (hirq : s.dev.irq = true)
    (ht : ideintr { s with dev := { s.dev with irq := false } } = some t) : Inv disk t := by
  have hne : s.queue ≠ [] := fun hc => by
    rw [(h.rest hc).2.1] at hirq
    cases hirq
  obtain ⟨b, l, hq⟩ := List.exists_cons_of_ne_nil hne
  have hpath := h.queue
  rw [hq] at hpath
  obtain ⟨hno, ⟨-, hc, -⟩ | ⟨hcmd, -, hdisk, hreply⟩⟩ := h.busy b (by rw [hq]; rfl)
  · rw [hirq] at hc
    cases hc
  have hpop := hpath.pop
  have hx : (s.buf b).complete s.dev.reply = (carry (s.seen disk) (s.buf b)).buf := complete_eq hreply
  have hres : (⟨(s.buf b).complete s.dev.reply, s.dev.disk⟩ : Result) = carry (s.seen disk) (s.buf b) := by
    rw [hx, hdisk]
  unfold ideintr at ht
  simp only [hpath.head, List.head?_cons, update_self, hres] at ht
  rw [show s.next (some b) = l.head? by have := hpop.head; rwa [update_self] at this] at ht hpop
  rw [hx] at ht
  cases l with
  | nil =>
    cases ht
    exact h.popped hq hno rfl rfl rfl rfl rfl hpop (fun _ => ⟨hcmd, rfl, hdisk⟩) fun c hc => by cases hc
  | cons c l =>
    obtain ⟨hc, -, rfl⟩ := idestart_some ht
    have hcb : c ≠ b := by
      rintro rfl
      exact (List.nodup_cons.1 hpath.nodup).1 List.mem_cons_self
    dsimp only at hc
    rw [update_of_ne hcb] at hc
    dsimp only
    rw [update_of_ne hcb]
    refine h.popped hq hno rfl rfl rfl rfl rfl hpop (fun hl => by cases hl) fun e he => ?_
    obtain rfl : c = e := by simpa using he
    exact ⟨hc, .inl ⟨rfl, rfl, hdisk⟩⟩

/-! ## Steps of the processes -/

theorem lock (h : Inv disk s) (hb : s.lock b = none) : Inv disk { s with lock := update s.lock b (some p) } := by
  refine { h with owner := fun q c hu => ?_ }
  have hq := h.owner q c hu
  refine (update_of_ne ?_ _ _).trans hq
  rintro rfl
  cases hb.symm.trans hq

theorem unlock (h : Inv disk s) (hp : s.pc p = .out) (hb : s.lock b = some p) :
    Inv disk { s with lock := update s.lock b none } := by
  refine { h with owner := fun q c hu => ?_ }
  refine (update_of_ne ?_ _ _).trans (h.owner q c hu)
  rintro rfl
  exact h.unused hp hb q hu

theorem edit (h : Inv disk s) (hp : s.pc p = .out) (hb : s.lock b = some p) (x : Buf) :
    Inv disk { s with buf := update s.buf b x } := by
  have hne : ∀ q c, Uses s q c → update s.buf b x c = s.buf c := by
    intro q c hu
    refine update_of_ne ?_ _ _
    rintro rfl
    exact h.unused hp hb q hu
  refine { h with
    called := fun q c hc => ?_
    served := fun q c k r hw hr => ?_
    pending := fun k w hk hw => ?_
    busy := fun c hc => ?_ }
  · dsimp only
    rw [hne q c (.inl hc)]
    exact h.called q c hc
  · dsimp only
    rw [hne q c (.inr ⟨k, hw⟩)]
    exact h.served q c k r hw hr
  · obtain ⟨⟨q, hq⟩, hwas⟩ := h.pending k w hk hw
    dsimp only
    rw [hne q w.buf (.inr ⟨k, hq⟩)]
    exact ⟨⟨q, hq⟩, hwas⟩
  · obtain ⟨q, hq, -⟩ := h.of_head hc
    dsimp only
    rw [hne q c (.inr ⟨_, hq⟩)]
    exact h.busy c hc

variable [DecidableEq ι]

theorem waits_setPc {q : ι} {x : Pc} (hq : q ≠ p) : Waits (s.setPc p x) q b k ↔ Waits s q b k := by
  simp only [Waits, St.setPc, update_of_ne hq]

theorem pc_setPc {q : ι} {x : Pc} (hq : q ≠ p) : (s.setPc p x).pc q = s.pc q := update_of_ne hq _ _

/-- a process that waits for nothing moves to a place where it waits for nothing -/
theorem setPc {x : Pc} (h : Inv disk s) (hp : ∀ b k, Waits s p b k → k < s.served.length)
    (hx : x = .out ∨ ∃ b, x = .called b ∧ s.lock b = some p ∧ (s.buf b).done = false) : Inv disk (s.setPc p x) := by
  have hself : (s.setPc p x).pc p = x := update_self _ _ _
  have hnot : ∀ b k, ¬ Waits (s.setPc p x) p b k := by
    intro b k hw
    obtain rfl | ⟨c, rfl, -⟩ := hx
    · exact hw.elim (fun hc => by cases hself.symm.trans hc) fun hc => by cases hself.symm.trans hc
    · exact hw.elim (fun hc => by cases hself.symm.trans hc) fun hc => by cases hself.symm.trans hc
  have hcalled : ∀ b, (s.setPc p x).pc p = .called b → s.lock b = some p ∧ (s.buf b).done = false := by
    intro b hc
    obtain rfl | ⟨c, rfl, hc'⟩ := hx
    · cases hself.symm.trans hc
    · obtain rfl : c = b := by simpa using hself.symm.trans hc
      exact hc'
  refine { h with owner := ?_, called := ?_, waits := ?_, served := ?_, pending := ?_ }
  · intro q b hu
    by_cases hq : q = p
    · subst hq
      obtain hu | ⟨k, hu⟩ := hu
      · exact (hcalled b hu).1
      · exact absurd hu (hnot b k)
    · refine h.owner q b (hu.imp (fun hc => (pc_setPc hq).symm.trans hc) ?_)
      rintro ⟨k, hw⟩
      exact ⟨k, (waits_setPc hq).1 hw⟩
  · intro q b hc
    by_cases hq : q = p
    · subst hq
      exact (hcalled b hc).2
    · exact h.called q b ((pc_setPc hq).symm.trans hc)
  · intro q b k hw
    by_cases hq : q = p
    · subst hq
      exact absurd hw (hnot b k)
    · exact h.waits q b k ((waits_setPc hq).1 hw)
  · intro q b k r hw hr
    by_cases hq : q = p
    · subst hq
      exact absurd hw (hnot b k)
    · rw [pc_setPc hq]
      exact h.served q b k r ((waits_setPc hq).1 hw) hr
  · intro k w hk hw
    obtain ⟨⟨q, hq⟩, hwas⟩ := h.pending k w hk hw
    refine ⟨⟨q, (waits_setPc ?_).2 hq⟩, hwas⟩
    rintro rfl
    exact absurd (hp _ _ hq) (Nat.not_lt.2 hk)

/-- a waiting process wakes up, or goes back to sleep if its request is not served -/
theorem setWait {x : Pc} (h : Inv disk s) (hw : Waits s p b k)
    (hx : x = .awake b k ∨ x = .sleeping b k ∧ s.served.length ≤ k) : Inv disk (s.setPc p x) := by
  have hself : (s.setPc p x).pc p = x := update_self _ _ _
  have hwaits : ∀ q c j, Waits (s.setPc p x) q c j ↔ Waits s q c j := by
    intro q c j
    by_cases hq : q = p
    · subst hq
      rw [Waits, hself]
      obtain hw | hw := hw
      · rw [Waits, hw]
        obtain rfl | ⟨rfl, -⟩ := hx <;> simp
      · rw [Waits, hw]
        obtain rfl | ⟨rfl, -⟩ := hx <;> simp
    · exact waits_setPc hq
  have hcalled : ∀ q c, (s.setPc p x).pc q = .called c ↔ s.pc q = .called c := by
    intro q c
    by_cases hq : q = p
    · subst hq
      rw [hself]
      obtain hw | hw := hw
      · rw [hw]
        obtain rfl | ⟨rfl, -⟩ := hx <;> simp
      · rw [hw]
        obtain rfl | ⟨rfl, -⟩ := hx <;> simp
    · rw [pc_setPc hq]
  refine { h with owner := ?_, called := ?_, waits := ?_, served := ?_, pending := ?_ }
  · intro q c hu
    refine h.owner q c (hu.imp (hcalled q c).1 ?_)
    rintro ⟨j, hj⟩
    exact ⟨j, (hwaits q c j).1 hj⟩
  · intro q c hc
    exact h.called q c ((hcalled q c).1 hc)
  · intro q c j hj
    exact h.waits q c j ((hwaits q c j).1 hj)
  · intro q c j r hj hr
    obtain ⟨hawake, hbuf⟩ := h.served q c j r ((hwaits q c j).1 hj) hr
    refine ⟨?_, hbuf⟩
    by_cases hq : q = p
    · subst hq
      obtain hw | hw := hw
      · cases hw.symm.trans hawake
      · obtain ⟨rfl, rfl⟩ : b = c ∧ k = j := by simpa using hw.symm.trans hawake
        obtain rfl | ⟨rfl, hk⟩ := hx
        · exact hself
        · cases (List.getElem?_eq_none hk).symm.trans hr
    · rw [pc_setPc hq]
      exact hawake
  · intro j w hj hw
    obtain ⟨⟨q, hq⟩, hwas⟩ := h.pending j w hj hw
    exact ⟨⟨q, (hwaits _ _ _).2 hq⟩, hwas⟩

theorem retry (h : Inv disk s) (hp : s.pc p = .awake b k) : Inv disk (await s p b k) := by
  have hw : Waits s p b k := .inr hp
  unfold await
  split_ifs with hd
  · have hk := (h.done_iff hw).1 hd
    refine h.setPc (fun c j hj => ?_) (.inl rfl)
    obtain hj | hj := hj
    · cases hp.symm.trans hj
    · obtain ⟨-, rfl⟩ : b = c ∧ k = j := by simpa using hp.symm.trans hj
      exact hk
  · refine h.setWait hw (.inr ⟨rfl, ?_⟩)
    by_contra hk
    exact hd ((h.done_iff hw).2 (by omega))

/-- a request at the end of the queue, with a device that has been started on it if it is the only one -/
theorem asked (h : Inv disk s) (hp : s.pc p = .called b) (hpc : t.pc = update s.pc p (.sleeping b s.asked.length))
    (hask : t.asked = s.asked ++ [⟨b, s.buf b⟩]) (hserved : t.served = s.served) (hbuf : t.buf = s.buf)
    (hlock : t.lock = s.lock) (hnext : Queue t.next (s.queue ++ [b]))
    (hempty : s.queue = [] → Busy (s.seen disk) t.dev (s.buf b)) (hsame : s.queue ≠ [] → t.dev = s.dev) : Inv disk t := by
  have hlen := h.len
  have hb := h.called_not_mem hp
  have hdone := h.called p b hp
  have hseen : t.seen disk = s.seen disk := by rw [St.seen, St.seen, hserved]
  have hqueue : t.queue = s.queue ++ [b] := by
    rw [St.queue, hask, hserved, List.drop_append_of_le_length hlen, List.map_append]
    rfl
  have hpw : ∀ c k, ¬ Waits s p c k := by
    rintro c k (hc | hc)
    · cases hp.symm.trans hc
    · cases hp.symm.trans hc
  have hwaits : ∀ q c k, Waits t q c k ↔ q = p ∧ c = b ∧ k = s.asked.length ∨ Waits s q c k := by
    intro q c k
    by_cases hq : q = p
    · subst hq
      simp only [Waits, hpc, update_self, Pc.sleeping.injEq, reduceCtorEq, or_false, true_and]
      refine ⟨fun hc => .inl ⟨hc.1.symm, hc.2.symm⟩, fun hc => ?_⟩
      obtain ⟨rfl, rfl⟩ := hc.resolve_right (hpw c k)
      exact ⟨rfl, rfl⟩
    · simp only [Waits, hpc, update_of_ne hq, hq, false_and, false_or]
  have hcalled : ∀ q c, t.pc q = .called c → s.pc q = .called c := by
    intro q c hc
    rw [hpc] at hc
    by_cases hq : q = p
    · rw [hq, update_self] at hc
      cases hc
    · rwa [update_of_ne hq] at hc
  refine ⟨?_, ?_, ?_, ?_, ?_, ?_, ?_, ?_, ?_, ?_⟩
  · rw [hserved, hask, List.length_append]
    exact hlen.trans (Nat.le_add_right _ _)
  · rw [hqueue]
    exact hnext
  · intro q c hu
    rw [hlock]
    obtain hu | ⟨k, hu⟩ := hu
    · exact h.owner q c (.inl (hcalled q c hu))
    · obtain ⟨rfl, rfl, -⟩ | hu := (hwaits q c k).1 hu
      · exact h.owner q c (.inl hp)
      · exact h.owner q c (.inr ⟨k, hu⟩)
  · intro q c hc
    rw [hbuf]
    exact h.called q c (hcalled q c hc)
  · intro q c k hw
    rw [hask]
    obtain ⟨-, rfl, rfl⟩ | hw := (hwaits q c k).1 hw
    · exact ⟨_, getElem?_snoc.2 (.inr ⟨rfl, rfl⟩), rfl⟩
    · obtain ⟨w, hk, hwc⟩ := h.waits q c k hw
      exact ⟨w, getElem?_snoc.2 (.inl hk), hwc⟩
  · intro q c k r hw hr
    rw [hserved] at hr
    have hk := (List.getElem?_eq_some_iff.1 hr).1
    obtain ⟨-, -, rfl⟩ | hw := (hwaits q c k).1 hw
    · omega
    · obtain ⟨hawake, hr⟩ := h.served q c k r hw hr
      have hqp : q ≠ p := fun hq => hpw c k (hq ▸ hw)
      rw [hbuf, hpc, update_of_ne hqp]
      exact ⟨hawake, hr⟩
  · intro k w hk hw
    rw [hserved] at hk
    rw [hask] at hw
    rw [hbuf]
    obtain hw | ⟨rfl, rfl⟩ := getElem?_snoc.1 hw
    · obtain ⟨⟨q, hq⟩, hwas⟩ := h.pending k w hk hw
      exact ⟨⟨q, (hwaits _ _ _).2 (.inr hq)⟩, hwas⟩
    · exact ⟨⟨p, (hwaits _ _ _).2 (.inl ⟨rfl, rfl, rfl⟩)⟩, rfl, hdone⟩
  · intro hc
    rw [hqueue] at hc
    exact absurd hc (by simp)
  · intro c hc
    rw [hseen, hbuf]
    rw [hqueue] at hc
    by_cases hq : s.queue = []
    · rw [hq] at hc
      obtain rfl : b = c := by simpa using hc
      exact hempty hq
    · rw [hsame hq]
      refine h.busy c ?_
      rwa [List.head?_append_of_ne_nil _ hq] at hc
  · intro k w r hw hr
    rw [hask] at hw
    rw [hserved] at hr ⊢
    have hk := (List.getElem?_eq_some_iff.1 hr).1
    obtain hw | ⟨rfl, -⟩ := getElem?_snoc.1 hw
    · exact h.results k w r hw hr
    · omega

/-- **`iderw` under the lock.** The request is appended, and the device started on it if the queue was empty. -/
theorem enter (h : Inv disk s) (hp : s.pc p = .called b) (ht : enter s p b = some t) : Inv disk t := by
  have hb := h.called_not_mem hp
  have hdone := h.called p b hp
  have hlen : s.queue.length < NBUF + 1 := by
    have := h.queue.nodup.length_le_card
    rw [Fintype.card_fin] at this
    omega
  have hcleared := h.queue.congr hb none
  have hpush := hcleared.push hb (update_self _ _ _)
  obtain ⟨u, hu, v, hv, rfl⟩ : ∃ u, append s b = some u ∧ ∃ v, startIf u b = some v ∧
      await v p b s.asked.length = t := by
    simpa [Ide.enter, Option.bind_eq_some_iff] using ht
  rw [append, hcleared.last hlen, Option.map_some] at hu
  cases hu
  have hfirst := hpush.head
  unfold startIf at hv
  by_cases hq : s.queue = []
  · rw [hq] at hfirst
    rw [if_pos (by dsimp only; rw [hq]; exact hfirst)] at hv
    obtain ⟨hno, hcmd, rfl⟩ := idestart_some hv
    obtain ⟨-, hirq, hdisk⟩ := h.rest hq
    simp only [await, hdone, Bool.false_eq_true, if_false]
    exact h.asked hp rfl rfl rfl rfl rfl hpush (fun _ => ⟨hno, .inl ⟨rfl, hirq, hdisk⟩⟩) fun hc => absurd hq hc
  · have hne : ¬ update (update s.next (some b) none) (endOf none s.queue) (some b) none = some b := by
      intro hc
      rw [hfirst, List.head?_append_of_ne_nil _ hq] at hc
      exact hb (List.mem_of_mem_head? hc)
    rw [if_neg hne] at hv
    cases hv
    simp only [await, hdone, Bool.false_eq_true, if_false]
    exact h.asked hp rfl rfl rfl rfl rfl hpush (fun hc => absurd hc hq) fun _ => rfl

/-- every step keeps the invariant -/
theorem step {a : Act ι} (h : Inv disk s) (ht : step s a = some t) : Inv disk t := by
  cases a with
  | lock p b =>
    simp only [Ide.step] at ht
    split_ifs at ht with hc
    cases ht
    exact h.lock hc.2
  | unlock p b =>
    simp only [Ide.step] at ht
    split_ifs at ht with hc
    cases ht
    exact h.unlock hc.1 hc.2
  | edit p b x =>
    simp only [Ide.step] at ht
    split_ifs at ht with hc
    cases ht
    exact h.edit hc.1 hc.2 x
  | call p b =>
    simp only [Ide.step, call] at ht
    split_ifs at ht with hc hdone hdev
    cases ht
    refine h.setPc ?_ (.inr ⟨b, rfl, hc.2, by simpa using hdone⟩)
    rintro c k (hw | hw)
    · cases hc.1.symm.trans hw
    · cases hc.1.symm.trans hw
  | enter p =>
    simp only [Ide.step] at ht
    split at ht
    next b hp => exact h.enter hp ht
    next => cases ht
  | wake p =>
    simp only [Ide.step] at ht
    split at ht
    next b k hp =>
      cases ht
      exact h.setWait (.inl hp) (.inl rfl)
    next => cases ht
  | retry p =>
    simp only [Ide.step] at ht
    split at ht
    next b k hp =>
      cases ht
      exact h.retry hp
    next => cases ht
  | finish =>
    obtain ⟨d, hd, rfl⟩ := Option.map_eq_some_iff.1 ht
    exact h.finish hd
  | intr =>
    simp only [Ide.step] at ht
    split_ifs at ht with hirq
    exact h.intr hirq ht

end Inv

/-! ## Every run -/

variable [DecidableEq ι]

/-- what holds of the driver between any two steps -/
structure Linearised (disk : ℕ → ℕ → Block) (s : St ι) : Prop where
  /-- the pointers form a list without repetition, of the requests that are not served, in the order they came in -/
  queue : Queue s.next s.queue
  /-- a buffer is in it as long as a process waits for a request that is not served -/
  pending : ∀ b, b ∈ s.queue ↔ ∃ p k, Waits s p b k ∧ s.served.length ≤ k
  /-- the request of a waiting process is the one it entered with -/
  request : ∀ p b k, Waits s p b k → ∃ w, s.asked[k]? = some w ∧ w.buf = b
  /-- a command in progress is that of the first buffer -/
  active : ∀ r, s.dev.cmd = some r → ∃ b, s.queue.head? = some b ∧ r = Regs.ofBuf (s.buf b)
  /-- and the device is at work, or its interrupt raised, whenever there is a first buffer -/
  progress : s.queue ≠ [] ↔ s.dev.cmd ≠ none ∨ s.dev.irq = true
  /-- the kth result is the kth request carried out by the memory disk, on the disk as the result before left it -/
  atomic : ∀ k w r, s.asked[k]? = some w → s.served[k]? = some r → w.was.dev = 1 →
    Memide.iderw (diskAt disk s.served k 1) w.was = some (r.buf, r.disk 1)
  /-- requests for disk 0 do not change disk 1 -/
  other : ∀ k w r, s.asked[k]? = some w → s.served[k]? = some r → w.was.dev % 2 = 0 →
    r.disk 1 = diskAt disk s.served k 1
  /-- `iderw` returns once its request is served, with the buffer of its result -/
  returns : ∀ p b k t, s.pc p = .awake b k → step s (.retry p) = some t →
    (t.pc p = .out ↔ k < s.served.length) ∧ ∀ r, s.served[k]? = some r → t.buf b = r.buf
  /-- no process sleeps on a request that is served -/
  woken : ∀ p b k, s.pc p = .sleeping b k → s.served.length ≤ k

theorem Inv.linearised (h : Inv disk s) : Linearised disk s where
  queue := h.queue
  pending _ := h.mem_queue
  request := h.waits
  active r hr := by
    have hne : s.queue ≠ [] := fun hc => by
      rw [(h.rest hc).1] at hr
      cases hr
    obtain ⟨b, l, hq⟩ := List.exists_cons_of_ne_nil hne
    have hb : s.queue.head? = some b := by rw [hq]; rfl
    obtain ⟨-, ⟨hcmd, -⟩ | ⟨hcmd, -⟩⟩ := h.busy b hb
    · exact ⟨b, hb, Option.some.inj (hr.symm.trans hcmd)⟩
    · cases hr.symm.trans hcmd
  progress := by
    constructor
    · intro hne
      obtain ⟨b, l, hq⟩ := List.exists_cons_of_ne_nil hne
      obtain ⟨-, ⟨hcmd, -⟩ | ⟨-, hirq, -⟩⟩ := h.busy b (by rw [hq]; rfl)
      · exact .inl (by rw [hcmd]; exact Option.some_ne_none _)
      · exact .inr hirq
    · intro hdev hc
      obtain ⟨hcmd, hirq, -⟩ := h.rest hc
      obtain hdev | hdev := hdev
      · exact hdev hcmd
      · cases hirq.symm.trans hdev
  atomic k w r hw hr hdev := by
    obtain ⟨hdone, hno, rfl⟩ := h.results k w r hw hr
    exact carry_memide hdone hdev hno
  other k w r hw hr hdev := by
    obtain ⟨-, -, rfl⟩ := h.results k w r hw hr
    exact carry_other hdev
  returns p b k t hp ht := by
    have hw : Waits s p b k := .inr hp
    obtain rfl : await s p b k = t := by simpa [Ide.step, hp] using ht
    refine ⟨?_, fun r hr => (h.served p b k r hw hr).2⟩
    rw [← h.done_iff hw]
    simp only [await, St.setPc, update_self]
    cases (s.buf b).done <;> simp
  woken p b k hp := by
    by_contra hk
    have hr : s.served[k]? = some s.served[k] := List.getElem?_eq_getElem (by omega)
    cases hp.symm.trans (h.served p b k _ (.inl hp) hr).1

/-- **The driver linearises to the memory disk**, in every run of any number of processes. -/
theorem ide_linearises (h : (machine ι disk).Reach s) : Linearised disk s :=
  (h.invariant (I := Inv disk) (fun _ h0 => Inv.init h0) fun _ _ _ hs hnext => hs.step hnext).linearised

end

/-- two processes, a read of block 5 and a write of block 7; the second request comes in while the first is served -/
def twoRequests : List (Act Bool) :=
  [.lock false ⟨0, NBUF_pos⟩, .lock true ⟨1, by decide⟩, .edit true ⟨1, by decide⟩ ⟨1, 7, true, true, fun _ => 9⟩,
    .call false ⟨0, NBUF_pos⟩, .enter false, .call true ⟨1, by decide⟩,
    .wake false, .enter true, .finish, .retry false, .intr, .retry false, .finish, .intr, .retry true]

def atRest : St Bool where
  buf _ := ⟨1, 5, false, false, fun _ => 0⟩
  next _ := none
  lock _ := none
  pc _ := .out
  dev := ⟨fun _ _ _ => 3, none, false, fun _ => 0⟩
  havedisk1 := true
  asked := []
  served := []

/-- Both requests are served, and both processes have returned. -/
theorem ide_linearises_two_requests : ∃ s, twoRequests.foldlM step atRest = some s ∧
    s.served.length = 2 ∧ s.pc false = .out ∧ s.pc true = .out ∧ Linearised (fun _ _ _ => 3) s := by
  have hrun : (twoRequests.foldlM step atRest).map (fun s => (s.served.length, s.pc false, s.pc true)) =
      some (2, .out, .out) := by decide +kernel
  obtain ⟨s, hs, hres⟩ := Option.map_eq_some_iff.1 hrun
  obtain ⟨h1, h2, h3⟩ : s.served.length = 2 ∧ s.pc false = .out ∧ s.pc true = .out := by simpa using hres
  have hinit : Init (fun _ _ _ => 3) atRest := ⟨fun _ => rfl, fun _ => rfl, fun _ => rfl, rfl, rfl, rfl, rfl, rfl⟩
  exact ⟨s, hs, h1, h2, h3, ide_linearises (Machine.Reach.foldlM twoRequests (.init hinit) hs)⟩

end Xv6.Ide
