/-
The log's disk protocol (`log.c`): `write_log`, `write_head`, `install_trans`, `commit` and `recover_from_log`, down to
the single block writes they issue.

`Io` is the disk with the buffer cache in front of it: `bread` returns the cached contents of a block if there are any,
`bwrite` writes through. Every disk write is recorded in order, so a crash point is a prefix of that record; a reboot
keeps the disk and loses the cache. A header block is the `struct logheader` as it lies in memory: the int `n` and the
array `block`, little-endian.

Results:
- `decodeHead_encodeHead`: `read_head` reads back what `write_head` wrote;
- `commit_did`, `recoverFromLog_did`: the two programs issue exactly the writes of the redo-log protocol
  (`RedoLog.commitWrites`, `RedoLog.recoverWrites`);
- `crash_atomicity`: cut `commit` anywhere, cut any number of recoveries anywhere, let one recovery finish: the home
  blocks hold all new contents if the cut commit had written the header, all old contents otherwise.
-/
import Xv6.Core.Bytes
import Xv6.Core.Machine
import Xv6.Core.RedoLog
import Xv6.Param

namespace Xv6.Log

open Xv6.Bytes Xv6.RedoLog

/-! ## Model -/

/-- block numbers are `uint` -/
abbrev BlockNo := BitVec 32

/-- the BSIZE bytes of a block -/
abbrev Block := Store

/-- struct logheader: `block[0..n)`, with `n` its length; the array has LOGSIZE entries -/
structure LogHeader where
  block : List BlockNo
  fits : block.length ≤ LOGSIZE

def LogHeader.n (lh : LogHeader) : ℕ := lh.block.length

/-- `log.lh.n = 0` -/
def LogHeader.empty : LogHeader := ⟨[], Nat.zero_le _⟩

/-- the disk, the valid cached buffers, and every disk write issued so far, oldest first -/
structure Io where
  disk : BlockNo → Block
  cache : BlockNo → Option Block
  writes : List (BlockNo × Block)

/-- what a process reads in block b -/
def Io.look (s : Io) (b : BlockNo) : Block := (s.cache b).getD (s.disk b)

/-- after a reboot the cache is empty -/
def boot (d : BlockNo → Block) : Io := ⟨d, fun _ => none, []⟩

def bread (s : Io) (b : BlockNo) : Block × Io :=
  match s.cache b with
  | some data => (data, s)
  | none => (s.disk b, { s with cache := Function.update s.cache b (some (s.disk b)) })

def bwrite (s : Io) (b : BlockNo) (data : Block) : Io :=
  { disk := Function.update s.disk b data
    cache := Function.update s.cache b (some data)
    writes := s.writes ++ [(b, data)] }

/-- `log.start+tail+1` -/
def logSlot (start : BlockNo) (tail : ℕ) : BlockNo := start + BitVec.ofNat 32 tail + 1

/-- one turn of the loop of `install_trans`: copy log block `tail` to its home -/
def installOne (start : BlockNo) (s : Io) (e : BlockNo × ℕ) : Io :=
  let (lbuf, s) := bread s (logSlot start e.2)
  let (_, s) := bread s e.1
  bwrite s e.1 lbuf

def installTrans (start : BlockNo) (lh : LogHeader) (s : Io) : Io := lh.block.zipIdx.foldl (installOne start) s

/-- the header block as `read_head` reads it: a negative n copies nothing, an n above LOGSIZE overruns `log.lh.block` -/
def decodeHead (buf : Block) : Option LogHeader :=
  let n : ℤ := (BitVec.ofNat 32 (getLE buf 0 4)).toInt
  if h : n.toNat ≤ LOGSIZE then
    some ⟨(List.range n.toNat).map fun i => BitVec.ofNat 32 (getLE buf (4 + 4 * i) 4), by simpa using h⟩
  else none

/-- the header block as `write_head` leaves it: `n` and `block[0..n)` stored into the buffer -/
def encodeHead (buf : Block) (lh : LogHeader) : Block :=
  putWords 4 (putLE buf 0 4 lh.n) 4 (lh.block.map BitVec.toNat)

def readHead (start : BlockNo) (s : Io) : Option (LogHeader × Io) :=
  let (buf, s) := bread s start
  (decodeHead buf).map fun lh => (lh, s)

def writeHead (start : BlockNo) (lh : LogHeader) (s : Io) : Io :=
  let (buf, s) := bread s start
  bwrite s start (encodeHead buf lh)

def recoverFromLog (start : BlockNo) (s : Io) : Option Io := do
  let (lh, s) ← readHead start s
  let s := installTrans start lh s
  some (writeHead start .empty s)

/-- one turn of the loop of `write_log`: copy a cached home block to log block `tail` -/
def writeLogOne (start : BlockNo) (s : Io) (e : BlockNo × ℕ) : Io :=
  let (_, s) := bread s (logSlot start e.2)
  let (buf, s) := bread s e.1
  bwrite s (logSlot start e.2) buf

def writeLog (start : BlockNo) (lh : LogHeader) (s : Io) : Io := lh.block.zipIdx.foldl (writeLogOne start) s

/-- `commit()`, with the in-memory header it leaves -/
def commit (start : BlockNo) (lh : LogHeader) (s : Io) : LogHeader × Io :=
  if 0 < lh.n then
    let s := writeLog start lh s
    let s := writeHead start lh s
    let s := installTrans start lh s
    (.empty, writeHead start .empty s)
  else (lh, s)

/-- reboots that crash: recovery starts on the disk left by the last crash and is cut after `k` writes -/
def reboots (start : BlockNo) (d : BlockNo → Block) : List ℕ → Option (BlockNo → Block)
  | [] => some d
  | k :: ks => do
    let t ← recoverFromLog start (boot d)
    reboots start (applyWrites d (t.writes.take k)) ks

/-- block b is one of the `log.size` blocks from `log.start` on -/
def InLogArea (start : BlockNo) (size : ℤ) (b : BlockNo) : Prop := ((b - start).toNat : ℤ) < size

instance (start : BlockNo) (size : ℤ) (b : BlockNo) : Decidable (InLogArea start size b) :=
  inferInstanceAs (Decidable (_ < _))

/-! ## Headers -/

theorem LogHeader.n_le (lh : LogHeader) : lh.n ≤ 30 := lh.fits

theorem count_encodeHead (buf : Block) (lh : LogHeader) : getLE (encodeHead buf lh) 0 4 = lh.n := by
  have hfits := lh.n_le
  rw [encodeHead, getLE_putWords_disjoint _ _ _ _ _ _ (Or.inl (by omega)), getLE_putLE]
  exact Nat.mod_eq_of_lt (by omega)

theorem block_encodeHead (buf : Block) (lh : LogHeader) :
    (List.range lh.n).map (fun i => BitVec.ofNat 32 (getLE (encodeHead buf lh) (4 + 4 * i) 4)) = lh.block := by
  apply List.ext_getElem
  · simp [LogHeader.n]
  · intro i h1 h2
    have hi : i < (lh.block.map BitVec.toNat).length := by simpa using h2
    have hlt := lh.block[i].isLt
    simp only [List.getElem_map, List.getElem_range]
    rw [encodeHead, getLE_putWords _ _ _ _ _ hi, List.getElem_map]
    apply BitVec.eq_of_toNat_eq
    rw [BitVec.toNat_ofNat]
    omega

/-- **Header round trip.** `read_head` reads back the header `write_head` wrote, whatever the block held before. -/
theorem decodeHead_encodeHead (buf : Block) (lh : LogHeader) : decodeHead (encodeHead buf lh) = some lh := by
  have hfits := lh.n_le
  have hint : (BitVec.ofNat 32 (getLE (encodeHead buf lh) 0 4)).toInt.toNat = lh.n := by
    rw [count_encodeHead, BitVec.toInt_eq_toNat_of_lt, BitVec.toNat_ofNat]
    · omega
    · rw [BitVec.toNat_ofNat]; omega
  unfold decodeHead
  simp only [hint, block_encodeHead]
  exact dif_pos lh.fits

/-- an on-disk count of 0 reads as the empty header -/
theorem decodeHead_of_count {buf : Block} (h : getLE buf 0 4 = 0) : decodeHead buf = some .empty := by
  simp [decodeHead, h, LogHeader.empty]

/-! ## What the programs write -/

@[simp] theorem bread_fst (s : Io) (b : BlockNo) : (bread s b).1 = s.look b := by
  unfold bread Io.look
  cases s.cache b <;> rfl

/-- from s to t exactly the writes `ws` were issued; disk and cache saw the same writes -/
structure Did (s t : Io) (ws : List (BlockNo × Block)) : Prop where
  disk : t.disk = applyWrites s.disk ws
  look : t.look = applyWrites s.look ws
  writes : t.writes = s.writes ++ ws

theorem Did.trans {s t u : Io} {ws vs : List (BlockNo × Block)} (h1 : Did s t ws) (h2 : Did t u vs) :
    Did s u (ws ++ vs) :=
  ⟨by rw [h2.disk, h1.disk, applyWrites_append], by rw [h2.look, h1.look, applyWrites_append],
    by rw [h2.writes, h1.writes, List.append_assoc]⟩

theorem bread_did (s : Io) (b : BlockNo) : Did s (bread s b).2 [] := by
  unfold bread
  cases hc : s.cache b with
  | some data => exact ⟨rfl, rfl, by simp⟩
  | none =>
    refine ⟨rfl, ?_, by simp⟩
    funext x
    by_cases hx : x = b
    · subst hx; simp [Io.look, hc]
    · simp [Io.look, Function.update_of_ne hx]

theorem bwrite_did (s : Io) (b : BlockNo) (data : Block) : Did s (bwrite s b data) [(b, data)] := by
  refine ⟨rfl, ?_, rfl⟩
  funext x
  by_cases hx : x = b
  · subst hx; simp [Io.look, bwrite]
  · simp [Io.look, bwrite, Function.update_of_ne hx]

theorem bread_look (s : Io) (b : BlockNo) : (bread s b).2.look = s.look := (bread_did s b).look

theorem installOne_did (start : BlockNo) (s : Io) (b : BlockNo) (i : ℕ) :
    Did s (installOne start s (b, i)) [(b, s.look (logSlot start i))] := by
  have h := ((bread_did s (logSlot start i)).trans (bread_did _ b)).trans
    (bwrite_did _ b (s.look (logSlot start i)))
  simpa [installOne] using h

theorem writeLogOne_did (start : BlockNo) (s : Io) (b : BlockNo) (i : ℕ) :
    Did s (writeLogOne start s (b, i)) [(logSlot start i, s.look b)] := by
  have h := ((bread_did s (logSlot start i)).trans (bread_did _ b)).trans
    (bwrite_did _ (logSlot start i) (s.look b))
  simpa [writeLogOne, bread_look] using h

theorem writeHead_did (start : BlockNo) (lh : LogHeader) (s : Io) :
    Did s (writeHead start lh s) [(start, encodeHead (s.look start) lh)] := by
  have h := (bread_did s start).trans (bwrite_did _ start (encodeHead (s.look start) lh))
  simpa [writeHead] using h

/-- a loop that copies block `src e` to block `dst e` for every entry e: if no destination is a source, every copy has
the contents from before the loop -/
theorem copyLoop_did {E : Type} (f : Io → E → Io) (dst src : E → BlockNo)
    (hf : ∀ s e, Did s (f s e) [(dst e, s.look (src e))]) (es : List E) (s : Io)
    (h : ∀ e ∈ es, ∀ e' ∈ es, dst e ≠ src e') :
    Did s (es.foldl f s) (es.map fun e => (dst e, s.look (src e))) := by
  induction es generalizing s with
  | nil => exact ⟨rfl, rfl, by simp⟩
  | cons e es ih =>
    have h1 := hf s e
    have h2 := ih (f s e) (fun x hx y hy => h x (List.mem_cons_of_mem e hx) y (List.mem_cons_of_mem e hy))
    -- the copy just made did not touch the sources still to be read
    have hl : es.map (fun e' => (dst e', (f s e).look (src e'))) = es.map fun e' => (dst e', s.look (src e')) := by
      refine List.map_congr_left (fun e' he' => ?_)
      rw [h1.look, applyWrites_cons, applyWrites_nil, Function.update_of_ne]
      exact (h e List.mem_cons_self e' (List.mem_cons_of_mem e he')).symm
    rw [hl] at h2
    exact h1.trans h2

theorem zipIdx_mem_fst {bs : List BlockNo} {e : BlockNo × ℕ} (he : e ∈ bs.zipIdx) : e.1 ∈ bs ∧ e.2 < bs.length := by
  obtain ⟨b, i⟩ := e
  obtain ⟨hi, hb⟩ := List.getElem?_eq_some_iff.1 (List.mem_zipIdx_iff_getElem?.1 he)
  exact ⟨hb ▸ List.getElem_mem hi, hi⟩

theorem installTrans_did (start : BlockNo) (lh : LogHeader) (s : Io)
    (h : ∀ b ∈ lh.block, ∀ i < lh.n, b ≠ logSlot start i) :
    Did s (installTrans start lh s) (lh.block.mapIdx fun i b => (b, s.look (logSlot start i))) := by
  have h1 := copyLoop_did (installOne start) (fun e => e.1) (fun e => logSlot start e.2)
    (fun s e => installOne_did start s e.1 e.2) lh.block.zipIdx s
    (fun e he e' he' => h _ (zipIdx_mem_fst he).1 _ (zipIdx_mem_fst he').2)
  rw [List.mapIdx_eq_zipIdx_map]
  exact h1

theorem writeLog_did (start : BlockNo) (lh : LogHeader) (s : Io)
    (h : ∀ b ∈ lh.block, ∀ i < lh.n, b ≠ logSlot start i) :
    Did s (writeLog start lh s) (lh.block.mapIdx fun i b => (logSlot start i, s.look b)) := by
  have h1 := copyLoop_did (writeLogOne start) (fun e => logSlot start e.2) (fun e => e.1)
    (fun s e => writeLogOne_did start s e.1 e.2) lh.block.zipIdx s
    (fun e he e' he' => (h _ (zipIdx_mem_fst he').1 _ (zipIdx_mem_fst he).2).symm)
  rw [List.mapIdx_eq_zipIdx_map]
  exact h1

/-! ## The log as a redo log -/

/-- the redo log at `start` with at most `size - 1` slots -/
def geometry (start : BlockNo) (size : ℤ) : Geometry BlockNo Block where
  hdr := start
  slot := logSlot start
  cap := min LOGSIZE (size - 1).toNat
  decode := fun buf => (decodeHead buf).map LogHeader.block
  clear := fun buf => encodeHead buf .empty
  decode_clear := fun buf bs _ => by rw [decodeHead_encodeHead]; rfl
  slot_inj := fun i j hi hj h => by
    simp only [LOGSIZE, MAXOPBLOCKS, logSlot] at hi hj h
    bv_omega
  slot_ne_hdr := fun i hi => by
    simp only [LOGSIZE, MAXOPBLOCKS, logSlot] at hi ⊢
    bv_omega

/-- a block outside the log area is neither the header nor a slot -/
theorem outside_of_not_inLogArea {start : BlockNo} {size : ℤ} (hsize : 1 ≤ size) {b : BlockNo}
    (h : ¬ InLogArea start size b) : (geometry start size).Outside b := by
  have hb : size ≤ ((b - start).toNat : ℤ) := not_lt.1 h
  refine ⟨fun he => ?_, fun i hi he => ?_⟩
  · have hb0 : b = start := he
    rw [hb0, BitVec.sub_self] at hb
    simp at hb
    omega
  · have hi30 : i < 30 := lt_of_lt_of_le hi (min_le_left _ _)
    have his : i < (size - 1).toNat := lt_of_lt_of_le hi (min_le_right _ _)
    have hbs : b - start = BitVec.ofNat 32 (i + 1) := by
      have hb0 : b = logSlot start i := he
      rw [hb0, logSlot]
      bv_omega
    rw [hbs, BitVec.toNat_ofNat, Nat.mod_eq_of_lt (by omega)] at hb
    omega

theorem fits_of_outside {start : BlockNo} {size : ℤ} {lh : LogHeader} (hn : (lh.n : ℤ) ≤ size - 1)
    (hnd : lh.block.Nodup) (hout : ∀ b ∈ lh.block, ¬ InLogArea start size b) :
    (geometry start size).Fits lh.block := by
  refine ⟨hnd, fun b hb => outside_of_not_inLogArea (by omega) (hout b hb), le_min lh.fits ?_⟩
  have : lh.block.length = lh.n := rfl
  omega

theorem Fits.ne_slot {start : BlockNo} {size : ℤ} {lh : LogHeader} (hf : (geometry start size).Fits lh.block) :
    ∀ b ∈ lh.block, ∀ i < lh.n, b ≠ logSlot start i :=
  fun b hb i hi => (hf.outside b hb).2 i (lt_of_lt_of_le hi hf.len)

/-- **`commit` runs the redo protocol** with the cached contents as the new ones. -/
theorem commit_did (start : BlockNo) (size : ℤ) (lh : LogHeader) (s : Io) (hn : 0 < lh.n)
    (hf : (geometry start size).Fits lh.block) :
    ∃ h h0, decodeHead h = some lh ∧ decodeHead h0 = some .empty ∧
      Did s (commit start lh s).2 ((geometry start size).commitWrites lh.block s.look h h0) := by
  set G := geometry start size
  have hne := Fits.ne_slot hf
  set s1 := writeLog start lh s
  have d1 : Did s s1 (G.fillWrites lh.block s.look) := writeLog_did start lh s hne
  set h := encodeHead (s1.look start) lh
  set s2 := writeHead start lh s1
  have d2 : Did s1 s2 [(start, h)] := writeHead_did start lh s1
  set s3 := installTrans start lh s2
  have d3 := installTrans_did start lh s2 hne
  set h0 := encodeHead (s3.look start) .empty
  have d4 : Did s3 (writeHead start .empty s3) [(start, h0)] := writeHead_did start .empty s3
  -- what install_trans reads from the log slots is what write_log put there
  have hinst : lh.block.mapIdx (fun i b => (b, s2.look (logSlot start i))) = lh.block.map fun b => (b, s.look b) := by
    apply List.ext_getElem
    · simp
    · intro i hi _
      have hi' : i < lh.block.length := by simpa using hi
      have hidx : lh.block.idxOf lh.block[i] = i := hf.nodup.idxOf_getElem i hi'
      have hcap : i < G.cap := lt_of_lt_of_le hi' hf.len
      have hfill := Geometry.fill_slot s.look lh.block s.look hf lh.block[i] (List.getElem_mem hi')
      rw [hidx] at hfill
      simp only [List.getElem_mapIdx, List.getElem_map, Prod.mk.injEq, true_and]
      have hslot : logSlot start i ≠ start := G.slot_ne_hdr i hcap
      rw [d2.look, applyWrites_cons, applyWrites_nil, Function.update_of_ne hslot, d1.look]
      exact hfill
  rw [hinst] at d3
  refine ⟨h, h0, decodeHead_encodeHead _ _, decodeHead_encodeHead _ _, ?_⟩
  have hc : (commit start lh s).2 = writeHead start .empty s3 := by
    simp only [commit, if_pos hn]; rfl
  rw [hc]
  exact d1.trans (d2.trans (d3.trans d4))

/-- **`recover_from_log` runs the redo recovery** on a disk whose header is well formed. -/
theorem recoverFromLog_did (start : BlockNo) (size : ℤ) (d : BlockNo → Block)
    (hd : (geometry start size).Valid d) :
    ∃ t, recoverFromLog start (boot d) = some t ∧ t.writes = (geometry start size).recoverWrites d ∧
      t.disk = applyWrites d ((geometry start size).recoverWrites d) ∧ getLE (t.disk start) 0 4 = 0 := by
  set G := geometry start size
  obtain ⟨bs, hbs, hf⟩ := hd
  obtain ⟨lh, hlh, rfl⟩ := Option.map_eq_some_iff.1 hbs
  set s0 := (bread (boot d) start).2
  have d0 : Did (boot d) s0 [] := bread_did _ _
  have hlook : s0.look = d := d0.look
  set s1 := installTrans start lh s0
  have d1 := installTrans_did start lh s0 (Fits.ne_slot hf)
  have d2 := writeHead_did start .empty s1
  have hhdr : s1.look start = d start := by
    rw [d1.look, hlook]
    exact applyWrites_other _ _ _ (fun w hw => (hf.outside _ (Geometry.mem_installWrites (G := G) hw)).1)
  rw [hlook] at d1
  rw [hhdr] at d2
  have hall := d0.trans (d1.trans d2)
  have hrw : G.recoverWrites d = [] ++ (lh.block.mapIdx (fun i b => (b, d (logSlot start i))) ++
      [(start, encodeHead (d start) .empty)]) := by
    have : G.decode (d G.hdr) = some lh.block := hbs
    simp only [Geometry.recoverWrites, this, List.nil_append]
    rfl
  have hrun : recoverFromLog start (boot d) = some (writeHead start .empty s1) := by
    have hr : readHead start (boot d) = some (lh, s0) := by
      have hb : (bread (boot d) start).1 = d start := by rw [bread_fst]; rfl
      simp only [readHead, hb]
      rw [show decodeHead (d start) = some lh from hlh]
      rfl
    simp only [recoverFromLog, hr, bind, Option.bind]
    rfl
  refine ⟨writeHead start .empty s1, hrun, ?_, ?_, ?_⟩
  · rw [hall.writes, hrw]; rfl
  · rw [hall.disk, hrw]; rfl
  · rw [d2.disk, applyWrites_cons, applyWrites_nil, Function.update_self, count_encodeHead]; rfl

theorem reboots_eq_crashes (start : BlockNo) (size : ℤ) (d : BlockNo → Block)
    (hd : (geometry start size).Valid d) (ks : List ℕ) :
    reboots start d ks = some (crashes (geometry start size).recoverWrites d ks) := by
  induction ks generalizing d with
  | nil => rfl
  | cons k ks ih =>
    obtain ⟨t, ht, hw, -, -⟩ := recoverFromLog_did start size d hd
    simp only [reboots, ht, bind, Option.bind, hw]
    exact ih _ (recover_cut d hd k).1

/-! ## Crash atomicity -/

/-- a disk whose on-disk count is 0 reads as an empty log -/
theorem valid_of_count (start : BlockNo) (size : ℤ) {d : BlockNo → Block} (h : getLE (d start) 0 4 = 0) :
    (geometry start size).decode (d start) = some [] := by
  simp only [geometry, decodeHead_of_count h, LogHeader.empty, Option.map_some]

/-- a crash of `commit` after k of its writes: the header is well formed and recovery would restore all new contents
if the header block is among the k writes, all old contents otherwise -/
theorem commit_crash (start : BlockNo) (size : ℤ) (lh : LogHeader) (s : Io) (hw : s.writes = [])
    (hcount : getLE (s.disk start) 0 4 = 0) (hf : (geometry start size).Fits lh.block) (k : ℕ) :
    let ws := (commit start lh s).2.writes.take k
    (geometry start size).Valid (applyWrites s.disk ws) ∧
      ∀ b, (geometry start size).Outside b → (geometry start size).logical (applyWrites s.disk ws) b =
        if b ∈ lh.block ∧ start ∈ ws.map Prod.fst then s.look b else s.disk b := by
  intro ws
  have hdec := valid_of_count start size hcount
  by_cases hn : 0 < lh.n
  · obtain ⟨h, h0, hh, hh0, hdid⟩ := commit_did start size lh s hn hf
    have hws : ws = ((geometry start size).commitWrites lh.block s.look h h0).take k := by
      simp only [ws]; rw [hdid.writes, hw, List.nil_append]
    rw [hws]
    exact commit_cut s.disk lh.block s.look h h0 hf hdec (by simp [geometry, hh])
      (by simp [geometry, hh0, LogHeader.empty]) k
  · -- an empty header: commit writes nothing
    have hws : ws = [] := by simp [ws, commit, hn, hw]
    rw [hws]
    refine ⟨⟨[], hdec, Geometry.fits_nil⟩, fun b hb => ?_⟩
    rw [applyWrites_nil, Geometry.logical_of_decode hdec]
    simp [Geometry.overlay]

/-- **Crash atomicity of the log.** The on-disk count is 0; the in-memory header lists n ≤ log.size - 1 distinct home
blocks outside the log area; `new` are their cached contents. `commit` is cut after any k of its disk writes, then any
number of recoveries are cut anywhere (`ks`), then one recovery completes. It leaves every home block with its new
contents if the cut commit had written the header block, and with its old contents otherwise; every other block outside
the log area is unchanged, and the on-disk count is 0. -/
theorem crash_atomicity (start : BlockNo) (size : ℤ) (lh : LogHeader) (s : Io) (new : BlockNo → Block)
    (hw : s.writes = []) (hcount : getLE (s.disk start) 0 4 = 0) (hn : (lh.n : ℤ) ≤ size - 1)
    (hnd : lh.block.Nodup) (hout : ∀ b ∈ lh.block, ¬ InLogArea start size b)
    (hnew : ∀ b ∈ lh.block, s.cache b = some (new b)) (k : ℕ) (ks : List ℕ) :
    let ws := (commit start lh s).2.writes.take k
    ∃ d, reboots start (applyWrites s.disk ws) ks = some d ∧ ∃ t, recoverFromLog start (boot d) = some t ∧
      (∀ b, ¬ InLogArea start size b →
        t.disk b = if b ∈ lh.block ∧ start ∈ ws.map Prod.fst then new b else s.disk b) ∧
      getLE (t.disk start) 0 4 = 0 := by
  intro ws
  have hf := fits_of_outside hn hnd hout
  obtain ⟨hv, hl⟩ := commit_crash start size lh s hw hcount hf k
  obtain ⟨hv', hl'⟩ := crashes_logical (applyWrites s.disk ws) hv ks
  refine ⟨_, reboots_eq_crashes start size _ hv ks, ?_⟩
  obtain ⟨t, ht, -, hdisk, hcnt⟩ := recoverFromLog_did start size _ hv'
  refine ⟨t, ht, fun b hb => ?_, hcnt⟩
  have hob := outside_of_not_inLogArea (by omega) hb
  rw [hdisk, (recover_done _ hv').2 b hob.1, hl' b hob.1, hl b hob]
  split_ifs with hc
  · simp [Io.look, hnew b hc.1]
  · rfl

/-- the header is among the first k writes of a non-empty commit when k exceeds the number of logged blocks -/
theorem head_written_iff (start : BlockNo) (size : ℤ) (lh : LogHeader) (s : Io) (hw : s.writes = []) (hn : 0 < lh.n)
    (hf : (geometry start size).Fits lh.block) (k : ℕ) :
    start ∈ ((commit start lh s).2.writes.take k).map Prod.fst ↔ lh.n < k := by
  obtain ⟨h, h0, -, -, hdid⟩ := commit_did start size lh s hn hf
  rw [hdid.writes, hw, List.nil_append]
  exact header_written_iff lh.block s.look h h0 hf k

/-- two logged blocks, 40 and 41, over a zeroed disk -/
def twoBlocks : LogHeader := ⟨[40, 41], by decide⟩

def twoBlocksIo : Io := ⟨fun _ _ => 0, fun b => if b ∈ twoBlocks.block then some (fun _ => 7) else none, []⟩

theorem twoBlocks_outside : ∀ b ∈ twoBlocks.block, ¬ InLogArea 2 nlog b := by
  intro b hb
  have hb' : b = 40 ∨ b = 41 := by simpa [twoBlocks] using hb
  rcases hb' with rfl | rfl <;> simp [InLogArea, nlog, LOGSIZE, MAXOPBLOCKS]

/-- `commit` of two blocks cut right after the header write, two recoveries cut after one write and after none: the
next recovery completes and both blocks have their new contents, while block 50 keeps its own. -/
theorem crash_atomicity_two_blocks :
    ∃ d, reboots 2 (applyWrites twoBlocksIo.disk ((commit 2 twoBlocks twoBlocksIo).2.writes.take 3)) [1, 0] = some d ∧
      ∃ t, recoverFromLog 2 (boot d) = some t ∧ t.disk 40 = (fun _ => 7) ∧ t.disk 41 = (fun _ => 7) ∧
        t.disk 50 = (fun _ => 0) ∧ getLE (t.disk 2) 0 4 = 0 := by
  obtain ⟨d, hd, t, ht, hb, hc⟩ := crash_atomicity 2 nlog twoBlocks twoBlocksIo (fun _ _ => 7) rfl rfl (by decide)
    (by decide) twoBlocks_outside (fun b hb => if_pos hb) 3 [1, 0]
  have hhead := (head_written_iff 2 nlog twoBlocks twoBlocksIo rfl (by decide)
    (fits_of_outside (by decide) (by decide) twoBlocks_outside) 3).2 (by decide)
  have hout : ∀ b : BlockNo, b = 40 ∨ b = 41 ∨ b = 50 → ¬ InLogArea 2 nlog b := by
    rintro b (rfl | rfl | rfl) <;> simp [InLogArea, nlog, LOGSIZE, MAXOPBLOCKS]
  refine ⟨d, hd, t, ht, ?_, ?_, ?_, hc⟩
  · rw [hb 40 (hout _ (by simp)), if_pos ⟨by decide, hhead⟩]
  · rw [hb 41 (hout _ (by simp)), if_pos ⟨by decide, hhead⟩]
  · rw [hb 50 (hout _ (by simp)), if_neg (fun h => absurd h.1 (by decide))]
    rfl

end Xv6.Log
