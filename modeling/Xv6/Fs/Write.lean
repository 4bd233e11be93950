/-
Writing to an open file (`filewrite` of `file.c`).

`filewrite` cuts a write into chunks of at most `maxWrite` bytes, each a transaction of its own with the inode locked
inside. `Opened` is the state between two chunks: the file is open on a regular inode that nobody has locked. `Stored` is
what writing does: bytes from an offset on, the size, and the offset of the file.

- `wp_writeSection`: a chunk is refused and changes nothing, or puts its bytes at the offset and moves it;
- `wp_filewriteLoop`: the loop puts all bytes, or it stops before a chunk that is refused;
- `filewrite_whole_iff`: a call puts all its bytes or none, except when the first chunk fits in the largest file and the
  whole write does not.
-/
import Xv6.Fs.Blank
import Xv6.Fs.Content

namespace Xv6.Fs

open Xv6.Bytes Xv6.Wp

variable {sb : Superblock} {m m' : ℕ → Dinode} {a : ℕ → Node} {g : Ghost} {k : Fin NINODE} {i : ℕ} {f : Fin NFILE}
  {s t u : St} {src : Store} {off n : ℕ}

/-! ## An open file -/

/-- file f is open on the regular inode i, whose entry k of the cache nobody has locked; m: the inodes as the kernel sees
them -/
structure Opened (sb : Superblock) (k : Fin NINODE) (i : ℕ) (f : Fin NFILE) (m : ℕ → Dinode) (s : St) : Prop where
  rep : ∃ a g, RepM sb ⟨False, False⟩ m a g s ∧ (k, i) ∈ g.pins ∧ k ∉ g.locks ∧ g.dirty = none ∧ g.newborn = none
  lt : i < sb.ninodes
  type : (m i).type = Dinode.T_FILE
  ip : (s.out.file f).ip = k
  off : (s.out.file f).off < 2 ^ 32

/-- the offset of the file -/
def fileOff (f : Fin NFILE) (s : St) : ℕ := (s.out.file f).off

/-- from s to t, n bytes of src have been put into inode i from off on, and file f has been moved behind them -/
structure Stored (sb : Superblock) (i : ℕ) (f : Fin NFILE) (m : ℕ → Dinode) (s : St) (src : Store) (off n : ℕ) (m' : ℕ → Dinode)
    (t : St) : Prop where
  bytes : ∀ j p, contents sb m' t.disk j p =
    if j = i ∧ off ≤ p ∧ p < off + n then src (p - off) else contents sb m s.disk j p
  size : (m' i).size.toNat = if n = 0 then (m i).size.toNat else max (m i).size.toNat (off + n)
  off : fileOff f t = off + n

theorem Stored.zero (h : t.disk = s.disk) (hoff : fileOff f t = off) : Stored sb i f m s src off 0 m t := by
  refine ⟨fun j p => ?_, (if_pos rfl).symm, hoff⟩
  rw [if_neg (by omega), h]

/-- two writes one after the other -/
theorem Stored.trans {m'' : ℕ → Dinode} {n' : ℕ} (h : Stored sb i f m s src off n m' t)
    (h' : Stored sb i f m' t (fun x => src (n + x)) (off + n) n' m'' u) : Stored sb i f m s src off (n + n') m'' u := by
  refine ⟨fun j p => ?_, ?_, by rw [h'.off, Nat.add_assoc]⟩
  · rw [h'.bytes, h.bytes]
    by_cases hj : j = i
    · subst hj
      simp only [true_and]
      by_cases h1 : off ≤ p ∧ p < off + n
      · rw [if_neg (by omega), if_pos h1, if_pos (by omega)]
      by_cases h2 : off + n ≤ p ∧ p < off + n + n'
      · rw [if_pos h2, if_pos (by omega), show n + (p - (off + n)) = p - off by omega]
      · rw [if_neg h2, if_neg h1, if_neg (by omega)]
    · simp only [hj, false_and, if_false]
  · rw [h'.size, h.size]
    split_ifs <;> omega

/-- what `writei` refuses, for a chunk -/
theorem refuses_iff {x : Node} (hoff : off < 2 ^ 32) (hn : n ≤ maxWrite) :
    x.Refuses off n ↔ x.size < off ∨ MAXFILE * BSIZE < off + n := by
  have hmax : maxWrite = 6656 := by decide
  have hfile : MAXFILE * BSIZE = 71680 := by decide
  rw [Node.Refuses, hfile]
  omega

/-! ## One chunk -/

/-- the part of a chunk between `ilock` and `iunlock` -/
def writeSection (f : Fin NFILE) (src : Store) (n : ℕ) : M ℤ := do
  let k := ((← get).out.file f).ip
  ilock k
  let r ← writei k src ((← get).out.file f).off n
  advance f r
  iunlock k
  return r

/-- a write of n bytes at the offset of the file: refused, or done -/
def Outcome (sb : Superblock) (i : ℕ) (f : Fin NFILE) (m : ℕ → Dinode) (s : St) (src : Store) (n : ℕ) (r : ℤ) (m' : ℕ → Dinode)
    (t : St) : Prop :=
  (r = -1 ∧ ((m i).size.toNat < fileOff f s ∨ MAXFILE * BSIZE < fileOff f s + n) ∧ m' = m ∧ t.disk = s.disk ∧
      fileOff f t = fileOff f s) ∨
    (r = n ∧ fileOff f s ≤ (m i).size.toNat ∧ fileOff f s + n ≤ MAXFILE * BSIZE ∧ Stored sb i f m s src (fileOff f s) n m' t)

/-- `advance` leaves the inodes alone -/
theorem advance_out {τ : Mode} {r : ℤ} (h : RepM sb τ m a g s) (hr : r = n) (hn : (s.out.file f).off + n < 2 ^ 32) :
    wp (advance f r) (fun _ t => ∃ o, RepM sb τ m a { g with out := o } t ∧ t.disk = s.disk ∧
      (t.out.file f).ip = (s.out.file f).ip ∧ (t.out.file f).off = (s.out.file f).off + n) (fun _ _ => False) s := by
  subst hr
  unfold advance
  apply wp_ite
  · intro hpos
    refine (wp_modify _ _).2 ⟨_, h.with_out _ _, rfl, ?_, ?_⟩
    · dsimp only
      rw [Function.update_self]
    · dsimp only
      rw [Function.update_self]
      dsimp only
      rw [Int.toNat_natCast, Nat.mod_eq_of_lt hn]
  · intro hz
    have hn0 : n = 0 := by omega
    refine wp_return ⟨g.out, h, rfl, rfl, ?_⟩
    rw [hn0, Nat.add_zero]

/-- `writei` at the offset of the file, `advance` and `iunlock`, with the inode locked -/
theorem wp_writeLocked (wf : sb.WF) (src : Store) (h : Opened sb k i f m s) (hn : n ≤ maxWrite) {a : ℕ → Node} {g : Ghost}
    (hrep : RepM sb ⟨False, False⟩ m a { g with locks := insert k g.locks } t) (hp : (k, i) ∈ g.pins) (hl : k ∉ g.locks)
    (hd : g.dirty = none) (hnew : g.newborn = none) (hdisk : t.disk = s.disk) (hout : t.out.file f = s.out.file f) :
    wp (do
        let r ← writei k src (s.out.file f).off n
        advance f r
        iunlock k
        return r)
      (fun r u => ∃ m', Opened sb k i f m' u ∧ Outcome sb i f m s src n r m' u) (fun _ _ => True) t := by
  have hoff := h.off
  obtain ⟨htypea, -, hsize⟩ := hrep.node h.lt
  have hdev : (a i).type ≠ Dinode.T_DEV := by rw [htypea, h.type]; decide
  have hlock : k ∈ insert k g.locks := Finset.mem_insert_self k g.locks
  have herase : (insert k g.locks).erase k = g.locks := Finset.erase_insert hl
  -- iunlock gives the open file back
  have hend : ∀ (m' : ℕ → Dinode) (a' : ℕ → Node) (o : Outer) (u : St),
      RepM sb ⟨False, False⟩ m' a' { g with locks := insert k g.locks, out := o } u → (m' i).type = Dinode.T_FILE →
      (u.out.file f).ip = k → (u.out.file f).off < 2 ^ 32 → ∀ r : ℤ,
      (∀ x : St, x.disk = u.disk → x.out = u.out → Outcome sb i f m s src n r m' x) →
      wp (do iunlock k; return r) (fun r u => ∃ m', Opened sb k i f m' u ∧ Outcome sb i f m s src n r m' u)
        (fun _ _ => True) u := by
    intro m' a' o u hu htype hip hoff' r hres
    rw [wp_bind]
    refine wp_mono (wp_iunlock (σ := fun _ => False) hu hlock) ?_ (fun _ _ _ => trivial)
    rintro _ x ⟨hx, hxd⟩
    have hxo : x.out = u.out := hx.out.trans hu.out.symm
    refine wp_return ⟨m', ⟨⟨a', _, hx, hp, ?_, hd, hnew⟩, h.lt, htype, by rw [hxo]; exact hip, by rw [hxo]; exact hoff'⟩,
      hres x hxd hxo⟩
    exact fun hc => hl (by rw [← herase]; exact hc)
  rw [wp_bind]
  refine wp_mono (wp_writei (σ := fun _ => False) wf hrep hp hlock hd hnew (fun hf => hf.elim)) ?_ (fun _ _ _ => trivial)
  rintro r u (⟨hc, -⟩ | ⟨-, href, rfl, rfl⟩ | ⟨-, hok, rfl, m', hu, hbytes, -⟩)
  · exact absurd hc hdev
  · rw [refuses_iff hoff hn, hsize] at href
    unfold advance
    rw [wp_bind, if_neg (by decide), wp_pure]
    refine hend m a g.out u hrep h.type (by rw [hout, h.ip]) (by rw [hout]; exact hoff) (-1) fun x hxd hxo => ?_
    refine .inl ⟨rfl, href, rfl, hxd.trans hdisk, ?_⟩
    rw [fileOff, fileOff, hxo, hout]
  · rw [refuses_iff hoff hn, hsize, not_or, not_lt, not_lt] at hok
    have hfile : MAXFILE * BSIZE = 71680 := by decide
    have huo : u.out.file f = s.out.file f := by rw [hu.out, ← hrep.out, hout]
    rw [wp_bind]
    refine wp_safe (advance_out hu rfl (by rw [huo]; omega)) ?_
    rintro _ x ⟨o, hx, hxd, hxip, hxoff⟩
    obtain ⟨hnode, -, hnsize⟩ := hx.node h.lt
    rw [Function.update_self] at hnode hnsize
    have htype : (m' i).type = Dinode.T_FILE := by rw [← hnode, ← h.type, ← htypea]; rfl
    refine hend m' _ o x hx htype (by rw [hxip, huo, h.ip]) (by rw [hxoff, huo]; omega) n fun y hyd hyo => ?_
    refine .inr ⟨rfl, hok.1, hok.2, fun j p => ?_, ?_, ?_⟩
    · rw [hyd, hxd, hbytes, hdisk]
      rfl
    · have hmax : (m' i).size.toNat = max (m i).size.toNat ((s.out.file f).off + n) := by rw [← hnsize, ← hsize]; rfl
      rw [hmax, fileOff]
      split_ifs with h0
      · have := hok.1
        omega
      · rfl
    · rw [fileOff, hyo, hxoff, huo]
      rfl

/-- **The locked part of a chunk.** -/
theorem wp_writeSection (wf : sb.WF) (h : Opened sb k i f m s) (hn : n ≤ maxWrite) :
    wp (writeSection f src n) (fun r t => ∃ m', Opened sb k i f m' t ∧ Outcome sb i f m s src n r m' t) (fun _ _ => True) s := by
  obtain ⟨a, g, hrep, hp, hl, hd, hnew⟩ := h.rep
  have htype : (a i).type ≠ 0 := by rw [(hrep.node h.lt).1, h.type]; decide
  unfold writeSection
  rw [wp_bind, wp_get, h.ip, wp_bind]
  refine wp_mono (wp_ilock (σ := fun _ => False) hrep hp h.lt hl fun hc => htype hc) ?_ (fun _ _ _ => trivial)
  rintro _ t ⟨ht, -, hdisk⟩
  have hout : t.out.file f = s.out.file f := by rw [ht.out, ← hrep.out]
  rw [wp_bind, wp_get, hout]
  exact wp_writeLocked wf src h hn ht hp hl hd hnew hdisk hout

theorem Opened.with_out (h : Opened sb k i f m s) {o : Outer} (l : List ℕ) (hfile : o.file f = s.out.file f) :
    Opened sb k i f m { s with lh := l, out := o } := by
  obtain ⟨a, g, hrep, hp, hl, hd, hnew⟩ := h.rep
  refine ⟨⟨a, { g with out := o }, hrep.with_out o l, hp, hl, hd, hnew⟩, h.lt, h.type, ?_, ?_⟩
  · change (o.file f).ip = k
    rw [hfile, h.ip]
  · change (o.file f).off < 2 ^ 32
    rw [hfile]
    exact h.off

theorem wp_beginOp (h : Opened sb k i f m s) :
    wp beginOp (fun _ t => Opened sb k i f m t ∧ t.disk = s.disk ∧ t.out.file f = s.out.file f) (fun _ _ => True) s := by
  unfold beginOp
  rw [wp_bind, wp_get]
  apply wp_ite
  · exact fun _ => (wp_throw _ _).2 trivial
  · exact fun _ => (wp_set _ _).2 ⟨h.with_out s.lh rfl, rfl, rfl⟩

theorem wp_endOp (h : Opened sb k i f m s) :
    wp endOp (fun _ t => Opened sb k i f m t ∧ t.disk = s.disk ∧ t.out.file f = s.out.file f) (fun _ _ => False) s :=
  (wp_modify _ _).2 ⟨h.with_out _ rfl, rfl, rfl⟩

/-- the outcome depends on the disk and on the file -/
theorem Outcome.congr {s' t' : St} {r : ℤ} (h : Outcome sb i f m s src n r m' t) (hs : s'.disk = s.disk)
    (hs' : s'.out.file f = s.out.file f) (ht : t'.disk = t.disk) (ht' : t'.out.file f = t.out.file f) :
    Outcome sb i f m s' src n r m' t' := by
  have hoff : fileOff f s' = fileOff f s := congrArg File.off hs'
  have hoff' : fileOff f t' = fileOff f t := congrArg File.off ht'
  unfold Outcome at h ⊢
  rw [hoff, hoff']
  rcases h with ⟨hr, href, hm, hd, ho⟩ | ⟨hr, h1, h2, hst⟩
  · exact .inl ⟨hr, href, hm, by rw [ht, hd, hs], ho⟩
  · exact .inr ⟨hr, h1, h2, fun j p => by rw [ht, hst.bytes, hs], hst.size, hoff'.trans hst.off⟩

/-- **One chunk.** -/
theorem wp_writeChunk (wf : sb.WF) (h : Opened sb k i f m s) (hn : n ≤ maxWrite) :
    wp (writeChunk f src n) (fun r t => ∃ m', Opened sb k i f m' t ∧ Outcome sb i f m s src n r m' t) (fun _ _ => True) s := by
  unfold writeChunk
  rw [wp_bind, wp_get]
  dsimp only
  rw [h.ip, wp_bind]
  refine wp_mono (wp_beginOp h) ?_ (fun _ _ _ => trivial)
  rintro _ t ⟨ht, hdisk, hfile⟩
  obtain ⟨a, g, hrep, hp, hl, hd, hnew⟩ := ht.rep
  have htype : (a i).type ≠ 0 := by rw [(hrep.node h.lt).1, h.type]; decide
  rw [wp_bind]
  refine wp_mono (wp_ilock (σ := fun _ => False) hrep hp h.lt hl fun hc => htype hc) ?_ (fun _ _ _ => trivial)
  rintro _ u ⟨hu, -, hudisk⟩
  have hufile : u.out.file f = t.out.file f := by rw [hu.out, ← hrep.out]
  have hlocked := wp_writeLocked wf src ht hn hu hp hl hd hnew hudisk hufile
  rw [hfile] at hlocked
  have hassoc : (do
      let r ← writei k src (s.out.file f).off n
      advance f r
      iunlock k
      endOp
      return r) = (do
      let r ← (do
        let r ← writei k src (s.out.file f).off n
        advance f r
        iunlock k
        return r)
      endOp
      return r : M ℤ) := by simp only [bind_assoc, pure_bind]
  rw [hassoc, wp_bind]
  refine wp_mono hlocked ?_ (fun _ _ _ => trivial)
  rintro r x ⟨m', hx, hout⟩
  rw [wp_bind]
  refine wp_safe (wp_endOp hx) ?_
  rintro _ y ⟨hy, hydisk, hyfile⟩
  exact wp_return ⟨m', hy, hout.congr hdisk.symm hfile.symm hydisk hyfile⟩

/-! ## The whole write -/

/-- the loop has stopped after c of n bytes: the next chunk was refused -/
structure Stopped (size off n c : ℕ) : Prop where
  short : c < n
  first : c = 0 → size < off ∨ MAXFILE * BSIZE < off + min n maxWrite
  later : 0 < c → off ≤ size ∧ off + maxWrite ≤ MAXFILE * BSIZE ∧ MAXFILE * BSIZE < off + n

/-- **The loop of `filewrite`**, from byte j on. -/
theorem wp_filewriteLoop (wf : sb.WF) (h : Opened sb k i f m s) (n fuel j : ℕ) (hfuel : n - j < fuel) (hj : j ≤ n) :
    wp (filewriteLoop f src n fuel j)
      (fun all t => ∃ m' c, Opened sb k i f m' t ∧ Stored sb i f m s (fun x => src (j + x)) (fileOff f s) c m' t ∧
        (all = true → c = n - j ∧ (0 < c → fileOff f s + c ≤ MAXFILE * BSIZE)) ∧
        (all = false → Stopped (m i).size.toNat (fileOff f s) (n - j) c ∧ (c = 0 → m' = m ∧ t.disk = s.disk)))
      (fun _ _ => True) s := by
  induction fuel generalizing s m j with
  | zero => omega
  | succ fuel ih =>
    have hmax : 0 < maxWrite := by decide
    unfold filewriteLoop
    apply wp_ite
    swap
    · intro hdone
      exact wp_return ⟨m, 0, h, Stored.zero rfl rfl, fun _ => ⟨by omega, fun hc => absurd hc (lt_irrefl 0)⟩, nofun⟩
    intro hlt
    rw [wp_bind]
    refine wp_mono (wp_writeChunk wf h (min_le_right (n - j) maxWrite)) ?_ (fun _ _ _ => trivial)
    rintro r t ⟨m', ht, ⟨rfl, href, rfl, hdisk, hoff⟩ | ⟨rfl, hle, hfits, hst⟩⟩
    · rw [if_pos (by decide)]
      refine wp_return ⟨m', 0, ht, Stored.zero hdisk hoff, nofun, fun _ => ⟨⟨by omega, fun _ => href, ?_⟩, fun _ => ⟨rfl, hdisk⟩⟩⟩
      exact fun hc => absurd hc (lt_irrefl 0)
    · rw [if_neg (by omega), if_neg (not_not.2 rfl)]
      refine wp_mono (ih ht (j + min (n - j) maxWrite) (by omega) (by omega)) ?_ (fun _ _ _ => trivial)
      rintro all u ⟨m'', c, hu, hst', htrue, hfalse⟩
      have hoff := hst.off
      have hsize := hst.size
      rw [if_neg (by omega)] at hsize
      rw [hoff] at hst' htrue hfalse
      have hjoin : Stored sb i f m s (fun x => src (j + x)) (fileOff f s) (min (n - j) maxWrite + c) m'' u := by
        refine hst.trans ?_
        simp only [← Nat.add_assoc]
        exact hst'
      refine ⟨m'', _, hu, hjoin, fun ha => ?_, fun ha => ⟨⟨?_, ?_, ?_⟩, ?_⟩⟩
      · obtain ⟨hc, hbound⟩ := htrue ha
        refine ⟨by omega, fun _ => ?_⟩
        rcases Nat.eq_zero_or_pos c with hc0 | hc0
        · omega
        · have := hbound hc0
          omega
      · have := (hfalse ha).1.short
        omega
      · omega
      · intro _
        obtain ⟨hstop, -⟩ := hfalse ha
        have hshort := hstop.short
        refine ⟨hle, by omega, ?_⟩
        rcases Nat.eq_zero_or_pos c with hc0 | hc0
        · have := hstop.first hc0
          omega
        · have := (hstop.later hc0).2.2
          omega
      · omega

/-- the file, its offset and the free map are as before -/
def Untouched (sb : Superblock) (k : Fin NINODE) (i : ℕ) (f : Fin NFILE) (m : ℕ → Dinode) (s t : St) : Prop :=
  ∃ m', Opened sb k i f m' t ∧ (m' i).size = (m i).size ∧ contents sb m' t.disk i = contents sb m s.disk i ∧
    (view sb t.disk).used = (view sb s.disk).used ∧ fileOff f t = fileOff f s

/-- n bytes of src, and nothing else, have been stored at the old offset, and the offset is behind them -/
def StoredAll (sb : Superblock) (k : Fin NINODE) (i : ℕ) (f : Fin NFILE) (m : ℕ → Dinode) (s : St) (src : Store) (n : ℕ) (t : St) :
    Prop :=
  ∃ m', Opened sb k i f m' t ∧ Stored sb i f m s src (fileOff f s) n m' t

/-- **All or nothing.** A call of `filewrite` that fails leaves the file as it was, and one that succeeds has stored all
its bytes at the old offset, exactly if it is not the case that the first chunk fits in the largest file and the whole
write does not. -/
theorem filewrite_whole_iff (wf : sb.WF) (h : Opened sb k i f m s) (hfd : (s.out.file f).type = .FD_INODE) (pw : ℤ)
    (src : Store) {n r : ℤ} (hn : 0 ≤ n) (hrun : filewrite pw f src n s = .ok r t) :
    ((r = -1 → Untouched sb k i f m s t) ∧ (r = n → StoredAll sb k i f m s src n.toNat t)) ↔
      ((s.out.file f).writable = true → fileOff f s ≤ (m i).size.toNat → fileOff f s + maxWrite ≤ MAXFILE * BSIZE →
        fileOff f s + n.toNat ≤ MAXFILE * BSIZE) := by
  have hsame : t.disk = s.disk → fileOff f t = fileOff f s → Opened sb k i f m t → Untouched sb k i f m s t :=
    fun hdisk hoff ht => ⟨m, ht, rfl, by rw [hdisk], by rw [hdisk], hoff⟩
  by_cases hwr : (s.out.file f).writable = true
  swap
  · have hret : wp (filewrite pw f src n) (fun r t => r = -1 ∧ t = s) (fun _ _ => False) s := by
      rw [filewrite, wp_bind, wp_get, if_pos (by simpa using hwr)]
      exact wp_return ⟨rfl, rfl⟩
    obtain ⟨rfl, rfl⟩ := wp_ok hret hrun
    exact ⟨fun _ hc => absurd hc hwr, fun _ => ⟨fun _ => hsame rfl rfl h, fun hc => by omega⟩⟩
  have hspec : wp (filewrite pw f src n) (fun r t => ∃ m' c, Opened sb k i f m' t ∧
      Stored sb i f m s src (fileOff f s) c m' t ∧
      (r = n ∧ c = n.toNat ∧ (0 < c → fileOff f s + c ≤ MAXFILE * BSIZE) ∨
        r = -1 ∧ Stopped (m i).size.toNat (fileOff f s) n.toNat c ∧ (c = 0 → m' = m ∧ t.disk = s.disk)))
      (fun _ _ => True) s := by
    unfold filewrite
    rw [wp_bind, wp_get, if_neg (by simp [hwr]), hfd]
    dsimp only
    rw [wp_bind]
    refine wp_mono (wp_filewriteLoop wf h n.toNat (n.toNat + 1) 0 (by omega) (Nat.zero_le _)) ?_ (fun _ _ _ => trivial)
    rintro all u ⟨m', c, hu, hst, htrue, hfalse⟩
    simp only [Nat.zero_add, Nat.sub_zero] at hst htrue hfalse
    refine wp_return ⟨m', c, hu, hst, ?_⟩
    cases all with
    | true => exact .inl ⟨if_pos ⟨rfl, hn⟩, htrue rfl⟩
    | false => exact .inr ⟨if_neg (by simp), hfalse rfl⟩
  obtain ⟨m', c, ht, hst, ⟨rfl, rfl, hbound⟩ | ⟨rfl, hstop, hzero⟩⟩ := wp_ok hspec hrun
  · refine ⟨fun _ _ hle hmax => ?_, fun _ => ⟨fun hc => by omega, fun _ => ⟨m', ht, hst⟩⟩⟩
    rcases Nat.eq_zero_or_pos r.toNat with h0 | h0
    · omega
    · exact hbound h0
  · have hshort := hstop.short
    rcases Nat.eq_zero_or_pos c with hc | hc
    · obtain ⟨rfl, hdisk⟩ := hzero hc
      have hoff := hst.off
      rw [hc, Nat.add_zero] at hoff
      refine ⟨fun _ _ hle hmax => ?_, fun _ => ⟨fun _ => hsame hdisk hoff ht, fun hc => by omega⟩⟩
      have := hstop.first hc
      omega
    · obtain ⟨hle, hfirst, hbig⟩ := hstop.later hc
      refine ⟨fun hall => ?_, fun hall => ?_⟩
      · obtain ⟨_, -, -, -, -, hoff⟩ := hall.1 rfl
        rw [hst.off] at hoff
        omega
      · have := hall hwr hle hfirst
        omega

theorem smallState_opened (size : ℕ) {off : ℕ} (hoff : off < 2 ^ 32) :
    Opened smallSb entry0 1 file0 (view smallSb (smallState size off).disk).inode (smallState size off) := by
  refine ⟨⟨_, _, smallState_rep size off, Multiset.mem_singleton_self _, Finset.notMem_empty _, rfl, rfl⟩, by decide, ?_,
    rfl, hoff⟩
  rw [view_inode (by decide), smallState_inode size off (by decide), if_pos rfl]

/-- Three bytes at the beginning of an empty file. -/
theorem filewrite_whole_iff_three : ∃ t, filewrite 0 file0 (fun _ => 7) 3 (smallState 0 0) = .ok 3 t ∧
    StoredAll smallSb entry0 1 file0 (view smallSb (smallState 0 0).disk).inode (smallState 0 0) (fun _ => 7) 3 t := by
  obtain ⟨r, t, hrun, hret⟩ := wp_exists.1 (wp_of_eval (x := filewrite 0 file0 (fun _ => 7) 3) (s := smallState 0 0)
    (P := fun r _ => decide (r = 3)) (by decide +kernel))
  obtain rfl : r = 3 := of_decide_eq_true hret
  exact ⟨t, hrun, ((filewrite_whole_iff smallSb_wf (smallState_opened 0 (by decide)) rfl 0 _ (by decide) hrun).2
    fun _ _ _ => by decide).2 rfl⟩

/-- Two chunks, of which the first ends at the largest size of a file: the call returns -1, and the offset has moved. -/
theorem filewrite_half : ∃ t, filewrite 0 file0 (fun _ => 7) 13312 (smallState 65024 65024) = .ok (-1) t ∧
    fileOff file0 t = 71680 ∧
    ¬ Untouched smallSb entry0 1 file0 (view smallSb (smallState 65024 65024).disk).inode (smallState 65024 65024) t := by
  obtain ⟨r, t, hrun, hret⟩ := wp_exists.1 (wp_of_eval (x := filewrite 0 file0 (fun _ => 7) 13312)
    (s := smallState 65024 65024) (P := fun r t => decide (r = -1 ∧ fileOff file0 t = 71680)) (by decide +kernel))
  obtain ⟨rfl, hoff⟩ : r = -1 ∧ fileOff file0 t = 71680 := of_decide_eq_true hret
  refine ⟨t, hrun, hoff, ?_⟩
  rintro ⟨-, -, -, -, -, hsame⟩
  rw [hoff] at hsame
  exact absurd hsame (by decide)

end Xv6.Fs
