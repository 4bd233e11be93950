/-
Directories as bytes (`namecmp`, `dirlookup`, `dirlink` of `fs.c`, `isdirempty` of `sysfile.c`).

A directory is a file of 16-byte entries. `lookup`, `vacant` and `bare` say on its bytes which entry has a name, which
one the next name goes to, and whether all entries but the first two are free. The loops of the three functions are one
scan (`scanLoop`) with three questions:
- `wp_dirlookup`: `dirlookup` finds the first live entry with the name and takes a reference to its inode;
- `wp_dirlink`: `dirlink` refuses a name that is there, and otherwise writes one entry;
- `wp_isdirempty`: `isdirempty` says whether the directory is bare.

`strncmp_eq_zero` and `strncpy_eq` are what the string functions of `string.c` do to names.
-/
import Xv6.Fs.Content

namespace Xv6.Fs

open Xv6.Bytes Xv6.Wp

/-! ## Names -/

/-- the bytes up to a NUL -/
def cstr (p : List Byte) : List Byte := p.takeWhile (· ≠ 0)

theorem cstr_zero (l : List Byte) : cstr (0 :: l) = [] := List.takeWhile_cons_of_neg (by simp)

theorem cstr_cons {c : Byte} (hc : c ≠ 0) (l : List Byte) : cstr (c :: l) = c :: cstr l :=
  List.takeWhile_cons_of_pos (by simpa using hc)

theorem cstr_eq_self {p : List Byte} (h : ∀ c ∈ p, c ≠ 0) : cstr p = p := by
  induction p with
  | nil => rfl
  | cons c p ih => rw [cstr_cons (h c List.mem_cons_self), ih fun d hd => h d (List.mem_cons_of_mem c hd)]

theorem cstr_eq_nil {p : List Byte} : cstr p = [] ↔ p.headD 0 = 0 := by
  cases p with
  | nil => exact ⟨fun _ => rfl, fun _ => rfl⟩
  | cons c p =>
    by_cases hc : c = 0
    · rw [hc, cstr_zero]
      exact ⟨fun _ => rfl, fun _ => rfl⟩
    · rw [cstr_cons hc]
      exact ⟨fun h => absurd h (List.cons_ne_nil _ _), fun h => absurd h hc⟩

/-- **`strncmp`** compares strings that are cut to n bytes. -/
theorem strncmp_eq_zero (p q : List Byte) (n : ℕ) : strncmp p q n = 0 ↔ cstr (p.take n) = cstr (q.take n) := by
  induction n generalizing p q with
  | zero => exact ⟨fun _ => rfl, fun _ => rfl⟩
  | succ n ih =>
    have hval : ∀ x y : Byte, (x.toNat : ℤ) - y.toNat = 0 ↔ x = y := by
      intro x y
      rw [sub_eq_zero, Nat.cast_inj]
      exact ⟨BitVec.eq_of_toNat_eq, congrArg _⟩
    have hhead : ∀ l : List Byte, (l.take (n + 1)).headD 0 = l.headD 0 := by
      intro l
      cases l <;> rfl
    rw [strncmp]
    by_cases hx : p.headD 0 = 0
    · rw [if_neg fun hc => hc.1 hx, hval, hx, cstr_eq_nil.2 ((hhead p).trans hx), eq_comm, @eq_comm _ [], cstr_eq_nil,
        hhead]
    · obtain ⟨x, p, rfl⟩ : ∃ x p', p = x :: p' := by
        cases p with
        | nil => exact absurd rfl hx
        | cons x p => exact ⟨x, p, rfl⟩
      change x ≠ 0 at hx
      rw [List.take_succ_cons, cstr_cons hx]
      by_cases hxy : x = q.headD 0
      · obtain ⟨y, q, rfl⟩ : ∃ y q', q = y :: q' := by
          cases q with
          | nil => exact absurd hxy hx
          | cons y q => exact ⟨y, q, rfl⟩
        obtain rfl : x = y := hxy
        rw [if_pos ⟨hx, rfl⟩, List.take_succ_cons, cstr_cons hx, ih]
        simp
      · rw [if_neg fun hc => hxy hc.2, hval]
        refine ⟨fun hc => absurd hc hxy, fun hc => ?_⟩
        cases q with
        | nil => cases hc
        | cons y q =>
          rw [List.take_succ_cons] at hc
          by_cases hy : y = 0
          · rw [hy, cstr_zero] at hc
            cases hc
          · rw [cstr_cons hy] at hc
            exact (List.cons.inj hc).1

/-- **`strncpy`** pads with NULs. -/
theorem strncpy_eq (t : List Byte) (n : ℕ) :
    strncpy t n = cstr (t.take n) ++ List.replicate (n - (cstr (t.take n)).length) 0 := by
  induction n generalizing t with
  | zero => simp [strncpy, cstr]
  | succ n ih =>
    cases t with
    | nil =>
      rw [strncpy, ih]
      simp [cstr, List.replicate_succ]
    | cons c t =>
      rw [strncpy, List.take_succ_cons]
      by_cases hc : c = 0
      · rw [if_pos hc, hc, cstr_zero]
        rfl
      · rw [if_neg hc, cstr_cons hc, ih, List.length_cons, Nat.add_sub_add_right, List.cons_append]

theorem length_strncpy (t : List Byte) (n : ℕ) : (strncpy t n).length = n := by
  rw [strncpy_eq, List.length_append, List.length_replicate]
  have : (cstr (t.take n)).length ≤ n :=
    (List.takeWhile_sublist _).length_le.trans (List.length_take_le _ _)
  omega

/-- a name as `skipelem` makes it -/
structure IsName (name : List Byte) : Prop where
  ne_nil : name ≠ []
  length : name.length ≤ DIRSIZ
  nul : ∀ c ∈ name, c ≠ 0
  slash : ∀ c ∈ name, c ≠ slash

theorem IsName.cut {name : List Byte} (h : IsName name) : cstr (name.take DIRSIZ) = name := by
  rw [List.take_of_length_le h.length, cstr_eq_self h.nul]

/-- a name is read back from where it was written -/
theorem IsName.cstr_strncpy {name : List Byte} (h : IsName name) : cstr (strncpy name DIRSIZ) = name := by
  rw [strncpy_eq, h.cut]
  unfold cstr
  rw [List.takeWhile_append_of_pos fun c hc => by simpa using h.nul c hc]
  simp

/-! ## Entries -/

/-- the bytes of entry q of a directory that holds f -/
def entry (f : Store) (q : ℕ) : List Byte := (List.range DESIZE).map fun j => f (DESIZE * q + j)

/-- the name in an entry -/
def deName (de : List Byte) : List Byte := cstr (de.drop 2)

/-- a live entry with the name -/
def isNamed (name de : List Byte) : Bool := decide (deInum de ≠ 0 ∧ namecmp name (de.drop 2) = 0)

/-- the entry that has the name -/
def lookup (f : Store) (size : ℕ) (name : List Byte) : Option ℕ :=
  (List.range (size / DESIZE)).find? fun q => isNamed name (entry f q)

/-- the entry that the next name goes to -/
def vacant (f : Store) (size : ℕ) : ℕ :=
  ((List.range (size / DESIZE)).find? fun q => decide (deInum (entry f q) = 0)).getD (size / DESIZE)

/-- no entry is live but the first two -/
def Bare (f : Store) (size : ℕ) : Prop := ∀ q, 2 ≤ q → q < size / DESIZE → deInum (entry f q) = 0

theorem vacant_le (f : Store) (size : ℕ) : vacant f size ≤ size / DESIZE := by
  unfold vacant
  cases hf : (List.range (size / DESIZE)).find? fun q => decide (deInum (entry f q) = 0) with
  | none => exact le_rfl
  | some q => exact (List.mem_range.1 (List.mem_of_find?_eq_some hf)).le

/-! ## Scanning a directory -/

/-- the entries from off on are read until one answers; the offset where that ends, and the entry -/
def scanLoop (p : Panic) (k : Fin NINODE) (stop : List Byte → Bool) : (fuel off : ℕ) → M (ℕ × Option (List Byte))
  | 0, _ => throw .endless
  | fuel + 1, off => do
    if off < ((← get).icache k).ino.size.toNat then do
      let de ← readDirent p k off
      if stop de then return (off, some de) else scanLoop p k stop fuel (off + DESIZE)
    else return (off, none)

theorem lookupLoop_eq (k : Fin NINODE) (name : List Byte) (fuel off : ℕ) :
    lookupLoop k name fuel off = (do
      match ← scanLoop .dirlookupRead k (isNamed name) fuel off with
      | (_, none) => return none
      | (off, some de) =>
        let ip ← iget (deInum de)
        return some (ip, off)) := by
  induction fuel generalizing off with
  | zero => rfl
  | succ fuel ih =>
    simp only [lookupLoop, scanLoop, bind_assoc]
    congr 1
    funext s
    split_ifs with hlt
    · rw [bind_assoc]
      congr 1
      funext de
      by_cases h0 : deInum de = 0
      · simp [h0, isNamed, ih]
      · by_cases hn : namecmp name (de.drop 2) = 0
        · simp [h0, hn, isNamed]
        · simp [h0, hn, isNamed, ih]
    · simp

theorem emptyLoop_eq (k : Fin NINODE) (fuel off : ℕ) :
    emptyLoop k fuel off = (do
      let r ← scanLoop .dirlinkRead k (fun de => decide (deInum de = 0)) fuel off
      return r.1) := by
  induction fuel generalizing off with
  | zero => rfl
  | succ fuel ih =>
    simp only [emptyLoop, scanLoop, bind_assoc]
    congr 1
    funext s
    split_ifs with hlt
    · rw [bind_assoc]
      congr 1
      funext de
      by_cases h0 : deInum de = 0
      · simp [h0]
      · simp [h0, ih]
    · simp

theorem isdiremptyLoop_eq (k : Fin NINODE) (fuel off : ℕ) :
    isdiremptyLoop k fuel off = (do
      let r ← scanLoop .isdiremptyReadi k (fun de => decide (deInum de ≠ 0)) fuel off
      return r.2.isNone) := by
  induction fuel generalizing off with
  | zero => rfl
  | succ fuel ih =>
    simp only [isdiremptyLoop, scanLoop, bind_assoc]
    congr 1
    funext s
    split_ifs with hlt
    · rw [bind_assoc]
      congr 1
      funext de
      by_cases h0 : deInum de = 0
      · simp [h0, ih]
      · simp [h0]
    · simp

section

variable {sb : Superblock} {τ : Mode} {σ : Fault → Prop} {m : ℕ → Dinode} {a : ℕ → Node} {g : Ghost} {s : St}
  {k : Fin NINODE} {i : ℕ}

/-- a directory whose entries can be read, unless σ -/
structure Dir (sb : Superblock) (σ : Fault → Prop) (x : Node) : Prop where
  type : x.type = Dinode.T_DIR
  size : DESIZE ∣ x.size
  max : MAXFILE * BSIZE < x.size → σ (.panic .bmapRange)

/-- an entry is read in full -/
theorem wp_readDirent (wf : sb.WF) (h : RepM sb τ m a g s) (hp : (k, i) ∈ g.pins) (hl : k ∈ g.locks) (hd : g.dirty = none)
    (hdir : Dir sb σ (a i)) (p : Panic) {q : ℕ} (hq : q < (a i).size / DESIZE) :
    wp (readDirent p k (DESIZE * q)) (fun de t => (∃ m', Looked sb τ a g i m s m' t) ∧
      de = entry (contents sb m s.disk i) q) (Stop σ) s := by
  have hsize : DESIZE * q + DESIZE ≤ (a i).size := by
    have := (Nat.le_div_iff_mul_le (show 0 < DESIZE by decide)).1 hq
    rw [mul_comm, ← Nat.succ_mul]
    exact this
  have hlt : (a i).size < 2 ^ 32 := by
    rw [(h.node (h.lt hl hp)).2.2]
    exact BitVec.isLt _
  have hcond : ¬(DESIZE * q > (a i).size ∨ (DESIZE * q + DESIZE) % 2 ^ 32 < DESIZE * q) := by
    simp only [DESIZE] at hsize ⊢
    omega
  unfold readDirent
  rw [wp_bind]
  refine wp_imp (wp_readi wf h hp hl hd hdir.max none (DESIZE * q) DESIZE) ?_
  rintro r t ⟨-, hr⟩
  obtain ⟨hlook, rfl⟩ := hr (by rw [hdir.type]; decide)
  have hmin : min DESIZE ((a i).size - DESIZE * q) = DESIZE := by omega
  rw [stretch, if_neg hcond, hmin]
  dsimp only
  rw [if_neg (by simp)]
  exact wp_return ⟨hlook, rfl⟩

/-- **The scan** finds the first entry that answers, or comes to the end. -/
theorem wp_scanLoop (wf : sb.WF) (h : RepM sb τ m a g s) (hp : (k, i) ∈ g.pins) (hl : k ∈ g.locks) (hd : g.dirty = none)
    (hdir : Dir sb σ (a i)) (p : Panic) (stop : List Byte → Bool) (fuel q : ℕ) (hfuel : (a i).size / DESIZE < fuel + q)
    (hpos : 0 < fuel) :
    wp (scanLoop p k stop fuel (DESIZE * q)) (fun r t => (∃ m', Looked sb τ a g i m s m' t) ∧
      ((∃ n, q ≤ n ∧ n < (a i).size / DESIZE ∧ r = (DESIZE * n, some (entry (contents sb m s.disk i) n)) ∧
        stop (entry (contents sb m s.disk i) n) ∧ ∀ j, q ≤ j → j < n → ¬stop (entry (contents sb m s.disk i) j)) ∨
      r = (DESIZE * max q ((a i).size / DESIZE), none) ∧
        ∀ j, q ≤ j → j < (a i).size / DESIZE → ¬stop (entry (contents sb m s.disk i) j))) (Stop σ) s := by
  induction fuel generalizing q s m with
  | zero => exact absurd hpos (by omega)
  | succ fuel ih =>
    have hsize : ((s.icache k).ino.size).toNat = (a i).size := by
      rw [(h.ino hl hp).1, (h.node (h.lt hl hp)).2.2]
    unfold scanLoop
    simp only [wp_bind, wp_get, hsize]
    have hend : DESIZE * q < (a i).size ↔ q < (a i).size / DESIZE := by
      obtain ⟨c, hc⟩ := hdir.size
      rw [hc, Nat.mul_div_cancel_left c (by decide), Nat.mul_lt_mul_left (by decide)]
    apply wp_ite
    · intro hlt
      rw [hend] at hlt
      rw [wp_bind]
      refine wp_imp (wp_readDirent wf h hp hl hd hdir p hlt) ?_
      rintro de t ⟨⟨m', hlook⟩, rfl⟩
      apply wp_ite
      · intro hstop
        exact wp_return ⟨⟨m', hlook⟩, Or.inl ⟨q, le_rfl, hlt, rfl, hstop, fun j h1 h2 => absurd h2 (by omega)⟩⟩
      intro hstop
      refine wp_imp (ih hlook.rep (q + 1) (by omega) (by omega)) ?_
      rw [hlook.bytes]
      rintro r u ⟨⟨m'', hu⟩, hr⟩
      refine ⟨⟨m'', hlook.trans hu⟩, ?_⟩
      have hfirst : ∀ j, q ≤ j → (q + 1 ≤ j → ¬stop (entry (contents sb m s.disk i) j)) →
          ¬stop (entry (contents sb m s.disk i) j) := by
        intro j hj hj'
        obtain rfl | hne := Nat.eq_or_lt_of_le hj
        · exact hstop
        · exact hj' hne
      obtain ⟨n, h1, h2, h3, h4, h5⟩ | ⟨h1, h2⟩ := hr
      · exact Or.inl ⟨n, by omega, h2, h3, h4, fun j hj hn => hfirst j hj fun hj' => h5 j hj' hn⟩
      · refine Or.inr ⟨?_, fun j hj hn => hfirst j hj fun hj' => h2 j hj' hn⟩
        have hmax : max (q + 1) ((a i).size / DESIZE) = max q ((a i).size / DESIZE) := by omega
        rw [h1, hmax]
    · intro hge
      rw [hend, not_lt] at hge
      refine wp_return ⟨⟨m, .refl h⟩, Or.inr ⟨?_, fun j h1 h2 => absurd h2 (by omega)⟩⟩
      rw [max_eq_left hge]

/-- the fuel that the three functions give to their loops -/
theorem RepM.fuel (h : RepM sb τ m a g s) (hp : (k, i) ∈ g.pins) (hl : k ∈ g.locks) :
    (s.icache k).ino.size.toNat / DESIZE + 2 = (a i).size / DESIZE + 2 := by
  rw [(h.ino hl hp).1, (h.node (h.lt hl hp)).2.2]

/-! ## The functions -/

/-- from s to t, inode i has been read and inode j referenced by entry k' -/
structure Referenced (sb : Superblock) (τ : Mode) (a : ℕ → Node) (g : Ghost) (i : ℕ) (m : ℕ → Dinode) (s : St)
    (k' : Fin NINODE) (j : ℕ) (m' : ℕ → Dinode) (t : St) : Prop where
  rep : RepM sb τ m' a { g with pins := (k', j) ::ₘ g.pins } t
  bytes : contents sb m' t.disk = contents sb m s.disk
  saved : ¬τ → Saved sb m s.disk i → Saved sb m' t.disk i
  still : HoleFree sb m s.disk i → t.disk = s.disk ∧ m' = m
  got : Got sb m' g.pins k' j t

section

variable (wf : sb.WF) (h : RepM sb τ m a g s) (hp : (k, i) ∈ g.pins) (hl : k ∈ g.locks) (hd : g.dirty = none)

include wf h hp hl hd

/-- **`dirlookup`.** -/
theorem wp_dirlookup (hdir : Dir sb σ (a i)) (name : List Byte) :
    wp (dirlookup k name) (fun r t =>
      lookup (contents sb m s.disk i) (a i).size name = none ∧ r = none ∧ (∃ m', Looked sb τ a g i m s m' t) ∨
      ∃ q k' m', lookup (contents sb m s.disk i) (a i).size name = some q ∧ r = some (k', DESIZE * q) ∧
        Referenced sb τ a g i m s k' (deInum (entry (contents sb m s.disk i) q)) m' t) (Stop σ) s := by
  unfold dirlookup
  simp only [wp_bind, wp_get]
  rw [if_neg, h.fuel hp hl, lookupLoop_eq, wp_bind]
  · refine wp_imp (wp_scanLoop wf h hp hl hd hdir .dirlookupRead (isNamed name) _ 0 (by omega) (Nat.succ_pos _)) ?_
    rintro r t ⟨⟨m', hlook⟩, ⟨n, -, hn, rfl, hstop, hfirst⟩ | ⟨rfl, hno⟩⟩
    · dsimp only
      rw [wp_bind]
      refine wp_imp (wp_iget hlook.rep) ?_
      rintro k' u ⟨hu, hdisk, hgot⟩
      refine wp_return (Or.inr ⟨n, k', m', ?_, rfl, hu, ?_, ?_, ?_, hgot⟩)
      · rw [lookup, List.find?_range_eq_some]
        exact ⟨hstop, List.mem_range.2 hn, fun j hj => by simpa using hfirst j (Nat.zero_le _) hj⟩
      · rw [hdisk]
        exact hlook.bytes
      · rw [hdisk]
        exact hlook.saved
      · intro hfull
        rw [hdisk, (hlook.still hfull).1]
        exact ⟨rfl, (hlook.still hfull).2⟩
    · refine wp_return (Or.inl ⟨?_, rfl, m', hlook⟩)
      rw [lookup, List.find?_range_eq_none]
      intro j hj
      simpa using hno j (Nat.zero_le _) hj
  · rw [(h.ino hl hp).1, ← (h.node (h.lt hl hp)).1, hdir.type]
    exact fun hc => hc rfl

/-- **`isdirempty`.** -/
theorem wp_isdirempty (hdir : Dir sb σ (a i)) :
    wp (isdirempty k) (fun r t => (∃ m', Looked sb τ a g i m s m' t) ∧
      (r = true ↔ Bare (contents sb m s.disk i) (a i).size)) (Stop σ) s := by
  unfold isdirempty
  simp only [wp_bind, wp_get]
  rw [h.fuel hp hl, isdiremptyLoop_eq, wp_bind, mul_comm]
  refine wp_imp (wp_scanLoop wf h hp hl hd hdir .isdiremptyReadi _ _ 2 (by omega) (Nat.succ_pos _)) ?_
  rintro r t ⟨hlook, ⟨n, h2, hn, rfl, hstop, -⟩ | ⟨rfl, hno⟩⟩
  · refine wp_return ⟨hlook, ⟨fun hc => absurd hc Bool.false_ne_true, fun hbare => ?_⟩⟩
    simp only [decide_eq_true_eq] at hstop
    exact absurd (hbare n h2 hn) hstop
  · refine wp_return ⟨hlook, ⟨fun _ q h1 h2 => ?_, fun _ => rfl⟩⟩
    simpa using hno q h1 h2

theorem wp_emptyLoop (hdir : Dir sb σ (a i)) :
    wp (emptyLoop k ((a i).size / DESIZE + 2) 0) (fun r t => (∃ m', Looked sb τ a g i m s m' t) ∧
      r = DESIZE * vacant (contents sb m s.disk i) (a i).size) (Stop σ) s := by
  rw [emptyLoop_eq, wp_bind]
  refine wp_imp (wp_scanLoop wf h hp hl hd hdir .dirlinkRead _ _ 0 (by omega) (Nat.succ_pos _)) ?_
  rintro r t ⟨hlook, ⟨n, -, hn, rfl, hstop, hfirst⟩ | ⟨rfl, hno⟩⟩
  · refine wp_return ⟨hlook, ?_⟩
    rw [vacant, List.find?_range_eq_some.2 ⟨hstop, List.mem_range.2 hn, fun j hj => by simpa using hfirst j (Nat.zero_le _) hj⟩]
    rfl
  · refine wp_return ⟨hlook, ?_⟩
    rw [vacant, List.find?_range_eq_none.2 fun j hj => by simpa using hno j (Nat.zero_le _) hj, Option.getD_none,
      max_eq_right (Nat.zero_le _)]

end

/-- the inode number in the bytes of an entry -/
theorem getLE_dirent (name : List Byte) (inum : ℕ) : getLE (dirent name inum) 0 2 = inum % 65536 := by
  simp only [getLE, dirent, List.getD_cons_zero, List.getD_cons_succ, BitVec.toNat_ofNat]
  omega

/-- an entry of a directory that names an inode of the disk -/
theorem aligned_dirent {name : List Byte} {inum : ℕ} (h : inum % 65536 < sb.ninodes) (q : ℕ) :
    Aligned sb (dirent name inum) (DESIZE * q) DESIZE where
  off := ⟨q, rfl⟩
  len := ⟨1, rfl⟩
  entries p hp hle := by
    obtain rfl : p = 0 := by simp only [DESIZE] at hle; omega
    rw [getLE_dirent]
    exact h

/-- **`dirlink`.** A name that is there is refused, and nothing has changed but for blocks that reading allocated; any
other name goes to the first entry that is free, or to the end. -/
theorem wp_dirlink (wf : sb.WF) (h : RepM sb τ m a g s) (hp : (k, i) ∈ g.pins) (hl : k ∈ g.locks) (hd : g.dirty = none)
    (hn : g.newborn = none) (hdir : Dir sb σ (a i)) (name : List Byte) (inum : ℕ)
    (hinum : τ.dirs → inum % 65536 < sb.ninodes)
    (hroom : MAXFILE * BSIZE < DESIZE * vacant (contents sb m s.disk i) (a i).size + DESIZE → σ (.panic .dirlink)) :
    wp (dirlink k name inum) (fun r t =>
      lookup (contents sb m s.disk i) (a i).size name ≠ none ∧ r = false ∧
        (∃ m', RepM sb τ m' a g t ∧ contents sb m' t.disk = contents sb m s.disk ∧
          (HoleFree sb m s.disk i → t.disk = s.disk ∧ m' = m)) ∨
      lookup (contents sb m s.disk i) (a i).size name = none ∧ r = true ∧
        ∃ m' u, Looked sb τ a g i m s m' u ∧ Wrote sb τ m' a g u i (dirent name inum)
          (DESIZE * vacant (contents sb m s.disk i) (a i).size) DESIZE t) (Stop σ) s := by
  unfold dirlink
  rw [wp_bind]
  refine wp_imp (wp_dirlookup wf h hp hl hd hdir name) ?_
  rintro r t (⟨hnone, rfl, m₁, hlook⟩ | ⟨q, k', m', hsome, rfl, href⟩)
  · dsimp only
    simp only [wp_bind, wp_get]
    rw [hlook.rep.fuel hp hl]
    refine wp_imp (wp_emptyLoop wf hlook.rep hp hl hd hdir) ?_
    rintro off u ⟨⟨m₂, hlook'⟩, rfl⟩
    rw [hlook.bytes]
    have hboth := hlook.trans hlook'
    refine wp_imp (wp_writei wf hboth.rep hp hl hd hn fun hdirs _ => aligned_dirent (hinum hdirs) _) ?_
    have hdev : (a i).type ≠ Dinode.T_DEV := by rw [hdir.type]; decide
    rintro r v (⟨hc, -⟩ | ⟨-, hrefuse, rfl, rfl⟩ | ⟨-, -, rfl, hw⟩)
    · exact absurd hc hdev
    · rw [if_pos (by simp [DESIZE])]
      refine (wp_throw _ _).2 (Or.inr (hroom ?_))
      have hle : DESIZE * vacant (contents sb m s.disk i) (a i).size ≤ (a i).size :=
        (Nat.mul_le_mul_left _ (vacant_le _ _)).trans (Nat.mul_div_le _ _)
      have hbig : MAXFILE * BSIZE < 2 ^ 32 := by decide
      rcases hrefuse with h1 | h1 | h1
      · exact absurd hle (by omega)
      · by_contra hge
        rw [Nat.mod_eq_of_lt (by omega)] at h1
        omega
      · exact h1
    · rw [if_neg (by simp)]
      exact wp_return (Or.inr ⟨hnone, rfl, m₂, u, hboth, hw⟩)
  · dsimp only
    rw [wp_bind]
    refine wp_imp (wp_iput_got wf href.rep href.got hd hn) ?_
    rintro _ u ⟨hu, hdisk⟩
    refine wp_return (Or.inl ⟨by rw [hsome]; simp, rfl, m', hu, ?_, ?_⟩)
    · rw [hdisk]
      exact href.bytes
    · intro hfull
      rw [hdisk]
      exact href.still hfull

end

end Xv6.Fs
