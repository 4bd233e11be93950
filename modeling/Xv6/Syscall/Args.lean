/-
System-call arguments: the fetchers of `syscall.c`.

A process is its size, its saved registers and its memory as the kernel sees it while the process's page table is in
cr3: the byte at each address and whether the page of that address is present. A load from a page that is not present
ends the call with a kernel-mode page fault. `argint` keeps the low 32 bits of a register, `argstr` sign-extends them
back to an address, and `argptr` compares the low 32 bits of the register, and their 32-bit sum with the size, with
`proc->sz`, but stores the whole register.
-/
import Xv6.Core.Bytes
import Xv6.Param
import Xv6.Vm.Mmu

namespace Xv6.Syscall

open Xv6.Bytes

/-! ## The model -/

/-- the registers of the trap frame that carry arguments -/
structure TrapFrame where
  rdi : Addr
  rsi : Addr
  rdx : Addr
  r10 : Addr
  r8 : Addr
  r9 : Addr

/-- what the argument fetchers read of the current process -/
structure Proc where
  sz : Addr
  tf : TrapFrame
  mem : Addr → Byte
  present : Addr → Bool

/-- a w-byte load; it faults at the first byte whose page is not present -/
def load (p : Proc) (a : Addr) (w : ℕ) : Except Fault ℕ :=
  match (List.range w).find? (fun i => !p.present (a + BitVec.ofNat 64 i)) with
  | some i => .error (.pageFault (a + BitVec.ofNat 64 i))
  | none => .ok (getLE (fun i => p.mem (a + BitVec.ofNat 64 i)) 0 w)

/-- the w-byte word at `addr`: the return value and `*ip`, which keeps its old value on a refusal -/
def fetchWord (p : Proc) (w : ℕ) (addr : Addr) (ip : BitVec (8 * w)) : Except Fault (ℤ × BitVec (8 * w)) :=
  if p.sz ≤ addr ∨ p.sz < addr + BitVec.ofNat 64 w then .ok (-1, ip)
  else do
    let v ← load p addr w
    return (0, BitVec.ofNat (8 * w) v)

def fetchint (p : Proc) (addr : Addr) (ip : BitVec 32) : Except Fault (ℤ × BitVec 32) := fetchWord p 4 addr ip

def fetchaddr (p : Proc) (addr : Addr) (ip : Addr) : Except Fault (ℤ × Addr) := fetchWord p 8 addr ip

/-- the loop of `fetchstr` when n bytes are left from `s` to `ep`; the pointer difference is returned as an int -/
def fetchstrLoop (p : Proc) (pp : Addr) : ℕ → Addr → Except Fault (BitVec 32)
  | 0, _ => .ok (-1)
  | n + 1, s => do
    let c ← load p s 1
    if c = 0 then return (s - pp).setWidth 32 else fetchstrLoop p pp n (s + 1)

/-- the nul-terminated string at `addr`: its length and `*pp` -/
def fetchstr (p : Proc) (addr : Addr) (pp : Addr) : Except Fault (BitVec 32 × Addr) :=
  if p.sz ≤ addr then .ok (-1, pp)
  else do
    let n ← fetchstrLoop p addr (p.sz - addr).toNat addr
    return (n, addr)

def fetcharg (p : Proc) : ℤ → Except Fault Addr
  | 0 => .ok p.tf.rdi
  | 1 => .ok p.tf.rsi
  | 2 => .ok p.tf.rdx
  | 3 => .ok p.tf.r10
  | 4 => .ok p.tf.r8
  | 5 => .ok p.tf.r9
  | _ => .error (.panic .failedFetch)

/-- the low 32 bits of an argument; the return value is always 0 -/
def argint (p : Proc) (n : ℤ) : Except Fault (BitVec 32) := do
  let a ← fetcharg p n
  return a.setWidth 32

def argaddr (p : Proc) (n : ℤ) : Except Fault Addr := fetcharg p n

/-- the return value of `argptr`, an `addr_t`, and `*pp` -/
def argptr (p : Proc) (n : ℤ) (pp : Addr) (size : BitVec 32) : Except Fault (Addr × Addr) := do
  let i ← argaddr p n
  if size.toInt < 0 ∨ p.sz ≤ (i.setWidth 32).setWidth 64 ∨ p.sz < (i.setWidth 32 + size).setWidth 64 then
    return (-1, pp)
  else
    return (0, i)

def argstr (p : Proc) (n : ℤ) (pp : Addr) : Except Fault (BitVec 32 × Addr) := do
  let addr ← argint p n
  fetchstr p (addr.signExtend 64) pp

/-! ## Loads -/

theorem load_ok_iff (p : Proc) (a : Addr) (w : ℕ) :
    (∀ f, load p a w ≠ .error f) ↔ ∀ i < w, p.present (a + BitVec.ofNat 64 i) = true := by
  cases h : (List.range w).find? (fun i => !p.present (a + BitVec.ofNat 64 i)) with
  | none =>
    have hall : ∀ i < w, p.present (a + BitVec.ofNat 64 i) = true := by simpa using h
    simp only [load, h]
    exact ⟨fun _ => hall, fun _ f hf => by cases hf⟩
  | some i =>
    obtain ⟨hi, hw⟩ : p.present (a + BitVec.ofNat 64 i) = false ∧ i < w := by
      have h1 := List.find?_some h
      have h2 := List.mem_of_find?_eq_some h
      simpa using And.intro h1 h2
    simp only [load, h]
    exact ⟨fun hn => absurd rfl (hn _), fun hall => by rw [hall i hw] at hi; cases hi⟩

theorem load_byte (p : Proc) (a : Addr) :
    load p a 1 = if p.present a then .ok (p.mem a).toNat else .error (.pageFault a) := by
  by_cases h : p.present a = true
  · simp [load, List.range_succ, getLE, h]
  · simp [load, List.range_succ, h]

/-! ## Strings -/

/-- a string of k bytes and its terminating nul lie below `proc->sz` at `a`, on present pages -/
structure StringAt (p : Proc) (a : Addr) (k : ℕ) : Prop where
  below : a.toNat + k < p.sz.toNat
  nul : p.mem (a + BitVec.ofNat 64 k) = 0
  nonzero : ∀ j < k, p.mem (a + BitVec.ofNat 64 j) ≠ 0
  present : ∀ j ≤ k, p.present (a + BitVec.ofNat 64 j) = true

theorem add_succ_ofNat (s : Addr) (k : ℕ) : s + 1 + BitVec.ofNat 64 k = s + BitVec.ofNat 64 (k + 1) := by
  rw [BitVec.add_assoc, Nat.add_comm k 1, BitVec.ofNat_add]
  rfl

/-- the loop stops at the first nul, having loaded every byte up to it, or runs out of bytes -/
theorem fetchstrLoop_ok {p : Proc} {pp s : Addr} {n : ℕ} {r : BitVec 32} (h : fetchstrLoop p pp n s = .ok r) :
    r = -1 ∨ ∃ k < n, r = (s + BitVec.ofNat 64 k - pp).setWidth 32 ∧ p.mem (s + BitVec.ofNat 64 k) = 0 ∧
      (∀ j < k, p.mem (s + BitVec.ofNat 64 j) ≠ 0) ∧ ∀ j ≤ k, p.present (s + BitVec.ofNat 64 j) = true := by
  induction n generalizing s with
  | zero => exact .inl (by simpa [fetchstrLoop] using h.symm)
  | succ n ih =>
    rw [fetchstrLoop, load_byte] at h
    by_cases hp : p.present s = true
    swap
    · simp [hp, bind, Except.bind] at h
    by_cases hc : p.mem s = 0
    · have hr : (s - pp).setWidth 32 = r := by simpa [hp, hc, bind, Except.bind, pure, Except.pure] using h
      exact .inr ⟨0, by omega, by simp [← hr], by simpa using hc, by simp, by simpa using hp⟩
    · have hne : (p.mem s).toNat ≠ 0 := fun h0 => hc (BitVec.eq_of_toNat_eq (by simpa using h0))
      have hrest : fetchstrLoop p pp n (s + 1) = .ok r := by
        simpa [hp, hne, bind, Except.bind] using h
      rcases ih hrest with hr | ⟨k, hk, hr, hz, hnz, hpr⟩
      · exact .inl hr
      · refine .inr ⟨k + 1, by omega, by rw [← add_succ_ofNat]; exact hr, by rw [← add_succ_ofNat]; exact hz, ?_, ?_⟩
        · intro j hj
          cases j with
          | zero => simpa using hc
          | succ j => rw [← add_succ_ofNat]; exact hnz j (by omega)
        · intro j hj
          cases j with
          | zero => simpa using hp
          | succ j => rw [← add_succ_ofNat]; exact hpr j (by omega)

theorem fetchstrLoop_string {p : Proc} {pp s : Addr} {n k : ℕ} (hk : k < n) (hz : p.mem (s + BitVec.ofNat 64 k) = 0)
    (hnz : ∀ j < k, p.mem (s + BitVec.ofNat 64 j) ≠ 0) (hpr : ∀ j ≤ k, p.present (s + BitVec.ofNat 64 j) = true) :
    fetchstrLoop p pp n s = .ok ((s + BitVec.ofNat 64 k - pp).setWidth 32) := by
  induction k generalizing s n with
  | zero =>
    obtain ⟨m, rfl⟩ : ∃ m, n = m + 1 := ⟨n - 1, by omega⟩
    have hp : p.present s = true := by simpa using hpr 0 le_rfl
    have hc : p.mem s = 0 := by simpa using hz
    simp [fetchstrLoop, load_byte, hp, hc, bind, Except.bind, pure, Except.pure]
  | succ k ih =>
    obtain ⟨m, rfl⟩ : ∃ m, n = m + 1 := ⟨n - 1, by omega⟩
    have hp : p.present s = true := by simpa using hpr 0 (by omega)
    have hne : (p.mem s).toNat ≠ 0 := fun h0 =>
      hnz 0 (by omega) (by simpa using BitVec.eq_of_toNat_eq (y := 0) (by simpa using h0))
    have hrest := ih (s := s + 1) (n := m) (by omega) (by rw [add_succ_ofNat]; exact hz)
      (fun j hj => by rw [add_succ_ofNat]; exact hnz (j + 1) (by omega))
      (fun j hj => by rw [add_succ_ofNat]; exact hpr (j + 1) (by omega))
    rw [add_succ_ofNat] at hrest
    simpa [fetchstrLoop, load_byte, hp, hne, bind, Except.bind] using hrest

/-- **What `fetchstr` accepts.** It returns a length that its callers take for success exactly when a string starts at
the address and ends below `proc->sz`; the length is that of the string, as an int. -/
theorem fetchstr_ok_iff (p : Proc) (a pp q : Addr) (n : BitVec 32) :
    (fetchstr p a pp = .ok (n, q) ∧ 0 ≤ n.toInt) ↔
      q = a ∧ ∃ k, StringAt p a k ∧ n = BitVec.ofNat 32 k ∧ 0 ≤ n.toInt := by
  have hlen : ∀ k, (a + BitVec.ofNat 64 k - a).setWidth 32 = BitVec.ofNat 32 k := fun k => by
    rw [BitVec.add_comm, BitVec.add_sub_cancel, BitVec.setWidth_ofNat_of_le (by omega)]
  by_cases hsz : p.sz ≤ a
  · simp only [fetchstr, hsz, if_true]
    refine ⟨fun ⟨h, hn⟩ => ?_, fun ⟨_, k, hk, _⟩ => ?_⟩
    · obtain ⟨rfl, -⟩ := Prod.mk.inj (Except.ok.inj h)
      exact absurd hn (by decide)
    · have := hk.below
      rw [BitVec.le_def] at hsz
      omega
  · have hcount : (p.sz - a).toNat = p.sz.toNat - a.toNat :=
      BitVec.toNat_sub_of_le (BitVec.le_of_lt (BitVec.not_le.1 hsz))
    simp only [fetchstr, hsz, if_false, hcount]
    refine ⟨fun ⟨h, hn⟩ => ?_, fun ⟨hq, k, hk, hkn, hn⟩ => ?_⟩
    · cases hl : fetchstrLoop p a (p.sz.toNat - a.toNat) a with
      | error f => simp [hl, bind, Except.bind] at h
      | ok r =>
        obtain ⟨rfl, rfl⟩ : r = n ∧ a = q := by simpa [hl, bind, Except.bind, pure, Except.pure] using h
        rcases fetchstrLoop_ok hl with rfl | ⟨k, hk, rfl, hz, hnz, hpr⟩
        · exact absurd hn (by decide)
        · exact ⟨rfl, k, ⟨by omega, hz, hnz, hpr⟩, hlen k, hn⟩
    · have hbelow := hk.below
      have hloop : fetchstrLoop p a (p.sz.toNat - a.toNat) a = .ok ((a + BitVec.ofNat 64 k - a).setWidth 32) :=
        fetchstrLoop_string (by omega) hk.nul hk.nonzero hk.present
      rw [hlen] at hloop
      simp [hloop, hq, hkn, bind, Except.bind, pure, Except.pure, hkn ▸ hn]

/-! ## Pointers -/

theorem argptr_ok_iff {p : Proc} {n : ℤ} {a : Addr} (h : fetcharg p n = .ok a) (pp q : Addr) (size : BitVec 32) :
    argptr p n pp size = .ok (0, q) ↔ q = a ∧ 0 ≤ size.toInt ∧ a.toNat % 2 ^ 32 < p.sz.toNat ∧
      (a.toNat % 2 ^ 32 + size.toNat) % 2 ^ 32 ≤ p.sz.toNat := by
  have hlo : ((a.setWidth 32).setWidth 64).toNat = a.toNat % 2 ^ 32 := by simp; omega
  have hsum : ((a.setWidth 32 + size).setWidth 64).toNat = (a.toNat % 2 ^ 32 + size.toNat) % 2 ^ 32 := by simp; omega
  simp only [argptr, argaddr, h, bind, Except.bind, BitVec.le_def, BitVec.lt_def, hlo, hsum]
  split_ifs with hc
  · refine ⟨fun hr => ?_, fun ⟨_, h1, h2, h3⟩ => ?_⟩
    · exact absurd (Prod.mk.inj (Except.ok.inj hr)).1 (by decide)
    · omega
  · refine ⟨fun hr => ⟨(Prod.mk.inj (Except.ok.inj hr)).2.symm, by omega, by omega, by omega⟩, fun ⟨hq, _⟩ => ?_⟩
    rw [hq]
    rfl

theorem argstr_ok_iff {p : Proc} {n : ℤ} {a : Addr} (h : fetcharg p n = .ok a) (pp q : Addr) (len : BitVec 32) :
    (argstr p n pp = .ok (len, q) ∧ 0 ≤ len.toInt) ↔ q = (a.setWidth 32).signExtend 64 ∧
      ∃ k, StringAt p ((a.setWidth 32).signExtend 64) k ∧ len = BitVec.ofNat 32 k ∧ 0 ≤ len.toInt := by
  have hrun : argstr p n pp = fetchstr p ((a.setWidth 32).signExtend 64) pp := by
    simp [argstr, argint, h, bind, Except.bind, pure, Except.pure]
  rw [hrun, fetchstr_ok_iff]

theorem toInt_ofNat32_nonneg_iff (k : ℕ) : 0 ≤ (BitVec.ofNat 32 k).toInt ↔ k % 2 ^ 32 < 2 ^ 31 := by
  rw [BitVec.toInt_eq_toNat_cond, BitVec.toNat_ofNat]
  split_ifs <;> omega

/-- **When the pointer checks are sound.** `argptr` validates the 64-bit range it returns exactly when the range is
empty, or the comparison of the low 32 bits refuses, or the whole range is inside the process. `argstr` returns the
pointer it was given exactly when the register is the sign extension of its low half, or no string of int length starts
at that sign extension. -/
theorem pointer_validation (p : Proc) (n : ℤ) (a : Addr) (size : BitVec 32) (h : fetcharg p n = .ok a) :
    ((∀ pp q, argptr p n pp size = .ok (0, q) → q = a ∧ ∀ k : ℕ, (k : ℤ) < size.toInt → a.toNat + k < p.sz.toNat) ↔
      (size.toInt ≤ 0 ∨ p.sz.toNat ≤ a.toNat % 2 ^ 32 ∨ p.sz.toNat < (a.toNat % 2 ^ 32 + size.toNat) % 2 ^ 32 ∨
        a.toNat + size.toNat ≤ p.sz.toNat)) ∧
    ((∀ pp q len, argstr p n pp = .ok (len, q) → 0 ≤ len.toInt → q = a ∧ ∃ k, StringAt p a k) ↔
      (a = (a.setWidth 32).signExtend 64 ∨
        ∀ k, StringAt p ((a.setWidth 32).signExtend 64) k → 2 ^ 31 ≤ k % 2 ^ 32)) := by
  have hsize : 0 < size.toInt → size.toInt = size.toNat := fun h0 => by
    rw [BitVec.toInt_eq_toNat_cond] at h0 ⊢
    have := size.isLt
    split_ifs at h0 ⊢ <;> omega
  constructor
  · constructor
    · intro hv
      by_contra hc
      push Not at hc
      obtain ⟨hpos, hlo, hsum, hout⟩ := hc
      have hok := (argptr_ok_iff h 0 a size).2 ⟨rfl, by omega, hlo, hsum⟩
      have hs := hsize hpos
      have hlast := (hv 0 a hok).2 (size.toNat - 1) (by omega)
      omega
    · intro hc pp q hok
      obtain ⟨hq, h0, hlo, hsum⟩ := (argptr_ok_iff h pp q size).1 hok
      refine ⟨hq, fun k hk => ?_⟩
      have hs := hsize (by omega)
      rcases hc with hc | hc | hc | hc <;> omega
  · constructor
    · intro hv
      by_contra hc
      push Not at hc
      obtain ⟨hne, k, hk, hlt⟩ := hc
      have hn := (toInt_ofNat32_nonneg_iff k).2 hlt
      obtain ⟨hok, -⟩ := (argstr_ok_iff h 0 _ _).2 ⟨rfl, k, hk, rfl, hn⟩
      exact hne (hv 0 _ _ hok hn).1.symm
    · intro hc pp q len hok hn
      obtain ⟨hq, k, hk, hlen, -⟩ := (argstr_ok_iff h pp q len).1 ⟨hok, hn⟩
      rcases hc with hc | hc
      · rw [← hc] at hq hk
        exact ⟨hq, k, hk⟩
      · have := (toInt_ofNat32_nonneg_iff k).1 (hlen ▸ hn)
        have := hc k hk
        omega

/-- a process of three pages with `a` in its first argument register; every byte of its memory is 0 -/
def smallProc (a : Addr) : Proc :=
  ⟨0x4000, ⟨a, 0, 0, 0, 0, 0⟩, fun _ => 0, fun x => decide (PGSIZE ≤ x ∧ x < 0x4000)⟩

/-- A pointer into the process is returned as it is, for a buffer and for a string. -/
theorem pointer_validation_user :
    (∀ pp q, argptr (smallProc 0x2000) 0 pp 16 = .ok (0, q) →
      q = 0x2000 ∧ ∀ k : ℕ, (k : ℤ) < (16 : BitVec 32).toInt → (0x2000 : Addr).toNat + k < 0x4000) ∧
    (∀ pp q len, argstr (smallProc 0x2000) 0 pp = .ok (len, q) → 0 ≤ len.toInt →
      q = 0x2000 ∧ ∃ k, StringAt (smallProc 0x2000) 0x2000 k) := by
  obtain ⟨hptr, hstr⟩ := pointer_validation (smallProc 0x2000) 0 0x2000 16 rfl
  exact ⟨hptr.2 (.inr (.inr (.inr (by decide)))), hstr.2 (.inl (by decide))⟩

/-- A kernel address whose low half is a user address passes `argptr`, which stores it whole, and `argstr` accepts it
as the string at its low half. -/
theorem kernel_pointer_accepted :
    argptr (smallProc (KERNBASE + 0x2000)) 0 0 16 = .ok (0, KERNBASE + 0x2000) ∧
    argstr (smallProc (KERNBASE + 0x2000)) 0 0 = .ok (0, 0x2000) ∧
    (smallProc (KERNBASE + 0x2000)).sz < KERNBASE + 0x2000 := by
  refine ⟨by rfl, ?_, by decide⟩
  have hk : StringAt (smallProc (KERNBASE + 0x2000)) 0x2000 0 :=
    ⟨by decide, rfl, fun j hj => absurd hj (Nat.not_lt_zero j), fun j hj => by
      obtain rfl := Nat.le_zero.1 hj
      decide⟩
  exact ((argstr_ok_iff rfl 0 0x2000 0).2 ⟨by decide, 0, hk, rfl, by decide⟩).1

/-! ## Page faults -/

/-- the page table `exec`, `fork` and `sbrk` build: below the kernel, exactly the pages from the second one up to the
page of the last byte are present -/
structure Layout (p : Proc) : Prop where
  sz_lt : p.sz < KERNBASE
  present_iff : ∀ a, a < KERNBASE → (p.present a = true ↔ PGSIZE ≤ a ∧ a < pgRoundUp p.sz)

theorem Layout.roundUp {p : Proc} (hl : Layout p) :
    (pgRoundUp p.sz).toNat = (p.sz.toNat + 4095) / 4096 * 4096 := by
  have hsz := hl.sz_lt
  rw [BitVec.lt_def, show KERNBASE.toNat = 0xFFFF800000000000 from rfl] at hsz
  exact pgRoundUp_toNat p.sz (by omega)

theorem Layout.present_of_lt {p : Proc} (hl : Layout p) {a : Addr} (h1 : PGSIZE ≤ a) (h2 : a < p.sz) :
    p.present a = true := by
  refine (hl.present_iff a (BitVec.lt_trans h2 hl.sz_lt)).2 ⟨h1, ?_⟩
  rw [BitVec.lt_def, hl.roundUp]
  rw [BitVec.lt_def] at h2
  omega

theorem Layout.absent_of_lt {p : Proc} (hl : Layout p) {a : Addr} (h : a < PGSIZE) : p.present a = false := by
  rw [← Bool.not_eq_true, hl.present_iff a (BitVec.lt_trans h (by decide))]
  exact fun hc => absurd hc.1 (BitVec.not_le.2 h)

/-- a w-byte load of a range that was compared with `proc->sz` faults exactly on page 0 -/
theorem Layout.load_ok_iff {p : Proc} (hl : Layout p) {a : Addr} {w : ℕ} (h0 : 0 < w)
    (hsz : a.toNat + w ≤ p.sz.toNat) : (∀ f, load p a w ≠ .error f) ↔ PGSIZE ≤ a := by
  rw [Syscall.load_ok_iff]
  refine ⟨fun h => ?_, fun h i hi => ?_⟩
  · by_contra hlt
    have h1 : p.present a = true := by simpa using h 0 h0
    rw [hl.absent_of_lt (BitVec.not_le.1 hlt)] at h1
    cases h1
  · have hlt : a.toNat + i < 2 ^ 64 := by have := p.sz.isLt; omega
    have hadd : (a + BitVec.ofNat 64 i).toNat = a.toNat + i := by
      rw [BitVec.toNat_add, BitVec.toNat_ofNat, Nat.mod_eq_of_lt (show i < 2 ^ 64 by omega), Nat.mod_eq_of_lt hlt]
    refine hl.present_of_lt ?_ ?_
    · rw [BitVec.le_def] at h ⊢
      omega
    · rw [BitVec.lt_def]
      omega

theorem map_ne_error_iff {α β : Type} (x : Except Fault α) (g : α → β) :
    (∀ f, (x >>= fun v => pure (g v)) ≠ .error f) ↔ ∀ f, x ≠ .error f := by
  cases x <;> simp [bind, Except.bind, pure, Except.pure]

/-- a word that passes the comparison with `proc->sz` ends inside the process -/
theorem Layout.word_end {p : Proc} (hl : Layout p) {a : Addr} {w : ℕ} (hw : w ≤ 8) (h1 : ¬ p.sz ≤ a)
    (h2 : ¬ p.sz < a + BitVec.ofNat 64 w) : a.toNat + w ≤ p.sz.toNat := by
  have hsz := hl.sz_lt
  rw [BitVec.lt_def, show KERNBASE.toNat = 0xFFFF800000000000 from rfl] at hsz
  rw [BitVec.le_def] at h1
  rw [BitVec.lt_def, BitVec.toNat_add, BitVec.toNat_ofNat, Nat.mod_eq_of_lt (show w < 2 ^ 64 by omega),
    Nat.mod_eq_of_lt (by omega)] at h2
  omega

theorem Layout.fetchWord_ok_iff {p : Proc} (hl : Layout p) {addr : Addr} {w : ℕ} (h0 : 0 < w) (hw : w ≤ 8) :
    (∀ ip f, fetchWord p w addr ip ≠ .error f) ↔ PGSIZE ≤ addr ∨ p.sz ≤ addr ∨ p.sz < addr + BitVec.ofNat 64 w := by
  by_cases hc : p.sz ≤ addr ∨ p.sz < addr + BitVec.ofNat 64 w
  · simp [fetchWord, hc]
  · obtain ⟨h1, h2⟩ := not_or.1 hc
    simp only [fetchWord, hc, if_false, or_false, map_ne_error_iff, forall_const]
    exact hl.load_ok_iff h0 (hl.word_end hw h1 h2)

theorem fetchstrLoop_present {p : Proc} {pp s : Addr} {n : ℕ}
    (h : ∀ j < n, p.present (s + BitVec.ofNat 64 j) = true) (f : Fault) : fetchstrLoop p pp n s ≠ .error f := by
  induction n generalizing s with
  | zero => simp [fetchstrLoop]
  | succ n ih =>
    have hp : p.present s = true := by simpa using h 0 (by omega)
    rw [fetchstrLoop, load_byte, if_pos hp]
    by_cases hc : (p.mem s).toNat = 0
    · simp [hc, bind, Except.bind, pure, Except.pure]
    · have hrest := ih (s := s + 1) (fun j hj => by rw [add_succ_ofNat]; exact h (j + 1) (by omega))
      simpa [hc, bind, Except.bind] using hrest

theorem fetchstrLoop_absent {p : Proc} {pp s : Addr} {n : ℕ} (h0 : 0 < n) (h : p.present s = false) :
    fetchstrLoop p pp n s = .error (.pageFault s) := by
  obtain ⟨m, rfl⟩ : ∃ m, n = m + 1 := ⟨n - 1, by omega⟩
  simp [fetchstrLoop, load_byte, h, bind, Except.bind]

/-- **When the fetchers cannot fault.** With the layout the kernel builds, `fetchint`, `fetchaddr` and `fetchstr` end
without a kernel page fault exactly when the address is not on page 0 or their comparison with `proc->sz` refuses it. -/
theorem fetch_no_fault (p : Proc) (hl : Layout p) (addr : Addr) :
    ((∀ ip f, fetchint p addr ip ≠ .error f) ↔ PGSIZE ≤ addr ∨ p.sz ≤ addr ∨ p.sz < addr + 4) ∧
    ((∀ ip f, fetchaddr p addr ip ≠ .error f) ↔ PGSIZE ≤ addr ∨ p.sz ≤ addr ∨ p.sz < addr + 8) ∧
    ((∀ pp f, fetchstr p addr pp ≠ .error f) ↔ PGSIZE ≤ addr ∨ p.sz ≤ addr) := by
  refine ⟨hl.fetchWord_ok_iff (w := 4) (by omega) (by omega), hl.fetchWord_ok_iff (w := 8) (by omega) (by omega), ?_⟩
  by_cases hc : p.sz ≤ addr
  · simp [fetchstr, hc]
  · have hlt := BitVec.not_le.1 hc
    have hcount : (p.sz - addr).toNat = p.sz.toNat - addr.toNat := BitVec.toNat_sub_of_le (BitVec.le_of_lt hlt)
    rw [BitVec.lt_def] at hlt
    simp only [fetchstr, hc, if_false, or_false, map_ne_error_iff, forall_const]
    refine ⟨fun h => ?_, fun h => fetchstrLoop_present fun j hj => ?_⟩
    · by_contra hpg
      exact h _ (fetchstrLoop_absent (by omega) (hl.absent_of_lt (BitVec.not_le.1 hpg)))
    · exact (Syscall.load_ok_iff p addr (p.sz - addr).toNat).1
        ((hl.load_ok_iff (by omega) (by omega)).2 h) j hj

theorem smallProc_layout (a : Addr) : Layout (smallProc a) := by
  have hsz : (smallProc a).sz = 0x4000 := rfl
  refine ⟨by rw [hsz]; decide, fun x _ => ?_⟩
  rw [hsz, show pgRoundUp 0x4000 = 0x4000 by decide]
  exact decide_eq_true_iff

/-- On the second page nothing faults. -/
theorem fetch_no_fault_user : Layout (smallProc 0x1000) ∧
    (∀ ip f, fetchint (smallProc 0x1000) 0x1000 ip ≠ .error f) ∧
    (∀ ip f, fetchaddr (smallProc 0x1000) 0x1000 ip ≠ .error f) ∧
    (∀ pp f, fetchstr (smallProc 0x1000) 0x1000 pp ≠ .error f) := by
  obtain ⟨hint, haddr, hstr⟩ := fetch_no_fault (smallProc 0x1000) (smallProc_layout _) 0x1000
  exact ⟨smallProc_layout _, hint.2 (.inl (by decide)), haddr.2 (.inl (by decide)), hstr.2 (.inl (by decide))⟩

/-- A null pointer is below `proc->sz`, so each fetcher loads from it and the kernel faults. -/
theorem null_pointer_faults : Layout (smallProc 0) ∧
    fetchint (smallProc 0) 0 0 = .error (.pageFault 0) ∧ fetchaddr (smallProc 0) 0 0 = .error (.pageFault 0) ∧
    fetchstr (smallProc 0) 0 0 = .error (.pageFault 0) := by
  refine ⟨smallProc_layout 0, by rfl, by rfl, ?_⟩
  have hloop : fetchstrLoop (smallProc 0) 0 ((smallProc 0).sz - 0).toNat 0 = .error (.pageFault 0) :=
    fetchstrLoop_absent (by decide) (by decide)
  rw [fetchstr, if_neg (by decide), hloop]
  rfl

end Xv6.Syscall
