/-
What a process sees of `exec`.

`userByte` is the byte a process finds at an address, through its page table. The results are about calls that return,
from any state in which the caller's page table is intact.

- `exec_balanced`: every call ends its transaction and gives back the file;
- `exec_loads_file`: after a call that returns 0 memory holds, below the stack, what the file describes;
- `exec_passes_argv`: and the stack page holds the arguments, as `main` expects them;
- `exec_failure_intact_iff`: a call that returns -1 leaves the process as it was, except when the array of addresses is
  the first thing that does not fit: rdi and rsi are stored before it is copied.
-/
import Xv6.Exec.Headers

namespace Xv6.Exec

open Xv6.Bytes Xv6.Vm Xv6.Wp Xv6.Radix

/-- the byte at a user address -/
def userByte (t : Phys) (root : Frame) (va : Addr) : Option Byte :=
  (lookup t root va).map fun e => t.mem (pteFrame e) (va.toNat % 4096)

/-- user code may access the address; none: no page -/
def accessible (t : Phys) (root : Frame) (va : Addr) : Option Bool := (lookup t root va).map fun e => e &&& PTE_U ≠ 0

/-- the 8-byte word at a user address, where bytes without a page count as 0 -/
def userWord (t : Phys) (root : Frame) (x : ℕ) : ℕ := getLE (fun i => (userByte t root (BitVec.ofNat 64 i)).getD 0) x 8

variable {kend : ℕ} {kpdpt root : Frame} {hand : Frame → Prop} {s t u : Sys} {p : Phys} {sz va : Addr} {img : Store} {ip : File}
  {namei : List Byte → Option File} {path : List Byte} {argv : List (List Byte)} {im : Image}

/-! ## The pages of an image -/

theorem Ready.lookup (h : Ready kend root hand sz p) (hlow : 4096 ≤ va.toNat) (hhigh : va.toNat < sz.toNat) :
    ∃ e, Vm.lookup p root va = some e ∧ p.pteAt root (dir (pgRoundDown va)) (ptx (pgRoundDown va)) = some e ∧
      (e &&& PTE_U = 0 ↔ va.toNat / 4096 * 4096 + 8192 = sz.toNat) := by
  have hmem := mem_image_roundDown hlow hhigh
  obtain ⟨e, he⟩ := Option.ne_none_iff_exists'.1 (h.space.page _ hmem)
  have hdown := pgRoundDown_toNat va
  refine ⟨e, ?_, he, ?_⟩
  · rw [← lookup_pgRoundDown, lookup_eq, he]
  · rw [h.user _ hmem e he, hdown]

theorem Ready.accessible (h : Ready kend root hand sz p) (hlow : 4096 ≤ va.toNat) (hhigh : va.toNat < sz.toNat) :
    Exec.accessible p root va = some (decide (va.toNat / 4096 * 4096 + 8192 ≠ sz.toNat)) := by
  obtain ⟨e, he, -, huser⟩ := h.lookup hlow hhigh
  rw [Exec.accessible, he, Option.map_some]
  simp only [ne_eq, huser]

/-- **The bytes of an image** are those the process finds. -/
theorem Shows.userByte (hs : Shows root sz img p) (h : Ready kend root hand sz p) (hlow : 4096 ≤ va.toNat)
    (hhigh : va.toNat < sz.toNat) : Exec.userByte p root va = some (img va.toNat) := by
  obtain ⟨e, he, hpte, -⟩ := h.lookup hlow hhigh
  have hdown := pgRoundDown_toNat va
  rw [Exec.userByte, he, Option.map_some, hs _ (mem_image_roundDown hlow hhigh) e hpte _ (Nat.mod_lt _ (by decide)), hdown]
  congr 2
  omega

/-- page 0 is never mapped -/
theorem Ready.lookup_zero (h : Ready kend root hand sz p) (hlow : va.toNat < 4096) : Vm.lookup p root va = none := by
  have hdown := pgRoundDown_toNat va
  rw [← lookup_pgRoundDown, lookup_eq]
  refine h.space.absent _ (by omega) (by omega) fun hc => ?_
  have := mem_image.1 hc
  omega

theorem Shows.userWord (hs : Shows root sz img p) (h : Ready kend root hand sz p) {x : ℕ} (hlow : 4096 ≤ x)
    (hhigh : x + 8 ≤ sz.toNat) : Exec.userWord p root x = getLE img x 8 := by
  refine getLE_congr _ _ _ _ fun i h1 h2 => ?_
  have hi : (BitVec.ofNat 64 i).toNat = i := Nat.mod_eq_of_lt (by have := sz.isLt; omega)
  rw [hs.userByte h (by omega) (by omega), hi]
  rfl

/-! ## A caller -/

/-- a process with an empty address space, seven pages free, and registers that are 0 -/
def caller : Sys :=
  ⟨bareSpace [0x202, 0x203, 0x204, 0x205, 0x206, 0x207, 0x208], ⟨0x200, 0x1000, [], fun _ => 0⟩, 0, 0, false⟩

/-- a file with one segment, at every path -/
def oneFile (_ : List Byte) : Option File := some (oneSegment 0x1000 1 0x1000)

theorem caller_table : PageTable 0x100000 caller.proc.pgdir (· = 0x201) caller.phys :=
  (@bareSpace_ok [0x202, 0x203, 0x204, 0x205, 0x206, 0x207, 0x208] (by decide) (by simp [Usable, Frame.addr, PHYSTOP])).1

theorem caller_ends {argv : List (List Byte)} (hfits : Fits 0x4000 argv 0 0x4000) :
    Ends 0x100000 0x201 oneFile [] argv caller := by
  refine ⟨rfl, fun ip hip => ?_⟩
  cases hip
  have hload := loadImage_verdict (by decide) (allocator_inUse caller_table) 0x201 (oneSegment 0x1000 1 0x1000)
  rw [show verdict (oneSegment 0x1000 1 0x1000) caller.phys.free.length = .image 0x2000 by decide +kernel] at hload
  refine ⟨((wp_returns (Clean caller.phys)).1 hload).1, fun sz hsz => ?_⟩
  have hsize : (oneSegment 0x1000 1 0x1000).imageSize 6 = some 0x4000 := by decide +kernel
  obtain rfl := Option.some.inj (hsize.symm.trans hsz)
  exact hfits

theorem caller_size : sizeAt oneFile [] caller = some 0x4000 := by decide +kernel

/-- its calls return, with -1 or with 0 -/
theorem caller_runs (argv : List (List Byte)) (hfits : Fits 0x4000 argv 0 0x4000) (hlen : ∀ str ∈ argv, str.length + 1 < 2 ^ 31) :
    ∃ r t, exec 0x100000 0x201 oneFile [] argv caller = .ok r t ∧
      (r = -1 ∧ ¬ (Stacks argv ∧ Closes argv) ∧ Refused (· = 0x201) oneFile [] argv caller t ∨
        r = 0 ∧ Stacks argv ∧ Closes argv) := by
  have hspec := exec_spec (by decide) caller_table 0x201 oneFile [] argv hlen
  obtain ⟨r, t, hrun, -, hcase⟩ := wp_exists.1 (wp_mono hspec (fun _ _ hq => hq) fun _ _ he => he (caller_ends hfits))
  refine ⟨r, t, hrun, ?_⟩
  rcases hcase with ⟨rfl, href⟩ | ⟨rfl, _, _, _, -, hacc⟩
  · exact .inl ⟨rfl, fun hc => href.misfit ⟨by rw [caller_size]; exact Option.some_ne_none _, hc⟩, href⟩
  · exact .inr ⟨rfl, hacc.entered.fits⟩

/-- **Every call is balanced.** `exec` returns 0 or -1, and does return where nothing faults; either way the transaction is
ended, and the reference to the file and its lock are given back. -/
theorem exec_balanced (hk : 0 < kend) (h : PageTable kend s.proc.pgdir hand s.phys) (kpdpt : Frame)
    (namei : List Byte → Option File) (path : List Byte) (argv : List (List Byte))
    (hlen : ∀ str ∈ argv, str.length + 1 < 2 ^ 31) :
    (Ends kend kpdpt namei path argv s → ∃ r t, exec kend kpdpt namei path argv s = .ok r t) ∧
    ∀ r t, exec kend kpdpt namei path argv s = .ok r t →
      (r = 0 ∨ r = -1) ∧ t.outstanding = s.outstanding ∧ t.ref = s.ref ∧ t.locked = s.locked := by
  have hspec := exec_spec hk h kpdpt namei path argv hlen
  refine ⟨fun hends => ?_, fun r t hrun => ?_⟩
  · obtain ⟨r, t, hrun, -⟩ := wp_exists.1 (wp_mono hspec (fun _ _ hq => hq) fun _ _ he => he hends)
    exact ⟨r, t, hrun⟩
  · obtain ⟨hsame, ⟨hr, -⟩ | ⟨hr, -⟩⟩ := wp_ok hspec hrun
    · exact ⟨.inr hr, hsame⟩
    · exact ⟨.inl hr, hsame⟩

theorem exec_balanced_caller : ∃ r t, exec 0x100000 0x201 oneFile [] [[97]] caller = .ok r t ∧ (r = 0 ∨ r = -1) ∧
    t.outstanding = caller.outstanding ∧ t.ref = caller.ref ∧ t.locked = caller.locked := by
  obtain ⟨hruns, hsame⟩ := exec_balanced (by decide) caller_table 0x201 oneFile [] [[97]] (by decide)
  obtain ⟨r, t, hrun⟩ := hruns (caller_ends (.inr ⟨by decide, .inr trivial⟩))
  exact ⟨r, t, hrun, hsame r t hrun⟩

/-! ## Calls that return 0 -/

theorem exec_accepted (hk : 0 < kend) (h : PageTable kend s.proc.pgdir hand s.phys)
    (hlen : ∀ str ∈ argv, str.length + 1 ≤ PHYSTOP) (hrun : exec kend kpdpt namei path argv s = .ok 0 t) :
    ∃ ip im u, namei path = some ip ∧ Accepted kend kpdpt hand ip argv im s u t := by
  have hlen' : ∀ str ∈ argv, str.length + 1 < 2 ^ 31 := fun str hstr => (hlen str hstr).trans_lt (by decide)
  rcases (wp_ok (exec_spec hk h kpdpt namei path argv hlen') hrun).2 with ⟨hc, -⟩ | ⟨-, hacc⟩
  · exact absurd hc (by decide)
  · exact hacc

/-- **The image of the file.** After a call that returns 0, below the two pages at the top memory holds the bytes of the
LOAD segments, a later segment over an earlier one, and zeros elsewhere; every segment fits, and the page below the stack
is present and closed to user code. -/
theorem exec_loads_file (hk : 0 < kend) (h : PageTable kend s.proc.pgdir hand s.phys)
    (hlen : ∀ str ∈ argv, str.length + 1 ≤ PHYSTOP) (hrun : exec kend kpdpt namei path argv s = .ok 0 t)
    (hip : namei path = some ip) (hphoff : ip.elf.phoff.toNat < 2 ^ 31)
    (hsmall : ∀ ph ∈ ip.loads, ph.off.toNat < 2 ^ 31 ∧ ph.filesz.toNat < 2 ^ 31) :
    (∀ va : Addr, PGSIZE.toNat ≤ va.toNat → va.toNat + 2 * PGSIZE.toNat < t.proc.sz.toNat →
        userByte t.phys t.proc.pgdir va = some (ip.imageByte va.toNat)) ∧
      (∀ ph ∈ ip.loads, ph.vaddr.toNat + ph.memsz.toNat + 2 * PGSIZE.toNat ≤ t.proc.sz.toNat) ∧
      ∃ e, lookup t.phys t.proc.pgdir (t.proc.sz - 2 * PGSIZE) = some e ∧ e &&& PTE_U = 0 := by
  obtain ⟨ip', im, u, hip', hacc⟩ := exec_accepted hk h hlen hrun
  obtain rfl := Option.some.inj (hip.symm.trans hip')
  have hent := hacc.entered
  have hready := hent.ready
  have hlow := hready.low
  have hfree := h.free_bound
  obtain ⟨hfits, himage⟩ := File.image_eq (by omega) hacc.size hphoff hsmall
  obtain ⟨strs, sp, img, -, -, hbelow, hshows⟩ := hent.stack
  have hrsp := hent.rsp
  have hused : Closes argv := hent.fits.2
  rw [Closes] at hused
  rw [hent.pgdir, hent.sz, toNat_PGSIZE]
  have hguard : (im.sz - 2 * PGSIZE).toNat + 8192 = im.sz.toNat := by
    rw [BitVec.toNat_sub_of_le (by rw [BitVec.le_def, show (2 * PGSIZE).toNat = 8192 from rfl]; omega),
      show (2 * PGSIZE).toNat = 8192 from rfl]
    omega
  refine ⟨fun va hva hhigh => ?_, hfits, ?_⟩
  · rw [hshows.userByte hready hva (by omega), blit_outside _ _ (.inl (by omega)), hbelow _ (by omega), himage]
  · have halign := hready.align
    have hpage : 4096 ≤ (im.sz - 2 * PGSIZE).toNat := by omega
    obtain ⟨e, he, -, huser⟩ := hready.lookup hpage (by omega)
    exact ⟨e, he, huser.2 (by omega)⟩

/-- One argument: the first byte of the file is at address 0x1000. -/
theorem exec_loads_file_one_byte : ∃ t, exec 0x100000 0x201 oneFile [] [[97]] caller = .ok 0 t ∧
    userByte t.phys t.proc.pgdir 0x1000 = some 0x7f := by
  obtain ⟨r, t, hrun, hcase⟩ := caller_runs [[97]] (.inr ⟨by decide, .inr trivial⟩) (by decide)
  obtain rfl : r = 0 := hcase.elim (fun hc => absurd (by decide) hc.2.1) fun hc => hc.1
  obtain ⟨hbytes, hfits, -⟩ := exec_loads_file (by decide) caller_table (by decide) hrun rfl
    (show (oneSegment 0x1000 1 0x1000).elf.phoff.toNat < 2 ^ 31 by decide +kernel)
    (show ∀ ph ∈ (oneSegment 0x1000 1 0x1000).loads, ph.off.toNat < 2 ^ 31 ∧ ph.filesz.toNat < 2 ^ 31 by decide +kernel)
  have hload : (oneSegment 0x1000 1 0x1000).progHdr 0 ∈ (oneSegment 0x1000 1 0x1000).loads := by
    rw [File.loads, show (oneSegment 0x1000 1 0x1000).elf.phnum.toNat = 0 + 1 by decide +kernel, File.loadsFrom_succ,
      if_pos (by decide +kernel)]
    exact List.mem_cons_self
  have hsz : 0x4000 ≤ t.proc.sz.toNat := hfits _ hload
  refine ⟨t, hrun, (hbytes 0x1000 le_rfl (by rw [toNat_PGSIZE]; exact Nat.lt_of_lt_of_le (by decide) hsz)).trans ?_⟩
  decide +kernel

/-- the parts of the stack page in use, as addresses and sizes: the fake return word, the array with its 0, the strings -/
def stackParts (argv : List (List Byte)) (ptrs : List Addr) (t : Sys) : List (ℕ × ℕ) :=
  ((t.proc.tf .rsp).toNat, 8) :: ((t.proc.tf .rsi).toNat, 8 * (argv.length + 1)) ::
    (ptrs.zip argv).map fun q => (q.1.toNat, q.2.length + 1)

/-- the array of addresses at rsi, and the strings it points to -/
structure ArgvAt (argv : List (List Byte)) (ptrs : List Addr) (t : Sys) : Prop where
  length : ptrs.length = argv.length
  words : ∀ i (hi : i < ptrs.length), userWord t.phys t.proc.pgdir ((t.proc.tf .rsi).toNat + 8 * i) = ptrs[i].toNat
  align : ∀ ptr ∈ ptrs, ptr.toNat % 8 = 0
  last : userWord t.phys t.proc.pgdir ((t.proc.tf .rsi).toNat + 8 * argv.length) = 0
  strings : ∀ q ∈ ptrs.zip argv, ∀ i ≤ q.2.length,
    userByte t.phys t.proc.pgdir (BitVec.ofNat 64 (q.1.toNat + i)) = some ((q.2 ++ [0]).getD i 0)
  apart : (stackParts argv ptrs t).Pairwise fun a b => a.1 + a.2 ≤ b.1 ∨ b.1 + b.2 ≤ a.1
  inside : ∀ a ∈ stackParts argv ptrs t, t.proc.sz.toNat ≤ a.1 + PGSIZE.toNat ∧ a.1 + a.2 ≤ t.proc.sz.toNat

/-- the arguments as `main` expects them: argc in rdi, argv in rsi, the fake return word at rsp, all in the top page -/
structure PassesArgv (argv : List (List Byte)) (t : Sys) : Prop where
  rdi : (t.proc.tf .rdi).toNat = argv.length
  rsp : t.proc.tf .rsp = t.proc.tf .rsi - 8
  stack : ∀ va : Addr, t.proc.sz.toNat ≤ va.toNat + PGSIZE.toNat → va.toNat < t.proc.sz.toNat →
    accessible t.phys t.proc.pgdir va = some true
  argv : ∃ ptrs, ArgvAt argv ptrs t

theorem zip_fst_snd {α β : Type} (l : List (α × β)) : (l.map Prod.fst).zip (l.map Prod.snd) = l := by
  rw [List.zip_map']
  exact List.map_id l

/-- the stack page after `exec` -/
theorem Entered.argvAt (h : Entered kend hand im img argv t) : ∃ ptrs, ArgvAt argv ptrs t := by
  obtain ⟨strs, sp, img', rfl, harea, -, hshows⟩ := h.stack
  have hready := h.ready
  have hlow := hready.low
  have hplace := harea.place
  have hrsi := h.rsi
  have hrsp := h.rsp
  have hcloses : Closes (strs.map Prod.snd) := h.fits.2
  rw [Closes] at hcloses
  rw [List.length_map] at hrsi hrsp hcloses
  have hwords : (ustackWords strs).length = strs.length + 2 := by
    rw [ustackWords, List.length_append, List.length_cons, List.length_map, List.length_singleton]
  have hlen := length_words strs
  have hszlt := im.sz.isLt
  -- the word after the fake return word is the first address
  have hword : ∀ i (hi : i + 1 < (ustackWords strs).length),
      userWord t.phys t.proc.pgdir ((t.proc.tf .rsi).toNat + 8 * i) = (ustackWords strs)[i + 1].toNat := fun i hi => by
    rw [h.pgdir, show (t.proc.tf .rsi).toNat + 8 * i = (t.proc.tf .rsp).toNat + 8 * (i + 1) by omega,
      hshows.userWord hready (by omega) (by omega), getLE_bytesOf _ _ _ hi]
  refine ⟨strs.map Prod.fst, by rw [List.length_map, List.length_map], fun i hi => ?_, ?_, ?_, ?_, ?_, ?_⟩
  · rw [List.length_map] at hi
    rw [hword i (by omega)]
    simp only [ustackWords, List.cons_append, List.getElem_cons_succ]
    rw [List.getElem_append_left (by rw [List.length_map]; exact hi)]
  · intro ptr hptr
    obtain ⟨q, hq, rfl⟩ := List.mem_map.1 hptr
    exact (harea.inside q hq).1
  · rw [List.length_map, hword strs.length (by omega)]
    simp only [ustackWords, List.cons_append, List.getElem_cons_succ]
    rw [List.getElem_append_right (by rw [List.length_map])]
    simp
  · intro q hq i hi
    rw [zip_fst_snd] at hq
    obtain ⟨-, hge, hle⟩ := harea.inside q hq
    have hnat : (BitVec.ofNat 64 (q.1.toNat + i)).toNat = q.1.toNat + i := Nat.mod_eq_of_lt (by omega)
    rw [h.pgdir, hshows.userByte hready (by omega) (by omega), hnat, blit_outside _ _ (.inr (by omega)), harea.bytes q hq i hi]
  · rw [stackParts, zip_fst_snd, List.length_map]
    refine List.pairwise_cons.2 ⟨fun b hb => .inl ?_, List.pairwise_cons.2 ⟨fun b hb => .inl ?_, ?_⟩⟩
    · rcases List.mem_cons.1 hb with rfl | hb
      · dsimp only
        omega
      · obtain ⟨q, hq, rfl⟩ := List.mem_map.1 hb
        obtain ⟨-, hge, -⟩ := harea.inside q hq
        dsimp only
        omega
    · obtain ⟨q, hq, rfl⟩ := List.mem_map.1 hb
      obtain ⟨-, hge, -⟩ := harea.inside q hq
      dsimp only
      omega
    · exact List.pairwise_map.2 (harea.apart.imp fun hab => .inr hab)
  · intro a ha
    rw [stackParts, zip_fst_snd, List.length_map] at ha
    rw [h.sz, toNat_PGSIZE]
    rcases List.mem_cons.1 ha with rfl | ha
    · dsimp only
      omega
    rcases List.mem_cons.1 ha with rfl | ha
    · dsimp only
      omega
    · obtain ⟨q, hq, rfl⟩ := List.mem_map.1 ha
      obtain ⟨-, hge, hle⟩ := harea.inside q hq
      dsimp only
      omega

/-- below the stack page memory is as loaded -/
theorem Accepted.below (h : Accepted kend kpdpt hand ip argv im s u t) (hva : va.toNat + 4096 < im.sz.toNat) :
    userByte t.phys im.pgdir va = userByte u.phys im.pgdir va ∧
      accessible t.phys im.pgdir va = accessible u.phys im.pgdir va := by
  have hready := h.entered.ready
  obtain ⟨strs, sp, img, -, -, hbelow, hshows⟩ := h.entered.stack
  have hrsp := h.entered.rsp
  have hcloses : Closes argv := h.entered.fits.2
  rw [Closes] at hcloses
  rcases lt_or_ge va.toNat 4096 with hlow | hlow
  · rw [userByte, userByte, accessible, accessible, hready.lookup_zero hlow, h.finished.ready.lookup_zero hlow]
    exact ⟨rfl, rfl⟩
  · rw [hshows.userByte hready hlow (by omega), h.finished.shows.userByte h.finished.ready hlow (by omega),
      blit_outside _ _ (.inl (by omega)), hbelow _ hva, hready.accessible hlow (by omega),
      h.finished.ready.accessible hlow (by omega)]
    exact ⟨rfl, rfl⟩

/-- **The arguments.** After a call that returns 0 the arguments are passed in the registers and in the stack page, and
all of memory below that page is as it was loaded. -/
theorem exec_passes_argv (hk : 0 < kend) (h : PageTable kend s.proc.pgdir hand s.phys)
    (hlen : ∀ str ∈ argv, str.length + 1 ≤ PHYSTOP) (hrun : exec kend kpdpt namei path argv s = .ok 0 t) :
    PassesArgv argv t ∧ ∃ ip im u, namei path = some ip ∧ load kend kpdpt ip s.opened = .ok (some im) u ∧
      t.proc.pgdir = im.pgdir ∧ t.proc.sz = im.sz ∧ ∀ va : Addr, va.toNat + PGSIZE.toNat < im.sz.toNat →
        userByte t.phys im.pgdir va = userByte u.phys im.pgdir va ∧
          accessible t.phys im.pgdir va = accessible u.phys im.pgdir va := by
  obtain ⟨ip, im, u, hip, hacc⟩ := exec_accepted hk h hlen hrun
  have hent := hacc.entered
  have hmax : argv.length ≤ MAXARG := hent.fits.1.1
  rw [MAXARG] at hmax
  refine ⟨⟨?_, ?_, fun va hva hhigh => ?_, hent.argvAt⟩, ip, im, u, hip, hacc.loaded, hent.pgdir, hent.sz,
    fun va hva => hacc.below hva⟩
  · rw [hent.rdi]
    exact Nat.mod_eq_of_lt (by omega)
  · have hrsi := hent.rsi
    have hrsp := hent.rsp
    refine BitVec.eq_of_toNat_eq ?_
    rw [BitVec.toNat_sub_of_le (by rw [BitVec.le_def, show (8 : Addr).toNat = 8 from rfl]; omega),
      show (8 : Addr).toNat = 8 from rfl]
    omega
  · rw [hent.sz, toNat_PGSIZE] at hva
    rw [hent.sz] at hhigh
    have halign := hent.ready.align
    have hlow := hent.ready.low
    rw [hent.pgdir, hent.ready.accessible (by omega) hhigh]
    exact congrArg some (decide_eq_true (by omega))

/-- Two arguments, of two bytes and of one. -/
theorem exec_passes_argv_two : ∃ t, exec 0x100000 0x201 oneFile [] [[108, 115], [97]] caller = .ok 0 t ∧
    PassesArgv [[108, 115], [97]] t := by
  obtain ⟨r, t, hrun, hcase⟩ := caller_runs [[108, 115], [97]] (.inr ⟨by decide, .inr (.inr ⟨by decide, .inr trivial⟩)⟩) (by decide)
  obtain rfl : r = 0 := hcase.elim (fun hc => absurd (by decide) hc.2.1) fun hc => hc.1
  exact ⟨t, hrun, (exec_passes_argv (by decide) caller_table (by decide) hrun).1⟩

/-! ## Calls that return -1 -/

/-- nothing the process can see has changed, nothing is left open, and no page is lost -/
structure Intact (s t : Sys) : Prop where
  proc : t.proc = s.proc
  memory : ∀ f, s.phys.Owns s.proc.pgdir f → t.phys.mem f = s.phys.mem f
  outstanding : t.outstanding = s.outstanding
  ref : t.ref = s.ref
  locked : t.locked = s.locked
  free : ∀ f, f ∈ t.phys.free ↔ f ∈ s.phys.free

/-- rdi and rsi hold already what `exec` stores in them -/
def SameRegs (s : Sys) (sz : Addr) (argv : List (List Byte)) : Prop :=
  s.proc.tf .rdi = BitVec.ofNat 64 argv.length ∧
    s.proc.tf .rsi = sz - BitVec.ofNat 64 (used argv) - (BitVec.ofNat 64 argv.length + 1) * 8

theorem Proc.withArgs_eq_iff {q : Proc} : q.withArgs sz argv = q ↔ q.tf .rdi = BitVec.ofNat 64 argv.length ∧
    q.tf .rsi = sz - BitVec.ofNat 64 (used argv) - (BitVec.ofNat 64 argv.length + 1) * 8 := by
  constructor
  · intro heq
    have htf := congrFun (congrArg Proc.tf heq)
    exact ⟨(htf .rdi).symm, (htf .rsi).symm⟩
  · intro ⟨hrdi, hrsi⟩
    rw [Proc.withArgs, Proc.put, Proc.put, ← hrsi, ← hrdi, Function.update_eq_self, Function.update_eq_self]

/-- **A call that fails.** Unless a header asks for memory between 2^47 and KERNBASE, a call that returns -1 leaves the
process as it was exactly if it does not get as far as an array of addresses that does not fit below the strings, or if
rdi and rsi hold already what it stores there. -/
theorem exec_failure_intact_iff (hk : 0 < kend) (h : PageTable kend s.proc.pgdir hand s.phys)
    (hlen : ∀ str ∈ argv, str.length + 1 ≤ PHYSTOP) (hrun : exec kend kpdpt namei path argv s = .ok (-1) t)
    (htame : Tame namei path s) :
    Intact s t ↔ ∀ sz, sizeAt namei path s = some sz → Stacks argv → ¬ Closes argv → SameRegs s sz argv := by
  have hlen' : ∀ str ∈ argv, str.length + 1 < 2 ^ 31 := fun str hstr => (hlen str hstr).trans_lt (by decide)
  obtain ⟨⟨hout, href, hlocked⟩, hcase⟩ := wp_ok (exec_spec hk h kpdpt namei path argv hlen') hrun
  rcases hcase with ⟨-, hrefused⟩ | ⟨hc, -⟩
  swap
  · exact absurd hc (by decide)
  have hrestored := hrefused.restored htame
  have hintact : Intact s t ↔ t.proc = s.proc := ⟨fun hi => hi.proc, fun hp =>
    ⟨hp, fun f hf => hrestored.held f (.inr hf), hout, href, hlocked, hrestored.free⟩⟩
  have hproc := hrefused.proc
  have hmisfit := hrefused.misfit
  rw [hintact, hproc]
  cases hsize : sizeAt namei path s with
  | none => exact ⟨fun _ sz hsz => (by cases hsz), fun _ => rfl⟩
  | some sz =>
    dsimp only
    by_cases hstacks : Stacks argv
    · have hcloses : ¬ Closes argv := fun hc => hmisfit ⟨by rw [hsize]; exact Option.some_ne_none sz, hstacks, hc⟩
      rw [if_pos hstacks, Proc.withArgs_eq_iff]
      exact ⟨fun hregs sz' hsz _ _ => Option.some.inj hsz ▸ hregs, fun hall => hall sz rfl hstacks hcloses⟩
    · rw [if_neg hstacks]
      exact ⟨fun _ sz' _ hc => absurd hc hstacks, fun _ => rfl⟩

/-- the call with one string of n bytes -/
theorem caller_string {n : ℕ} (hn : n + 1 ≤ 0x4000) : ∃ r t,
    exec 0x100000 0x201 oneFile [] [List.replicate n 97] caller = .ok r t ∧
      (r = -1 ∧ ¬ (Stacks [List.replicate n 97] ∧ Closes [List.replicate n 97]) ∧
          Refused (· = 0x201) oneFile [] [List.replicate n 97] caller t ∨
        r = 0 ∧ Stacks [List.replicate n 97] ∧ Closes [List.replicate n 97]) := by
  have hlen : (List.replicate n (97 : Byte)).length = n := List.length_replicate
  refine caller_runs _ (.inr ⟨by rw [hlen]; exact hn, .inr trivial⟩) fun str hstr => ?_
  rw [List.mem_singleton.1 hstr, hlen]
  omega

theorem used_string (n : ℕ) : used [List.replicate n 97] = (n + 8) / 8 * 8 := by
  rw [used, List.map_singleton, List.sum_singleton, List.length_replicate]

/-- A string that does not fit in the stack page: nothing is left of the call. -/
theorem exec_failure_intact_iff_long : ∃ t, exec 0x100000 0x201 oneFile [] [List.replicate 5000 97] caller = .ok (-1) t ∧
    Intact caller t := by
  obtain ⟨r, t, hrun, hcase⟩ := caller_string (n := 5000) (by decide)
  have hstacks : ¬ Stacks [List.replicate 5000 97] := fun hc => absurd hc.2 (by rw [used_string]; decide)
  obtain rfl : r = -1 := hcase.elim (fun hc => hc.1) fun hc => absurd hc.2.1 hstacks
  refine ⟨t, hrun, (exec_failure_intact_iff (by decide) caller_table ?_ hrun ?_).2 fun sz _ hc => absurd hc hstacks⟩
  · intro str hstr
    rw [List.mem_singleton.1 hstr, List.length_replicate]
    decide
  · intro ip hip
    cases hip
    decide +kernel

/-- A string that leaves 8 bytes of the stack page: the array of addresses does not fit, and rdi has changed. -/
theorem exec_failure_changes_rdi : ∃ t, exec 0x100000 0x201 oneFile [] [List.replicate 4080 97] caller = .ok (-1) t ∧
    t.proc.tf .rdi ≠ caller.proc.tf .rdi ∧ ¬ Intact caller t := by
  obtain ⟨r, t, hrun, hcase⟩ := caller_string (n := 4080) (by decide)
  have hstacks : Stacks [List.replicate 4080 97] := ⟨by decide, by rw [used_string]; decide⟩
  have hcloses : ¬ Closes [List.replicate 4080 97] := fun hc => by
    rw [Closes, used_string, List.length_singleton] at hc
    exact absurd hc (by decide)
  obtain ⟨rfl, -, href⟩ := hcase.resolve_right fun hc => hcloses hc.2.2
  have hproc := href.proc
  rw [caller_size] at hproc
  dsimp only at hproc
  rw [if_pos hstacks] at hproc
  have hrdi : t.proc.tf .rdi = 1 := by
    rw [hproc]
    rfl
  have hne : t.proc.tf .rdi ≠ caller.proc.tf .rdi := by
    rw [hrdi]
    decide
  exact ⟨t, hrun, hne, fun hc => hne (by rw [hc.proc])⟩

end Xv6.Exec
