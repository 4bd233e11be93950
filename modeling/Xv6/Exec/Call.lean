/-
`exec` of `exec.c` as a system call.

`Model.lean` has the parts of `exec` that work on memory. Here they are put together with what else the call changes: the
open transaction, the lock and the reference of the inode, and the caller's page table, size, name and trap frame.
`namei` is a parameter: the file a path leads to, if there is one.

`exec` stores the registers of the new image before it copies the array of addresses to the new stack, so that a copy
that fails leaves them changed: see `exec_failure_intact_iff` in `Outcome.lean`.
-/
import Xv6.Exec.Stack
import Xv6.Vm.Lifetime

namespace Xv6.Exec

open Xv6.Bytes Xv6.Vm Xv6.Wp Xv6.Radix

/-! ## The state -/

/-- the registers of a trap frame -/
inductive Reg where
  | rax | rbx | rcx | rdx | rbp | rsi | rdi | r8 | r9 | r10 | r11 | r12 | r13 | r14 | r15
  | trapno | err
  | rip | cs | rflags | rsp | ss
deriving DecidableEq

/-- the calling process -/
structure Proc where
  pgdir : Frame
  sz : Addr
  name : List Byte
  tf : Reg → Addr

/-- physical memory, the caller, the transactions that are open, and the references and the lock of the file's inode -/
structure Sys where
  phys : Phys
  proc : Proc
  outstanding : ℕ
  ref : ℕ
  locked : Bool

/-- a kernel path over the whole state -/
abbrev X (α : Type) := EStateM Fault Sys α

/-- a kernel path over physical memory -/
def onPhys {α : Type} (x : K α) : X α := fun s =>
  match x s.phys with
  | .ok a p => .ok a { s with phys := p }
  | .error e p => .error e { s with phys := p }

instance : MonadLift K X := ⟨onPhys⟩

def Proc.put (p : Proc) (r : Reg) (v : Addr) : Proc := { p with tf := Function.update p.tf r v }

def beginOp : X PUnit := modify fun s => { s with outstanding := s.outstanding + 1 }

def endOp : X PUnit := modify fun s => { s with outstanding := s.outstanding - 1 }

/-- the reference `namei` takes -/
def iget : X PUnit := modify fun s => { s with ref := s.ref + 1 }

/-- a process that has locked the inode waits for itself -/
def ilock : X PUnit := do
  if (← get).locked then throw .endless
  else modify fun s => { s with locked := true }

def iunlockput : X PUnit := modify fun s => { s with ref := s.ref - 1, locked := false }

/-! ## The call -/

/-- the new image; on every way the inode and the transaction are closed once the program is in memory -/
def load (kend : ℕ) (kpdpt : Frame) (ip : File) : X (Option Image) := do
  let r ← onPhys (loadProgram kend kpdpt ip)
  iunlockput
  endOp
  match r with
  | none => return none
  | some im => onPhys (loadStack kend im)

/-- the part of a path after its last slash; `last` is the best so far -/
def lastElem (last : List Byte) : List Byte → List Byte
  | [] => last
  | c :: s => if c = 0x2f then lastElem s s else lastElem last s

/-- the arguments, and the switch to the new image -/
def enter (kend : ℕ) (im : Image) (path : List Byte) (argv : List (List Byte)) : X ℤ := do
  let oldpgdir := (← get).proc.pgdir
  match ← pushArgs (fun rdi rsi => modify fun s => { s with proc := (s.proc.put .rdi rdi).put .rsi rsi }) kend im argv with
  | none => return -1
  | some (sp, _, _) =>
    modify fun s => { s with
      proc := ({ s.proc with pgdir := im.pgdir, sz := im.sz, name := (lastElem path path).take 15 }.put .rip im.entry
        |>.put .rcx im.entry |>.put .rsp sp) }
    onPhys (freevm kend oldpgdir)
    return 0

def exec (kend : ℕ) (kpdpt : Frame) (namei : List Byte → Option File) (path : List Byte) (argv : List (List Byte)) : X ℤ := do
  beginOp
  match namei path with
  | none => endOp; return -1
  | some ip =>
    iget
    ilock
    match ← load kend kpdpt ip with
    | none => return -1
    | some im => enter kend im path argv

variable {kend : ℕ} {kpdpt root old : Frame} {hand : Frame → Prop} {s0 p q : Phys} {s t : Sys} {sz : Addr} {img : Store}

theorem wp_onPhys {α : Type} {x : K α} {Q : α → Sys → Prop} {E : Fault → Sys → Prop} :
    wp (onPhys x) Q E s ↔ wp x (fun a p => Q a { s with phys := p }) (fun e p => E e { s with phys := p }) s.phys := by
  unfold wp onPhys
  cases x s.phys <;> rfl

/-! ## Two address spaces -/

/-- the pages the caller holds: those of its address space, and others -/
def inUse (old : Frame) (hand : Frame → Prop) (s : Phys) (f : Frame) : Prop := hand f ∨ s.Owns old f

theorem allocator_inUse (h : PageTable kend old hand p) : Allocator kend (inUse old hand p) p := by
  refine ⟨h.nodup, ?_, ?_⟩
  · rintro f (hf | hf) hfree
    · exact (h.hand_apart f hf).2 hfree
    · exact h.free_apart f hfree hf
  · rintro f (hf | hf | hf)
    · exact h.usable f (.inl hf)
    · exact h.usable f (.inr (.inl hf))
    · exact h.usable f (.inr (.inr hf))

/-- the old address space beside the new one -/
theorem Given.beside (h : PageTable kend old hand p) (hg : Given kend root (inUse old hand p) p q) :
    PageTable kend old (fun f => hand f ∨ q.Owns root f) q := by
  have htab : ∀ f, p.Table old f → q.mem f = p.mem f := fun f hf => hg.held f (.inr hf.owns)
  have hat : ∀ r, Starts UserSlot r → r.length ≤ 4 → q.at old r = p.at old r := fun r hr hl => Phys.at_congr htab hr hl
  have howns : ∀ f, q.Owns old f ↔ p.Owns old f := fun f => Phys.owns_congr hat
  refine ⟨?_, hg.inv.nodup, ?_, ?_, ?_⟩
  · intro r r' f hr hr' hl hl' hf hf'
    exact h.tree r r' f hr hr' hl hl' ((hat r hr hl).symm.trans hf) ((hat r' hr' hl').symm.trans hf')
  · exact fun f hfree hf => (hg.inv.hand_apart f (.inr ((howns f).1 hf))).2 hfree
  · rintro f (hf | hf)
    · exact ⟨fun hc => (h.hand_apart f hf).1 ((howns f).1 hc), (hg.inv.hand_apart f (.inl hf)).2⟩
    · exact ⟨fun hc => (hg.inv.hand_apart f (.inr ((howns f).1 hc))).1 hf, fun hc => hg.inv.free_apart f hc hf⟩
  · rintro f (hf | (hf | hf) | hf)
    · exact hg.inv.usable f (.inl hf)
    · exact hg.inv.usable f (.inr (.inl (.inl hf)))
    · exact hg.inv.usable f (.inr (.inr hf))
    · exact hg.inv.usable f (.inr (.inl (.inr ((howns f).1 hf))))

/-- **`freevm`** of the old page table leaves the new image alone. -/
theorem Finished.freevm_old (h : PageTable kend old hand p) (hf : Finished kend root (inUse old hand p) p sz img q) :
    wp (freevm kend old) (fun _ r => Ready kend root hand sz r ∧ Shows root sz img r) (fun _ _ => False) q := by
  have hold := hf.given.beside h
  have hinv := hf.given.inv
  refine wp_imp (freevm_spec hold) ?_
  rintro _ r ⟨⟨hmem, -⟩, hfreed⟩
  have hown : ∀ f, q.Owns root f → r.mem f = q.mem f := fun f hf => hmem f (hold.hand_apart f (.inr hf)).1
  have htab : ∀ f, q.Table root f → r.mem f = q.mem f := fun f hf => hown f hf.owns
  have hat : ∀ x, Starts UserSlot x → x.length ≤ 4 → r.at root x = q.at root x := fun x hx hl => Phys.at_congr htab hx hl
  have howns : ∀ f, r.Owns root f ↔ q.Owns root f := fun f => Phys.owns_congr hat
  have htable : PageTable kend root hand r := by
    refine ⟨?_, hfreed.nodup, fun f hfree hc => ?_, fun f hh => ?_, fun f hu => ?_⟩
    · intro x y f hx hy hl hl' hfx hfy
      exact hinv.tree x y f hx hy hl hl' ((hat x hx hl).symm.trans hfx) ((hat y hy hl').symm.trans hfy)
    · rw [howns] at hc
      exact ((hfreed.mem f).1 hfree).elim (hold.hand_apart f (.inr hc)).1 (hold.hand_apart f (.inr hc)).2
    · rw [howns, hfreed.mem]
      have hapart := hold.hand_apart f (.inl hh)
      exact ⟨(hinv.hand_apart f (.inl hh)).1, fun hc => hc.elim hapart.1 hapart.2⟩
    · rw [howns, hfreed.mem] at hu
      rcases hu with (hu | hu) | hu | hu
      · exact hold.usable f (.inr (.inr hu))
      · exact hold.usable f (.inl hu)
      · exact hold.usable f (.inr (.inl (.inl hu)))
      · exact hold.usable f (.inr (.inl (.inr hu)))
  have hpte : ∀ a ∈ pageAddrs PGSIZE sz, r.pteAt root (dir a) (ptx a) = q.pteAt root (dir a) (ptx a) := fun a ha =>
    Phys.pteAt_congr htab _ (starts_dir (image_userSlot hf.ready.space.high ha)) rfl
  refine ⟨⟨hf.ready.space.of_tables htab htable, hf.ready.align, hf.ready.low, fun a ha e he => ?_⟩, ?_⟩
  · exact hf.ready.user a ha e ((hpte a ha).symm.trans he)
  · exact hf.shows.of_pages (fun a ha => by rw [hpte a ha]) fun a ha e he =>
      hown _ ⟨_, starts_path (image_userSlot hf.ready.space.high ha), by simp [dir], pteAt_frame he⟩

/-! ## Loading -/

/-- the state after `iunlockput` and `end_op`, with memory p -/
def Sys.closed (s : Sys) (p : Phys) : Sys := { s with phys := p, outstanding := s.outstanding - 1, ref := s.ref - 1, locked := false }

theorem wp_close {α : Type} {x : X α} {Q : α → Sys → Prop} {E : Fault → Sys → Prop} :
    wp (do iunlockput; endOp; x) Q E s ↔ wp x Q E (s.closed s.phys) := by
  rw [wp_bind, iunlockput, wp_modify, wp_bind, endOp, wp_modify]
  rfl

/-- on memory `load` is `loadImage` -/
theorem wp_load {ip : File} {Q : Option Image → Sys → Prop} {E : Prop}
    (h : wp (loadImage kend kpdpt ip) (fun r q => Q r (s.closed q)) (fun _ _ => E) s.phys) :
    wp (load kend kpdpt ip) Q (fun _ _ => E) s := by
  rw [loadImage, wp_bind] at h
  rw [load, wp_bind, wp_onPhys]
  refine wp_imp h fun r q hq => ?_
  rw [wp_close]
  cases r with
  | none =>
    dsimp only at hq ⊢
    rw [wp_pure] at hq ⊢
    exact hq
  | some im => exact wp_onPhys.2 hq

/-! ## The switch to the new image -/

/-- the registers that `exec` stores before it knows that the array of addresses fits -/
def Proc.withArgs (p : Proc) (sz : Addr) (argv : List (List Byte)) : Proc :=
  (p.put .rdi (BitVec.ofNat 64 argv.length)).put .rsi
    (sz - BitVec.ofNat 64 (used argv) - (BitVec.ofNat 64 argv.length + 1) * 8)

/-- the process runs the new image, and its stack page holds the strings and, below them, the array of their addresses -/
structure Entered (kend : ℕ) (hand : Frame → Prop) (im : Image) (img : Store) (argv : List (List Byte)) (t : Sys) : Prop where
  pgdir : t.proc.pgdir = im.pgdir
  sz : t.proc.sz = im.sz
  rdi : t.proc.tf .rdi = BitVec.ofNat 64 argv.length
  rsi : (t.proc.tf .rsi).toNat + 8 * (argv.length + 1) + used argv = im.sz.toNat
  rsp : (t.proc.tf .rsp).toNat + 8 * (argv.length + 2) + used argv = im.sz.toNat
  fits : Stacks argv ∧ Closes argv
  ready : Ready kend im.pgdir hand im.sz t.phys
  stack : ∃ strs sp img', strs.map Prod.snd = argv ∧ Area im.sz img' strs sp ∧ Below im.sz img img' ∧
    Shows im.pgdir im.sz (blit img' (t.proc.tf .rsp).toNat (bytesOf (ustackWords strs))) t.phys

/-- **The second half of `exec`.** -/
theorem enter_spec (h : PageTable kend s.proc.pgdir hand p) {im : Image} (path : List Byte) (argv : List (List Byte))
    (hlen : ∀ str ∈ argv, str.length + 1 < 2 ^ 31)
    (hfin : Finished kend im.pgdir (inUse s.proc.pgdir hand p) p im.sz img s.phys) :
    wp (enter kend im path argv)
      (fun r t => t = { s with phys := t.phys, proc := t.proc } ∧
        ((r = -1 ∧ Restored (inUse s.proc.pgdir hand p) p t.phys ∧ ¬ (Stacks argv ∧ Closes argv) ∧
            t.proc = if Stacks argv then s.proc.withArgs im.sz argv else s.proc) ∨
          (r = 0 ∧ Entered kend hand im img argv t))) (fun _ _ => ¬ Fits im.sz argv 0 im.sz) s := by
  have halloc := allocator_inUse h
  have harea : Area im.sz img [] im.sz := Area.nil hfin.ready.align
  rw [enter, wp_bind, wp_get, wp_bind, pushArgs, wp_bind]
  refine wp_onPhys.2 ?_
  refine wp_imp (pushStrings_image argv hfin harea (Nat.zero_le _) hlen) ?_
  rintro r q ⟨img', hq, hnone, hsome⟩
  rw [List.map_nil, List.nil_append] at hnone
  cases r with
  | none =>
    have hstacks := hnone rfl
    dsimp only
    rw [wp_bind]
    refine wp_onPhys.2 (wp_safe (hq.given.freevm halloc) ?_)
    rintro _ x ⟨hx, -⟩
    exact wp_return (wp_return ⟨rfl, .inl ⟨rfl, hx, fun hc => hstacks hc.1, (if_neg hstacks).symm⟩⟩)
  | some r =>
    obtain ⟨sp, us⟩ := r
    obtain ⟨strs, rfl, hargv, hmax, harea, hbelow⟩ := hsome sp us rfl
    rw [List.map_nil, List.nil_append] at hargv
    subst hargv
    have hplace := harea.place
    have hlow := harea.low
    have hsz := hq.ready.low
    have hcount : (strs.map Prod.snd).length = strs.length := List.length_map _
    have hstacks : Stacks (strs.map Prod.snd) := ⟨by omega, by omega⟩
    have hsp : sp = im.sz - BitVec.ofNat 64 (used (strs.map Prod.snd)) := BitVec.eq_of_toNat_eq (by
      have hused : (BitVec.ofNat 64 (used (strs.map Prod.snd))).toNat = used (strs.map Prod.snd) :=
        Nat.mod_eq_of_lt (by omega)
      rw [BitVec.toNat_sub_of_le (by rw [BitVec.le_def, hused]; omega), hused]
      omega)
    have hargs : (s.proc.put .rdi (BitVec.ofNat 64 strs.length)).put .rsi (sp - (BitVec.ofNat 64 strs.length + 1) * 8) =
        s.proc.withArgs im.sz (strs.map Prod.snd) := by
      rw [Proc.withArgs, ← hsp, hcount]
    dsimp only
    rw [List.length_map, wp_bind, wp_modify, wp_bind]
    refine wp_onPhys.2 (wp_safe (copyout_words hq harea hmax) ?_)
    rintro r u ⟨img'', hu, rfl, himg⟩
    by_cases hcloses : Closes (strs.map Prod.snd)
    · rw [if_pos hcloses] at himg ⊢
      obtain rfl := himg rfl
      rw [if_neg (by decide), wp_pure, wp_bind, wp_modify, wp_bind, wp_onPhys]
      refine wp_safe (hu.freevm_old h) ?_
      rintro _ x ⟨hready, hshows⟩
      have hfits : used (strs.map Prod.snd) + 8 * (strs.length + 2) ≤ 4096 := by rw [← hcount]; exact hcloses
      have hrsi := toNat_below sp (toNat_argc hmax).1 (by omega) (by omega)
      have hrsp := toNat_below sp (toNat_argc hmax).2 (by omega) (by omega)
      refine wp_return ⟨rfl, .inr ⟨rfl, rfl, rfl, ?_, ?_, ?_, ⟨hstacks, hcloses⟩, hready, strs, sp, img', rfl, harea, hbelow, ?_⟩⟩
      · rw [hcount]
        rfl
      · change (sp - (BitVec.ofNat 64 strs.length + 1) * 8).toNat + _ + _ = _
        omega
      · change (sp - (1 + BitVec.ofNat 64 strs.length + 1) * 8).toNat + _ + _ = _
        omega
      · change Shows _ _ (blit img' (sp - (1 + BitVec.ofNat 64 strs.length + 1) * 8).toNat _) _
        rw [hrsp]
        exact hshows
    · rw [if_neg hcloses, if_pos (by decide), wp_bind]
      refine wp_onPhys.2 (wp_safe (hu.given.freevm halloc) ?_)
      rintro _ x ⟨hx, -⟩
      exact wp_return (wp_return ⟨rfl, .inl ⟨rfl, hx, fun hc => hcloses hc.2, by rw [if_pos hstacks]; exact hargs⟩⟩)

/-! ## The call -/

/-- the size of the image at a path, if there is a file, it is accepted, and memory is enough -/
def sizeAt (namei : List Byte → Option File) (path : List Byte) (s : Sys) : Option Addr :=
  (namei path).bind fun ip => ip.imageSize (s.phys.free.length - 1)

/-- no header that `exec` gets to asks for memory between 2^47 and KERNBASE -/
def Tame (namei : List Byte → Option File) (path : List Byte) (s : Sys) : Prop :=
  ∀ ip, namei path = some ip → ip.wild (s.phys.free.length - 1) = false

/-- the state after `begin_op`, `namei` and `ilock` -/
def Sys.opened (s : Sys) : Sys := { s with outstanding := s.outstanding + 1, ref := s.ref + 1, locked := true }

/-- a call that returns -1 -/
structure Refused (hand : Frame → Prop) (namei : List Byte → Option File) (path : List Byte) (argv : List (List Byte))
    (s t : Sys) : Prop where
  misfit : ¬ (sizeAt namei path s ≠ none ∧ Stacks argv ∧ Closes argv)
  restored : Tame namei path s → Restored (inUse s.proc.pgdir hand s.phys) s.phys t.phys
  proc : t.proc = match sizeAt namei path s with
    | none => s.proc
    | some sz => if Stacks argv then s.proc.withArgs sz argv else s.proc

/-- a call that returns 0 -/
structure Accepted (kend : ℕ) (kpdpt : Frame) (hand : Frame → Prop) (ip : File) (argv : List (List Byte)) (im : Image)
    (s u t : Sys) : Prop where
  size : ip.imageSize (s.phys.free.length - 1) = some im.sz
  loaded : load kend kpdpt ip s.opened = .ok (some im) u
  finished : Finished kend im.pgdir (inUse s.proc.pgdir hand s.phys) s.phys im.sz ip.image u.phys
  entered : Entered kend hand im ip.image argv t

/-- the call gets to its end -/
def Ends (kend : ℕ) (kpdpt : Frame) (namei : List Byte → Option File) (path : List Byte) (argv : List (List Byte)) (s : Sys) :
    Prop :=
  s.locked = false ∧ ∀ ip, namei path = some ip → Returns (loadImage kend kpdpt ip s.phys) ∧
    ∀ sz, ip.imageSize (s.phys.free.length - 1) = some sz → Fits sz argv 0 sz

/-- **`exec`** returns -1 or 0; the transaction and the inode are as before the call. -/
theorem exec_spec (hk : 0 < kend) (h : PageTable kend s.proc.pgdir hand s.phys) (kpdpt : Frame)
    (namei : List Byte → Option File) (path : List Byte) (argv : List (List Byte))
    (hlen : ∀ str ∈ argv, str.length + 1 < 2 ^ 31) :
    wp (exec kend kpdpt namei path argv)
      (fun r t => (t.outstanding = s.outstanding ∧ t.ref = s.ref ∧ t.locked = s.locked) ∧
        ((r = -1 ∧ Refused hand namei path argv s t) ∨
          (r = 0 ∧ ∃ ip im u, namei path = some ip ∧ Accepted kend kpdpt hand ip argv im s u t)))
      (fun _ _ => ¬ Ends kend kpdpt namei path argv s) s := by
  have halloc := allocator_inUse h
  rw [exec, wp_bind, beginOp, wp_modify]
  cases hip : namei path with
  | none =>
    dsimp only
    rw [wp_bind, endOp, wp_modify]
    have hsize : sizeAt namei path s = none := by rw [sizeAt, hip, Option.bind_none]
    refine wp_return ⟨⟨rfl, rfl, rfl⟩, .inl ⟨rfl, fun hc => hc.1 hsize, fun _ => Restored.refl _ _, ?_⟩⟩
    rw [hsize]
  | some ip =>
    have hsize : sizeAt namei path s = ip.imageSize (s.phys.free.length - 1) := by rw [sizeAt, hip, Option.bind_some]
    dsimp only
    rw [wp_bind, iget, wp_modify, wp_bind, ilock, wp_bind, wp_get]
    by_cases hlock : s.locked = true
    · rw [if_pos hlock, wp_throw]
      exact fun hc => absurd (hc.1.symm.trans hlock) (by decide)
    have hlocked : s.locked = false := Bool.not_eq_true _ ▸ hlock
    rw [if_neg hlock, wp_modify, wp_bind]
    change wp _ _ _ s.opened
    have hload : wp (load kend kpdpt ip) (fun r u => u = s.opened.closed u.phys ∧
        r.map Image.sz = ip.imageSize (s.phys.free.length - 1) ∧
        (r = none → ip.wild (s.phys.free.length - 1) = false →
          Restored (inUse s.proc.pgdir hand s.phys) s.phys u.phys) ∧
        ∀ im, r = some im → Finished kend im.pgdir (inUse s.proc.pgdir hand s.phys) s.phys im.sz ip.image u.phys)
        (fun _ _ => ¬ Returns (loadImage kend kpdpt ip s.phys)) s.opened := by
      refine wp_load (wp_imp (wp_raised (wp_mono (loadImage_spec hk halloc kpdpt ip) (fun _ _ hq => hq) fun _ _ _ => trivial)) ?_)
      exact fun r q hq => ⟨rfl, hq.1⟩
    refine wp_mono (wp_run hload) ?_ (fun _ _ he hc => he (hc.2 ip hip).1)
    rintro (_ | im) u ⟨hrun, hu, hsz, hrest, hfin⟩
    · refine wp_return ⟨?_, .inl ⟨rfl, ?_, fun htame => hrest rfl (htame ip hip), ?_⟩⟩
      · rw [hu]
        exact ⟨rfl, rfl, hlocked.symm⟩
      · rw [hsize, ← hsz]
        exact fun hc => hc.1 rfl
      · rw [hsize, ← hsz, hu]
        rfl
    · have hproc : u.proc = s.proc := by rw [hu]; rfl
      have henter := enter_spec (s := u) (p := s.phys) (by rw [hproc]; exact h) path argv hlen
        (by rw [hproc]; exact hfin im rfl)
      refine wp_mono henter ?_ (fun _ _ he hc => he ((hc.2 ip hip).2 im.sz hsz.symm))
      rintro r t ⟨ht, hcase⟩
      refine ⟨?_, ?_⟩
      · rw [ht, hu]
        exact ⟨rfl, rfl, hlocked.symm⟩
      · rw [hproc] at hcase
        rcases hcase with ⟨rfl, hrestored, hmisfit, hp⟩ | ⟨rfl, hentered⟩
        · refine .inl ⟨rfl, fun hc => hmisfit hc.2, fun _ => hrestored, ?_⟩
          rw [hsize, ← hsz]
          exact hp
        · exact .inr ⟨rfl, ip, im, u, rfl, hsz.symm, hrun, hfin im rfl, hentered⟩

end Xv6.Exec
