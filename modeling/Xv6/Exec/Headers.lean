/-
The image a file describes.

`loadHeaders` goes through the program headers with a 32-bit offset, and every LOAD header writes its bytes over what is
there. Here the image is read off the file in one go: `File.loads` is the list of its LOAD headers, in table order, and
`File.imageByte` takes a byte from the last of them that covers the address.

- `headersSize_loads`: a file that is accepted has all its headers inside the file, and every segment below the size;
- `File.image_eq`: the image that `exec` builds from such a file is the one it describes.
-/
import Xv6.Exec.Call

namespace Xv6.Exec

open Xv6.Bytes Xv6.Vm

/-! ## The headers of a file -/

/-- the bytes of the file from offset x on; 0 past its end -/
def File.store (ip : File) (x : ℕ) : Store := fun i => ip.data.getD (x + i) 0

/-- the first 64 bytes as a file header -/
def File.elf (ip : File) : ElfHdr := ElfHdr.decode (ip.store 0)

/-- program header i -/
def File.progHdr (ip : File) (i : ℕ) : ProgHdr := ProgHdr.decode (ip.store (ip.elf.phoff.toNat + 56 * i))

/-- the LOAD headers among the n from header i on -/
def File.loadsFrom (ip : File) (i n : ℕ) : List ProgHdr :=
  ((List.range' i n).map ip.progHdr).filter fun ph => ph.type = ELF_PROG_LOAD

/-- the LOAD headers, in table order -/
def File.loads (ip : File) : List ProgHdr := ip.loadsFrom 0 ip.elf.phnum.toNat

/-- file bytes of the segment go to address x -/
def ProgHdr.Covers (ph : ProgHdr) (x : ℕ) : Prop := ph.vaddr.toNat ≤ x ∧ x < ph.vaddr.toNat + ph.filesz.toNat

instance (ph : ProgHdr) (x : ℕ) : Decidable (ph.Covers x) := inferInstanceAs (Decidable (_ ∧ _))

/-- the byte at address x: from the last segment that covers it, or 0 -/
def File.byteOf (ip : File) (loads : List ProgHdr) (x : ℕ) : Byte :=
  match (loads.filter fun ph => ph.Covers x).getLast? with
  | none => 0
  | some ph => ip.data.getD (ph.off.toNat + (x - ph.vaddr.toNat)) 0

def File.imageByte (ip : File) (x : ℕ) : Byte := ip.byteOf ip.loads x

variable {ip : File} {pages : ℕ} {sz sz' : Addr}

/-- a structure that is read in full lies inside the file -/
theorem File.readAll_some {off : UInt} {n : ℕ} {b : Store} (hpos : 0 < n) (hn : n ≤ 4096) (h : ip.readAll off n = some b) :
    off.toNat + n ≤ ip.size ∧ ∀ i < n, b i = ip.store off.toNat i := by
  have hword : (BitVec.ofNat 32 n).toNat = n := Nat.mod_eq_of_lt (by omega)
  rcases ip.readi_page off (n := BitVec.ofNat 32 n) (by omega) with ⟨-, hr⟩ | ⟨hge, bytes, hr, hdata, hlen⟩
  · rw [File.readAll, hr] at h
    cases h
  · rw [hword] at hdata hlen
    rw [File.readAll, hr] at h
    dsimp only at h
    split_ifs at h with hfull
    cases h
    refine ⟨by omega, fun i hi => ?_⟩
    dsimp only
    rw [File.store, List.getD_eq_getElem?_getD, List.getD_eq_getElem?_getD, hdata, List.getElem?_take, if_pos hi, List.getElem?_drop]

theorem ElfHdr.decode_congr {b c : Store} (h : ∀ i < sizeofElfHdr, b i = c i) : ElfHdr.decode b = ElfHdr.decode c := by
  have hget : ∀ off w, off + w ≤ 64 → getLE b off w = getLE c off w := fun off w hle =>
    getLE_congr _ _ _ _ fun i _ hi => h i (by rw [sizeofElfHdr]; omega)
  rw [ElfHdr.decode, ElfHdr.decode, hget 0 4 (by decide), hget 24 8 (by decide), hget 32 8 (by decide), hget 56 2 (by decide)]

theorem ProgHdr.decode_congr {b c : Store} (h : ∀ i < sizeofProgHdr, b i = c i) : ProgHdr.decode b = ProgHdr.decode c := by
  have hget : ∀ off w, off + w ≤ 56 → getLE b off w = getLE c off w := fun off w hle =>
    getLE_congr _ _ _ _ fun i _ hi => h i (by rw [sizeofProgHdr]; omega)
  rw [ProgHdr.decode, ProgHdr.decode, hget 0 4 (by decide), hget 8 8 (by decide), hget 16 8 (by decide), hget 32 8 (by decide),
    hget 40 8 (by decide)]

theorem File.header_eq {elf : ElfHdr} (h : ip.header = some elf) : elf = ip.elf := by
  obtain ⟨b, hb, rfl⟩ := Option.map_eq_some_iff.1 (Option.filter_eq_some_iff.1 h).1
  exact ElfHdr.decode_congr (File.readAll_some (by decide) (by decide) hb).2

theorem File.loadsFrom_succ (ip : File) (i n : ℕ) : ip.loadsFrom i (n + 1) =
    if (ip.progHdr i).type = ELF_PROG_LOAD then ip.progHdr i :: ip.loadsFrom (i + 1) n else ip.loadsFrom (i + 1) n := by
  rw [File.loadsFrom, List.range'_succ, List.map_cons, List.filter_cons]
  simp only [decide_eq_true_eq]
  rfl

/-! ## What a file that is accepted looks like -/

/-- the bytes of one segment written over an image -/
def File.overlay (ip : File) (img : Store) (ph : ProgHdr) : Store :=
  blit img ph.vaddr.toNat (ip.segment (ph.off.setWidth 32) (ph.filesz.setWidth 32 : UInt).toNat)

/-- a segment of an image of size sz -/
structure ProgHdr.Within (ph : ProgHdr) (ip : File) (sz : Addr) : Prop where
  top : ph.vaddr.toNat + ph.memsz.toNat ≤ sz.toNat
  holds : ip.Holds (ph.off.setWidth 32) (ph.filesz.setWidth 32)

theorem ProgHdr.Within.mono {ph : ProgHdr} (h : ph.Within ip sz) (hle : sz.toNat ≤ sz'.toNat) : ph.Within ip sz' :=
  ⟨h.top.trans hle, h.holds⟩

theorem segmentSize_within {ph : ProgHdr} (h : segmentSize ip pages sz ph = some sz') :
    sz.toNat ≤ sz'.toNat ∧ imagePages sz'.toNat ≤ pages ∧ ph.Within ip sz' := by
  have hv := ph.vaddr.isLt
  have hm := ph.memsz.isLt
  rw [segmentSize] at h
  generalize hnew : (if ph.vaddr + ph.memsz < sz then sz else ph.vaddr + ph.memsz) = newsz at h
  split_ifs at h with hbad
  obtain rfl := Option.some.inj h
  simp only [not_or, not_not] at hbad
  obtain ⟨-, hwrap, -, hpages, -, hholds⟩ := hbad
  rw [BitVec.lt_def, BitVec.toNat_add] at hwrap
  have htop : sz.toNat ≤ newsz.toNat ∧ ph.vaddr.toNat + ph.memsz.toNat ≤ newsz.toNat := by
    rw [← hnew]
    split_ifs with hlt
    · rw [BitVec.lt_def, BitVec.toNat_add] at hlt
      omega
    · rw [BitVec.lt_def, BitVec.toNat_add] at hlt
      rw [BitVec.toNat_add]
      omega
  exact ⟨htop.1, Nat.not_lt.1 hpages, htop.2, hholds⟩

/-- **The headers of a file that is accepted**: the segments lie below the size, and are written one after the other. -/
theorem headersSize_loads (n i : ℕ) {off : UInt} (hoff : off.toNat = ip.elf.phoff.toNat + 56 * i)
    (hsz : imagePages sz.toNat ≤ pages) (h : headersSize ip pages n off sz = some sz') :
    sz.toNat ≤ sz'.toNat ∧ imagePages sz'.toNat ≤ pages ∧ (∀ ph ∈ ip.loadsFrom i n, ph.Within ip sz') ∧
      ∀ img, headersImage ip n off img = (ip.loadsFrom i n).foldl ip.overlay img := by
  induction n generalizing i off sz with
  | zero =>
    rw [headersSize] at h
    cases h
    exact ⟨le_rfl, hsz, fun ph hph => absurd hph List.not_mem_nil, fun _ => rfl⟩
  | succ n ih =>
    rw [headersSize] at h
    simp only [headersImage]
    rw [File.loadsFrom_succ]
    cases hread : ip.readAll off sizeofProgHdr with
    | none =>
      rw [hread] at h
      cases h
    | some b =>
      obtain ⟨hin, hbytes⟩ := File.readAll_some (by decide) (by decide) hread
      have hph : ProgHdr.decode b = ip.progHdr i := by rw [ProgHdr.decode_congr hbytes, hoff]; rfl
      have hsize := ip.size_lt
      have hnext : (off + 56).toNat = ip.elf.phoff.toNat + 56 * (i + 1) := by
        rw [sizeofProgHdr] at hin
        rw [BitVec.toNat_add, show (56 : UInt).toNat = 56 from rfl]
        omega
      rw [hread, Option.map_some, hph] at h
      dsimp only at h
      simp only [Option.map_some, hph]
      by_cases htype : (ip.progHdr i).type ≠ ELF_PROG_LOAD
      · rw [if_pos htype] at h
        have htype' : ¬ (ip.progHdr i).type = ELF_PROG_LOAD := htype
        simp only [if_pos htype, if_neg htype']
        exact ih (i + 1) hnext hsz h
      · rw [if_neg htype] at h
        have htype' : (ip.progHdr i).type = ELF_PROG_LOAD := not_not.1 htype
        simp only [if_neg htype, if_pos htype']
        cases hseg : segmentSize ip pages sz (ip.progHdr i) with
        | none =>
          rw [hseg] at h
          cases h
        | some newsz =>
          rw [hseg] at h
          obtain ⟨hle, hpages, hwithin⟩ := segmentSize_within hseg
          obtain ⟨hle', hpages', hloads, himg⟩ := ih (i + 1) hnext hpages h
          refine ⟨hle.trans hle', hpages', fun ph hph => ?_, fun img => ?_⟩
          · rcases List.mem_cons.1 hph with rfl | hph
            · exact hwithin.mono hle'
            · exact hloads ph hph
          · rw [List.foldl_cons, himg]
            rfl

/-- one segment covers the addresses of its file bytes and leaves the others -/
theorem File.overlay_apply {ph : ProgHdr} (h : ph.Within ip sz) (hoff : ph.off.toNat < 2 ^ 31) (hfile : ph.filesz.toNat < 2 ^ 31)
    (img : Store) (x : ℕ) :
    ip.overlay img ph x = if ph.Covers x then ip.data.getD (ph.off.toNat + (x - ph.vaddr.toNat)) 0 else img x := by
  have hoff' : (ph.off.setWidth 32 : UInt).toNat = ph.off.toNat := by
    rw [BitVec.toNat_setWidth]
    exact Nat.mod_eq_of_lt (by omega)
  have hfile' : (ph.filesz.setWidth 32 : UInt).toNat = ph.filesz.toNat := by
    rw [BitVec.toNat_setWidth]
    exact Nat.mod_eq_of_lt (by omega)
  have hlen : (ip.segment (ph.off.setWidth 32) (ph.filesz.setWidth 32 : UInt).toNat).length = ph.filesz.toNat := by
    rw [File.segment, List.length_take, List.length_drop, hoff', hfile', ← File.size]
    rcases h.holds with hzero | hle
    · have : ph.filesz.toNat = 0 := by rw [← hfile', hzero]; rfl
      omega
    · rw [hoff', hfile'] at hle
      omega
  rw [File.overlay]
  by_cases hin : ph.Covers x
  · rw [if_pos hin]
    obtain ⟨hlo, hhi⟩ := hin
    obtain ⟨k, rfl⟩ := Nat.exists_eq_add_of_le hlo
    rw [blit_inside _ _ (by omega), Nat.add_sub_cancel_left, File.segment, List.getD_eq_getElem?_getD,
      List.getD_eq_getElem?_getD, List.getElem?_take, if_pos (by omega), List.getElem?_drop, hoff']
  · rw [if_neg hin, blit_outside]
    rw [ProgHdr.Covers] at hin
    omega

/-- **Overlapping segments**: the last one that covers an address gives its byte. -/
theorem File.foldl_overlay (loads : List ProgHdr) (h : ∀ ph ∈ loads, ph.Within ip sz)
    (hsmall : ∀ ph ∈ loads, ph.off.toNat < 2 ^ 31 ∧ ph.filesz.toNat < 2 ^ 31) (x : ℕ) :
    loads.foldl ip.overlay (fun _ => 0) x = ip.byteOf loads x := by
  -- on the last header
  induction loads using List.reverseRecOn with
  | nil => rfl
  | append_singleton loads ph ih =>
    have hlast : ph ∈ loads ++ [ph] := List.mem_append_right _ (List.mem_singleton_self ph)
    have hinit := ih (fun q hq => h q (List.mem_append_left _ hq)) fun q hq => hsmall q (List.mem_append_left _ hq)
    rw [List.foldl_append, List.foldl_cons, List.foldl_nil, File.overlay_apply (h ph hlast) (hsmall ph hlast).1 (hsmall ph hlast).2,
      hinit, File.byteOf, File.byteOf, List.filter_append, List.filter_singleton]
    by_cases hin : ph.Covers x
    · simp [hin]
    · simp [hin]

/-- **The image of a file that is accepted** is the one its headers describe. -/
theorem File.image_eq (hpages : pages ≤ 57344) (hsize : ip.imageSize pages = some sz) (hphoff : ip.elf.phoff.toNat < 2 ^ 31)
    (hsmall : ∀ ph ∈ ip.loads, ph.off.toNat < 2 ^ 31 ∧ ph.filesz.toNat < 2 ^ 31) :
    (∀ ph ∈ ip.loads, ph.vaddr.toNat + ph.memsz.toNat + 8192 ≤ sz.toNat) ∧ ∀ x, ip.image x = ip.imageByte x := by
  rw [File.imageSize] at hsize
  rw [File.image]
  cases hheader : ip.header with
  | none =>
    rw [hheader] at hsize
    cases hsize
  | some elf =>
    obtain rfl := File.header_eq hheader
    rw [hheader] at hsize
    dsimp only at hsize ⊢
    have hoff : (ip.elf.phoff.setWidth 32 : UInt).toNat = ip.elf.phoff.toNat + 56 * 0 := by
      rw [BitVec.toNat_setWidth]
      omega
    cases hheaders : headersSize ip pages ip.elf.phnum.toNat (ip.elf.phoff.setWidth 32) PGSIZE with
    | none =>
      rw [hheaders] at hsize
      cases hsize
    | some top =>
      obtain ⟨-, hcount, hwithin, himg⟩ := headersSize_loads ip.elf.phnum.toNat 0 hoff (Nat.zero_le _) hheaders
      rw [hheaders] at hsize
      dsimp only at hsize
      split_ifs at hsize with hshort
      obtain rfl := Option.some.inj hsize
      refine ⟨fun ph hph => ?_, fun x => ?_⟩
      · have htop := (hwithin ph hph).top
        have hbound := le_imagePages top.toNat
        have hround := pgRoundUp_toNat top (by omega)
        rw [BitVec.toNat_add, show (2 * PGSIZE).toNat = 8192 from rfl]
        omega
      · rw [himg]
        exact File.foldl_overlay _ hwithin hsmall x

end Xv6.Exec
