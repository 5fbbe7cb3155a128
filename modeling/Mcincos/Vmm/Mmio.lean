import Mcincos.Vmm.Vmm

namespace Mcincos

inductive MmioCache
  | uc | wc | wt | wb
  deriving DecidableEq

/-- `mmio_opts_t`; an `int` is read as a truth value. -/
structure MmioOpts where
  cache : MmioCache
  global : BitVec 32
  writable : BitVec 32
  nx : BitVec 32
  deriving DecidableEq

namespace Vm

def mmioAlignUp (x : U64) : U64 := (x + (pageSize - 1)) &&& ~~~(pageSize - 1)

def mmioDef : MmioOpts := ⟨.uc, 1, 1, 0⟩

def mmioFlags (opts : MmioOpts) : U64 :=
  pteP ||| (if opts.writable ≠ 0 then pteW else 0) ||| (if opts.global ≠ 0 then pteG else 0) |||
    (ptePCD ||| ptePWT)

def mmioMapLoop (flags : U64) : ℕ → Vm → U64 → U64 → Vm × Bool
  | 0, s, _, _ => (s, true)
  | n + 1, s, p, v =>
    let (s, rc) := s.vmmMapPageMmio v p flags
    if rc ≠ 0 then (s, false) else mmioMapLoop flags n s (p + pageSize) (v + pageSize)

def mmioPages (p0 p1 : U64) : ℕ := (p1.toNat - p0.toNat) / 4096

def mmioMap (s : Vm) (hhdmOffset phys size : U64) (opts : Option MmioOpts) : Vm × U64 :=
  if size = 0 then (s, 0)
  else
    let opts := opts.getD mmioDef
    let p0 := alignDown phys
    let p1 := mmioAlignUp (phys + size)
    let v0 := p0 + hhdmOffset
    let (s, ok) := mmioMapLoop (mmioFlags opts) (mmioPages p0 p1) s p0 v0
    if ok then (s, v0 + (phys - p0)) else (s, 0)

def mmioUnmapLoop : ℕ → Vm → U64 → Vm
  | 0, s, _ => s
  | n + 1, s, v => mmioUnmapLoop n (s.vmmUnmapPage v).1 (v + pageSize)

def mmioUnmap (s : Vm) (virt size : U64) : Vm :=
  if size = 0 then s
  else
    let v0 := alignDown virt
    let v1 := mmioAlignUp (virt + size)
    mmioUnmapLoop (mmioPages v0 v1) s v0

theorem mmioMapLoop_induction {P : Vm → Prop} {flags : U64}
    (hstep : ∀ s v p, P s → P (s.vmmMapPageMmio v p flags).1) (n : ℕ) {s : Vm} (hs : P s) (p v : U64) :
    P (mmioMapLoop flags n s p v).1 := by
  induction n generalizing s p v with
  | zero => exact hs
  | succ n ih =>
    rw [mmioMapLoop]
    dsimp only
    split_ifs
    · exact hstep s v p hs
    · exact ih (hstep s v p hs) (p + pageSize) (v + pageSize)

theorem mmioMap_induction {P : Vm → Prop}
    (hstep : ∀ s v p flags, P s → P (s.vmmMapPageMmio v p flags).1) {s : Vm} (hs : P s)
    (hhdmOffset phys size : U64) (opts : Option MmioOpts) : P (s.mmioMap hhdmOffset phys size opts).1 := by
  unfold mmioMap
  split_ifs
  · exact hs
  · have hloop := mmioMapLoop_induction (fun s v p => hstep s v p (mmioFlags (opts.getD mmioDef)))
      (mmioPages (alignDown phys) (mmioAlignUp (phys + size))) hs (alignDown phys)
      (alignDown phys + hhdmOffset)
    dsimp only
    split_ifs
    all_goals exact hloop

end Vm

end Mcincos
