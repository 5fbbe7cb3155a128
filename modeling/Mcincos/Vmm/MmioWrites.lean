import Mcincos.Vmm.MmioWindow

namespace Mcincos

open Words Writes

variable {s s' : Vm} {r n : ℕ} {cr3 p v phys size hhdmOffset : U64}

theorem cpuWalk_leaf (hs : s.Inv {r}) (hr : frameOf cr3 = r) (va : U64) :
    (cpuWalk s.ram cr3 va).leaf = leafAt s r va := by
  cases hleaf : leafAt s r va with
  | none => rw [(cpuWalk_fault_iff hs hr).mpr hleaf]; rfl
  | some e => exact (cpuWalk_leafAt hs hr hleaf).1

/-- A call that fails leaves the pages it has done: the first `k` of the range are mapped, and
nothing else has changed. -/
theorem mmio_failure (s : Vm) (hs : s.Inv {frameOf s.cr3}) (hhdmOffset phys size : U64)
    (opts : Option MmioOpts) (s' : Vm) (h : s.mmioMap hhdmOffset phys size opts = (s', 0)) :
    ∃ k ≤ loopPages phys size,
      (size ≠ 0 → phys + hhdmOffset ≠ 0 → k < loopPages phys size) ∧
      (∀ va, (∀ j < k, pageOf va ≠ pageOf (pageAt (Vm.alignDown phys + hhdmOffset) j)) →
        cpuWalk s'.ram s'.cr3 va = cpuWalk s.ram s.cr3 va) ∧
      ∀ j < k, ∀ va, pageOf va = pageOf (pageAt (Vm.alignDown phys + hhdmOffset) j) →
        (∀ i, j < i → i < k → pageOf va ≠ pageOf (pageAt (Vm.alignDown phys + hhdmOffset) i)) →
        (cpuWalk s'.ram s'.cr3 va).leaf =
          some (leafEntry (pageAt (Vm.alignDown phys) j) (Vm.mmioFlags (opts.getD Vm.mmioDef))) := by
  by_cases hsize : size = 0
  · rw [Vm.mmioMap, if_pos hsize] at h
    obtain ⟨rfl, -⟩ := Prod.mk.inj h
    exact ⟨0, Nat.zero_le _, fun hne => absurd hsize hne, fun _ _ => rfl, fun _ hj => absurd hj (Nat.not_lt_zero _)⟩
  · obtain ⟨hgrows, k, hk, hcase, hleaf⟩ := mmioMap_leafAt hs rfl hsize h
    have hcr3 : frameOf s'.cr3 = frameOf s.cr3 := congrArg frameOf hgrows.cr3
    refine ⟨k, hk, ?_, ?_, ?_⟩
    · rintro - hne
      obtain ⟨-, hzero⟩ | ⟨hlt, -⟩ := hcase
      · exact absurd hzero.symm hne
      · exact hlt
    · intro va hva
      rw [hgrows.cr3]
      apply hgrows.cpuWalk_eq hs rfl
      rw [hleaf]
      exact written_untouched fun j hj => (hva j hj).symm
    · intro j hj va hva hlast
      rw [cpuWalk_leaf hgrows.inv hcr3, hleaf]
      exact written_last hj hva.symm fun i hji hik => (hlast i hji hik).symm

def tightVm : Vm where
  ram := ⟨fun _ _ => 0, []⟩
  pmm := { gHhdm := 0, gBitmap := 0, bytes := [0xe3#8], gTotalBytes := 0x8000, gFreeBytes := 0x3000,
           gTotalPages := 8, sized := rfl, bounded := eight_bounded }
  cr3 := 0x1000
  gKernelCr3Phys := 0x1000

theorem tightVm_inv : tightVm.Inv {1} :=
  .of_empty (fun _ => BitVec.zero_and) (by decide) (by decide) (by decide) (by decide)

def tightMap : Vm × U64 := tightVm.mmioMap 0xffff800000000000 0x1ff000 0x2000 none

theorem tightMap_snd : tightMap.2 = 0 := by decide +kernel

theorem tightMap_eq : tightVm.mmioMap 0xffff800000000000 0x1ff000 0x2000 none = (tightMap.1, 0) := by
  rw [← tightMap_snd]
  exact Prod.mk.eta.symm

theorem mmio_failure_tightVm : ∃ k < loopPages 0x1ff000 0x2000,
    ∀ va, (∀ j < k, pageOf va ≠ pageOf (pageAt 0xffff8000001ff000 j)) →
      cpuWalk tightMap.1.ram tightMap.1.cr3 va = cpuWalk tightVm.ram tightVm.cr3 va := by
  obtain ⟨k, -, hk, hsame, -⟩ := mmio_failure tightVm tightVm_inv 0xffff800000000000 0x1ff000 0x2000
    none tightMap.1 tightMap_eq
  exact ⟨k, hk (by decide) (by decide), hsame⟩

theorem mmio_failure_maps : ¬∀ (s : Vm) (_ : s.Inv {frameOf s.cr3}) (hhdmOffset phys size : U64)
    (opts : Option MmioOpts) (s' : Vm), s.mmioMap hhdmOffset phys size opts = (s', 0) →
    ∀ va, (cpuWalk s'.ram s'.cr3 va).leaf = (cpuWalk s.ram s.cr3 va).leaf := by
  intro h
  have hsame := h tightVm tightVm_inv _ _ _ _ _ tightMap_eq 0xffff8000001ff000
  exact absurd hsame (by decide +kernel)

end Mcincos
