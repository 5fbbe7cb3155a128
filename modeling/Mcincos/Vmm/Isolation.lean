import Mcincos.Vmm.System

namespace Mcincos.System

open Relation

variable {p0 : Pmm} {c : System}

theorem Inv.page_frame (h : c.Inv p0) {call : PageCall}
    (hcall : ∀ sp, call.space = some sp → sp ∈ c.spaces) (hlow : (Vm.idxPml4 call.virt).toNat < 256)
    {p va : U64} (hp : p ∈ c.cr3s)
    (hva : frameOf p ≠ frameOf (call.root c.vm) ∨ 256 ≤ (Vm.idxPml4 va).toNat) :
    cpuWalk (c.page call).vm.ram p va = cpuWalk c.vm.ram p va := by
  apply (call.change h.vm (h.root_mem hcall)).1.cpuWalk_eq h.vm ⟨p, hp, rfl⟩
  by_cases hhalf : (Vm.idxPml4 va).toNat < 256
  · exact .inr ⟨hva.resolve_right (by omega), hhalf⟩
  · left
    intro he
    rw [he] at hhalf
    exact hhalf hlow

theorem Inv.create_frame (h : c.Inv p0) {s' : Vm} {space : VmmSpace}
    (hcreate : c.vm.vmmCreateSpace = (s', space)) {p : U64} (hp : p ∈ c.cr3s) (va : U64) :
    cpuWalk s'.ram p va = cpuWalk c.vm.ram p va := by
  obtain he | ⟨s1, phys, f, he, -, hc⟩ := vmmCreateSpace_cases h.vm c.kernel_mem
  · obtain ⟨rfl, -⟩ := Prod.mk.inj (he.symm.trans hcreate)
    rfl
  · obtain ⟨rfl, -⟩ := Prod.mk.inj (he.symm.trans hcreate)
    have hr : frameOf p ∈ c.roots := ⟨p, hp, rfl⟩
    apply cpuWalk_congr h.vm hc.inv hr (.inr hr)
    intro is his
    exact hc.get_old _ hr _ (Nat.succ_le_succ his)

theorem Inv.create_new (h : c.Inv p0) {s' : Vm} {space : VmmSpace}
    (hcreate : c.vm.vmmCreateSpace = (s', space)) (hspace : space.pml4Phys ≠ 0) (va : U64) :
    frameOf space.pml4Phys ∉ c.roots ∧
    cpuWalk s'.ram space.pml4Phys va =
      if (Vm.idxPml4 va).toNat < 256 then .fault
      else cpuWalk c.vm.ram c.vm.gKernelCr3Phys va := by
  obtain he | ⟨s1, phys, f, he, -, hc⟩ := vmmCreateSpace_cases h.vm c.kernel_mem
  · obtain ⟨-, rfl⟩ := Prod.mk.inj (he.symm.trans hcreate)
    exact absurd rfl hspace
  · obtain ⟨rfl, rfl⟩ := Prod.mk.inj (he.symm.trans hcreate)
    have hf : frameOf phys = f := hc.frame
    have hr : frameOf phys ∈ insert f c.roots := .inl hf
    refine ⟨fun hmem => h.vm.used 0 f (.root (hf ▸ hmem)) hc.free, ?_⟩
    split_ifs with hhalf
    · obtain ⟨hw, -⟩ | ⟨e4, e3, e2, e1, -, hg, -⟩ := cpuWalk_cases hc.inv hr va
      · exact hw
      · rw [hf, hc.get_empty _ _ (Nat.not_le.mpr hhalf)] at hg
        exact absurd hg (by simp)
    · apply cpuWalk_congr h.vm hc.inv c.kernel_mem hr
      intro is his
      rw [hf]
      exact hc.get_shared _ is his (Nat.not_lt.mp hhalf)

/-- Spaces are isolated in the user half: in every state the kernel can reach, a new space starts
empty with the kernel's half, and a call for a user page is seen by its own space alone. -/
theorem user_half_isolation (s : Vm) (hs : s.Inv {frameOf s.cr3}) (c : System)
    (hrun : ReflTransGen Step (start s) c) :
    (c.cr3s.map frameOf).Nodup ∧
    (∀ s' space, c.vm.vmmCreateSpace = (s', space) →
      (∀ p ∈ c.cr3s, ∀ va, cpuWalk s'.ram p va = cpuWalk c.vm.ram p va) ∧
      (space.pml4Phys ≠ 0 → frameOf space.pml4Phys ∉ c.roots ∧
        ∀ va, cpuWalk s'.ram space.pml4Phys va =
          if (Vm.idxPml4 va).toNat < 256 then .fault
          else cpuWalk c.vm.ram c.vm.gKernelCr3Phys va)) ∧
    ∀ call : PageCall, (∀ sp, call.space = some sp → sp ∈ c.spaces) →
      (Vm.idxPml4 call.virt).toNat < 256 → ∀ p ∈ c.cr3s, ∀ va,
        frameOf p ≠ frameOf (call.root c.vm) ∨ 256 ≤ (Vm.idxPml4 va).toNat →
        cpuWalk (c.page call).vm.ram p va = cpuWalk c.vm.ram p va := by
  have h : c.Inv s.pmm := (start_inv hs).run hrun
  refine ⟨h.apart, fun s' space hcreate => ⟨fun p hp => h.create_frame hcreate hp, fun hspace =>
    ⟨(h.create_new hcreate hspace 0).1, fun va => (h.create_new hcreate hspace va).2⟩⟩, ?_⟩
  intro call hcall hlow p hp va hva
  exact h.page_frame hcall hlow hp hva

theorem user_half_isolation_bareVm : ∃ c sp, ReflTransGen Step (start bareVm) c ∧
    c.spaces = [sp] ∧
    let call := PageCall.mapSpace sp 0x400000 0x5000 pteU
    (call.exec c.vm).2 = 0 ∧ ∀ va,
      cpuWalk (c.page call).vm.ram c.vm.gKernelCr3Phys va = cpuWalk c.vm.ram c.vm.gKernelCr3Phys va := by
  have hrun : ReflTransGen Step (start bareVm) (start bareVm).create := .single .create
  have hspaces : (start bareVm).create.spaces = [⟨0x2000⟩] := by decide +kernel
  refine ⟨_, ⟨0x2000⟩, hrun, hspaces, by decide +kernel, fun va => ?_⟩
  refine (user_half_isolation bareVm bareVm_inv _ hrun).2.2 _ ?_ (by decide) _ List.mem_cons_self va
    (.inl (by decide +kernel))
  rintro sp ⟨⟩
  rw [hspaces]
  exact List.mem_cons_self

end Mcincos.System
