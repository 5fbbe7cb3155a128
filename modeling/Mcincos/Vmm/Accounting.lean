import Mcincos.Vmm.System

namespace Mcincos.System

open Radix Relation

variable {p0 : Pmm} {c : System} {f : ℕ}

def Table (c : System) (f : ℕ) : Prop := ∃ k, pageTables.At c.roots c.vm.ram.word k f

def Refers (c : System) (a : ℕ) (i : BitVec 9) (f : ℕ) : Prop :=
  ∃ k < 3, pageTables.At c.roots c.vm.ram.word k a ∧
    pageTables.child (c.vm.ram.word a i) = some f

theorem Inv.table_used (h : c.Inv p0) (hf : c.Table f) (hlt : f < c.vm.pmm.gTotalPages) :
    c.vm.pmm.bitmapTest f = true := by
  obtain ⟨k, hk⟩ := hf
  have hused := h.vm.used k f hk
  rw [Pmm.Free, not_and, Bool.not_eq_false] at hused
  exact hused hlt

theorem Inv.table_not_live (h : c.Inv p0) (hf : c.Table f) {b : Pmm.Block} (hb : b ∈ c.live) :
    f ∉ b.frames := by
  intro hmem
  obtain ⟨hfree, htable⟩ := h.owns.fresh_base hb hmem
  exact htable ⟨hfree, hf⟩

theorem Inv.root_unreferenced (h : c.Inv p0) (hf : f ∈ c.roots) (a : ℕ) (i : BitVec 9) :
    ¬c.Refers a i f := by
  rintro ⟨k, hk, ha, hc⟩
  exact h.vm.forest.unrooted ha hk hc hf

theorem table_referenced (hf : c.Table f) (hroot : f ∉ c.roots) : ∃ a i, c.Refers a i f := by
  obtain ⟨k, hk⟩ := hf
  cases hk with
  | root hr => exact absurd hr hroot
  | @next k a _ i ha hk hc => exact ⟨a, i, k, hk, ha, hc⟩

theorem Inv.refers_unique (h : c.Inv p0) {a a' : ℕ} {i i' : BitVec 9} (hr : c.Refers a i f)
    (hr' : c.Refers a' i' f) :
    (a = a' ∧ i = i') ∨ (a ∈ c.roots ∧ a' ∈ c.roots ∧ i = i' ∧ 256 ≤ i.toNat) := by
  obtain ⟨k, hk, ha, hc⟩ := hr
  obtain ⟨k', hk', ha', hc'⟩ := hr'
  exact h.vm.forest.unique ha ha' hk hk' hc hc'

theorem Inv.used_iff (h : c.Inv p0) (f : ℕ) :
    c.vm.pmm.bitmapTest f = true ↔
      p0.bitmapTest f = true ∨ (∃ b ∈ c.live, f ∈ b.frames) ∨ p0.Free f ∧ c.Table f := by
  have hbits := h.owns.bits f
  rw [Set.mem_union, or_assoc, or_comm (a := f ∈ c.tableFrames p0)] at hbits
  exact hbits

/-- Every frame is accounted for, whatever the clients of the pmm and the page table calls do, and
wherever they run out of memory: no table is lost, linked twice or handed out. -/
theorem table_accounting (s : Vm) (hs : s.Inv {frameOf s.cr3}) (c : System)
    (hrun : ReflTransGen Step (start s) c) :
    (∀ f, c.Table f → (f < c.vm.pmm.gTotalPages → c.vm.pmm.bitmapTest f = true) ∧
      ∀ b ∈ c.live, f ∉ b.frames) ∧
    (∀ f, c.Table f → (f ∈ c.roots ∧ ∀ a i, ¬c.Refers a i f) ∨
      (f ∉ c.roots ∧ ∃ a i, c.Refers a i f ∧ ∀ a' i', c.Refers a' i' f →
        (a = a' ∧ i = i') ∨ (a ∈ c.roots ∧ a' ∈ c.roots ∧ i = i' ∧ 256 ≤ i.toNat))) ∧
    (∀ f, c.vm.pmm.bitmapTest f = true ↔ s.pmm.bitmapTest f = true ∨
      (∃ b ∈ c.live, f ∈ b.frames) ∨ s.pmm.Free f ∧ c.Table f) ∧
    c.live.Pairwise (fun b d => Disjoint b.frames d.frames) := by
  have h : c.Inv s.pmm := (start_inv hs).run hrun
  refine ⟨fun f hf => ⟨h.table_used hf, fun b hb => h.table_not_live hf hb⟩, ?_, h.used_iff,
    h.owns.apart⟩
  intro f hf
  by_cases hroot : f ∈ c.roots
  · exact .inl ⟨hroot, h.root_unreferenced hroot⟩
  · obtain ⟨a, i, hr⟩ := table_referenced hf hroot
    exact .inr ⟨hroot, a, i, hr, fun a' i' hr' => h.refers_unique hr hr'⟩

theorem table_accounting_bareVm : ∃ c, ReflTransGen Step (start bareVm) c ∧
    c.live = [⟨0x2000, 2⟩] ∧ c.vm.pmm.bitmapTest 7 = true ∧
    (bareVm.pmm.bitmapTest 7 = true ∨ (∃ b ∈ c.live, 7 ∈ b.frames) ∨
      bareVm.pmm.Free 7 ∧ c.Table 7) := by
  have halloc : Pmm.ClientStep (bareVm.vmmInit.pmm, []) ((bareVm.pmm.pmmAllocPages 2).1,
      [⟨(bareVm.pmm.pmmAllocPages 2).2, 2⟩]) := .alloc rfl (by decide +kernel)
  have hrun := (ReflTransGen.single (Step.client (c := start bareVm) halloc)).tail .create
    |>.tail (.page (.map 0x400000 0x5000 pteU) (by rintro _ ⟨⟩))
  have hused := ((table_accounting bareVm bareVm_inv _ hrun).2.2.1 7).mp (by decide +kernel)
  exact ⟨_, hrun, by decide +kernel, by decide +kernel, hused⟩

end Mcincos.System
