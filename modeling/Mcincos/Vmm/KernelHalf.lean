import Mcincos.Vmm.System

namespace Mcincos.System

open Radix Relation

structure Keeps (c c' : System) : Prop where
  kernel : c'.vm.gKernelCr3Phys = c.vm.gKernelCr3Phys
  spaces : ∀ sp ∈ c.spaces, sp ∈ c'.spaces
  entry : ∀ r ∈ c.roots, ∀ i e, pageTables.get c.vm.ram.word r [i] = some e →
    pageTables.get c'.vm.ram.word r [i] = some e

variable {p0 : Pmm} {c c' c'' : System}

theorem Keeps.root_mem (h : Keeps c c') {r : ℕ} (hr : r ∈ c.roots) : r ∈ c'.roots := by
  obtain ⟨p, hp, rfl⟩ := hr
  obtain rfl | hp := List.mem_cons.mp hp
  · rw [← h.kernel]
    exact c'.kernel_mem
  · obtain ⟨sp, hsp, rfl⟩ := List.mem_map.mp hp
    exact space_mem (h.spaces sp hsp)

theorem Keeps.refl (c : System) : Keeps c c := ⟨rfl, fun _ h => h, fun _ _ _ _ h => h⟩

theorem Keeps.trans (h : Keeps c c') (h' : Keeps c' c'') : Keeps c c'' where
  kernel := h'.kernel.trans h.kernel
  spaces := fun sp hsp => h'.spaces sp (h.spaces sp hsp)
  entry := fun r hr i e he => h'.entry r (h.root_mem hr) i e (h.entry r hr i e he)

theorem Inv.page_keeps (h : c.Inv p0) {call : PageCall}
    (hcall : ∀ sp, call.space = some sp → sp ∈ c.spaces) : Keeps c (c.page call) := by
  obtain ⟨hc, -⟩ := call.change h.vm (h.root_mem hcall)
  exact ⟨hc.gKernelCr3Phys, fun _ hsp => hsp, fun r hr i e he => hc.old r hr [i] (by simp) e he⟩

theorem Inv.mmioMap_keeps (h : c.Inv p0) (hhdmOffset phys size : U64) (opts : Option MmioOpts) :
    Keeps c { c with vm := (c.vm.mmioMap hhdmOffset phys size opts).1 } := by
  have hkept : Inv p0 { c with vm := (c.vm.mmioMap hhdmOffset phys size opts).1 } ∧
      Keeps c { c with vm := (c.vm.mmioMap hhdmOffset phys size opts).1 } := by
    apply Vm.mmioMap_induction (P := fun s => Inv p0 { c with vm := s } ∧ Keeps c { c with vm := s }) _
      ⟨h, .refl c⟩
    intro s v p flags hs
    have hcall : ∀ sp, (PageCall.mapMmio v p flags).space = some sp → sp ∈ c.spaces := by
      simp [PageCall.space]
    have hkeeps := hs.1.page_keeps hcall
    exact ⟨hs.1.pageMmio v p flags, hs.2.trans hkeeps⟩
  exact hkept.2

theorem Inv.create_keeps (h : c.Inv p0) : Keeps c c.create := by
  obtain he | ⟨s', phys, f, he, hphys, hc⟩ := vmmCreateSpace_cases h.vm c.kernel_mem
  · rw [create, he]
    exact .refl c
  · rw [create, he]
    dsimp only
    rw [if_neg hphys]
    refine ⟨hc.gKernelCr3Phys, fun _ hsp => List.mem_cons_of_mem _ hsp, fun r hr i e hg => ?_⟩
    exact (hc.get_old r hr [i] (by simp)).trans hg

theorem Inv.step_keeps (h : c.Inv p0) (hs : Step c c') : Keeps c c' := by
  cases hs with
  | client _ => exact ⟨rfl, fun _ hsp => hsp, fun _ _ _ _ he => he⟩
  | @write b phys e i hb hphys =>
    refine ⟨rfl, fun _ hsp => hsp, fun r hr j e' hg => ?_⟩
    have hrow := get_congr (fun _ _ hf => h.write_word hb hphys i e hf) (.root hr)
      (show 0 + [j].length ≤ pageTables.depth + 1 by simp)
    exact hrow.trans hg
  | page call hcall => exact h.page_keeps hcall
  | mmioMap => exact h.mmioMap_keeps _ _ _ _
  | create => exact h.create_keeps
  | @switch space _ =>
    rw [Vm.vmmSwitchSpace]
    split_ifs
    · exact .refl c
    · exact ⟨rfl, fun _ hsp => hsp, fun _ _ _ _ he => he⟩

theorem Inv.run_keeps (h : c.Inv p0) (hrun : ReflTransGen Step c c') : Keeps c c' := by
  induction hrun with
  | refl => exact .refl c
  | tail hrun hs ih => exact ih.trans ((h.run hrun).step_keeps hs)

theorem Inv.cpuWalk_shared (h : c.Inv p0) {p p' : U64} (hp : p ∈ c.cr3s) (hp' : p' ∈ c.cr3s) {va e : U64}
    (he : pageTables.get c.vm.ram.word (frameOf p) [Vm.idxPml4 va] = some e)
    (he' : pageTables.get c.vm.ram.word (frameOf p') [Vm.idxPml4 va] = some e) :
    cpuWalk c.vm.ram p' va = cpuWalk c.vm.ram p va := by
  apply cpuWalk_congr h.vm h.vm ⟨p, hp, rfl⟩ ⟨p', hp', rfl⟩
  intro is _
  apply get_head_congr
  rw [(get_singleton he).1, (get_singleton he').1]

/-- A space shares with the kernel the PML4 entries that were present when it was created, and
whatever is mapped or unmapped below them later. -/
theorem kernel_half_shared (s : Vm) (hs : s.Inv {frameOf s.cr3}) (c : System)
    (hrun : ReflTransGen Step (start s) c) (hspace : c.vm.vmmCreateSpace.2.pml4Phys ≠ 0)
    (c' : System) (hrun' : ReflTransGen Step c.create c') (va : U64)
    (hva : 256 ≤ (Vm.idxPml4 va).toNat)
    (hpresent : c.vm.load c.vm.gKernelCr3Phys (Vm.idxPml4 va) &&& pteP ≠ 0) :
    cpuWalk c'.vm.ram c.vm.vmmCreateSpace.2.pml4Phys va =
      cpuWalk c'.vm.ram c'.vm.gKernelCr3Phys va := by
  have h : c.Inv s.pmm := (start_inv hs).run hrun
  have hcreate : c.create.Inv s.pmm := h.step .create
  have hkernel : pageTables.get c.vm.ram.word (frameOf c.vm.gKernelCr3Phys) [Vm.idxPml4 va] =
      some (c.vm.load c.vm.gKernelCr3Phys (Vm.idxPml4 va)) := by
    have hchild := child_isSome.mpr hpresent
    rw [Vm.load_eq] at hchild ⊢
    simp only [Shape.get, Shape.slot, Option.bind_some, hchild, ↓reduceIte]
  have hkernel' := h.create_keeps.entry _ c.kernel_mem _ _ hkernel
  have hkeeps := hcreate.run_keeps hrun'
  obtain he | ⟨s', phys, f, he, hphys, hc⟩ := vmmCreateSpace_cases h.vm c.kernel_mem
  · rw [he] at hspace
    exact absurd rfl hspace
  · have hmem : (⟨phys⟩ : VmmSpace) ∈ c.create.spaces := by
      rw [create, he]
      dsimp only
      rw [if_neg hphys]
      exact List.mem_cons_self
    have hnew : pageTables.get c.create.vm.ram.word (frameOf phys) [Vm.idxPml4 va] =
        some (c.vm.load c.vm.gKernelCr3Phys (Vm.idxPml4 va)) := by
      rw [create, he, hc.frame]
      exact (hc.get_shared _ [] (by simp) hva).trans hkernel
    have hsame : c'.vm.gKernelCr3Phys = c.vm.gKernelCr3Phys :=
      hkeeps.kernel.trans h.create_keeps.kernel
    rw [he, hsame]
    apply (hcreate.run hrun').cpuWalk_shared
    · rw [← hsame]
      exact List.mem_cons_self
    · exact List.mem_cons_of_mem _ (List.mem_map_of_mem (hkeeps.spaces _ hmem))
    · exact hkeeps.entry _ (h.create_keeps.root_mem c.kernel_mem) _ _ hkernel'
    · exact hkeeps.entry _ (space_mem hmem) _ _ hnew

theorem kernel_half_shared_bareVm :
    let c := (start bareVm).page (.map 0xffff800000000000 0x5000 pteW)
    let c' := c.create.page (.map 0xffff800000001000 0x6000 pteW)
    (cpuWalk c'.vm.ram c.vm.vmmCreateSpace.2.pml4Phys 0xffff800000001000).physical 0xffff800000001000
        = some 0x6000 ∧
      cpuWalk c'.vm.ram c.vm.vmmCreateSpace.2.pml4Phys 0xffff800000001000 =
        cpuWalk c'.vm.ram c'.vm.gKernelCr3Phys 0xffff800000001000 := by
  intro c c'
  refine ⟨by decide +kernel, ?_⟩
  exact kernel_half_shared bareVm bareVm_inv c (.single (.page _ (by rintro _ ⟨⟩))) (by decide +kernel)
    c' (.single (.page _ (by rintro _ ⟨⟩))) _ (by decide) (by decide +kernel)

theorem kernel_half_diverges : ¬∀ s : Vm, s.Inv {frameOf s.cr3} → ∀ c,
    ReflTransGen Step (start s) c → ∀ p ∈ c.cr3s, ∀ p' ∈ c.cr3s, ∀ va : U64,
      256 ≤ (Vm.idxPml4 va).toNat →
      (cpuWalk c.vm.ram p va).physical va = (cpuWalk c.vm.ram p' va).physical va := by
  intro hall
  have hrun : ReflTransGen Step (start bareVm)
      ((start bareVm).create.page (.map 0xffff800000000000 0x5000 pteW)) :=
    (ReflTransGen.single .create).tail (.page _ (by rintro _ ⟨⟩))
  have hkernel := hall bareVm bareVm_inv _ hrun 0x1000 (by decide +kernel) 0x2000 (by decide +kernel)
    0xffff800000000000 (by decide)
  exact absurd hkernel (by decide +kernel)

end Mcincos.System
