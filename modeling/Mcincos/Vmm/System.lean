import Mcincos.Pmm.Ownership
import Mcincos.Vmm.Calls

namespace Mcincos

open Words Radix Relation

inductive PageCall
  | map (virt phys flags : U64)
  | unmap (virt : U64)
  | mapSpace (space : VmmSpace) (virt phys flags : U64)
  | unmapSpace (space : VmmSpace) (virt : U64)
  | mapMmio (virt phys flags : U64)

namespace PageCall

def exec (s : Vm) : PageCall → Vm × Int
  | map virt phys flags => s.vmmMapPage virt phys flags
  | unmap virt => s.vmmUnmapPage virt
  | mapSpace space virt phys flags => s.vmmMapPageSpace space virt phys flags
  | unmapSpace space virt => s.vmmUnmapPageSpace space virt
  | mapMmio virt phys flags => s.vmmMapPageMmio virt phys flags

def virt : PageCall → U64
  | map virt _ _ | unmap virt | mapSpace _ virt _ _ | unmapSpace _ virt | mapMmio virt _ _ => virt

def space : PageCall → Option VmmSpace
  | mapSpace space _ _ _ | unmapSpace space _ => some space
  | map _ _ _ | unmap _ | mapMmio _ _ _ => none

def root (s : Vm) (call : PageCall) : U64 := (call.space.map VmmSpace.pml4Phys).getD s.cr3

end PageCall

structure System where
  vm : Vm
  spaces : List VmmSpace
  live : List Pmm.Block

namespace System

def cr3s (c : System) : List U64 := c.vm.gKernelCr3Phys :: c.spaces.map VmmSpace.pml4Phys

def roots (c : System) : Set ℕ := {f | ∃ p ∈ c.cr3s, frameOf p = f}

def page (c : System) (call : PageCall) : System := { c with vm := (call.exec c.vm).1 }

def create (c : System) : System :=
  let (s, space) := c.vm.vmmCreateSpace
  ⟨s, if space.pml4Phys = 0 then c.spaces else space :: c.spaces, c.live⟩

def start (s : Vm) : System := ⟨s.vmmInit, [], []⟩

/-- One call of the kernel. Clients free only blocks they hold and write only to those. -/
inductive Step : System → System → Prop
  | client {c : System} {p : Pmm} {live : List Pmm.Block} :
      Pmm.ClientStep (c.vm.pmm, c.live) (p, live) →
      Step c ⟨{ c.vm with pmm := p }, c.spaces, live⟩
  | write {c : System} {b : Pmm.Block} {phys e : U64} {i : BitVec 9} :
      b ∈ c.live → frameOf phys ∈ b.frames → Step c { c with vm := c.vm.store phys i e }
  | page {c : System} (call : PageCall) :
      (∀ sp, call.space = some sp → sp ∈ c.spaces) → Step c (c.page call)
  | mmioMap {c : System} {hhdmOffset phys size : U64} {opts : Option MmioOpts} :
      Step c { c with vm := (c.vm.mmioMap hhdmOffset phys size opts).1 }
  | create {c : System} : Step c c.create
  | switch {c : System} {space : VmmSpace} :
      space ∈ c.spaces → Step c { c with vm := c.vm.vmmSwitchSpace space }

def tableFrames (p0 : Pmm) (c : System) : Set ℕ :=
  {f | p0.Free f ∧ ∃ k, pageTables.At c.roots c.vm.ram.word k f}

structure Inv (p0 : Pmm) (c : System) : Prop where
  vm : c.vm.Inv c.roots
  zero : ¬p0.Free 0
  active : frameOf c.vm.cr3 ∈ c.roots
  apart : (c.cr3s.map frameOf).Nodup
  owns : Pmm.Owns p0 (p0.usedFrames ∪ c.tableFrames p0) c.vm.pmm c.live

end System

theorem PageCall.change {roots : Set ℕ} {s : Vm} (call : PageCall) (hs : s.Inv roots)
    (hr : frameOf (call.root s) ∈ roots) :
    PageChange roots (frameOf (call.root s)) call.virt s (call.exec s).1 ∧
      frameOf (call.exec s).1.cr3 = frameOf s.cr3 := by
  have hcr3 : frameOf (s.cr3 &&& ~~~0xfff#64) = frameOf s.cr3 := frameOf_tableOf s.cr3
  have hactive (h : frameOf s.cr3 ∈ roots) : frameOf (s.cr3 &&& ~~~0xfff#64) ∈ roots := by rwa [hcr3]
  cases call with
  | map virt phys flags =>
    obtain ⟨hc, h3⟩ := mapPage_change hs (hactive hr) virt phys (flags &&& ~~~(ptePCD ||| ptePWT))
    rw [hcr3] at hc
    exact ⟨hc, congrArg frameOf h3⟩
  | unmap virt =>
    obtain ⟨hc, h3⟩ := vmmUnmapPageCr3_change hs (hactive hr) virt
    rw [hcr3] at hc
    exact ⟨hc, congrArg frameOf h3⟩
  | mapSpace space virt phys flags =>
    refine ⟨inSpace_change hs fun t ht => ?_, inSpace_cr3 _ _ _⟩
    exact (mapPage_change ht hr virt phys _).1
  | unmapSpace space virt =>
    refine ⟨inSpace_change hs fun t ht => ?_, inSpace_cr3 _ _ _⟩
    exact (vmmUnmapPageCr3_change ht hr virt).1
  | mapMmio virt phys flags =>
    obtain ⟨hc, h3⟩ := mapPage_change hs (hactive hr) virt phys flags
    rw [hcr3] at hc
    exact ⟨hc, congrArg frameOf h3⟩

namespace System

variable {p0 : Pmm} {c c' : System}

theorem kernel_mem (c : System) : frameOf c.vm.gKernelCr3Phys ∈ c.roots :=
  ⟨_, List.mem_cons_self, rfl⟩

theorem space_mem {space : VmmSpace} (h : space ∈ c.spaces) : frameOf space.pml4Phys ∈ c.roots :=
  ⟨_, List.mem_cons_of_mem _ (List.mem_map_of_mem h), rfl⟩

theorem roots_congr {s : Vm} {live : List Pmm.Block} (h : s.gKernelCr3Phys = c.vm.gKernelCr3Phys) :
    (System.mk s c.spaces live).roots = c.roots := by
  simp only [roots, cr3s, h]

theorem start_roots (s : Vm) : (start s).roots = {frameOf s.cr3} := by
  ext f
  simp [roots, cr3s, start, Vm.vmmInit, ← frameOf_tableOf s.cr3, Vm.tableOf, eq_comm]

theorem start_inv {s : Vm} (hs : s.Inv {frameOf s.cr3}) : (start s).Inv s.pmm := by
  have hroots := start_roots s
  have hvm : (start s).vm.Inv (start s).roots := by
    rw [hroots]
    exact ⟨hs.forest, hs.used, hs.zero, hs.width, hs.low⟩
  have hnone : s.pmm.usedFrames ∪ (start s).tableFrames s.pmm = s.pmm.usedFrames := by
    rw [Set.union_eq_left]
    rintro f ⟨hf, k, hk⟩
    exact absurd hf (hvm.used k f hk)
  refine ⟨hvm, hs.zero, ⟨_, List.mem_cons_self, frameOf_tableOf s.cr3⟩, List.nodup_singleton _, ?_⟩
  rw [hnone]
  exact .start s.pmm

theorem Inv.owns_grown (h : c.Inv p0) {s' : Vm} {roots' : Set ℕ}
    (htable : ∀ k f, pageTables.At c.roots c.vm.ram.word k f → pageTables.At roots' s'.ram.word k f)
    (hgrown : ∀ k f, pageTables.At roots' s'.ram.word k f →
      pageTables.At c.roots c.vm.ram.word k f ∨ c.vm.pmm.Free f)
    (htest : ∀ f, s'.pmm.bitmapTest f = true ↔ c.vm.pmm.bitmapTest f = true ∨
      c.vm.pmm.Free f ∧ ∃ k, pageTables.At roots' s'.ram.word k f)
    (hsetup : Pmm.SameSetup c.vm.pmm s'.pmm) :
    Pmm.Owns p0 (p0.usedFrames ∪ {f | p0.Free f ∧ ∃ k, pageTables.At roots' s'.ram.word k f})
      s'.pmm c.live := by
  have hmore : Pmm.Owns p0 (p0.usedFrames ∪ c.tableFrames p0 ∪
      {f | c.vm.pmm.Free f ∧ ∃ k, pageTables.At roots' s'.ram.word k f}) s'.pmm c.live :=
    h.owns.reserve hsetup htest fun f hf => hf.1
  have hset : p0.usedFrames ∪ c.tableFrames p0 ∪
      {f | c.vm.pmm.Free f ∧ ∃ k, pageTables.At roots' s'.ram.word k f} =
      p0.usedFrames ∪ {f | p0.Free f ∧ ∃ k, pageTables.At roots' s'.ram.word k f} := by
    rw [Set.union_assoc]
    congr 1
    ext f
    constructor
    · rintro (⟨hf, k, hk⟩ | ⟨hf, hk⟩)
      · exact ⟨hf, k, htable k f hk⟩
      · exact ⟨(h.owns.free_base hf).1, hk⟩
    · rintro ⟨hf, k, hk⟩
      obtain hold | hfree := hgrown k f hk
      · exact .inl ⟨hf, k, hold⟩
      · exact .inr ⟨hfree, k, hk⟩
  rwa [hset] at hmore

theorem Inv.pageChange (h : c.Inv p0) {s' : Vm} {r : ℕ} {virt : U64}
    (hc : PageChange c.roots r virt c.vm s') (h3 : frameOf s'.cr3 = frameOf c.vm.cr3) :
    Inv p0 { c with vm := s' } := by
  have hroots : System.roots { c with vm := s' } = c.roots := roots_congr hc.gKernelCr3Phys
  constructor
  · rw [hroots]
    exact hc.inv
  · exact h.zero
  · rw [hroots, h3]
    exact h.active
  · rw [cr3s, hc.gKernelCr3Phys]
    exact h.apart
  · rw [tableFrames, hroots]
    exact h.owns_grown hc.table hc.grown hc.test hc.setup

theorem Inv.root_mem (h : c.Inv p0) {call : PageCall}
    (hcall : ∀ sp, call.space = some sp → sp ∈ c.spaces) : frameOf (call.root c.vm) ∈ c.roots := by
  unfold PageCall.root
  cases hsp : call.space with
  | none => exact h.active
  | some sp => exact space_mem (hcall sp hsp)

theorem Inv.page (h : c.Inv p0) {call : PageCall}
    (hcall : ∀ sp, call.space = some sp → sp ∈ c.spaces) : (c.page call).Inv p0 := by
  obtain ⟨hc, h3⟩ := call.change h.vm (h.root_mem hcall)
  exact h.pageChange hc h3

theorem roots_created {s' : Vm} {phys : U64} {f : ℕ} (hc : Created c.roots c.vm s' phys f) :
    System.roots ⟨s', ⟨phys⟩ :: c.spaces, c.live⟩ = insert f c.roots := by
  ext g
  simp only [roots, cr3s, hc.gKernelCr3Phys, List.map_cons, List.mem_cons, Set.mem_ofPred_eq,
    Set.mem_insert_iff, or_and_right, exists_or, exists_eq_left, hc.frame]
  tauto

theorem Inv.created (h : c.Inv p0) {s' : Vm} {phys : U64} {f : ℕ}
    (hc : Created c.roots c.vm s' phys f) : Inv p0 ⟨s', ⟨phys⟩ :: c.spaces, c.live⟩ := by
  have hf : frameOf phys = f := hc.frame
  have hroots := roots_created hc
  have hfresh : f ∉ c.roots := fun hr => h.vm.used 0 f (.root hr) hc.free
  constructor
  · rw [hroots]
    exact hc.inv
  · exact h.zero
  · rw [hroots, hc.cr3]
    exact .inr h.active
  · have hperm : (cr3s ⟨s', ⟨phys⟩ :: c.spaces, c.live⟩).Perm (phys :: c.cr3s) := by
      rw [cr3s, cr3s, hc.gKernelCr3Phys]
      exact .swap _ _ _
    rw [(hperm.map frameOf).nodup_iff, List.map_cons, List.nodup_cons, hf]
    refine ⟨fun hmem => hfresh ?_, h.apart⟩
    exact List.mem_map.mp hmem
  · rw [tableFrames, hroots]
    exact h.owns_grown hc.table hc.grown hc.test hc.setup

theorem Inv.client (h : c.Inv p0) {p : Pmm} {live : List Pmm.Block}
    (hstep : Pmm.ClientStep (c.vm.pmm, c.live) (p, live)) :
    Inv p0 ⟨{ c.vm with pmm := p }, c.spaces, live⟩ := by
  have howns := h.owns.step h.vm.zero hstep
  refine ⟨⟨h.vm.forest, ?_, ?_, ?_, h.vm.low⟩, h.zero, h.active, h.apart, howns⟩
  · intro k f hat hfree
    obtain ⟨hf, hr⟩ := howns.free_base hfree
    exact hr ⟨hf, k, hat⟩
  · exact fun hfree => h.zero (howns.free_base hfree).1
  · have hw := h.vm.width
    rw [h.owns.setup.total] at hw
    rw [howns.setup.total]
    exact hw

theorem Inv.write_word (h : c.Inv p0) {b : Pmm.Block} {phys : U64} (hb : b ∈ c.live)
    (hphys : frameOf phys ∈ b.frames) (i : BitVec 9) (e : U64) {k f : ℕ}
    (hf : pageTables.At c.roots c.vm.ram.word k f) :
    (c.vm.store phys i e).ram.word f = c.vm.ram.word f := by
  funext j
  rw [Vm.store_word, if_neg]
  rintro ⟨rfl, -⟩
  obtain ⟨hfree, hr⟩ := h.owns.fresh_base hb hphys
  exact hr ⟨hfree, k, hf⟩

theorem Inv.write (h : c.Inv p0) {b : Pmm.Block} {phys : U64} (hb : b ∈ c.live)
    (hphys : frameOf phys ∈ b.frames) (i : BitVec 9) (e : U64) :
    Inv p0 { c with vm := c.vm.store phys i e } := by
  have hinner : SameInner pageTables c.roots c.vm.ram.word (c.vm.store phys i e).ram.word :=
    fun k f hf _ j => congrFun (h.write_word hb hphys i e hf) j
  have htables : System.tableFrames p0 { c with vm := c.vm.store phys i e } = c.tableFrames p0 := by
    ext f
    exact and_congr_right fun _ => exists_congr fun k => hinner.at_iff
  refine ⟨⟨hinner.forest h.vm.forest, fun k f hat => ?_, h.vm.zero, h.vm.width, h.vm.low⟩, h.zero,
    h.active, h.apart, ?_⟩
  · exact h.vm.used k f (hinner.at_iff.mp hat)
  · rw [htables]
    exact h.owns

theorem Inv.pageMmio (h : c.Inv p0) (v p flags : U64) :
    Inv p0 { c with vm := (c.vm.vmmMapPageMmio v p flags).1 } := by
  have hpage : (c.page (.mapMmio v p flags)).Inv p0 := h.page (by simp [PageCall.space])
  exact hpage

theorem Inv.mmioMap (h : c.Inv p0) (hhdmOffset phys size : U64) (opts : Option MmioOpts) :
    Inv p0 { c with vm := (c.vm.mmioMap hhdmOffset phys size opts).1 } := by
  apply Vm.mmioMap_induction (P := fun s => Inv p0 { c with vm := s }) _ h
  intro s v p flags hs
  exact hs.pageMmio v p flags

theorem Inv.step (h : c.Inv p0) (hs : Step c c') : c'.Inv p0 := by
  cases hs with
  | client hstep => exact h.client hstep
  | write hb hphys => exact h.write hb hphys _ _
  | page call hcall => exact h.page hcall
  | mmioMap => exact h.mmioMap _ _ _ _
  | create =>
    obtain he | ⟨s', phys, f, he, hphys, hc⟩ := vmmCreateSpace_cases h.vm c.kernel_mem
    · rw [create, he]
      exact h
    · rw [create, he]
      dsimp only
      rw [if_neg hphys]
      exact h.created hc
  | @switch space hspace =>
    rw [Vm.vmmSwitchSpace]
    split_ifs
    · exact h
    · exact ⟨h.vm.setCr3 _, h.zero, space_mem hspace, h.apart, h.owns⟩

theorem Inv.run (h : c.Inv p0) (hrun : ReflTransGen Step c c') : c'.Inv p0 := by
  induction hrun with
  | refl => exact h
  | tail _ hs ih => exact ih.step hs

end System

end Mcincos
