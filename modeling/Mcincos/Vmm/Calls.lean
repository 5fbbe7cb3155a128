import Mcincos.Vmm.CpuTables
import Mcincos.Vmm.Mmio

namespace Mcincos

open Words Radix

variable {roots : Set ℕ} {s s' s1 : Vm} {r : ℕ} {virt flags : U64}

theorem Vm.Inv.setCr3 (hs : s.Inv roots) (x : U64) : { s with cr3 := x }.Inv roots :=
  ⟨hs.forest, hs.used, hs.zero, hs.width, hs.low⟩

structure PageChange (roots : Set ℕ) (r : ℕ) (virt : U64) (s s' : Vm) : Prop where
  inv : s'.Inv roots
  old : ∀ r' ∈ roots, ∀ q : List (BitVec 9), q.length ≤ 3 → ∀ e,
    pageTables.get s.ram.word r' q = some e → pageTables.get s'.ram.word r' q = some e
  same : ∀ r' ∈ roots, ∀ i is, is.length ≤ 3 →
    i ≠ Vm.idxPml4 virt ∨ r' ≠ r ∧ ¬pageTables.shared i →
    pageTables.get s'.ram.word r' (i :: is) = pageTables.get s.ram.word r' (i :: is)
  table : ∀ k f, pageTables.At roots s.ram.word k f → pageTables.At roots s'.ram.word k f
  grown : ∀ k f, pageTables.At roots s'.ram.word k f →
    pageTables.At roots s.ram.word k f ∨ s.pmm.Free f
  test : ∀ f, s'.pmm.bitmapTest f = true ↔
    s.pmm.bitmapTest f = true ∨ s.pmm.Free f ∧ ∃ k, pageTables.At roots s'.ram.word k f
  setup : Pmm.SameSetup s.pmm s'.pmm
  gKernelCr3Phys : s'.gKernelCr3Phys = s.gKernelCr3Phys

theorem PageChange.refl (hs : s.Inv roots) : PageChange roots r virt s s where
  inv := hs
  old := fun _ _ _ _ _ h => h
  same := fun _ _ _ _ _ _ => rfl
  table := fun _ _ h => h
  grown := fun _ _ h => .inl h
  test := fun f => ⟨.inl, fun h => h.elim id fun ⟨hf, k, hk⟩ => absurd hf (hs.used k f hk)⟩
  setup := .refl _
  gKernelCr3Phys := rfl

theorem PageChange.setCr3 {x y : U64} (h : PageChange roots r virt { s with cr3 := x } s') :
    PageChange roots r virt s { s' with cr3 := y } :=
  ⟨h.inv.setCr3 y, h.old, h.same, h.table, h.grown, h.test, h.setup, h.gKernelCr3Phys⟩

theorem Extends.pageChange (h : Extends roots r (innerPath virt) flags s s') :
    PageChange roots r virt s s' where
  inv := h.inv
  old := fun r' hr q hq => h.old r' hr q (by omega)
  same := by
    intro r' hr i is his hi
    have hlen : (i :: is).length ≤ 4 := Nat.succ_le_succ his
    cases hnone : pageTables.get s.ram.word r' (i :: is) with
    | some e => exact h.old r' hr _ hlen e hnone
    | none =>
      rw [Option.eq_none_iff_forall_ne_some]
      intro e he
      obtain ⟨hq, -, hroot⟩ := h.new r' hr _ hlen e hnone he
      have hhead : i = Vm.idxPml4 virt := (List.cons_prefix_cons.mp hq).1
      obtain hi | ⟨hr', hshared⟩ := hi
      · exact hi hhead
      · obtain hroot | ⟨j, js, hj, hshared'⟩ := hroot
        · exact hr' hroot
        · obtain ⟨rfl, -⟩ := List.cons.inj hj
          exact hshared hshared'
  table := h.table
  grown := h.grown
  test := h.test
  setup := h.setup
  gKernelCr3Phys := h.gKernelCr3Phys

theorem LeafStored.pageChange {pt : ℕ} {e : U64} (hl : LeafStored s1 s' pt (Vm.idxPt virt) e)
    (h : Extends roots r (innerPath virt) flags s s1) (hr : r ∈ roots)
    (hd : pageTables.descend s1.ram.word r (innerPath virt) = some pt) :
    PageChange roots r virt s s' := by
  have hx := h.pageChange
  have hpt : pageTables.At roots s1.ram.word 3 pt := descend_at (.root hr) (le_refl 3) hd
  constructor
  · exact hl.inv h.inv hpt
  · intro r' hr' q hq e he
    rw [hl.get_inner h.inv hpt hr' hq]
    exact hx.old r' hr' q hq e he
  · intro r' hr' i is his hi
    have hlen : (i :: is).length ≤ 4 := Nat.succ_le_succ his
    rw [hl.get h.inv hpt hr' hlen, if_neg]
    · exact hx.same r' hr' i is his hi
    · intro hslot
      obtain ⟨hq, ht⟩ := h.inv.slot_iff hr hr' rfl hlen hd hslot
      have hhead : i = Vm.idxPml4 virt := (List.cons.inj hq).1
      obtain hi | ⟨hne, hshared⟩ := hi
      · exact hi hhead
      · obtain ht | ⟨j, js, hj, hshared', -⟩ := ht
        · exact hne ht
        · have : Vm.idxPml4 virt = j := (List.cons.inj hj).1
          rw [← this, ← hhead] at hshared'
          exact hshared hshared'
  · exact fun k f hf => (hl.at_iff h.inv hpt).mpr (hx.table k f hf)
  · exact fun k f hf => hx.grown k f ((hl.at_iff h.inv hpt).mp hf)
  · intro f
    simp only [hl.pmm, hl.at_iff h.inv hpt]
    exact hx.test f
  · rw [hl.pmm]
    exact hx.setup
  · exact hl.gKernelCr3Phys.trans hx.gKernelCr3Phys

theorem PageChange.cpuWalk_eq (h : PageChange roots r virt s s') (hs : s.Inv roots) {p va : U64}
    (hp : frameOf p ∈ roots)
    (hva : Vm.idxPml4 va ≠ Vm.idxPml4 virt ∨ frameOf p ≠ r ∧ (Vm.idxPml4 va).toNat < 256) :
    cpuWalk s'.ram p va = cpuWalk s.ram p va := by
  apply cpuWalk_congr hs h.inv hp hp
  intro is his
  apply h.same _ hp _ is his
  exact hva.imp id (And.imp id Nat.not_le.mpr)

theorem mapPage_change (hs : s.Inv roots) {cr3 : U64} (hr : frameOf cr3 ∈ roots)
    (virt phys flags : U64) :
    PageChange roots (frameOf cr3) virt s (s.mapPage cr3 virt phys flags).1 ∧
      (s.mapPage cr3 virt phys flags).1.cr3 = s.cr3 := by
  obtain ⟨s', he, hx, -⟩ | ⟨s1, s', pt, he, hx, hd, hl⟩ := mapPage_spec hs hr virt phys flags
  · rw [he]
    exact ⟨hx.pageChange, hx.cr3⟩
  · rw [he]
    exact ⟨hl.pageChange hx hr hd, hl.cr3.trans hx.cr3⟩

theorem vmmUnmapPageCr3_change (hs : s.Inv roots) {cr3 : U64} (hr : frameOf cr3 ∈ roots)
    (virt : U64) :
    PageChange roots (frameOf cr3) virt s (s.vmmUnmapPageCr3 cr3 virt).1 ∧
      (s.vmmUnmapPageCr3 cr3 virt).1.cr3 = s.cr3 := by
  obtain ⟨he, -⟩ | ⟨s', pt, he, hd, hl⟩ := vmmUnmapPageCr3_spec s cr3 virt
  · rw [he]
    exact ⟨.refl hs, rfl⟩
  · have hx : Extends roots (frameOf cr3) (innerPath virt) 0 s s := .refl hs
    rw [he]
    exact ⟨hl.pageChange hx hr hd, hl.cr3⟩

theorem inSpace_change (hs : s.Inv roots) {space : VmmSpace} {call : Vm → Vm × Int}
    (hcall : ∀ t : Vm, t.Inv roots → PageChange roots (frameOf space.pml4Phys) virt t (call t).1) :
    PageChange roots (frameOf space.pml4Phys) virt s (s.inSpace space call).1 := by
  unfold Vm.inSpace
  by_cases hz : space.pml4Phys = 0
  · rw [if_pos hz]
    exact .refl hs
  · rw [if_neg hz]
    exact (hcall _ (hs.setCr3 space.pml4Phys)).setCr3

theorem inSpace_cr3 (s : Vm) (space : VmmSpace) (call : Vm → Vm × Int) :
    frameOf (s.inSpace space call).1.cr3 = frameOf s.cr3 := by
  unfold Vm.inSpace
  by_cases hz : space.pml4Phys = 0
  · rw [if_pos hz]
  · rw [if_neg hz]
    exact frameOf_tableOf s.cr3

structure Created (roots : Set ℕ) (s s' : Vm) (phys : U64) (f : ℕ) : Prop where
  address : phys.toNat = 4096 * f
  free : s.pmm.Free f
  inv : s'.Inv (insert f roots)
  get_old : ∀ r ∈ roots, ∀ q : List (BitVec 9), q.length ≤ 4 →
    pageTables.get s'.ram.word r q = pageTables.get s.ram.word r q
  get_shared : ∀ i is, is.length ≤ 3 → pageTables.shared i →
    pageTables.get s'.ram.word f (i :: is) =
      pageTables.get s.ram.word (frameOf s.gKernelCr3Phys) (i :: is)
  get_empty : ∀ i is, ¬pageTables.shared i → pageTables.get s'.ram.word f (i :: is) = none
  table : ∀ k g, pageTables.At roots s.ram.word k g → pageTables.At (insert f roots) s'.ram.word k g
  grown : ∀ k g, pageTables.At (insert f roots) s'.ram.word k g →
    pageTables.At roots s.ram.word k g ∨ s.pmm.Free g
  test : ∀ g, s'.pmm.bitmapTest g = true ↔ s.pmm.bitmapTest g = true ∨
    s.pmm.Free g ∧ ∃ k, pageTables.At (insert f roots) s'.ram.word k g
  setup : Pmm.SameSetup s.pmm s'.pmm
  cr3 : s'.cr3 = s.cr3
  gKernelCr3Phys : s'.gKernelCr3Phys = s.gKernelCr3Phys

theorem Created.frame {phys : U64} {f : ℕ} (h : Created roots s s' phys f) : frameOf phys = f := by
  rw [frameOf, h.address]
  exact Nat.mul_div_cancel_left f (by decide)

theorem newPage_created {phys : U64} {f : ℕ} (hs : s.Inv roots)
    (hk : frameOf s.gKernelCr3Phys ∈ roots) (h : Vm.NewPage s s1 phys f) :
    Created roots s (s1.copyKernelHalf s.gKernelCr3Phys phys) phys f := by
  have hcopy := s1.copyKernelHalf_stores s.gKernelCr3Phys phys
  rw [h.frame] at hcopy
  have hne : frameOf s.gKernelCr3Phys ≠ f := fun he => hs.used 0 f (.root (he ▸ hk)) h.free
  have hfresh (k : ℕ) : ¬pageTables.At roots s.ram.word k f := fun hf => hs.used k f hf h.free
  have hrow (g : ℕ) (hg : g ≠ f) :
      (s1.copyKernelHalf s.gKernelCr3Phys phys).ram.word g = s.ram.word g := by
    funext j
    rw [hcopy.other g j fun hc => hg hc.1, h.other g hg]
  have hat (k g : ℕ) (hg : pageTables.At roots s.ram.word k g) :
      (s1.copyKernelHalf s.gKernelCr3Phys phys).ram.word g = s.ram.word g :=
    hrow g fun he => hfresh k (he ▸ hg)
  have hinner : SameInner pageTables roots s.ram.word
      (s1.copyKernelHalf s.gKernelCr3Phys phys).ram.word := fun k g hg _ j => congrFun (hat k g hg) j
  have hclone : Cloned pageTables roots (s1.copyKernelHalf s.gKernelCr3Phys phys).ram.word
      (frameOf s.gKernelCr3Phys) f := by
    refine ⟨hk, by decide, fun k hf => hfresh k (hinner.at_iff.mp hf), fun i hi => ?_, fun i hi => ?_⟩
    · have hne' : frameOf s.gKernelCr3Phys ≠ frameOf phys := by rwa [h.frame]
      have hword := s1.copyKernelHalf_word hne' hi
      rw [h.frame] at hword
      rw [hword, hrow _ hne, h.other _ hne]
    · rw [hcopy.other f i fun hc => hi ((Vm.mem_kernelIndices i).mp hc.2), h.row]
      exact child_eq_none.mpr BitVec.zero_and
  have hfree (g : ℕ) : (s1.copyKernelHalf s.gKernelCr3Phys phys).pmm.Free g ↔ s.pmm.Free g ∧ g ≠ f := by
    rw [hcopy.pmm]
    simp only [Pmm.Free, h.setup.total, h.test, Bool.or_eq_false_iff, decide_eq_false_iff_not]
    tauto
  have hgrown (k g : ℕ)
      (hg : pageTables.At (insert f roots) (s1.copyKernelHalf s.gKernelCr3Phys phys).ram.word k g) :
      pageTables.At roots s.ram.word k g ∨ g = f :=
    (hclone.at_cases hg).imp hinner.at_iff.mp And.right
  constructor
  · exact h.address
  · exact h.free
  · constructor
    · exact hclone.forest (hinner.forest hs.forest)
    · intro k g hg hf
      rw [hfree] at hf
      exact (hgrown k g hg).elim (fun hold => hs.used k g hold hf.1) hf.2
    · exact fun hz => hs.zero ((hfree 0).mp hz).1
    · rw [hcopy.pmm, h.setup.total]
      exact hs.width
    · rintro g (rfl | hg)
      · exact h.free.1.trans_le hs.width
      · exact hs.low g hg
  · exact fun r hr q hq => get_congr hat (.root hr) (by rw [Nat.zero_add]; exact hq)
  · intro i is his hi
    rw [hclone.get_shared hi]
    exact get_congr hat (.root hk) (by rw [Nat.zero_add]; exact Nat.succ_le_succ his)
  · exact fun i is hi => hclone.get_empty hi is
  · exact fun k g hg => Cloned.at_mono (hinner.at_iff.mpr hg)
  · intro k g hg
    apply (hgrown k g hg).imp id
    rintro rfl
    exact h.free
  · intro g
    rw [hcopy.pmm, h.test g, Bool.or_eq_true, decide_eq_true_eq, or_comm]
    refine or_congr_right ⟨?_, ?_⟩
    · rintro rfl
      exact ⟨h.free, 0, .root (.inl rfl)⟩
    · rintro ⟨hg, k, hk⟩
      exact (hgrown k g hk).resolve_left fun hold => hs.used k g hold hg
  · rw [hcopy.pmm]
    exact h.setup
  · rw [hcopy.cr3, h.cr3]
  · rw [hcopy.gKernelCr3Phys, h.gKernelCr3Phys]

theorem vmmCreateSpace_cases (hs : s.Inv roots) (hk : frameOf s.gKernelCr3Phys ∈ roots) :
    s.vmmCreateSpace = (s, ⟨0⟩) ∨
    ∃ s' phys f, s.vmmCreateSpace = (s', ⟨phys⟩) ∧ phys ≠ 0 ∧ Created roots s s' phys f := by
  obtain ⟨he, -⟩ | ⟨q, -, hz, -⟩ | ⟨s1, phys, f, he, -, hphys, h⟩ := s.allocPtPagePhys_cases
  · exact .inl (by simp only [Vm.vmmCreateSpace, he, ↓reduceIte])
  · exact absurd hz hs.zero
  · refine .inr ⟨_, phys, f, ?_, hphys, newPage_created hs hk h⟩
    simp only [Vm.vmmCreateSpace, he, hphys, ↓reduceIte, h.gKernelCr3Phys]

end Mcincos
