import Mcincos.Vmm.Vmm

namespace Mcincos

open Words Pmm

theorem toNat_tableOf (e : U64) : (Vm.tableOf e).toNat = e.toNat / 4096 * 4096 :=
  toNat_and_not_low e 12

@[simp] theorem frameOf_tableOf (e : U64) : frameOf (Vm.tableOf e) = frameOf e := by
  rw [frameOf, frameOf, toNat_tableOf]
  omega

theorem toNat_vmAlignDown (x : U64) : (Vm.alignDown x).toNat = x.toNat / 4096 * 4096 :=
  toNat_and_not_low x 12

namespace Vm

variable (s : Vm)

theorem load_eq (phys : U64) (i : BitVec 9) : s.load phys i = s.ram.word (frameOf phys) i := rfl

theorem store_word (phys : U64) (i : BitVec 9) (e : U64) (f : ℕ) (j : BitVec 9) :
    (s.store phys i e).ram.word f j =
      if f = frameOf phys ∧ j = i then e else s.ram.word f j := rfl

@[simp] theorem store_stores (phys : U64) (i : BitVec 9) (e : U64) :
    (s.store phys i e).ram.stores = (frameOf phys, i) :: s.ram.stores := rfl

@[simp] theorem store_pmm (phys : U64) (i : BitVec 9) (e : U64) :
    (s.store phys i e).pmm = s.pmm := rfl

@[simp] theorem store_cr3 (phys : U64) (i : BitVec 9) (e : U64) :
    (s.store phys i e).cr3 = s.cr3 := rfl

@[simp] theorem store_gKernelCr3Phys (phys : U64) (i : BitVec 9) (e : U64) :
    (s.store phys i e).gKernelCr3Phys = s.gKernelCr3Phys := rfl

structure PageStores (s s' : Vm) (f : ℕ) (is : List (BitVec 9)) : Prop where
  pmm : s'.pmm = s.pmm
  cr3 : s'.cr3 = s.cr3
  gKernelCr3Phys : s'.gKernelCr3Phys = s.gKernelCr3Phys
  other : ∀ g j, ¬(g = f ∧ j ∈ is) → s'.ram.word g j = s.ram.word g j
  stores : s'.ram.stores = (is.map fun i => (f, i)).reverse ++ s.ram.stores

theorem foldl_store (phys : U64) (val : Vm → BitVec 9 → U64) (is : List (BitVec 9)) :
    PageStores s (is.foldl (fun s i => s.store phys i (val s i)) s) (frameOf phys) is := by
  induction is generalizing s with
  | nil => exact ⟨rfl, rfl, rfl, fun _ _ _ => rfl, rfl⟩
  | cons i is ih =>
    obtain ⟨h1, h2, h3, h4, h5⟩ := ih (s.store phys i (val s i))
    refine ⟨h1, h2, h3, fun g j hg => ?_, ?_⟩
    · rw [List.foldl_cons, h4 g j (fun hc => hg ⟨hc.1, List.mem_cons_of_mem i hc.2⟩), store_word,
        if_neg (fun hc : g = _ ∧ j = i => hg ⟨hc.1, hc.2 ▸ List.mem_cons_self⟩)]
    · rw [List.foldl_cons, h5]
      simp

theorem foldl_store_word (phys : U64) (val : Vm → BitVec 9 → U64) (v : BitVec 9 → U64)
    (is : List (BitVec 9)) (hv : val s = v)
    (hval : ∀ t i, val t = v → val (t.store phys i (v i)) = v) {j : BitVec 9} (hj : j ∈ is) :
    (is.foldl (fun s i => s.store phys i (val s i)) s).ram.word (frameOf phys) j = v j := by
  induction is generalizing s with
  | nil => exact absurd hj (by simp)
  | cons i is ih =>
    rw [List.foldl_cons, hv]
    by_cases hmem : j ∈ is
    · exact ih _ (hval s i hv) hmem
    · obtain rfl := (List.mem_cons.mp hj).resolve_right hmem
      rw [(foldl_store _ phys val is).other _ _ (fun hc => hmem hc.2), store_word, if_pos ⟨rfl, rfl⟩]

def indices : List (BitVec 9) := (List.range 512).map (BitVec.ofNat 9)
def kernelIndices : List (BitVec 9) := (List.range' 256 256).map (BitVec.ofNat 9)

theorem mem_indices (i : BitVec 9) : i ∈ indices :=
  List.mem_map.mpr ⟨i.toNat, List.mem_range.mpr i.isLt, BitVec.ofNat_toNat 9 i⟩

theorem mem_kernelIndices (i : BitVec 9) : i ∈ kernelIndices ↔ 256 ≤ i.toNat := by
  simp only [kernelIndices, List.mem_map, List.mem_range'_1]
  constructor
  · rintro ⟨k, hk, rfl⟩
    rw [BitVec.toNat_ofNat]
    omega
  · intro h
    exact ⟨i.toNat, ⟨h, i.isLt⟩, BitVec.ofNat_toNat 9 i⟩

theorem zeroPage_eq (phys : U64) :
    s.zeroPage phys = indices.foldl (fun s i => s.store phys i 0) s := by
  rw [zeroPage, indices, List.foldl_map]

theorem copyKernelHalf_eq (src dst : U64) :
    s.copyKernelHalf src dst = kernelIndices.foldl (fun s i => s.store dst i (s.load src i)) s := by
  rw [copyKernelHalf, kernelIndices, List.foldl_map]

theorem zeroPage_stores (phys : U64) : PageStores s (s.zeroPage phys) (frameOf phys) indices := by
  rw [zeroPage_eq]
  exact foldl_store s phys (fun _ _ => 0) indices

theorem zeroPage_word (phys : U64) (i : BitVec 9) :
    (s.zeroPage phys).ram.word (frameOf phys) i = 0 := by
  rw [zeroPage_eq]
  exact foldl_store_word s phys (fun _ _ => 0) (fun _ => 0) indices rfl (fun _ _ _ => rfl)
    (mem_indices i)

theorem copyKernelHalf_stores (src dst : U64) :
    PageStores s (s.copyKernelHalf src dst) (frameOf dst) kernelIndices := by
  rw [copyKernelHalf_eq]
  exact foldl_store s dst (fun s i => s.load src i) kernelIndices

theorem copyKernelHalf_word {src dst : U64} (hne : frameOf src ≠ frameOf dst) {i : BitVec 9}
    (hi : 256 ≤ i.toNat) :
    (s.copyKernelHalf src dst).ram.word (frameOf dst) i = s.ram.word (frameOf src) i := by
  rw [copyKernelHalf_eq]
  apply foldl_store_word s dst (fun s i => s.load src i) (fun i => s.load src i) kernelIndices rfl
    ?_ ((mem_kernelIndices i).mpr hi)
  intro t j ht
  rw [← ht]
  funext k
  exact if_neg fun hc => hne hc.1

structure NewPage (s s' : Vm) (phys : U64) (f : ℕ) : Prop where
  address : phys.toNat = 4096 * f
  free : s.pmm.Free f
  first : ∀ g < f, ¬s.pmm.Free g
  test : ∀ g, s'.pmm.bitmapTest g = (decide (g = f) || s.pmm.bitmapTest g)
  setup : SameSetup s.pmm s'.pmm
  row : ∀ i, s'.ram.word f i = 0
  other : ∀ g, g ≠ f → s'.ram.word g = s.ram.word g
  cr3 : s'.cr3 = s.cr3
  gKernelCr3Phys : s'.gKernelCr3Phys = s.gKernelCr3Phys
  stores : s'.ram.stores = (indices.map fun i => (f, i)).reverse ++ s.ram.stores

theorem NewPage.frame {s s' : Vm} {phys : U64} {f : ℕ} (h : NewPage s s' phys f) :
    frameOf phys = f := by
  rw [frameOf, h.address]
  exact Nat.mul_div_cancel_left f (by decide)

/-- The outcomes of `alloc_pt_page_phys`. With frame 0 free a page may be taken and lost. -/
theorem allocPtPagePhys_cases :
    (s.allocPtPagePhys = (s, 0) ∧ ∀ f, ¬s.pmm.Free f) ∨
    (∃ q, s.allocPtPagePhys = ({ s with pmm := q }, 0) ∧ s.pmm.Free 0 ∧ Allocated s.pmm q 1 0) ∨
    ∃ s' phys f, s.allocPtPagePhys = (s', phys) ∧ f ≠ 0 ∧ phys ≠ 0 ∧ NewPage s s' phys f := by
  obtain ⟨he, hnone⟩ | ⟨q, f, he, ha⟩ := pmmAllocPages_cases s.pmm 1 (by decide)
  · refine .inl ⟨by simp only [allocPtPagePhys, he, ↓reduceIte], fun f hf => hnone f ?_⟩
    intro j hj
    have hj0 : j = 0 := Nat.lt_one_iff.mp hj
    exact hj0.symm ▸ hf
  · have haddr := ha.toNat_address
    have hfree : s.pmm.Free f := ha.free 0 (by decide)
    by_cases hf : f = 0
    · subst hf
      refine .inr (.inl ⟨q, ?_, hfree, ha⟩)
      simp only [allocPtPagePhys, he, show BitVec.ofNat 64 0 * pageSize = 0 from rfl, ↓reduceIte]
    · have hphys : BitVec.ofNat 64 f * pageSize ≠ 0 := by
        intro h0
        rw [h0] at haddr
        exact hf (by simpa using haddr.symm)
      have hframe : frameOf (BitVec.ofNat 64 f * pageSize) = f := by
        rw [frameOf, haddr]
        exact Nat.mul_div_cancel_left f (by decide)
      refine .inr (.inr ⟨{ s with pmm := q }.zeroPage (BitVec.ofNat 64 f * pageSize), _, f,
        ?_, hf, hphys, ?_⟩)
      · simp only [allocPtPagePhys, he, if_neg hphys]
      · obtain ⟨h1, h2, h3, h4, h5⟩ :=
          zeroPage_stores { s with pmm := q } (BitVec.ofNat 64 f * pageSize)
        rw [hframe] at h4 h5
        have hfirst : ∀ g < f, ¬s.pmm.Free g := by
          intro g hg hgfree
          refine ha.first g hg fun j hj => ?_
          have hj0 : j = 0 := Nat.lt_one_iff.mp hj
          exact hj0.symm ▸ hgfree
        refine ⟨haddr, hfree, hfirst, fun g => ?_, ?_, fun i => ?_, fun g hg => ?_, h2, h3, h5⟩
        · have hone : (f ≤ g ∧ g < f + (1 : U64).toNat) ↔ g = f := by
            rw [show (1 : U64).toNat = 1 from rfl]
            omega
          rw [h1, ha.test, decide_eq_decide.mpr hone]
        · rw [h1]
          exact ha.setup
        · have := zeroPage_word { s with pmm := q } (BitVec.ofNat 64 f * pageSize) i
          rwa [hframe] at this
        · funext j
          exact h4 g j fun hc => hg hc.1

theorem allocPtPagePhys_eq_zero : s.allocPtPagePhys.2 = 0 ↔ s.pmm.Free 0 ∨ ∀ f, ¬s.pmm.Free f := by
  obtain ⟨he, hnone⟩ | ⟨q, he, hzero, -⟩ | ⟨s', phys, f, he, hf, hphys, h⟩ := s.allocPtPagePhys_cases
  · exact iff_of_true (by rw [he]) (.inr hnone)
  · exact iff_of_true (by rw [he]) (.inl hzero)
  · refine iff_of_false (by rw [he]; exact hphys) ?_
    rintro (hzero | hnone)
    · exact h.first 0 (Nat.pos_of_ne_zero hf) hzero
    · exact hnone f h.free

end Vm

end Mcincos
