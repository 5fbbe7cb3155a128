import Mcincos.Vmm.CpuTables

namespace Mcincos

open Words Radix

@[ext]
structure Leaf where
  frame : U64
  bits : U64
  deriving DecidableEq

abbrev PageMap := BitVec 36 → Option Leaf

def pageMap (r : Ram) (cr3 : U64) : PageMap := fun page =>
  let walk := cpuWalk r cr3 (pageStart page)
  walk.leaf.bind fun e =>
    (walk.physical (pageStart page)).map fun phys => ⟨phys, e &&& ~~~0x000ffffffffff000#64⟩

inductive PageOp
  | map (virt phys flags : U64)
  | unmap (virt : U64)
  | alloc (pageCount : U64)

namespace PageOp

/-- Physical addresses have 52 bits and flags are the low 12 bits and PTE_NX. -/
def Valid : PageOp → Prop
  | map _ phys flags => phys.toNat < 2 ^ 52 ∧ flags &&& ~~~(0xfff#64 ||| pteNX) = 0
  | unmap _ => True
  | alloc _ => True

instance : DecidablePred Valid
  | map _ _ _ => inferInstanceAs (Decidable (_ ∧ _))
  | unmap _ => .isTrue trivial
  | alloc _ => .isTrue trivial

def exec (cr3 : U64) (s : Vm) : PageOp → Vm × Int
  | map virt phys flags => s.vmmMapPageCr3 cr3 virt phys flags
  | unmap virt => s.vmmUnmapPageCr3 cr3 virt
  | alloc pageCount => ({ s with pmm := (s.pmm.pmmAllocPages pageCount).1 }, 0)

def run (cr3 : U64) : Vm → List PageOp → Vm × List (PageOp × Int)
  | s, [] => (s, [])
  | s, op :: ops =>
    let (s, rc) := op.exec cr3 s
    let (s, trace) := run cr3 s ops
    (s, (op, rc) :: trace)

end PageOp

structure Space where
  pages : PageMap
  free : Set ℕ

def space (s : Vm) (cr3 : U64) : Space := ⟨pageMap s.ram cr3, {f | s.pmm.Free f}⟩

/-- The pages with frame 0 for page table: `ensure_pt` returns its address, and that is its failure value. -/
def underZero (r : Ram) (cr3 : U64) : Set (BitVec 36) :=
  {page | pageTables.descend r.word (frameOf cr3) (innerPath (pageStart page)) = some 0}

/-- The purpose of the operations, on a map of pages beside a pool of frames: what each result means. -/
inductive PageStep (zero : Set (BitVec 36)) : Space → PageOp → Int → Space → Prop
  | mapped {M : PageMap} {F F' : Set ℕ} {virt phys flags : U64} :
      F' ⊆ F → PageStep zero ⟨M, F⟩ (.map virt phys flags) 0 ⟨Function.update M (pageOf virt)
        (some ⟨phys &&& ~~~0xfff#64, flags &&& ~~~(ptePCD ||| ptePWT) ||| pteP⟩), F'⟩
  | mapFailed {M : PageMap} {F F' : Set ℕ} {virt phys flags : U64} :
      F' ⊆ F → F' = ∅ ∨ pageOf virt ∈ zero → PageStep zero ⟨M, F⟩ (.map virt phys flags) (-1) ⟨M, F'⟩
  | unmapped {M : PageMap} {F : Set ℕ} {virt : U64} :
      PageStep zero ⟨M, F⟩ (.unmap virt) 0 ⟨Function.update M (pageOf virt) none, F⟩
  | unmapFailed {M : PageMap} {F : Set ℕ} {virt : U64} :
      M (pageOf virt) = none → PageStep zero ⟨M, F⟩ (.unmap virt) (-1) ⟨M, F⟩
  | allocated {M : PageMap} {F F' : Set ℕ} {pageCount : U64} {rc : Int} :
      F' ⊆ F → PageStep zero ⟨M, F⟩ (.alloc pageCount) rc ⟨M, F'⟩

inductive PageRun (zero : Set (BitVec 36)) : Space → List (PageOp × Int) → Space → Prop
  | nil {S : Space} : PageRun zero S [] S
  | cons {S S' S'' : Space} {op : PageOp} {rc : Int} {trace : List (PageOp × Int)} :
      PageStep zero S op rc S' → PageRun zero S' trace S'' → PageRun zero S ((op, rc) :: trace) S''

def leafOf (e : U64) : Leaf := ⟨cpuAddr e, e &&& ~~~0x000ffffffffff000#64⟩

variable {roots : Set ℕ} {s s' : Vm}

theorem lowMask_bit (k : ℕ) : (0xfff#64).getLsbD k = decide (k < 12) := by
  rw [show 0xfff#64 = BitVec.ofNat 64 (2 ^ 12 - 1) from rfl, BitVec.getLsbD_ofNat,
    Nat.testBit_two_pow_sub_one, Bool.eq_iff_iff]
  simp
  omega

theorem pageStart_low (page : BitVec 36) : pageStart page &&& 0xfff#64 = 0#64 := by
  apply BitVec.eq_of_getLsbD_eq
  intro k _
  rw [BitVec.getLsbD_and, lowMask_bit, pageStart, BitVec.getLsbD_shiftLeft]
  by_cases h : k < 12 <;> simp [h]

theorem pageMap_eq (hs : s.Inv roots) {cr3 : U64} (hr : frameOf cr3 ∈ roots) (page : BitVec 36) :
    pageMap s.ram cr3 page =
      (pageTables.get s.ram.word (frameOf cr3) (pagePath (pageStart page))).map leafOf := by
  obtain ⟨hw, hg⟩ | ⟨e4, e3, e2, e1, hw, -, -, -, hg⟩ := cpuWalk_cases hs hr (pageStart page)
  · rw [pageMap, hw, hg]
    rfl
  · rw [pageMap, hw, hg]
    simp only [CpuWalk.leaf, CpuWalk.entries, CpuWalk.physical, pageStart_low, BitVec.or_zero,
      Option.map_some]
    rfl

theorem pageMap_congr (hs : s.Inv roots) (hs' : s'.Inv roots) {cr3 : U64}
    (hr : frameOf cr3 ∈ roots)
    (h : ∀ q : List (BitVec 9), q.length = 4 →
      pageTables.get s'.ram.word (frameOf cr3) q = pageTables.get s.ram.word (frameOf cr3) q) :
    pageMap s'.ram cr3 = pageMap s.ram cr3 := by
  funext page
  rw [pageMap_eq hs hr, pageMap_eq hs' hr, h _ rfl]

theorem LeafStored.pageMap_eq {cr3 : U64} {pt : ℕ} {e virt : U64}
    (h : LeafStored s s' pt (Vm.idxPt virt) e) (hs : s.Inv {frameOf cr3})
    (hd : pageTables.descend s.ram.word (frameOf cr3) (innerPath virt) = some pt) :
    pageMap s'.ram cr3 = Function.update (pageMap s.ram cr3) (pageOf virt)
      (if e &&& pteP = 0 then none else some (leafOf e)) := by
  have hr : frameOf cr3 ∈ ({frameOf cr3} : Set ℕ) := rfl
  have hs' := h.inv hs (descend_at (.root hr) (le_refl 3) hd)
  funext page
  rw [Mcincos.pageMap_eq hs' hr, h.get_page hs hd, pageOf_pageStart]
  by_cases hp : page = pageOf virt
  · rw [if_pos hp, hp, Function.update_self]
    split_ifs <;> rfl
  · rw [if_neg hp, Function.update_of_ne hp, Mcincos.pageMap_eq hs hr]

theorem notLowMask_bit {k : ℕ} (hk : k < 64) : (~~~0xfff#64).getLsbD k = decide (12 ≤ k) := by
  rw [BitVec.getLsbD_not, lowMask_bit, Bool.eq_iff_iff]
  simp [hk]

theorem leafEntry_bit (phys flags : U64) {k : ℕ} (hk : k < 64) :
    (leafEntry phys flags).getLsbD k =
      ((decide (12 ≤ k) && phys.getLsbD k) || flags.getLsbD k || decide (k = 0)) := by
  have hnx : pteNX.getLsbD k = decide (k = 63) := getLsbD_one_shift 63 k (by decide)
  have hp : pteP.getLsbD k = decide (k = 0) := getLsbD_one_shift 0 k (by decide)
  have hbase : (Vm.alignDown phys &&& ~~~0xfff#64 ||| (flags &&& ~~~pteNX) ||| pteP).getLsbD k =
      ((decide (12 ≤ k) && phys.getLsbD k) || (flags.getLsbD k && !decide (k = 63)) ||
        decide (k = 0)) := by
    simp only [BitVec.getLsbD_or, BitVec.getLsbD_and, BitVec.getLsbD_not, alignDown_bit,
      notLowMask_bit hk, hnx, hp, hk, decide_true, Bool.true_and]
    by_cases h : 12 ≤ k <;> simp [h]
  have hbit : decide (flags &&& pteNX = 0) = !flags.getLsbD 63 := by
    rw [Bool.eq_iff_iff, decide_eq_true_eq, and_pteNX, Bool.not_eq_true']
  rw [leafEntry, apply_ite (fun e : U64 => e.getLsbD k), BitVec.getLsbD_or (y := pteNX), hbase, hnx]
  by_cases he : k = 63
  · subst he
    cases h63 : flags.getLsbD 63 <;> simp_all
  · simp [he]

theorem leafEntry_present (phys flags : U64) : leafEntry phys flags &&& pteP ≠ 0 := by
  rw [Ne, and_pteP, leafEntry_bit _ _ (by decide)]
  simp

theorem addrMask_bit (k : ℕ) :
    (0x000ffffffffff000#64).getLsbD k = decide (12 ≤ k ∧ k < 52) := by
  rw [show 0x000ffffffffff000#64 = BitVec.ofNat 64 (2 ^ 52 - 1) &&& ~~~BitVec.ofNat 64 (2 ^ 12 - 1)
    from rfl, BitVec.getLsbD_and, BitVec.getLsbD_not, BitVec.getLsbD_ofNat, BitVec.getLsbD_ofNat,
    Nat.testBit_two_pow_sub_one, Nat.testBit_two_pow_sub_one, Bool.eq_iff_iff]
  simp
  omega

theorem leafOf_leafEntry {phys flags : U64} (hphys : phys.toNat < 2 ^ 52)
    (hflags : flags &&& ~~~(0xfff#64 ||| pteNX) = 0) :
    leafOf (leafEntry phys flags) = ⟨phys &&& ~~~0xfff#64, flags ||| pteP⟩ := by
  have hhigh {k : ℕ} (hk : 52 ≤ k) : phys.getLsbD k = false :=
    Nat.testBit_lt_two_pow (hphys.trans_le (Nat.pow_le_pow_right (by decide) hk))
  have hnx (k : ℕ) : pteNX.getLsbD k = decide (k = 63) := getLsbD_one_shift 63 k (by decide)
  have hmid {k : ℕ} (hk : 12 ≤ k) (hk' : k < 63) : flags.getLsbD k = false := by
    have hbit := congrArg (fun y : U64 => y.getLsbD k) hflags
    simp only [BitVec.getLsbD_and, BitVec.getLsbD_not, BitVec.getLsbD_or, lowMask_bit, hnx] at hbit
    rw [decide_eq_true (by omega : k < 64), decide_eq_false (by omega : ¬k < 12),
      decide_eq_false (by omega : k ≠ 63), Bool.or_false, Bool.not_false, Bool.and_true,
      Bool.and_true] at hbit
    exact hbit.trans BitVec.getLsbD_zero
  have hp (k : ℕ) : pteP.getLsbD k = decide (k = 0) := getLsbD_one_shift 0 k (by decide)
  ext k hk
  · simp only [leafOf, cpuAddr, ← BitVec.getLsbD_eq_getElem, BitVec.getLsbD_and, addrMask_bit, leafEntry_bit _ _ hk,
      notLowMask_bit hk]
    by_cases h12 : 12 ≤ k
    · by_cases h52 : k < 52
      · simp [h12, h52, hmid h12 (by omega), show k ≠ 0 by omega]
      · simp [h12, h52, hhigh (by omega : 52 ≤ k)]
    · simp [h12]
  · simp only [leafOf, ← BitVec.getLsbD_eq_getElem, BitVec.getLsbD_and, BitVec.getLsbD_or, BitVec.getLsbD_not,
      addrMask_bit, leafEntry_bit _ _ hk, hp]
    by_cases h12 : 12 ≤ k
    · by_cases h52 : k < 52
      · simp [h12, h52, hmid h12 (by omega), show k ≠ 0 by omega]
      · rw [hhigh (by omega : 52 ≤ k)]
        simp [h12, h52, hk]
    · simp [h12, hk]

theorem Vm.Inv.alloc (hs : s.Inv roots) (n : U64) :
    { s with pmm := (s.pmm.pmmAllocPages n).1 }.Inv roots :=
  ⟨hs.forest, fun k f hat hf => hs.used k f hat (Pmm.pmmAllocPages_free hf),
    fun hf => hs.zero (Pmm.pmmAllocPages_free hf),
    (s.pmm.pmmAllocPages_setup n).total ▸ hs.width, hs.low⟩

theorem Extends.pageMap_eq {r : ℕ} {path : List (BitVec 9)} {cr3 flags : U64}
    (h : Extends roots r path flags s s') (hs : s.Inv roots) (hr : frameOf cr3 ∈ roots) :
    pageMap s'.ram cr3 = pageMap s.ram cr3 :=
  pageMap_congr hs h.inv hr fun q hq => h.leaf _ hr q hq

theorem pagePath_pageOf (virt : U64) : pagePath (pageStart (pageOf virt)) = pagePath virt := by
  rw [pagePath_inj, pageOf_pageStart]

theorem innerPath_pageOf (virt : U64) : innerPath (pageStart (pageOf virt)) = innerPath virt :=
  (List.append_inj' (pagePath_pageOf virt) rfl).1

/-- A table that a call adds is a frame of the pmm, which frame 0 is not. -/
theorem Extends.underZero_subset {path : List (BitVec 9)} {cr3 flags : U64}
    (h : Extends {frameOf cr3} (frameOf cr3) path flags s s') (hs : s.Inv {frameOf cr3}) :
    underZero s'.ram cr3 ⊆ underZero s.ram cr3 := by
  intro page hpage
  have hr : frameOf cr3 ∈ ({frameOf cr3} : Set ℕ) := rfl
  have hat : pageTables.At {frameOf cr3} s'.ram.word 3 0 := descend_at (.root hr) (le_refl 3) hpage
  obtain ⟨r, rfl, q, hlength, hd⟩ := ((h.grown 3 0 hat).resolve_right hs.zero).exists_descend
  have hd' := h.descend _ hr q hlength.le 0 hd
  obtain ⟨rfl, -⟩ := h.inv.forest.descend_unique hr hr (le_refl 3) hlength.le hpage hd'
  exact hd

theorem LeafStored.underZero_eq {cr3 : U64} {pt : ℕ} {i : BitVec 9} {e : U64}
    (h : LeafStored s s' pt i e) (hs : s.Inv roots) (hr : frameOf cr3 ∈ roots)
    (hpt : pageTables.At roots s.ram.word 3 pt) : underZero s'.ram cr3 = underZero s.ram cr3 := by
  ext page
  have hsame : pageTables.descend s'.ram.word (frameOf cr3) (innerPath (pageStart page)) =
      pageTables.descend s.ram.word (frameOf cr3) (innerPath (pageStart page)) :=
    (h.stored.sameInner hs.forest hpt).descend (.root hr) (le_refl 3)
  rw [underZero, underZero, Set.mem_ofPred_eq, Set.mem_ofPred_eq, hsame]

theorem PageOp.exec_step {cr3 : U64} {op : PageOp} {zero : Set (BitVec 36)} (hs : s.Inv {frameOf cr3})
    (hzero : underZero s.ram cr3 ⊆ zero) (hop : op.Valid) :
    (op.exec cr3 s).1.Inv {frameOf cr3} ∧ underZero (op.exec cr3 s).1.ram cr3 ⊆ zero ∧
      PageStep zero (space s cr3) op (op.exec cr3 s).2 (space (op.exec cr3 s).1 cr3) := by
  have hr : frameOf cr3 ∈ ({frameOf cr3} : Set ℕ) := rfl
  cases op with
  | map virt phys flags =>
    obtain ⟨hphys, hflags⟩ := hop
    rw [PageOp.exec, Vm.vmmMapPageCr3]
    rcases mapPage_spec hs hr virt phys (flags &&& ~~~(ptePCD ||| ptePWT)) with
      ⟨s', he, hx, hfull⟩ | ⟨s1, s', pt, he, hx, hd, hl⟩
    · have hzero' := (hx.underZero_subset hs).trans hzero
      rw [he, space, space, hx.pageMap_eq hs hr]
      refine ⟨hx.inv, hzero', .mapFailed (fun f hf => hx.free hf) ?_⟩
      refine hfull.imp Set.eq_empty_of_forall_notMem fun hd => hzero' ?_
      rw [underZero, Set.mem_ofPred_eq, innerPath_pageOf]
      exact hd
    · have hpt : pageTables.At {frameOf cr3} s1.ram.word 3 pt :=
        descend_at (.root hr) (le_refl 3) hd
      have hmasked : flags &&& ~~~(ptePCD ||| ptePWT) &&& ~~~(0xfff#64 ||| pteNX) = 0 := by
        rw [BitVec.and_assoc, BitVec.and_comm (~~~(ptePCD ||| ptePWT)), ← BitVec.and_assoc, hflags]
        exact BitVec.zero_and
      rw [he, space, space, hl.pageMap_eq hx.inv hd, if_neg (leafEntry_present _ _),
        leafOf_leafEntry hphys hmasked, hx.pageMap_eq hs hr, hl.pmm]
      refine ⟨hl.inv hx.inv hpt, ?_, .mapped fun f hf => hx.free hf⟩
      rw [hl.underZero_eq hx.inv hr hpt]
      exact (hx.underZero_subset hs).trans hzero
  | unmap virt =>
    rw [PageOp.exec]
    obtain ⟨he, hd⟩ | ⟨s', pt, he, hd, hl⟩ := vmmUnmapPageCr3_spec s cr3 virt
    · rw [he]
      refine ⟨hs, hzero, .unmapFailed ?_⟩
      rw [pageMap_eq hs hr, pagePath_pageOf, get_pagePath, hd]
      rfl
    · have hpt : pageTables.At {frameOf cr3} s.ram.word 3 pt := descend_at (.root hr) (le_refl 3) hd
      rw [he, space, space, hl.pageMap_eq hs hd, if_pos (show (0 : U64) &&& pteP = 0 from rfl), hl.pmm,
        hl.underZero_eq hs hr hpt]
      exact ⟨hl.inv hs hpt, hzero, .unmapped⟩
  | alloc pageCount => exact ⟨hs.alloc pageCount, hzero, .allocated fun f hf => Pmm.pmmAllocPages_free hf⟩

theorem PageOp.run_steps {cr3 : U64} {zero : Set (BitVec 36)} (s : Vm) (ops : List PageOp)
    (hs : s.Inv {frameOf cr3}) (hzero : underZero s.ram cr3 ⊆ zero) (hops : ∀ op ∈ ops, op.Valid) :
    PageRun zero (space s cr3) (PageOp.run cr3 s ops).2 (space (PageOp.run cr3 s ops).1 cr3) := by
  induction ops generalizing s with
  | nil => exact .nil
  | cons op ops ih =>
    obtain ⟨hs', hzero', hstep⟩ := PageOp.exec_step hs hzero (hops op List.mem_cons_self)
    exact .cons hstep (ih _ hs' hzero' fun o ho => hops o (List.mem_cons_of_mem op ho))

/-- The tables refine a partial map of pages: every history of calls takes the processor's view of
a space the way the same calls take the map. -/
theorem page_map_refinement (s : Vm) (cr3 : U64) (ops : List PageOp) (hs : s.Inv {frameOf cr3})
    (hops : ∀ op ∈ ops, op.Valid) :
    PageRun (underZero s.ram cr3) (space s cr3) (PageOp.run cr3 s ops).2
      (space (PageOp.run cr3 s ops).1 cr3) :=
  PageOp.run_steps s ops hs subset_rfl hops

theorem page_map_refinement_bareVm :
    let ops := [.map 0x400000 0x5000 pteU, .alloc 3, .map 0x600000 0x6000 pteW, .unmap 0x400000]
    (PageOp.run 0x1000 bareVm ops).2.map Prod.snd = [0, 0, -1, 0] ∧
      PageRun (underZero bareVm.ram 0x1000) (space bareVm 0x1000) (PageOp.run 0x1000 bareVm ops).2
        (space (PageOp.run 0x1000 bareVm ops).1 0x1000) := by
  exact ⟨by decide +kernel, page_map_refinement bareVm 0x1000 _ bareVm_inv (by decide)⟩

end Mcincos
