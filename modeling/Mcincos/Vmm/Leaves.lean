import Mcincos.Vmm.Calls
import Mcincos.Vmm.PageMap

namespace Mcincos

open Radix Words

variable {s s' s'' : Vm} {r : ℕ} {cr3 : U64}

def leafAt (s : Vm) (r : ℕ) (va : U64) : Option U64 := pageTables.get s.ram.word r (pagePath va)

structure Grows (r : ℕ) (s s' : Vm) : Prop where
  inv : s'.Inv {r}
  old : ∀ q : List (BitVec 9), q.length ≤ 3 → ∀ e,
    pageTables.get s.ram.word r q = some e → pageTables.get s'.ram.word r q = some e
  cr3 : s'.cr3 = s.cr3

theorem Grows.refl (hs : s.Inv {r}) : Grows r s s := ⟨hs, fun _ _ _ h => h, rfl⟩

theorem Grows.trans (h : Grows r s s') (h' : Grows r s' s'') : Grows r s s'' :=
  ⟨h'.inv, fun q hq e he => h'.old q hq e (h.old q hq e he), h'.cr3.trans h.cr3⟩

theorem PageChange.grows {virt : U64} (h : PageChange {r} r virt s s') (hcr3 : s'.cr3 = s.cr3) :
    Grows r s s' :=
  ⟨h.inv, fun q hq e he => h.old r rfl q hq e he, hcr3⟩

theorem toNat_pageOf (va : U64) : (pageOf va).toNat = va.toNat / 4096 % 2 ^ 36 := by
  rw [pageOf, BitVec.toNat_setWidth, BitVec.toNat_ushiftRight, Nat.shiftRight_eq_div_pow]

theorem leafAt_congr {va va' : U64} (h : pageOf va = pageOf va') : leafAt s r va = leafAt s r va' := by
  rw [leafAt, leafAt, pagePath_inj.mpr h]

theorem cpuWalk_fault_iff (hs : s.Inv {r}) (hr : frameOf cr3 = r) {va : U64} :
    cpuWalk s.ram cr3 va = .fault ↔ leafAt s r va = none := by
  obtain ⟨hw, hg⟩ | ⟨e4, e3, e2, e1, hw, -, -, -, hg⟩ := cpuWalk_cases hs hr va
  · rw [hr] at hg
    exact iff_of_true hw hg
  · rw [hr] at hg
    exact iff_of_false (by simp [hw]) (by simp [leafAt, hg])

theorem cpuWalk_leafAt (hs : s.Inv {r}) (hr : frameOf cr3 = r) {va e : U64}
    (he : leafAt s r va = some e) : (cpuWalk s.ram cr3 va).leaf = some e ∧
      (cpuWalk s.ram cr3 va).physical va = some (cpuAddr e ||| va &&& 0xfff#64) := by
  obtain ⟨-, hg⟩ | ⟨e4, e3, e2, e1, hw, -, -, -, hg⟩ := cpuWalk_cases hs hr va
  · rw [hr] at hg
    exact absurd (he.symm.trans hg) (by simp)
  · rw [hr] at hg
    obtain rfl := Option.some.inj (he.symm.trans hg)
    rw [hw]
    exact ⟨rfl, rfl⟩

theorem Grows.cpuWalk_eq (h : Grows r s s') (hs : s.Inv {r}) (hr : frameOf cr3 = r) {va : U64}
    (hleaf : leafAt s' r va = leafAt s r va) : cpuWalk s'.ram cr3 va = cpuWalk s.ram cr3 va := by
  subst hr
  obtain ⟨hw, hg⟩ | ⟨e4, e3, e2, e1, hw, hg4, hg3, hg2, hg1⟩ := cpuWalk_cases hs rfl va
  · rw [hw]
    exact (cpuWalk_fault_iff h.inv rfl).mpr (hleaf.trans hg)
  · obtain ⟨-, hg'⟩ | ⟨d4, d3, d2, d1, hw', hg4', hg3', hg2', hg1'⟩ := cpuWalk_cases h.inv rfl va
    · exact absurd (hg'.symm.trans (hleaf.trans hg1)) (by simp)
    · obtain rfl := Option.some.inj (hg4'.symm.trans (h.old _ (by simp) _ hg4))
      obtain rfl := Option.some.inj (hg3'.symm.trans (h.old _ (by simp) _ hg3))
      obtain rfl := Option.some.inj (hg2'.symm.trans (h.old _ (le_refl 3) _ hg2))
      obtain rfl := Option.some.inj (hg1'.symm.trans (hleaf.trans hg1))
      rw [hw, hw']

theorem cpuAddr_leafEntry {flags : U64} (hflags : flags &&& ~~~(0xfff#64 ||| pteNX) = 0) {f : ℕ}
    (hf : f < 2 ^ 40) :
    cpuAddr (leafEntry (BitVec.ofNat 64 (4096 * f)) flags) = BitVec.ofNat 64 (4096 * f) := by
  have hphys : (BitVec.ofNat 64 (4096 * f)).toNat = 4096 * f := by
    rw [BitVec.toNat_ofNat]
    omega
  have hwidth : (BitVec.ofNat 64 (4096 * f)).toNat < 2 ^ 52 := by omega
  have hleaf := leafOf_leafEntry hwidth hflags
  refine (congrArg Leaf.frame hleaf).trans (BitVec.eq_of_toNat_eq ?_)
  rw [show (0xfff#64 : U64) = BitVec.ofNat 64 (2 ^ 12 - 1) from rfl, toNat_and_not_low, hphys]
  omega

theorem frame_or_offset {f : ℕ} (hf : f < 2 ^ 40) (va : U64) :
    (BitVec.ofNat 64 (4096 * f) ||| va &&& 0xfff#64).toNat = 4096 * f + va.toNat % 4096 := by
  have hlow : (va &&& 0xfff#64).toNat = va.toNat % 4096 := toNat_and_low va 12 (by decide)
  have hphys : (BitVec.ofNat 64 (4096 * f)).toNat = 4096 * f := by
    rw [BitVec.toNat_ofNat]
    omega
  rw [BitVec.toNat_or, hphys, hlow, show 4096 * f = f <<< 12 by rw [Nat.shiftLeft_eq, mul_comm],
    Nat.shiftLeft_add_eq_or_of_lt]
  omega

theorem mapPage_leafAt (hs : s.Inv {r}) (hr : frameOf cr3 = r) {virt phys flags : U64}
    (h : s.mapPage cr3 virt phys flags = (s', 0)) : Grows r s s' ∧
    ∀ va, leafAt s' r va = if pageOf va = pageOf virt then some (leafEntry phys flags)
      else leafAt s r va := by
  subst hr
  constructor
  · obtain ⟨hchange, hcr3⟩ := mapPage_change hs rfl virt phys flags
    rw [h] at hchange hcr3
    exact hchange.grows hcr3
  · intro va
    obtain ⟨t, he, -⟩ | ⟨s1, t, pt, he, hx, hd, hl⟩ := mapPage_spec hs rfl virt phys flags
    · exact absurd (he.symm.trans h) (by simp)
    · obtain ⟨rfl, -⟩ := Prod.mk.inj (he.symm.trans h)
      rw [leafAt, hl.get_page hx.inv hd, if_neg (leafEntry_present phys flags), hx.leaf _ rfl _ rfl]
      rfl

theorem vmmMapPage_leafAt (hs : s.Inv {r}) (hr : frameOf s.cr3 = r) {virt phys flags : U64}
    (h : s.vmmMapPage virt phys flags = (s', 0)) : Grows r s s' ∧
    ∀ va, leafAt s' r va = if pageOf va = pageOf virt then
        some (leafEntry phys (flags &&& ~~~(ptePCD ||| ptePWT)))
      else leafAt s r va :=
  mapPage_leafAt hs ((frameOf_tableOf s.cr3).trans hr) h

theorem vmmUnmapPageCr3_leafAt (hs : s.Inv {r}) (hr : frameOf cr3 = r) (virt : U64) :
    Grows r s (s.vmmUnmapPageCr3 cr3 virt).1 ∧
    ∀ va, leafAt (s.vmmUnmapPageCr3 cr3 virt).1 r va =
      if pageOf va = pageOf virt then none else leafAt s r va := by
  subst hr
  constructor
  · obtain ⟨hchange, hcr3⟩ := vmmUnmapPageCr3_change hs rfl virt
    exact hchange.grows hcr3
  · intro va
    obtain ⟨he, hd⟩ | ⟨t, pt, he, hd, hl⟩ := vmmUnmapPageCr3_spec s cr3 virt
    · rw [he]
      split_ifs with hpage
      · rw [leafAt_congr hpage, leafAt, get_pagePath, hd]
        rfl
      · rfl
    · rw [he, leafAt, hl.get_page hs hd, if_pos (show (0 : U64) &&& pteP = 0 from rfl)]
      rfl

end Mcincos
