import Mcincos.Vmm.Cpu
import Mcincos.Vmm.Mapping

namespace Mcincos

open Words Radix

theorem frameOf_cpuAddr {e : U64} (he : e.toNat < 2 ^ 52) : frameOf (cpuAddr e) = frameOf e := by
  have hmask : (0x000ffffffffff000#64) =
      BitVec.ofNat 64 (2 ^ 52 - 1) &&& ~~~BitVec.ofNat 64 (2 ^ 12 - 1) := rfl
  have hval : (cpuAddr e).toNat = e.toNat % 2 ^ 52 / 2 ^ 12 * 2 ^ 12 := by
    rw [cpuAddr, hmask, ← BitVec.and_assoc, toNat_and_not_low, toNat_and_low _ _ (by decide)]
  rw [frameOf, frameOf, hval]
  omega

variable {roots : Set ℕ} {s : Vm}

theorem Vm.Inv.root_lt (hs : s.Inv roots) {cr3 : U64} (hr : frameOf cr3 ∈ roots) :
    cr3.toNat < 2 ^ 52 := by
  have := hs.low _ hr
  rw [frameOf] at this
  omega

theorem Vm.Inv.link (hs : s.Inv roots) {k a : ℕ} {i : BitVec 9}
    (ha : pageTables.At roots s.ram.word k a) (hk : k < 3)
    (hp : s.ram.word a i &&& pteP ≠ 0) :
    pageTables.child (s.ram.word a i) = some (frameOf (cpuAddr (s.ram.word a i))) ∧
      s.ram.word a i &&& ptePS = 0 ∧
      pageTables.At roots s.ram.word (k + 1) (frameOf (cpuAddr (s.ram.word a i))) := by
  have hc : pageTables.child (s.ram.word a i) = some (frameOf (s.ram.word a i)) :=
    child_eq_some.mpr ⟨hp, rfl⟩
  obtain ⟨hps, hlt⟩ := hs.forest.sound ha hk hc
  rw [frameOf_cpuAddr hlt]
  exact ⟨hc, hps, ha.next hk hc⟩

theorem cpuWalk_cases (hs : s.Inv roots) {cr3 : U64} (hr : frameOf cr3 ∈ roots) (va : U64) :
    (cpuWalk s.ram cr3 va = .fault ∧
      pageTables.get s.ram.word (frameOf cr3) (pagePath va) = none) ∨
    ∃ e4 e3 e2 e1, cpuWalk s.ram cr3 va = .page4k e4 e3 e2 e1 ∧
      pageTables.get s.ram.word (frameOf cr3) [Vm.idxPml4 va] = some e4 ∧
      pageTables.get s.ram.word (frameOf cr3) [Vm.idxPml4 va, Vm.idxPdpt va] = some e3 ∧
      pageTables.get s.ram.word (frameOf cr3) (innerPath va) = some e2 ∧
      pageTables.get s.ram.word (frameOf cr3) (pagePath va) = some e1 := by
  have hroot : pageTables.At roots s.ram.word 0 (frameOf cr3) := .root hr
  simp only [cpuWalk, Ram.load, frameOf_cpuAddr (hs.root_lt hr), innerPath, pagePath,
    List.cons_append, List.nil_append, Shape.get, Shape.slot]
  by_cases h4 : s.ram.word (frameOf cr3) (Vm.idxPml4 va) &&& pteP = 0
  · exact .inl (by simp [h4, child_eq_none.mpr h4])
  obtain ⟨hc4, -, hat3⟩ := hs.link hroot (by decide) h4
  simp only [h4, hc4, ↓reduceIte, Option.bind_some, Option.isSome_some]
  generalize s.ram.word (frameOf cr3) (Vm.idxPml4 va) = e4 at hat3 ⊢
  by_cases h3 : s.ram.word (frameOf (cpuAddr e4)) (Vm.idxPdpt va) &&& pteP = 0
  · exact .inl (by simp [h3, child_eq_none.mpr h3])
  obtain ⟨hc3, hps3, hat2⟩ := hs.link hat3 (by decide) h3
  simp only [h3, hc3, hps3, ↓reduceIte, Option.bind_some, Option.isSome_some, ne_eq,
    not_true_eq_false]
  generalize s.ram.word (frameOf (cpuAddr e4)) (Vm.idxPdpt va) = e3 at hat2 ⊢
  by_cases h2 : s.ram.word (frameOf (cpuAddr e3)) (Vm.idxPd va) &&& pteP = 0
  · exact .inl (by simp [h2, child_eq_none.mpr h2])
  obtain ⟨hc2, hps2, -⟩ := hs.link hat2 (by decide) h2
  simp only [h2, hc2, hps2, ↓reduceIte, Option.bind_some, Option.isSome_some, not_true_eq_false]
  generalize s.ram.word (frameOf (cpuAddr e3)) (Vm.idxPd va) = e2
  by_cases h1 : s.ram.word (frameOf (cpuAddr e2)) (Vm.idxPt va) &&& pteP = 0
  · exact .inl (by simp [h1, child_eq_none.mpr h1])
  · have hsome := child_isSome.mpr h1
    exact .inr ⟨_, _, _, _, by rw [if_neg h1], rfl, rfl, rfl, by rw [if_pos hsome]⟩

theorem cpuWalk_congr {roots' : Set ℕ} {s' : Vm} (hs : s.Inv roots) (hs' : s'.Inv roots') {p p' : U64}
    (hp : frameOf p ∈ roots) (hp' : frameOf p' ∈ roots') {va : U64}
    (h : ∀ is : List (BitVec 9), is.length ≤ 3 →
      pageTables.get s'.ram.word (frameOf p') (Vm.idxPml4 va :: is) =
        pageTables.get s.ram.word (frameOf p) (Vm.idxPml4 va :: is)) :
    cpuWalk s'.ram p' va = cpuWalk s.ram p va := by
  have h1 := h [Vm.idxPdpt va, Vm.idxPd va, Vm.idxPt va] (le_refl 3)
  rcases cpuWalk_cases hs hp va with ⟨hw, hg⟩ | ⟨e4, e3, e2, e1, hw, hg4, hg3, hg2, hg1⟩ <;>
    obtain ⟨hw', hg'⟩ | ⟨d4, d3, d2, d1, hw', hg4', hg3', hg2', hg1'⟩ := cpuWalk_cases hs' hp' va
  · rw [hw, hw']
  · exact absurd (hg1'.symm.trans (h1.trans hg)) (by simp)
  · exact absurd (hg1.symm.trans (h1.symm.trans hg')) (by simp)
  · obtain rfl := Option.some.inj (hg4'.symm.trans ((h [] (by simp)).trans hg4))
    obtain rfl := Option.some.inj (hg3'.symm.trans ((h [Vm.idxPdpt va] (by simp)).trans hg3))
    obtain rfl := Option.some.inj
      (hg2'.symm.trans ((h [Vm.idxPdpt va, Vm.idxPd va] (by simp)).trans hg2))
    obtain rfl := Option.some.inj (hg1'.symm.trans (h1.trans hg1))
    rw [hw, hw']

def pageOf (va : U64) : BitVec 36 := (va >>> 12).setWidth 36
def pageStart (page : BitVec 36) : U64 := page.setWidth 64 <<< 12

theorem pageOf_pageStart (page : BitVec 36) : pageOf (pageStart page) = page := by
  apply BitVec.eq_of_getLsbD_eq
  intro k hk
  simp only [pageOf, pageStart, BitVec.getLsbD_setWidth, BitVec.getLsbD_ushiftRight,
    BitVec.getLsbD_shiftLeft, hk, show 12 + k < 64 by omega, show ¬12 + k < 12 by omega,
    show 12 + k - 12 = k by omega, show k < 64 by omega]
  simp

theorem pagePath_inj {va va' : U64} : pagePath va = pagePath va' ↔ pageOf va = pageOf va' := by
  have hidx (n k : ℕ) (hk : k < 9) (x : U64) :
      ((x >>> n).setWidth 9).getLsbD k = x.getLsbD (n + k) := by
    simp [hk]
  have hbit (x : U64) (k : ℕ) (hk : k < 36) : (pageOf x).getLsbD k = x.getLsbD (12 + k) := by
    simp [pageOf, hk]
  simp only [pagePath, innerPath, List.cons_append, List.nil_append, List.cons.injEq, and_true,
    Vm.idxPml4, Vm.idxPdpt, Vm.idxPd, Vm.idxPt]
  constructor
  · rintro ⟨h4, h3, h2, h1⟩
    apply BitVec.eq_of_getLsbD_eq
    intro k hk
    rw [hbit va k hk, hbit va' k hk]
    have hslice (n : ℕ) (h : (va >>> n).setWidth 9 = (va' >>> n).setWidth 9) (hn : n ≤ 12 + k)
        (hn' : 12 + k < n + 9) : va.getLsbD (12 + k) = va'.getLsbD (12 + k) := by
      have := congrArg (fun y => y.getLsbD (12 + k - n)) h
      simp only [hidx n (12 + k - n) (by omega), show n + (12 + k - n) = 12 + k by omega] at this
      exact this
    obtain hc | hc | hc | hc := (by omega : k < 9 ∨ (9 ≤ k ∧ k < 18) ∨ (18 ≤ k ∧ k < 27) ∨ 27 ≤ k)
    · exact hslice 12 h1 (by omega) (by omega)
    · exact hslice 21 h2 (by omega) (by omega)
    · exact hslice 30 h3 (by omega) (by omega)
    · exact hslice 39 h4 (by omega) (by omega)
  · intro h
    have hslice (n : ℕ) (hn : 12 ≤ n) (hn' : n + 9 ≤ 48) :
        (va >>> n).setWidth 9 = (va' >>> n).setWidth 9 := by
      apply BitVec.eq_of_getLsbD_eq
      intro k hk
      rw [hidx n k hk, hidx n k hk]
      have := congrArg (fun y => y.getLsbD (n + k - 12)) h
      simp only [hbit va (n + k - 12) (by omega), hbit va' (n + k - 12) (by omega),
        show 12 + (n + k - 12) = n + k by omega] at this
      exact this
    exact ⟨hslice 39 (by omega) (by omega), hslice 30 (by omega) (by omega),
      hslice 21 (by omega) (by omega), hslice 12 (by omega) (by omega)⟩

theorem cpuWalk_page {ram : Ram} {cr3 va va' : U64} (h : pageOf va = pageOf va') :
    cpuWalk ram cr3 va = cpuWalk ram cr3 va' := by
  have hpath := pagePath_inj.mpr h
  simp only [pagePath, innerPath, List.cons_append, List.nil_append, List.cons.injEq, and_true] at hpath
  obtain ⟨h4, h3, h2, h1⟩ := hpath
  simp only [cpuWalk, h4, h3, h2, h1]

theorem LeafStored.get_page {s' : Vm} {r pt : ℕ} {virt e : U64}
    (h : LeafStored s s' pt (Vm.idxPt virt) e) (hs : s.Inv {r})
    (hd : pageTables.descend s.ram.word r (innerPath virt) = some pt) (va : U64) :
    pageTables.get s'.ram.word r (pagePath va) =
      if pageOf va = pageOf virt then (if e &&& pteP = 0 then none else some e)
      else pageTables.get s.ram.word r (pagePath va) := by
  have hr : r ∈ ({r} : Set ℕ) := rfl
  rw [h.get hs (descend_at (.root hr) (le_refl 3) hd) hr (le_refl 4)]
  refine if_congr ⟨fun hslot => ?_, fun hpage => ?_⟩ rfl rfl
  · exact pagePath_inj.mp (hs.slot_iff hr hr rfl (le_refl 4) hd hslot).1
  · rw [pagePath_inj.mpr hpage, pagePath, slot_append, hd]
    rfl

end Mcincos
