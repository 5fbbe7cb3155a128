import Mcincos.Library.RadixUpdate
import Mcincos.Vmm.Stores

namespace Mcincos

open Words Radix

/-- Page tables as ensure_pt reads them: three levels of inner tables, the kernel half of the PML4
shared between spaces. A sound entry has no PTE_PS and nothing in bits 52 to 63. -/
def pageTables : Shape ℕ (BitVec 9) U64 where
  child e := if e &&& pteP = 0 then none else some (frameOf e)
  sound e := e &&& ptePS = 0 ∧ e.toNat < 2 ^ 52
  shared i := 256 ≤ i.toNat
  depth := 3

theorem child_eq_none {e : U64} : pageTables.child e = none ↔ e &&& pteP = 0 := by
  simp [pageTables]

theorem child_eq_some {e : U64} {f : ℕ} :
    pageTables.child e = some f ↔ e &&& pteP ≠ 0 ∧ frameOf e = f := by
  simp [pageTables]

theorem child_isSome {e : U64} : (pageTables.child e).isSome ↔ e &&& pteP ≠ 0 := by
  rw [← Option.ne_none_iff_isSome, Ne, child_eq_none]

theorem frameOf_eq (e : U64) : frameOf e = (e >>> 12).toNat := by
  rw [frameOf, BitVec.toNat_ushiftRight, Nat.shiftRight_eq_div_pow]

def linkEntry (new flags : U64) : U64 := new ||| pteP ||| pteW ||| (flags &&& pteU)

theorem linkEntry_shift (new flags : U64) : linkEntry new flags >>> 12 = new >>> 12 := by
  simp only [linkEntry, BitVec.ushiftRight_or_distrib, BitVec.ushiftRight_and_distrib,
    show pteP >>> 12 = 0#64 from rfl, show pteW >>> 12 = 0#64 from rfl,
    show pteU >>> 12 = 0#64 from rfl, BitVec.and_zero, BitVec.or_zero]

theorem linkEntry_bit (new flags : U64) (k : ℕ) : (linkEntry new flags).getLsbD k =
    (new.getLsbD k || decide (k = 0) || decide (k = 1) || (flags.getLsbD k && decide (k = 2))) := by
  simp only [linkEntry, BitVec.getLsbD_or, BitVec.getLsbD_and, pteP, pteW, pteU,
    getLsbD_one_shift _ _ (show 0 < 64 by decide), getLsbD_one_shift _ _ (show 1 < 64 by decide),
    getLsbD_one_shift _ _ (show 2 < 64 by decide)]

theorem and_pteP {e : U64} : e &&& pteP = 0 ↔ e.getLsbD 0 = false :=
  and_one_shift_eq_zero e 0 (by decide)

theorem and_pteU {e : U64} : e &&& pteU = 0 ↔ e.getLsbD 2 = false :=
  and_one_shift_eq_zero e 2 (by decide)

theorem and_ptePS {e : U64} : e &&& ptePS = 0 ↔ e.getLsbD 7 = false :=
  and_one_shift_eq_zero e 7 (by decide)

theorem and_pteNX {e : U64} : e &&& pteNX = 0 ↔ e.getLsbD 63 = false :=
  and_one_shift_eq_zero e 63 (by decide)

theorem linkEntry_child {new : U64} (flags : U64) {f : ℕ} (h : new.toNat = 4096 * f) :
    pageTables.child (linkEntry new flags) = some f := by
  rw [child_eq_some, Ne, and_pteP, linkEntry_bit, frameOf_eq, linkEntry_shift, ← frameOf_eq,
    frameOf, h]
  exact ⟨by simp, Nat.mul_div_cancel_left f (by decide)⟩

theorem linkEntry_sound {new : U64} (flags : U64) {f : ℕ} (h : new.toNat = 4096 * f)
    (hf : f < 2 ^ 40) : pageTables.sound (linkEntry new flags) := by
  constructor
  · rw [and_ptePS, linkEntry_bit, getLsbD_of_dvd new 12 7 ⟨f, h⟩ (by decide)]
    simp
  · have hframe : frameOf (linkEntry new flags) = f := (child_eq_some.mp (linkEntry_child flags h)).2
    rw [frameOf] at hframe
    omega

/-- The tables of the spaces with the given roots form trees that share only kernel-half tables,
and the pmm does not have their frames to give. Physical addresses have at most 52 bits. -/
structure Vm.Inv (roots : Set ℕ) (s : Vm) : Prop where
  forest : pageTables.Forest roots s.ram.word
  used : ∀ k f, pageTables.At roots s.ram.word k f → ¬s.pmm.Free f
  zero : ¬s.pmm.Free 0
  width : s.pmm.gTotalPages ≤ 2 ^ 40
  low : ∀ r ∈ roots, r < 2 ^ 40

theorem get_of_empty {s : Vm} {r : ℕ} (hrow : ∀ i, s.ram.word r i &&& pteP = 0) (q : List (BitVec 9)) :
    pageTables.get s.ram.word r q = none := by
  have hchild (i : BitVec 9) : pageTables.child (s.ram.word r i) = none := child_eq_none.mpr (hrow i)
  match q with
  | [] => rfl
  | [i] => simp [Shape.get, Shape.slot, hchild]
  | i :: j :: is => simp [Shape.get, Shape.slot, hchild]

theorem Vm.Inv.of_empty {s : Vm} {r : ℕ} (hrow : ∀ i, s.ram.word r i &&& pteP = 0)
    (hr : ¬s.pmm.Free r) (hzero : ¬s.pmm.Free 0) (hwidth : s.pmm.gTotalPages ≤ 2 ^ 40)
    (hlow : r < 2 ^ 40) : s.Inv {r} := by
  have hat {k f : ℕ} (h : pageTables.At {r} s.ram.word k f) : k = 0 ∧ f = r := by
    induction h with
    | root hf => exact ⟨rfl, hf⟩
    | next _ _ hc ih =>
      obtain ⟨-, rfl⟩ := ih
      rw [child_eq_none.mpr (hrow _)] at hc
      exact absurd hc (by simp)
  have hleaf {k a b : ℕ} {i : BitVec 9} (h : pageTables.At {r} s.ram.word k a) :
      pageTables.child (s.ram.word a i) ≠ some b := by
    obtain ⟨-, rfl⟩ := hat h
    rw [child_eq_none.mpr (hrow i)]
    simp
  exact {
    forest := ⟨fun h _ hc => absurd hc (hleaf h), fun h _ _ _ hc => absurd hc (hleaf h),
      fun h _ hc => absurd hc (hleaf h)⟩
    used := fun k f h => (hat h).2 ▸ hr
    zero := hzero
    width := hwidth
    low := by rintro _ rfl; exact hlow }

theorem eight_bounded : 8 < 2 ^ 52 := by decide

def bareVm : Vm where
  ram := ⟨fun _ _ => 0, []⟩
  pmm := { gHhdm := 0, gBitmap := 0, bytes := [3#8], gTotalBytes := 0x8000, gFreeBytes := 0x6000,
           gTotalPages := 8, sized := rfl, bounded := eight_bounded }
  cr3 := 0x1000
  gKernelCr3Phys := 0x1000

theorem bareVm_inv : bareVm.Inv {1} :=
  .of_empty (fun _ => BitVec.zero_and) (by decide) (by decide) (by decide) (by decide)

structure Grew (roots : Set ℕ) (flags : U64) (s s' : Vm) (k a : ℕ) (i : BitVec 9) (f : ℕ) :
    Prop where
  table : pageTables.At roots s.ram.word k a
  inner : k < 3
  absent : s.ram.word a i &&& pteP = 0
  free : s.pmm.Free f
  test : ∀ g, s'.pmm.bitmapTest g = (decide (g = f) || s.pmm.bitmapTest g)
  entry : ∃ new : U64, new.toNat = 4096 * f ∧ s'.ram.word a i = linkEntry new flags
  row : ∀ j, s'.ram.word f j = 0
  other : ∀ g j, g ≠ f → ¬(g = a ∧ j = i) → s'.ram.word g j = s.ram.word g j
  setup : Pmm.SameSetup s.pmm s'.pmm
  cr3 : s'.cr3 = s.cr3
  gKernelCr3Phys : s'.gKernelCr3Phys = s.gKernelCr3Phys
  stores : s'.ram.stores =
    (a, i) :: ((Vm.indices.map fun j => (f, j)).reverse ++ s.ram.stores)

variable {roots : Set ℕ} {flags : U64} {s s' : Vm} {k a f : ℕ} {i : BitVec 9}

namespace Grew

theorem free_iff (h : Grew roots flags s s' k a i f) (g : ℕ) :
    s'.pmm.Free g ↔ s.pmm.Free g ∧ g ≠ f := by
  simp only [Pmm.Free, h.setup.total, h.test, Bool.or_eq_false_iff, decide_eq_false_iff_not]
  tauto

theorem fresh (h : Grew roots flags s s' k a i f) (hs : s.Inv roots) (l : ℕ) :
    ¬pageTables.At roots s.ram.word l f := fun hat => hs.used l f hat h.free

def between (s : Vm) (f : ℕ) : ℕ → BitVec 9 → U64 := fun g j => if g = f then 0 else s.ram.word g j

theorem between_row (h : Grew roots flags s s' k a i f) (hs : s.Inv roots) {l g : ℕ}
    (hg : pageTables.At roots s.ram.word l g) : between s f g = s.ram.word g := by
  funext j
  exact if_neg fun he : g = f => h.fresh hs l (he ▸ hg)

theorem sameInner (h : Grew roots flags s s' k a i f) (hs : s.Inv roots) :
    SameInner pageTables roots s.ram.word (between s f) :=
  fun _ _ hg _ j => congrFun (h.between_row hs hg) j

theorem linked (h : Grew roots flags s s' k a i f) (hs : s.Inv roots) :
    ∃ new : U64, new.toNat = 4096 * f ∧
      Linked pageTables roots (between s f) s'.ram.word k a i (linkEntry new flags) f := by
  obtain ⟨new, hnew, he⟩ := h.entry
  have hlt : f < 2 ^ 40 := h.free.1.trans_le hs.width
  refine ⟨new, hnew, ⟨he, fun g j hg => ?_⟩, ?_, h.inner, ?_, linkEntry_child flags hnew,
    linkEntry_sound flags hnew hlt, fun l hl => ?_, fun j => ?_⟩
  · by_cases hgf : g = f
    · rw [between, if_pos hgf, hgf, h.row]
    · rw [between, if_neg hgf, h.other g j hgf fun hc => hg (by rw [hc.1, hc.2])]
  · exact (h.sameInner hs).at_iff.mpr h.table
  · rw [h.between_row hs h.table]
    exact child_eq_none.mpr h.absent
  · exact h.fresh hs l ((h.sameInner hs).at_iff.mp hl)
  · rw [between, if_pos rfl]
    exact child_eq_none.mpr rfl

theorem at_mono (h : Grew roots flags s s' k a i f) (hs : s.Inv roots) {l g : ℕ}
    (hg : pageTables.At roots s.ram.word l g) : pageTables.At roots s'.ram.word l g := by
  obtain ⟨new, -, hl⟩ := h.linked hs
  exact hl.at_mono ((h.sameInner hs).at_iff.mpr hg)

theorem at_new (h : Grew roots flags s s' k a i f) (hs : s.Inv roots) :
    pageTables.At roots s'.ram.word (k + 1) f := by
  obtain ⟨new, -, hl⟩ := h.linked hs
  exact hl.at_new

theorem at_cases (h : Grew roots flags s s' k a i f) (hs : s.Inv roots) {l g : ℕ}
    (hg : pageTables.At roots s'.ram.word l g) :
    pageTables.At roots s.ram.word l g ∨ (l = k + 1 ∧ g = f) := by
  obtain ⟨new, -, hl⟩ := h.linked hs
  exact (hl.at_cases ((h.sameInner hs).forest hs.forest) hg).imp (h.sameInner hs).at_iff.mp id

theorem inv (h : Grew roots flags s s' k a i f) (hs : s.Inv roots) : s'.Inv roots where
  forest := by
    obtain ⟨new, -, hl⟩ := h.linked hs
    exact hl.forest ((h.sameInner hs).forest hs.forest)
  used := by
    intro l g hg hfree
    rw [h.free_iff] at hfree
    obtain hold | ⟨-, rfl⟩ := h.at_cases hs hg
    · exact hs.used l g hold hfree.1
    · exact hfree.2 rfl
  zero := fun hz => hs.zero ((h.free_iff 0).mp hz).1
  width := by rw [h.setup.total]; exact hs.width
  low := hs.low

theorem descend (h : Grew roots flags s s' k a i f) (hs : s.Inv roots) {l b c : ℕ}
    {path : List (BitVec 9)} (hb : pageTables.At roots s.ram.word l b) (hl : l + path.length ≤ 3)
    (hd : pageTables.descend s.ram.word b path = some c) :
    pageTables.descend s'.ram.word b path = some c := by
  obtain ⟨new, -, hlink⟩ := h.linked hs
  apply hlink.descend_mono
  rw [(h.sameInner hs).descend hb hl]
  exact hd

theorem get (h : Grew roots flags s s' k a i f) (hs : s.Inv roots) {l b : ℕ}
    {path : List (BitVec 9)} (hb : pageTables.At roots s.ram.word l b)
    (hl : l + path.length ≤ 4) :
    pageTables.get s'.ram.word b path =
      if pageTables.slot s.ram.word b path = some (a, i) then some (s'.ram.word a i)
      else pageTables.get s.ram.word b path := by
  obtain ⟨new, -, hlink⟩ := h.linked hs
  rw [hlink.get_eq, (h.sameInner hs).slot hb hl, hlink.stored.here,
    get_congr (fun _ _ hg => h.between_row hs hg) hb hl]

theorem get_leaf (h : Grew roots flags s s' k a i f) (hs : s.Inv roots) {r : ℕ}
    {path : List (BitVec 9)} (hr : r ∈ roots) (hl : path.length = 4) :
    pageTables.get s'.ram.word r path = pageTables.get s.ram.word r path := by
  rw [h.get hs (.root hr) (by omega), if_neg]
  intro hslot
  have hat := (slot_at (.root hr) (by rw [hl]; exact le_refl 4) hslot).1
  have := hs.forest.level_unique hat h.table
  have := h.inner
  omega

end Grew

end Mcincos
