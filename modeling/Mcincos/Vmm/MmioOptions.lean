import Mcincos.Vmm.Agreement
import Mcincos.Vmm.MmioWrites

namespace Mcincos

open Words Writes

variable {s s' t t' : Vm} {k a b f n : ℕ} {i : BitVec 9} {cr3 p v va phys size hhdmOffset : U64}

/-- The processor has each of its tables at one level, and the pmm does not have it to give. -/
structure Layered (cr3 : U64) (t : Vm) : Prop where
  level : ∀ k k' f, CpuTable t.ram cr3 k f → CpuTable t.ram cr3 k' f → k = k'
  used : ∀ k f, CpuTable t.ram cr3 k f → ¬t.pmm.Free f
  width : t.pmm.gTotalPages ≤ 2 ^ 40

/-- The entries that the processor comes to on the way to the page table of `va`. -/
def PlainWay (r : Ram) (cr3 va : U64) : Prop :=
  ∀ q i a, q ++ [i] <+: innerPath va → cpuDescend r 0 (frameOf (cpuAddr cr3)) q = some a →
    r.word a i &&& pteP ≠ 0 → Plain q.length (r.word a i)

/-- Map calls have led from `t` to `t'`, and the leaves that they have stored are of the kind `P`. -/
structure Remapped (cr3 : U64) (P : U64 → Prop) (t t' : Vm) : Prop where
  layered : Layered cr3 t'
  plain : ∀ va, PlainWay t.ram cr3 va → PlainWay t'.ram cr3 va
  pt : ∀ va f, cpuPt t.ram cr3 va = some f → cpuPt t'.ram cr3 va = some f
  leaf : ∀ va f, cpuPt t.ram cr3 va = some f → ∀ i,
    t'.ram.word f i = t.ram.word f i ∨ P (t'.ram.word f i)
  cr3 : t'.cr3 = t.cr3

variable {P : U64 → Prop}

theorem Remapped.refl (h : Layered cr3 t) : Remapped cr3 P t t where
  layered := h
  plain := fun _ h => h
  pt := fun _ _ h => h
  leaf := fun _ _ _ _ => .inl rfl
  cr3 := rfl

theorem Remapped.trans {t'' : Vm} (h : Remapped cr3 P t t') (h' : Remapped cr3 P t' t'') :
    Remapped cr3 P t t'' where
  layered := h'.layered
  plain := fun va hva => h'.plain va (h.plain va hva)
  pt := fun va f hf => h'.pt va f (h.pt va f hf)
  leaf := fun va f hf i => by
    obtain hsame | hnew := h'.leaf va f (h.pt va f hf) i
    · rw [hsame]
      exact h.leaf va f hf i
    · exact .inr hnew
  cr3 := h'.cr3.trans h.cr3

theorem LeafStored.word (h : LeafStored t t' b i p) (ht : Layered cr3 t) (hb : CpuTable t.ram cr3 3 b)
    (ha : CpuTable t.ram cr3 k a) (hk : k < 3) (j : BitVec 9) : t'.ram.word a j = t.ram.word a j := by
  apply h.stored.other
  intro hslot
  obtain ⟨rfl, -⟩ := Prod.mk.inj hslot
  exact absurd (ht.level _ _ _ ha hb) hk.ne

theorem LeafStored.cpuDescend (h : LeafStored t t' b i p) (ht : Layered cr3 t) (hb : CpuTable t.ram cr3 3 b)
    (ha : CpuTable t.ram cr3 k a) {q : List (BitVec 9)} (hq : k + q.length ≤ 3) :
    Mcincos.cpuDescend t'.ram k a q = Mcincos.cpuDescend t.ram k a q := by
  induction q generalizing k a with
  | nil => rfl
  | cons j js ih =>
    rw [List.length_cons] at hq
    rw [Mcincos.cpuDescend, Mcincos.cpuDescend, h.word ht hb ha (by omega)]
    cases hn : cpuNext k (t.ram.word a j) with
    | none => rfl
    | some c => exact ih (ha.next (by omega) hn) (by omega)

/-- Behind a large page the call succeeds, but the large page stays in use. -/
example :
    let r := directMapVm.mmioMap 0xffff800000000000 0x5000 0x1000 (some ⟨.uc, 1, 1, 0⟩)
    r.2 = 0xffff800000005000 ∧ (cpuWalk r.1.ram r.1.cr3 r.2).leaf = some 0x83 := by
  decide +kernel

end Mcincos
