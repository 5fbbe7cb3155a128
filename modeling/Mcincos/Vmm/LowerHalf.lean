import Mcincos.Vmm.Leaves

namespace Mcincos

open Radix

namespace Vm

def lower (s : Vm) (root : ℕ) : Vm :=
  { s with ram := { s.ram with word := fun f i =>
      if f = root ∧ 256 ≤ i.toNat then 0 else s.ram.word f i } }

variable {s s' : Vm} {root : ℕ} {table : U64} {i : BitVec 9}

theorem lower_load (h : frameOf table ≠ root ∨ i.toNat < 256) :
    (s.lower root).load table i = s.load table i :=
  if_neg fun hc => h.elim (fun hne => hne hc.1) fun hlow => Nat.not_le.mpr hlow hc.2

theorem lower_store (h : frameOf table ≠ root ∨ i.toNat < 256) (e : U64) :
    (s.store table i e).lower root = (s.lower root).store table i e := by
  have hword : ((s.store table i e).lower root).ram.word =
      ((s.lower root).store table i e).ram.word := by
    funext f j
    rw [store_word]
    change (if f = root ∧ 256 ≤ j.toNat then 0 else (s.store table i e).ram.word f j) = _
    rw [store_word]
    by_cases hupper : f = root ∧ 256 ≤ j.toNat
    · rw [if_pos hupper, if_neg]
      · exact (if_pos hupper).symm
      · rintro ⟨rfl, rfl⟩
        exact h.elim (fun hne => hne hupper.1) fun hlow => Nat.not_le.mpr hlow hupper.2
    · rw [if_neg hupper]
      exact if_congr Iff.rfl rfl (if_neg hupper).symm
  exact congrArg (fun word => ({ s with ram := ⟨word, (frameOf table, i) :: s.ram.stores⟩ } : Vm)) hword

theorem lower_zeroPage (h : frameOf table ≠ root) :
    (s.zeroPage table).lower root = (s.lower root).zeroPage table := by
  unfold zeroPage
  generalize List.range 512 = is
  induction is generalizing s with
  | nil => rfl
  | cons i is ih =>
    rw [List.foldl_cons, List.foldl_cons, ih, lower_store (.inl h)]

theorem lower_allocPtPagePhys (hroot : ¬s.pmm.Free root) : (s.lower root).allocPtPagePhys =
    (s.allocPtPagePhys.1.lower root, s.allocPtPagePhys.2) := by
  have hframe := s.allocPtPagePhys_cases
  simp only [allocPtPagePhys] at hframe ⊢
  change (if (s.pmm.pmmAllocPages 1).2 = 0 then _ else _) = _
  by_cases hp : (s.pmm.pmmAllocPages 1).2 = 0
  · simp only [if_pos hp]
    rfl
  · simp only [if_neg hp] at hframe ⊢
    obtain ⟨he, -⟩ | ⟨q, he, -⟩ | ⟨s1, phys, f, he, -, -, hnew⟩ := hframe
    · exact absurd (Prod.mk.inj he).2 hp
    · exact absurd (Prod.mk.inj he).2 hp
    · obtain ⟨-, rfl⟩ := Prod.mk.inj he
      have hne : frameOf (s.pmm.pmmAllocPages 1).2 ≠ root := by
        rw [hnew.frame]
        rintro rfl
        exact hroot hnew.free
      rw [lower_zeroPage hne]
      rfl

theorem lower_ensureEntry (hroot : ¬s.pmm.Free root) (h : frameOf table ≠ root ∨ i.toNat < 256)
    (flags : U64) : (s.lower root).ensureEntry table i flags =
      ((s.ensureEntry table i flags).1.lower root, (s.ensureEntry table i flags).2) := by
  simp only [ensureEntry, lower_load h, lower_allocPtPagePhys hroot]
  by_cases hp : s.load table i &&& pteP = 0
  · simp only [if_pos hp]
    by_cases hnew : s.allocPtPagePhys.2 = 0
    · simp only [if_pos hnew]
    · simp only [if_neg hnew, ← lower_store h, lower_load h]
  · simp only [if_neg hp]

end Vm

variable {s s' : Vm} {root : ℕ} {cr3 va : U64}

theorem Vm.Inv.ne_root (hs : s.Inv {root}) {q : List (BitVec 9)} {f : ℕ} (hq : q.length ≤ 3)
    (hne : q ≠ []) (hd : pageTables.descend s.ram.word root q = some f) : f ≠ root := by
  intro he
  have hr : root ∈ ({root} : Set ℕ) := rfl
  have hat := descend_at (.root hr) (by rw [Nat.zero_add]; exact hq) hd
  rw [he] at hat
  have hlevel := hs.forest.level_unique hat (.root hr)
  exact hne (List.length_eq_zero_iff.mp (by omega))

theorem lower_level (hs : (s.lower root).Inv {root}) (flags : U64) {q path : List (BitVec 9)}
    {table : U64} {i : BitVec 9} (hq : q.length < 3)
    (ht : pageTables.descend (s.lower root).ram.word root q = some (frameOf table))
    (hpath : q ++ [i] <+: path) (hlow : q = [] → i.toNat < 256) :
    ∃ s1 o, s.ensureEntry table i flags = (s1, o) ∧
      (s.lower root).ensureEntry table i flags = (s1.lower root, o) ∧
      ∀ next, o = some next → (s1.lower root).Inv {root} ∧
        pageTables.descend (s1.lower root).ram.word root (q ++ [i]) = some (frameOf next) := by
  have hr : root ∈ ({root} : Set ℕ) := rfl
  have hside : frameOf table ≠ root ∨ i.toNat < 256 := by
    by_cases hnil : q = []
    · exact .inr (hlow hnil)
    · exact .inl (hs.ne_root hq.le hnil ht)
  have hroot : ¬s.pmm.Free root := hs.used 0 root (.root hr)
  have hboth := Vm.lower_ensureEntry hroot hside flags
  cases hres : s.ensureEntry table i flags with
  | mk s1 o =>
  rw [hres] at hboth
  refine ⟨s1, o, rfl, hboth, ?_⟩
  rintro next rfl
  obtain ⟨he, -⟩ | ⟨t1, next', he, hx, hd⟩ := ensureEntry_spec hs flags hr hq ht hpath
  · rw [hboth] at he
    exact absurd (Prod.mk.inj he).2 (by simp)
  · rw [hboth] at he
    obtain ⟨rfl, hsome⟩ := Prod.mk.inj he
    obtain rfl := Option.some.inj hsome
    exact ⟨hx.inv, hd⟩

theorem lower_ensurePt (hs : (s.lower root).Inv {root}) (hr : frameOf cr3 = root)
    (hlow : (Vm.idxPml4 va).toNat < 256) (flags : U64) :
    ∃ s1 pt, s.ensurePt cr3 va flags = (s1, pt) ∧
      (s.lower root).ensurePt cr3 va flags = (s1.lower root, pt) ∧
      (pt ≠ 0 → frameOf pt ≠ root) := by
  have hd0 : pageTables.descend (s.lower root).ram.word root [] = some (frameOf cr3) :=
    congrArg some hr.symm
  have hp1 : [] ++ [Vm.idxPml4 va] <+: innerPath va := ⟨_, rfl⟩
  have hp2 : [Vm.idxPml4 va] ++ [Vm.idxPdpt va] <+: innerPath va := ⟨_, rfl⟩
  have hp3 : [Vm.idxPml4 va, Vm.idxPdpt va] ++ [Vm.idxPd va] <+: innerPath va := ⟨_, rfl⟩
  obtain ⟨s1, o1, he1, hl1, h1⟩ := lower_level hs flags (by decide) hd0 hp1 fun _ => hlow
  cases o1 with
  | none => exact ⟨s1, 0, by simp only [Vm.ensurePt, he1], by simp only [Vm.ensurePt, hl1], by simp⟩
  | some t1 =>
  obtain ⟨hs1, hd1⟩ := h1 t1 rfl
  obtain ⟨s2, o2, he2, hl2, h2⟩ := lower_level hs1 flags (by simp) hd1 hp2 (by simp)
  cases o2 with
  | none =>
    exact ⟨s2, 0, by simp only [Vm.ensurePt, he1, he2], by simp only [Vm.ensurePt, hl1, hl2], by simp⟩
  | some t2 =>
  obtain ⟨hs2, hd2⟩ := h2 t2 rfl
  obtain ⟨s3, o3, he3, hl3, h3⟩ := lower_level hs2 flags (by simp) hd2 hp3 (by simp)
  cases o3 with
  | none =>
    exact ⟨s3, 0, by simp only [Vm.ensurePt, he1, he2, he3],
      by simp only [Vm.ensurePt, hl1, hl2, hl3], by simp⟩
  | some t3 =>
  obtain ⟨hs3, hd3⟩ := h3 t3 rfl
  exact ⟨s3, t3, by simp only [Vm.ensurePt, he1, he2, he3],
    by simp only [Vm.ensurePt, hl1, hl2, hl3], fun _ => hs3.ne_root (le_refl 3) (by simp) hd3⟩

theorem lower_mapPage (hs : (s.lower root).Inv {root}) (hr : frameOf cr3 = root)
    (hlow : (Vm.idxPml4 va).toNat < 256) (phys flags : U64) :
    (s.lower root).mapPage cr3 va phys flags =
      ((s.mapPage cr3 va phys flags).1.lower root, (s.mapPage cr3 va phys flags).2) := by
  rw [← idxPml4_alignDown] at hlow
  obtain ⟨s1, pt, he, hl, hne⟩ := lower_ensurePt hs hr hlow flags
  simp only [Vm.mapPage, he, hl]
  by_cases hpt : pt = 0
  · simp only [if_pos hpt]
  · have hside : frameOf pt ≠ root ∨ (Vm.idxPt (Vm.alignDown va)).toNat < 256 := .inl (hne hpt)
    simp only [if_neg hpt, ← Vm.lower_store hside, Vm.lower_load hside]
    by_cases hnx : flags &&& pteNX = 0
    · simp only [if_pos hnx]
    · simp only [if_neg hnx]

theorem Vm.Inv.link_ne_root (hs : s.Inv {root}) {k : ℕ} {table : U64} {i : BitVec 9}
    (ha : pageTables.At {root} s.ram.word k (frameOf table)) (hk : k < 3)
    (hp : s.ram.load table i &&& pteP ≠ 0) : frameOf (cpuAddr (s.ram.load table i)) ≠ root ∧
      pageTables.At {root} s.ram.word (k + 1) (frameOf (cpuAddr (s.ram.load table i))) := by
  obtain ⟨-, -, hat⟩ := hs.link ha hk hp
  refine ⟨fun he => ?_, hat⟩
  have hr : root ∈ ({root} : Set ℕ) := rfl
  rw [Ram.load] at he
  rw [he] at hat
  exact absurd (hs.forest.level_unique hat (.root hr)) (by simp)

theorem cpuWalk_lower (hs : (s.lower root).Inv {root}) (hr : frameOf cr3 = root)
    (hlow : (Vm.idxPml4 va).toNat < 256) :
    cpuWalk (s.lower root).ram cr3 va = cpuWalk s.ram cr3 va := by
  have hmem : root ∈ ({root} : Set ℕ) := rfl
  have hroot : frameOf (cpuAddr cr3) = root := by
    rw [frameOf_cpuAddr (hs.root_lt (hr ▸ hmem)), hr]
  have hload {table : U64} (i : BitVec 9) (hne : frameOf table ≠ root) :
      s.ram.load table i = (s.lower root).ram.load table i := (Vm.lower_load (.inl hne)).symm
  have h4 : s.ram.load (cpuAddr cr3) (Vm.idxPml4 va) =
      (s.lower root).ram.load (cpuAddr cr3) (Vm.idxPml4 va) := (Vm.lower_load (.inr hlow)).symm
  have hat : pageTables.At {root} (s.lower root).ram.word 0 (frameOf (cpuAddr cr3)) :=
    .root hroot
  simp only [cpuWalk, h4]
  by_cases hp4 : (s.lower root).ram.load (cpuAddr cr3) (Vm.idxPml4 va) &&& pteP = 0
  · simp only [if_pos hp4]
  obtain ⟨hne3, hat3⟩ := hs.link_ne_root hat (by decide) hp4
  simp only [if_neg hp4, hload _ hne3]
  generalize (s.lower root).ram.load (cpuAddr cr3) (Vm.idxPml4 va) = e4 at hne3 hat3 ⊢
  by_cases hp3 : (s.lower root).ram.load (cpuAddr e4) (Vm.idxPdpt va) &&& pteP = 0
  · simp only [if_pos hp3]
  obtain ⟨hne2, hat2⟩ := hs.link_ne_root hat3 (by decide) hp3
  simp only [if_neg hp3, hload _ hne2]
  generalize (s.lower root).ram.load (cpuAddr e4) (Vm.idxPdpt va) = e3 at hne2 hat2 ⊢
  by_cases hp2 : (s.lower root).ram.load (cpuAddr e3) (Vm.idxPd va) &&& pteP = 0
  · simp only [if_pos hp2]
  obtain ⟨hne1, -⟩ := hs.link_ne_root hat2 (by decide) hp2
  simp only [if_neg hp2, hload _ hne1]

end Mcincos
