import Mcincos.Vmm.System

namespace Mcincos

open Radix Relation

inductive VmFault
  | notMapped
  deriving DecidableEq

namespace Vm

section Faulting

variable (hhdm : ℕ → Bool)

def loadVirt (s : Vm) (ptPhys : U64) (i : BitVec 9) : Except VmFault U64 :=
  if hhdm (frameOf ptPhys) then .ok (s.load ptPhys i) else .error .notMapped

def storeVirt (s : Vm) (ptPhys : U64) (i : BitVec 9) (e : U64) : Except VmFault Vm :=
  if hhdm (frameOf ptPhys) then .ok (s.store ptPhys i e) else .error .notMapped

def zeroPageVirt (s : Vm) (phys : U64) : Except VmFault Vm :=
  (List.range 512).foldlM (fun s i => s.storeVirt hhdm phys (BitVec.ofNat 9 i) 0) s

def allocPtPagePhysVirt (s : Vm) : Except VmFault (Vm × U64) :=
  let (pmm, p) := s.pmm.pmmAllocPages 1
  let s := { s with pmm }
  if p = 0 then .ok (s, 0) else do
    let s ← s.zeroPageVirt hhdm p
    return (s, p)

def ensureEntryVirt (s : Vm) (tablePhys : U64) (i : BitVec 9) (flags : U64) :
    Except VmFault (Vm × Option U64) := do
  let e ← s.loadVirt hhdm tablePhys i
  if e &&& pteP = 0 then
    let (s, new) ← s.allocPtPagePhysVirt hhdm
    if new = 0 then return (s, none)
    else
      let s ← s.storeVirt hhdm tablePhys i (new ||| pteP ||| pteW ||| (flags &&& pteU))
      return (s, some (tableOf (← s.loadVirt hhdm tablePhys i)))
  else return (s, some (tableOf (← s.loadVirt hhdm tablePhys i)))

def ensurePtVirt (s : Vm) (pml4Phys va flags : U64) : Except VmFault (Vm × U64) := do
  match ← s.ensureEntryVirt hhdm pml4Phys (idxPml4 va) flags with
  | (s, none) => return (s, 0)
  | (s, some pdptPhys) =>
    match ← s.ensureEntryVirt hhdm pdptPhys (idxPdpt va) flags with
    | (s, none) => return (s, 0)
    | (s, some pdPhys) =>
      match ← s.ensureEntryVirt hhdm pdPhys (idxPd va) flags with
      | (s, none) => return (s, 0)
      | (s, some ptPhys) => return (s, ptPhys)

def mapPageVirt (s : Vm) (cr3Phys virt phys flags : U64) : Except VmFault (Vm × Int) := do
  let virt := alignDown virt
  let phys := alignDown phys
  let (s, ptPhys) ← s.ensurePtVirt hhdm cr3Phys virt flags
  if ptPhys = 0 then return (s, -1)
  else
    let i1 := idxPt virt
    let s ← s.storeVirt hhdm ptPhys i1 (phys &&& ~~~0xfff#64 ||| (flags &&& ~~~pteNX) ||| pteP)
    if flags &&& pteNX = 0 then return (s, 0)
    else
      let e ← s.loadVirt hhdm ptPhys i1
      return (← s.storeVirt hhdm ptPhys i1 (e ||| pteNX), 0)

def vmmUnmapPageCr3Virt (s : Vm) (cr3Phys virt : U64) : Except VmFault (Vm × Int) := do
  let virt := alignDown virt
  let e4 ← s.loadVirt hhdm cr3Phys (idxPml4 virt)
  if e4 &&& pteP = 0 then return (s, -1)
  else
    let e3 ← s.loadVirt hhdm (tableOf e4) (idxPdpt virt)
    if e3 &&& pteP = 0 then return (s, -1)
    else
      let e2 ← s.loadVirt hhdm (tableOf e3) (idxPd virt)
      if e2 &&& pteP = 0 then return (s, -1)
      else return (← s.storeVirt hhdm (tableOf e2) (idxPt virt) 0, 0)

def vmmMapPageVirt (s : Vm) (virt phys flags : U64) : Except VmFault (Vm × Int) :=
  s.mapPageVirt hhdm (s.cr3 &&& ~~~0xfff#64) virt phys (flags &&& ~~~(ptePCD ||| ptePWT))

def vmmMapPageMmioVirt (s : Vm) (virt phys flags : U64) : Except VmFault (Vm × Int) :=
  s.mapPageVirt hhdm (s.cr3 &&& ~~~0xfff#64) virt phys flags

def vmmUnmapPageVirt (s : Vm) (virt : U64) : Except VmFault (Vm × Int) :=
  s.vmmUnmapPageCr3Virt hhdm (s.cr3 &&& ~~~0xfff#64) virt

end Faulting

variable {hhdm : ℕ → Bool} {s t : Vm} {table next : U64} {i : BitVec 9}

theorem loadVirt_ok (h : hhdm (frameOf table)) (i : BitVec 9) :
    s.loadVirt hhdm table i = .ok (s.load table i) := if_pos h

theorem storeVirt_ok (h : hhdm (frameOf table)) (i : BitVec 9) (e : U64) :
    s.storeVirt hhdm table i e = .ok (s.store table i e) := if_pos h

theorem storeVirt_fault (h : ¬hhdm (frameOf table)) (i : BitVec 9) (e : U64) :
    s.storeVirt hhdm table i e = .error .notMapped := if_neg h

theorem loadVirt_fault (h : ¬hhdm (frameOf table)) (i : BitVec 9) :
    s.loadVirt hhdm table i = .error .notMapped := if_neg h

theorem zeroPageVirt_ok (h : hhdm (frameOf table)) : s.zeroPageVirt hhdm table = .ok (s.zeroPage table) := by
  unfold zeroPageVirt zeroPage
  generalize List.range 512 = is
  induction is generalizing s with
  | nil => rfl
  | cons i is ih =>
    rw [List.foldlM_cons, List.foldl_cons, storeVirt_ok h]
    exact ih

theorem allocPtPagePhysVirt_ok (hfree : ∀ f, s.pmm.Free f → hhdm f) :
    s.allocPtPagePhysVirt hhdm = .ok s.allocPtPagePhys := by
  unfold allocPtPagePhysVirt
  by_cases hp : (s.pmm.pmmAllocPages 1).2 = 0
  · simp only [allocPtPagePhys, hp, ↓reduceIte]
  · have hmapped : hhdm (frameOf (s.pmm.pmmAllocPages 1).2) := by
      have hphys : s.allocPtPagePhys.2 = (s.pmm.pmmAllocPages 1).2 := by
        simp only [allocPtPagePhys, hp, ↓reduceIte]
      obtain ⟨he, -⟩ | ⟨q, he, -⟩ | ⟨s', phys, f, he, -, -, hnew⟩ := s.allocPtPagePhys_cases
      · exact absurd (hphys.symm.trans (congrArg Prod.snd he)) hp
      · exact absurd (hphys.symm.trans (congrArg Prod.snd he)) hp
      · rw [← hphys, he, hnew.frame]
        exact hfree f hnew.free
    simp only [allocPtPagePhys, hp, ↓reduceIte, zeroPageVirt_ok hmapped]
    rfl

theorem ensureEntryVirt_ok (hfree : ∀ f, s.pmm.Free f → hhdm f) (h : hhdm (frameOf table)) (i : BitVec 9)
    (flags : U64) : s.ensureEntryVirt hhdm table i flags = .ok (s.ensureEntry table i flags) := by
  unfold ensureEntryVirt ensureEntry
  rw [loadVirt_ok h, allocPtPagePhysVirt_ok hfree]
  by_cases hp : s.load table i &&& pteP = 0
  · rw [if_pos hp]
    by_cases hnew : s.allocPtPagePhys.2 = 0
    · simp only [bind, Except.bind, hp, hnew, ↓reduceIte]
      rfl
    · simp only [bind, Except.bind, hp, hnew, ↓reduceIte, storeVirt_ok h, loadVirt_ok h]
      rfl
  · simp only [bind, Except.bind, hp, ↓reduceIte]
    rfl

theorem ensureEntryVirt_fault (h : ¬hhdm (frameOf table)) (i : BitVec 9) (flags : U64) :
    s.ensureEntryVirt hhdm table i flags = .error .notMapped := by
  unfold ensureEntryVirt
  rw [loadVirt_fault h]
  rfl

end Vm

/-- The present entries on the way down to the page table of `va`, with their levels. -/
def readEntries (r : Ram) (cr3 va : U64) : List (ℕ × U64) :=
  let e4 := r.load cr3 (Vm.idxPml4 va)
  if e4 &&& pteP = 0 then []
  else
    let e3 := r.load (Vm.tableOf e4) (Vm.idxPdpt va)
    if e3 &&& pteP = 0 then [(0, e4)]
    else
      let e2 := r.load (Vm.tableOf e3) (Vm.idxPd va)
      if e2 &&& pteP = 0 then [(0, e4), (1, e3)] else [(0, e4), (1, e3), (2, e2)]

variable {hhdm : ℕ → Bool} {s t t' : Vm} {cr3 va table next next' e4 e3 e2 : U64} {i : BitVec 9}

theorem mem_readEntries_pml4 (h4 : s.load cr3 (Vm.idxPml4 va) = e4) (hp4 : e4 &&& pteP ≠ 0) :
    (0, e4) ∈ readEntries s.ram cr3 va := by
  rw [Vm.load] at h4
  simp only [readEntries, h4, if_neg hp4]
  split_ifs <;> exact List.mem_cons_self

theorem mem_readEntries_pdpt (h4 : s.load cr3 (Vm.idxPml4 va) = e4)
    (h3 : s.load (Vm.tableOf e4) (Vm.idxPdpt va) = e3) (hp4 : e4 &&& pteP ≠ 0) (hp3 : e3 &&& pteP ≠ 0) :
    (1, e3) ∈ readEntries s.ram cr3 va := by
  rw [Vm.load] at h4 h3
  simp only [readEntries, h4, h3, if_neg hp4, if_neg hp3]
  split_ifs <;> exact List.mem_cons_of_mem _ List.mem_cons_self

theorem mem_readEntries_pd (h4 : s.load cr3 (Vm.idxPml4 va) = e4)
    (h3 : s.load (Vm.tableOf e4) (Vm.idxPdpt va) = e3) (h2 : s.load (Vm.tableOf e3) (Vm.idxPd va) = e2)
    (hp4 : e4 &&& pteP ≠ 0) (hp3 : e3 &&& pteP ≠ 0) (hp2 : e2 &&& pteP ≠ 0) :
    (2, e2) ∈ readEntries s.ram cr3 va := by
  rw [Vm.load] at h4 h3 h2
  simp only [readEntries, h4, h3, h2, if_neg hp4, if_neg hp3, if_neg hp2]
  simp

theorem readEntries_cases (s : Vm) (cr3 va : U64) :
    ∃ e4 e3 e2, s.load cr3 (Vm.idxPml4 va) = e4 ∧ s.load (Vm.tableOf e4) (Vm.idxPdpt va) = e3 ∧
      s.load (Vm.tableOf e3) (Vm.idxPd va) = e2 ∧
      (e4 &&& pteP = 0 ∧ readEntries s.ram cr3 va = [] ∨
      e4 &&& pteP ≠ 0 ∧ e3 &&& pteP = 0 ∧ readEntries s.ram cr3 va = [(0, e4)] ∨
      e4 &&& pteP ≠ 0 ∧ e3 &&& pteP ≠ 0 ∧ e2 &&& pteP = 0 ∧
        readEntries s.ram cr3 va = [(0, e4), (1, e3)] ∨
      e4 &&& pteP ≠ 0 ∧ e3 &&& pteP ≠ 0 ∧ e2 &&& pteP ≠ 0 ∧
        readEntries s.ram cr3 va = [(0, e4), (1, e3), (2, e2)]) := by
  refine ⟨_, _, _, rfl, rfl, rfl, ?_⟩
  simp only [readEntries, Vm.load]
  generalize s.ram.load cr3 (Vm.idxPml4 va) = e4
  generalize s.ram.load (Vm.tableOf e4) (Vm.idxPdpt va) = e3
  generalize s.ram.load (Vm.tableOf e3) (Vm.idxPd va) = e2
  by_cases h4 : e4 &&& pteP = 0
  · exact .inl ⟨h4, if_pos h4⟩
  by_cases h3 : e3 &&& pteP = 0
  · exact .inr (.inl ⟨h4, h3, by rw [if_neg h4, if_pos h3]⟩)
  by_cases h2 : e2 &&& pteP = 0
  · exact .inr (.inr (.inl ⟨h4, h3, h2, by rw [if_neg h4, if_neg h3, if_pos h2]⟩))
  · exact .inr (.inr (.inr ⟨h4, h3, h2, by rw [if_neg h4, if_neg h3, if_neg h2]⟩))

theorem readEntries_alignDown (r : Ram) (cr3 va : U64) :
    readEntries r cr3 (Vm.alignDown va) = readEntries r cr3 va := by
  unfold readEntries
  rw [idxPml4_alignDown, idxPdpt_alignDown, idxPd_alignDown]

/-- A page that `ensure_pt` has taken from the pmm: what it has entered there leads to the page itself. -/
structure Fresh (s t : Vm) (next : U64) : Prop where
  free : s.pmm.Free (frameOf next)
  mono : ∀ f, t.pmm.Free f → s.pmm.Free f
  own : ∀ j, t.load next j &&& pteP ≠ 0 → frameOf (t.load next j) = frameOf next

theorem ensureEntry_next {flags : U64} (h : s.ensureEntry table i flags = (t, some next)) :
    t = s ∧ s.load table i &&& pteP ≠ 0 ∧ next = Vm.tableOf (s.load table i) ∨ Fresh s t next := by
  by_cases hp : s.load table i &&& pteP = 0
  · right
    obtain ⟨s1, he, -⟩ | ⟨s1, new, f, he, -, -, hn⟩ := ensureEntry_absent flags hp
    · exact absurd (Prod.mk.inj (he.symm.trans h)).2 (by simp)
    · obtain ⟨rfl, hnext⟩ := Prod.mk.inj (he.symm.trans h)
      obtain rfl := Option.some.inj hnext
      have hlink := (child_eq_some.mp (linkEntry_child flags hn.address)).2
      have hframe : frameOf (Vm.tableOf (linkEntry new flags)) = f := by rw [frameOf_tableOf, hlink]
      constructor
      · exact hframe ▸ hn.free
      · intro g hg
        rw [Vm.store_pmm, Pmm.Free, hn.setup.total, hn.test, Bool.or_eq_false_iff] at hg
        exact ⟨hg.1, hg.2.2⟩
      · intro j hj
        rw [Vm.load_eq, hframe, Vm.store_word] at hj ⊢
        split_ifs at hj ⊢
        · exact hlink
        · rw [hn.row j] at hj
          exact absurd rfl hj
  · rw [ensureEntry_present flags hp] at h
    obtain ⟨rfl, hnext⟩ := Prod.mk.inj h
    exact .inl ⟨rfl, hp, (Option.some.inj hnext).symm⟩

theorem Fresh.step {flags : U64} (h : Fresh s t next) (hnext : t.ensureEntry next i flags = (t', some next')) :
    Fresh s t' next' := by
  obtain ⟨rfl, hp, rfl⟩ | hfresh := ensureEntry_next hnext
  · have hsame : frameOf (Vm.tableOf (t'.load next i)) = frameOf next := by rw [frameOf_tableOf, h.own i hp]
    refine ⟨hsame ▸ h.free, h.mono, fun j hj => ?_⟩
    rw [Vm.load_eq, hsame] at hj ⊢
    exact h.own j hj
  · exact ⟨h.mono _ hfresh.free, fun f hf => h.mono f (hfresh.mono f hf), hfresh.own⟩

theorem ensureEntry_pdpt {flags : U64} (h : s.ensureEntry cr3 (Vm.idxPml4 va) flags = (t, some next)) :
    t = s ∧ (∃ e4, (0, e4) ∈ readEntries s.ram cr3 va ∧ s.load cr3 (Vm.idxPml4 va) = e4 ∧ e4 &&& pteP ≠ 0 ∧
      next = Vm.tableOf e4) ∨ Fresh s t next := by
  obtain ⟨rfl, hp, rfl⟩ | hfresh := ensureEntry_next h
  · exact .inl ⟨rfl, _, mem_readEntries_pml4 rfl hp, rfl, hp, rfl⟩
  · exact .inr hfresh

theorem ensureEntry_pd {flags : U64} (h : s.ensureEntry cr3 (Vm.idxPml4 va) flags = (t, some next))
    (hnext : t.ensureEntry next (Vm.idxPdpt va) flags = (t', some next')) :
    t' = s ∧ (∃ e4 e3, (1, e3) ∈ readEntries s.ram cr3 va ∧ s.load cr3 (Vm.idxPml4 va) = e4 ∧ e4 &&& pteP ≠ 0 ∧
      s.load (Vm.tableOf e4) (Vm.idxPdpt va) = e3 ∧ e3 &&& pteP ≠ 0 ∧ next' = Vm.tableOf e3) ∨
    Fresh s t' next' := by
  obtain ⟨rfl, e4, -, h4, hp4, rfl⟩ | hfresh := ensureEntry_pdpt h
  · obtain ⟨rfl, hp3, rfl⟩ | hfresh := ensureEntry_next hnext
    · exact .inl ⟨rfl, e4, _, mem_readEntries_pdpt h4 rfl hp4 hp3, h4, hp4, rfl, hp3, rfl⟩
    · exact .inr hfresh
  · exact .inr (hfresh.step hnext)

structure Followable (hhdm : ℕ → Bool) (s : Vm) (cr3 va : U64) : Prop where
  root : hhdm (frameOf cr3)
  below : ∀ ke ∈ readEntries s.ram cr3 va, ke.1 < 2 → hhdm (frameOf ke.2)

theorem followable_alignDown : Followable hhdm s cr3 (Vm.alignDown va) ↔ Followable hhdm s cr3 va := by
  constructor
  · exact fun h => ⟨h.root, readEntries_alignDown s.ram cr3 va ▸ h.below⟩
  · exact fun h => ⟨h.root, (readEntries_alignDown s.ram cr3 va).symm ▸ h.below⟩

theorem Followable.alignDown (h : Followable hhdm s cr3 va) : Followable hhdm s cr3 (Vm.alignDown va) :=
  followable_alignDown.mpr h

/-- What vmm.c assumes of the direct map: it holds the pages of the pmm. It maps physical addresses,
which have at most 52 bits. -/
structure DirectMap (hhdm : ℕ → Bool) (s : Vm) : Prop where
  free : ∀ f, s.pmm.Free f → hhdm f
  low : ∀ f, hhdm f → f < 2 ^ 40

theorem DirectMap.fresh (hd : DirectMap hhdm s) (h : Fresh s t next) :
    hhdm (frameOf next) ∧ ∀ f, t.pmm.Free f → hhdm f :=
  ⟨hd.free _ h.free, fun f hf => hd.free f (h.mono f hf)⟩

theorem Followable.pdpt (h : Followable hhdm s cr3 va) (hd : DirectMap hhdm s) {flags : U64}
    (hnext : s.ensureEntry cr3 (Vm.idxPml4 va) flags = (t, some next)) :
    hhdm (frameOf next) ∧ ∀ f, t.pmm.Free f → hhdm f := by
  obtain ⟨rfl, e4, hmem, -, -, rfl⟩ | hfresh := ensureEntry_pdpt hnext
  · rw [frameOf_tableOf]
    exact ⟨h.below _ hmem Nat.two_pos, hd.free⟩
  · exact hd.fresh hfresh

theorem Followable.pd (h : Followable hhdm s cr3 va) (hd : DirectMap hhdm s) {flags : U64}
    (hnext : s.ensureEntry cr3 (Vm.idxPml4 va) flags = (t, some next))
    (hnext' : t.ensureEntry next (Vm.idxPdpt va) flags = (t', some next')) :
    hhdm (frameOf next') ∧ ∀ f, t'.pmm.Free f → hhdm f := by
  obtain ⟨rfl, e4, e3, hmem, -, -, -, -, rfl⟩ | hfresh := ensureEntry_pd hnext hnext'
  · rw [frameOf_tableOf]
    exact ⟨h.below _ hmem Nat.one_lt_two, hd.free⟩
  · exact hd.fresh hfresh

theorem Followable.ensurePtVirt_ok (h : Followable hhdm s cr3 va) (hd : DirectMap hhdm s) (flags : U64) :
    s.ensurePtVirt hhdm cr3 va flags = .ok (s.ensurePt cr3 va flags) := by
  unfold Vm.ensurePtVirt Vm.ensurePt
  rw [Vm.ensureEntryVirt_ok hd.free h.root]
  rcases hpdpt : s.ensureEntry cr3 (Vm.idxPml4 va) flags with ⟨t1, _ | next1⟩
  · rfl
  obtain ⟨hmapped1, hfree1⟩ := h.pdpt hd hpdpt
  simp only [bind, Except.bind, Vm.ensureEntryVirt_ok hfree1 hmapped1]
  rcases hpd : t1.ensureEntry next1 (Vm.idxPdpt va) flags with ⟨t2, _ | next2⟩
  · rfl
  obtain ⟨hmapped2, hfree2⟩ := h.pd hd hpdpt hpd
  simp only [Vm.ensureEntryVirt_ok hfree2 hmapped2]
  rcases t2.ensureEntry next2 (Vm.idxPd va) flags with ⟨t3, _ | next3⟩
  · rfl
  · rfl

theorem followable_of_ensurePtVirt {flags : U64} {r : Vm × U64} (hd : DirectMap hhdm s)
    (h : s.ensurePtVirt hhdm cr3 va flags = .ok r) : Followable hhdm s cr3 va := by
  have hroot : hhdm (frameOf cr3) := by
    by_contra hroot
    rw [Vm.ensurePtVirt, Vm.ensureEntryVirt_fault hroot] at h
    exact absurd h (by simp [bind, Except.bind])
  obtain ⟨e4, e3, e2, h4, h3, h2, hread⟩ := readEntries_cases s cr3 va
  have hpdpt (hp4 : e4 &&& pteP ≠ 0) : hhdm (frameOf e4) := by
    by_contra hunmapped
    rw [← frameOf_tableOf] at hunmapped
    rw [Vm.ensurePtVirt, Vm.ensureEntryVirt_ok hd.free hroot, ensureEntry_present flags (h4 ▸ hp4), h4] at h
    simp only [bind, Except.bind, Vm.ensureEntryVirt_fault hunmapped] at h
    exact absurd h (by simp)
  have hpd (hp4 : e4 &&& pteP ≠ 0) (hp3 : e3 &&& pteP ≠ 0) : hhdm (frameOf e3) := by
    by_contra hunmapped
    have hmapped := hpdpt hp4
    rw [← frameOf_tableOf] at hunmapped hmapped
    rw [Vm.ensurePtVirt, Vm.ensureEntryVirt_ok hd.free hroot, ensureEntry_present flags (h4 ▸ hp4), h4] at h
    simp only [bind, Except.bind, Vm.ensureEntryVirt_ok hd.free hmapped, ensureEntry_present flags (h3 ▸ hp3), h3,
      Vm.ensureEntryVirt_fault hunmapped] at h
    exact absurd h (by simp)
  refine ⟨hroot, ?_⟩
  obtain ⟨-, hr⟩ | ⟨hp4, -, hr⟩ | ⟨hp4, hp3, -, hr⟩ | ⟨hp4, hp3, -, hr⟩ := hread
  · simp [hr]
  · simpa [hr] using hpdpt hp4
  · simpa [hr] using ⟨hpdpt hp4, hpd hp4 hp3⟩
  · simpa [hr] using ⟨hpdpt hp4, hpd hp4 hp3⟩

theorem ensurePt_mapped (hd : DirectMap hhdm s) {flags pt : U64} (h : s.ensurePt cr3 va flags = (t, pt))
    (hpt : pt ≠ 0) (hleaf : ∀ e, (2, e) ∈ readEntries s.ram cr3 va → hhdm (frameOf e)) : hhdm (frameOf pt) := by
  unfold Vm.ensurePt at h
  rcases hpdpt : s.ensureEntry cr3 (Vm.idxPml4 va) flags with ⟨t1, _ | next1⟩
  · rw [hpdpt] at h
    exact absurd (Prod.mk.inj h).2.symm hpt
  simp only [hpdpt] at h
  rcases hpd : t1.ensureEntry next1 (Vm.idxPdpt va) flags with ⟨t2, _ | next2⟩
  · rw [hpd] at h
    exact absurd (Prod.mk.inj h).2.symm hpt
  simp only [hpd] at h
  rcases hptable : t2.ensureEntry next2 (Vm.idxPd va) flags with ⟨t3, _ | next3⟩
  · rw [hptable] at h
    exact absurd (Prod.mk.inj h).2.symm hpt
  simp only [hptable] at h
  obtain ⟨-, rfl⟩ := Prod.mk.inj h
  obtain ⟨rfl, e4, e3, -, h4, hp4, h3, hp3, rfl⟩ | hfresh := ensureEntry_pd hpdpt hpd
  · obtain ⟨-, hp2, rfl⟩ | hfresh := ensureEntry_next hptable
    · rw [frameOf_tableOf]
      exact hleaf _ (mem_readEntries_pd h4 h3 rfl hp4 hp3 hp2)
    · exact (hd.fresh hfresh).1
  · exact (hd.fresh (hfresh.step hptable)).1

theorem mapPageVirt_ok (hd : DirectMap hhdm s) {virt : U64} (h : Followable hhdm s cr3 (Vm.alignDown virt))
    (phys flags : U64)
    (hleaf : (s.ensurePt cr3 (Vm.alignDown virt) flags).2 ≠ 0 →
      hhdm (frameOf (s.ensurePt cr3 (Vm.alignDown virt) flags).2)) :
    s.mapPageVirt hhdm cr3 virt phys flags = .ok (s.mapPage cr3 virt phys flags) := by
  unfold Vm.mapPageVirt Vm.mapPage
  simp only [h.ensurePtVirt_ok hd flags, bind, Except.bind]
  by_cases hpt : (s.ensurePt cr3 (Vm.alignDown virt) flags).2 = 0
  · simp only [hpt, ↓reduceIte]
    rfl
  · have hmapped := hleaf hpt
    by_cases hnx : flags &&& pteNX = 0
    · simp only [hpt, hnx, ↓reduceIte, Vm.storeVirt_ok hmapped]
      rfl
    · simp only [hpt, hnx, ↓reduceIte, Vm.storeVirt_ok hmapped, Vm.loadVirt_ok hmapped]
      rfl

theorem of_mapPageVirt (hd : DirectMap hhdm s) {virt phys flags : U64} {r : Vm × Int}
    (h : s.mapPageVirt hhdm cr3 virt phys flags = .ok r) :
    Followable hhdm s cr3 (Vm.alignDown virt) ∧
      ((s.ensurePt cr3 (Vm.alignDown virt) flags).2 ≠ 0 →
        hhdm (frameOf (s.ensurePt cr3 (Vm.alignDown virt) flags).2)) := by
  have hfollow : Followable hhdm s cr3 (Vm.alignDown virt) := by
    rcases hcall : s.ensurePtVirt hhdm cr3 (Vm.alignDown virt) flags with _ | r'
    · rw [Vm.mapPageVirt, hcall] at h
      exact absurd h (by simp [bind, Except.bind])
    · exact followable_of_ensurePtVirt hd hcall
  refine ⟨hfollow, fun hpt => ?_⟩
  by_contra hunmapped
  unfold Vm.mapPageVirt at h
  simp only [hfollow.ensurePtVirt_ok hd flags, bind, Except.bind, hpt, ↓reduceIte, Vm.storeVirt_fault hunmapped] at h
  exact absurd h (by simp)

theorem vmmUnmapPageCr3Virt_ok {virt : U64} (h : Followable hhdm s cr3 (Vm.alignDown virt))
    (hleaf : ∀ e, (2, e) ∈ readEntries s.ram cr3 (Vm.alignDown virt) → hhdm (frameOf e)) :
    s.vmmUnmapPageCr3Virt hhdm cr3 virt = .ok (s.vmmUnmapPageCr3 cr3 virt) := by
  unfold Vm.vmmUnmapPageCr3Virt Vm.vmmUnmapPageCr3
  simp only [Vm.loadVirt_ok h.root, bind, Except.bind]
  by_cases hp4 : s.load cr3 (Vm.idxPml4 (Vm.alignDown virt)) &&& pteP = 0
  · simp only [hp4, ↓reduceIte]
    rfl
  have hpdpt := h.below _ (mem_readEntries_pml4 rfl hp4) Nat.two_pos
  rw [← frameOf_tableOf] at hpdpt
  simp only [hp4, ↓reduceIte, Vm.loadVirt_ok hpdpt]
  by_cases hp3 : s.load (Vm.tableOf (s.load cr3 (Vm.idxPml4 (Vm.alignDown virt))))
      (Vm.idxPdpt (Vm.alignDown virt)) &&& pteP = 0
  · simp only [hp3, ↓reduceIte]
    rfl
  have hpd := h.below _ (mem_readEntries_pdpt rfl rfl hp4 hp3) Nat.one_lt_two
  rw [← frameOf_tableOf] at hpd
  simp only [hp3, ↓reduceIte, Vm.loadVirt_ok hpd]
  split_ifs with hp2
  · rfl
  · have hpt := hleaf _ (mem_readEntries_pd rfl rfl rfl hp4 hp3 hp2)
    rw [← frameOf_tableOf] at hpt
    rw [Vm.storeVirt_ok hpt]
    rfl

theorem of_vmmUnmapPageCr3Virt {virt : U64} {r : Vm × Int} (h : s.vmmUnmapPageCr3Virt hhdm cr3 virt = .ok r) :
    Followable hhdm s cr3 (Vm.alignDown virt) ∧
      ∀ e, (2, e) ∈ readEntries s.ram cr3 (Vm.alignDown virt) → hhdm (frameOf e) := by
  have hroot : hhdm (frameOf cr3) := by
    by_contra hroot
    rw [Vm.vmmUnmapPageCr3Virt, Vm.loadVirt_fault hroot] at h
    exact absurd h (by simp [bind, Except.bind])
  obtain ⟨e4, e3, e2, h4, h3, h2, hread⟩ := readEntries_cases s cr3 (Vm.alignDown virt)
  unfold Vm.vmmUnmapPageCr3Virt at h
  simp only [Vm.loadVirt_ok hroot, bind, Except.bind, h4] at h
  have hpdpt (hp4 : e4 &&& pteP ≠ 0) : hhdm (frameOf e4) := by
    by_contra hunmapped
    rw [← frameOf_tableOf] at hunmapped
    simp only [hp4, ↓reduceIte, Vm.loadVirt_fault hunmapped] at h
    exact absurd h (by simp)
  have hpd (hp4 : e4 &&& pteP ≠ 0) (hp3 : e3 &&& pteP ≠ 0) : hhdm (frameOf e3) := by
    by_contra hunmapped
    have hmapped := hpdpt hp4
    rw [← frameOf_tableOf] at hunmapped hmapped
    simp only [hp4, ↓reduceIte, Vm.loadVirt_ok hmapped, h3, hp3, Vm.loadVirt_fault hunmapped] at h
    exact absurd h (by simp)
  have hpt (hp4 : e4 &&& pteP ≠ 0) (hp3 : e3 &&& pteP ≠ 0) (hp2 : e2 &&& pteP ≠ 0) : hhdm (frameOf e2) := by
    by_contra hunmapped
    have hmapped4 := hpdpt hp4
    have hmapped3 := hpd hp4 hp3
    rw [← frameOf_tableOf] at hunmapped hmapped4 hmapped3
    simp only [hp4, ↓reduceIte, Vm.loadVirt_ok hmapped4, h3, hp3, Vm.loadVirt_ok hmapped3, h2, hp2,
      Vm.storeVirt_fault hunmapped] at h
    exact absurd h (by simp)
  obtain ⟨-, hr⟩ | ⟨hp4, -, hr⟩ | ⟨hp4, hp3, -, hr⟩ | ⟨hp4, hp3, hp2, hr⟩ := hread
  · exact ⟨⟨hroot, by simp [hr]⟩, by simp [hr]⟩
  · exact ⟨⟨hroot, by simpa [hr] using hpdpt hp4⟩, by simp [hr]⟩
  · exact ⟨⟨hroot, by simpa [hr] using ⟨hpdpt hp4, hpd hp4 hp3⟩⟩, by simp [hr]⟩
  · exact ⟨⟨hroot, by simpa [hr] using ⟨hpdpt hp4, hpd hp4 hp3⟩⟩, by simpa [hr] using hpt hp4 hp3 hp2⟩

def TablesMapped (hhdm : ℕ → Bool) (roots : Set ℕ) (s : Vm) : Prop :=
  ∀ k f, pageTables.At roots s.ram.word k f → hhdm f

theorem at_present {roots : Set ℕ} {k : ℕ} {table e : U64} (hat : pageTables.At roots s.ram.word k (frameOf table))
    (hk : k < 3) (he : s.load table i = e) (hp : e &&& pteP ≠ 0) :
    pageTables.At roots s.ram.word (k + 1) (frameOf (Vm.tableOf e)) := by
  rw [frameOf_tableOf]
  exact .next hat hk (child_eq_some.mpr ⟨he ▸ hp, by rw [← Vm.load_eq, he]⟩)

theorem TablesMapped.readEntries {roots : Set ℕ} (h : TablesMapped hhdm roots s) (hr : frameOf cr3 ∈ roots)
    (va : U64) : ∀ ke ∈ readEntries s.ram cr3 va, hhdm (frameOf ke.2) := by
  obtain ⟨e4, e3, e2, h4, h3, h2, hread⟩ := readEntries_cases s cr3 va
  have hpdpt (hp4 : e4 &&& pteP ≠ 0) := at_present (.root hr) (by decide) h4 hp4
  have hpd (hp4 : e4 &&& pteP ≠ 0) (hp3 : e3 &&& pteP ≠ 0) := at_present (hpdpt hp4) (by decide) h3 hp3
  have hpt (hp4 : e4 &&& pteP ≠ 0) (hp3 : e3 &&& pteP ≠ 0) (hp2 : e2 &&& pteP ≠ 0) :=
    at_present (hpd hp4 hp3) (by decide) h2 hp2
  have hmapped {k : ℕ} {e : U64} (hat : pageTables.At roots s.ram.word k (frameOf (Vm.tableOf e))) :
      hhdm (frameOf e) := frameOf_tableOf e ▸ h k _ hat
  obtain ⟨-, hr⟩ | ⟨hp4, -, hr⟩ | ⟨hp4, hp3, -, hr⟩ | ⟨hp4, hp3, hp2, hr⟩ := hread
  · simp [hr]
  · simpa [hr] using hmapped (hpdpt hp4)
  · simpa [hr] using ⟨hmapped (hpdpt hp4), hmapped (hpd hp4 hp3)⟩
  · simpa [hr] using ⟨hmapped (hpdpt hp4), hmapped (hpd hp4 hp3), hmapped (hpt hp4 hp3 hp2)⟩

theorem TablesMapped.calls {roots : Set ℕ} (h : TablesMapped hhdm roots s) (hd : DirectMap hhdm s)
    (hr : frameOf cr3 ∈ roots) (virt : U64) :
    (∀ phys flags, s.mapPageVirt hhdm cr3 virt phys flags = .ok (s.mapPage cr3 virt phys flags)) ∧
    s.vmmUnmapPageCr3Virt hhdm cr3 virt = .ok (s.vmmUnmapPageCr3 cr3 virt) := by
  have hread := h.readEntries hr (Vm.alignDown virt)
  have hfollow : Followable hhdm s cr3 (Vm.alignDown virt) := ⟨h 0 _ (.root hr), fun ke hke _ => hread ke hke⟩
  constructor
  · intro phys flags
    exact mapPageVirt_ok hd hfollow phys flags fun hpt => ensurePt_mapped hd rfl hpt fun e he => hread (2, e) he
  · exact vmmUnmapPageCr3Virt_ok hfollow fun e he => hread (2, e) he

def wholeMemory (f : ℕ) : Bool := f < 2 ^ 40

namespace System

variable {c c' : System}

structure Mapped (hhdm : ℕ → Bool) (p0 : Pmm) (c : System) : Prop extends c.Inv p0 where
  free : ∀ f, p0.Free f → hhdm f
  low : ∀ f, hhdm f → f < 2 ^ 40
  tables : TablesMapped hhdm c.roots c.vm

variable {p0 : Pmm}

theorem Mapped.grown (h : c.Mapped hhdm p0) (hinv : c'.Inv p0)
    (hgrown : ∀ k f, pageTables.At c'.roots c'.vm.ram.word k f →
      pageTables.At c.roots c.vm.ram.word k f ∨ c.vm.pmm.Free f) : c'.Mapped hhdm p0 where
  toInv := hinv
  free := h.free
  low := h.low
  tables := fun k f hat => (hgrown k f hat).elim (h.tables k f) fun hf => h.free f (h.owns.free_base hf).1

theorem Mapped.page (h : c.Mapped hhdm p0) {call : PageCall} (hcall : ∀ sp, call.space = some sp → sp ∈ c.spaces) :
    (c.page call).Mapped hhdm p0 := by
  obtain ⟨hc, -⟩ := call.change h.vm (h.root_mem hcall)
  have hroots : (c.page call).roots = c.roots := roots_congr hc.gKernelCr3Phys
  refine h.grown (h.toInv.page hcall) ?_
  rw [hroots]
  exact hc.grown

theorem Mapped.step (h : c.Mapped hhdm p0) (hs : Step c c') : c'.Mapped hhdm p0 := by
  have hinv := h.toInv.step hs
  cases hs with
  | client _ => exact ⟨hinv, h.free, h.low, h.tables⟩
  | @write b phys e i hb hphys =>
    have hinner : SameInner pageTables c.roots c.vm.ram.word (c.vm.store phys i e).ram.word :=
      fun k f hf _ j => congrFun (h.write_word hb hphys i e hf) j
    exact h.grown hinv fun k f hat => .inl (hinner.at_iff.mp hat)
  | page call hcall => exact h.page hcall
  | @mmioMap hhdmOffset phys size opts =>
    apply Vm.mmioMap_induction (P := fun s => Mapped hhdm p0 { c with vm := s }) _ h
    intro s v p flags hs
    have hpage : (System.page { c with vm := s } (.mapMmio v p flags)).Mapped hhdm p0 :=
      hs.page (by simp [PageCall.space])
    exact hpage
  | create =>
    obtain he | ⟨s', phys, f, he, hphys, hc⟩ := vmmCreateSpace_cases h.vm c.kernel_mem
    · rw [System.create, he]
      exact h
    · rw [System.create, he] at hinv ⊢
      dsimp only at hinv ⊢
      rw [if_neg hphys] at hinv ⊢
      refine h.grown hinv ?_
      rw [roots_created hc]
      exact hc.grown
  | @switch space hspace =>
    refine h.grown hinv ?_
    rw [Vm.vmmSwitchSpace]
    split_ifs <;> exact fun k f => .inl

theorem Mapped.run (h : c.Mapped hhdm p0) (hrun : ReflTransGen Step c c') : c'.Mapped hhdm p0 := by
  induction hrun with
  | refl => exact h
  | tail _ hs ih => exact ih.step hs

end System

end Mcincos
