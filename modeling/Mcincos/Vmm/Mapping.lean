import Mcincos.Vmm.Tables

namespace Mcincos

open Words Radix

variable {roots : Set ℕ} {flags : U64} {s s' s'' : Vm} {path : List (BitVec 9)}

def innerPath (va : U64) : List (BitVec 9) := [Vm.idxPml4 va, Vm.idxPdpt va, Vm.idxPd va]
def pagePath (va : U64) : List (BitVec 9) := innerPath va ++ [Vm.idxPt va]

/-- What `ensure_pt` may do on the way down `path` from the root `r`: present entries and all leaves
stay, and the pages it takes from the pmm become tables behind new entries on the path. -/
structure Extends (roots : Set ℕ) (r : ℕ) (path : List (BitVec 9)) (flags : U64) (s s' : Vm) :
    Prop where
  inv : s'.Inv roots
  leaf : ∀ r' ∈ roots, ∀ q : List (BitVec 9), q.length = 4 →
    pageTables.get s'.ram.word r' q = pageTables.get s.ram.word r' q
  old : ∀ r' ∈ roots, ∀ q : List (BitVec 9), q.length ≤ 4 → ∀ e,
    pageTables.get s.ram.word r' q = some e → pageTables.get s'.ram.word r' q = some e
  new : ∀ r' ∈ roots, ∀ q : List (BitVec 9), q.length ≤ 4 → ∀ e,
    pageTables.get s.ram.word r' q = none → pageTables.get s'.ram.word r' q = some e →
    q <+: path ∧ (∃ page, 2 ^ 12 ∣ page.toNat ∧ e = linkEntry page flags) ∧
      (r' = r ∨ ∃ i is, q = i :: is ∧ pageTables.shared i)
  descend : ∀ r' ∈ roots, ∀ q : List (BitVec 9), q.length ≤ 3 → ∀ t,
    pageTables.descend s.ram.word r' q = some t → pageTables.descend s'.ram.word r' q = some t
  table : ∀ k f, pageTables.At roots s.ram.word k f → pageTables.At roots s'.ram.word k f
  grown : ∀ k f, pageTables.At roots s'.ram.word k f →
    pageTables.At roots s.ram.word k f ∨ s.pmm.Free f
  test : ∀ f, s'.pmm.bitmapTest f = true ↔
    s.pmm.bitmapTest f = true ∨ s.pmm.Free f ∧ ∃ k, pageTables.At roots s'.ram.word k f
  setup : Pmm.SameSetup s.pmm s'.pmm
  cr3 : s'.cr3 = s.cr3
  gKernelCr3Phys : s'.gKernelCr3Phys = s.gKernelCr3Phys

variable {r : ℕ}

theorem Extends.refl (hs : s.Inv roots) : Extends roots r path flags s s where
  inv := hs
  leaf := fun _ _ _ _ => rfl
  old := fun _ _ _ _ _ h => h
  new := fun _ _ _ _ _ h h' => absurd (h.symm.trans h') (by simp)
  descend := fun _ _ _ _ _ h => h
  table := fun _ _ h => h
  grown := fun _ _ h => .inl h
  test := fun f => ⟨.inl, fun h => h.elim id fun ⟨hf, k, hk⟩ => absurd hf (hs.used k f hk)⟩
  setup := .refl _
  cr3 := rfl
  gKernelCr3Phys := rfl

theorem Extends.free (h : Extends roots r path flags s s') {f : ℕ} (hf : s'.pmm.Free f) :
    s.pmm.Free f := by
  refine ⟨h.setup.total ▸ hf.1, ?_⟩
  rw [← Bool.not_eq_true]
  intro hused
  have := (h.test f).mpr (.inl hused)
  rw [hf.2] at this
  exact absurd this (by decide)

theorem Extends.trans (h : Extends roots r path flags s s')
    (h' : Extends roots r path flags s' s'') : Extends roots r path flags s s'' where
  inv := h'.inv
  leaf := fun r hr q hq => (h'.leaf r hr q hq).trans (h.leaf r hr q hq)
  old := fun r hr q hq e he => h'.old r hr q hq e (h.old r hr q hq e he)
  new := by
    intro r hr q hq e hnone he
    cases hmid : pageTables.get s'.ram.word r q with
    | none => exact h'.new r hr q hq e hmid he
    | some e' =>
      obtain rfl := Option.some.inj ((h'.old r hr q hq e' hmid).symm.trans he)
      exact h.new r hr q hq e' hnone hmid
  descend := fun r hr q hq t ht => h'.descend r hr q hq t (h.descend r hr q hq t ht)
  table := fun k f hf => h'.table k f (h.table k f hf)
  grown := by
    intro k f hf
    obtain hf | hf := h'.grown k f hf
    · exact h.grown k f hf
    · exact .inr (h.free hf)
  test := by
    intro f
    rw [h'.test f, h.test f]
    constructor
    · rintro ((hf | ⟨hf, k, hk⟩) | ⟨hf, hk⟩)
      · exact .inl hf
      · exact .inr ⟨hf, k, h'.table k f hk⟩
      · exact .inr ⟨h.free hf, hk⟩
    · rintro (hf | ⟨hf, hk⟩)
      · exact .inl (.inl hf)
      · by_cases hmid : s'.pmm.Free f
        · exact .inr ⟨hmid, hk⟩
        · refine .inl ((h.test f).mp ?_)
          have := hf.1
          rw [Pmm.Free, h.setup.total, not_and, Bool.not_eq_false] at hmid
          exact hmid this
  setup := h.setup.trans h'.setup
  cr3 := h'.cr3.trans h.cr3
  gKernelCr3Phys := h'.gKernelCr3Phys.trans h.gKernelCr3Phys

theorem Grew.extends {k a f : ℕ} {i : BitVec 9} (h : Grew roots flags s s' k a i f)
    (hs : s.Inv roots) {q : List (BitVec 9)} (hr : r ∈ roots) (hq : q.length < 3)
    (ha : pageTables.descend s.ram.word r q = some a) (hpath : q ++ [i] <+: path) :
    Extends roots r path flags s s' where
  inv := h.inv hs
  leaf := fun r hr q hq => h.get_leaf hs hr hq
  old := by
    intro r' hr' q' hq' e he
    rw [h.get hs (.root hr') (by omega), if_neg]
    · exact he
    · intro hslot
      have habsent := child_eq_none.mpr h.absent
      rw [Shape.get, hslot] at he
      simp [habsent] at he
  new := by
    intro r' hr' q' hq' e hnone he
    rw [h.get hs (.root hr') (by omega)] at he
    split_ifs at he with hslot
    · have hslot' : pageTables.slot s.ram.word r (q ++ [i]) = some (a, i) := by
        rw [slot_append, ha]
        rfl
      have hlen : (q ++ [i]).length ≤ pageTables.depth + 1 := by
        rw [List.length_append, List.length_singleton]
        exact Nat.succ_le_succ hq.le
      obtain ⟨rfl, ht⟩ := hs.forest.slot_unique hr' hr hq' hlen hslot hslot'
      obtain ⟨page, hpage, hentry⟩ := h.entry
      refine ⟨hpath, ⟨page, ⟨f, hpage⟩, by rw [← hentry]; exact (Option.some.inj he).symm⟩, ?_⟩
      rw [List.dropLast_concat] at ht
      apply ht.imp id
      rintro ⟨j, js, rfl, hj, -⟩
      exact ⟨j, js ++ [i], rfl, hj⟩
    · exact absurd (hnone.symm.trans he) (by simp)
  descend := fun r hr q hq t ht => h.descend hs (.root hr) (by omega) ht
  table := fun k f hf => h.at_mono hs hf
  grown := by
    intro l g hg
    obtain hg | ⟨-, rfl⟩ := h.at_cases hs hg
    · exact .inl hg
    · exact .inr h.free
  test := by
    intro g
    rw [h.test g, Bool.or_eq_true, decide_eq_true_eq, or_comm]
    refine or_congr_right ⟨?_, ?_⟩
    · rintro rfl
      exact ⟨h.free, k + 1, h.at_new hs⟩
    · rintro ⟨hg, l, hl⟩
      obtain hl | ⟨-, hl⟩ := h.at_cases hs hl
      · exact absurd hg (hs.used l g hl)
      · exact hl
  setup := h.setup
  cr3 := h.cr3
  gKernelCr3Phys := h.gKernelCr3Phys

theorem ensureEntry_present {table : U64} {i : BitVec 9} (flags : U64)
    (hp : s.load table i &&& pteP ≠ 0) :
    s.ensureEntry table i flags = (s, some (Vm.tableOf (s.load table i))) := by
  simp only [Vm.ensureEntry, hp, ↓reduceIte]

theorem ensureEntry_absent {table : U64} {i : BitVec 9} (flags : U64)
    (hp : s.load table i &&& pteP = 0) :
    (∃ s1, s.ensureEntry table i flags = (s1, none) ∧ s.allocPtPagePhys = (s1, 0) ∧
      s1.ram = s.ram ∧ (∀ f, s1.pmm.Free f → s.pmm.Free f) ∧
      (s1 = s ∧ (∀ f, ¬s.pmm.Free f) ∨ s.pmm.Free 0)) ∨
    ∃ s1 new f, s.ensureEntry table i flags =
        (s1.store table i (linkEntry new flags), some (Vm.tableOf (linkEntry new flags))) ∧
      new ≠ 0 ∧ s.allocPtPagePhys = (s1, new) ∧ Vm.NewPage s s1 new f := by
  rcases s.allocPtPagePhys_cases with
    ⟨he, hnone⟩ | ⟨q, he, hzero, ha⟩ | ⟨s1, new, f, he, -, hnew, h⟩
  · exact .inl ⟨s, by simp only [Vm.ensureEntry, hp, he, ↓reduceIte], he, rfl, fun _ hf => hf,
      .inl ⟨rfl, hnone⟩⟩
  · exact .inl ⟨{ s with pmm := q }, by simp only [Vm.ensureEntry, hp, he, ↓reduceIte], he, rfl,
      fun f hf => ((ha.free_iff f).mp hf).1, .inr hzero⟩
  · have hres : s.ensureEntry table i flags = (s1.store table i (linkEntry new flags),
        some (Vm.tableOf ((s1.store table i (linkEntry new flags)).load table i))) := by
      simp only [Vm.ensureEntry, hp, he, hnew, ↓reduceIte]
      rfl
    have hstored : (s1.store table i (linkEntry new flags)).load table i = linkEntry new flags := by
      rw [Vm.load_eq, Vm.store_word, if_pos ⟨rfl, rfl⟩]
    rw [hres, hstored]
    exact .inr ⟨s1, new, f, rfl, hnew, he, h⟩

theorem ensureEntry_cases (hs : s.Inv roots) {k : ℕ} {table : U64} (i : BitVec 9) (flags : U64)
    (ht : pageTables.At roots s.ram.word k (frameOf table)) (hk : k < 3) :
    (s.load table i &&& pteP ≠ 0 ∧
      s.ensureEntry table i flags = (s, some (Vm.tableOf (s.load table i)))) ∨
    (s.ensureEntry table i flags = (s, none) ∧ ∀ f, ¬s.pmm.Free f) ∨
    ∃ s' f, s.ensureEntry table i flags = (s', some (Vm.tableOf (s'.load table i))) ∧
      Grew roots flags s s' k (frameOf table) i f := by
  by_cases hp : s.load table i &&& pteP = 0
  · obtain ⟨s1, he, -, -, -, hfail⟩ | ⟨s1, new, f, he, -, -, h⟩ := ensureEntry_absent flags hp
    · obtain ⟨rfl, hnone⟩ := hfail.resolve_right hs.zero
      exact .inr (.inl ⟨he, hnone⟩)
    · have hne : frameOf table ≠ f := fun heq => hs.used k _ ht (heq ▸ h.free)
      have hstored : (s1.store table i (linkEntry new flags)).ram.word (frameOf table) i =
          linkEntry new flags := by
        rw [Vm.store_word, if_pos ⟨rfl, rfl⟩]
      refine .inr (.inr ⟨s1.store table i (linkEntry new flags), f, ?_, ?_⟩)
      · rw [he, Vm.load_eq, hstored]
      · refine ⟨ht, hk, hp, h.free, h.test, ⟨new, h.address, hstored⟩, fun j => ?_, ?_, h.setup,
          h.cr3, h.gKernelCr3Phys, ?_⟩
        · rw [Vm.store_word, if_neg fun hc => hne hc.1.symm, h.row]
        · intro g j hg hgj
          rw [Vm.store_word, if_neg hgj, h.other g hg]
        · rw [Vm.store_stores, h.stores]
  · exact .inl ⟨hp, ensureEntry_present flags hp⟩

theorem ensureEntry_spec (hs : s.Inv roots) (flags : U64) {q : List (BitVec 9)}
    {table : U64} {i : BitVec 9} (hr : r ∈ roots) (hq : q.length < 3)
    (ht : pageTables.descend s.ram.word r q = some (frameOf table)) (hpath : q ++ [i] <+: path) :
    (s.ensureEntry table i flags = (s, none) ∧ ∀ f, ¬s.pmm.Free f) ∨
    ∃ s' next, s.ensureEntry table i flags = (s', some next) ∧ Extends roots r path flags s s' ∧
      pageTables.descend s'.ram.word r (q ++ [i]) = some (frameOf next) := by
  have hat : pageTables.At roots s.ram.word (0 + q.length) (frameOf table) :=
    descend_at (.root hr) (by rw [Nat.zero_add]; exact hq.le) ht
  have hstep {t : Vm} {f : ℕ} (hd : pageTables.descend t.ram.word r q = some (frameOf table))
      (hc : pageTables.child (t.load table i) = some f) :
      pageTables.descend t.ram.word r (q ++ [i]) = some f := by
    rw [descend_append, hd]
    simp only [Option.bind_some, Shape.descend, Option.bind_fun_some]
    exact hc
  obtain ⟨hp, he⟩ | h | ⟨s', f, he, h⟩ := ensureEntry_cases hs i flags hat (by omega)
  · refine .inr ⟨s, _, he, .refl hs, hstep ht ?_⟩
    rw [frameOf_tableOf]
    exact child_eq_some.mpr ⟨hp, rfl⟩
  · exact .inl h
  · refine .inr ⟨s', _, he, h.extends hs hr hq ht hpath, hstep ?_ ?_⟩
    · exact h.descend hs (.root hr) (by omega) ht
    · obtain ⟨new, hnew, hentry⟩ := h.entry
      rw [frameOf_tableOf, Vm.load_eq, hentry]
      exact child_eq_some.mpr ⟨(child_eq_some.mp (linkEntry_child flags hnew)).1, rfl⟩

theorem ensurePt_spec (hs : s.Inv roots) {pml4 : U64} (hr : frameOf pml4 ∈ roots) (va flags : U64) :
    ∃ s' pt, s.ensurePt pml4 va flags = (s', pt) ∧ Extends roots (frameOf pml4) (innerPath va) flags s s' ∧
      ((pt = 0 ∧ ∀ f, ¬s'.pmm.Free f) ∨
        pageTables.descend s'.ram.word (frameOf pml4) (innerPath va) = some (frameOf pt)) := by
  have hd0 : pageTables.descend s.ram.word (frameOf pml4) [] = some (frameOf pml4) := rfl
  have hp1 : [] ++ [Vm.idxPml4 va] <+: innerPath va := ⟨_, rfl⟩
  have hp2 : [Vm.idxPml4 va] ++ [Vm.idxPdpt va] <+: innerPath va := ⟨_, rfl⟩
  have hp3 : [Vm.idxPml4 va, Vm.idxPdpt va] ++ [Vm.idxPd va] <+: innerPath va := ⟨_, rfl⟩
  obtain ⟨he, hx⟩ | ⟨s1, t1, he1, h1, hd1⟩ := ensureEntry_spec hs flags hr (by decide) hd0 hp1
  · exact ⟨s, 0, by simp only [Vm.ensurePt, he], .refl hs, .inl ⟨rfl, hx⟩⟩
  obtain ⟨he, hx⟩ | ⟨s2, t2, he2, h2, hd2⟩ := ensureEntry_spec h1.inv flags hr (by simp) hd1 hp2
  · exact ⟨s1, 0, by simp only [Vm.ensurePt, he1, he], h1, .inl ⟨rfl, hx⟩⟩
  obtain ⟨he, hx⟩ | ⟨s3, t3, he3, h3, hd3⟩ := ensureEntry_spec h2.inv flags hr (by simp) hd2 hp3
  · exact ⟨s2, 0, by simp only [Vm.ensurePt, he1, he2, he], h1.trans h2, .inl ⟨rfl, hx⟩⟩
  · exact ⟨s3, t3, by simp only [Vm.ensurePt, he1, he2, he3], (h1.trans h2).trans h3, .inr hd3⟩

structure LeafStored (s s' : Vm) (pt : ℕ) (i : BitVec 9) (e : U64) : Prop where
  stored : Stored s.ram.word s'.ram.word pt i e
  pmm : s'.pmm = s.pmm
  cr3 : s'.cr3 = s.cr3
  gKernelCr3Phys : s'.gKernelCr3Phys = s.gKernelCr3Phys

theorem LeafStored.store (s : Vm) (pt : U64) (i : BitVec 9) (e : U64) :
    LeafStored s (s.store pt i e) (frameOf pt) i e where
  stored := ⟨by rw [Vm.store_word, if_pos ⟨rfl, rfl⟩],
    fun g j hg => by rw [Vm.store_word, if_neg fun hc => hg (by rw [hc.1, hc.2])]⟩
  pmm := rfl
  cr3 := rfl
  gKernelCr3Phys := rfl

theorem LeafStored.again {pt : ℕ} {i : BitVec 9} {e e' : U64} (h : LeafStored s s' pt i e)
    (h' : LeafStored s' s'' pt i e') : LeafStored s s'' pt i e' where
  stored := ⟨h'.stored.here, fun g j hg => (h'.stored.other g j hg).trans (h.stored.other g j hg)⟩
  pmm := h'.pmm.trans h.pmm
  cr3 := h'.cr3.trans h.cr3
  gKernelCr3Phys := h'.gKernelCr3Phys.trans h.gKernelCr3Phys

namespace LeafStored

variable {pt : ℕ} {i : BitVec 9} {e : U64}

theorem at_iff (h : LeafStored s s' pt i e) (hs : s.Inv roots)
    (hpt : pageTables.At roots s.ram.word 3 pt) {k f : ℕ} :
    pageTables.At roots s'.ram.word k f ↔ pageTables.At roots s.ram.word k f :=
  (h.stored.sameInner hs.forest hpt).at_iff

theorem inv (h : LeafStored s s' pt i e) (hs : s.Inv roots)
    (hpt : pageTables.At roots s.ram.word 3 pt) : s'.Inv roots where
  forest := (h.stored.sameInner hs.forest hpt).forest hs.forest
  used := fun k f hf => by
    rw [h.pmm]
    exact hs.used k f ((h.at_iff hs hpt).mp hf)
  zero := by rw [h.pmm]; exact hs.zero
  width := by rw [h.pmm]; exact hs.width
  low := hs.low

theorem get (h : LeafStored s s' pt i e) (hs : s.Inv roots)
    (hpt : pageTables.At roots s.ram.word 3 pt) {r : ℕ} {q : List (BitVec 9)} (hr : r ∈ roots)
    (hq : q.length ≤ 4) :
    pageTables.get s'.ram.word r q =
      if pageTables.slot s.ram.word r q = some (pt, i) then
        (if e &&& pteP = 0 then none else some e)
      else pageTables.get s.ram.word r q := by
  rw [h.stored.get_leaf hs.forest hpt (.root hr) (by rw [Nat.zero_add]; exact hq)]
  refine if_congr Iff.rfl ?_ rfl
  by_cases hp : e &&& pteP = 0
  · rw [if_neg (by rw [child_isSome]; exact not_not.mpr hp), if_pos hp]
  · rw [if_pos (child_isSome.mpr hp), if_neg hp]

theorem get_inner (h : LeafStored s s' pt i e) (hs : s.Inv roots)
    (hpt : pageTables.At roots s.ram.word 3 pt) {r : ℕ} {q : List (BitVec 9)} (hr : r ∈ roots)
    (hq : q.length ≤ 3) : pageTables.get s'.ram.word r q = pageTables.get s.ram.word r q := by
  rw [h.get hs hpt hr (by omega), if_neg]
  intro hslot
  have hat := (slot_at (.root hr) (by rw [Nat.zero_add]; exact Nat.le_succ_of_le hq) hslot).1
  have := hs.forest.level_unique hat hpt
  omega

end LeafStored

theorem Vm.Inv.slot_iff (hs : s.Inv roots) {r r' pt : ℕ} {q q' : List (BitVec 9)} {i : BitVec 9}
    (hr : r ∈ roots) (hr' : r' ∈ roots) (hq : q.length = 3) (hq' : q'.length ≤ 4)
    (hd : pageTables.descend s.ram.word r q = some pt) :
    pageTables.slot s.ram.word r' q' = some (pt, i) →
      q' = q ++ [i] ∧ Together pageTables s.ram.word r' r q := by
  intro hslot
  have hslot' : pageTables.slot s.ram.word r (q ++ [i]) = some (pt, i) := by
    rw [slot_append, hd]
    rfl
  obtain ⟨rfl, ht⟩ := hs.forest.slot_unique hr' hr hq'
    (by rw [List.length_append, hq]; exact le_refl 4) hslot hslot'
  exact ⟨rfl, by rwa [List.dropLast_concat] at ht⟩

def leafEntry (phys flags : U64) : U64 :=
  let e := Vm.alignDown phys &&& ~~~0xfff#64 ||| (flags &&& ~~~pteNX) ||| pteP
  if flags &&& pteNX = 0 then e else e ||| pteNX

theorem alignDown_bit (x : U64) (k : ℕ) :
    (Vm.alignDown x).getLsbD k = (decide (12 ≤ k) && x.getLsbD k) := by
  have h : Vm.alignDown x = (x >>> 12) <<< 12 := and_not_low x 12
  rw [h, BitVec.getLsbD_shiftLeft, BitVec.getLsbD_ushiftRight]
  by_cases hk : k < 12
  · simp [hk]
  · by_cases hk' : k < 64
    · simp [hk, hk', show 12 + (k - 12) = k by omega, show 12 ≤ k by omega]
    · simp [hk', BitVec.getLsbD_of_ge x k (by omega)]

theorem index_alignDown (va : U64) (n : ℕ) (hn : 12 ≤ n) :
    (Vm.alignDown va >>> n).setWidth 9 = (va >>> n).setWidth 9 := by
  apply BitVec.eq_of_getLsbD_eq
  intro k _
  rw [BitVec.getLsbD_setWidth, BitVec.getLsbD_setWidth, BitVec.getLsbD_ushiftRight,
    BitVec.getLsbD_ushiftRight, alignDown_bit]
  simp [show 12 ≤ n + k by omega]

theorem idxPml4_alignDown (va : U64) : Vm.idxPml4 (Vm.alignDown va) = Vm.idxPml4 va :=
  index_alignDown va 39 (by decide)

theorem idxPdpt_alignDown (va : U64) : Vm.idxPdpt (Vm.alignDown va) = Vm.idxPdpt va :=
  index_alignDown va 30 (by decide)

theorem idxPd_alignDown (va : U64) : Vm.idxPd (Vm.alignDown va) = Vm.idxPd va :=
  index_alignDown va 21 (by decide)

theorem idxPt_alignDown (va : U64) : Vm.idxPt (Vm.alignDown va) = Vm.idxPt va :=
  index_alignDown va 12 (by decide)

theorem innerPath_alignDown (va : U64) : innerPath (Vm.alignDown va) = innerPath va := by
  rw [innerPath, idxPml4_alignDown, idxPdpt_alignDown, idxPd_alignDown, innerPath]

theorem mapPage_stored {cr3 virt flags pt : U64} (phys : U64)
    (he : s.ensurePt cr3 (Vm.alignDown virt) flags = (s'', pt)) (hpt : pt ≠ 0) :
    ∃ s', s.mapPage cr3 virt phys flags = (s', 0) ∧
      LeafStored s'' s' (frameOf pt) (Vm.idxPt virt) (leafEntry phys flags) := by
  simp only [Vm.mapPage, he, if_neg hpt, idxPt_alignDown]
  have hstore := LeafStored.store s'' pt (Vm.idxPt virt)
    (Vm.alignDown phys &&& ~~~0xfff#64 ||| (flags &&& ~~~pteNX) ||| pteP)
  by_cases hnx : flags &&& pteNX = 0
  · rw [if_pos hnx, leafEntry, if_pos hnx]
    exact ⟨_, rfl, hstore⟩
  · rw [if_neg hnx, Vm.load_eq, hstore.stored.here, leafEntry, if_neg hnx]
    exact ⟨_, rfl, hstore.again (.store _ _ _ _)⟩

/-- The outcomes of mapping a page. A page table in frame 0 is taken for a failure. -/
theorem mapPage_spec (hs : s.Inv roots) {cr3 : U64} (hr : frameOf cr3 ∈ roots)
    (virt phys flags : U64) :
    (∃ s', s.mapPage cr3 virt phys flags = (s', -1) ∧
      Extends roots (frameOf cr3) (innerPath virt) flags s s' ∧
      ((∀ f, ¬s'.pmm.Free f) ∨
        pageTables.descend s'.ram.word (frameOf cr3) (innerPath virt) = some 0)) ∨
    ∃ s1 s' pt, s.mapPage cr3 virt phys flags = (s', 0) ∧
      Extends roots (frameOf cr3) (innerPath virt) flags s s1 ∧
      pageTables.descend s1.ram.word (frameOf cr3) (innerPath virt) = some pt ∧
      LeafStored s1 s' pt (Vm.idxPt virt) (leafEntry phys flags) := by
  obtain ⟨s1, pt, he, hx, hcase⟩ := ensurePt_spec hs hr (Vm.alignDown virt) flags
  rw [innerPath_alignDown] at hx hcase
  by_cases hpt : pt = 0
  · refine .inl ⟨s1, by simp only [Vm.mapPage, he, if_pos hpt], hx, hcase.imp And.right fun hd => ?_⟩
    rw [hd, hpt]
    rfl
  · have hd := hcase.resolve_left fun h => hpt h.1
    obtain ⟨s', hmap, hstored⟩ := mapPage_stored phys he hpt
    exact .inr ⟨s1, s', frameOf pt, hmap, hx, hd, hstored⟩

theorem get_pagePath (m : ℕ → BitVec 9 → U64) (r : ℕ) (va : U64) :
    pageTables.get m r (pagePath va) = (pageTables.descend m r (innerPath va)).bind fun pt =>
      if m pt (Vm.idxPt va) &&& pteP = 0 then none else some (m pt (Vm.idxPt va)) := by
  rw [Shape.get, pagePath, slot_append]
  cases pageTables.descend m r (innerPath va) with
  | none => rfl
  | some pt =>
    simp only [Option.map_some, Option.bind_some]
    by_cases hp : m pt (Vm.idxPt va) &&& pteP = 0
    · rw [if_pos hp, if_neg (by rw [child_isSome]; exact not_not.mpr hp)]
    · rw [if_neg hp, if_pos (child_isSome.mpr hp)]

theorem vmmUnmapPageCr3_spec (s : Vm) (cr3 virt : U64) :
    (s.vmmUnmapPageCr3 cr3 virt = (s, -1) ∧
      pageTables.descend s.ram.word (frameOf cr3) (innerPath virt) = none) ∨
    ∃ s' pt, s.vmmUnmapPageCr3 cr3 virt = (s', 0) ∧
      pageTables.descend s.ram.word (frameOf cr3) (innerPath virt) = some pt ∧
      LeafStored s s' pt (Vm.idxPt virt) 0 := by
  have hchild (e : U64) (h : ¬e &&& pteP = 0) : pageTables.child e = some (frameOf (Vm.tableOf e)) := by
    rw [frameOf_tableOf]
    exact child_eq_some.mpr ⟨h, rfl⟩
  rw [← innerPath_alignDown, ← idxPt_alignDown]
  generalize hva : Vm.alignDown virt = va
  simp only [Vm.vmmUnmapPageCr3, hva, innerPath, Shape.descend]
  simp only [← Vm.load_eq]
  by_cases h4 : s.load cr3 (Vm.idxPml4 va) &&& pteP = 0
  · simp [h4, child_eq_none.mpr h4]
  simp only [h4, ↓reduceIte, hchild _ h4, Option.bind_some, ← Vm.load_eq]
  by_cases h3 : s.load (Vm.tableOf (s.load cr3 (Vm.idxPml4 va))) (Vm.idxPdpt va) &&& pteP = 0
  · simp [h3, child_eq_none.mpr h3]
  simp only [h3, ↓reduceIte, hchild _ h3, Option.bind_some, ← Vm.load_eq]
  generalize Vm.tableOf (s.load (Vm.tableOf (s.load cr3 (Vm.idxPml4 va))) (Vm.idxPdpt va)) = pd
  by_cases h2 : s.load pd (Vm.idxPd va) &&& pteP = 0
  · simp [h2, child_eq_none.mpr h2]
  · simp only [h2, ↓reduceIte, hchild _ h2, Option.bind_some]
    exact .inr ⟨_, _, rfl, rfl, .store s _ _ 0⟩

end Mcincos
