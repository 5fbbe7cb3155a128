import Mcincos.Vmm.DirectMap
import Mcincos.Vmm.System

namespace Mcincos

open Words

def Plain (k : ℕ) (e : U64) : Prop := e.toNat < 2 ^ 52 ∧ (0 < k → e &&& ptePS = 0)

theorem cpuNext_plain {k : ℕ} {e : U64} (he : Plain k e) (hp : e &&& pteP ≠ 0) :
    cpuNext k e = some (frameOf e) := by
  rw [cpuNext, if_neg hp, if_neg fun h => h.2 (he.2 h.1), frameOf_cpuAddr he.1]

theorem cpuDescend_append (r : Ram) (k a : ℕ) (q : List (BitVec 9)) (i : BitVec 9) :
    cpuDescend r k a (q ++ [i]) =
      (cpuDescend r k a q).bind fun b => cpuNext (k + q.length) (r.word b i) := by
  induction q generalizing k a with
  | nil => simp [cpuDescend]
  | cons j js ih =>
    simp only [List.cons_append, cpuDescend, ih, Option.bind_assoc, List.length_cons]
    congr 1
    funext b
    rw [show k + 1 + js.length = k + (js.length + 1) by omega]

theorem CpuTable.descend {r : Ram} {cr3 : U64} {k a b : ℕ} {q : List (BitVec 9)}
    (h : CpuTable r cr3 k a) (hk : k + q.length ≤ 3) (hd : cpuDescend r k a q = some b) :
    CpuTable r cr3 (k + q.length) b := by
  induction q generalizing k a with
  | nil => exact Option.some.inj hd ▸ h
  | cons i is ih =>
    rw [List.length_cons] at hk ⊢
    obtain ⟨c, hc, hb⟩ := Option.bind_eq_some_iff.mp hd
    have := ih (h.next (by omega) hc) (by omega) hb
    rwa [show k + 1 + is.length = k + (is.length + 1) by omega] at this

structure CpuGrew (t t' : Vm) (a : ℕ) (i : BitVec 9) (f : ℕ) : Prop where
  absent : t.ram.word a i &&& pteP = 0
  plain : ∀ k, Plain k (t'.ram.word a i)
  entry : ∀ k, cpuNext k (t'.ram.word a i) = some f
  row : ∀ j, t'.ram.word f j = 0
  other : ∀ g j, g ≠ f → ¬(g = a ∧ j = i) → t'.ram.word g j = t.ram.word g j
  free : t.pmm.Free f
  free_iff : ∀ g, t'.pmm.Free g ↔ t.pmm.Free g ∧ g ≠ f
  total : t'.pmm.gTotalPages = t.pmm.gTotalPages
  stores : t'.ram.stores = (a, i) :: ((Vm.indices.map fun j => (f, j)).reverse ++ t.ram.stores)
  cr3 : t'.cr3 = t.cr3

variable {s t t' : Vm} {cr3 : U64} {a f k b : ℕ} {i : BitVec 9}

theorem cpuNext_absent {e : U64} (h : e &&& pteP = 0) : cpuNext k e = none := if_pos h

theorem cpuNext_zero (k : ℕ) : cpuNext k 0 = none := cpuNext_absent rfl

theorem plain_linkEntry {new : U64} (flags : U64) (h : new.toNat = 4096 * f) (hf : f < 2 ^ 40)
    (k : ℕ) : Plain k (linkEntry new flags) := by
  obtain ⟨hps, hlt⟩ := linkEntry_sound flags h hf
  exact ⟨hlt, fun _ => hps⟩

theorem cpuNext_linkEntry {new : U64} (flags : U64) (h : new.toNat = 4096 * f) (hf : f < 2 ^ 40)
    (k : ℕ) : cpuNext k (linkEntry new flags) = some f := by
  obtain ⟨hp, hframe⟩ := child_eq_some.mp (linkEntry_child flags h)
  rw [cpuNext_plain (plain_linkEntry flags h hf k) hp, hframe]

theorem Vm.NewPage.cpuGrew {s1 : Vm} {new table : U64} (flags : U64) (h : Vm.NewPage s s1 new f)
    (hne : frameOf table ≠ f) (hf : f < 2 ^ 40) (hp : s.load table i &&& pteP = 0) :
    CpuGrew s (s1.store table i (linkEntry new flags)) (frameOf table) i f where
  absent := hp
  plain := fun k => by rw [Vm.store_word, if_pos ⟨rfl, rfl⟩]; exact plain_linkEntry flags h.address hf k
  entry := fun k => by rw [Vm.store_word, if_pos ⟨rfl, rfl⟩, cpuNext_linkEntry flags h.address hf]
  row := fun j => by rw [Vm.store_word, if_neg fun hc => hne hc.1.symm, h.row]
  other := fun g j hg hgj => by rw [Vm.store_word, if_neg hgj, h.other g hg]
  free := h.free
  free_iff := fun g => by
    rw [Vm.store_pmm, Pmm.Free, h.setup.total, h.test, Bool.or_eq_false_iff,
      decide_eq_false_iff_not, Pmm.Free]
    tauto
  total := h.setup.total
  stores := by rw [Vm.store_stores, h.stores]
  cr3 := h.cr3

def TableAdded (cr3 : U64) (t t' : Vm) : Prop :=
  ∃ k a i f, CpuTable t.ram cr3 k a ∧ k < 3 ∧ CpuGrew t t' a i f

theorem CpuGrew.table (h : CpuGrew t t' a i f) (hb : CpuTable t'.ram cr3 k b) :
    CpuTable t.ram cr3 k b ∨ b = f := by
  induction hb with
  | root => exact .inl .root
  | @next k b c j _ hk hn ih =>
    by_cases hbf : b = f
    · rw [hbf, h.row j, cpuNext_zero] at hn
      exact absurd hn (by simp)
    · by_cases hslot : b = a ∧ j = i
      · rw [hslot.1, hslot.2, h.entry] at hn
        exact .inr (Option.some.inj hn).symm
      · rw [h.other b j hbf hslot] at hn
        exact .inl ((ih.resolve_right hbf).next hk hn)

theorem CpuGrew.descend (h : CpuGrew t t' a i f) (hf : ∀ k, ¬CpuTable t.ram cr3 k f) {c : ℕ}
    {q : List (BitVec 9)} (hb : CpuTable t.ram cr3 k b) (hk : k + q.length ≤ 3)
    (hd : cpuDescend t.ram k b q = some c) : cpuDescend t'.ram k b q = some c := by
  induction q generalizing k b with
  | nil => exact hd
  | cons j js ih =>
    rw [List.length_cons] at hk
    obtain ⟨d, hn, hrest⟩ := Option.bind_eq_some_iff.mp hd
    have hword : t'.ram.word b j = t.ram.word b j := by
      apply h.other
      · exact fun he => hf k (he ▸ hb)
      · rintro ⟨rfl, rfl⟩
        rw [cpuNext_absent h.absent] at hn
        exact absurd hn (by simp)
    rw [cpuDescend, hword, hn]
    exact ih (hb.next (by omega) hn) (by omega) hrest

def TableFrame (s t : Vm) (f : ℕ) : Prop :=
  (∃ k, CpuTable s.ram s.cr3 k f) ∨ s.pmm.Free f ∧ ¬t.pmm.Free f

structure TableStores (s t : Vm) : Prop where
  free : ∀ f, t.pmm.Free f → s.pmm.Free f
  made : ∃ made, t.ram.stores = made ++ s.ram.stores ∧ ∀ st ∈ made, TableFrame s t st.1

structure Descended (s t : Vm) (q : List (BitVec 9)) (a : ℕ) : Prop extends TableStores s t where
  used : ∀ k b, CpuTable t.ram s.cr3 k b → ¬t.pmm.Free b
  width : t.pmm.gTotalPages ≤ 2 ^ 40
  reach : cpuDescend t.ram 0 (frameOf (cpuAddr s.cr3)) q = some a
  home : TableFrame s t a
  new : t = s ∨ ∀ i, t.ram.word a i = 0
  added : Relation.ReflTransGen (TableAdded s.cr3) s t

theorem TableFrame.mono (h : TableFrame s t f) (hfree : ∀ g, t'.pmm.Free g → t.pmm.Free g) :
    TableFrame s t' f :=
  h.imp id fun ⟨hs, ht⟩ => ⟨hs, fun hf => ht (hfree f hf)⟩

theorem TableStores.same_ram (h : TableStores s t) (hram : t'.ram = t.ram)
    (hfree : ∀ g, t'.pmm.Free g → t.pmm.Free g) : TableStores s t' where
  free := fun g hg => h.free g (hfree g hg)
  made := by
    obtain ⟨made, hmade, hst⟩ := h.made
    exact ⟨made, by rw [hram, hmade], fun st hmem => (hst st hmem).mono hfree⟩

theorem Descended.start (hused : ∀ k b, CpuTable s.ram s.cr3 k b → ¬s.pmm.Free b)
    (hwidth : s.pmm.gTotalPages ≤ 2 ^ 40) : Descended s s [] (frameOf (cpuAddr s.cr3)) where
  free := fun _ hf => hf
  made := ⟨[], rfl, by simp⟩
  used := hused
  width := hwidth
  reach := rfl
  home := .inl ⟨0, .root⟩
  new := .inl rfl
  added := .refl

theorem Descended.table {q : List (BitVec 9)} (h : Descended s t q a) (hq : q.length ≤ 3) :
    CpuTable t.ram s.cr3 q.length a := by
  have := CpuTable.root.descend (by omega) h.reach
  rwa [Nat.zero_add] at this

theorem Descended.present {q : List (BitVec 9)} {table : U64} (h : Descended s s q (frameOf table))
    (hq : q.length < 3) (hp : s.load table i &&& pteP ≠ 0)
    (hplain : Plain q.length (s.load table i)) :
    Descended s s (q ++ [i]) (frameOf (Vm.tableOf (s.load table i))) := by
  have hnext : cpuNext q.length (s.ram.word (frameOf table) i) =
      some (frameOf (Vm.tableOf (s.load table i))) := by
    rw [← Vm.load_eq, cpuNext_plain hplain hp, frameOf_tableOf]
  refine ⟨h.toTableStores, h.used, h.width, ?_, .inl ⟨_, (h.table hq.le).next hq hnext⟩, .inl rfl, .refl⟩
  rw [cpuDescend_append, h.reach, Option.bind_some, Nat.zero_add, hnext]

theorem Descended.grew {q : List (BitVec 9)} (h : Descended s t q a) (hq : q.length < 3)
    (hg : CpuGrew t t' a i f) : Descended s t' (q ++ [i]) f := by
  have hfresh (k : ℕ) : ¬CpuTable t.ram s.cr3 k f := fun hf => h.used k f hf hg.free
  have htaken : ¬t'.pmm.Free f := fun hf => ((hg.free_iff f).mp hf).2 rfl
  have hmono (g : ℕ) (hf : t'.pmm.Free g) : t.pmm.Free g := ((hg.free_iff g).mp hf).1
  constructor
  · refine ⟨fun g hf => h.free g (hmono g hf), ?_⟩
    obtain ⟨made, hmade, hst⟩ := h.made
    refine ⟨(a, i) :: ((Vm.indices.map fun j => (f, j)).reverse ++ made), ?_, fun st hmem => ?_⟩
    · rw [hg.stores, hmade, List.cons_append, List.append_assoc]
    · obtain rfl | hmem := List.mem_cons.mp hmem
      · exact h.home.mono hmono
      · obtain hmem | hmem := List.mem_append.mp hmem
        · obtain ⟨j, -, rfl⟩ := List.mem_map.mp (List.mem_reverse.mp hmem)
          exact .inr ⟨h.free f hg.free, htaken⟩
        · exact (hst st hmem).mono hmono
  · intro k b hb hf
    obtain hb | rfl := hg.table hb
    · exact h.used k b hb (hmono b hf)
    · exact htaken hf
  · rw [hg.total]
    exact h.width
  · have hd := hg.descend hfresh .root (by omega) h.reach
    rw [cpuDescend_append, hd, Option.bind_some, hg.entry]
  · exact .inr ⟨h.free f hg.free, htaken⟩
  · exact .inr hg.row
  · exact h.added.tail ⟨q.length, a, i, f, h.table hq.le, hq, hg⟩

theorem Descended.step {q : List (BitVec 9)} {table : U64} (h : Descended s t q (frameOf table))
    (hq : q.length < 3) (i : BitVec 9) (flags : U64)
    (hplain : t = s → t.load table i &&& pteP ≠ 0 → Plain q.length (t.load table i)) :
    (∃ t', t.ensureEntry table i flags = (t', none) ∧ TableStores s t') ∨
    ∃ t' next, t.ensureEntry table i flags = (t', some next) ∧
      Descended s t' (q ++ [i]) (frameOf next) ∧
      (t' = s → t = s ∧ next = Vm.tableOf (s.load table i) ∧ s.load table i &&& pteP ≠ 0) := by
  by_cases hp : t.load table i &&& pteP = 0
  · obtain ⟨t', he, -, hram, hfree, -⟩ | ⟨s1, new, f, he, -, -, hn⟩ := ensureEntry_absent flags hp
    · exact .inl ⟨t', he, h.toTableStores.same_ram hram hfree⟩
    · have hne : frameOf table ≠ f := by
        rintro rfl
        exact h.used _ _ (h.table hq.le) hn.free
      have hg := hn.cpuGrew flags hne (hn.free.1.trans_le h.width) hp
      have hnext : frameOf (Vm.tableOf (linkEntry new flags)) = f := by
        rw [frameOf_tableOf]
        exact (child_eq_some.mp (linkEntry_child flags hn.address)).2
      refine .inr ⟨_, _, he, hnext ▸ h.grew hq hg, fun hs => ?_⟩
      -- the page taken from the pmm was free at the start
      have hfree := (hg.free_iff f).mp (hs ▸ h.free f hn.free)
      exact absurd rfl hfree.2
  · obtain rfl | hrow := h.new
    · exact .inr ⟨t, _, ensureEntry_present flags hp, h.present hq hp (hplain rfl hp),
        fun _ => ⟨rfl, rfl, hp⟩⟩
    · rw [Vm.load_eq, hrow] at hp
      exact absurd rfl hp

theorem ensurePt_descended (h : Descended s s [] (frameOf cr3)) (va flags : U64)
    (hplain : ∀ ke ∈ readEntries s.ram cr3 va, Plain ke.1 ke.2) :
    ∃ t pt, s.ensurePt cr3 va flags = (t, pt) ∧
      (pt = 0 ∧ TableStores s t ∨ Descended s t (innerPath va) (frameOf pt)) := by
  obtain ⟨e4, e3, e2, h4, h3, h2, -⟩ := readEntries_cases s cr3 va
  have hplain4 (hp4 : e4 &&& pteP ≠ 0) : Plain 0 e4 := hplain _ (mem_readEntries_pml4 h4 hp4)
  have hplain3 (hp4 : e4 &&& pteP ≠ 0) (hp3 : e3 &&& pteP ≠ 0) : Plain 1 e3 :=
    hplain _ (mem_readEntries_pdpt h4 h3 hp4 hp3)
  have hplain2 (hp4 : e4 &&& pteP ≠ 0) (hp3 : e3 &&& pteP ≠ 0) (hp2 : e2 &&& pteP ≠ 0) : Plain 2 e2 :=
    hplain _ (mem_readEntries_pd h4 h3 h2 hp4 hp3 hp2)
  rcases h.step (by decide) (Vm.idxPml4 va) flags (fun _ hp => h4 ▸ hplain4 (h4 ▸ hp)) with
    ⟨t1, he1, ht⟩ | ⟨t1, n1, he1, d1, hs1⟩
  · exact ⟨t1, 0, by simp only [Vm.ensurePt, he1], .inl ⟨rfl, ht⟩⟩
  have hstep1 : t1 = s → t1.load n1 (Vm.idxPdpt va) = e3 ∧ e4 &&& pteP ≠ 0 := by
    intro hs
    obtain ⟨-, rfl, hp4⟩ := hs1 hs
    rw [h4] at hp4 ⊢
    exact ⟨hs ▸ h3, hp4⟩
  rcases d1.step (by simp) (Vm.idxPdpt va) flags
      (fun hs hp => (hstep1 hs).1 ▸ hplain3 (hstep1 hs).2 ((hstep1 hs).1 ▸ hp)) with
    ⟨t2, he2, ht⟩ | ⟨t2, n2, he2, d2, hs2⟩
  · exact ⟨t2, 0, by simp only [Vm.ensurePt, he1, he2], .inl ⟨rfl, ht⟩⟩
  have hstep2 : t2 = s → t2.load n2 (Vm.idxPd va) = e2 ∧ e4 &&& pteP ≠ 0 ∧ e3 &&& pteP ≠ 0 := by
    intro hs
    obtain ⟨hs', rfl, hp3⟩ := hs2 hs
    obtain ⟨he3, hp4⟩ := hstep1 hs'
    rw [hs'] at he3
    rw [he3] at hp3 ⊢
    exact ⟨hs ▸ h2, hp4, hp3⟩
  rcases d2.step (by simp) (Vm.idxPd va) flags
      (fun hs hp => (hstep2 hs).1 ▸ hplain2 (hstep2 hs).2.1 (hstep2 hs).2.2 ((hstep2 hs).1 ▸ hp)) with
    ⟨t3, he3, ht⟩ | ⟨t3, n3, he3, d3, -⟩
  · exact ⟨t3, 0, by simp only [Vm.ensurePt, he1, he2, he3], .inl ⟨rfl, ht⟩⟩
  · exact ⟨t3, n3, by simp only [Vm.ensurePt, he1, he2, he3], .inr d3⟩

/-- A call for `virt` stores only to page tables, its leaf where the processor looks for it in the
state `mid` before that store, or it fails and stores nothing. -/
def Agrees (s mid s' : Vm) (rc : Int) (virt : U64) : Prop :=
  rc = -1 ∧ s'.ram.stores = s.ram.stores ∨
  ∃ made, s'.ram.stores = made ++ s.ram.stores ∧ (∀ st ∈ made, TableFrame s s' st.1) ∧
    (rc = -1 ∨ ∃ pt, cpuPt mid.ram s.cr3 virt = some pt ∧ made.head? = some (pt, Vm.idxPt virt))

theorem Agrees.of_stores {mid : Vm} {virt : U64} (h : TableStores s t) : Agrees s mid t (-1) virt := by
  obtain ⟨made, hmade, hst⟩ := h.made
  exact .inr ⟨made, hmade, hst, .inl rfl⟩

theorem Agrees.of_leaf {virt pt e : U64} (h : Descended s t (innerPath virt) (frameOf pt)) :
    Agrees s t (t.store pt (Vm.idxPt virt) e) 0 virt := by
  obtain ⟨made, hmade, hst⟩ := h.made
  refine .inr ⟨(frameOf pt, Vm.idxPt virt) :: made, by rw [Vm.store_stores, hmade]; rfl, ?_,
    .inr ⟨frameOf pt, h.reach, rfl⟩⟩
  intro st hmem
  obtain rfl | hmem := List.mem_cons.mp hmem
  · exact h.home
  · exact hst st hmem

theorem Agrees.again {virt pt e e' : U64} (h : Descended s t (innerPath virt) (frameOf pt)) :
    Agrees s t ((t.store pt (Vm.idxPt virt) e).store pt (Vm.idxPt virt) e') 0 virt := by
  obtain ⟨made, hmade, hst⟩ := h.made
  refine .inr ⟨(frameOf pt, Vm.idxPt virt) :: (frameOf pt, Vm.idxPt virt) :: made,
    by rw [Vm.store_stores, Vm.store_stores, hmade]; rfl, ?_, .inr ⟨frameOf pt, h.reach, rfl⟩⟩
  intro st hmem
  obtain rfl | hmem := List.mem_cons.mp hmem
  · exact h.home
  · obtain rfl | hmem := List.mem_cons.mp hmem
    · exact h.home
    · exact hst st hmem

theorem mapPage_agrees (h : Descended s s [] (frameOf cr3)) (virt phys flags : U64)
    (hplain : ∀ ke ∈ readEntries s.ram cr3 virt, Plain ke.1 ke.2) :
    Agrees s (s.ensurePt cr3 (Vm.alignDown virt) flags).1 (s.mapPage cr3 virt phys flags).1
      (s.mapPage cr3 virt phys flags).2 virt := by
  rw [← readEntries_alignDown] at hplain
  obtain ⟨t, pt, he, hcase⟩ := ensurePt_descended h (Vm.alignDown virt) flags hplain
  simp only [Vm.mapPage, he, idxPt_alignDown]
  by_cases hpt : pt = 0
  · rw [if_pos hpt]
    exact .of_stores (hcase.elim And.right fun hd => hd.toTableStores)
  · have hd := hcase.resolve_left fun hz => hpt hz.1
    rw [innerPath_alignDown] at hd
    rw [if_neg hpt]
    split_ifs
    · exact .of_leaf hd
    · exact .again hd

theorem ensureEntry_refused {table : U64} (flags : U64) (hp : s.load table i &&& pteP = 0)
    (halloc : s.allocPtPagePhys.2 = 0) :
    ∃ s1, s.ensureEntry table i flags = (s1, none) ∧ s1.ram = s.ram := by
  obtain ⟨s1, he, -, hram, -⟩ | ⟨s1, new, f, -, hnew, ha, -⟩ := ensureEntry_absent flags hp
  · exact ⟨s1, he, hram⟩
  · rw [ha] at halloc
    exact absurd halloc hnew

theorem ensureEntry_granted {table : U64} (flags : U64) (hp : s.load table i &&& pteP = 0)
    (halloc : s.allocPtPagePhys.2 ≠ 0) :
    ∃ s1 new f, s.ensureEntry table i flags =
        (s1.store table i (linkEntry new flags), some (Vm.tableOf (linkEntry new flags))) ∧
      new ≠ 0 ∧ Vm.NewPage s s1 new f := by
  obtain ⟨s1, -, ha, -⟩ | ⟨s1, new, f, he, hnew, -, hn⟩ := ensureEntry_absent flags hp
  · rw [ha] at halloc
    exact absurd rfl halloc
  · exact ⟨s1, new, f, he, hnew, hn⟩

theorem tableOf_eq_zero {e : U64} : Vm.tableOf e = 0 ↔ frameOf e = 0 := by
  rw [frameOf, ← BitVec.toNat_inj, toNat_tableOf]
  simp

theorem ensurePt_refused (va flags : U64) (hlen : (readEntries s.ram cr3 va).length < 3)
    (halloc : s.allocPtPagePhys.2 = 0) :
    ∃ t, s.ensurePt cr3 va flags = (t, 0) ∧ t.ram = s.ram := by
  obtain ⟨e4, e3, e2, h4, h3, h2, hread⟩ := readEntries_cases s cr3 va
  subst h4 h3 h2
  obtain ⟨hp4, -⟩ | ⟨hp4, hp3, -⟩ | ⟨hp4, hp3, hp2, -⟩ | ⟨-, -, -, hr⟩ := hread
  · obtain ⟨t, he, hram⟩ := ensureEntry_refused flags hp4 halloc
    exact ⟨t, by simp only [Vm.ensurePt, he], hram⟩
  · obtain ⟨t, he, hram⟩ := ensureEntry_refused flags hp3 halloc
    exact ⟨t, by simp only [Vm.ensurePt, ensureEntry_present flags hp4, he], hram⟩
  · obtain ⟨t, he, hram⟩ := ensureEntry_refused flags hp2 halloc
    exact ⟨t, by simp only [Vm.ensurePt, ensureEntry_present flags hp4,
      ensureEntry_present flags hp3, he], hram⟩
  · rw [hr] at hlen
    exact absurd hlen (by simp)

theorem ensurePt_present {va e4 e3 e2 : U64} (flags : U64) (h4 : s.load cr3 (Vm.idxPml4 va) = e4)
    (h3 : s.load (Vm.tableOf e4) (Vm.idxPdpt va) = e3) (h2 : s.load (Vm.tableOf e3) (Vm.idxPd va) = e2)
    (hp4 : e4 &&& pteP ≠ 0) (hp3 : e3 &&& pteP ≠ 0) (hp2 : e2 &&& pteP ≠ 0) :
    s.ensurePt cr3 va flags = (s, Vm.tableOf e2) := by
  subst h4 h3 h2
  simp only [Vm.ensurePt, ensureEntry_present flags hp4, ensureEntry_present flags hp3,
    ensureEntry_present flags hp2]

/-- No table that `vmm_map_page` follows is outside the direct map, and either it follows what the
processor follows or it fails before its first store. -/
def MapMeets (hhdm : ℕ → Bool) (s : Vm) (cr3 virt : U64) : Prop :=
  Followable hhdm s cr3 virt ∧
  ((∀ ke ∈ readEntries s.ram cr3 virt, Plain ke.1 ke.2 ∧ hhdm (frameOf ke.2)) ∨
  ((readEntries s.ram cr3 virt).length < 3 ∧ (s.pmm.Free 0 ∨ ∀ f, ¬s.pmm.Free f)) ∨
  ∃ e, (2, e) ∈ readEntries s.ram cr3 virt ∧ frameOf e = 0)

def UnmapMeets (hhdm : ℕ → Bool) (s : Vm) (cr3 virt : U64) : Prop :=
  Followable hhdm s cr3 virt ∧
  ((∀ ke ∈ readEntries s.ram cr3 virt, Plain ke.1 ke.2 ∧ hhdm (frameOf ke.2)) ∨
  (readEntries s.ram cr3 virt).length < 3)

def CallAgrees (s mid : Vm) (call : Except VmFault (Vm × Int)) (virt : U64) : Prop :=
  ∃ s' rc, call = .ok (s', rc) ∧ Agrees s mid s' rc virt

theorem mapPageVirt_of_meets {hhdm : ℕ → Bool} (hd : DirectMap hhdm s) (h : Descended s s [] (frameOf cr3))
    {virt : U64} (phys flags : U64) (hmeets : MapMeets hhdm s cr3 virt) :
    CallAgrees s (s.ensurePt cr3 (Vm.alignDown virt) flags).1 (s.mapPageVirt hhdm cr3 virt phys flags) virt := by
  obtain ⟨hfollow, hplain | ⟨hlen, halloc⟩ | ⟨e, he, hz⟩⟩ := hmeets
  · have hleaf (hpt : (s.ensurePt cr3 (Vm.alignDown virt) flags).2 ≠ 0) :=
      ensurePt_mapped hd rfl hpt fun e he => (hplain (2, e) (readEntries_alignDown s.ram cr3 virt ▸ he)).2
    exact ⟨_, _, mapPageVirt_ok hd hfollow.alignDown phys flags hleaf,
      mapPage_agrees h virt phys flags fun ke hke => (hplain ke hke).1⟩
  · rw [← readEntries_alignDown] at hlen
    rw [← Vm.allocPtPagePhys_eq_zero] at halloc
    obtain ⟨t, ht, hram⟩ := ensurePt_refused (Vm.alignDown virt) flags hlen halloc
    refine ⟨t, -1, ?_, .inl ⟨rfl, by rw [hram]⟩⟩
    rw [mapPageVirt_ok hd hfollow.alignDown phys flags fun hpt => absurd (by rw [ht]) hpt]
    simp only [Vm.mapPage, ht, ↓reduceIte]
  · rw [← readEntries_alignDown] at he
    obtain ⟨e4, e3, e2, h4, h3, h2, hread⟩ := readEntries_cases s cr3 (Vm.alignDown virt)
    obtain ⟨-, hr⟩ | ⟨-, -, hr⟩ | ⟨-, -, -, hr⟩ | ⟨hp4, hp3, hp2, hr⟩ := hread
    · simp [hr] at he
    · simp [hr] at he
    · simp [hr] at he
    · obtain rfl : e = e2 := by simpa [hr] using he
      have hens : s.ensurePt cr3 (Vm.alignDown virt) flags = (s, 0) := by
        rw [ensurePt_present flags h4 h3 h2 hp4 hp3 hp2, tableOf_eq_zero.mpr hz]
      refine ⟨s, -1, ?_, .inl ⟨rfl, rfl⟩⟩
      rw [mapPageVirt_ok hd hfollow.alignDown phys flags fun hpt => absurd (by rw [hens]) hpt]
      simp only [Vm.mapPage, hens, ↓reduceIte]

/-! ### Calls that meet anything else go astray -/

theorem Agrees.leaf {mid : Vm} {virt : U64} {x : List (ℕ × BitVec 9)} (h : Agrees s mid t 0 virt)
    (hx : t.ram.stores = (a, i) :: x) : cpuPt mid.ram s.cr3 virt = some a := by
  obtain ⟨hrc, -⟩ | ⟨made, hmade, -, hrc | ⟨pt, hpt, hhead⟩⟩ := h
  · exact absurd hrc (by decide)
  · exact absurd hrc (by decide)
  · cases made with
    | nil => simp at hhead
    | cons st made =>
      obtain ⟨rfl, -⟩ := List.cons.inj (hx.symm.trans hmade)
      obtain ⟨rfl, -⟩ := Prod.mk.inj (Option.some.inj hhead)
      exact hpt

theorem mapPage_leaf {virt flags pt : U64} (phys : U64)
    (he : s.ensurePt cr3 (Vm.alignDown virt) flags = (t, pt)) (hpt : pt ≠ 0) :
    (s.mapPage cr3 virt phys flags).2 = 0 ∧ ∃ x,
      (s.mapPage cr3 virt phys flags).1.ram.stores = (frameOf pt, Vm.idxPt virt) :: x := by
  simp only [Vm.mapPage, he, if_neg hpt, idxPt_alignDown]
  split_ifs
  · exact ⟨rfl, _, rfl⟩
  · exact ⟨rfl, _, rfl⟩

theorem not_large {k : ℕ} {e : U64} (h : cpuNext k e = some f) : 0 < k → e &&& ptePS = 0 := by
  intro hk
  rw [cpuNext] at h
  split_ifs at h with hp hl
  exact not_not.mp fun hps => hl ⟨hk, hps⟩

theorem cpuPt_two {r : Ram} {p va e4 e3 : U64} {g : ℕ} (hpt : cpuPt r p va = some g)
    (h4 : r.word (frameOf (cpuAddr p)) (Vm.idxPml4 va) = e4) (hplain : Plain 0 e4)
    (hp4 : e4 &&& pteP ≠ 0) (h3 : r.word (frameOf e4) (Vm.idxPdpt va) = e3) :
    (0 < 1 → e3 &&& ptePS = 0) ∧
      cpuNext 2 (r.word (frameOf (cpuAddr e3)) (Vm.idxPd va)) = some g := by
  obtain ⟨t3, hn4, hrest⟩ := Option.bind_eq_some_iff.mp hpt
  rw [h4, cpuNext_plain hplain hp4] at hn4
  obtain rfl := Option.some.inj hn4
  obtain ⟨t2, hn3, hrest⟩ := Option.bind_eq_some_iff.mp hrest
  obtain ⟨t1, hn2, hrest⟩ := Option.bind_eq_some_iff.mp hrest
  obtain rfl := Option.some.inj hrest
  rw [h3] at hn3
  have ht2 : frameOf (cpuAddr e3) = t2 := by
    rw [cpuNext] at hn3
    split_ifs at hn3
    exact Option.some.inj hn3
  exact ⟨not_large hn3, ht2 ▸ hn2⟩

theorem plain_of_cpuPt {va e4 e3 e2 : U64} (hlt4 : e4.toNat < 2 ^ 52) (hlt3 : e3.toNat < 2 ^ 52)
    (hlt2 : e2.toNat < 2 ^ 52) (hroot : frameOf (cpuAddr s.cr3) = frameOf cr3) (h4 : s.load cr3 (Vm.idxPml4 va) = e4)
    (h3 : s.load (Vm.tableOf e4) (Vm.idxPdpt va) = e3) (h2 : s.load (Vm.tableOf e3) (Vm.idxPd va) = e2)
    (hp4 : e4 &&& pteP ≠ 0) (hpt : cpuPt s.ram s.cr3 va = some (frameOf e2)) : Plain 0 e4 ∧ Plain 1 e3 ∧ Plain 2 e2 := by
  have hplain4 : Plain 0 e4 := ⟨hlt4, fun h => absurd h (lt_irrefl 0)⟩
  rw [Vm.load_eq, ← hroot] at h4
  rw [Vm.load_eq, frameOf_tableOf] at h3 h2
  obtain ⟨hps3, hn2⟩ := cpuPt_two hpt h4 hplain4 hp4 h3
  rw [frameOf_cpuAddr hlt3, h2] at hn2
  exact ⟨hplain4, ⟨hlt3, hps3⟩, hlt2, not_large hn2⟩

theorem cpuPt_alignDown (r : Ram) (p va : U64) : cpuPt r p (Vm.alignDown va) = cpuPt r p va := by
  rw [cpuPt, idxPml4_alignDown, idxPdpt_alignDown, idxPd_alignDown, cpuPt]

theorem not_large_of_agrees (hused : ∀ k b, CpuTable s.ram s.cr3 k b → ¬s.pmm.Free b)
    (hroot : frameOf (cpuAddr s.cr3) = frameOf cr3) {virt phys flags e4 e3 : U64} (hplain4 : Plain 0 e4)
    (hagree : Agrees s (s.ensurePt cr3 (Vm.alignDown virt) flags).1
      (s.mapPage cr3 virt phys flags).1 (s.mapPage cr3 virt phys flags).2 virt)
    (halloc : s.allocPtPagePhys.2 ≠ 0)
    (h4 : s.load cr3 (Vm.idxPml4 (Vm.alignDown virt)) = e4)
    (h3 : s.load (Vm.tableOf e4) (Vm.idxPdpt (Vm.alignDown virt)) = e3)
    (hp4 : e4 &&& pteP ≠ 0) (hp3 : e3 &&& pteP ≠ 0)
    (hp2 : s.load (Vm.tableOf e3) (Vm.idxPd (Vm.alignDown virt)) &&& pteP = 0) : 0 < 1 → e3 &&& ptePS = 0 := by
  obtain ⟨s1, new, f, he, hnew, hn⟩ := ensureEntry_granted flags hp2 halloc
  have hens : s.ensurePt cr3 (Vm.alignDown virt) flags =
      (s1.store (Vm.tableOf e3) (Vm.idxPd (Vm.alignDown virt)) (linkEntry new flags),
        Vm.tableOf (linkEntry new flags)) := by
    subst h4 h3
    simp only [Vm.ensurePt, ensureEntry_present flags hp4, ensureEntry_present flags hp3, he]
  have hframe := (child_eq_some.mp (linkEntry_child flags hn.address)).2
  have hpt : Vm.tableOf (linkEntry new flags) ≠ 0 := by
    rw [Ne, tableOf_eq_zero, hframe]
    rintro rfl
    exact hnew (BitVec.eq_of_toNat_eq hn.address)
  obtain ⟨hrc, x, hx⟩ := mapPage_leaf phys hens hpt
  rw [hrc] at hagree
  have hcpu := hagree.leaf hx
  rw [hens] at hcpu
  -- the two entries on the way down have kept their words
  rw [idxPml4_alignDown, Vm.load_eq, ← hroot] at h4
  rw [idxPdpt_alignDown, Vm.load_eq, frameOf_tableOf] at h3
  have hkept (g : ℕ) (j : BitVec 9) (hg : g ≠ f) (hp : s.ram.word g j &&& pteP ≠ 0) :
      (s1.store (Vm.tableOf e3) (Vm.idxPd (Vm.alignDown virt)) (linkEntry new flags)).ram.word g j =
        s.ram.word g j := by
    rw [Vm.store_word, if_neg, hn.other g hg]
    rintro ⟨rfl, rfl⟩
    exact hp hp2
  have hroot_ne : frameOf (cpuAddr s.cr3) ≠ f := fun hf => hused 0 _ .root (hf ▸ hn.free)
  have hnext_ne : frameOf e4 ≠ f := by
    intro hf
    refine hused 1 _ (.next (i := Vm.idxPml4 virt) .root (by decide) ?_) (hf ▸ hn.free)
    rw [h4, cpuNext_plain hplain4 hp4]
  exact (cpuPt_two hcpu (by rw [hkept _ _ hroot_ne (h4 ▸ hp4), h4]) hplain4 hp4
    (by rw [hkept _ _ hnext_ne (h3 ▸ hp3), h3])).1

theorem DirectMap.lt {hhdm : ℕ → Bool} (hd : DirectMap hhdm s) {e : U64} (h : hhdm (frameOf e)) :
    e.toNat < 2 ^ 52 := by
  have hlow := hd.low _ h
  rw [frameOf] at hlow
  omega

theorem meets_of_mapPageVirt {hhdm : ℕ → Bool} (hd : DirectMap hhdm s) (h : Descended s s [] (frameOf cr3))
    {virt phys flags : U64} (hcall : CallAgrees s (s.ensurePt cr3 (Vm.alignDown virt) flags).1
      (s.mapPageVirt hhdm cr3 virt phys flags) virt) : MapMeets hhdm s cr3 virt := by
  obtain ⟨s', rc, hreturned, hagree⟩ := hcall
  obtain ⟨hfollow, hleaf⟩ := of_mapPageVirt hd hreturned
  have hres : s.mapPage cr3 virt phys flags = (s', rc) :=
    Except.ok.inj ((mapPageVirt_ok hd hfollow phys flags hleaf).symm.trans hreturned)
  have hfst : (s.mapPage cr3 virt phys flags).1 = s' := congrArg Prod.fst hres
  have hsnd : (s.mapPage cr3 virt phys flags).2 = rc := congrArg Prod.snd hres
  rw [← hfst, ← hsnd] at hagree
  have hroot : frameOf (cpuAddr s.cr3) = frameOf cr3 := Option.some.inj h.reach
  refine ⟨followable_alignDown.mp hfollow, ?_⟩
  obtain ⟨e4, e3, e2, h4, h3, h2, hread⟩ := readEntries_cases s cr3 (Vm.alignDown virt)
  have hmapped4 (hp4 : e4 &&& pteP ≠ 0) := hfollow.below _ (mem_readEntries_pml4 h4 hp4) Nat.two_pos
  have hmapped3 (hp4 : e4 &&& pteP ≠ 0) (hp3 : e3 &&& pteP ≠ 0) :=
    hfollow.below _ (mem_readEntries_pdpt h4 h3 hp4 hp3) Nat.one_lt_two
  have hplain4 (hp4 : e4 &&& pteP ≠ 0) : Plain 0 e4 := ⟨hd.lt (hmapped4 hp4), fun h => absurd h (lt_irrefl 0)⟩
  rw [← readEntries_alignDown, ← Vm.allocPtPagePhys_eq_zero]
  obtain ⟨-, hr⟩ | ⟨hp4, hp3, hr⟩ | ⟨hp4, hp3, hp2, hr⟩ | ⟨hp4, hp3, hp2, hr⟩ := hread
  · exact .inl (by simp [hr])
  · exact .inl (by simpa [hr] using ⟨hplain4 hp4, hmapped4 hp4⟩)
  · by_cases halloc : s.allocPtPagePhys.2 = 0
    · exact .inr (.inl ⟨by simp [hr], halloc⟩)
    · have hps := not_large_of_agrees h.used hroot (hplain4 hp4) hagree halloc h4 h3 hp4 hp3 (h2 ▸ hp2)
      have hplain3 : Plain 1 e3 := ⟨hd.lt (hmapped3 hp4 hp3), hps⟩
      exact .inl (by simpa [hr] using ⟨⟨hplain4 hp4, hmapped4 hp4⟩, hplain3, hmapped3 hp4 hp3⟩)
  · have hens := ensurePt_present flags h4 h3 h2 hp4 hp3 hp2
    by_cases hz : frameOf e2 = 0
    · exact .inr (.inr ⟨e2, by simp [hr], hz⟩)
    · have hpt : Vm.tableOf e2 ≠ 0 := fun h0 => hz (tableOf_eq_zero.mp h0)
      rw [hens, frameOf_tableOf] at hleaf
      obtain ⟨hrc, x, hx⟩ := mapPage_leaf phys hens hpt
      rw [hrc] at hagree
      have hcpu := hagree.leaf hx
      rw [hens, frameOf_tableOf, ← cpuPt_alignDown] at hcpu
      obtain ⟨hplain4, hplain3, hplain2⟩ := plain_of_cpuPt (hd.lt (hmapped4 hp4)) (hd.lt (hmapped3 hp4 hp3))
        (hd.lt (hleaf hpt)) hroot h4 h3 h2 hp4 hcpu
      exact .inl (by simpa [hr] using
        ⟨⟨hplain4, hmapped4 hp4⟩, ⟨hplain3, hmapped3 hp4 hp3⟩, hplain2, hleaf hpt⟩)

theorem vmmUnmapPageCr3Virt_agrees_iff {hhdm : ℕ → Bool} (hd : DirectMap hhdm s)
    (h : Descended s s [] (frameOf cr3)) (virt : U64) :
    CallAgrees s s (s.vmmUnmapPageCr3Virt hhdm cr3 virt) virt ↔ UnmapMeets hhdm s cr3 virt := by
  have hroot : frameOf (cpuAddr s.cr3) = frameOf cr3 := Option.some.inj h.reach
  obtain ⟨e4, e3, e2, h4, h3, h2, hread⟩ := readEntries_cases s cr3 (Vm.alignDown virt)
  have habsent (hfollow : Followable hhdm s cr3 virt)
      (hleaf : ∀ e, (2, e) ∈ readEntries s.ram cr3 (Vm.alignDown virt) → hhdm (frameOf e))
      (hres : s.vmmUnmapPageCr3 cr3 virt = (s, -1)) :
      CallAgrees s s (s.vmmUnmapPageCr3Virt hhdm cr3 virt) virt :=
    ⟨s, -1, by rw [vmmUnmapPageCr3Virt_ok hfollow.alignDown hleaf, hres], .inl ⟨rfl, rfl⟩⟩
  have hfollows (hcall : CallAgrees s s (s.vmmUnmapPageCr3Virt hhdm cr3 virt) virt) :
      Followable hhdm s cr3 virt ∧
        ∀ e, (2, e) ∈ readEntries s.ram cr3 (Vm.alignDown virt) → hhdm (frameOf e) := by
    obtain ⟨s', rc, hreturned, -⟩ := hcall
    exact (of_vmmUnmapPageCr3Virt hreturned).imp followable_alignDown.mp id
  rw [UnmapMeets, ← readEntries_alignDown]
  obtain ⟨hp4, hr⟩ | ⟨hp4, hp3, hr⟩ | ⟨hp4, hp3, hp2, hr⟩ | ⟨hp4, hp3, hp2, hr⟩ := hread
  · refine ⟨fun hcall => ⟨(hfollows hcall).1, .inr (by simp [hr])⟩, fun hmeets => ?_⟩
    refine habsent hmeets.1 (by simp [hr]) ?_
    simp only [Vm.vmmUnmapPageCr3, h4, hp4, ↓reduceIte]
  · refine ⟨fun hcall => ⟨(hfollows hcall).1, .inr (by simp [hr])⟩, fun hmeets => ?_⟩
    refine habsent hmeets.1 (by simp [hr]) ?_
    simp only [Vm.vmmUnmapPageCr3, h4, h3, hp4, hp3, ↓reduceIte]
  · refine ⟨fun hcall => ⟨(hfollows hcall).1, .inr (by simp [hr])⟩, fun hmeets => ?_⟩
    refine habsent hmeets.1 (by simp [hr]) ?_
    simp only [Vm.vmmUnmapPageCr3, h4, h3, h2, hp4, hp3, hp2, ↓reduceIte]
  · have hres : s.vmmUnmapPageCr3 cr3 virt = (s.store (Vm.tableOf e2) (Vm.idxPt virt) 0, 0) := by
      simp only [Vm.vmmUnmapPageCr3, h4, h3, h2, hp4, hp3, hp2, ↓reduceIte, idxPt_alignDown]
    have hmem := mem_readEntries_pd h4 h3 h2 hp4 hp3 hp2
    constructor
    · intro hcall
      obtain ⟨hfollow, hleaf⟩ := hfollows hcall
      obtain ⟨s', rc, hreturned, hagree⟩ := hcall
      rw [vmmUnmapPageCr3Virt_ok hfollow.alignDown hleaf, hres] at hreturned
      obtain ⟨rfl, rfl⟩ := Prod.mk.inj (Except.ok.inj hreturned)
      have hmapped4 := hfollow.alignDown.below _ (mem_readEntries_pml4 h4 hp4) Nat.two_pos
      have hmapped3 := hfollow.alignDown.below _ (mem_readEntries_pdpt h4 h3 hp4 hp3) Nat.one_lt_two
      have hcpu := hagree.leaf rfl
      rw [frameOf_tableOf, ← cpuPt_alignDown] at hcpu
      obtain ⟨hplain4, hplain3, hplain2⟩ := plain_of_cpuPt (hd.lt hmapped4) (hd.lt hmapped3)
        (hd.lt (hleaf e2 hmem)) hroot h4 h3 h2 hp4 hcpu
      exact ⟨hfollow, .inl (by simpa [hr] using
        ⟨⟨hplain4, hmapped4⟩, ⟨hplain3, hmapped3⟩, hplain2, hleaf e2 hmem⟩)⟩
    · rintro ⟨hfollow, hmeets⟩
      have hplain := hmeets.resolve_right (by simp [hr])
      have hok := vmmUnmapPageCr3Virt_ok hfollow.alignDown fun e he => (hplain (2, e) he).2
      refine ⟨_, _, hok.trans (congrArg _ hres), ?_⟩
      subst h4 h3 h2
      have hplain4 := (hplain _ (mem_readEntries_pml4 rfl hp4)).1
      have hplain3 := (hplain _ (mem_readEntries_pdpt rfl rfl hp4 hp3)).1
      have hplain2 := (hplain _ hmem).1
      have hdesc : Descended s s (innerPath (Vm.alignDown virt)) _ :=
        ((h.present (by decide) hp4 hplain4).present (by simp) hp3 hplain3).present (by simp) hp2 hplain2
      rw [innerPath_alignDown] at hdesc
      exact .of_leaf hdesc

def Vm.beforeLeaf (s : Vm) (virt flags : U64) : Vm :=
  (s.ensurePt (s.cr3 &&& ~~~0xfff#64) (Vm.alignDown virt) flags).1

/-- Over all memory contents, the calls agree with the processor's walk exactly when they stay in the
direct map and the entries on the way down are plain or the call fails before its first store. -/
theorem walk_agreement (hhdm : ℕ → Bool) (s : Vm) (hd : DirectMap hhdm s) (hcr3 : s.cr3.toNat < 2 ^ 52)
    (hused : ∀ k f, CpuTable s.ram s.cr3 k f → ¬s.pmm.Free f) (hwidth : s.pmm.gTotalPages ≤ 2 ^ 40)
    (virt : U64) :
    (∀ phys flags, CallAgrees s (s.beforeLeaf virt (flags &&& ~~~(ptePCD ||| ptePWT)))
      (s.vmmMapPageVirt hhdm virt phys flags) virt ↔ MapMeets hhdm s s.cr3 virt) ∧
    (∀ phys flags, CallAgrees s (s.beforeLeaf virt flags) (s.vmmMapPageMmioVirt hhdm virt phys flags) virt ↔
      MapMeets hhdm s s.cr3 virt) ∧
    (CallAgrees s s (s.vmmUnmapPageVirt hhdm virt) virt ↔ UnmapMeets hhdm s s.cr3 virt) := by
  have hframe : frameOf (s.cr3 &&& ~~~0xfff#64) = frameOf s.cr3 := frameOf_tableOf s.cr3
  have hstart : Descended s s [] (frameOf (s.cr3 &&& ~~~0xfff#64)) := by
    have := Descended.start hused hwidth
    rwa [frameOf_cpuAddr hcr3, ← hframe] at this
  have hread : readEntries s.ram (s.cr3 &&& ~~~0xfff#64) virt = readEntries s.ram s.cr3 virt := by
    unfold readEntries Ram.load
    rw [hframe]
  have hfollow : Followable hhdm s (s.cr3 &&& ~~~0xfff#64) virt ↔ Followable hhdm s s.cr3 virt := by
    constructor
    · exact fun h => ⟨hframe ▸ h.root, hread ▸ h.below⟩
    · exact fun h => ⟨hframe ▸ h.root, hread.symm ▸ h.below⟩
  have hmap (phys flags : U64) :
      CallAgrees s (s.ensurePt (s.cr3 &&& ~~~0xfff#64) (Vm.alignDown virt) flags).1
        (s.mapPageVirt hhdm (s.cr3 &&& ~~~0xfff#64) virt phys flags) virt ↔
      MapMeets hhdm s (s.cr3 &&& ~~~0xfff#64) virt :=
    ⟨meets_of_mapPageVirt hd hstart, mapPageVirt_of_meets hd hstart phys flags⟩
  have hunmap := vmmUnmapPageCr3Virt_agrees_iff hd hstart virt
  rw [MapMeets, hread, hfollow] at hmap
  rw [UnmapMeets, hread, hfollow] at hunmap
  exact ⟨fun phys flags => hmap phys _, hmap, hunmap⟩

def directMapVm : Vm :=
  { bareVm with
    ram := ⟨fun f i => if f = 1 ∧ i = 256 then 0x2003 else if f = 2 ∧ i = 0 then 0x83 else 0, []⟩
    pmm := { bareVm.pmm with bytes := [7#8], gFreeBytes := 0x5000, sized := rfl, bounded := by decide } }

theorem directMapVm_table {k f : ℕ} (h : CpuTable directMapVm.ram directMapVm.cr3 k f) :
    k = 0 ∧ f = 1 ∨ k = 1 ∧ f = 2 := by
  induction h with
  | root => exact .inl ⟨rfl, rfl⟩
  | @next k a b i _ _ hn ih =>
    obtain ⟨rfl, rfl⟩ | ⟨rfl, rfl⟩ := ih
    · refine .inr ⟨rfl, ?_⟩
      simp only [directMapVm, true_and] at hn
      split_ifs at hn with hi
      · exact (Option.some.inj hn).symm
      · omega
      · exact absurd hn (by simp [cpuNext])
    · simp only [directMapVm] at hn
      split_ifs at hn with h1 h2
      · omega
      · have hlarge : cpuNext 1 0x83 = none := by decide
        exact absurd (hlarge.symm.trans hn) (by simp)
      · exact absurd hn (by simp [cpuNext])

theorem directMapVm_used {k f : ℕ} (h : CpuTable directMapVm.ram directMapVm.cr3 k f) :
    ¬directMapVm.pmm.Free f := by
  obtain ⟨-, rfl⟩ | ⟨-, rfl⟩ := directMapVm_table h
  · decide
  · decide

theorem directMapVm_directMap : DirectMap wholeMemory directMapVm := by
  constructor
  · intro f hf
    have hsmall : f < 8 := hf.1
    exact decide_eq_true (by omega)
  · exact fun f hf => of_decide_eq_true hf

theorem walk_agreement_directMapVm : CallAgrees directMapVm (directMapVm.beforeLeaf 0x400000 pteW)
    (directMapVm.vmmMapPageVirt wholeMemory 0x400000 0x5000 pteW) 0x400000 := by
  have hwalk := walk_agreement wholeMemory directMapVm directMapVm_directMap (by decide)
    (fun _ _ => directMapVm_used) (by decide) 0x400000
  have hread : readEntries directMapVm.ram directMapVm.cr3 0x400000 = [] := by decide +kernel
  refine (hwalk.1 0x5000 pteW).mpr ⟨⟨rfl, ?_⟩, .inl ?_⟩
  all_goals
    intro ke hke
    rw [hread] at hke
    exact absurd hke List.not_mem_nil

theorem large_page_followed : ¬∀ (hhdm : ℕ → Bool) (s : Vm), DirectMap hhdm s → s.cr3.toNat < 2 ^ 52 →
    (∀ k f, CpuTable s.ram s.cr3 k f → ¬s.pmm.Free f) → s.pmm.gTotalPages ≤ 2 ^ 40 →
    ∀ virt phys flags : U64, CallAgrees s (s.beforeLeaf virt (flags &&& ~~~(ptePCD ||| ptePWT)))
      (s.vmmMapPageVirt hhdm virt phys flags) virt := by
  intro hall
  obtain ⟨s', rc, hreturned, hagree⟩ := hall wholeMemory directMapVm directMapVm_directMap (by decide)
    (fun _ _ => directMapVm_used) (by decide) 0xffff800000000000 0x5000 pteW
  have hstored : (directMapVm.vmmMapPageVirt wholeMemory 0xffff800000000000 0x5000 pteW).map
      (fun r => (r.2, r.1.ram.stores.head?)) = .ok (0, some (3, 0)) := by
    decide +kernel
  rw [hreturned] at hstored
  obtain ⟨hrc, hhead⟩ := Prod.mk.inj (Except.ok.inj hstored)
  dsimp only at hrc hhead
  subst hrc
  obtain ⟨x, hx⟩ := List.head?_eq_some_iff.mp hhead
  have hpt := hagree.leaf hx
  exact absurd hpt (by decide +kernel)

/-- An entry of the PML4 with PTE_NX leads out of the direct map. -/
example : ({ directMapVm with ram := ⟨fun f i => if f = 1 ∧ i = 256 then 0x8000000000002003 else 0, []⟩ }
    |>.vmmUnmapPageVirt wholeMemory 0xffff800000000000).map Prod.snd = .error .notMapped := by
  decide +kernel

end Mcincos
