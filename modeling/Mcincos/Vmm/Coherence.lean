import Mcincos.Vmm.Tlb

namespace Mcincos

open Words Radix Relation Caching

variable {roots roots' : Set ℕ} {s s' s1 : Vm} {r : ℕ} {virt flags cr3 : U64} {path : List (BitVec 9)} {es : List U64}

@[simp] theorem tableAfter_concat (cr3 : U64) (es : List U64) (e : U64) :
    tableAfter cr3 (es ++ [e]) = frameOf (cpuAddr e) := by
  rw [tableAfter, List.getLast?_concat, Option.getD_some]

theorem Learns.memory {m : Ram} {uppers : List (List (BitVec 9) × List U64)}
    (hc : Coherent (Learns m cr3 []) uppers) (h : Learns m cr3 uppers path es) : Learns m cr3 [] path es := by
  induction h with
  | root => exact .root
  | cached hmem => exact hc _ hmem
  | next _ hlen hsome ih => exact ih.next hlen hsome

theorem Learns.descend (hs : s.Inv roots) (hr : frameOf cr3 ∈ roots) (h : Learns s.ram cr3 [] path es) :
    path.length ≤ 3 ∧ pageTables.descend s.ram.word (frameOf cr3) path = some (tableAfter cr3 es) := by
  induction h with
  | root => exact ⟨Nat.zero_le _, congrArg some (frameOf_cpuAddr (hs.root_lt hr)).symm⟩
  | cached hmem => exact absurd hmem List.not_mem_nil
  | @next path es i _ hlen hsome ih =>
    obtain ⟨-, hd⟩ := ih
    have hat : pageTables.At roots s.ram.word path.length (tableAfter cr3 es) := by
      have hdeep := descend_at (.root hr) (by rw [Nat.zero_add]; exact hlen.le) hd
      rwa [Nat.zero_add] at hdeep
    have hp : s.ram.word (tableAfter cr3 es) i &&& pteP ≠ 0 := by
      intro hzero
      rw [cpuNext, if_pos hzero] at hsome
      cases hsome
    obtain ⟨hchild, -, -⟩ := hs.link hat hlen hp
    constructor
    · rw [List.length_append]
      exact hlen
    · rw [descend_append, hd]
      simp only [Option.bind_some, Shape.descend, Option.bind_fun_some, hchild, tableAfter_concat]

theorem learns_next_iff (hs : s.Inv roots) (hr : frameOf cr3 ∈ roots) (h : Learns s.ram cr3 [] path es)
    (hlen : path.length < 3) (i : BitVec 9) (e : U64) :
    pageTables.get s.ram.word (frameOf cr3) (path ++ [i]) = some e ↔
      (cpuNext path.length (s.ram.word (tableAfter cr3 es) i)).isSome ∧ s.ram.word (tableAfter cr3 es) i = e := by
  obtain ⟨-, hd⟩ := h.descend hs hr
  have hat : pageTables.At roots s.ram.word path.length (tableAfter cr3 es) := by
    have hdeep := descend_at (.root hr) (by rw [Nat.zero_add]; exact hlen.le) hd
    rwa [Nat.zero_add] at hdeep
  rw [Shape.get, slot_append, hd]
  simp only [Option.map_some, Option.bind_some]
  by_cases hp : s.ram.word (tableAfter cr3 es) i &&& pteP = 0
  · rw [child_eq_none.mpr hp, cpuNext, if_pos hp]
    simp
  · obtain ⟨hchild, hps, -⟩ := hs.link hat hlen hp
    have hnext : (cpuNext path.length (s.ram.word (tableAfter cr3 es) i)).isSome := by
      rw [cpuNext, if_neg hp, if_neg fun hc => hc.2 hps]
      rfl
    rw [hchild, hnext]
    simp

theorem Learns.kept (h : Learns s.ram cr3 [] path es) (hs : s.Inv roots) (hs' : s'.Inv roots')
    (hr : frameOf cr3 ∈ roots) (hr' : frameOf cr3 ∈ roots') (hold : ∀ q : List (BitVec 9), q.length ≤ 3 → ∀ e,
      pageTables.get s.ram.word (frameOf cr3) q = some e → pageTables.get s'.ram.word (frameOf cr3) q = some e) :
    Learns s'.ram cr3 [] path es := by
  induction h with
  | root => exact .root
  | cached hmem => exact absurd hmem List.not_mem_nil
  | @next path es i h hlen hsome ih =>
    have hget := (learns_next_iff hs hr h hlen i _).mpr ⟨hsome, rfl⟩
    have hget' := hold _ (by rw [List.length_append]; exact hlen) _ hget
    obtain ⟨hsome', heq⟩ := (learns_next_iff hs' hr' ih hlen i _).mp hget'
    rw [← heq]
    exact ih.next hlen hsome'

theorem Learns.concat {m : Ram} {i : BitVec 9} (h : Learns m cr3 [] (path ++ [i]) es) : ∃ es',
    Learns m cr3 [] path es' ∧ (cpuNext path.length (m.word (tableAfter cr3 es') i)).isSome ∧
      es = es' ++ [m.word (tableAfter cr3 es') i] := by
  generalize hp : path ++ [i] = p at h
  cases h with
  | root => simp at hp
  | cached hmem => exact absurd hmem List.not_mem_nil
  | @next path' es' j h' hlen hsome =>
    obtain ⟨rfl, hi⟩ := List.append_inj' hp rfl
    obtain rfl : i = j := by simpa using hi
    exact ⟨es', h', hsome, rfl⟩

theorem cpuNext_isSome {k : ℕ} {e : U64} : (cpuNext k e).isSome ↔ e &&& pteP ≠ 0 ∧ (0 < k → e &&& ptePS = 0) := by
  unfold cpuNext
  split_ifs with hp hps
  · simp [hp]
  · exact iff_of_false (by simp) fun h => hps.2 (h.2 hps.1)
  · refine iff_of_true rfl ⟨hp, fun hk => ?_⟩
    by_contra hne
    exact hps ⟨hk, hne⟩

theorem Learns.length {m : Ram} (h : Learns m cr3 [] path es) : es.length = path.length := by
  induction h with
  | root => rfl
  | cached hmem => exact absurd hmem List.not_mem_nil
  | next _ _ _ ih => simp [ih]

theorem Learns.last {m : Ram} (path : List (BitVec 9)) (es : List U64) {i : BitVec 9} {e : U64}
    (h : Learns m cr3 [] (path ++ [i]) (es ++ [e])) :
    Learns m cr3 [] path es ∧ m.word (tableAfter cr3 es) i = e ∧ e &&& pteP ≠ 0 ∧
      (0 < path.length → e &&& ptePS = 0) := by
  obtain ⟨es', h', hsome, he⟩ := h.concat
  obtain ⟨rfl, he⟩ := List.append_inj' he rfl
  obtain rfl := List.singleton_inj.mp he
  exact ⟨h', rfl, cpuNext_isSome.mp hsome⟩

theorem Learns.pml4 {m : Ram} {va e4 : U64} (h : Learns m cr3 [] [Vm.idxPml4 va] [e4]) :
    cpuWalkPdpt m va e4 = cpuWalk m cr3 va := by
  obtain ⟨-, rfl, hp, -⟩ := Learns.last [] [] h
  exact (if_neg hp).symm

theorem Learns.pdpt {m : Ram} {va e4 e3 : U64} (h : Learns m cr3 [] [Vm.idxPml4 va, Vm.idxPdpt va] [e4, e3]) :
    cpuWalkPd m va e4 e3 = cpuWalk m cr3 va := by
  obtain ⟨h4, rfl, hp, hps⟩ := Learns.last [_] [_] h
  rw [← h4.pml4]
  exact ((if_neg hp).trans (if_neg (not_not.mpr (hps Nat.one_pos)))).symm

theorem Learns.pd {m : Ram} {va e4 e3 e2 : U64} (h : Learns m cr3 [] (innerPath va) [e4, e3, e2]) :
    cpuWalkPt m va e4 e3 e2 = cpuWalk m cr3 va := by
  obtain ⟨h3, rfl, hp, hps⟩ := Learns.last [_, _] [_, _] h
  rw [← h3.pdpt]
  exact ((if_neg hp).trans (if_neg (not_not.mpr (hps Nat.two_pos)))).symm

theorem prefix_innerPath {va : U64} (h : path <+: innerPath va) :
    path = [] ∨ path = [Vm.idxPml4 va] ∨ path = [Vm.idxPml4 va, Vm.idxPdpt va] ∨ path = innerPath va := by
  have htake := List.prefix_iff_eq_take.mp h
  have hlen : path.length ≤ 3 := h.length_le
  interval_cases path.length
  · exact .inl htake
  · exact .inr (.inl htake)
  · exact .inr (.inr (.inl htake))
  · exact .inr (.inr (.inr htake))

theorem cpuWalkFrom_eq {m : Ram} {va : U64} (h : Learns m cr3 [] path es) (hpath : path <+: innerPath va) :
    cpuWalkFrom m cr3 va es = cpuWalk m cr3 va := by
  have hlength := h.length
  obtain rfl | rfl | rfl | rfl := prefix_innerPath hpath
  · obtain rfl := List.length_eq_zero_iff.mp hlength
    rfl
  · obtain ⟨e4, rfl⟩ := List.length_eq_one_iff.mp hlength
    exact h.pml4
  · obtain ⟨e4, e3, rfl⟩ := List.length_eq_two.mp hlength
    exact h.pdpt
  · obtain ⟨e4, e3, e2, rfl⟩ := List.length_eq_three.mp hlength
    exact h.pd

theorem cpuWalk_root (hs : s.Inv roots) {p : U64} (hp : frameOf p ∈ roots) (h : frameOf cr3 = frameOf p) (va : U64) :
    cpuWalk s.ram cr3 va = cpuWalk s.ram p va := by
  apply cpuWalk_congr hs hs hp (h ▸ hp)
  intro is _
  rw [h]

structure KeepsOthers (roots : Set ℕ) (page : BitVec 36) (s s' : Vm) : Prop where
  inv : s'.Inv roots
  upper : ∀ r ∈ roots, ∀ q : List (BitVec 9), q.length ≤ 3 → ∀ e,
    pageTables.get s.ram.word r q = some e → pageTables.get s'.ram.word r q = some e
  leaf : ∀ r ∈ roots, ∀ va, pageOf va ≠ page → ∀ e,
    pageTables.get s.ram.word r (pagePath va) = some e → pageTables.get s'.ram.word r (pagePath va) = some e

theorem Extends.keepsOthers (h : Extends roots r path flags s s') (page : BitVec 36) : KeepsOthers roots page s s' where
  inv := h.inv
  upper := fun r' hr' q hq => h.old r' hr' q (by omega)
  leaf := fun r' hr' va _ => h.old r' hr' _ (le_refl 4)

theorem LeafStored.keepsOthers {pt : ℕ} {e : U64} (hl : LeafStored s1 s' pt (Vm.idxPt virt) e)
    (h : Extends roots r (innerPath virt) flags s s1) (hr : r ∈ roots)
    (hd : pageTables.descend s1.ram.word r (innerPath virt) = some pt) :
    KeepsOthers roots (pageOf virt) s s' := by
  have hpt : pageTables.At roots s1.ram.word 3 pt := descend_at (.root hr) (le_refl 3) hd
  constructor
  · exact hl.inv h.inv hpt
  · intro r' hr' q hq e' he
    rw [hl.get_inner h.inv hpt hr' hq]
    exact h.old r' hr' q (by omega) e' he
  · intro r' hr' va hva e' he
    rw [hl.get h.inv hpt hr' (le_refl 4), if_neg]
    · exact h.old r' hr' _ (le_refl 4) e' he
    · intro hslot
      obtain ⟨hq, -⟩ := h.inv.slot_iff hr hr' rfl (le_refl 4) hd hslot
      exact hva (pagePath_inj.mp hq)

theorem KeepsOthers.cpuWalk_eq {page : BitVec 36} (h : KeepsOthers roots page s s') (hs : s.Inv roots)
    (hr : frameOf cr3 ∈ roots) {va : U64} (hva : pageOf va ≠ page) (hw : cpuWalk s.ram cr3 va ≠ .fault) :
    cpuWalk s'.ram cr3 va = cpuWalk s.ram cr3 va := by
  obtain ⟨hfault, -⟩ | ⟨e4, e3, e2, e1, hwalk, hg4, hg3, hg2, hg1⟩ := cpuWalk_cases hs hr va
  · exact absurd hfault hw
  have hg4' := h.upper _ hr _ (by simp) e4 hg4
  have hg3' := h.upper _ hr _ (by simp) e3 hg3
  have hg2' := h.upper _ hr _ (le_refl 3) e2 hg2
  have hg1' := h.leaf _ hr va hva e1 hg1
  obtain ⟨-, hnone⟩ | ⟨d4, d3, d2, d1, hwalk', hd4, hd3, hd2, hd1⟩ := cpuWalk_cases h.inv hr va
  · rw [hg1'] at hnone
    cases hnone
  · rw [hg4'] at hd4
    rw [hg3'] at hd3
    rw [hg2'] at hd2
    rw [hg1'] at hd1
    obtain rfl := Option.some.inj hd4
    obtain rfl := Option.some.inj hd3
    obtain rfl := Option.some.inj hd2
    obtain rfl := Option.some.inj hd1
    rw [hwalk, hwalk']

theorem KeepsOthers.refl (hs : s.Inv roots) (page : BitVec 36) : KeepsOthers roots page s s :=
  ⟨hs, fun _ _ _ _ _ h => h, fun _ _ _ _ _ h => h⟩

theorem KeepsOthers.setCr3 {page : BitVec 36} {x y : U64} (h : KeepsOthers roots page { s with cr3 := x } s') :
    KeepsOthers roots page s { s' with cr3 := y } :=
  ⟨h.inv.setCr3 y, h.upper, h.leaf⟩

structure CallKeeps (roots : Set ℕ) (virt : U64) (s : Vm) (result : Vm × Int) : Prop where
  others : KeepsOthers roots (pageOf virt) s result.1
  all : result.2 ≠ 0 → ∀ page, KeepsOthers roots page s result.1

theorem mapPage_keeps (hs : s.Inv roots) (hr : frameOf cr3 ∈ roots) (virt phys flags : U64) :
    CallKeeps roots virt s (s.mapPage cr3 virt phys flags) := by
  obtain ⟨s', he, hx, -⟩ | ⟨s1, s', pt, he, hx, hd, hl⟩ := mapPage_spec hs hr virt phys flags
  · rw [he]
    exact ⟨hx.keepsOthers _, fun _ => hx.keepsOthers⟩
  · rw [he]
    exact ⟨hl.keepsOthers hx hr hd, fun hne => absurd rfl hne⟩

theorem vmmUnmapPageCr3_keeps (hs : s.Inv roots) (hr : frameOf cr3 ∈ roots) (virt : U64) :
    CallKeeps roots virt s (s.vmmUnmapPageCr3 cr3 virt) := by
  obtain ⟨he, -⟩ | ⟨s', pt, he, hd, hl⟩ := vmmUnmapPageCr3_spec s cr3 virt
  · rw [he]
    exact ⟨.refl hs _, fun _ => .refl hs⟩
  · have hx : Extends roots (frameOf cr3) (innerPath virt) 0 s s := .refl hs
    rw [he]
    exact ⟨hl.keepsOthers hx hr hd, fun hne => absurd rfl hne⟩

theorem inSpace_keeps (hs : s.Inv roots) {space : VmmSpace} {call : Vm → Vm × Int}
    (hcall : ∀ t : Vm, t.Inv roots → CallKeeps roots virt t (call t)) :
    CallKeeps roots virt s (s.inSpace space call) := by
  unfold Vm.inSpace
  by_cases hz : space.pml4Phys = 0
  · rw [if_pos hz]
    exact ⟨.refl hs _, fun _ => .refl hs⟩
  · rw [if_neg hz]
    have hkeeps := hcall _ (hs.setCr3 space.pml4Phys)
    exact ⟨hkeeps.others.setCr3, fun hne page => (hkeeps.all hne page).setCr3⟩

theorem PageCall.keeps (call : PageCall) (hs : s.Inv roots) (hr : frameOf (call.root s) ∈ roots) :
    CallKeeps roots call.virt s (call.exec s) := by
  have hcr3 : frameOf (s.cr3 &&& ~~~0xfff#64) = frameOf s.cr3 := frameOf_tableOf s.cr3
  cases call with
  | map virt phys flags => exact mapPage_keeps hs (by rwa [hcr3]) _ _ _
  | unmap virt => exact vmmUnmapPageCr3_keeps hs (by rwa [hcr3]) _
  | mapSpace space virt phys flags => exact inSpace_keeps hs fun t ht => mapPage_keeps ht hr _ _ _
  | unmapSpace space virt => exact inSpace_keeps hs fun t ht => vmmUnmapPageCr3_keeps ht hr _
  | mapMmio virt phys flags => exact mapPage_keeps hs (by rwa [hcr3]) _ _ _

theorem PageCall.exec_cr3 {call : PageCall} (h : call.space = none) (hs : s.Inv roots) (hr : frameOf s.cr3 ∈ roots) :
    (call.exec s).1.cr3 = s.cr3 := by
  have hroot : frameOf (s.cr3 &&& ~~~0xfff#64) ∈ roots := by rwa [show frameOf (s.cr3 &&& ~~~0xfff#64) = _ from
    frameOf_tableOf s.cr3]
  cases call with
  | map virt phys flags => exact (mapPage_change hs hroot _ _ _).2
  | unmap virt => exact (vmmUnmapPageCr3_change hs hroot _).2
  | mapSpace space virt phys flags => cases h
  | unmapSpace space virt => cases h
  | mapMmio virt phys flags => exact (mapPage_change hs hroot _ _ _).2

/-- A cached walk is that of the current space or, if it outlives a change of spaces, that of some space. -/
def System.Answers (c : System) (pge : Bool) (page : BitVec 36) (w : CpuWalk) : Prop :=
  w ≠ .fault ∧ (cpuWalk c.vm.ram c.vm.cr3 (pageStart page) = w ∨
    pge = true ∧ w.global = true ∧ ∃ p ∈ c.cr3s, cpuWalk c.vm.ram p (pageStart page) = w)

structure Tlb.Inv (t : Tlb) (pge : Bool) (c : System) : Prop where
  pages : Coherent (c.Answers pge) t.pages
  uppers : Coherent (Learns c.vm.ram c.vm.cr3 []) t.uppers

section Tlb

variable {p0 : Pmm} {pge : Bool} {c : System} {t t' : Tlb}

theorem System.Inv.setCr3 (h : c.Inv p0) {x : U64} (hx : frameOf x ∈ c.roots) :
    System.Inv p0 { c with vm := { c.vm with cr3 := x } } :=
  ⟨h.vm.setCr3 x, h.zero, hx, h.apart, h.owns⟩

theorem Tlb.Inv.translates (h : t.Inv pge c) {va : U64} {w : CpuWalk}
    (hw : Translates c.vm.ram c.vm.cr3 t va w) : w = cpuWalk c.vm.ram c.vm.cr3 va ∨
      pge = true ∧ w.global = true ∧ ∃ p ∈ c.cr3s, w = cpuWalk c.vm.ram p va := by
  cases hw with
  | cached hmem =>
    have hpage : pageOf va = pageOf (pageStart (pageOf va)) := (pageOf_pageStart _).symm
    obtain ⟨-, hcur | ⟨hpge, hglobal, p, hp, hother⟩⟩ := h.pages _ hmem
    · left
      rw [cpuWalk_page hpage]
      exact hcur.symm
    · refine .inr ⟨hpge, hglobal, p, hp, ?_⟩
      rw [cpuWalk_page hpage]
      exact hother.symm
  | walk hl hpath => exact .inl (cpuWalkFrom_eq (hl.memory h.uppers) hpath)

theorem Tlb.Inv.lookup (h : t.Inv pge c) (hl : Lookup c.vm.ram c.vm.cr3 t t') : t'.Inv pge c := by
  cases hl with
  | @page va w hw hfault =>
    refine ⟨h.pages.add ⟨hfault, ?_⟩, h.uppers⟩
    have hpage : pageOf va = pageOf (pageStart (pageOf va)) := (pageOf_pageStart _).symm
    obtain hcur | ⟨hpge, hglobal, p, hp, hother⟩ := h.translates hw
    · left
      rw [← cpuWalk_page hpage]
      exact hcur.symm
    · refine .inr ⟨hpge, hglobal, p, hp, ?_⟩
      rw [← cpuWalk_page hpage]
      exact hother.symm
  | upper hl => exact ⟨h.pages, h.uppers.add (hl.memory h.uppers)⟩
  | evict hpages huppers => exact ⟨h.pages.evict hpages, h.uppers.evict huppers⟩

theorem Tlb.Inv.lookups (h : t.Inv pge c) (hl : ReflTransGen (Lookup c.vm.ram c.vm.cr3) t t') : t'.Inv pge c := by
  induction hl with
  | refl => exact h
  | tail _ hstep ih => exact ih.lookup hstep

theorem Tlb.Inv.writeCr3 (h : t.Inv pge c) (hc : c.Inv p0) (x : U64) :
    (t.writeCr3 pge).Inv pge { c with vm := { c.vm with cr3 := x } } := by
  refine ⟨h.pages.keep (fun p => pge && p.2.global) ?_, .nil⟩
  rintro page w hkeep ⟨hfault, hw⟩
  obtain ⟨hpge, hglobal⟩ := Bool.and_eq_true_iff.mp hkeep
  refine ⟨hfault, .inr ⟨hpge, hglobal, ?_⟩⟩
  obtain hcur | ⟨-, -, hother⟩ := hw
  · obtain ⟨p, hp, hframe⟩ := hc.active
    refine ⟨p, hp, ?_⟩
    rw [← hcur]
    exact cpuWalk_root hc.vm hc.active hframe _
  · exact hother

theorem System.Answers.kept {page page' : BitVec 36} {w : CpuWalk} (h : c.Answers pge page w)
    (hk : KeepsOthers c.roots page' c.vm s') (hc : c.Inv p0) (hcr3 : s'.cr3 = c.vm.cr3)
    (hg : s'.gKernelCr3Phys = c.vm.gKernelCr3Phys) (hne : page ≠ page') :
    System.Answers { c with vm := s' } pge page w := by
  obtain ⟨hfault, hw⟩ := h
  have hva : pageOf (pageStart page) ≠ page' := by rwa [pageOf_pageStart]
  have hsame {p : U64} (hp : frameOf p ∈ c.roots) (hwalk : cpuWalk c.vm.ram p (pageStart page) = w) :
      cpuWalk s'.ram p (pageStart page) = w := by
    rw [hk.cpuWalk_eq hc.vm hp hva (hwalk ▸ hfault)]
    exact hwalk
  refine ⟨hfault, hw.imp ?_ ?_⟩
  · intro hcur
    dsimp only
    rw [hcr3]
    exact hsame hc.active hcur
  · rintro ⟨hpge, hglobal, p, hp, hother⟩
    refine ⟨hpge, hglobal, p, ?_, hsame ⟨p, hp, rfl⟩ hother⟩
    rw [System.cr3s, hg]
    exact hp

theorem KeepsOthers.uppers {page : BitVec 36} (hk : KeepsOthers c.roots page c.vm s') (hc : c.Inv p0)
    (hcr3 : s'.cr3 = c.vm.cr3) (h : t.Inv pge c) : Coherent (Learns s'.ram s'.cr3 []) t.uppers := by
  refine h.uppers.mono ?_
  intro path es hl
  rw [hcr3]
  exact hl.kept hc.vm hk.inv hc.active hc.active (hk.upper _ hc.active)

theorem Tlb.Inv.kept (h : t.Inv pge c) (hk : ∀ page, KeepsOthers c.roots page c.vm s') (hc : c.Inv p0)
    (hcr3 : s'.cr3 = c.vm.cr3) (hg : s'.gKernelCr3Phys = c.vm.gKernelCr3Phys) :
    t.Inv pge { c with vm := s' } := by
  refine ⟨h.pages.mono ?_, (hk 0).uppers hc hcr3 h⟩
  intro page w hw
  exact hw.kept (hk (page + 1)) hc hcr3 hg (by simp)

theorem Tlb.Inv.called (h : t.Inv pge c) (hc : c.Inv p0) {call : PageCall} {rc : Int}
    (hk : CallKeeps c.roots call.virt c.vm (s', rc)) (hcr3 : s'.cr3 = c.vm.cr3)
    (hg : s'.gKernelCr3Phys = c.vm.gKernelCr3Phys) : (t.called call rc).Inv pge { c with vm := s' } := by
  unfold Tlb.called
  split_ifs with hrc
  · refine ⟨h.pages.invalidate ?_, .nil⟩
    intro page hne w hw
    exact hw.kept hk.others hc hcr3 hg hne
  · exact h.kept (hk.all hrc) hc hcr3 hg

end Tlb

namespace Core

variable {p0 : Pmm} {pge : Bool} {c c' : Core}

structure Inv (p0 : Pmm) (pge : Bool) (c : Core) : Prop where
  system : c.system.Inv p0
  tlb : c.tlb.Inv pge c.system

theorem boot_inv (hs : s.Inv {frameOf s.cr3}) (pge : Bool) : (boot s).Inv s.pmm pge :=
  ⟨System.start_inv hs, .nil, .nil⟩

theorem Inv.write (h : c.Inv p0 pge) {b : Pmm.Block} {phys : U64} (hb : b ∈ c.system.live)
    (hphys : frameOf phys ∈ b.frames) (i : BitVec 9) (e : U64) :
    Inv p0 pge ⟨{ c.system with vm := c.system.vm.store phys i e }, c.tlb⟩ := by
  have hsystem := h.system.write hb hphys i e
  refine ⟨hsystem, h.tlb.kept ?_ h.system rfl rfl⟩
  intro page
  have hsame (r : ℕ) (hr : r ∈ c.system.roots) (q : List (BitVec 9)) (hq : q.length ≤ 4) :=
    get_congr (fun k f => h.system.write_word hb hphys i e) (.root hr) (by rw [Nat.zero_add]; exact hq)
  refine ⟨hsystem.vm, ?_, ?_⟩
  · intro r hr q hq e' he
    rw [hsame r hr q (by omega)]
    exact he
  · intro r hr va _ e' he
    rw [hsame r hr _ (le_refl 4)]
    exact he

theorem Inv.create (h : c.Inv p0 pge) : Inv p0 pge ⟨c.system.create, c.tlb⟩ := by
  have hsystem : c.system.create.Inv p0 := h.system.step .create
  refine ⟨hsystem, ?_⟩
  obtain he | ⟨s', phys, f, he, hphys, hc⟩ := vmmCreateSpace_cases h.system.vm c.system.kernel_mem
  · have hsame : c.system.create = c.system := by
      rw [System.create, he]
      rfl
    rw [hsame]
    exact h.tlb
  · have hgrown : c.system.create = ⟨s', ⟨phys⟩ :: c.system.spaces, c.system.live⟩ := by
      rw [System.create, he]
      exact congrArg (fun spaces => System.mk s' spaces c.system.live) (if_neg hphys)
    rw [hgrown] at hsystem ⊢
    have hcr3s {p : U64} (hp : p ∈ c.system.cr3s) :
        p ∈ System.cr3s ⟨s', ⟨phys⟩ :: c.system.spaces, c.system.live⟩ := by
      rw [System.cr3s, hc.gKernelCr3Phys]
      obtain rfl | hp := List.mem_cons.mp hp
      · exact List.mem_cons_self
      · exact List.mem_cons_of_mem _ (List.mem_cons_of_mem _ hp)
    have hroots {p : U64} (hp : frameOf p ∈ c.system.roots) : frameOf p ∈ insert f c.system.roots := .inr hp
    have hwalk {p : U64} (hp : frameOf p ∈ c.system.roots) (va : U64) :
        cpuWalk s'.ram p va = cpuWalk c.system.vm.ram p va := by
      apply cpuWalk_congr h.system.vm hc.inv hp (hroots hp)
      intro is his
      exact hc.get_old _ hp _ (Nat.succ_le_succ his)
    constructor
    · refine h.tlb.pages.mono ?_
      rintro page w ⟨hfault, hw⟩
      refine ⟨hfault, hw.imp ?_ ?_⟩
      · intro hcur
        dsimp only
        rw [hc.cr3, hwalk h.system.active]
        exact hcur
      · rintro ⟨hpge, hglobal, p, hp, hother⟩
        refine ⟨hpge, hglobal, p, hcr3s hp, ?_⟩
        dsimp only
        rw [hwalk ⟨p, hp, rfl⟩]
        exact hother
    · refine h.tlb.uppers.mono ?_
      intro path es hl
      dsimp only
      rw [hc.cr3]
      apply hl.kept h.system.vm hc.inv h.system.active (hroots h.system.active)
      intro q hq e he
      rw [hc.get_old _ h.system.active q (by omega)]
      exact he

theorem Inv.pageSpace (h : c.Inv p0 pge) {call : PageCall} {space : VmmSpace} {t t' : Tlb}
    (hcall : call.space = some space) (hspace : space ∈ c.system.spaces)
    (hbefore : ReflTransGen (Lookup c.system.vm.ram space.pml4Phys) (c.tlb.writeCr3 pge) t)
    (hafter : ReflTransGen (Lookup (call.exec c.system.vm).1.ram space.pml4Phys)
      (t.called call (call.exec c.system.vm).2) t') :
    Inv p0 pge ⟨c.system.page call, t'.writeCr3 pge⟩ := by
  have hmem : frameOf space.pml4Phys ∈ c.system.roots := System.space_mem hspace
  have hroot : frameOf (call.root c.system.vm) ∈ c.system.roots := by
    rw [PageCall.root, hcall]
    exact hmem
  have hkeeps := call.keeps h.system.vm hroot
  have hg := (call.change h.system.vm hroot).1.gKernelCr3Phys
  have hinside := h.system.setCr3 hmem
  have hpage : (c.system.page call).Inv p0 := by
    apply h.system.page
    intro sp hsp
    obtain rfl := Option.some.inj (hcall.symm.trans hsp)
    exact hspace
  have hkeeps' : CallKeeps c.system.roots call.virt { c.system.vm with cr3 := space.pml4Phys }
      ({ (call.exec c.system.vm).1 with cr3 := space.pml4Phys }, (call.exec c.system.vm).2) :=
    ⟨KeepsOthers.setCr3 (x := c.system.vm.cr3) hkeeps.others,
      fun hne page => KeepsOthers.setCr3 (x := c.system.vm.cr3) (hkeeps.all hne page)⟩
  have ht := (h.tlb.writeCr3 h.system space.pml4Phys).lookups hbefore
  have ht' := (ht.called hinside hkeeps' rfl hg).lookups hafter
  have hstill : frameOf space.pml4Phys ∈ (c.system.page call).roots := by
    rwa [System.page, System.roots_congr hg]
  exact ⟨hpage, ht'.writeCr3 (hpage.setCr3 hstill) (call.exec c.system.vm).1.cr3⟩

theorem Inv.step (h : c.Inv p0 pge) (hs : Step pge c c') : c'.Inv p0 pge := by
  cases hs with
  | lookup hl => exact ⟨h.system, h.tlb.lookup hl⟩
  | client hstep => exact ⟨h.system.client hstep, h.tlb.pages, h.tlb.uppers⟩
  | write hb hphys => exact h.write hb hphys _ _
  | page call hcall =>
    have hroot : frameOf (call.root c.system.vm) ∈ c.system.roots := by
      rw [PageCall.root, hcall]
      exact h.system.active
    have hpage : (c.system.page call).Inv p0 := h.system.page fun sp hsp => by
      rw [hcall] at hsp
      cases hsp
    exact ⟨hpage, h.tlb.called h.system (call.keeps h.system.vm hroot)
      (PageCall.exec_cr3 hcall h.system.vm h.system.active) (call.change h.system.vm hroot).1.gKernelCr3Phys⟩
  | pageSpace call hcall hspace _ hbefore hafter => exact h.pageSpace hcall hspace hbefore hafter
  | create => exact h.create
  | @switch space hspace =>
    have hsystem := h.system.step (.switch hspace)
    refine ⟨hsystem, ?_⟩
    dsimp only
    unfold Vm.vmmSwitchSpace
    split_ifs
    · exact h.tlb
    · exact h.tlb.writeCr3 h.system space.pml4Phys

theorem Inv.run (h : c.Inv p0 pge) (hrun : ReflTransGen (Step pge) c c') : c'.Inv p0 pge := by
  induction hrun with
  | refl => exact h
  | tail _ hs ih => exact ih.step hs

/-- After any run an access goes by the tables of the current space. With CR4.PGE set it may go by
a global mapping of another space, but never by one that no space has any more. -/
theorem translations_current (s : Vm) (hs : s.Inv {frameOf s.cr3}) (pge : Bool) (c : Core)
    (h : ReflTransGen (Step pge) (boot s) c) (va : U64) (w : CpuWalk)
    (hw : Translates c.system.vm.ram c.system.vm.cr3 c.tlb va w) :
    w = cpuWalk c.system.vm.ram c.system.vm.cr3 va ∨ pge = true ∧ w.global = true ∧
      ∃ p ∈ c.system.cr3s, w = cpuWalk c.system.vm.ram p va :=
  ((boot_inv hs pge).run h).tlb.translates hw

/-! A page is mapped, used and taken away. -/

def bareMapped : Core :=
  let call := .map 0x400000 0x5000 pteU
  ⟨(boot bareVm).system.page call, (boot bareVm).tlb.called call (call.exec (boot bareVm).system.vm).2⟩

def bareUsed : Core :=
  let vm := bareMapped.system.vm
  ⟨bareMapped.system, { bareMapped.tlb with
    pages := (pageOf 0x400123, cpuWalk vm.ram vm.cr3 0x400123) :: bareMapped.tlb.pages }⟩

def bareUnmapped : Core :=
  let call := .unmap 0x400000
  ⟨bareUsed.system.page call, bareUsed.tlb.called call (call.exec bareUsed.system.vm).2⟩

theorem translations_current_bareVm : ReflTransGen (Step false) (boot bareVm) bareUnmapped ∧
    bareUsed.tlb.pages.map Prod.fst = [0x400] ∧ ∀ w, Translates bareUnmapped.system.vm.ram
      bareUnmapped.system.vm.cr3 bareUnmapped.tlb 0x400123 w → w = .fault := by
  have hused : cpuWalk bareMapped.system.vm.ram bareMapped.system.vm.cr3 0x400123 ≠ .fault := by decide +kernel
  have hgone : cpuWalk bareUnmapped.system.vm.ram bareUnmapped.system.vm.cr3 0x400123 = .fault := by decide +kernel
  have hmap : Step false (boot bareVm) bareMapped := .page _ rfl
  have hwalk : Translates bareMapped.system.vm.ram bareMapped.system.vm.cr3 bareMapped.tlb 0x400123
      (cpuWalk bareMapped.system.vm.ram bareMapped.system.vm.cr3 0x400123) :=
    @Translates.walk _ _ _ _ [] [] .root List.nil_prefix
  have huse : Step false bareMapped bareUsed := .lookup (.page hwalk hused)
  have hunmap : Step false bareUsed bareUnmapped := .page _ rfl
  have hrun := ((ReflTransGen.single hmap).tail huse).tail hunmap
  refine ⟨hrun, by decide +kernel, ?_⟩
  intro w hw
  obtain hcur | ⟨hpge, -⟩ := translations_current bareVm bareVm_inv false _ hrun 0x400123 w hw
  · exact hcur.trans hgone
  · cases hpge

theorem mmioMap_run (c : Core) (hhdmOffset phys size : U64) (opts : Option MmioOpts) : ∃ t,
    ReflTransGen (Step pge) c ⟨{ c.system with vm := (c.system.vm.mmioMap hhdmOffset phys size opts).1 }, t⟩ := by
  apply Vm.mmioMap_induction (P := fun s => ∃ t, ReflTransGen (Step pge) c ⟨{ c.system with vm := s }, t⟩)
  · rintro s v p flags ⟨t, hrun⟩
    exact ⟨_, hrun.tail (.page (.mapMmio v p flags) rfl)⟩
  · exact ⟨c.tlb, .refl⟩

theorem mmioUnmapLoop_run (c : Core) (n : ℕ) (s : Vm) (v : U64) (t : Tlb)
    (hrun : ReflTransGen (Step pge) c ⟨{ c.system with vm := s }, t⟩) : ∃ t',
    ReflTransGen (Step pge) c ⟨{ c.system with vm := Vm.mmioUnmapLoop n s v }, t'⟩ := by
  induction n generalizing s v t with
  | zero => exact ⟨t, hrun⟩
  | succ n ih => exact ih _ (v + pageSize) _ (hrun.tail (.page (.unmap v) rfl))

theorem mmioUnmap_run (c : Core) (virt size : U64) : ∃ t,
    ReflTransGen (Step pge) c ⟨{ c.system with vm := c.system.vm.mmioUnmap virt size }, t⟩ := by
  unfold Vm.mmioUnmap
  split_ifs
  · exact ⟨c.tlb, .refl⟩
  · exact mmioUnmapLoop_run c _ _ _ c.tlb .refl

end Core

end Mcincos
