import Mcincos.Pmm.Init

namespace Mcincos.Pmm

def PageMeets (i lo hi : ℕ) : Prop := ∃ x, 4096 * i ≤ x ∧ x < 4096 * (i + 1) ∧ lo ≤ x ∧ x < hi

def PageInside (i lo hi : ℕ) : Prop := lo ≤ 4096 * i ∧ 4096 * (i + 1) ≤ hi

theorem pageMeets_iff {i lo hi : ℕ} (h : lo < hi) :
    PageMeets i lo hi ↔ lo / 4096 ≤ i ∧ 4096 * i < hi := by
  constructor
  · rintro ⟨x, h1, h2, h3, h4⟩
    omega
  · rintro ⟨h1, h2⟩
    by_cases hi : lo ≤ 4096 * i
    · exact ⟨4096 * i, by omega⟩
    · exact ⟨lo, by omega⟩

theorem mark_setup (used : Bool) (p : Pmm) (i : ℕ) : SameSetup p (mark used p i) := by
  cases used
  · exact sameSetup_clear p i
  · exact sameSetup_set p i

theorem mark_test (used : Bool) (p : Pmm) {i : ℕ} (hi : i < p.gTotalPages) (j : ℕ) :
    (mark used p i).bitmapTest j = if j = i then used else p.bitmapTest j := by
  cases used
  · simp only [mark, Bool.false_eq_true, ↓reduceIte, bitmapTest_clear p hi]
    by_cases h : j = i <;> simp [h]
  · simp only [mark, ↓reduceIte, bitmapTest_set p hi]
    by_cases h : j = i <;> simp [h]

theorem markLoop_setup (used : Bool) (stop : U64) (n : ℕ) (addr : U64) (p : Pmm) :
    SameSetup p (markLoop used stop n addr p) := by
  induction n generalizing addr p with
  | zero => exact .refl p
  | succ n ih =>
    rw [markLoop]
    split_ifs with h
    · dsimp only
      split_ifs
      · exact .refl p
      · exact (mark_setup used p _).trans (ih _ _)
    · exact .refl p

theorem markLoop_test (used : Bool) (stop : U64) (n k : ℕ) (addr : U64) (p : Pmm)
    (ha : addr.toNat = 4096 * k) (hs : stop.toNat = 4096 * (k + n)) (i : ℕ) :
    (markLoop used stop n addr p).bitmapTest i =
      if k ≤ i ∧ i < k + n ∧ i < p.gTotalPages then used else p.bitmapTest i := by
  induction n generalizing k addr p with
  | zero => rw [markLoop, if_neg (by omega)]
  | succ n ih =>
    have hlt : addr < stop := by rw [BitVec.lt_def]; omega
    have hidx : (addr / pageSize).toNat = k := by
      rw [BitVec.toNat_udiv, ha]
      exact Nat.mul_div_cancel_left k (by decide)
    have hnext : (addr + pageSize).toNat = 4096 * (k + 1) := by
      have hstop := stop.isLt
      have hpage : pageSize.toNat = 4096 := rfl
      rw [BitVec.toNat_add, hpage]
      omega
    simp only [markLoop, hlt, ↓reduceIte, hidx]
    by_cases hk : k ≥ p.gTotalPages
    · simp [hk, show ¬(k ≤ i ∧ i < k + (n + 1) ∧ i < p.gTotalPages) by omega]
    · rw [if_neg hk, ih (k + 1) _ _ hnext (by omega), (mark_setup used p k).total,
        mark_test used p (by omega)]
      by_cases hi : i = k
      · simp [hi, show k < p.gTotalPages by omega]
      · simp only [hi, ↓reduceIte]
        exact if_congr (by omega) rfl rfl

theorem markRange_setup (p : Pmm) (base len : U64) (used : Bool) :
    SameSetup p (p.markRange base len used) := markLoop_setup _ _ _ _ _

theorem markRange_test (p : Pmm) (base len : U64) (used : Bool) (i : ℕ) :
    (p.markRange base len used).bitmapTest i =
      if base.toNat / 4096 ≤ i ∧ 4096 * i < (alignUp (base + len) pageSize).toNat ∧
        i < p.gTotalPages then used else p.bitmapTest i := by
  obtain ⟨e, he⟩ := alignUp_dvd (base + len)
  have hstart := toNat_alignDown base
  simp only [markRange]
  by_cases h : base.toNat / 4096 ≤ e
  · have hn : ((alignUp (base + len) pageSize).toNat - (alignDown base pageSize).toNat) / 4096 =
        e - base.toNat / 4096 := by
      rw [he, hstart]; omega
    rw [hn, markLoop_test used _ _ (base.toNat / 4096) _ _ (by rw [hstart]; omega)
      (by rw [he]; omega)]
    exact if_congr (by omega) rfl rfl
  · have hn : ((alignUp (base + len) pageSize).toNat - (alignDown base pageSize).toNat) / 4096 = 0 := by
      rw [he, hstart]; omega
    rw [hn, markLoop, if_neg (by omega)]

def Touched (e : MemmapEntry) (i : ℕ) : Prop :=
  e.base.toNat / 4096 ≤ i ∧ 4096 * i < (alignUp (e.base + e.length) pageSize).toNat

theorem freeEntries_setup (p : Pmm) (memmap : List MemmapEntry) :
    SameSetup p (memmap.foldl freeEntry p) := by
  induction memmap generalizing p with
  | nil => exact .refl p
  | cons e es ih =>
    rw [List.foldl_cons, freeEntry]
    split_ifs
    · exact (markRange_setup p _ _ _).trans (ih _)
    · exact ih p

theorem freeEntries_test (p : Pmm) (memmap : List MemmapEntry) {i : ℕ} (hi : i < p.gTotalPages) :
    (memmap.foldl freeEntry p).bitmapTest i = false ↔
      (∃ e ∈ memmap, e.type = .usable ∧ Touched e i) ∨ p.bitmapTest i = false := by
  induction memmap generalizing p with
  | nil => simp
  | cons e es ih =>
    rw [List.foldl_cons, freeEntry]
    by_cases hu : e.type = .usable
    · have htotal := (markRange_setup p e.base e.length false).total
      have htest : (p.markRange e.base e.length false).bitmapTest i = false ↔
          Touched e i ∨ p.bitmapTest i = false := by
        rw [markRange_test, Touched]
        split_ifs with h
        · exact iff_of_true rfl (.inl ⟨h.1, h.2.1⟩)
        · exact (or_iff_right fun ht => h ⟨ht.1, ht.2, hi⟩).symm
      rw [if_pos hu, ih _ (by rw [htotal]; exact hi), htest]
      simp only [List.exists_mem_cons_iff, hu, true_and]
      rw [or_left_comm, or_assoc]
    · rw [if_neg hu, ih p hi]
      simp [hu]

end Mcincos.Pmm
