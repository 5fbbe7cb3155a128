import Mcincos.Pmm.Marking

namespace Mcincos

open Words Pmm

/-- The bitmap as `mark_range` sees it, for any number of pages. -/
structure Bitmap where
  bytes : List (BitVec 8)
  gTotalPages : ℕ
  sized : bytes.length = (gTotalPages + 7) / 8

namespace Bitmap

variable {b : Bitmap} {used : Bool} {i k n fuel : ℕ} {addr stop : U64}

def modifyByte (b : Bitmap) (byte : ℕ) (f : BitVec 8 → BitVec 8) : Option Bitmap :=
  if byte < b.bytes.length then
    some { b with bytes := b.bytes.modify byte f, sized := by rw [List.length_modify, b.sized] }
  else none

def bitmapSet (b : Bitmap) (idx : ℕ) : Option Bitmap :=
  b.modifyByte (idx >>> 3) (· ||| 1#8 <<< (idx &&& 7))

def bitmapClear (b : Bitmap) (idx : ℕ) : Option Bitmap :=
  b.modifyByte (idx >>> 3) (· &&& ~~~(1#8 <<< (idx &&& 7)))

def bit (b : Bitmap) (idx : ℕ) : Bool := (b.bytes.getD (idx / 8) 0).getLsbD (idx % 8)

def mark (used : Bool) (b : Bitmap) (idx : ℕ) : Option Bitmap :=
  if used then b.bitmapSet idx else b.bitmapClear idx

def markLoop (used : Bool) (stop : U64) : ℕ → U64 → Bitmap → Option Bitmap
  | 0, _, _ => none
  | fuel + 1, addr, b =>
    if addr < stop then
      let idx := (addr / pageSize).toNat
      if idx ≥ b.gTotalPages then some b
      else (mark used b idx).bind (markLoop used stop fuel (addr + pageSize))
    else some b

def markRange (fuel : ℕ) (b : Bitmap) (base len : U64) (used : Bool) : Option Bitmap :=
  markLoop used (alignUp (base + len) pageSize) fuel (alignDown base pageSize) b

structure Marked (used : Bool) (S : Set ℕ) (b b' : Bitmap) : Prop where
  total : b'.gTotalPages = b.gTotalPages
  inside : ∀ i ∈ S, b'.bit i = used
  outside : ∀ i ∉ S, b'.bit i = b.bit i

theorem Marked.refl (b : Bitmap) : Marked used ∅ b b := ⟨rfl, fun _ h => h.elim, fun _ _ => rfl⟩

theorem Marked.trans {S T : Set ℕ} {b₁ b₂ b₃ : Bitmap} (h : Marked used S b₁ b₂)
    (h' : Marked used T b₂ b₃) : Marked used (S ∪ T) b₁ b₃ := by
  constructor
  · exact h'.total.trans h.total
  · intro i hi
    by_cases hT : i ∈ T
    · exact h'.inside i hT
    · rw [h'.outside i hT]
      exact h.inside i (hi.resolve_right hT)
  · intro i hi
    rw [Set.mem_union, not_or] at hi
    rw [h'.outside i hi.2, h.outside i hi.1]

theorem modifyByte_marked {f : BitVec 8 → BitVec 8} (hi : i < b.gTotalPages)
    (hf : ∀ c : BitVec 8, ∀ j, (f c).getLsbD j = if j = i % 8 then used else c.getLsbD j) :
    ∃ b', b.modifyByte (i / 8) f = some b' ∧ Marked used {i} b b' := by
  have hbyte : i / 8 < b.bytes.length := by rw [b.sized]; omega
  have hbit := fun j => getD_modify_bit (j := j) hbyte (fun _ => used) hf
  refine ⟨_, if_pos hbyte, rfl, ?_, ?_⟩
  · rintro j rfl
    exact (hbit j).trans (if_pos rfl)
  · intro j hj
    exact (hbit j).trans (if_neg hj)

theorem mark_marked (used : Bool) (hi : i < b.gTotalPages) : ∃ b', mark used b i = some b' ∧ Marked used {i} b b' := by
  have h7 : i &&& 7 = i % 8 := Nat.and_two_pow_sub_one_eq_mod i 3
  have hlt : i % 8 < 8 := Nat.mod_lt i (by omega)
  cases used
  · simp only [mark, Bool.false_eq_true, ↓reduceIte, bitmapClear, h7, Nat.shiftRight_eq_div_pow]
    apply modifyByte_marked hi
    intro c j
    rw [getLsbD_and_not_one_shift c _ j hlt]
    by_cases h : j = i % 8 <;> simp [h]
  · simp only [mark, ↓reduceIte, bitmapSet, h7, Nat.shiftRight_eq_div_pow]
    apply modifyByte_marked hi
    intro c j
    rw [getLsbD_or_one_shift c _ j hlt]
    by_cases h : j = i % 8 <;> simp [h]

theorem toNat_page (ha : addr.toNat = 4096 * k) : (addr / pageSize).toNat = k := by
  rw [BitVec.toNat_udiv, ha]
  exact Nat.mul_div_cancel_left k (by decide)

theorem toNat_next (ha : addr.toNat = 4096 * k) (hlt : addr < stop) (hs : 4096 ∣ stop.toNat) :
    (addr + pageSize).toNat = 4096 * (k + 1) := by
  have hstop := stop.isLt
  have hpage : pageSize.toNat = 4096 := rfl
  rw [BitVec.lt_def] at hlt
  rw [BitVec.toNat_add, hpage]
  omega

def pages (total k n : ℕ) : Set ℕ := {i | k ≤ i ∧ i < k + n ∧ i < total}

theorem pages_eq_empty {total : ℕ} (h : n = 0 ∨ total ≤ k) : pages total k n = ∅ := by
  ext i
  simp only [pages, Set.mem_ofPred_eq, Set.mem_empty_iff_false, iff_false]
  omega

theorem pages_succ {total : ℕ} (h : k < total) : pages total k (n + 1) = {k} ∪ pages total (k + 1) n := by
  ext i
  simp only [pages, Set.mem_ofPred_eq, Set.mem_union, Set.mem_singleton_iff]
  omega

theorem markLoop_marked (used : Bool) (b : Bitmap) (ha : addr.toNat = 4096 * k)
    (hs : stop.toNat = 4096 * (k + n)) :
    ∃ b', (∀ fuel > n, markLoop used stop fuel addr b = some b') ∧
      Marked used (pages b.gTotalPages k n) b b' := by
  induction n generalizing k addr b with
  | zero =>
    have hend : ¬addr < stop := by rw [BitVec.lt_def]; omega
    rw [pages_eq_empty (.inl rfl)]
    refine ⟨b, ?_, .refl b⟩
    intro fuel hfuel
    obtain ⟨fuel, rfl⟩ := Nat.exists_eq_add_one.mpr hfuel
    rw [markLoop, if_neg hend]
  | succ n ih =>
    have hmore : addr < stop := by rw [BitVec.lt_def]; omega
    have hstep (fuel : ℕ) : markLoop used stop (fuel + 1) addr b = if k ≥ b.gTotalPages then some b
        else (mark used b k).bind (markLoop used stop fuel (addr + pageSize)) := by
      rw [markLoop, if_pos hmore, toNat_page ha]
    by_cases hk : k ≥ b.gTotalPages
    · -- the loop breaks off, and none of the pages left has a bit
      rw [pages_eq_empty (.inr hk)]
      refine ⟨b, ?_, .refl b⟩
      intro fuel hfuel
      obtain ⟨fuel, rfl⟩ := Nat.exists_eq_add_one.mpr (Nat.zero_lt_of_lt hfuel)
      rw [hstep, if_pos hk]
    · obtain ⟨b₁, hb₁, hfirst⟩ := mark_marked used (not_le.mp hk)
      obtain ⟨b₂, hb₂, hrest⟩ := ih b₁ (toNat_next ha hmore ⟨_, hs⟩) (by omega)
      rw [pages_succ (not_le.mp hk), ← hfirst.total]
      refine ⟨b₂, ?_, hfirst.trans hrest⟩
      intro fuel hfuel
      obtain ⟨fuel, rfl⟩ := Nat.exists_eq_add_one.mpr (Nat.zero_lt_of_lt hfuel)
      rw [hstep, if_neg hk, hb₁]
      exact hb₂ fuel (Nat.lt_of_succ_lt_succ hfuel)

theorem toNat_stop {base len : U64} (hend : base.toNat + len.toNat ≤ 2 ^ 64 - 4096) :
    (alignUp (base + len) pageSize).toNat = (base.toNat + len.toNat + 4095) / 4096 * 4096 := by
  have hsum : (base + len).toNat = base.toNat + len.toNat := by
    rw [BitVec.toNat_add]
    omega
  rw [toNat_alignUp _ (by omega), hsum]

theorem markRange_marked (b : Bitmap) {base len : U64} (used : Bool)
    (hend : base.toNat + len.toNat ≤ 2 ^ 64 - 4096) :
    ∃ enough b', (∀ fuel > enough, markRange fuel b base len used = some b') ∧
      Marked used {i | base.toNat / 4096 ≤ i ∧ 4096 * i < base.toNat + len.toNat ∧ i < b.gTotalPages} b b' := by
  have hstart := toNat_alignDown base
  have hstop := toNat_stop hend
  let n := (base.toNat + len.toNat + 4095) / 4096 - base.toNat / 4096
  have hpages : pages b.gTotalPages (base.toNat / 4096) n =
      {i | base.toNat / 4096 ≤ i ∧ 4096 * i < base.toNat + len.toNat ∧ i < b.gTotalPages} := by
    ext i
    simp only [pages, Set.mem_ofPred_eq]
    omega
  rw [← hpages]
  refine ⟨n, markLoop_marked used b ?_ ?_⟩
  · rw [hstart, Nat.mul_comm]
  · omega

/-- The bits that change are those of the pages the range meets. -/
theorem markRange_marks (b : Bitmap) (base len : U64) (used : Bool)
    (hrange : 1 ≤ len.toNat ∨ 4096 ∣ base.toNat) (hend : base.toNat + len.toNat ≤ 2 ^ 64 - 4096) :
    ∃ enough b', (∀ fuel > enough, markRange fuel b base len used = some b') ∧
      b'.bytes.length = b.bytes.length ∧
      (∀ i < b.gTotalPages, b'.bit i = used ↔
        PageMeets i base.toNat (base.toNat + len.toNat) ∨ b.bit i = used) ∧
      ∀ i, ¬(i < b.gTotalPages ∧ PageMeets i base.toNat (base.toNat + len.toNat)) → b'.bit i = b.bit i := by
  have hmeets (i : ℕ) : PageMeets i base.toNat (base.toNat + len.toNat) ↔
      base.toNat / 4096 ≤ i ∧ 4096 * i < base.toNat + len.toNat := by
    by_cases hlen : 1 ≤ len.toNat
    · exact pageMeets_iff (by omega)
    · have hbase := hrange.resolve_left hlen
      constructor
      · rintro ⟨x, hx⟩
        omega
      · omega
  obtain ⟨enough, b', hb', hmarked⟩ := markRange_marked b used hend
  refine ⟨enough, b', hb', ?_, ?_, ?_⟩
  · rw [b'.sized, b.sized, hmarked.total]
  · intro i hi
    by_cases h : PageMeets i base.toNat (base.toNat + len.toNat)
    · have hin := (hmeets i).mp h
      exact iff_of_true (hmarked.inside i ⟨hin.1, hin.2, hi⟩) (.inl h)
    · have hout := hmarked.outside i fun hin => h ((hmeets i).mpr ⟨hin.1, hin.2.1⟩)
      rw [hout, or_iff_right h]
  · intro i h
    apply hmarked.outside
    rintro ⟨h1, h2, hi⟩
    exact h ⟨hi, (hmeets i).mpr ⟨h1, h2⟩⟩

theorem markRange_marks_two_bytes :
    (1 ≤ (2#64).toNat ∨ 4096 ∣ (4095#64).toNat) ∧ (4095#64).toNat + (2#64).toNat ≤ 2 ^ 64 - 4096 ∧
      ∃ enough b', (∀ fuel > enough, markRange fuel ⟨[0xa0], 3, rfl⟩ 4095#64 2#64 true = some b') ∧
        b'.bytes.length = 1 ∧
        (∀ i < 3, b'.bit i = true ↔ PageMeets i 4095 4097 ∨ (⟨[0xa0], 3, rfl⟩ : Bitmap).bit i = true) ∧
        ∀ i, ¬(i < 3 ∧ PageMeets i 4095 4097) → b'.bit i = (⟨[0xa0], 3, rfl⟩ : Bitmap).bit i :=
  ⟨by decide, by decide, markRange_marks ⟨[0xa0], 3, rfl⟩ 4095#64 2#64 true (by decide) (by decide)⟩

end Bitmap

def Pmm.bitmap (p : Pmm) : Bitmap where
  bytes := p.bytes
  gTotalPages := p.gTotalPages
  sized := p.sized

namespace Bitmap

theorem bit_bitmap (p : Pmm) (i : ℕ) : p.bitmap.bit i = p.bitmapTest i := (p.bitmapTest_eq i).symm

theorem mark_bitmap {p : Pmm} (used : Bool) (hi : i < p.gTotalPages) :
    mark used p.bitmap i = some (Pmm.mark used p i).bitmap := by
  have hbyte : i >>> 3 < p.bytes.length := by
    rw [Nat.shiftRight_eq_div_pow]
    exact p.byte_lt hi
  cases used
  · exact if_pos hbyte
  · exact if_pos hbyte

theorem markLoop_bitmap {p : Pmm} (hfuel : n < fuel) (ha : addr.toNat = 4096 * k)
    (hs : stop.toNat = 4096 * (k + n)) :
    markLoop used stop fuel addr p.bitmap = some (Pmm.markLoop used stop n addr p).bitmap := by
  induction n generalizing k addr p fuel with
  | zero =>
    have hend : ¬addr < stop := by rw [BitVec.lt_def]; omega
    obtain ⟨fuel, rfl⟩ := Nat.exists_eq_add_one.mpr hfuel
    rw [markLoop, if_neg hend]
    rfl
  | succ n ih =>
    have hmore : addr < stop := by rw [BitVec.lt_def]; omega
    obtain ⟨fuel, rfl⟩ := Nat.exists_eq_add_one.mpr (Nat.zero_lt_of_lt hfuel)
    simp only [markLoop, Pmm.markLoop, hmore, ↓reduceIte, toNat_page ha]
    by_cases hk : k ≥ p.gTotalPages
    · rw [if_pos hk]
      exact if_pos hk
    · rw [if_neg hk, mark_bitmap used (not_le.mp hk), Option.bind_some,
        ← ih (Nat.lt_of_succ_lt_succ hfuel) (toNat_next ha hmore ⟨_, hs⟩) (by omega)]
      exact if_neg hk

theorem markRange_bitmap (p : Pmm) {base len : U64} (used : Bool)
    (hend : base.toNat + len.toNat ≤ 2 ^ 64 - 4096) :
    ∃ enough, ∀ fuel > enough,
      markRange fuel p.bitmap base len used = some (p.markRange base len used).bitmap := by
  have hstart := toNat_alignDown base
  have hstop := toNat_stop hend
  let n := (base.toNat + len.toNat + 4095) / 4096 - base.toNat / 4096
  have hn : ((alignUp (base + len) pageSize).toNat - (alignDown base pageSize).toNat) / 4096 = n := by
    omega
  refine ⟨n, ?_⟩
  intro fuel hfuel
  rw [markRange, Pmm.markRange, hn]
  apply markLoop_bitmap hfuel (hstart.trans (Nat.mul_comm _ _))
  omega

end Bitmap

end Mcincos
