import Mathlib

namespace Mcincos.StableQueue

variable {α β : Type*} [LinearOrder β] {key : α → β} {x : α} {l q : List α} {bound : β}

def enqueue (key : α → β) (x : α) (q : List α) : List α := q.orderedInsert (fun a b => key a < key b) x

/-- `q` is `l` in the order of the keys, and of `l` where the keys are equal. -/
structure IsStableSort (key : α → β) (l q : List α) : Prop where
  sorted : q.Pairwise fun a b => key a ≤ key b
  stable : ∀ k, q.filter (key · = k) = l.filter (key · = k)

theorem enqueue_eq (key : α → β) (x : α) (q : List α) :
    enqueue key x q = q.takeWhile (key · ≤ key x) ++ x :: q.dropWhile (key · ≤ key x) := by
  rw [enqueue, List.orderedInsert_eq_take_drop]
  simp only [not_lt]

theorem isStableSort_nil : IsStableSort key [] [] := ⟨.nil, fun _ => rfl⟩

theorem lt_of_mem_dropWhile (h : q.Pairwise fun a b => key a ≤ key b) {k : β} {y : α}
    (hy : y ∈ q.dropWhile (key · ≤ k)) : k < key y := by
  induction q with
  | nil => exact absurd hy (by simp)
  | cons a q ih =>
    by_cases ha : key a ≤ k
    · rw [List.dropWhile_cons_of_pos (by simpa using ha)] at hy
      exact ih h.of_cons hy
    · rw [List.dropWhile_cons_of_neg (by simpa using ha)] at hy
      obtain rfl | hy := List.mem_cons.mp hy
      · exact not_le.mp ha
      · exact (not_le.mp ha).trans_le (List.rel_of_pairwise_cons h hy)

theorem IsStableSort.enqueue (h : IsStableSort key l q) (x : α) :
    IsStableSort key (l ++ [x]) (enqueue key x q) where
  sorted := by
    have hbefore : ∀ a ∈ q.takeWhile (key · ≤ key x), key a ≤ key x :=
      fun a ha => by simpa using List.mem_takeWhile_imp ha
    have hbehind : ∀ b ∈ q.dropWhile (key · ≤ key x), key x ≤ key b :=
      fun b hb => (lt_of_mem_dropWhile h.sorted hb).le
    rw [enqueue_eq, List.pairwise_append, List.pairwise_cons]
    refine ⟨h.sorted.sublist (List.takeWhile_sublist _),
      ⟨hbehind, h.sorted.sublist (List.dropWhile_sublist _)⟩, fun a ha b hb => ?_⟩
    obtain rfl | hb := List.mem_cons.mp hb
    · exact hbefore a ha
    · exact (hbefore a ha).trans (hbehind b hb)
  stable := by
    intro k
    have hsplit : q.filter (key · = k) = (q.takeWhile (key · ≤ key x)).filter (key · = k) ++
        (q.dropWhile (key · ≤ key x)).filter (key · = k) := by
      rw [← List.filter_append, List.takeWhile_append_dropWhile]
    rw [enqueue_eq, List.filter_append, List.filter_append, ← h.stable, hsplit]
    by_cases hx : key x = k
    · have hnone : (q.dropWhile (key · ≤ key x)).filter (key · = k) = [] := by
        rw [List.filter_eq_nil_iff]
        intro b hb
        have := lt_of_mem_dropWhile h.sorted hb
        simpa [← hx] using this.ne'
      rw [List.filter_cons_of_pos (by simpa using hx), hnone, List.append_nil,
        List.filter_cons_of_pos (by simpa using hx), List.filter_nil]
    · rw [List.filter_cons_of_neg (by simpa using hx), List.filter_cons_of_neg (by simpa using hx),
        List.filter_nil, List.append_nil]

theorem IsStableSort.perm [DecidableEq α] (h : IsStableSort key l q) : q.Perm l := by
  apply List.perm_iff_count.mpr
  intro a
  have hcount (m : List α) : m.count a = (m.filter (key · = key a)).count a :=
    (List.count_filter (by simp)).symm
  rw [hcount q, hcount l, h.stable]

theorem IsStableSort.tail [BEq α] [LawfulBEq α] (h : IsStableSort key l (x :: q)) :
    IsStableSort key (l.erase x) q where
  sorted := h.sorted.of_cons
  stable := by
    intro k
    rw [← List.erase_filter, ← h.stable]
    by_cases hx : key x = k
    · rw [List.filter_cons_of_pos (by simpa using hx), List.erase_cons_head]
    · rw [List.filter_cons_of_neg (by simpa using hx), List.erase_of_not_mem]
      exact fun hmem => hx (by simpa using (List.mem_filter.mp hmem).2)

theorem IsStableSort.filter_le (h : IsStableSort key l q) (bound : β) :
    IsStableSort key (l.filter (key · ≤ bound)) (q.filter (key · ≤ bound)) where
  sorted := h.sorted.filter _
  stable := by
    intro k
    rw [List.filter_comm, h.stable, List.filter_comm]

theorem enqueue_perm (key : α → β) (x : α) (q : List α) : (enqueue key x q).Perm (x :: q) :=
  List.perm_orderedInsert _ x q

theorem filter_enqueue_of_not {p : α → Bool} (hx : ¬p x) (q : List α) :
    (enqueue key x q).filter p = q.filter p := by
  rw [enqueue_eq, List.filter_append, List.filter_cons_of_neg hx, ← List.filter_append,
    List.takeWhile_append_dropWhile]

theorem filter_enqueue (hx : bound < key x) (q : List α) :
    (enqueue key x q).filter (key · ≤ bound) = q.filter (key · ≤ bound) :=
  filter_enqueue_of_not (by simpa using hx) q

theorem IsStableSort.enqueue_all (h : IsStableSort key l q) (xs : List α) :
    IsStableSort key (l ++ xs) (xs.foldl (fun q x => StableQueue.enqueue key x q) q) := by
  induction xs generalizing l q with
  | nil => simpa using h
  | cons x xs ih => simpa using ih (h.enqueue x)

theorem filter_enqueue_all {xs : List α} (hxs : ∀ x ∈ xs, bound < key x) (q : List α) :
    (xs.foldl (fun q x => enqueue key x q) q).filter (key · ≤ bound) = q.filter (key · ≤ bound) := by
  induction xs generalizing q with
  | nil => rfl
  | cons x xs ih =>
    rw [List.foldl_cons, ih fun y hy => hxs y (List.mem_cons_of_mem x hy)]
    exact filter_enqueue (hxs x List.mem_cons_self) q

theorem filter_eq_nil (h : (x :: q).Pairwise fun a b => key a ≤ key b) (hx : ¬key x ≤ bound) :
    (x :: q).filter (key · ≤ bound) = [] := by
  rw [List.filter_eq_nil_iff]
  intro y hy
  obtain rfl | hy := List.mem_cons.mp hy
  · simpa using hx
  · simpa using (not_le.mp hx).trans_le (List.rel_of_pairwise_cons h hy)

end Mcincos.StableQueue
