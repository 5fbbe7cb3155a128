import Mathlib

namespace Mcincos.Rotation

variable {α : Type*} {live : α → Prop} {c : α} {l l' ts : List α}

/-- The cursor of a circular list, at the head, moves on to the next live element, or stays. -/
inductive Turn (live : α → Prop) : List α → List α → Prop
  | move {c n : α} {as bs : List α} : (∀ a ∈ as, ¬live a) → live n →
      Turn live (c :: (as ++ n :: bs)) (n :: (bs ++ c :: as))
  | stay {c : α} {os : List α} : (∀ a ∈ os, ¬live a) → Turn live (c :: os) (c :: os)

theorem Turn.perm (h : Turn live l l') : l'.Perm l := by
  cases h with
  | @move c n as bs _ _ =>
    rw [← List.cons_append, ← List.cons_append]
    exact List.perm_append_comm
  | stay _ => exact .refl _

variable [DecidablePred live]

theorem Turn.filter (h : Turn live l l') (hc : ∀ c ∈ l.head?, live c) :
    l'.filter (fun a => decide (live a)) = (l.filter (fun a => decide (live a))).rotate 1 := by
  cases h with
  | @move c n as bs has hn =>
    have hc : live c := hc c rfl
    have hnone : as.filter (fun a => decide (live a)) = [] := by simpa using has
    simp [hc, hn, hnone]
  | @stay c os hos =>
    have hc : live c := hc c rfl
    have hnone : os.filter (fun a => decide (live a)) = [] := by simpa using hos
    simp [hc, hnone]

theorem head?_filter (hc : ∀ c ∈ l.head?, live c) :
    (l.filter fun a => decide (live a)).head? = l.head? := by
  cases l with
  | nil => rfl
  | cons c l => simp [hc c rfl]

theorem eq_rotate_one (hlength : ts.length = l.length)
    (h : ∀ j < ts.length, ts[j]? = (l.rotate (j + 1)).head?) : ts = l.rotate 1 := by
  apply List.ext_getElem?
  intro j
  by_cases hj : j < ts.length
  · have hrotate : j < (l.rotate 1).length := by rwa [List.length_rotate, ← hlength]
    rw [h j hj, ← List.head?_rotate hrotate, List.rotate_rotate, Nat.add_comm]
  · have hrotate : ¬j < (l.rotate 1).length := by rwa [List.length_rotate, ← hlength]
    rw [List.getElem?_eq_none (not_lt.mp hj), List.getElem?_eq_none (not_lt.mp hrotate)]

end Mcincos.Rotation
