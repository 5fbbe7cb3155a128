import Mathlib

namespace Mcincos.Coverage

variable {α κ : Type*}

inductive Call (α : Type*)
  | add (a : α)
  | remove (a : α)
  deriving DecidableEq

variable {keys : α → Set κ} {calls : List (Call α)} {a : α}

/-- The keys whose last call has added them; the calls are listed latest first. -/
def covered (keys : α → Set κ) : List (Call α) → Set κ
  | [] => ∅
  | .add a :: calls => covered keys calls ∪ keys a
  | .remove a :: calls => covered keys calls \ keys a

def Live : List (Call α) → α → Prop
  | [], _ => False
  | .add b :: calls, a => b = a ∨ Live calls a
  | .remove b :: calls, a => b ≠ a ∧ Live calls a

theorem Live.mem (h : Live calls a) : .add a ∈ calls := by
  induction calls with
  | nil => exact h.elim
  | cons call calls ih =>
    cases call with
    | add b =>
      obtain rfl | h := h
      · exact List.mem_cons_self
      · exact List.mem_cons_of_mem _ (ih h)
    | remove b => exact List.mem_cons_of_mem _ (ih h.2)

theorem Live.subset_covered (h : Live calls a)
    (hapart : ∀ b, .remove b ∈ calls → b ≠ a → Disjoint (keys a) (keys b)) :
    keys a ⊆ covered keys calls := by
  induction calls with
  | nil => exact h.elim
  | cons call calls ih =>
    have ih := fun h => ih h fun b hb => hapart b (List.mem_cons_of_mem call hb)
    cases call with
    | add b =>
      obtain rfl | h := h
      · exact Set.subset_union_right
      · exact (ih h).trans Set.subset_union_left
    | remove b =>
      intro f hf
      have hdisjoint := hapart b List.mem_cons_self h.1
      exact ⟨ih h.2 hf, Set.disjoint_left.mp hdisjoint hf⟩

end Mcincos.Coverage
