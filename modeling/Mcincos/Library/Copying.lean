import Mathlib.Data.List.Basic
import Mathlib.Logic.Function.Basic

namespace Mcincos.Copying

variable {ι α β : Type*} [DecidableEq α] {dst src : ι → α} {m : α → β} {is : List ι} {i : ι} {a : α}

/-- One memory, in which `src i` is copied to `dst i` for one `i` after the other. -/
def copyAll (dst src : ι → α) (m : α → β) (is : List ι) : α → β :=
  is.foldl (fun m i => Function.update m (dst i) (m (src i))) m

structure InOrder (dst src : ι → α) (is : List ι) : Prop where
  unread : is.Pairwise fun i j => dst i ≠ src j
  unwritten : is.Pairwise fun i j => dst i ≠ dst j

theorem copyAll_cons (dst src : ι → α) (m : α → β) (i : ι) (is : List ι) :
    copyAll dst src m (i :: is) = copyAll dst src (Function.update m (dst i) (m (src i))) is := rfl

theorem copyAll_concat (dst src : ι → α) (m : α → β) (is : List ι) (i : ι) :
    copyAll dst src m (is ++ [i]) =
      Function.update (copyAll dst src m is) (dst i) (copyAll dst src m is (src i)) := by
  rw [copyAll, List.foldl_append]
  rfl

theorem copyAll_self (dst : ι → α) (m : α → β) (is : List ι) : copyAll dst dst m is = m := by
  induction is with
  | nil => rfl
  | cons i is ih => rw [copyAll_cons, Function.update_eq_self, ih]

theorem copyAll_outside (h : ∀ i ∈ is, dst i ≠ a) : copyAll dst src m is a = m a := by
  induction is generalizing m with
  | nil => rfl
  | cons i is ih =>
    obtain ⟨hi, his⟩ := List.forall_mem_cons.mp h
    rw [copyAll_cons, ih his]
    exact Function.update_of_ne hi.symm _ _

theorem copyAll_inside (h : InOrder dst src is) (hi : i ∈ is) : copyAll dst src m is (dst i) = m (src i) := by
  induction is generalizing m with
  | nil => exact absurd hi List.not_mem_nil
  | cons j is ih =>
    obtain ⟨hread, hunread⟩ := List.pairwise_cons.mp h.unread
    obtain ⟨hwritten, hunwritten⟩ := List.pairwise_cons.mp h.unwritten
    rw [copyAll_cons]
    cases hi with
    | head =>
      rw [copyAll_outside fun j hj => (hwritten j hj).symm]
      exact Function.update_self _ _ _
    | tail _ hi =>
      rw [ih ⟨hunread, hunwritten⟩ hi]
      exact Function.update_of_ne (hread i hi).symm _ _

end Mcincos.Copying
