import Mathlib

/-! Copies of answers, kept while what gives the answers changes. -/

namespace Mcincos.Caching

variable {K V : Type*} {answers answers' : K → V → Prop} {copies copies' : List (K × V)}

/-- Every copy is an answer that would be given now. -/
def Coherent (answers : K → V → Prop) (copies : List (K × V)) : Prop :=
  ∀ c ∈ copies, answers c.1 c.2

theorem Coherent.nil : Coherent answers [] := fun _ h => absurd h List.not_mem_nil

theorem Coherent.add (h : Coherent answers copies) {k : K} {v : V} (hv : answers k v) :
    Coherent answers ((k, v) :: copies) := by
  intro c hc
  obtain rfl | hc := List.mem_cons.mp hc
  · exact hv
  · exact h c hc

theorem Coherent.evict (h : Coherent answers copies) (hsub : copies' ⊆ copies) : Coherent answers copies' :=
  fun c hc => h c (hsub hc)

theorem Coherent.keep (h : Coherent answers copies) (p : K × V → Bool)
    (hkeep : ∀ k v, p (k, v) = true → answers k v → answers' k v) : Coherent answers' (copies.filter p) := by
  intro c hc
  obtain ⟨hmem, hp⟩ := List.mem_filter.mp hc
  exact hkeep c.1 c.2 hp (h c hmem)

theorem Coherent.mono (h : Coherent answers copies) (hmono : ∀ k v, answers k v → answers' k v) :
    Coherent answers' copies :=
  fun c hc => hmono c.1 c.2 (h c hc)

theorem Coherent.invalidate [DecidableEq K] (h : Coherent answers copies) {k : K}
    (hother : ∀ k' ≠ k, ∀ v, answers k' v → answers' k' v) :
    Coherent answers' (copies.filter fun c => c.1 ≠ k) := by
  refine h.keep (fun c => c.1 ≠ k) ?_
  intro k' v hne
  exact hother k' (of_decide_eq_true hne) v

end Mcincos.Caching
