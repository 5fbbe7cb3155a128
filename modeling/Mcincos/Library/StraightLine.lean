import Mathlib

namespace Mcincos.StraightLine

variable {σ ι : Type*} {exec : σ → ι → Option σ} {i : ι} {is js : List ι} {Q R : σ → Prop} {s : σ}

def Reaches (exec : σ → ι → Option σ) (is : List ι) (Q : σ → Prop) (s : σ) : Prop :=
  ∃ s', is.foldlM exec s = some s' ∧ Q s'

theorem reaches_nil : Reaches exec [] Q s ↔ Q s := by
  constructor
  · rintro ⟨s', hs', hq⟩
    exact Option.some.inj hs' ▸ hq
  · exact fun hq => ⟨s, rfl, hq⟩

theorem reaches_cons : Reaches exec (i :: is) Q s ↔ ∃ s', exec s i = some s' ∧ Reaches exec is Q s' := by
  unfold Reaches
  rw [List.foldlM_cons]
  cases exec s i with
  | none => simp
  | some s1 => simp

theorem reaches_append : Reaches exec (is ++ js) Q s ↔ Reaches exec is (Reaches exec js Q) s := by
  induction is generalizing s with
  | nil => rw [List.nil_append, reaches_nil]
  | cons i is ih => simp only [List.cons_append, reaches_cons, ih]

theorem Reaches.mono (h : Reaches exec is Q s) (hq : ∀ s, Q s → R s) : Reaches exec is R s := by
  obtain ⟨s', hs', h⟩ := h
  exact ⟨s', hs', hq s' h⟩

theorem Reaches.step {s' : σ} (hexec : exec s i = some s') (h : Reaches exec is Q s') :
    Reaches exec (i :: is) Q s :=
  reaches_cons.mpr ⟨s', hexec, h⟩

end Mcincos.StraightLine
