import Mathlib

namespace Mcincos.History

variable {σ α : Type*} (step : σ → α → σ)

def Throughout (P : σ → Prop) : σ → List α → Prop
  | s, [] => P s
  | s, a :: as => P s ∧ Throughout P (step s a) as

def EachCall (C : σ → α → Prop) : σ → List α → Prop
  | _, [] => True
  | s, a :: as => C s a ∧ EachCall C (step s a) as

variable {step} {P Q I : σ → Prop} {C : σ → α → Prop}

theorem Throughout.head {s : σ} {as : List α} (h : Throughout step P s as) : P s := by
  cases as with
  | nil => exact h
  | cons a as => exact h.1

theorem throughout_of_inv (hkeep : ∀ s a, I s → I (step s a)) (h : ∀ s, I s → P s) {s : σ}
    (hs : I s) (as : List α) : Throughout step P s as := by
  induction as generalizing s with
  | nil => exact h s hs
  | cons a as ih => exact ⟨h s hs, ih (hkeep s a hs)⟩

theorem throughout_congr (hkeep : ∀ s a, I s → I (step s a)) (h : ∀ s, I s → (P s ↔ Q s)) {s : σ}
    (hs : I s) (as : List α) : Throughout step P s as ↔ Throughout step Q s as := by
  induction as generalizing s with
  | nil => exact h s hs
  | cons a as ih => exact and_congr (h s hs) (ih (hkeep s a hs))

theorem throughout_iff (hkeep : ∀ s a, I s → I (step s a))
    (hstep : ∀ s a, I s → P s → (P (step s a) ↔ C s a)) {s : σ} (hs : I s) (hP : P s) (as : List α) :
    Throughout step P s as ↔ EachCall step C s as := by
  induction as generalizing s with
  | nil => exact iff_of_true hP trivial
  | cons a as ih =>
    rw [Throughout, EachCall, and_iff_right hP]
    constructor
    · intro h
      exact ⟨(hstep s a hs hP).mp h.head, (ih (hkeep s a hs) h.head).mp h⟩
    · rintro ⟨hC, h⟩
      exact (ih (hkeep s a hs) ((hstep s a hs hP).mpr hC)).mpr h

theorem eachCall_const {D : α → Prop} (s : σ) (as : List α) :
    EachCall step (fun _ a => D a) s as ↔ ∀ a ∈ as, D a := by
  induction as generalizing s with
  | nil => simp [EachCall]
  | cons a as ih => rw [EachCall, ih, List.forall_mem_cons]

end Mcincos.History
