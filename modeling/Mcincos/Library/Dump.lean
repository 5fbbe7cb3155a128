import Mathlib.Data.List.Basic

namespace Mcincos.Dump

variable {ε α β : Type} {emit : α → List β} {n : ℕ}

def dump (read : ℕ → Except ε α) (emit : α → List β) : ℕ → List β × Option ε
  | 0 => ([], none)
  | n + 1 =>
    match read 0 with
    | .error e => ([], some e)
    | .ok a =>
      let (out, e) := dump (fun i => read (i + 1)) emit n
      (emit a ++ out, e)

def Reached (read : ℕ → Except ε α) (i : ℕ) : Prop := ∀ j < i, ∃ a, read j = .ok a

theorem Reached.zero (read : ℕ → Except ε α) : Reached read 0 := fun _ hj => absurd hj (Nat.not_lt_zero _)

theorem Reached.succ {read : ℕ → Except ε α} {a : α} (ha : read 0 = .ok a) {i : ℕ}
    (h : Reached (fun i => read (i + 1)) i) : Reached read (i + 1) := by
  rintro (_ | j) hj
  · exact ⟨a, ha⟩
  · exact h j (Nat.lt_of_succ_lt_succ hj)

theorem Reached.tail {read : ℕ → Except ε α} {i : ℕ} (h : Reached read (i + 1)) :
    Reached (fun i => read (i + 1)) i := fun j hj => h (j + 1) (Nat.succ_lt_succ hj)

theorem dump_congr {read read' : ℕ → Except ε α}
    (h : ∀ i < n, Reached read i → read' i = read i) : dump read' emit n = dump read emit n := by
  induction n generalizing read read' with
  | zero => rfl
  | succ n ih =>
    rw [dump, dump, h 0 n.succ_pos (.zero read)]
    cases ha : read 0 with
    | error e => rfl
    | ok a =>
      have htail := ih fun i hi hreached => h (i + 1) (Nat.succ_lt_succ hi) (hreached.succ ha)
      simp only [htail]

theorem dump_ok {read : ℕ → Except ε α} {as : List α} (h : ∀ i (hi : i < as.length), read i = .ok as[i]) :
    dump read emit as.length = (as.flatMap emit, none) := by
  induction as generalizing read with
  | nil => rfl
  | cons a as ih =>
    have hhead : read 0 = .ok a := h 0 (Nat.succ_pos _)
    have htail : dump (fun i => read (i + 1)) emit as.length = (as.flatMap emit, none) := by
      apply ih
      exact fun i hi => h (i + 1) (Nat.succ_lt_succ hi)
    rw [List.length_cons, dump, hhead]
    simp only [htail, List.flatMap_cons]

structure Longer (emit : α → List β) (read read' : ℕ → Except ε α) : Prop where
  error : ∀ i e, read i = .error e → read' i = .error e
  ok : ∀ i a, read i = .ok a → ∃ a', read' i = .ok a' ∧ (emit a).length ≤ (emit a').length

theorem Longer.tail {read read' : ℕ → Except ε α} (h : Longer emit read read') :
    Longer emit (fun i => read (i + 1)) fun i => read' (i + 1) :=
  ⟨fun i => h.error (i + 1), fun i => h.ok (i + 1)⟩

theorem Longer.dump_le {read read' : ℕ → Except ε α} (h : Longer emit read read') :
    (dump read emit n).1.length ≤ (dump read' emit n).1.length ∧
      (dump read' emit n).2 = (dump read emit n).2 := by
  induction n generalizing read read' with
  | zero => exact ⟨Nat.le_refl _, rfl⟩
  | succ n ih =>
    rw [dump, dump]
    cases ha : read 0 with
    | error e =>
      rw [h.error 0 e ha]
      exact ⟨Nat.le_refl _, rfl⟩
    | ok a =>
      obtain ⟨a', ha', hle⟩ := h.ok 0 a ha
      obtain ⟨hlength, herror⟩ := ih h.tail
      rw [ha']
      simp only [List.length_append]
      exact ⟨Nat.add_le_add hle hlength, herror⟩

theorem Longer.dump_lt {read read' : ℕ → Except ε α} (h : Longer emit read read') {i : ℕ} (hi : i < n)
    (hreached : Reached read i) {a a' : α} (ha : read i = .ok a) (ha' : read' i = .ok a')
    (hlt : (emit a).length < (emit a').length) :
    (dump read emit n).1.length < (dump read' emit n).1.length := by
  induction n generalizing read read' i with
  | zero => exact absurd hi (Nat.not_lt_zero i)
  | succ n ih =>
    rw [dump, dump]
    cases i with
    | zero =>
      rw [ha, ha']
      simp only [List.length_append]
      exact Nat.add_lt_add_of_lt_of_le hlt h.tail.dump_le.1
    | succ i =>
      obtain ⟨b, hb⟩ := hreached 0 i.succ_pos
      obtain ⟨b', hb', hle⟩ := h.ok 0 b hb
      rw [hb, hb']
      simp only [List.length_append]
      exact Nat.add_lt_add_of_le_of_lt hle
        (ih h.tail (Nat.lt_of_succ_lt_succ hi) hreached.tail ha ha')

end Mcincos.Dump
