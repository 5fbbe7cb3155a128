import Mathlib

namespace Mcincos.LinkedList

variable {α : Type*} {link link' : Option α → Option α} {p q : Option α} {a b : α} {l l' as bs : List α}

/-- The elements behind the slot `p`, up to a null link. The slot `none` is the head pointer, `some a`
the link of `a`. -/
def IsList (link : Option α → Option α) : Option α → List α → Prop
  | p, [] => link p = none
  | p, a :: l => link p = some a ∧ IsList link (some a) l

theorem IsList.head_eq (h : IsList link p l) : link p = l.head? := by
  cases l with
  | nil => exact h
  | cons a l => exact h.1

theorem IsList.move (h : IsList link p l) (hq : link' q = link p)
    (hl : ∀ a ∈ l, link' (some a) = link (some a)) : IsList link' q l := by
  induction l generalizing p q with
  | nil => exact hq.trans h
  | cons a l ih =>
    refine ⟨hq.trans h.1, ih h.2 (hl a List.mem_cons_self) ?_⟩
    exact fun b hb => hl b (List.mem_cons_of_mem a hb)

theorem IsList.unique (h : IsList link p l) (h' : IsList link p l') : l = l' := by
  induction l generalizing p l' with
  | nil =>
    cases l' with
    | nil => rfl
    | cons a l' => exact absurd (h.symm.trans h'.1) (by simp)
  | cons a l ih =>
    cases l' with
    | nil => exact absurd (h.1.symm.trans h') (by simp)
    | cons a' l' =>
      obtain rfl := Option.some.inj (h.1.symm.trans h'.1)
      rw [ih h.2 h'.2]

theorem IsList.of_append (h : IsList link p (as ++ a :: bs)) : IsList link (some a) bs := by
  induction as generalizing p with
  | nil => exact h.2
  | cons c cs ih => exact ih h.2

theorem IsList.notMem (h : IsList link p l) : p ∉ l.map some := by
  intro hp
  obtain ⟨a, ha, rfl⟩ := List.mem_map.mp hp
  obtain ⟨as, bs, rfl⟩ := List.append_of_mem ha
  have heq := congrArg List.length (h.unique h.of_append)
  rw [List.length_append, List.length_cons] at heq
  omega

theorem IsList.nodup (h : IsList link p l) : l.Nodup := by
  induction l generalizing p with
  | nil => exact List.nodup_nil
  | cons a l ih =>
    refine List.nodup_cons.mpr ⟨fun ha => ?_, ih h.2⟩
    exact h.2.notMem (List.mem_map_of_mem ha)

theorem IsList.mem_iff (h : IsList link p l) : a ∈ l ↔
    ∃ b, link p = some b ∧ Relation.ReflTransGen (fun x y => link (some x) = some y) b a := by
  induction l generalizing p with
  | nil => simp [show link p = none from h]
  | cons c l ih =>
    have hhead (b : α) : link p = some b ↔ c = b := by
      rw [h.1, Option.some.injEq]
    simp only [List.mem_cons, ih h.2, hhead, exists_eq_left']
    rw [Relation.ReflTransGen.cases_head_iff, eq_comm]

def lastSlot (p : Option α) (l : List α) : Option α := l.foldl (fun _ a => some a) p

theorem lastSlot_mem (p : Option α) (l : List α) : lastSlot p l ∈ p :: l.map some := by
  induction l generalizing p with
  | nil => exact List.mem_cons_self
  | cons a l ih => exact List.mem_cons_of_mem _ (ih (some a))

theorem IsList.insert [DecidableEq α] (h : IsList link p (as ++ bs)) (hp : p ≠ some b)
    (hb : b ∉ as ++ bs) :
    IsList (Function.update (Function.update link (some b) (link (lastSlot p as))) (lastSlot p as)
      (some b)) p (as ++ b :: bs) := by
  induction as generalizing p with
  | nil =>
    refine ⟨Function.update_self _ _ _, IsList.move (p := p) h ?_ fun a ha => ?_⟩
    · rw [lastSlot, List.foldl_nil, Function.update_of_ne hp.symm, Function.update_self]
    · have hap : some a ≠ p := fun heq => h.notMem (heq ▸ List.mem_map_of_mem ha)
      have hab : some a ≠ some b := fun heq => hb (Option.some.inj heq ▸ ha)
      rw [lastSlot, List.foldl_nil, Function.update_of_ne hap, Function.update_of_ne hab]
  | cons c cs ih =>
    obtain ⟨hcb, hcs⟩ := not_or.mp (List.mem_cons.not.mp hb)
    have hlast : p ≠ lastSlot (some c) cs := by
      intro heq
      apply h.notMem
      rw [List.cons_append, List.map_cons, List.map_append, ← List.cons_append]
      exact List.mem_append_left _ (heq ▸ lastSlot_mem (some c) cs)
    refine ⟨?_, ih h.2 (fun heq => hcb (Option.some.inj heq).symm) hcs⟩
    rw [lastSlot, List.foldl_cons, ← lastSlot, Function.update_of_ne hlast, Function.update_of_ne hp]
    exact h.1

end Mcincos.LinkedList
