import Mathlib

namespace Mcincos.CircularList

open Relation

variable {α : Type*} {next next' : α → Option α} {a b : α} {l as bs : List α}

/-- A circular linked list: the links lead through the elements of `l`, each once, and back. -/
structure IsRing (next : α → Option α) (l : List α) : Prop where
  nodup : l.Nodup
  chain : Cycle.Chain (fun a b => next a = some b) (l : Cycle α)

theorem isRing_singleton (h : next a = some a) : IsRing next [a] where
  nodup := List.nodup_singleton a
  chain := (Cycle.chain_singleton _ a).mpr h

theorem IsRing.links (h : IsRing next (a :: l)) :
    List.IsChain (fun a b => next a = some b) (a :: (l ++ [a])) :=
  (Cycle.chain_coe_cons _ a l).mp h.chain

theorem IsRing.of_links (hn : (a :: l).Nodup)
    (h : List.IsChain (fun a b => next a = some b) (a :: (l ++ [a]))) : IsRing next (a :: l) where
  nodup := hn
  chain := (Cycle.chain_coe_cons _ a l).mpr h

theorem IsRing.next_eq (h : IsRing next (a :: l)) : next a = (l ++ [a]).head? := by
  cases l with
  | nil => exact (Cycle.chain_singleton _ a).mp h.chain
  | cons b bs => exact h.links.rel_head? rfl

theorem links_congr (hnext : ∀ x ∈ l, next' x = next x)
    (h : List.IsChain (fun a b => next a = some b) (l ++ [a])) :
    List.IsChain (fun a b => next' a = some b) (l ++ [a]) := by
  rw [List.isChain_append] at h ⊢
  obtain ⟨hl, -, hlast⟩ := h
  refine ⟨hl.imp_of_mem_imp fun x y hx _ hxy => ?_, List.isChain_singleton a, fun x hx y hy => ?_⟩
  · exact (hnext x hx).trans hxy
  · exact (hnext x (List.mem_of_mem_getLast? hx)).trans (hlast x hx y hy)

theorem IsRing.congr (h : IsRing next (a :: l)) (hnext : ∀ x ∈ a :: l, next' x = next x) :
    IsRing next' (a :: l) :=
  .of_links h.nodup (links_congr hnext h.links)

theorem IsRing.rotate (h : IsRing next (as ++ bs)) : IsRing next (bs ++ as) where
  nodup := List.nodup_append_comm.mp h.nodup
  chain := by
    have hcycle : ((bs ++ as : List α) : Cycle α) = ((as ++ bs : List α) : Cycle α) := by
      apply Cycle.coe_eq_coe.mpr
      exact List.isRotated_append
    rw [hcycle]
    exact h.chain

theorem IsRing.insert [DecidableEq α] (h : IsRing next (a :: l)) (hb : b ∉ a :: l) :
    IsRing (Function.update (Function.update next b (next a)) a (some b)) (a :: b :: l) := by
  obtain ⟨hba, hbl⟩ := not_or.mp (List.mem_cons.not.mp hb)
  have hal : a ∉ l := (List.nodup_cons.mp h.nodup).1
  apply IsRing.of_links
  · simp only [List.nodup_cons, List.mem_cons, not_or]
    exact ⟨⟨Ne.symm hba, hal⟩, hbl, (List.nodup_cons.mp h.nodup).2⟩
  · have hrest : List.IsChain (fun x y => Function.update (Function.update next b (next a)) a
        (some b) x = some y) (l ++ [a]) := by
      apply links_congr _ h.links.tail
      intro x hx
      rw [Function.update_of_ne (ne_of_mem_of_not_mem hx hal),
        Function.update_of_ne (ne_of_mem_of_not_mem hx hbl)]
    have hfrom : ∀ y ∈ (l ++ [a]).head?, Function.update (Function.update next b (next a)) a
        (some b) b = some y := by
      intro y hy
      rw [Function.update_of_ne hba, Function.update_self, h.next_eq]
      exact hy
    exact (hrest.cons hfrom).cons fun y hy => by
      obtain rfl := Option.some.inj hy
      rw [Function.update_self]

theorem IsRing.reach (h : IsRing next (a :: l)) (hb : b ∈ a :: l) :
    ReflTransGen (fun a b => next a = some b) a b := by
  apply h.links.induction (ReflTransGen (fun a b => next a = some b) a) _ _ _ b
  · rw [← List.cons_append]
    exact List.mem_append_left _ hb
  · exact fun x y hxy hx => hx.tail hxy
  · exact fun _ => .refl

theorem IsRing.next_mem (h : IsRing next (a :: l)) {x y : α} (hx : x ∈ a :: l) (hxy : next x = some y) :
    y ∈ a :: l := by
  obtain ⟨as, bs, heq⟩ := List.append_of_mem hx
  rw [heq] at h ⊢
  have hnext : next x = ((bs ++ as) ++ [x]).head? := h.rotate.next_eq
  have hmem : y ∈ (bs ++ as) ++ [x] := List.mem_of_mem_head? (hnext ▸ hxy)
  simp only [List.mem_append, List.mem_cons] at hmem ⊢
  tauto

theorem IsRing.next_before (h : IsRing next (a :: (as ++ b :: bs))) {x : α} (hx : x ∈ a :: as) :
    ∃ y ∈ as ++ [b], next x = some y := by
  obtain ⟨before, after, heq⟩ := List.append_of_mem hx
  have hsub : after ⊆ as := by
    cases before with
    | nil => exact (List.cons.inj heq).2 ▸ List.Subset.refl _
    | cons c cs =>
      rw [(List.cons.inj heq).2]
      exact List.subset_append_of_subset_right _ (List.subset_cons_self _ _)
  have hring : IsRing next (before ++ (x :: (after ++ b :: bs))) := by
    have hlist : a :: (as ++ b :: bs) = before ++ (x :: (after ++ b :: bs)) := by
      rw [← List.cons_append, heq, List.append_assoc, List.cons_append]
    exact hlist ▸ h
  have hnext := hring.rotate.next_eq
  cases after with
  | nil => exact ⟨b, List.mem_append_right _ List.mem_cons_self, hnext⟩
  | cons c cs => exact ⟨c, List.mem_append_left _ (hsub List.mem_cons_self), hnext⟩

theorem IsRing.reach_iff (h : IsRing next (a :: l)) :
    ReflTransGen (fun a b => next a = some b) a b ↔ b ∈ a :: l := by
  refine ⟨fun hreach => ?_, h.reach⟩
  induction hreach with
  | refl => exact List.mem_cons_self
  | tail _ hstep ih => exact h.next_mem ih hstep

theorem IsRing.length_le [Fintype α] (h : IsRing next l) : l.length ≤ Fintype.card α :=
  h.nodup.length_le_card

end Mcincos.CircularList
