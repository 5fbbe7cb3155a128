import Mcincos.Library.Radix

namespace Mcincos.Radix

open Shape

variable {A I E : Type} {S : Shape A I E} {roots : Set A} {m m' : A → I → E}

structure Stored (m m' : A → I → E) (a : A) (i : I) (e : E) : Prop where
  here : m' a i = e
  other : ∀ b j, (b, j) ≠ (a, i) → m' b j = m b j

def SameInner (S : Shape A I E) (roots : Set A) (m m' : A → I → E) : Prop :=
  ∀ k a, S.At roots m k a → k < S.depth → ∀ i, m' a i = m a i

theorem SameInner.at_iff (h : SameInner S roots m m') {k : ℕ} {a : A} :
    S.At roots m' k a ↔ S.At roots m k a := by
  constructor
  · intro ha
    induction ha with
    | root hr => exact .root hr
    | next _ hk hc ih => exact ih.next hk (h _ _ ih hk _ ▸ hc)
  · intro ha
    induction ha with
    | root hr => exact .root hr
    | next ha hk hc ih => exact ih.next hk ((h _ _ ha hk _).symm ▸ hc)

theorem SameInner.forest (h : SameInner S roots m m') (hf : S.Forest roots m) :
    S.Forest roots m' where
  unrooted := by
    intro k a i b ha hk hc
    rw [h.at_iff] at ha
    exact hf.unrooted ha hk (h _ _ ha hk i ▸ hc)
  unique := by
    intro k k' a a' i i' b ha ha' hk hk' hc hc'
    rw [h.at_iff] at ha ha'
    exact hf.unique ha ha' hk hk' (h _ _ ha hk i ▸ hc) (h _ _ ha' hk' i' ▸ hc')
  sound := by
    intro k a i b ha hk hc
    rw [h.at_iff] at ha
    rw [h _ _ ha hk i] at hc ⊢
    exact hf.sound ha hk hc

theorem SameInner.slot (h : SameInner S roots m m') {k : ℕ} {a : A} {path : List I}
    (ha : S.At roots m k a) (hk : k + path.length ≤ S.depth + 1) :
    S.slot m' a path = S.slot m a path := by
  induction path generalizing k a with
  | nil => rfl
  | cons i is ih =>
    cases is with
    | nil => rfl
    | cons j js =>
      simp only [List.length_cons] at hk ih
      rw [Shape.slot, Shape.slot, h _ _ ha (by omega) i]
      cases hc : S.child (m a i) with
      | none => rfl
      | some b => exact ih (ha.next (by omega) hc) (by omega)

theorem SameInner.descend (h : SameInner S roots m m') {k : ℕ} {a : A} {path : List I}
    (ha : S.At roots m k a) (hk : k + path.length ≤ S.depth) :
    S.descend m' a path = S.descend m a path := by
  induction path generalizing k a with
  | nil => rfl
  | cons i is ih =>
    rw [List.length_cons] at hk
    rw [Shape.descend, Shape.descend, h _ _ ha (by omega) i]
    cases hc : S.child (m a i) with
    | none => rfl
    | some b => exact ih (ha.next (by omega) hc) (by omega)

theorem get_congr (h : ∀ k a, S.At roots m k a → m' a = m a) {k : ℕ} {a : A} {path : List I}
    (ha : S.At roots m k a) (hk : k + path.length ≤ S.depth + 1) :
    S.get m' a path = S.get m a path := by
  have hinner : SameInner S roots m m' := fun k a ha _ i => congrFun (h k a ha) i
  unfold Shape.get
  rw [hinner.slot ha hk]
  cases hs : S.slot m a path with
  | none => rfl
  | some s =>
    have hat := (slot_at ha hk (b := s.1) (i := s.2) hs).1
    simp only [Option.bind_some, h _ _ hat]

theorem Stored.sameInner {a : A} {i : I} {e : E} (h : Stored m m' a i e) (hf : S.Forest roots m)
    (ha : S.At roots m S.depth a) : SameInner S roots m m' := by
  intro k b hb hk j
  apply h.other
  intro he
  obtain rfl := (Prod.mk.inj he).1
  exact absurd (hf.level_unique hb ha) (by omega)

theorem Stored.get_leaf [DecidableEq A] [DecidableEq I] {a : A} {i : I} {e : E}
    (h : Stored m m' a i e) (hf : S.Forest roots m) (ha : S.At roots m S.depth a) {k : ℕ} {b : A}
    {path : List I} (hb : S.At roots m k b) (hk : k + path.length ≤ S.depth + 1) :
    S.get m' b path =
      if S.slot m b path = some (a, i) then (if (S.child e).isSome then some e else none)
      else S.get m b path := by
  have hslot := (h.sameInner hf ha).slot hb hk
  unfold Shape.get
  rw [hslot]
  cases hs : S.slot m b path with
  | none => rfl
  | some s =>
    by_cases he : s = (a, i)
    · simp [he, h.here]
    · simp [he, h.other s.1 s.2 he]

structure Linked (S : Shape A I E) (roots : Set A) (m m' : A → I → E) (k : ℕ) (a : A) (i : I)
    (e : E) (f : A) : Prop where
  stored : Stored m m' a i e
  table : S.At roots m k a
  inner : k < S.depth
  absent : S.child (m a i) = none
  points : S.child e = some f
  sound : S.sound e
  fresh : ∀ k, ¬S.At roots m k f
  empty : ∀ i, S.child (m f i) = none

namespace Linked

variable {k : ℕ} {a f : A} {i : I} {e : E}

theorem ne (h : Linked S roots m m' k a i e f) : a ≠ f := fun he => h.fresh k (he ▸ h.table)

theorem child_eq (h : Linked S roots m m' k a i e f) {b c : A} {j : I}
    (hc : S.child (m b j) = some c) : m' b j = m b j := by
  apply h.stored.other
  intro he
  obtain ⟨rfl, rfl⟩ := Prod.mk.inj he
  rw [h.absent] at hc
  exact absurd hc (by simp)

theorem child_cases (h : Linked S roots m m' k a i e f) {b c : A} {j : I}
    (hc : S.child (m' b j) = some c) : S.child (m b j) = some c ∨ (b = a ∧ j = i ∧ c = f) := by
  by_cases he : (b, j) = (a, i)
  · obtain ⟨rfl, rfl⟩ := Prod.mk.inj he
    rw [h.stored.here, h.points] at hc
    exact .inr ⟨rfl, rfl, (Option.some.inj hc).symm⟩
  · rw [h.stored.other b j he] at hc
    exact .inl hc

theorem at_mono (h : Linked S roots m m' k a i e f) {k' : ℕ} {b : A} (hb : S.At roots m k' b) :
    S.At roots m' k' b := by
  induction hb with
  | root hr => exact .root hr
  | next _ hk hc ih => exact ih.next hk ((h.child_eq hc).symm ▸ hc)

theorem at_cases (h : Linked S roots m m' k a i e f) (hf : S.Forest roots m) {k' : ℕ} {b : A}
    (hb : S.At roots m' k' b) : S.At roots m k' b ∨ (k' = k + 1 ∧ b = f) := by
  induction hb with
  | root hr => exact .inl (.root hr)
  | @next k' b c j _ hk hc ih =>
    obtain hold | ⟨rfl, rfl⟩ := ih
    · obtain hc | ⟨rfl, rfl, rfl⟩ := h.child_cases hc
      · exact .inl (hold.next hk hc)
      · exact .inr ⟨by rw [hf.level_unique hold h.table], rfl⟩
    · obtain hc | ⟨rfl, -, -⟩ := h.child_cases hc
      · rw [h.empty] at hc
        exact absurd hc (by simp)
      · exact absurd rfl h.ne

theorem at_new (h : Linked S roots m m' k a i e f) : S.At roots m' (k + 1) f :=
  (h.at_mono h.table).next h.inner (h.stored.here ▸ h.points)

theorem entry_cases (h : Linked S roots m m' k a i e f) (hf : S.Forest roots m) {k' : ℕ} {b c : A}
    {j : I} (hb : S.At roots m' k' b) (hc : S.child (m' b j) = some c) :
    S.At roots m k' b ∧ (S.child (m b j) = some c ∨ (b = a ∧ j = i ∧ c = f)) := by
  obtain hold | ⟨-, rfl⟩ := h.at_cases hf hb
  · exact ⟨hold, h.child_cases hc⟩
  · obtain hc | ⟨he, -, -⟩ := h.child_cases hc
    · rw [h.empty] at hc
      exact absurd hc (by simp)
    · exact absurd he.symm h.ne

theorem forest (h : Linked S roots m m' k a i e f) (hf : S.Forest roots m) : S.Forest roots m' where
  unrooted := by
    intro k' b j c hb hk hc hr
    obtain ⟨hold, hc | ⟨-, -, rfl⟩⟩ := h.entry_cases hf hb hc
    · exact hf.unrooted hold hk hc hr
    · exact h.fresh 0 (.root hr)
  unique := by
    intro k1 k2 a1 a2 i1 i2 c h1 h2 hk1 hk2 hc1 hc2
    obtain ⟨hold1, hc1 | ⟨rfl, rfl, rfl⟩⟩ := h.entry_cases hf h1 hc1 <;>
      obtain ⟨hold2, hc2 | ⟨rfl, rfl, he⟩⟩ := h.entry_cases hf h2 hc2
    · exact hf.unique hold1 hold2 hk1 hk2 hc1 hc2
    · exact absurd (hold1.next hk1 (he ▸ hc1)) (h.fresh _)
    · exact absurd (hold2.next hk2 hc2) (h.fresh _)
    · exact .inl ⟨rfl, rfl⟩
  sound := by
    intro k' b j c hb hk hc
    obtain ⟨hold, hc' | ⟨rfl, rfl, rfl⟩⟩ := h.entry_cases hf hb hc
    · rw [h.child_eq hc']
      exact hf.sound hold hk hc'
    · rw [h.stored.here]
      exact h.sound

theorem descend_mono (h : Linked S roots m m' k a i e f) {b c : A} {path : List I}
    (hd : S.descend m b path = some c) : S.descend m' b path = some c := by
  induction path generalizing b with
  | nil => exact hd
  | cons j js ih =>
    obtain ⟨d, hc, hd⟩ := Option.bind_eq_some_iff.mp hd
    rw [descend, h.child_eq hc, hc]
    exact ih hd

theorem slot_cases (h : Linked S roots m m' k a i e f) (b : A) (path : List I) :
    S.slot m' b path = S.slot m b path ∨
      (S.slot m b path = none ∧ ∀ s, S.slot m' b path = some s → s.1 = f) := by
  have hnew (j : I) (js : List I) : ∀ s, S.slot m' f (j :: js) = some s → s.1 = f := by
    intro s hs
    cases js with
    | nil => exact (Option.some.inj hs) ▸ rfl
    | cons j' js =>
      obtain ⟨c, hc, -⟩ := Option.bind_eq_some_iff.mp hs
      obtain hc | ⟨he, -, -⟩ := h.child_cases hc
      · rw [h.empty] at hc
        exact absurd hc (by simp)
      · exact absurd he.symm h.ne
  induction path generalizing b with
  | nil => exact .inl rfl
  | cons j js ih =>
    cases js with
    | nil => exact .inl rfl
    | cons j' js =>
      rw [slot, slot]
      cases hc : S.child (m b j) with
      | some c =>
        rw [h.child_eq hc, hc]
        exact ih c
      | none =>
        refine .inr ⟨rfl, fun s hs => ?_⟩
        obtain ⟨c, hc', hs⟩ := Option.bind_eq_some_iff.mp hs
        obtain hold | ⟨-, -, rfl⟩ := h.child_cases hc'
        · rw [hc] at hold
          exact absurd hold (by simp)
        · exact hnew j' js s hs

theorem get_eq [DecidableEq A] [DecidableEq I] (h : Linked S roots m m' k a i e f) (b : A)
    (path : List I) :
    S.get m' b path = if S.slot m b path = some (a, i) then some e else S.get m b path := by
  unfold Shape.get
  obtain hs | ⟨hnone, hnew⟩ := h.slot_cases b path
  · rw [hs]
    cases hs : S.slot m b path with
    | none => rfl
    | some s =>
      by_cases he : s = (a, i)
      · simp [he, h.stored.here, h.points]
      · simp [he, h.stored.other s.1 s.2 he]
  · rw [hnone]
    cases hs : S.slot m' b path with
    | none => rfl
    | some s =>
      have hrow : m' s.1 s.2 = m f s.2 := by
        rw [hnew s hs]
        exact h.stored.other f s.2 fun he => h.ne (Prod.mk.inj he).1.symm
      simp [hrow, h.empty]

end Linked

structure Cloned (S : Shape A I E) (roots : Set A) (m : A → I → E) (r f : A) : Prop where
  root : r ∈ roots
  inner : 0 < S.depth
  fresh : ∀ k, ¬S.At roots m k f
  copied : ∀ i, S.shared i → m f i = m r i
  empty : ∀ i, ¬S.shared i → S.child (m f i) = none

namespace Cloned

variable {r f : A}

theorem entry (h : Cloned S roots m r f) {i : I} {b : A} (hc : S.child (m f i) = some b) :
    S.shared i ∧ S.child (m r i) = some b := by
  by_cases hs : S.shared i
  · exact ⟨hs, h.copied i hs ▸ hc⟩
  · rw [h.empty i hs] at hc
    exact absurd hc (by simp)

theorem at_mono {k : ℕ} {a : A} (ha : S.At roots m k a) : S.At (insert f roots) m k a := by
  induction ha with
  | root hr => exact .root (.inr hr)
  | next _ hk hc ih => exact ih.next hk hc

theorem at_cases (h : Cloned S roots m r f) {k : ℕ} {a : A} (ha : S.At (insert f roots) m k a) :
    S.At roots m k a ∨ (k = 0 ∧ a = f) := by
  induction ha with
  | root hr => exact hr.symm.imp .root fun he => ⟨rfl, he⟩
  | next _ hk hc ih =>
    obtain hold | ⟨rfl, rfl⟩ := ih
    · exact .inl (hold.next hk hc)
    · exact .inl ((At.root h.root).next hk (h.entry hc).2)

theorem entry_cases (h : Cloned S roots m r f) {k : ℕ} {a b : A} {i : I}
    (ha : S.At (insert f roots) m k a) (hc : S.child (m a i) = some b) :
    S.At roots m k a ∨ (k = 0 ∧ a = f ∧ S.shared i ∧ S.child (m r i) = some b) := by
  obtain hold | ⟨rfl, rfl⟩ := h.at_cases ha
  · exact .inl hold
  · exact .inr ⟨rfl, rfl, h.entry hc⟩

theorem forest (h : Cloned S roots m r f) (hf : S.Forest roots m) :
    S.Forest (insert f roots) m where
  unrooted := by
    intro k a i b ha hk hc hb
    have hlink : S.At roots m (k + 1) b ∧ b ∉ roots := by
      obtain hold | ⟨rfl, rfl, -, hc⟩ := h.entry_cases ha hc
      · exact ⟨hold.next hk hc, hf.unrooted hold hk hc⟩
      · exact ⟨(At.root h.root).next hk hc, hf.unrooted (.root h.root) hk hc⟩
    obtain rfl | hb := hb
    · exact h.fresh _ hlink.1
    · exact hlink.2 hb
  unique := by
    intro k k' a a' i i' b ha ha' hk hk' hc hc'
    have hr := h.root
    rcases h.entry_cases ha hc with hold | ⟨rfl, rfl, hs, hcr⟩ <;>
      obtain hold' | ⟨rfl, rfl, hs', hcr'⟩ := h.entry_cases ha' hc'
    · exact (hf.unique hold hold' hk hk' hc hc').imp id
        fun ⟨h1, h2, h3⟩ => ⟨.inr h1, .inr h2, h3⟩
    · obtain ⟨rfl, rfl⟩ | ⟨h1, -, h3⟩ := hf.unique hold (.root hr) hk hk' hc hcr'
      · exact .inr ⟨.inr hr, .inl rfl, rfl, hs'⟩
      · exact .inr ⟨.inr h1, .inl rfl, h3⟩
    · obtain ⟨rfl, rfl⟩ | ⟨-, h2, h3⟩ := hf.unique (.root hr) hold' hk hk' hcr hc'
      · exact .inr ⟨.inl rfl, .inr hr, rfl, hs⟩
      · exact .inr ⟨.inl rfl, .inr h2, h3⟩
    · obtain ⟨-, rfl⟩ | ⟨-, -, rfl, -⟩ := hf.unique (.root hr) (.root hr) hk hk' hcr hcr'
      · exact .inl ⟨rfl, rfl⟩
      · exact .inl ⟨rfl, rfl⟩
  sound := by
    intro k a i b ha hk hc
    obtain hold | ⟨rfl, rfl, hs, hc⟩ := h.entry_cases ha hc
    · exact hf.sound hold hk hc
    · rw [h.copied i hs]
      exact hf.sound (.root h.root) hk hc

theorem get_shared (h : Cloned S roots m r f) {i : I} (hs : S.shared i) (is : List I) :
    S.get m f (i :: is) = S.get m r (i :: is) := get_head_congr (h.copied i hs) is

theorem get_empty (h : Cloned S roots m r f) {i : I} (hs : ¬S.shared i) (is : List I) :
    S.get m f (i :: is) = none := by
  cases is with
  | nil => simp [Shape.get, slot, h.empty i hs]
  | cons j js => simp [Shape.get, slot, h.empty i hs]

end Cloned

end Mcincos.Radix
