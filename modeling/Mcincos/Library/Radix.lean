import Mathlib

/-!
Multi-level tables that live in a store of rows. An entry may point to a further table; tables
above level `depth` are inner tables, those at level `depth` hold the leaves. Several roots may
share the tables under their `shared` indices.
-/

namespace Mcincos.Radix

variable {A I E : Type}

structure Shape (A I E : Type) where
  child : E → Option A
  sound : E → Prop
  shared : I → Prop
  depth : ℕ

variable (S : Shape A I E)

namespace Shape

inductive At (roots : Set A) (m : A → I → E) : ℕ → A → Prop
  | root {r : A} : r ∈ roots → At roots m 0 r
  | next {k : ℕ} {a b : A} {i : I} :
      At roots m k a → k < S.depth → S.child (m a i) = some b → At roots m (k + 1) b

/-- Every table but a root has one entry that points to it, unless roots share that entry. -/
structure Forest (roots : Set A) (m : A → I → E) : Prop where
  unrooted : ∀ {k a i b}, S.At roots m k a → k < S.depth → S.child (m a i) = some b → b ∉ roots
  unique : ∀ {k k' a a' i i' b}, S.At roots m k a → S.At roots m k' a' → k < S.depth →
    k' < S.depth → S.child (m a i) = some b → S.child (m a' i') = some b →
    (a = a' ∧ i = i') ∨ (a ∈ roots ∧ a' ∈ roots ∧ i = i' ∧ S.shared i)
  sound : ∀ {k a i b}, S.At roots m k a → k < S.depth → S.child (m a i) = some b →
    S.sound (m a i)

def descend (m : A → I → E) : A → List I → Option A
  | a, [] => some a
  | a, i :: is => (S.child (m a i)).bind fun b => descend m b is

def slot (m : A → I → E) : A → List I → Option (A × I)
  | _, [] => none
  | a, [i] => some (a, i)
  | a, i :: j :: is => (S.child (m a i)).bind fun b => slot m b (j :: is)

def get (m : A → I → E) (a : A) (path : List I) : Option E :=
  (S.slot m a path).bind fun s => if (S.child (m s.1 s.2)).isSome then some (m s.1 s.2) else none

end Shape

open Shape

variable {S} {roots : Set A} {m m' : A → I → E}

theorem descend_append (a : A) (xs ys : List I) :
    S.descend m a (xs ++ ys) = (S.descend m a xs).bind fun b => S.descend m b ys := by
  induction xs generalizing a with
  | nil => rfl
  | cons i is ih =>
    simp only [List.cons_append, descend, ih, Option.bind_assoc]

theorem slot_append (a : A) (xs : List I) (i : I) :
    S.slot m a (xs ++ [i]) = (S.descend m a xs).map fun b => (b, i) := by
  induction xs generalizing a with
  | nil => rfl
  | cons x xs ih =>
    cases h : xs ++ [i] with
    | nil => simp at h
    | cons j js =>
      rw [List.cons_append, h, slot, descend, ← h]
      cases S.child (m a x) with
      | none => rfl
      | some b => exact ih b

theorem descend_at {k : ℕ} {a b : A} {path : List I} (ha : S.At roots m k a)
    (hk : k + path.length ≤ S.depth) (h : S.descend m a path = some b) :
    S.At roots m (k + path.length) b := by
  induction path generalizing k a with
  | nil => exact Option.some.inj h ▸ ha
  | cons i is ih =>
    rw [List.length_cons] at hk ⊢
    obtain ⟨c, hc, hb⟩ := Option.bind_eq_some_iff.mp h
    have := ih (ha.next (by omega) hc) (by omega) hb
    rwa [show k + 1 + is.length = k + (is.length + 1) by omega] at this

theorem Shape.At.exists_descend {k : ℕ} {a : A} (h : S.At roots m k a) :
    ∃ r ∈ roots, ∃ path : List I, path.length = k ∧ S.descend m r path = some a := by
  induction h with
  | @root r hr => exact ⟨r, hr, [], rfl, rfl⟩
  | @next k a b i _ _ hc ih =>
    obtain ⟨r, hr, path, hlength, hd⟩ := ih
    refine ⟨r, hr, path ++ [i], by simp [hlength], ?_⟩
    rw [descend_append, hd]
    simp [descend, hc]

theorem get_singleton {a : A} {i : I} {e : E} (h : S.get m a [i] = some e) :
    m a i = e ∧ (S.child e).isSome := by
  simp only [Shape.get, slot, Option.bind_some] at h
  split_ifs at h with hc
  obtain rfl := Option.some.inj h
  exact ⟨rfl, hc⟩

theorem get_head_congr {a b : A} {i : I} (h : m a i = m b i) (is : List I) :
    S.get m a (i :: is) = S.get m b (i :: is) := by
  cases is with
  | nil => simp [Shape.get, slot, h]
  | cons j js => simp [Shape.get, slot, h]

theorem get_of_descend {a b : A} {path : List I} (hp : path ≠ []) (h : S.descend m a path = some b) :
    ∃ e, S.get m a path = some e := by
  induction path using List.reverseRecOn with
  | nil => exact absurd rfl hp
  | append_singleton is i _ =>
    rw [descend_append] at h
    obtain ⟨c, hc, hb⟩ := Option.bind_eq_some_iff.mp h
    simp only [descend, Option.bind_fun_some] at hb
    rw [Shape.get, slot_append, hc]
    simp [hb]

theorem Shape.Forest.level_root (hf : S.Forest roots m) {k : ℕ} {r : A} (hr : r ∈ roots)
    (h : S.At roots m k r) : k = 0 := by
  cases h with
  | root _ => rfl
  | next ha hk hc => exact absurd hr (hf.unrooted ha hk hc)

theorem Shape.Forest.level_unique (hf : S.Forest roots m) {k k' : ℕ} {a : A}
    (h : S.At roots m k a) (h' : S.At roots m k' a) : k = k' := by
  induction h generalizing k' with
  | root hr => exact (hf.level_root hr h').symm
  | @next k a b i ha hk hc ih =>
    cases h' with
    | root hr => exact absurd hr (hf.unrooted ha hk hc)
    | @next k' a' _ i' ha' hk' hc' =>
      obtain ⟨rfl, -⟩ | ⟨hr, hr', -⟩ := hf.unique ha ha' hk hk' hc hc'
      · rw [ih ha']
      · rw [hf.level_root hr ha, hf.level_root hr' ha']

def Together (S : Shape A I E) (m : A → I → E) (r r' : A) (path : List I) : Prop :=
  r = r' ∨ ∃ i is, path = i :: is ∧ S.shared i ∧ S.child (m r i) = S.child (m r' i)

theorem Shape.Forest.descend_unique (hf : S.Forest roots m) {r r' a : A} {path path' : List I}
    (hr : r ∈ roots) (hr' : r' ∈ roots) (hl : path.length ≤ S.depth) (hl' : path'.length ≤ S.depth)
    (h : S.descend m r path = some a) (h' : S.descend m r' path' = some a) :
    path = path' ∧ Together S m r r' path := by
  have hlevel : path.length = path'.length := by
    have h1 := descend_at (.root hr) (by omega) h
    have h2 := descend_at (.root hr') (by omega) h'
    simpa using hf.level_unique h1 h2
  induction path using List.reverseRecOn generalizing path' a with
  | nil =>
    have : path' = [] := List.length_eq_zero_iff.mp hlevel.symm
    subst this
    exact ⟨rfl, .inl (Option.some.inj (h.trans h'.symm))⟩
  | append_singleton is i ih =>
    induction path' using List.reverseRecOn with
    | nil => simp at hlevel
    | append_singleton is' i' _ =>
      simp only [List.length_append, List.length_singleton] at hl hl' hlevel
      rw [descend_append] at h h'
      obtain ⟨p, hp, hpa⟩ := Option.bind_eq_some_iff.mp h
      obtain ⟨p', hp', hpa'⟩ := Option.bind_eq_some_iff.mp h'
      simp only [descend, Option.bind_fun_some] at hpa hpa'
      have hat : S.At roots m (0 + is.length) p := descend_at (.root hr) (by omega) hp
      have hat' : S.At roots m (0 + is'.length) p' := descend_at (.root hr') (by omega) hp'
      rcases hf.unique hat hat' (by omega) (by omega) hpa hpa' with
        ⟨rfl, rfl⟩ | ⟨hroot, hroot', rfl, hshared⟩
      · obtain ⟨rfl, ht⟩ := ih (by omega) (by omega) hp hp' (by omega)
        refine ⟨rfl, ht.imp id ?_⟩
        rintro ⟨j, js, rfl, hj⟩
        exact ⟨j, js ++ [i], rfl, hj⟩
      · -- the parents are roots, so the paths have one index each
        have hnil : is = [] := List.length_eq_zero_iff.mp (by
          have := hf.level_root hroot hat; omega)
        have hnil' : is' = [] := List.length_eq_zero_iff.mp (by
          have := hf.level_root hroot' hat'; omega)
        subst hnil hnil'
        obtain rfl : r = p := Option.some.inj hp
        obtain rfl : r' = p' := Option.some.inj hp'
        exact ⟨rfl, .inr ⟨i, [], rfl, hshared, hpa.trans hpa'.symm⟩⟩

theorem slot_eq_append {r a : A} {i : I} {path : List I} (h : S.slot m r path = some (a, i)) :
    ∃ is, path = is ++ [i] ∧ S.descend m r is = some a := by
  induction path using List.reverseRecOn with
  | nil => exact absurd h (by simp [slot])
  | append_singleton is j _ =>
    rw [slot_append, Option.map_eq_some_iff] at h
    obtain ⟨b, hb, he⟩ := h
    obtain ⟨rfl, rfl⟩ := Prod.mk.inj he
    exact ⟨is, rfl, hb⟩

theorem slot_at {k : ℕ} {a b : A} {i : I} {path : List I} (ha : S.At roots m k a)
    (hk : k + path.length ≤ S.depth + 1) (h : S.slot m a path = some (b, i)) :
    S.At roots m (k + path.length - 1) b ∧ path ≠ [] := by
  obtain ⟨is, rfl, hd⟩ := slot_eq_append h
  rw [List.length_append, List.length_singleton] at hk ⊢
  exact ⟨descend_at ha (by omega) hd, by simp⟩

theorem Shape.Forest.slot_unique (hf : S.Forest roots m) {r r' : A} {s : A × I}
    {path path' : List I} (hr : r ∈ roots) (hr' : r' ∈ roots) (hl : path.length ≤ S.depth + 1)
    (hl' : path'.length ≤ S.depth + 1) (h : S.slot m r path = some s)
    (h' : S.slot m r' path' = some s) :
    path = path' ∧ Together S m r r' path.dropLast := by
  obtain ⟨a, i⟩ := s
  obtain ⟨is, rfl, hd⟩ := slot_eq_append h
  obtain ⟨is', rfl, hd'⟩ := slot_eq_append h'
  rw [List.length_append, List.length_singleton] at hl hl'
  obtain ⟨rfl, ht⟩ := hf.descend_unique hr hr' (by omega) (by omega) hd hd'
  exact ⟨rfl, by rwa [List.dropLast_concat]⟩

end Mcincos.Radix
