import Mcincos.Core.Formats

namespace Mcincos.Print

variable {str : U64 → CString} {args : VaList} {c : BitVec 8} {cs : List (BitVec 8)} {fuel : ℕ} {fmt : Cursor}

inductive VaType
  | int
  | unsigned
  | long
  | unsignedLong
  | wint
  | string
  | wideString
  | pointer
  deriving DecidableEq

inductive Action
  | char
  | string
  | signed
  | unsigned (base : U64) (upper : Bool)
  | unsignedLong (base : U64)
  | pointer
  | percent
  | skipped
  | unknown (c : BitVec 8)

namespace Action

def takes : Action → Option VaType
  | char => some .int
  | string => some .string
  | signed => some .int
  | unsigned _ _ => some .unsigned
  | unsignedLong _ => some .unsignedLong
  | pointer => some .pointer
  | percent => none
  | skipped => none
  | unknown _ => none

def text (str : U64 → CString) (pad : BitVec 8) (width : BitVec 32) (arg : U64) : Action → List (BitVec 8)
  | char => [(arg.setWidth 32).setWidth 8]
  | string => stringAt str arg
  | signed => printInt ((arg.setWidth 32).signExtend 64) 10
  | unsigned base upper => printUint ((arg.setWidth 32).setWidth 64) base width pad upper
  | unsignedLong base => printUint arg base width pad false
  | pointer => [ascii '0', ascii 'x'] ++ printUint arg 16 16 (ascii '0') false
  | percent => [ascii '%']
  | skipped => []
  | unknown c => [ascii '%', c]

def rest (a : Action) (args : VaList) : VaList := if a.takes.isSome then args.rest else args

end Action

def actionLong (fmt : Cursor) : Except PrintFault (Action × Cursor) := do
  let second ← deref (advance fmt)
  if second = ascii 'l' then
    let fmt := advance fmt
    let third ← deref (advance fmt)
    if third = ascii 'x' then return (.unsignedLong 16, advance fmt)
    else if third = ascii 'u' then return (.unsignedLong 10, advance fmt)
    else return (.skipped, fmt)
  else return (.skipped, fmt)

def action (fmt : Cursor) : Except PrintFault (Action × Cursor) := do
  let c ← deref fmt
  if c = ascii 'c' then return (.char, fmt)
  else if c = ascii 's' then return (.string, fmt)
  else if c = ascii 'd' ∨ c = ascii 'i' then return (.signed, fmt)
  else if c = ascii 'u' then return (.unsigned 10 false, fmt)
  else if c = ascii 'x' then return (.unsigned 16 false, fmt)
  else if c = ascii 'X' then return (.unsigned 16 true, fmt)
  else if c = ascii 'p' then return (.pointer, fmt)
  else if c = ascii 'l' then actionLong fmt
  else if c = ascii '%' then return (.percent, fmt)
  else return (.unknown c, fmt)

inductive Round
  | literal (c : BitVec 8)
  | conversion (pad : BitVec 8) (width : BitVec 32) (action : Action) (left : Cursor)

def rounds : ℕ → Cursor → Except PrintFault (List Round × Cursor)
  | 0, _ => .error .endless
  | fuel + 1, fmt => do
    let c ← deref fmt
    if c = 0 then return ([], fmt)
    else if c ≠ ascii '%' then
      let (rs, stop) ← rounds fuel (advance fmt)
      return (.literal c :: rs, stop)
    else
      let (pad, fmt) ← scanFlag (advance fmt)
      let (width, fmt) ← scanWidth fmt
      let (a, fmt) ← action fmt
      let (rs, stop) ← rounds fuel (advance fmt)
      return (.conversion pad width a fmt :: rs, stop)

def printRounds (str : U64 → CString) : List Round → VaList → List (BitVec 8)
  | [], _ => []
  | .literal c :: rs, args => c :: printRounds str rs args
  | .conversion pad width a _ :: rs, args => a.text str pad width (args 0) ++ printRounds str rs (a.rest args)

theorem convertLong_eq (str : U64 → CString) (pad : BitVec 8) (width : BitVec 32) (fmt : Cursor) (args : VaList) :
    convertLong pad width fmt args =
      (actionLong fmt).map fun r => (r.1.text str pad width (args 0), r.2, r.1.rest args) := by
  rw [convertLong, actionLong]
  cases deref (advance fmt) with
  | error e => rfl
  | ok second =>
    rw [ok_bind, ok_bind]
    split_ifs
    · dsimp only
      cases deref (advance (advance fmt)) with
      | error e => rfl
      | ok third =>
        rw [ok_bind, ok_bind]
        split_ifs <;> rfl
    · rfl

theorem convert_eq (str : U64 → CString) (pad : BitVec 8) (width : BitVec 32) (fmt : Cursor) (args : VaList) :
    convert str pad width fmt args =
      (action fmt).map fun r => (r.1.text str pad width (args 0), r.2, r.1.rest args) := by
  rw [convert, action]
  cases deref fmt with
  | error e => rfl
  | ok c =>
    rw [ok_bind, ok_bind]
    dsimp only
    split_ifs
    all_goals first
      | exact convertLong_eq str pad width fmt args
      | rfl

theorem kvprintf_eq (str : U64 → CString) (fuel : ℕ) (fmt : Cursor) (args : VaList) :
    kvprintf str fuel fmt args = (rounds fuel fmt).map fun r => (printRounds str r.1 args, r.2) := by
  induction fuel generalizing fmt args with
  | zero => rfl
  | succ fuel ih =>
    rw [kvprintf, rounds]
    cases deref fmt with
    | error e => rfl
    | ok c =>
      rw [ok_bind, ok_bind]
      split_ifs
      · rfl
      · rw [ih]
        cases rounds fuel (advance fmt) <;> rfl
      · cases scanFlag (advance fmt) with
        | error e => rfl
        | ok flag =>
          obtain ⟨pad, fmt⟩ := flag
          rw [ok_bind, ok_bind]
          dsimp only
          cases scanWidth fmt with
          | error e => rfl
          | ok scanned =>
            obtain ⟨width, fmt⟩ := scanned
            rw [ok_bind, ok_bind]
            dsimp only
            rw [convert_eq]
            cases action fmt with
            | error e => rfl
            | ok done =>
              obtain ⟨a, fmt⟩ := done
              rw [Except.map, ok_bind, ok_bind]
              dsimp only
              rw [ih]
              cases rounds fuel (advance fmt) <;> rfl

inductive Length
  | none
  | l
  | ll
  deriving DecidableEq

def Length.chars : Length → List (BitVec 8)
  | .none => []
  | .l => [ascii 'l']
  | .ll => [ascii 'l', ascii 'l']

inductive Letter
  | c
  | s
  | d
  | i
  | u
  | x
  | X
  | p
  | percent
  deriving DecidableEq

def Letter.char : Letter → BitVec 8
  | .c => ascii 'c'
  | .s => ascii 's'
  | .d => ascii 'd'
  | .i => ascii 'i'
  | .u => ascii 'u'
  | .x => ascii 'x'
  | .X => ascii 'X'
  | .p => ascii 'p'
  | .percent => ascii '%'

structure Conversion where
  zero : Bool
  width : List (BitVec 8)
  digits : ∀ d ∈ width, isDigit d
  length : Length
  letter : Letter

namespace Conversion

variable (k : Conversion)

/-- The digits between the `%` and the length: the flag, if there is one, and the width. -/
def front : List (BitVec 8) := (if k.zero then [ascii '0'] else []) ++ k.width

def chars (rest : List (BitVec 8)) : List (BitVec 8) :=
  ascii '%' :: (k.front ++ (k.length.chars ++ k.letter.char :: rest))

/-- The argument that belongs to the conversion, to `ll` as to `l`; `%%` has none. -/
def type : Option VaType :=
  match k.letter with
  | .c => some (if k.length = .none then .int else .wint)
  | .s => some (if k.length = .none then .string else .wideString)
  | .d => some (if k.length = .none then .int else .long)
  | .i => some (if k.length = .none then .int else .long)
  | .u => some (if k.length = .none then .unsigned else .unsignedLong)
  | .x => some (if k.length = .none then .unsigned else .unsignedLong)
  | .X => some (if k.length = .none then .unsigned else .unsignedLong)
  | .p => some .pointer
  | .percent => none

def Known : Prop := k.length = .none ∨ k.length = .ll ∧ (k.letter = .x ∨ k.letter = .u)

end Conversion

inductive Item
  | literal (c : BitVec 8) (nonzero : c ≠ 0) (plain : c ≠ ascii '%')
  | conversion (k : Conversion)

def chars : List Item → List (BitVec 8)
  | [] => []
  | .literal c _ _ :: items => c :: chars items
  | .conversion k :: items => k.chars (chars items)

/-- A conversion as it is met in a format: what is left of the format from its letter on, and the
type of the argument. -/
abbrev Place := Cursor × Option VaType

def asked : List Item → List Place
  | [] => []
  | .literal _ _ _ :: items => asked items
  | .conversion k :: items => (some (k.letter.char :: chars items), k.type) :: asked items

def carried : List Round → List Place
  | [] => []
  | .literal _ :: rs => carried rs
  | .conversion _ _ a left :: rs => (left, a.takes) :: carried rs

/-- The rounds that `kvprintf` makes of a format, if it comes to its end. -/
def Runs (fmt : Cursor) (rs : List Round) : Prop :=
  ∃ enough, ∀ fuel > enough, rounds fuel fmt = .ok (rs, some [])

def InStep (items : List Item) : Prop := ∃ rs, Runs (some (chars items)) rs ∧ carried rs = asked items

def types (places : List Place) : List VaType := places.filterMap Prod.snd

def AllKnown (items : List Item) : Prop := ∀ k, .conversion k ∈ items → k.Known

def Plain (items : List Item) : Prop := ∀ k, .conversion k ∈ items → k.letter = .percent → k.length = .none

variable {k : Conversion} {items : List Item} {rs : List Round}

theorem Letter.char_spec (letter : Letter) : ¬isDigit letter.char ∧ letter.char ≠ 0 := by
  cases letter <;> exact ⟨by decide, by decide⟩

theorem Conversion.rest_spec (k : Conversion) (rest : List (BitVec 8)) :
    ∃ c cs, k.length.chars ++ k.letter.char :: rest = c :: cs ∧ ¬isDigit c := by
  cases k.length with
  | none => exact ⟨_, _, rfl, k.letter.char_spec.1⟩
  | l => exact ⟨_, _, rfl, by decide⟩
  | ll => exact ⟨_, _, rfl, by decide⟩

theorem Conversion.type_of_ne_percent (hk : k.letter ≠ .percent) : ∃ type, k.type = some type := by
  obtain ⟨zero, width, digits, length, letter⟩ := k
  cases letter with
  | percent => exact absurd rfl hk
  | _ => exact ⟨_, rfl⟩

theorem Conversion.front_digits (k : Conversion) : ∀ d ∈ k.front, isDigit d := by
  intro d hd
  obtain hzero | hwidth := List.mem_append.mp hd
  · split_ifs at hzero
    · exact List.mem_singleton.mp hzero ▸ rfl
    · exact absurd hzero List.not_mem_nil
  · exact k.digits d hwidth

theorem rounds_literal (hnonzero : c ≠ 0) (hplain : c ≠ ascii '%') (cs : List (BitVec 8)) (fuel : ℕ) :
    rounds (fuel + 1) (some (c :: cs)) = do
      let (rs, stop) ← rounds fuel (some cs)
      return (.literal c :: rs, stop) := by
  rw [rounds, deref_cons, ok_bind, if_neg hnonzero, if_pos hplain]
  rfl

theorem rounds_conversion (k : Conversion) (rest : List (BitVec 8)) :
    ∃ pad width, ∀ fuel, rounds (fuel + 1) (some (k.chars rest)) = do
      let (a, fmt) ← action (some (k.length.chars ++ k.letter.char :: rest))
      let (rs, stop) ← rounds fuel (advance fmt)
      return (.conversion pad width a fmt :: rs, stop) := by
  obtain ⟨c, cs, hrest, hc⟩ := k.rest_spec rest
  obtain ⟨pad, width, fmt, hflag, hwidth⟩ := scan_cursor (k.front ++ (c :: cs))
  rw [dropWhile_digits k.front_digits hc] at hwidth
  refine ⟨pad, width, ?_⟩
  intro fuel
  rw [Conversion.chars, hrest, rounds, deref_cons, ok_bind, if_neg (by decide), if_neg (not_not.mpr rfl)]
  dsimp only [advance]
  rw [hflag, ok_bind]
  dsimp only
  rw [hwidth, ok_bind]

theorem action_known (hk : k.Known) (rest : List (BitVec 8)) :
    ∃ a, action (some (k.length.chars ++ k.letter.char :: rest)) = .ok (a, some (k.letter.char :: rest)) ∧
      a.takes = k.type := by
  obtain ⟨zero, width, digits, length, letter⟩ := k
  obtain rfl | ⟨rfl, rfl | rfl⟩ := hk
  · cases letter <;> exact ⟨_, rfl, rfl⟩
  · exact ⟨_, rfl, rfl⟩
  · exact ⟨_, rfl, rfl⟩

theorem action_skipped (hk : ¬k.Known) (rest : List (BitVec 8)) :
    action (some (k.length.chars ++ k.letter.char :: rest)) =
      .ok (.skipped, some (ascii 'l' :: k.letter.char :: rest)) := by
  obtain ⟨zero, width, digits, length, letter⟩ := k
  cases length with
  | none => exact absurd (.inl rfl) hk
  | l => cases letter <;> rfl
  | ll =>
    cases letter with
    | x => exact absurd (.inr ⟨rfl, .inl rfl⟩) hk
    | u => exact absurd (.inr ⟨rfl, .inr rfl⟩) hk
    | _ => rfl

theorem Runs.step_iff {fmt fmt' : Cursor} {r : Round}
    (h : ∀ fuel, rounds (fuel + 1) fmt = do
      let (rs, stop) ← rounds fuel fmt'
      return (r :: rs, stop)) :
    Runs fmt rs ↔ ∃ rs', rs = r :: rs' ∧ Runs fmt' rs' := by
  constructor
  · rintro ⟨enough, hruns⟩
    have hstep (fuel : ℕ) (hfuel : fuel > enough) :
        rs = r :: rs.tail ∧ rounds fuel fmt' = .ok (rs.tail, some []) := by
      have hround := hruns (fuel + 1) (Nat.lt_succ_of_lt hfuel)
      rw [h] at hround
      cases hrest : rounds fuel fmt' with
      | error e =>
        rw [hrest] at hround
        cases hround
      | ok done =>
        obtain ⟨rs', stop⟩ := done
        rw [hrest] at hround
        cases hround
        exact ⟨rfl, rfl⟩
    refine ⟨rs.tail, (hstep _ (Nat.lt_succ_self enough)).1, enough, ?_⟩
    intro fuel hfuel
    exact (hstep fuel hfuel).2
  · rintro ⟨rs', rfl, enough, hruns⟩
    refine ⟨enough + 1, ?_⟩
    intro fuel hfuel
    obtain ⟨fuel, rfl⟩ := Nat.exists_eq_add_one.mpr (Nat.zero_lt_of_lt hfuel)
    rw [h, hruns fuel (Nat.lt_of_succ_lt_succ hfuel)]
    rfl

theorem runs_nil : Runs (some []) [] := by
  refine ⟨0, ?_⟩
  intro fuel hfuel
  obtain ⟨fuel, rfl⟩ := Nat.exists_eq_add_one.mpr hfuel
  rfl

theorem runs_literal_iff (hnonzero : c ≠ 0) (hplain : c ≠ ascii '%') (cs : List (BitVec 8)) :
    Runs (some (c :: cs)) rs ↔ ∃ rs', rs = .literal c :: rs' ∧ Runs (some cs) rs' :=
  Runs.step_iff (rounds_literal hnonzero hplain cs)

theorem runs_known_iff (hk : k.Known) (rest : List (BitVec 8)) :
    ∃ pad width a, a.takes = k.type ∧ ∀ rs, Runs (some (k.chars rest)) rs ↔
      ∃ rs', rs = .conversion pad width a (some (k.letter.char :: rest)) :: rs' ∧ Runs (some rest) rs' := by
  obtain ⟨pad, width, hround⟩ := rounds_conversion k rest
  obtain ⟨a, haction, htakes⟩ := action_known hk rest
  refine ⟨pad, width, a, htakes, ?_⟩
  intro rs
  apply Runs.step_iff
  intro fuel
  rw [hround, haction, ok_bind]
  rfl

theorem runs_skipped_iff (hk : ¬k.Known) (rest : List (BitVec 8)) :
    ∃ pad width, ∀ rs, Runs (some (k.chars rest)) rs ↔
      ∃ rs', rs = .conversion pad width .skipped (some (ascii 'l' :: k.letter.char :: rest)) :: rs' ∧
        Runs (some (k.letter.char :: rest)) rs' := by
  obtain ⟨pad, width, hround⟩ := rounds_conversion k rest
  refine ⟨pad, width, ?_⟩
  intro rs
  apply Runs.step_iff
  intro fuel
  rw [hround, action_skipped hk, ok_bind]
  rfl

theorem inStep_nil : InStep [] := ⟨[], runs_nil, rfl⟩

theorem inStep_literal_iff (hnonzero : c ≠ 0) (hplain : c ≠ ascii '%') :
    InStep (.literal c hnonzero hplain :: items) ↔ InStep items := by
  constructor
  · rintro ⟨rs, hruns, hcarried⟩
    obtain ⟨rs', rfl, hrest⟩ := (runs_literal_iff hnonzero hplain _).mp hruns
    exact ⟨rs', hrest, hcarried⟩
  · rintro ⟨rs', hrest, hcarried⟩
    exact ⟨_, (runs_literal_iff hnonzero hplain _).mpr ⟨rs', rfl, hrest⟩, hcarried⟩

theorem inStep_known_iff (hk : k.Known) : InStep (.conversion k :: items) ↔ InStep items := by
  obtain ⟨pad, width, a, htakes, hiff⟩ := runs_known_iff hk (chars items)
  constructor
  · rintro ⟨rs, hruns, hcarried⟩
    obtain ⟨rs', rfl, hrest⟩ := (hiff rs).mp hruns
    exact ⟨rs', hrest, (List.cons.inj hcarried).2⟩
  · rintro ⟨rs', hrest, hcarried⟩
    refine ⟨_, (hiff _).mpr ⟨rs', rfl, hrest⟩, ?_⟩
    rw [carried, asked, hcarried, htakes]

theorem not_inStep_skipped (hk : ¬k.Known) : ¬InStep (.conversion k :: items) := by
  rintro ⟨rs, hruns, hcarried⟩
  obtain ⟨pad, width, hiff⟩ := runs_skipped_iff hk (chars items)
  obtain ⟨rs', rfl, -⟩ := (hiff rs).mp hruns
  -- there is an `l` more left of the format than at the letter
  have hplace := congrArg (fun place => (place.1.getD []).length) (List.cons.inj hcarried).1
  simp at hplace

theorem allKnown_literal_iff (hnonzero : c ≠ 0) (hplain : c ≠ ascii '%') :
    AllKnown (.literal c hnonzero hplain :: items) ↔ AllKnown items := by
  simp [AllKnown]

theorem allKnown_conversion_iff : AllKnown (.conversion k :: items) ↔ k.Known ∧ AllKnown items := by
  simp [AllKnown, or_imp, forall_and]

theorem inStep_iff (items : List Item) : InStep items ↔ AllKnown items := by
  induction items with
  | nil => exact iff_of_true inStep_nil fun _ hk => absurd hk List.not_mem_nil
  | cons item items ih =>
    cases item with
    | literal c hnonzero hplain => rw [inStep_literal_iff, allKnown_literal_iff, ih]
    | conversion k =>
      rw [allKnown_conversion_iff]
      by_cases hk : k.Known
      · rw [inStep_known_iff hk, ih, and_iff_right hk]
      · exact iff_of_false (not_inStep_skipped hk) fun hall => hk hall.1

theorem types_cons (place : Cursor) (type : Option VaType) (places : List Place) :
    types ((place, type) :: places) = type.toList ++ types places := by
  cases type <;> rfl

theorem runs_plain (items : List Item) (hplain : Plain items) :
    ∃ rs, Runs (some (chars items)) rs ∧ (types (carried rs)).length ≤ (types (asked items)).length ∧
      (types (carried rs) = types (asked items) ↔ AllKnown items) := by
  induction items with
  | nil => exact ⟨[], runs_nil, le_rfl, iff_of_true rfl fun _ hk => absurd hk List.not_mem_nil⟩
  | cons item items ih =>
    obtain ⟨rs, hruns, hlength, htypes⟩ := ih fun k hk => hplain k (List.mem_cons_of_mem _ hk)
    cases item with
    | literal c hnonzero hliteral =>
      rw [allKnown_literal_iff]
      exact ⟨_, (runs_literal_iff hnonzero hliteral _).mpr ⟨rs, rfl, hruns⟩, hlength, htypes⟩
    | conversion k =>
      rw [allKnown_conversion_iff]
      by_cases hk : k.Known
      · obtain ⟨pad, width, a, htakes, hiff⟩ := runs_known_iff hk (chars items)
        refine ⟨_, (hiff _).mpr ⟨rs, rfl, hruns⟩, ?_, ?_⟩
        · rw [carried, asked, htakes, types_cons, types_cons, List.length_append, List.length_append]
          exact Nat.add_le_add_left hlength _
        · rw [carried, asked, htakes, types_cons, types_cons, List.append_cancel_left_eq, htypes,
            and_iff_right hk]
      · obtain ⟨pad, width, hiff⟩ := runs_skipped_iff hk (chars items)
        have hletter : k.letter ≠ .percent := fun hp => hk (.inl (hplain k List.mem_cons_self hp))
        have hchar : k.letter.char ≠ ascii '%' := by
          revert hletter
          cases k.letter <;> decide
        have hmore : (types (asked items)).length < (types (asked (.conversion k :: items))).length := by
          obtain ⟨type, htype⟩ := k.type_of_ne_percent hletter
          rw [asked, htype, types_cons, List.length_append]
          exact Nat.lt_add_of_pos_left Nat.one_pos
        -- the next round prints the letter as text
        have hrest := (runs_literal_iff k.letter.char_spec.2 hchar (chars items)).mpr ⟨rs, rfl, hruns⟩
        refine ⟨_, (hiff _).mpr ⟨_, rfl, hrest⟩, hlength.trans hmore.le, iff_of_false ?_ fun h => hk h.1⟩
        intro heq
        have hcount := congrArg List.length heq
        exact absurd (hcount ▸ hmore) (not_lt_of_ge hlength)

theorem chars_ne_zero (items : List Item) : ∀ c ∈ chars items, c ≠ 0 := by
  induction items with
  | nil => exact fun c hc => absurd hc List.not_mem_nil
  | cons item items ih =>
    cases item with
    | literal c hnonzero _ => exact List.forall_mem_cons.mpr ⟨hnonzero, ih⟩
    | conversion k =>
      have hfront : ∀ c ∈ k.front, c ≠ 0 := by
        rintro c hc rfl
        exact absurd (k.front_digits 0 hc) (by decide)
      have hlength : ∀ c ∈ k.length.chars, c ≠ 0 := by
        cases k.length <;> decide
      simp only [chars, Conversion.chars, List.forall_mem_cons, List.forall_mem_append]
      exact ⟨by decide, hfront, hlength, k.letter.char_spec.2, ih⟩

def format (items : List Item) : CString := ⟨chars items, chars_ne_zero items⟩

/-- A format and its arguments stay in step just if the lengths in it are those of `llx` and `llu`. -/
theorem arguments_in_step (items : List Item) :
    (∀ str args fuel, kvprintf str fuel (some (format items).chars) args =
      (rounds fuel (some (format items).chars)).map fun r => (printRounds str r.1 args, r.2)) ∧
    (InStep items ↔ AllKnown items) ∧
    (Plain items → ∃ rs, Runs (some (format items).chars) rs ∧
      (types (carried rs) = types (asked items) ↔ AllKnown items)) := by
  refine ⟨?_, inStep_iff items, ?_⟩
  · intro str args fuel
    exact kvprintf_eq str fuel _ args
  · intro hplain
    obtain ⟨rs, hruns, -, htypes⟩ := runs_plain items hplain
    exact ⟨rs, hruns, htypes⟩

def longThenString : List Item :=
  [.conversion ⟨false, [], by simp, .l, .d⟩, .literal (ascii ' ') (by decide) (by decide),
    .conversion ⟨false, [], by simp, .none, .s⟩]

theorem string_takes_number :
    (∀ str args fuel, kvprintf str (fuel + 5) (some (format longThenString).chars) args =
      .ok ([ascii 'd', ascii ' '] ++ stringAt str (args 0), some [])) ∧ ¬InStep longThenString := by
  constructor
  · intro str args fuel
    have hend : stringAt str (args 0) ++ [] = stringAt str (args 0) := List.append_nil _
    rw [← hend]
    rfl
  · apply not_inStep_skipped
    rintro (h | h)
    · exact absurd h (by decide)
    · exact absurd h.1 (by decide)

end Mcincos.Print
