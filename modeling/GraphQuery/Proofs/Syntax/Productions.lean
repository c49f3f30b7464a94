import GraphQuery.Proofs.Syntax.Completeness
import GraphQuery.Proofs.Syntax.Tracking

namespace GraphQuery.Parser

/-! Each parser of the grammar reads from left to right, and a higher nesting
limit changes nothing but what fails for the lower one. -/

def Comparison.Allows (comparison : Comparison) (less more : Nat) : Prop :=
  less = more ∨ comparison.higher ∧ less ≤ more

/-- Two parsers of what is inside of a level, if there is room for one. -/
inductive Comparison.TracksInside {α : Type} (comparison : Comparison) :
    Option (Parser α) → Option (Parser α) → Prop
  | none : TracksInside comparison none none
  | room (higher : comparison.higher) (second : Parser α) :
      TracksInside comparison none (some second)
  | some {first second : Parser α} (tracks : comparison.Tracks first second) :
      TracksInside comparison (some first) (some second)

namespace Comparison

variable {comparison : Comparison} {less more : Nat}

theorem Allows.refl (limit : Nat) : comparison.Allows limit limit := .inl rfl

theorem Allows.of_higher (higher : comparison.higher) (atMost : less ≤ more) :
    comparison.Allows less more := .inr ⟨higher, atMost⟩

theorem Allows.zero (allows : comparison.Allows 0 more) :
    more = 0 ∨ comparison.higher ∧ ∃ fewer, more = fewer + 1 := by
  rcases allows with rfl | ⟨higher, _⟩
  · exact .inl rfl
  · cases more with
    | zero => exact .inl rfl
    | succ fewer => exact .inr ⟨higher, fewer, rfl⟩

theorem Allows.succ (allows : comparison.Allows (less + 1) more) :
    ∃ fewer, more = fewer + 1 ∧ comparison.Allows less fewer := by
  rcases allows with rfl | ⟨higher, atMost⟩
  · exact ⟨less, rfl, .refl less⟩
  · obtain ⟨fewer, rfl⟩ := Nat.exists_eq_add_one.mpr (Nat.lt_of_lt_of_le (Nat.succ_pos less) atMost)
    exact ⟨fewer, rfl, .of_higher higher (Nat.le_of_succ_le_succ atMost)⟩

theorem TracksAt.current_bind {α : Type} {shared : Nat} {stream other : Stream}
    {next nextSecond : Token → Parser α}
    (tracks : comparison.TracksAt shared stream other (next stream.current)
      (nextSecond other.current)) :
    comparison.TracksAt shared stream other (Parser.current >>= next)
      (Parser.current >>= nextSecond) := by
  refine TracksAt.of_runs ?_ ?_ tracks <;> rfl

theorem AlikeUpTo.advance_bind {α : Type} {shared : Nat} {stream other : Stream}
    {next nextSecond : Unit → Parser α} (alike : comparison.AlikeUpTo shared stream other)
    (ended : stream.Ended) (endedOther : other.Ended) {kind : Token.Kind}
    (here : stream.current.kind = kind) (part : kind.IsPart)
    (more : comparison.Tracks (next ()) (nextSecond ())) :
    comparison.TracksAt shared stream other (Parser.advance >>= next)
      (Parser.advance >>= nextSecond) :=
  (alike.advance (here ▸ part)).and_then ended endedOther alike fun _ _ _ => more

end Comparison

theorem Chains.occupied {α : Type} {phrase : Phrase α} {here : Token → Bool}
    (chains : Chains phrase here) {tree : α} {words : List Lexeme}
    (written : phrase.Written tree words) : words ≠ [] := by
  rcases chains written with ⟨first, others, rfl, _, _⟩
  exact nofun

namespace Comparison

variable {comparison : Comparison} {less more : Nat}

/-! ## Literals -/

section Literals

variable {constant : Bool} {inner? innerSecond? : Option (Parser Literal)}
  {first second : Parser Literal}

theorem Tracks.objectField (tracks : comparison.Tracks first second) :
    comparison.Tracks (objectField first) (objectField second) := by
  apply tracks_name.bind
  intro key other sameKey
  apply (tracks_expect rfl).bind
  intro _ _ _
  apply tracks.bind
  intro value counterpart same
  exact tracks_pure fun placed => by rw [sameKey placed, same placed]

theorem TracksInside.literalWith (inside : comparison.TracksInside inner? innerSecond?)
    (sound : ∀ inner ∈ inner?, ∃ levels, Sound (.literal constant) levels inner)
    (also : ∀ inner ∈ innerSecond?, ∃ levels, Sound (.literal constant) levels inner) :
    comparison.Tracks (literalWith constant inner?) (literalWith constant innerSecond?) := by
  have consumes {inner : Parser Literal}
      (sound : ∃ levels, Sound (.literal constant) levels inner) : Consumes inner := by
    rcases sound with ⟨levels, sound⟩
    exact .of_sound sound fun _ _ => (chains_literal constant).occupied
  have consumesField {inner : Parser Literal}
      (sound : ∃ levels, Sound (.literal constant) levels inner) :
      Consumes (Parser.objectField inner) := by
    rcases sound with ⟨levels, sound⟩
    exact .of_sound (objectField_sound sound) fun _ _ => (chains_literalField constant).occupied
  intro shared stream other ended endedOther alike
  apply TracksAt.current_bind
  have kind := alike.kind
  simp only [kind, alike.text]
  cases here : stream.current.kind with
  | dollar =>
      cases constant with
      | true => exact tracks_expected _ ended endedOther alike
      | false =>
          apply alike.advance_bind ended endedOther here ⟨nofun, nofun⟩
          apply tracks_name.bind
          exact fun label other same => tracks_pure fun placed => by rw [same placed]
  | int =>
      dsimp only
      split
      · apply alike.advance_bind ended endedOther here ⟨nofun, nofun⟩
        exact tracks_pure fun _ => rfl
      · exact tracks_fail _ ended endedOther alike
  | float =>
      apply alike.advance_bind ended endedOther here ⟨nofun, nofun⟩
      exact tracks_pure fun _ => rfl
  | string =>
      dsimp only
      split
      · apply alike.advance_bind ended endedOther here ⟨nofun, nofun⟩
        exact tracks_pure fun _ => rfl
      · exact tracks_fail _ ended endedOther alike
  | blockString =>
      apply alike.advance_bind ended endedOther here ⟨nofun, nofun⟩
      exact tracks_pure fun _ => rfl
  | bracketOpen =>
      apply alike.advance_bind ended endedOther here ⟨nofun, nofun⟩
      cases inside with
      | none => exact tracks_fail _
      | room higher second => exact tracks_tooDeep higher _
      | some tracks =>
          apply (tracks.manyUntil (consumes (sound _ rfl)) (consumes (also _ rfl)) rfl).bind
          exact fun items others same => tracks_pure fun placed => by rw [same placed]
  | braceOpen =>
      apply alike.advance_bind ended endedOther here ⟨nofun, nofun⟩
      cases inside with
      | none => exact tracks_fail _
      | room higher second => exact tracks_tooDeep higher _
      | some tracks =>
          apply (tracks.objectField.manyUntil (consumesField (sound _ rfl))
            (consumesField (also _ rfl)) rfl).bind
          exact fun fields others same => tracks_pure fun placed => by rw [same placed]
  | name =>
      apply alike.advance_bind ended endedOther here ⟨nofun, nofun⟩
      exact tracks_pure fun _ => rfl
  | _ => exact tracks_expected _ ended endedOther alike

end Literals

theorem tracks_literal (constant : Bool) (allows : comparison.Allows less more) :
    comparison.Tracks (literal constant less) (literal constant more) := by
  induction less generalizing more with
  | zero =>
      rcases allows.zero with rfl | ⟨higher, fewer, rfl⟩
      · exact TracksInside.none.literalWith nofun nofun
      · apply (TracksInside.room higher _).literalWith nofun
        rintro _ ⟨⟩
        exact ⟨fewer, literal_sound constant fewer⟩
  | succ less induction =>
      rcases allows.succ with ⟨fewer, rfl, below⟩
      apply (TracksInside.some (induction below)).literalWith
      · rintro _ ⟨⟩
        exact ⟨less, literal_sound constant less⟩
      · rintro _ ⟨⟩
        exact ⟨fewer, literal_sound constant fewer⟩

/-! ## Types, arguments and directives -/

theorem TracksInside.nullableType {inner? innerSecond? : Option (Parser TypeNode)}
    (inside : comparison.TracksInside inner? innerSecond?) :
    comparison.Tracks (nullableType inner?) (nullableType innerSecond?) := by
  apply tracks_accept_bind rfl
  intro here
  cases here with
  | true =>
      cases inside with
      | none => exact tracks_fail _
      | room higher second => exact tracks_tooDeep higher _
      | some tracks =>
          apply tracks.bind
          intro item other same
          apply (tracks_expect rfl).bind
          exact fun _ _ _ => tracks_pure fun placed => by rw [same placed]
  | false =>
      apply tracks_name.bind
      exact fun base other same => tracks_pure fun placed => by rw [same placed]

theorem TracksInside.typeNodeWith {inner? innerSecond? : Option (Parser TypeNode)}
    (inside : comparison.TracksInside inner? innerSecond?) :
    comparison.Tracks (typeNodeWith inner?) (typeNodeWith innerSecond?) := by
  apply inside.nullableType.bind
  intro type other same
  apply tracks_accept_bind rfl
  intro here
  cases here with
  | true => exact tracks_pure fun placed => by rw [same placed]
  | false => exact tracks_pure same

theorem tracks_typeNode (allows : comparison.Allows less more) :
    comparison.Tracks (typeNode less) (typeNode more) := by
  induction less generalizing more with
  | zero =>
      rcases allows.zero with rfl | ⟨higher, fewer, rfl⟩
      · exact TracksInside.none.typeNodeWith
      · exact (TracksInside.room higher _).typeNodeWith
  | succ less induction =>
      rcases allows.succ with ⟨fewer, rfl, below⟩
      exact (TracksInside.some (induction below)).typeNodeWith

theorem tracks_spanFrom_bind {α : Type} {first other : Token} (alike : comparison.Alike first other)
    {build buildSecond : Span → α}
    (same : comparison.placed → build = buildSecond) :
    comparison.Tracks (spanFrom first >>= fun span => pure (build span))
      (spanFrom other >>= fun span => pure (buildSecond span)) := by
  apply (tracks_spanFrom alike.2.2).bind
  exact fun span counterpart sameSpan =>
    tracks_pure fun placed => by rw [same placed, sameSpan placed]

theorem tracks_argument (allows : comparison.Allows less more) :
    comparison.Tracks (argument less) (argument more) := by
  apply tracks_current_bind
  intro first other alike
  apply tracks_name.bind
  intro key keyOther sameKey
  apply (tracks_expect rfl).bind
  intro _ _ _
  apply (tracks_literal false allows).bind
  intro value valueOther sameValue
  apply tracks_spanFrom_bind alike
  exact fun placed => by rw [sameKey placed, sameValue placed, alike.2.2 placed]

theorem Tracks.parenthesized {α : Type} {first second : Parser α}
    (tracks : comparison.Tracks first second) (consumes : Consumes first)
    (also : Consumes second) :
    comparison.Tracks
      (accept .parenOpen >>= fun opened =>
        if opened = true then Parser.someUntil .parenClose first else pure [])
      (accept .parenOpen >>= fun opened =>
        if opened = true then Parser.someUntil .parenClose second else pure []) := by
  apply tracks_accept_bind rfl
  intro here
  cases here with
  | true => exact tracks.someUntil consumes also rfl
  | false => exact tracks_pure fun _ => rfl

theorem tracks_arguments (allows : comparison.Allows less more) :
    comparison.Tracks (arguments less) (arguments more) :=
  have consumes (levels : Nat) : Consumes (argument levels) :=
    .of_sound (argument_sound levels) fun _ _ => chains_argument.occupied
  Tracks.parenthesized (tracks_argument allows) (consumes less) (consumes more)

theorem tracks_directive (allows : comparison.Allows less more) :
    comparison.Tracks (directive less) (directive more) := by
  apply tracks_current_bind
  intro first other alike
  apply (tracks_expect rfl).bind
  intro _ _ _
  apply tracks_name.bind
  intro label labelOther sameLabel
  apply (tracks_arguments allows).bind
  intro values valuesOther sameValues
  apply tracks_spanFrom_bind alike
  exact fun placed => by rw [sameLabel placed, sameValues placed, alike.2.2 placed]

theorem tracks_directives (allows : comparison.Allows less more) :
    comparison.Tracks (directives less) (directives more) :=
  have consumes (levels : Nat) : Consumes (directive levels) :=
    .of_sound (directive_sound levels) fun _ _ => chains_directive.occupied
  Tracks.many (tracks_directive allows) (consumes less) (consumes more)
    fun token other same => by rw [same]

/-! ## Selections -/

theorem tracks_fieldNames : comparison.Tracks fieldNames fieldNames := by
  apply tracks_name.bind
  intro first other same
  apply tracks_accept_bind rfl
  intro here
  cases here with
  | true =>
      apply tracks_name.bind
      exact fun second secondOther sameSecond =>
        tracks_pure fun placed => by rw [same placed, sameSecond placed]
  | false => exact tracks_pure fun placed => by rw [same placed]

section Selections

variable {set setSecond : Parser SelectionSet}

theorem Tracks.fieldSelection (tracks : comparison.Tracks set setSecond)
    (allows : comparison.Allows less more) :
    comparison.Tracks (fieldSelection less set) (fieldSelection more setSecond) := by
  apply tracks_current_bind
  intro first other alike
  apply tracks_fieldNames.bind
  intro names namesOther sameNames
  apply (tracks_arguments allows).bind
  intro values valuesOther sameValues
  apply (tracks_directives allows).bind
  intro marks marksOther sameMarks
  apply (tracks.ifAt .braceOpen).bind
  intro inner? innerOther? sameInner
  cases inner? with
  | none =>
      cases innerOther? with
      | none =>
          apply tracks_spanFrom_bind alike
          intro placed
          rw [sameNames placed, sameValues placed, sameMarks placed, alike.2.2 placed]
      | some =>
          apply tracks_spanFrom_bind alike
          exact fun placed => nomatch sameInner placed
  | some inner =>
      cases innerOther? with
      | none =>
          apply tracks_spanFrom_bind alike
          exact fun placed => nomatch sameInner placed
      | some =>
          apply tracks_spanFrom_bind alike
          intro placed
          rw [sameNames placed, sameValues placed, sameMarks placed, alike.2.2 placed,
            Option.some.inj (sameInner placed)]

theorem Tracks.inlineFragment (tracks : comparison.Tracks set setSecond)
    (allows : comparison.Allows less more) {first other : Token}
    (alike : comparison.Alike first other) {condition conditionOther : Option Name}
    (same : comparison.placed → condition = conditionOther) :
    comparison.Tracks (inlineFragment less set first condition)
      (inlineFragment more setSecond other conditionOther) := by
  apply (tracks_directives allows).bind
  intro marks marksOther sameMarks
  apply tracks.bind
  intro inner innerOther sameInner
  apply tracks_spanFrom_bind alike
  intro placed
  rw [same placed, sameMarks placed, sameInner placed, alike.2.2 placed]

theorem tracks_keyword_bind (word : String) {α : Type} {after afterSecond : Unit → Parser α}
    {otherwise otherwiseSecond : Parser α} (taken : comparison.Tracks (after ()) (afterSecond ()))
    (left : comparison.Tracks otherwise otherwiseSecond) :
    comparison.Tracks
      (isAtKeyword word >>= fun here => if here = true then advance >>= after else otherwise)
      (isAtKeyword word >>= fun here =>
        if here = true then advance >>= afterSecond else otherwiseSecond) := by
  intro shared stream other ended endedOther alike
  have look (after : Unit → Parser α) (otherwise : Parser α) (stream : Stream) :
      (isAtKeyword word >>= fun here =>
        if here = true then advance >>= after else otherwise).run stream =
      (if (stream.current.kind == .name && stream.current.text == word) = true then
        advance >>= after else otherwise).run stream := rfl
  apply TracksAt.of_runs (look after otherwise stream) (look afterSecond otherwiseSecond other)
  rw [alike.kind, alike.text]
  split
  next here =>
    rw [Bool.and_eq_true, beq_iff_eq] at here
    exact alike.advance_bind ended endedOther here.1 Token.Kind.isPart_name taken
  · exact left ended endedOther alike

theorem Tracks.fragmentSelection (tracks : comparison.Tracks set setSecond)
    (allows : comparison.Allows less more) {first other : Token}
    (alike : comparison.Alike first other) :
    comparison.Tracks (fragmentSelection less set first)
      (fragmentSelection more setSecond other) := by
  apply tracks_keyword_bind
  · apply tracks_name.bind
    intro condition conditionOther same
    exact tracks.inlineFragment allows alike fun placed => by rw [same placed]
  apply tracks_isAt_bind
  intro atBrace
  apply tracks_isAt_bind
  intro atSign
  cases atBrace || atSign with
  | true => exact tracks.inlineFragment allows alike fun _ => rfl
  | false =>
      apply tracks_name.bind
      intro label labelOther same
      apply (tracks_directives allows).bind
      intro marks marksOther sameMarks
      apply tracks_spanFrom_bind alike
      exact fun placed => by rw [same placed, sameMarks placed, alike.2.2 placed]

theorem Tracks.selection (tracks : comparison.Tracks set setSecond)
    (allows : comparison.Allows less more) :
    comparison.Tracks (selection less set) (selection more setSecond) := by
  apply tracks_current_bind
  intro first other alike
  apply tracks_accept_bind rfl
  intro here
  cases here with
  | true => exact tracks.fragmentSelection allows alike
  | false => exact tracks.fieldSelection allows

end Selections

theorem tracks_selectionSet (allows : comparison.Allows less more) :
    comparison.Tracks (selectionSet less) (selectionSet more) := by
  have consumes (levels : Nat) : Consumes (selection levels (selectionSet levels)) :=
    .of_sound (selection_sound (selectionSet_sound levels)) fun _ _ => chains_selection.occupied
  induction less generalizing more with
  | zero =>
      rcases allows.zero with rfl | ⟨higher, fewer, rfl⟩
      · apply (tracks_expect rfl).bind
        exact fun _ _ _ => tracks_fail _
      · have deep : selectionSet 0 =
            (current >>= fun _ => expect .braceOpen >>= fun _ => fail .tooDeep) := rfl
        rw [deep]
        apply tracks_current_bind
        intro first other alike
        apply (tracks_expect rfl).bind
        exact fun _ _ _ => tracks_tooDeep higher _
  | succ less induction =>
      rcases allows.succ with ⟨fewer, rfl, below⟩
      apply tracks_current_bind
      intro first other alike
      apply (tracks_expect rfl).bind
      intro _ _ _
      apply (((induction below).selection below).someUntil (consumes less) (consumes fewer)
        rfl).bind
      intro selections selectionsOther same
      apply tracks_spanFrom_bind alike
      exact fun placed => by rw [same placed]

/-! ## Definitions -/

theorem tracks_variableDefinition (allows : comparison.Allows less more) :
    comparison.Tracks (variableDefinition less) (variableDefinition more) := by
  apply tracks_current_bind
  intro first other alike
  apply (tracks_expect rfl).bind
  intro _ _ _
  apply tracks_name.bind
  intro label labelOther sameLabel
  apply (tracks_expect rfl).bind
  intro _ _ _
  apply (tracks_typeNode allows).bind
  intro type typeOther sameType
  apply (Tracks.ifAfter (tracks_literal true allows) rfl).bind
  intro default defaultOther sameDefault
  apply tracks_spanFrom_bind alike
  intro placed
  rw [sameLabel placed, sameType placed, sameDefault placed, alike.2.2 placed]

theorem tracks_variableDefinitions (allows : comparison.Allows less more) :
    comparison.Tracks (variableDefinitions less) (variableDefinitions more) :=
  have consumes (levels : Nat) : Consumes (variableDefinition levels) :=
    .of_sound (variableDefinition_sound levels) fun _ _ => chains_variableDefinition.occupied
  Tracks.parenthesized (tracks_variableDefinition allows) (consumes less) (consumes more)

theorem tracks_shorthandQuery (allows : comparison.Allows less more) :
    comparison.Tracks (shorthandQuery less) (shorthandQuery more) := by
  apply tracks_current_bind
  intro first other alike
  apply (tracks_selectionSet allows).bind
  intro set setOther same
  apply tracks_spanFrom_bind alike
  exact fun placed => by rw [same placed, alike.2.2 placed]

theorem AlikeUpTo.operation {shared : Nat} {stream other : Stream}
    (alike : comparison.AlikeUpTo shared stream other) (ended : stream.Ended)
    (endedOther : other.Ended) (atName : stream.current.kind = .name)
    (allows : comparison.Allows less more) (kind : OperationKind) :
    comparison.TracksAt shared stream other (operation less kind) (operation more kind) := by
  apply TracksAt.current_bind
  apply alike.advance_bind ended endedOther atName Token.Kind.isPart_name
  apply (tracks_name.ifAt .name).bind
  intro label labelOther sameLabel
  apply (tracks_variableDefinitions allows).bind
  intro declared declaredOther sameDeclared
  apply (tracks_directives allows).bind
  intro marks marksOther sameMarks
  apply (tracks_selectionSet allows).bind
  intro set setOther same
  apply tracks_spanFrom_bind alike.current
  intro placed
  rw [sameLabel placed, sameDeclared placed, sameMarks placed, same placed,
    alike.current.2.2 placed]

theorem tracks_fragment (allows : comparison.Allows less more) :
    comparison.Tracks (fragment less) (fragment more) := by
  apply tracks_current_bind
  intro first other alike
  apply (tracks_expectKeyword _).bind
  intro _ _ _
  apply tracks_isAtKeyword_bind
  intro here
  cases here with
  | true => exact tracks_expected _
  | false =>
      apply tracks_name.bind
      intro label labelOther sameLabel
      apply (tracks_expectKeyword _).bind
      intro _ _ _
      apply tracks_name.bind
      intro condition conditionOther sameCondition
      apply (tracks_directives allows).bind
      intro marks marksOther sameMarks
      apply (tracks_selectionSet allows).bind
      intro set setOther same
      apply tracks_spanFrom_bind alike
      intro placed
      rw [sameLabel placed, sameCondition placed, sameMarks placed, same placed,
        alike.2.2 placed]

theorem tracks_definition (allows : comparison.Allows less more) :
    comparison.Tracks (definition less) (definition more) := by
  intro shared stream other ended endedOther alike
  apply TracksAt.current_bind
  have kind := alike.kind
  simp only [kind, alike.text]
  cases here : stream.current.kind with
  | braceOpen => exact (tracks_shorthandQuery allows).map _ ended endedOther alike
  | name =>
      dsimp only
      split
      · exact (alike.operation ended endedOther here allows _).map _
      · split
        · exact (tracks_fragment allows).map _ ended endedOther alike
        · exact tracks_expected _ ended endedOther alike
  | _ => exact tracks_expected _ ended endedOther alike

end Comparison

end GraphQuery.Parser
