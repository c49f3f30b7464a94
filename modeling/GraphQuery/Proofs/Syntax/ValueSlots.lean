import GraphQuery.Proofs.Syntax.Positions
import GraphQuery.Proofs.Syntax.Respelling

namespace GraphQuery

/-! Where a document holds values: after the names of arguments, and as the defaults of
variables. Each of these values has tokens of its own among those of the text, and other words
can be put in their place. -/

/-! ## Pieces in a row -/

theorem Fills.split {parts others : List Part} {tokens : List Token} {next : Token}
    (whole : Fills (parts ++ others) tokens next) : ∃ first second, tokens = first ++ second ∧
      Fills parts first (second.headD next) ∧ Fills others second next := by
  induction parts generalizing tokens with
  | nil => exact ⟨[], tokens, rfl, .nil, whole⟩
  | cons part parts induction =>
      cases whole with
      | word more =>
          rcases induction more with ⟨first, second, rfl, front, back⟩
          exact ⟨_ :: first, second, rfl, .word front, back⟩
      | written more =>
          rcases induction more with ⟨first, second, rfl, front, back⟩
          exact ⟨_ :: first, second, rfl, .written front, back⟩
      | omitted lexeme more =>
          rcases induction more with ⟨first, second, rfl, front, back⟩
          exact ⟨first, second, rfl, .omitted lexeme front, back⟩
      | atom written more =>
          rcases induction more with ⟨first, second, rfl, front, back⟩
          exact ⟨_ :: first, second, rfl, .atom written front, back⟩
      | name isName more =>
          rcases induction more with ⟨first, second, rfl, front, back⟩
          exact ⟨_ :: first, second, rfl, .name isName front, back⟩
      | @node begin _ _ _ _ inner _ here inside more =>
          rcases induction more with ⟨first, second, rfl, front, back⟩
          rw [headD_append] at inside ⊢
          exact ⟨begin :: inner ++ first, second, (List.append_assoc _ _ _).symm,
            .node here inside front, back⟩

namespace Part

/-- These pieces stand in a row among the others, or among those of a node at any depth. -/
inductive Contains (row : List Part) : List Part → Prop
  | here (before after : List Part) : Contains row (before ++ (row ++ after))
  | inside (before after : List Part) (span : Span) (location : Option Location)
      {parts : List Part} (within : Contains row parts) :
      Contains row (before ++ .node span location parts :: after)

namespace Contains

variable {row parts : List Part}

theorem append (contains : Contains row parts) (before after : List Part) :
    Contains row (before ++ (parts ++ after)) := by
  cases contains with
  | here front back =>
      have whole := @here row (before ++ front) (back ++ after)
      simpa using whole
  | inside front back span location within =>
      have whole := inside (before ++ front) (back ++ after) span location within
      simpa using whole

theorem tokens (contains : Contains row parts) {tokens : List Token} {next : Token}
    (fills : Fills parts tokens next) :
    ∃ before inner after, tokens = before ++ (inner ++ after) ∧
      Fills row inner (after.headD next) ∧
      ∀ words, Written row words →
        Written parts (before.map Token.lexeme ++ (words ++ after.map Token.lexeme)) := by
  induction contains generalizing tokens next with
  | here front back =>
      rcases fills.split with ⟨before, rest, rfl, fillsFront, fillsRest⟩
      rcases fillsRest.split with ⟨inner, after, rfl, fillsRow, fillsBack⟩
      refine ⟨before, inner, after, rfl, fillsRow, fun words written => ?_⟩
      exact fillsFront.lexemes_written.append (written.append fillsBack.lexemes_written)
  | inside front back span location within induction =>
      rcases fills.split with ⟨before, rest, rfl, fillsFront, fillsRest⟩
      cases fillsRest with
      | @node begin _ _ _ _ others tokens here inside more =>
          rcases induction inside with ⟨earlier, inner, later, same, fillsRow, exchange⟩
          refine ⟨before ++ earlier, inner, later ++ tokens, by rw [same]; simp, ?_, ?_⟩
          · rwa [Fills.headD_append]
          · intro words written
            have node := Written.node ⟨begin.span.start, (tokens.headD next).span.stop⟩ location
              (exchange words written) more.lexemes_written
            have rebuilt := fillsFront.lexemes_written.append node
            simpa using rebuilt

end Contains

def isSingle : Part → Bool
  | .word _ | .atom _ | .name _ => true
  | .omittable _ | .node .. => false

end Part

theorem Fills.length_eq {parts : List Part} {tokens : List Token} {next : Token}
    (fills : Fills parts tokens next) (single : ∀ part ∈ parts, part.isSingle = true) :
    tokens.length = parts.length := by
  induction fills with
  | nil => rfl
  | word _ induction | atom _ _ induction | name _ _ induction =>
      rw [List.forall_mem_cons] at single
      rw [List.length_cons, List.length_cons, induction single.2]
  | written | omitted | node => cases single _ List.mem_cons_self

namespace Part

theorem single_enclosed {opening closing : Token.Kind} {parts : List Part}
    (single : ∀ part ∈ parts, part.isSingle = true) :
    ∀ part ∈ enclosed opening closing parts, part.isSingle = true := by
  rw [enclosed, List.forall_mem_cons, List.forall_mem_append, List.forall_mem_singleton]
  exact ⟨rfl, single, rfl⟩

end Part

mutual
theorem Literal.single_parts : ∀ literal : Literal,
    ∀ part ∈ literal.parts, part.isSingle = true
  | .reference _ => List.forall_mem_cons.mpr ⟨rfl, List.forall_mem_singleton.mpr rfl⟩
  | .int _ | .float _ | .string _ | .boolean _ | .null | .symbol _ =>
      List.forall_mem_singleton.mpr rfl
  | .list items => Part.single_enclosed (single_partsOfItems items)
  | .object fields => Part.single_enclosed (single_partsOfFields fields)

theorem Literal.single_partsOfItems : ∀ items : List Literal,
    ∀ part ∈ partsOfItems items, part.isSingle = true
  | [] => nofun
  | item :: rest => List.forall_mem_append.mpr ⟨single_parts item, single_partsOfItems rest⟩

theorem Literal.single_partsOfFields : ∀ fields : List (Name × Literal),
    ∀ part ∈ partsOfFields fields, part.isSingle = true
  | [] => nofun
  | (_, value) :: rest => List.forall_mem_cons.mpr ⟨rfl, List.forall_mem_cons.mpr ⟨rfl,
      List.forall_mem_append.mpr ⟨single_parts value, single_partsOfFields rest⟩⟩⟩
end

theorem TypeNode.single_parts (type : TypeNode) : ∀ part ∈ type.parts, part.isSingle = true := by
  induction type with
  | named name => exact List.forall_mem_singleton.mpr rfl
  | list item induction => exact Part.single_enclosed induction
  | nonNull inner induction =>
      exact List.forall_mem_append.mpr ⟨induction, List.forall_mem_singleton.mpr rfl⟩

/-! ## Slots -/

/-- A place of a document that holds a value: after a name, and a sign that comes right after
that name or some pieces later. -/
structure ValueSlot where
  name : Name
  between : List Part
  sign : Token.Kind
  value : Literal
  single : ∀ part ∈ between, part.isSingle = true
  isSign : sign.isPunctuator = true

namespace ValueSlot

def signs (slot : ValueSlot) : List Part := slot.between ++ [.mark slot.sign]

theorem single_signs (slot : ValueSlot) : ∀ part ∈ slot.signs, part.isSingle = true :=
  List.forall_mem_append.mpr ⟨slot.single, List.forall_mem_singleton.mpr rfl⟩

end ValueSlot

def Argument.slot (argument : Argument) : ValueSlot :=
  ⟨argument.name, [], .colon, argument.value, nofun, rfl⟩

def Directive.slots (directive : Directive) : List ValueSlot :=
  directive.arguments.map Argument.slot

def FieldHead.slots (head : FieldHead) : List ValueSlot :=
  head.arguments.map Argument.slot ++ head.directives.flatMap Directive.slots

namespace Selection

mutual
def slots : Selection → List ValueSlot
  | .leaf head => head.slots
  | .branch head selections _ => head.slots ++ slotsAmong selections
  | .spread node => node.directives.flatMap Directive.slots
  | .inline head selections _ => head.directives.flatMap Directive.slots ++ slotsAmong selections

def slotsAmong : List Selection → List ValueSlot
  | [] => []
  | selection :: rest => slots selection ++ slotsAmong rest
end

end Selection

namespace VariableDefinition

def slot (definition : VariableDefinition) (value : Literal) : ValueSlot :=
  ⟨definition.name, .mark .colon :: definition.type.parts, .equals, value,
    List.forall_mem_cons.mpr ⟨rfl, definition.type.single_parts⟩, rfl⟩

def slots (definition : VariableDefinition) : List ValueSlot :=
  definition.default.toList.map definition.slot

end VariableDefinition

def OperationDefinition.slots (definition : OperationDefinition) : List ValueSlot :=
  definition.variableDefinitions.flatMap VariableDefinition.slots ++
    (definition.directives.flatMap Directive.slots ++
      Selection.slotsAmong definition.selectionSet.selections)

def FragmentDefinition.slots (definition : FragmentDefinition) : List ValueSlot :=
  definition.directives.flatMap Directive.slots ++
    Selection.slotsAmong definition.selectionSet.selections

def Definition.slots : Definition → List ValueSlot
  | .operation definition => definition.slots
  | .fragment definition => definition.slots

/-- The values of all arguments of fields and of directives, and the defaults of all variables. -/
def Document.slots (document : Document) : List ValueSlot :=
  document.definitions.flatMap Definition.slots

/-! ## Where the slots are -/

inductive Part.Follows : Part → Prop
  | close : Follows (.mark .parenClose)
  | argument (argument : Argument) : Follows argument.part
  | definition (definition : VariableDefinition) : Follows definition.part

def ValueSlot.Within (slot : ValueSlot) (parts : List Part) : Prop :=
  ∃ span location opening follower, follower.Follows ∧ Part.Contains
    [.node span location (opening ++ .name slot.name :: (slot.signs ++ slot.value.parts)),
      follower] parts

namespace ValueSlot.Within

variable {slot : ValueSlot} {parts : List Part}

theorem append (within : slot.Within parts) (before after : List Part) :
    slot.Within (before ++ (parts ++ after)) := by
  rcases within with ⟨span, location, opening, follower, follows, contains⟩
  exact ⟨span, location, opening, follower, follows, contains.append before after⟩

theorem prepend (within : slot.Within parts) (before : List Part) :
    slot.Within (before ++ parts) := by
  have whole := within.append before []
  rwa [List.append_nil] at whole

theorem extend (within : slot.Within parts) (after : List Part) : slot.Within (parts ++ after) :=
  within.append [] after

theorem node (within : slot.Within parts) (span : Span) (location : Option Location) :
    slot.Within [.node span location parts] := by
  rcases within with ⟨_, _, opening, follower, follows, contains⟩
  exact ⟨_, _, opening, follower, follows, .inside [] [] span location contains⟩

theorem braced (within : slot.Within parts) (braces : Span) :
    slot.Within [.braced braces parts] :=
  (within.append [_] [_]).node braces none

theorem map {α : Type} {part : α → Part} {items : List α} {item : α} (member : item ∈ items)
    (within : slot.Within [part item]) : slot.Within (items.map part) := by
  rcases List.mem_iff_append.mp member with ⟨before, after, rfl⟩
  have whole := within.append (before.map part) (after.map part)
  simpa using whole

theorem parenthesized {α : Type} {part : α → Part} {items : List α} {item : α}
    (member : item ∈ items) (follows : ∀ item, (part item).Follows) {span : Span}
    {location : Option Location} {opening : List Part} (isPart : part item =
      .node span location (opening ++ .name slot.name :: (slot.signs ++ slot.value.parts))) :
    slot.Within (Part.parenthesized (items.map part)) := by
  rcases List.mem_iff_append.mp member with ⟨before, after, rfl⟩
  have enclosed : Part.parenthesized ((before ++ item :: after).map part) =
      (.mark .parenOpen :: before.map part) ++
        (part item :: (after.map part ++ [.mark .parenClose])) := by
    cases before <;> simp [Part.parenthesized, Part.enclosed]
  rw [enclosed, isPart]
  cases after with
  | nil => exact ⟨_, _, opening, _, .close, .here _ []⟩
  | cons next after => exact ⟨_, _, opening, _, follows next, .here _ _⟩

end ValueSlot.Within

section Occurrences

variable {slot : ValueSlot}

theorem Argument.within {arguments : List Argument} (member : slot ∈ arguments.map Argument.slot) :
    slot.Within (Part.parenthesized (arguments.map Argument.part)) := by
  rcases List.mem_map.mp member with ⟨argument, among, rfl⟩
  have isPart : argument.part = .node argument.span (some argument.location)
    ([] ++ .name argument.slot.name :: (argument.slot.signs ++ argument.slot.value.parts)) := rfl
  exact .parenthesized among .argument isPart

theorem Directive.within {directives : List Directive}
    (member : slot ∈ directives.flatMap Directive.slots) :
    slot.Within (directives.map Directive.part) := by
  rcases List.mem_flatMap.mp member with ⟨directive, member, among⟩
  have values := (Argument.within among).prepend [.mark .atSign, .name directive.name]
  exact .map member (values.node directive.span (some directive.location))

theorem FieldHead.within {head : FieldHead} (member : slot ∈ head.slots) :
    slot.Within head.parts := by
  rcases List.mem_append.mp member with member | member
  · exact (Argument.within member).append _ _
  · exact ((Directive.within member).prepend _).prepend _

mutual
theorem Selection.within : ∀ selection : Selection, slot ∈ selection.slots →
    slot.Within [selection.part]
  | .leaf head, member => (FieldHead.within member).node head.span (some head.location)
  | .branch head selections braces, member => by
      rcases List.mem_append.mp member with member | member
      · exact ((FieldHead.within member).extend _).node head.span (some head.location)
      · have set := (withinAmong selections member).braced braces
        exact (set.prepend head.parts).node head.span (some head.location)
  | .spread node, member =>
      ((Directive.within member).prepend [_, _]).node node.span (some node.location)
  | .inline head selections braces, member => by
      rcases List.mem_append.mp member with member | member
      · refine .node (.extend ?_ _) head.span (some head.location)
        exact ((Directive.within member).prepend _).prepend [_]
      · have set := (withinAmong selections member).braced braces
        exact (set.prepend head.parts).node head.span (some head.location)

theorem Selection.withinAmong : ∀ selections : List Selection, slot ∈ slotsAmong selections →
    slot.Within (partsAmong selections)
  | [], member => nomatch member
  | selection :: rest, member => by
      rcases List.mem_append.mp member with member | member
      · exact (Selection.within selection member).extend _
      · exact (withinAmong rest member).prepend [_]
end

theorem SelectionSet.within {set : SelectionSet}
    (member : slot ∈ Selection.slotsAmong set.selections) : slot.Within [set.part] := by
  have among := Selection.withinAmong set.selections member
  rw [Selection.partsAmong_eq] at among
  exact among.braced set.span

theorem VariableDefinition.within {definitions : List VariableDefinition}
    (member : slot ∈ definitions.flatMap VariableDefinition.slots) :
    slot.Within (Part.parenthesized (definitions.map VariableDefinition.part)) := by
  rcases List.mem_flatMap.mp member with ⟨definition, among, given⟩
  rcases List.mem_map.mp given with ⟨value, found, rfl⟩
  have isPart : definition.part = .node definition.span (some definition.location)
      ([.mark .dollar] ++ .name definition.name ::
        ((definition.slot value).signs ++ value.parts)) := by
    rw [part, Option.mem_toList.mp found]
    simp [defaultParts, slot, ValueSlot.signs]
  exact .parenthesized among .definition isPart

theorem OperationDefinition.within {definition : OperationDefinition}
    (member : slot ∈ definition.slots) : slot.Within [definition.part] := by
  refine .node (.prepend ?_ [_]) definition.span (some definition.location)
  refine .prepend ?_ _
  rcases List.mem_append.mp member with member | member
  · exact (VariableDefinition.within member).extend _
  rcases List.mem_append.mp member with member | member
  · exact (Directive.within member).append _ _
  · exact ((SelectionSet.within member).prepend _).prepend _

theorem FragmentDefinition.within {definition : FragmentDefinition}
    (member : slot ∈ definition.slots) : slot.Within [definition.part] := by
  refine .node (.prepend ?_ [_, _, _, _]) definition.span (some definition.location)
  rcases List.mem_append.mp member with member | member
  · exact (Directive.within member).extend _
  · exact (SelectionSet.within member).prepend _

theorem Definition.within {definition : Definition} (member : slot ∈ definition.slots) :
    slot.Within [definition.part] := by
  cases definition with
  | operation definition => exact OperationDefinition.within member
  | fragment definition => exact FragmentDefinition.within member

theorem Document.within {document : Document} (member : slot ∈ document.slots) :
    slot.Within [document.part] := by
  rcases List.mem_flatMap.mp member with ⟨definition, among, inside⟩
  exact (ValueSlot.Within.map among (Definition.within inside)).node document.span none

end Occurrences

/-! ## The tokens of a value -/

def Name.token (name : Name) : Token := ⟨.name, name.text, name.span, name.location⟩

theorem Fills.name_cons {label : Name} {parts : List Part} {tokens : List Token} {next : Token}
    (fills : Fills (.name label :: parts) tokens next) :
    ∃ rest, tokens = label.token :: rest ∧ Fills parts rest next := by
  cases fills with
  | @name token _ _ rest isName more =>
      refine ⟨rest, ?_, more⟩
      rw [Name.token, ← isName]

theorem Fills.mark_cons {kind : Token.Kind} (isPunctuator : kind.isPunctuator = true)
    {parts : List Part} {tokens : List Token} {next : Token}
    (fills : Fills (.mark kind :: parts) tokens next) :
    ∃ mark rest, tokens = mark :: rest ∧ mark.kind = kind ∧ Fills parts rest next := by
  rw [Part.mark] at fills
  generalize same : Lexeme.mark kind = lexeme at fills
  cases fills with
  | @word token _ _ rest more =>
      exact ⟨token, rest, rfl, (Token.lexeme_eq_mark isPunctuator).mp same.symm, more⟩

theorem Fills.node_cons {span : Span} {location : Option Location} {parts others : List Part}
    {tokens : List Token} {next : Token}
    (fills : Fills (.node span location parts :: others) tokens next) :
    ∃ first inner rest, tokens = first :: (inner ++ rest) ∧
      Fills parts (first :: inner) (rest.headD next) ∧ Fills others rest next := by
  generalize same : Part.node span location parts = part at fills
  cases fills with
  | node here inside more =>
      cases same
      exact ⟨_, _, _, rfl, inside, more⟩
  | _ => cases same

theorem Part.Follows.exists_token {part : Part} (follows : part.Follows) {tokens : List Token}
    {next : Token} (fills : Fills [part] tokens next) :
    ∃ token rest, tokens = token :: rest ∧ token.kind ∈ [.parenClose, .name, .dollar] := by
  cases follows with
  | close =>
      rcases fills.mark_cons rfl with ⟨mark, rest, rfl, kind, _⟩
      exact ⟨mark, rest, rfl, by simp [kind]⟩
  | argument argument =>
      rcases fills.node_cons with ⟨first, inner, rest, rfl, inside, _⟩
      rcases inside.name_cons with ⟨others, same, _⟩
      obtain ⟨rfl, _⟩ := List.cons.inj same
      exact ⟨_, _, rfl, by simp [Name.token]⟩
  | definition definition =>
      rcases fills.node_cons with ⟨first, inner, rest, rfl, inside, _⟩
      rcases inside.mark_cons rfl with ⟨mark, others, same, kind, _⟩
      obtain ⟨rfl, _⟩ := List.cons.inj same
      exact ⟨_, _, rfl, by simp [kind]⟩

namespace ValueSlot

variable {slot : ValueSlot} {tokens words others : List Token}

/-- The value has these words among the tokens of a text. They come after the token of the name,
and those of the pieces in between. -/
def Takes (slot : ValueSlot) (tokens words : List Token) : Prop :=
  ∃ before signs next after,
    tokens = before ++ slot.name.token :: (signs ++ (words ++ next :: after)) ∧
      Fills slot.signs signs (words.headD next) ∧ Fills slot.value.parts words next

/-- There is only one token that stands where the name does. -/
theorem Takes.unique (takes : slot.Takes tokens words) (also : slot.Takes tokens others)
    (distinct : tokens.Nodup) : words = others := by
  rcases takes with ⟨before, signs, next, after, rfl, fillsSigns, fillsValue⟩
  rcases also with ⟨earlier, marks, follower, later, same, alsoSigns, alsoValue⟩
  have absent := (List.nodup_cons.mp (List.nodup_middle.mp distinct)).1
  rw [List.mem_append, not_or] at absent
  obtain ⟨_, _, rest⟩ := (List.append_cons_inj_of_notMem absent.1 absent.2).mp same
  have lengthSigns := fillsSigns.length_eq slot.single_signs
  have lengthMarks := alsoSigns.length_eq slot.single_signs
  have tail := (List.append_inj rest (lengthSigns.trans lengthMarks.symm)).2
  have lengthWords := fillsValue.length_eq slot.value.single_parts
  have lengthOthers := alsoValue.length_eq slot.value.single_parts
  exact (List.append_inj tail (lengthWords.trans lengthOthers.symm)).1

theorem exists_mark {signs : List Token} {next : Token} (fills : Fills slot.signs signs next) :
    ∃ earlier mark, signs = earlier ++ [mark] ∧ mark.kind.isPunctuator = true := by
  rcases fills.split with ⟨earlier, last, rfl, _, fillsMark⟩
  rcases fillsMark.mark_cons slot.isSign with ⟨mark, rest, rfl, kind, none⟩
  cases none
  exact ⟨earlier, mark, rfl, kind ▸ slot.isSign⟩

theorem Within.exists_takes {parts : List Part} (within : slot.Within parts) {next : Token}
    (fills : Fills parts tokens next) : ∃ before signs words follower after,
      tokens = before ++ slot.name.token :: (signs ++ (words ++ follower :: after)) ∧
        Fills slot.signs signs (words.headD follower) ∧ Fills slot.value.parts words follower ∧
          follower.kind ∈ [.parenClose, .name, .dollar] ∧
            ∀ others, Part.Written slot.value.parts others → Part.Written parts
              ((before ++ slot.name.token :: signs).map Token.lexeme ++
                (others ++ (follower :: after).map Token.lexeme)) := by
  rcases within with ⟨span, location, opening, follower, follows, contains⟩
  rcases contains.tokens fills with ⟨before, inner, after, rfl, row, exchange⟩
  cases row with
  | @node first _ _ _ _ inner rest here inside more =>
      rcases follows.exists_token more with ⟨follower, rest, rfl, kind⟩
      rcases inside.split with ⟨opened, others, same, fillsOpening, fillsOthers⟩
      rcases fillsOthers.name_cons with ⟨others, rfl, fillsNamed⟩
      rcases fillsNamed.split with ⟨signs, words, rfl, fillsSigns, fillsValue⟩
      refine ⟨before ++ opened, signs, words, follower, rest ++ after, ?_, fillsSigns, fillsValue,
        kind, fun others written => ?_⟩
      · rw [same]
        simp
      · have named := Part.Written.name slot.name (fillsSigns.lexemes_written.append written)
        have node := Part.Written.node ⟨first.span.start, follower.span.stop⟩ location
          (fillsOpening.lexemes_written.append named) more.lexemes_written
        have whole := exchange _ node
        simpa [Name.token, Token.lexeme] using whole

end ValueSlot

end GraphQuery
