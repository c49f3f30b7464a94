import GraphQuery.Proofs.Syntax.Grammar
import GraphQuery.Proofs.Syntax.Rescanning

namespace GraphQuery

/-! How a tree begins: words that a few others bring to an end. What begins a part of
a tree begins, behind the words before that part, the whole. -/

namespace Phrase

variable {α β : Type} {phrase : Phrase α} {taken more : List Lexeme}

/-- Readable words that the fillers can complete to a tree. -/
def Begins (phrase : Phrase α) (taken : List Lexeme) : Prop :=
  (∀ word ∈ taken, word.Readable) ∧
    ∃ tree rest, phrase.Written tree (taken ++ rest) ∧ ∀ word ∈ rest, word ∈ Token.fillers

theorem Begins.shorten (begins : phrase.Begins (taken ++ more))
    (plain : ∀ word ∈ more, word ∈ Token.fillers) : phrase.Begins taken := by
  rcases begins with ⟨readable, tree, rest, written, plainRest⟩
  rw [List.append_assoc] at written
  exact ⟨(List.forall_mem_append.mp readable).1, tree, more ++ rest, written,
    List.forall_mem_append.mpr ⟨plain, plainRest⟩⟩

theorem Fits.begins {levels : Nat} {tree : α} (fits : phrase.Fits levels tree taken) :
    phrase.Begins taken :=
  ⟨fits.readable, tree, [], by rw [List.append_nil]; exact fits.written, nofun⟩

/-- A part that is begun is begun in the whole as well, if what comes before it is readable
and what comes after it are fillers. -/
theorem Begins.embed (begins : phrase.Begins taken) {whole : Phrase β} (front back : List Lexeme)
    (readable : ∀ word ∈ front, word.Readable) (plain : ∀ word ∈ back, word ∈ Token.fillers)
    (written : ∀ tree words, phrase.Written tree words →
      ∃ outer, whole.Written outer (front ++ (words ++ back))) :
    whole.Begins (front ++ taken) := by
  rcases begins with ⟨readableTaken, tree, rest, writtenTree, plainRest⟩
  rcases written tree _ writtenTree with ⟨outer, writtenOuter⟩
  refine ⟨List.forall_mem_append.mpr ⟨readable, readableTaken⟩, outer, rest ++ back, ?_,
    List.forall_mem_append.mpr ⟨plainRest, plain⟩⟩
  simpa only [List.append_assoc] using writtenOuter

/-! ## Sequences -/

def several (phrase : Phrase α) : Phrase (List α) where
  bare := List.map phrase.bare
  Written trees words := trees ≠ [] ∧ Sequence phrase.Written trees words
  nesting := deepest phrase.nesting
  extensions := []

section Sequences

variable {levels : Nat} {tree : α} {extensions : List Token.Kind}

theorem begins_sequence_nil : (phrase.sequence extensions).Begins [] :=
  ⟨nofun, [], [], .nil, nofun⟩

theorem sequence_singleton {item : α → List Lexeme → Prop} {words : List Lexeme}
    (written : item tree words) : Sequence item [tree] words := by
  have one := Sequence.cons written .nil
  rwa [List.append_nil] at one

theorem Begins.sequence (begins : phrase.Begins taken) :
    (phrase.sequence extensions).Begins taken := by
  apply begins.embed [] [] nofun nofun
  intro tree words written
  rw [List.append_nil]
  exact ⟨[tree], sequence_singleton written⟩

theorem Begins.several (begins : phrase.Begins taken) : phrase.several.Begins taken := by
  apply begins.embed [] [] nofun nofun
  intro tree words written
  rw [List.append_nil]
  exact ⟨[tree], nofun, sequence_singleton written⟩

theorem Begins.sequence_cons (begins : (phrase.sequence extensions).Begins more)
    (fits : phrase.Fits levels tree taken) :
    (phrase.sequence extensions).Begins (taken ++ more) := by
  apply begins.embed taken [] fits.readable nofun
  intro trees words written
  rw [List.append_nil]
  exact ⟨tree :: trees, .cons fits.written written⟩

theorem Begins.several_cons (begins : (phrase.sequence extensions).Begins more)
    (fits : phrase.Fits levels tree taken) : phrase.several.Begins (taken ++ more) := by
  apply begins.embed taken [] fits.readable nofun
  intro trees words written
  rw [List.append_nil]
  exact ⟨tree :: trees, nofun, .cons fits.written written⟩

theorem Begins.parenthesized (begins : phrase.several.Begins taken) :
    phrase.parenthesized.Begins (.mark .parenOpen :: taken) :=
  begins.embed [.mark .parenOpen] [.mark .parenClose] (by simp) (by simp [Token.fillers])
    fun trees _ written => ⟨trees, .some written.1 written.2⟩

end Sequences

/-! ## Literals and types -/

section Literals

variable {constant : Bool}

theorem begins_literal : (literal constant).Begins [] :=
  ⟨nofun, .symbol "a", [.name "a"], .symbol "a" (by decide), by simp [Token.fillers]⟩

theorem begins_reference : (literal false).Begins [.mark .dollar] :=
  ⟨by simp, .reference (Name.plain "a"), [.name "a"], .reference "a" rfl, by simp [Token.fillers]⟩

theorem Begins.list (begins : ((literal constant).sequence []).Begins taken) :
    (literal constant).Begins (.mark .bracketOpen :: taken) :=
  begins.embed [.mark .bracketOpen] [.mark .bracketClose] (by simp) (by simp [Token.fillers])
    fun items _ written => ⟨.list items, .list written⟩

theorem Begins.object (begins : ((literalField constant).sequence []).Begins taken) :
    (literal constant).Begins (.mark .braceOpen :: taken) :=
  begins.embed [.mark .braceOpen] [.mark .braceClose] (by simp) (by simp [Token.fillers])
    fun fields _ written => ⟨.object fields, .object written⟩

theorem Begins.literalField (key : String) (begins : (literal constant).Begins taken) :
    (Phrase.literalField constant).Begins (.name key :: .mark .colon :: taken) := by
  apply begins.embed [.name key, .mark .colon] [] (by simp) nofun
  intro value words written
  rw [List.append_nil]
  exact ⟨(Name.plain key, value), .intro key written⟩

end Literals

theorem begins_typeNode : typeNode.Begins [] :=
  ⟨nofun, .named (Name.plain "a"), [.name "a"], .named "a", by simp [Token.fillers]⟩

theorem Begins.listType (begins : typeNode.Begins taken) :
    typeNode.Begins (.mark .bracketOpen :: taken) :=
  begins.embed [.mark .bracketOpen] [.mark .bracketClose] (by simp) (by simp [Token.fillers])
    fun item _ written => ⟨.list item, .list written⟩

/-! ## Arguments and directives -/

theorem Begins.argument (key : String) (begins : (literal false).Begins taken) :
    argument.Begins (.name key :: .mark .colon :: taken) := by
  apply begins.embed [.name key, .mark .colon] [] (by simp) nofun
  intro value words written
  rw [List.append_nil]
  exact ⟨_, .intro key written⟩

theorem Begins.directive (label : String) (begins : Phrase.argument.parenthesized.Begins taken) :
    Phrase.directive.Begins (.mark .atSign :: .name label :: taken) := by
  apply begins.embed [.mark .atSign, .name label] [] (by simp) nofun
  intro values words written
  rw [List.append_nil]
  exact ⟨_, .intro label written⟩

/-! ## Selections -/

section Selections

variable {levels : Nat} {arguments : List Argument} {list : List Directive} {label : Option String}
  {key : String} {valued marked : List Lexeme}

theorem begins_parenthesized {phrase : Phrase α} : phrase.parenthesized.Begins [] :=
  ⟨nofun, [], [], .none, nofun⟩

theorem Begins.fieldArguments (label : Option String) (key : String)
    (begins : Phrase.argument.parenthesized.Begins taken) :
    selection.Begins (Lexeme.labelled label key ++ taken) := by
  apply begins.embed (Lexeme.labelled label key) [] (Lexeme.readable_labelled label key) nofun
  intro values words written
  exact ⟨_, .leaf (.intro label key written .nil)⟩

theorem begins_labelled (label : String) : selection.Begins [.name label, .mark .colon] := by
  have begins : selection.Begins [.name label, .mark .colon, .name "a"] :=
    begins_parenthesized.fieldArguments (some label) "a"
  exact begins.shorten (by simp [Token.fillers])

theorem begins_selection : selection.Begins [] := by
  have begins : selection.Begins [.name "a"] := begins_parenthesized.fieldArguments none "a"
  exact begins.shorten (by simp [Token.fillers])

theorem Begins.fieldDirectives (label : Option String) (key : String)
    (values : Phrase.argument.parenthesized.Fits levels arguments valued)
    (begins : directives.Begins taken) :
    selection.Begins (Lexeme.labelled label key ++ (valued ++ taken)) := by
  rw [← List.append_assoc]
  apply begins.embed (Lexeme.labelled label key ++ valued) []
  · exact List.forall_mem_append.mpr ⟨Lexeme.readable_labelled label key, values.readable⟩
  · exact nofun
  intro marks words written
  rw [List.append_nil, List.append_assoc]
  exact ⟨_, .leaf (.intro label key values.written written)⟩

theorem Begins.fieldSet (label : Option String) (key : String)
    (values : Phrase.argument.parenthesized.Fits levels arguments valued)
    (marks : directives.Fits levels list marked) (begins : selectionSet.Begins taken) :
    selection.Begins (Lexeme.labelled label key ++ (valued ++ (marked ++ taken))) := by
  rw [← List.append_assoc, ← List.append_assoc]
  apply begins.embed (Lexeme.labelled label key ++ valued ++ marked) []
  · exact List.forall_mem_append.mpr ⟨List.forall_mem_append.mpr
      ⟨Lexeme.readable_labelled label key, values.readable⟩, marks.readable⟩
  · exact nofun
  intro set words written
  rcases written.selections with ⟨inner, rfl, occupied, more⟩
  rw [List.append_nil, List.append_assoc (Lexeme.labelled label key)]
  exact ⟨_, .branch (.intro label key values.written marks.written) occupied more⟩

theorem Begins.selections (begins : selection.several.Begins taken) :
    Phrase.selectionSet.Begins (.mark .braceOpen :: taken) :=
  begins.embed [.mark .braceOpen] [.mark .braceClose] (by simp) (by simp [Token.fillers])
    fun selections _ written => ⟨⟨selections, Span.empty 0⟩, .intro written.1 written.2⟩

theorem begins_selectionSet : selectionSet.Begins [] := by
  have begins : selectionSet.Begins [.mark .braceOpen] := begins_selection.several.selections
  exact begins.shorten (by simp [Token.fillers])

theorem sequence_filler : Sequence Selection.Written
    [.leaf ⟨none, Name.plain "a", [], [], Span.empty 0, Location.start⟩] [.name "a"] :=
  sequence_singleton (.leaf (.intro none "a" .none .nil))

theorem set_filler : ∃ set : SelectionSet, set.Written (Lexeme.braces [.name "a"]) :=
  ⟨_, .intro (List.cons_ne_nil _ _) sequence_filler⟩

theorem braces_filler : ∀ word ∈ Lexeme.braces [.name "a"], word ∈ Token.fillers := by
  simp [Lexeme.braces, Token.fillers]

theorem Begins.inlineDirectives (condition : Option String)
    (begins : directives.Begins taken) :
    selection.Begins (.mark .spread :: (Lexeme.typeCondition condition ++ taken)) := by
  apply begins.embed (.mark .spread :: Lexeme.typeCondition condition)
    (Lexeme.braces [.name "a"]) _ braces_filler
  · intro marks words written
    rw [List.cons_append, ← List.append_assoc]
    exact ⟨_, .inline (.intro condition written) (List.cons_ne_nil _ _) sequence_filler⟩
  · exact List.forall_mem_cons.mpr ⟨trivial, Lexeme.readable_typeCondition condition⟩

theorem begins_typeCondition : selection.Begins [.mark .spread, .name "on"] := by
  have begins : selection.Begins [.mark .spread, .name "on", .name "a"] :=
    begins_sequence_nil.inlineDirectives (some "a")
  exact begins.shorten (by simp [Token.fillers])

theorem begins_spread : selection.Begins [.mark .spread] :=
  begins_typeCondition.shorten (by simp [Token.fillers])

theorem Begins.inlineSet (condition : Option String) (marks : directives.Fits levels list marked)
    (begins : selectionSet.Begins taken) :
    selection.Begins (.mark .spread :: (Lexeme.typeCondition condition ++ (marked ++ taken))) := by
  rw [← List.append_assoc]
  apply begins.embed (.mark .spread :: (Lexeme.typeCondition condition ++ marked)) []
  · rw [List.forall_mem_cons, List.forall_mem_append]
    exact ⟨trivial, Lexeme.readable_typeCondition condition, marks.readable⟩
  · exact nofun
  intro set words written
  rcases written.selections with ⟨inner, rfl, occupied, more⟩
  rw [List.append_nil]
  exact ⟨_, .inline (.intro condition marks.written) occupied more⟩

theorem Begins.spread {label : String} (free : label ≠ "on") (begins : directives.Begins taken) :
    selection.Begins (.mark .spread :: .name label :: taken) := by
  apply begins.embed [.mark .spread, .name label] [] (by simp) nofun
  intro marks words written
  rw [List.append_nil]
  exact ⟨_, .spread (.intro label free written)⟩

end Selections

/-! ## Definitions -/

theorem Begins.variableType (label : String) (begins : typeNode.Begins taken) :
    Phrase.variableDefinition.Begins
      (.mark .dollar :: .name label :: .mark .colon :: taken) := by
  apply begins.embed [.mark .dollar, .name label, .mark .colon] [] (by simp) nofun
  intro type words written
  rw [List.append_nil]
  exact ⟨_, .required label written⟩

theorem begins_variableDefinition (label : String) : Phrase.variableDefinition.Begins
    [.mark .dollar, .name label, .mark .colon] := begins_typeNode.variableType label

section Definitions

variable {levels : Nat} {type : TypeNode} {bindings : List VariableDefinition}
  {list : List Directive} {typed declared marked : List Lexeme}

theorem Begins.variableDefault (label : String) (fits : typeNode.Fits levels type typed)
    (begins : (literal true).Begins taken) :
    Phrase.variableDefinition.Begins
      (.mark .dollar :: .name label :: .mark .colon :: (typed ++ .mark .equals :: taken)) := by
  have front : (.mark .dollar :: .name label :: .mark .colon ::
      (typed ++ .mark .equals :: taken) : List Lexeme) =
        (.mark .dollar :: .name label :: .mark .colon :: (typed ++ [.mark .equals])) ++ taken := by
    simp
  rw [front]
  apply begins.embed _ [] _ nofun
  · intro value words written
    have whole := VariableDefinition.Written.defaulted label fits.written written
    rw [List.append_nil, List.cons_append, List.cons_append, List.cons_append, List.append_assoc]
    exact ⟨_, whole⟩
  · simpa [or_imp, forall_and] using fits.readable

theorem Begins.shorthand (begins : selectionSet.Begins taken) : operation.Begins taken := by
  apply begins.embed [] [] nofun nofun
  intro set words written
  rw [List.append_nil]
  exact ⟨_, .shorthand written⟩

theorem readable_operationLabel (label : Option String) :
    ∀ word ∈ label.toList.map Lexeme.name, word.Readable := by
  cases label <;> simp

theorem Begins.operationVariables (kind : OperationKind) (label : Option String)
    (begins : Phrase.variableDefinition.parenthesized.Begins taken) :
    operation.Begins (.name kind.keyword :: (label.toList.map .name ++ taken)) := by
  apply begins.embed (.name kind.keyword :: label.toList.map .name) (Lexeme.braces [.name "a"])
    _ braces_filler
  · intro bindings words written
    rcases set_filler with ⟨set, filler⟩
    rw [List.cons_append]
    exact ⟨_, .full kind label written .nil filler⟩
  · exact List.forall_mem_cons.mpr ⟨trivial, readable_operationLabel label⟩

theorem Begins.operationDirectives (kind : OperationKind) (label : Option String)
    (bindings : variableDefinition.parenthesized.Fits levels bindings declared)
    (begins : directives.Begins taken) :
    operation.Begins (.name kind.keyword :: (label.toList.map .name ++ (declared ++ taken))) := by
  rw [← List.append_assoc]
  apply begins.embed (.name kind.keyword :: (label.toList.map Lexeme.name ++ declared))
    (Lexeme.braces [.name "a"]) _ braces_filler
  · intro marks words written
    rcases set_filler with ⟨set, filler⟩
    rw [List.cons_append, List.append_assoc]
    exact ⟨_, .full kind label bindings.written written filler⟩
  · rw [List.forall_mem_cons, List.forall_mem_append]
    exact ⟨trivial, readable_operationLabel label, bindings.readable⟩

theorem Begins.operationSet (kind : OperationKind) (label : Option String)
    (bindings : variableDefinition.parenthesized.Fits levels bindings declared)
    (marks : directives.Fits levels list marked) (begins : selectionSet.Begins taken) :
    operation.Begins
      (.name kind.keyword :: (label.toList.map .name ++ (declared ++ (marked ++ taken)))) := by
  rw [← List.append_assoc, ← List.append_assoc]
  apply begins.embed (.name kind.keyword :: (label.toList.map Lexeme.name ++ declared ++ marked)) []
    _ nofun
  · intro set words written
    rw [List.append_nil, List.cons_append, List.append_assoc, List.append_assoc]
    exact ⟨_, .full kind label bindings.written marks.written written⟩
  · simp only [List.forall_mem_cons, List.forall_mem_append]
    exact ⟨trivial, ⟨readable_operationLabel label, bindings.readable⟩, marks.readable⟩

theorem Begins.fragmentDirectives {label : String} (condition : String) (free : label ≠ "on")
    (begins : directives.Begins taken) :
    Phrase.fragment.Begins
      (.name "fragment" :: .name label :: .name "on" :: .name condition :: taken) := by
  apply begins.embed [.name "fragment", .name label, .name "on", .name condition]
    (Lexeme.braces [.name "a"]) (by simp) braces_filler
  intro marks words written
  rcases set_filler with ⟨set, filler⟩
  have whole := FragmentDefinition.Written.intro label condition free written filler
  exact ⟨_, whole⟩

theorem Begins.fragmentSet {label : String} (condition : String) (free : label ≠ "on")
    (marks : directives.Fits levels list marked) (begins : selectionSet.Begins taken) :
    Phrase.fragment.Begins (.name "fragment" :: .name label :: .name "on" :: .name condition ::
      (marked ++ taken)) := by
  apply begins.embed
    (.name "fragment" :: .name label :: .name "on" :: .name condition :: marked) [] _ nofun
  · intro set words written
    rw [List.append_nil]
    exact ⟨_, .intro label condition free marks.written written⟩
  · simpa using marks.readable

theorem begins_fragmentLabel {label : String} (free : label ≠ "on") :
    Phrase.fragment.Begins [.name "fragment", .name label, .name "on"] := by
  have begins : Phrase.fragment.Begins
      [.name "fragment", .name label, .name "on", .name "a"] :=
    begins_sequence_nil.fragmentDirectives "a" free
  exact begins.shorten (by simp [Token.fillers])

theorem begins_fragment : Phrase.fragment.Begins [.name "fragment"] :=
  (begins_fragmentLabel (show "a" ≠ "on" by decide)).shorten (by simp [Token.fillers])

theorem Begins.ofOperation (begins : operation.Begins taken) : Phrase.definition.Begins taken := by
  apply begins.embed [] [] nofun nofun
  intro tree words written
  rw [List.append_nil]
  exact ⟨_, .operation written⟩

theorem Begins.ofFragment (begins : Phrase.fragment.Begins taken) :
    Phrase.definition.Begins taken := by
  apply begins.embed [] [] nofun nofun
  intro tree words written
  rw [List.append_nil]
  exact ⟨_, .fragment written⟩

end Definitions

end Phrase

end GraphQuery
