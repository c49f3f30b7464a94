import GraphQuery.Proofs.Coercion.Validity
import GraphQuery.Proofs.Syntax.Acceptance
import GraphQuery.Proofs.Syntax.Composition

namespace GraphQuery

/-! Types as texts. The text of a type is read as that type, and what is read from any text has
the text of the type that it stands for. -/

open Token

/-! ## Reading a type that stands alone -/

namespace Parser

variable {text : List Char} {node tree : TypeNode}

theorem gives_wholeType {limit : Nat} {stream rest : Stream} :
    Gives (wholeType limit) stream node rest ↔
      Gives (typeNode limit) stream node rest ∧ rest.current.kind = .endOfInput := by
  rw [wholeType, gives_bind]
  constructor
  · rintro ⟨type, between, given, gives⟩
    rw [gives_isAt_bind] at gives
    split at gives
    next ends =>
      obtain ⟨rfl, rfl⟩ := gives_pure.mp gives
      exact ⟨given, beq_iff_eq.mp ends⟩
    next => exact absurd gives not_gives_expected
  · rintro ⟨given, ends⟩
    refine ⟨node, rest, given, ?_⟩
    rw [gives_isAt_bind, if_pos (beq_iff_eq.mpr ends)]
    exact gives_return node

theorem parseType_eq_ok : parseType text = .ok node ↔
    ∃ rest, Gives (wholeType defaultLimit) (Stream.ofText text) node rest := by
  simp only [parseType, Gives]
  cases (wholeType defaultLimit).run (Stream.ofText text) with
  | error failure => simp
  | ok given => simp [Prod.ext_iff]

theorem parseType_fits (done : parseType text = .ok node) :
    Phrase.typeNode.Fits defaultLimit node.bare (lexemes text) := by
  rcases parseType_eq_ok.mp done with ⟨rest, gives⟩
  rcases gives_wholeType.mp gives with ⟨given, ends⟩
  rcases typeNode_sound defaultLimit (Stream.shows_ofText text) given with
    ⟨taken, others, same, left, fits⟩
  rw [same, left.eq_nil ends, List.append_nil]
  exact fits

theorem parseType_of_fits (fits : Phrase.typeNode.Fits defaultLimit tree (lexemes text)) :
    ∃ node, parseType text = .ok node ∧ node.bare = tree := by
  have shows := Stream.shows_ofText text
  rw [← List.append_nil (lexemes text)] at shows
  rcases typeNode_complete defaultLimit fits shows nofun with ⟨node, rest, given, same, left⟩
  exact ⟨node, parseType_eq_ok.mpr ⟨rest, gives_wholeType.mpr ⟨given, left.atEnd⟩⟩, same⟩

end Parser

/-! ## Changing the names in a type -/

namespace TypeShape

variable {ν μ κ : Type} {shape : TypeShape ν}

theorem toNonNull_of_nullable (nullable : shape.isNonNull = false) :
    shape.toNonNull = .nonNull shape := by
  cases shape with
  | nonNull inner => cases nullable
  | named | list => rfl

theorem toNonNull_toNonNull (shape : TypeShape ν) :
    shape.toNonNull.toNonNull = shape.toNonNull := by
  cases shape <;> rfl

theorem relabel_toNonNull (name : ν → μ) (shape : TypeShape ν) :
    shape.toNonNull.relabel name = (shape.relabel name).toNonNull := by
  cases shape with
  | named | list => rfl
  | nonNull inner => exact (toNonNull_toNonNull _).symm

theorem relabel_relabel (name : ν → μ) (other : μ → κ) (shape : TypeShape ν) :
    (shape.relabel name).relabel other = shape.relabel (other ∘ name) := by
  induction shape with
  | named label => rfl
  | list item induction => rw [relabel, relabel, relabel, induction]
  | nonNull inner induction => rw [relabel, relabel_toNonNull, induction, relabel]

theorem isNonNull_relabel (name : ν → μ) (shape : TypeShape ν) :
    (shape.relabel name).isNonNull = shape.isNonNull := by
  cases shape with
  | named | list => rfl
  | nonNull inner => exact isNonNull_toNonNull _

theorem Collapsed.relabel_nonNull {inner : TypeShape ν} (collapsed : (nonNull inner).Collapsed)
    (name : ν → μ) : (nonNull inner).relabel name = .nonNull (inner.relabel name) :=
  toNonNull_of_nullable ((isNonNull_relabel name inner).trans collapsed.1)

theorem Collapsed.relabel_id (collapsed : shape.Collapsed) : shape.relabel id = shape := by
  induction shape with
  | named label => rfl
  | list item induction => rw [relabel, induction collapsed]
  | nonNull inner induction => rw [collapsed.relabel_nonNull, induction collapsed.2]

theorem Collapsed.renderWith_relabel (collapsed : shape.Collapsed) (name : ν → μ)
    (text : μ → String) :
    (shape.relabel name).renderWith text = shape.renderWith (text ∘ name) := by
  induction shape with
  | named label => rfl
  | list item induction => rw [relabel, renderWith, renderWith, induction collapsed]
  | nonNull inner induction =>
      rw [collapsed.relabel_nonNull, renderWith, renderWith, induction collapsed.2]

theorem base_relabel (name : ν → μ) (shape : TypeShape ν) :
    (shape.relabel name).base = name shape.base := by
  induction shape with
  | named label => rfl
  | list item induction => exact induction
  | nonNull inner induction =>
      rw [relabel, base, ← induction]
      cases inner.relabel name <;> rfl

end TypeShape

theorem TypeNode.toTypeRef_bare (node : TypeNode) : node.bare.toTypeRef = node.toTypeRef := by
  induction node with
  | named name => rfl
  | list item induction => exact congrArg TypeShape.list induction
  | nonNull inner induction => exact congrArg TypeShape.toNonNull induction

/-! ## The words of a type -/

namespace TypeRef

def nesting : TypeRef → Nat
  | .named _ => 0
  | .list item => nesting item + 1
  | .nonNull inner => nesting inner

def words : TypeRef → List Lexeme
  | .named label => [.name label]
  | .list item => Lexeme.brackets (words item)
  | .nonNull inner => words inner ++ [.mark .bang]

def tree (type : TypeRef) : TypeNode := TypeShape.relabel Name.plain type

variable {type : TypeRef}

theorem lexemes_render (isName : Spelled .name type.base.toList) {rest : List Char}
    (clear : Clear .name rest) :
    lexemes (type.render.toList ++ rest) = type.words ++ lexemes rest := by
  induction type generalizing rest with
  | named label => exact lexemes_name isName clear
  | list item induction =>
      have text : (render (.list item)).toList ++ rest =
          '[' :: ((render item).toList ++ ']' :: rest) := by
        simp [render, TypeShape.renderWith]
      have opening := lexemes_mark .bracketOpen rfl ((render item).toList ++ ']' :: rest)
      have closing := lexemes_mark .bracketClose rfl rest
      have clear : Clear .name (']' :: rest) := clear_cons ⟨rfl, by decide⟩ (by decide) .name rest
      have inside := induction isName clear
      rw [text, words, Lexeme.brackets_append]
      exact opening.trans (congrArg _ (inside.trans (congrArg _ closing)))
  | nonNull inner induction =>
      have text : (render (.nonNull inner)).toList ++ rest =
          (render inner).toList ++ '!' :: rest := by
        simp [render, TypeShape.renderWith]
      have closing := lexemes_mark .bang rfl rest
      have clear : Clear .name ('!' :: rest) := clear_cons ⟨rfl, by decide⟩ (by decide) .name rest
      have inside := induction isName clear
      rw [text, words, List.append_assoc]
      exact inside.trans (congrArg _ closing)

theorem toTypeRef_tree (collapsed : type.Collapsed) : type.tree.toTypeRef = type := by
  rw [tree, TypeNode.toTypeRef, TypeShape.relabel_relabel]
  exact collapsed.relabel_id

theorem nesting_tree (collapsed : type.Collapsed) : type.tree.nesting = type.nesting := by
  induction type with
  | named label => rfl
  | list item induction => exact congrArg (· + 1) (induction collapsed)
  | nonNull inner induction =>
      rw [tree, collapsed.relabel_nonNull]
      exact induction collapsed.2

theorem written_tree (collapsed : type.Collapsed) : type.tree.Written type.words := by
  induction type with
  | named label => exact .named label
  | list item induction => exact .list (induction collapsed)
  | nonNull inner induction =>
      rw [tree, collapsed.relabel_nonNull]
      exact .nonNull ((TypeShape.isNonNull_relabel _ inner).trans collapsed.1)
        (induction collapsed.2)

theorem readable_words (type : TypeRef) : ∀ word ∈ type.words, word.Readable := by
  induction type with
  | named label => simp [words]
  | list item induction => exact Lexeme.readable_brackets.mpr induction
  | nonNull inner induction =>
      exact List.forall_mem_append.mpr ⟨induction, by simp⟩

/-! ## Types that are built -/

/-- A type that is built from names, each step taken any number of times and in any order. -/
inductive Built : TypeRef → Prop
  | named {label : String} (isName : Spelled .name label.toList) : Built (.named label)
  | list {item : TypeRef} (built : Built item) : Built (.list item)
  | nonNull {type : TypeRef} (built : Built type) : Built type.toNonNull
  | nullable {type : TypeRef} (built : Built type) : Built type.toNullable

theorem Built.collapsed (built : type.Built) : type.Collapsed := by
  induction built with
  | named isName => trivial
  | list built induction => exact induction
  | nonNull built induction => exact induction.toNonNull
  | @nullable type built induction =>
      cases type with
      | named | list => exact induction
      | nonNull inner => exact induction.2

theorem Built.isName (built : type.Built) : Spelled .name type.base.toList := by
  induction built with
  | named isName => exact isName
  | list built induction => exact induction
  | @nonNull type built induction | @nullable type built induction => cases type <;> exact induction

/-! ## Reading and writing -/

def parse (text : String) : Except SyntaxError TypeRef :=
  (TypeNode.parse text).map TypeNode.toTypeRef

theorem parse_render (collapsed : type.Collapsed) (isName : Spelled .name type.base.toList)
    (shallow : type.nesting ≤ Parser.defaultLimit) : parse type.render = .ok type := by
  have found := lexemes_render isName (nofun : Clear .name [])
  rw [List.append_nil, lexemes_nil, List.append_nil] at found
  have written : Phrase.typeNode.Fits Parser.defaultLimit type.tree
      (lexemes type.render.toList) := by
    rw [found]
    exact ⟨written_tree collapsed, readable_words type, (nesting_tree collapsed).trans_le shallow⟩
  rcases Parser.parseType_of_fits written with ⟨node, done, same⟩
  rw [parse, TypeNode.parse, done, Except.map, ← node.toTypeRef_bare, same,
    toTypeRef_tree collapsed]

end TypeRef

/-! ## Types that have been read -/

namespace TypeNode

variable {node tree : TypeNode} {words : List Lexeme}

theorem Written.collapsed (written : tree.Written words) : tree.Collapsed := by
  induction written with
  | named label => trivial
  | list written induction => exact induction
  | nonNull once written induction => exact ⟨once, induction⟩

theorem Written.name_mem (written : tree.Written words) : .name tree.base.text ∈ words := by
  induction written with
  | named label => exact List.mem_singleton.mpr rfl
  | list written induction => exact List.mem_cons_of_mem _ (List.mem_append_left _ induction)
  | nonNull once written induction => exact List.mem_append_left _ induction

def NotBothBang (first second : Lexeme) : Prop := first ≠ .mark .bang ∨ second ≠ .mark .bang

theorem Written.last_ne (written : tree.Written words) (nullable : tree.isNonNull = false) :
    ∀ last ∈ words.getLast?, last ≠ .mark .bang := by
  cases written with
  | named label =>
      rintro last ⟨⟩ same
      cases same
  | list written =>
      rw [Lexeme.brackets, ← List.cons_append, List.getLast?_concat]
      rintro last ⟨⟩ same
      cases same
  | nonNull once written => cases nullable

theorem Written.isChain (written : tree.Written words) : words.IsChain NotBothBang := by
  induction written with
  | named label => exact .singleton _
  | list written induction =>
      refine List.isChain_cons.mpr ⟨fun _ _ => .inl nofun, ?_⟩
      exact List.isChain_append.mpr ⟨induction, .singleton _, fun _ _ _ last => .inr (by
        cases last
        nofun)⟩
  | nonNull once written induction =>
      refine List.isChain_append.mpr ⟨induction, .singleton _, fun last found _ _ => ?_⟩
      exact .inl (written.last_ne once last found)

theorem Written.not_doubled (written : tree.Written words) :
    ¬ [.mark .bang, .mark .bang] <:+: words := by
  intro doubled
  have pair := List.IsChain.infix written.isChain doubled
  rcases List.isChain_pair.mp pair with differs | differs
  · exact differs rfl
  · exact differs rfl

theorem Written.plain (written : tree.Written words) :
    ∀ word ∈ words, word.kind = .name ∨ word.kind.isPunctuator = true := by
  induction written with
  | named label => exact List.forall_mem_singleton.mpr (.inl rfl)
  | list written induction =>
      refine List.forall_mem_cons.mpr ⟨.inr rfl, List.forall_mem_append.mpr ⟨induction, ?_⟩⟩
      exact List.forall_mem_singleton.mpr (.inr rfl)
  | nonNull once written induction =>
      exact List.forall_mem_append.mpr ⟨induction, List.forall_mem_singleton.mpr (.inr rfl)⟩

theorem relabel_bare (collapsed : node.Collapsed) :
    TypeShape.relabel Name.bare node = node.bare := by
  induction node with
  | named name => rfl
  | list item induction => exact congrArg TypeShape.list (induction collapsed)
  | nonNull inner induction => rw [collapsed.relabel_nonNull, induction collapsed.2, bare]

theorem collapsed_of_bare (collapsed : node.bare.Collapsed) : node.Collapsed := by
  induction node with
  | named name => trivial
  | list item induction => exact induction collapsed
  | nonNull inner induction =>
      refine ⟨?_, induction collapsed.2⟩
      have nullable := collapsed.1
      cases inner with
      | named | list => rfl
      | nonNull inner => cases nullable

theorem tree_toTypeRef (collapsed : node.Collapsed) : node.toTypeRef.tree = node.bare := by
  rw [TypeRef.tree, toTypeRef, TypeShape.relabel_relabel]
  exact relabel_bare collapsed

end TypeNode

/-! ## Marks in a text -/

namespace Token

def Commented (front : List Char) : Prop :=
  ∃ before line, front = before ++ '#' :: line ∧ '\n' ∉ line

theorem Commented.append {front : List Char} (commented : Commented front) (more : List Char) :
    Commented (more ++ front) := by
  rcases commented with ⟨before, line, rfl, oneLine⟩
  exact ⟨more ++ before, line, (List.append_assoc _ _ _).symm, oneLine⟩

theorem split_append {first second front back : List Char} {character : Char}
    (whole : first ++ second = front ++ character :: back) :
    (∃ rest, first = front ++ character :: rest ∧ back = rest ++ second) ∨
      ∃ rest, front = first ++ rest ∧ second = rest ++ character :: back := by
  rcases List.append_eq_append_iff.mp whole with ⟨rest, same, others⟩ | ⟨rest, same, others⟩
  · exact .inr ⟨rest, same, others⟩
  · cases rest with
    | nil => exact .inr ⟨[], by simpa using same.symm, by simpa using others.symm⟩
    | cons next rest =>
        cases others
        exact .inl ⟨rest, same, rfl⟩

theorem Ignorable.commented {following gap front back : List Char} {character : Char}
    (ignorable : Ignorable following gap) (whole : gap = front ++ character :: back)
    (shown : character ∉ '#' :: blanks) : Commented front := by
  rw [List.mem_cons, not_or] at shown
  induction ignorable generalizing front with
  | nil => exact absurd whole (by simp)
  | blank isBlank more induction =>
      cases front with
      | nil =>
          cases whole
          exact absurd isBlank shown.2
      | cons next front =>
          cases whole
          exact (induction rfl).append [_]
  | @comment body rest oneLine stops more induction =>
      cases front with
      | nil =>
          cases whole
          exact absurd rfl shown.1
      | cons next front =>
          obtain ⟨rfl, inside⟩ := List.cons.inj whole
          rcases split_append inside with ⟨others, rfl, _⟩ | ⟨others, rfl, same⟩
          · exact ⟨[], front, rfl, fun inside => oneLine (List.mem_append_left _ inside)⟩
          · exact (induction same).append ('#' :: body)

theorem Spelled.eq_bang {kind : Kind} {word : List Char} (spelled : Spelled kind word)
    (plain : kind = .name ∨ kind.isPunctuator = true) (member : '!' ∈ word) :
    kind = .bang ∧ word = ['!'] := by
  cases spelled with
  | punctuator isPunctuator =>
      have text : kind = .bang := by
        cases kind with
        | bang => rfl
        | _ => exact absurd member (by decide)
      rw [text]
      exact ⟨rfl, rfl⟩
  | name start parts =>
      rcases List.mem_cons.mp member with rfl | member
      · cases start
      · cases parts '!' member
  | number unsigned | negative unsigned =>
      rcases unsigned.int_or_float with rfl | rfl <;> rcases plain with same | same <;> cases same
  | string | blockString => rcases plain with same | same <;> cases same

/-- Outside of comments each mark is a word of its own. -/
theorem exists_bang {text front back : List Char} (whole : text = front ++ '!' :: back)
    (plain : ∀ word ∈ lexemes text, word.kind = .name ∨ word.kind.isPunctuator = true) :
    Commented front ∨ ∃ words, lexemes text = words ++ .mark .bang :: lexemes back := by
  induction size : text.length using Nat.strongRecOn generalizing text front with
  | ind size induction =>
      subst size
      rcases exists_gap text with ⟨gap, rest, rfl, _, ignorable, begins⟩
      rcases split_append whole with ⟨others, same, _⟩ | ⟨others, rfl, same⟩
      · exact .inl (ignorable.commented same (by decide))
      · cases rest with
        | nil => exact absurd same (by simp)
        | cons first rest =>
            rcases exists_scanned first rest with ⟨kind, word, rest, rfl, scanned⟩
            have begin : first ∉ '#' :: blanks := by
              rw [List.mem_cons, not_or]
              exact (begins first rfl).symm
            rw [lexemes_of_scan ignorable begin scanned, List.forall_mem_cons, kind_lexeme] at plain
            rw [lexemes_of_scan ignorable begin scanned]
            have here : (first :: word) ++ rest = others ++ '!' :: back := same
            rcases split_append here with ⟨more, taken, rfl⟩ | ⟨more, rfl, rfl⟩
            · have valid : kind ≠ .invalid := by
                rintro rfl
                rcases plain.1 with same | same <;> cases same
              have spelled := (spelled_of_scan_append scanned valid).1
              rcases spelled.eq_bang plain.1 (by rw [taken]; simp) with ⟨rfl, alone⟩
              rw [alone] at taken
              cases others with
              | nil =>
                  cases taken
                  exact .inr ⟨[], rfl⟩
              | cons next others => simp at taken
            · have shorter : (more ++ '!' :: back).length <
                  (gap ++ first :: (word ++ (more ++ '!' :: back))).length := by
                simp only [List.length_append, List.length_cons]
                omega
              rcases induction _ shorter rfl plain.2 rfl with commented | ⟨words, found⟩
              · exact .inl ((commented.append (first :: word)).append gap)
              · exact .inr ⟨_ :: words, by rw [found, List.cons_append]⟩

end Token

namespace TypeRef

theorem parse_render_of_parse {text : String} {node : TypeNode}
    (done : TypeNode.parse text = .ok node) :
    node.render = node.toTypeRef.render ∧ parse node.render = .ok node.toTypeRef := by
  have fits := Parser.parseType_fits done
  have written : node.bare.Written (lexemes text.toList) := fits.written
  have shallow : node.bare.nesting ≤ Parser.defaultLimit := fits.shallow
  have collapsed := TypeNode.collapsed_of_bare written.collapsed
  have same : node.render = node.toTypeRef.render :=
    (collapsed.renderWith_relabel Name.text id).symm
  have base : node.toTypeRef.base = node.bare.base.text := by
    rw [← node.toTypeRef_bare]
    exact TypeShape.base_relabel Name.text node.bare
  have isName : Spelled .name node.toTypeRef.base.toList := by
    rw [base]
    exact spelled_of_name_mem written.name_mem
  have nested : node.toTypeRef.nesting ≤ Parser.defaultLimit := by
    rw [← nesting_tree node.collapsed_toTypeRef, TypeNode.tree_toTypeRef collapsed]
    exact shallow
  rw [same]
  exact ⟨rfl, parse_render node.collapsed_toTypeRef isName nested⟩

theorem commented_of_parse {text : String} {node : TypeNode}
    (done : TypeNode.parse text = .ok node) {front back : List Char}
    (whole : text.toList = front ++ '!' :: '!' :: back) : Commented front := by
  have written : node.bare.Written (lexemes text.toList) := (Parser.parseType_fits done).written
  rcases exists_bang whole written.plain with commented | ⟨words, found⟩
  · exact commented
  · have second : lexemes ('!' :: back) = .mark .bang :: lexemes back :=
      lexemes_mark .bang rfl back
    rw [second] at found
    exact absurd ⟨words, lexemes back, by rw [found]; simp⟩ written.not_doubled

/-- A type that is built refuses null nowhere twice, and is read from its text unless its lists
are nested too deeply. A type that was read from a text with whatever blanks and comments has
the text of the type that it stands for, which is read from that text again. Where a type is
read, no mark that refuses null follows another one, and two of them next to each other are
found in comments alone. -/
theorem text_round_trips :
    (∀ type : TypeRef, type.Built → type.Collapsed ∧
      (type.nesting ≤ Parser.defaultLimit → parse type.render = .ok type)) ∧
    ∀ (text : String) (node : TypeNode), TypeNode.parse text = .ok node →
      node.render = node.toTypeRef.render ∧ parse node.render = .ok node.toTypeRef ∧
      ¬ [.mark .bang, .mark .bang] <:+: lexemes text.toList ∧
      ∀ front back, text.toList = front ++ '!' :: '!' :: back → Commented front := by
  refine ⟨fun type built => ⟨built.collapsed, parse_render built.collapsed built.isName⟩, ?_⟩
  intro text node done
  rcases parse_render_of_parse done with ⟨same, again⟩
  have written : node.bare.Written (lexemes text.toList) := (Parser.parseType_fits done).written
  exact ⟨same, again, written.not_doubled, fun _ _ whole => commented_of_parse done whole⟩

def rooms : TypeRef := .nonNull (.list (.list (.nonNull (.named "Room"))))

def spacedRooms : String := "[[ Room!], ] # all!!\n!"

theorem rooms_round_trip : rooms.Built ∧ rooms.nesting ≤ Parser.defaultLimit ∧
    parse rooms.render = .ok rooms ∧
    ∃ node, TypeNode.parse spacedRooms = .ok node ∧ parse node.render = .ok node.toTypeRef := by
  have isName : Spelled .name "Room".toList :=
    .name (by decide) (List.all_eq_true.mp (by decide))
  have built : rooms.Built := .nonNull (.list (.list (.nonNull (.named isName))))
  have shallow : rooms.nesting ≤ Parser.defaultLimit := by decide
  have parses : (TypeNode.parse spacedRooms).toOption.isSome = true := by decide +kernel
  rcases Option.isSome_iff_exists.mp parses with ⟨node, found⟩
  have done := Except.eq_ok_of_toOption found
  exact ⟨built, shallow, (text_round_trips.1 rooms built).2 shallow, node, done,
    (text_round_trips.2 spacedRooms node done).2.1⟩

end TypeRef

end GraphQuery
