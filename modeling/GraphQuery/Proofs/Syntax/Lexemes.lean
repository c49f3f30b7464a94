import GraphQuery.Document.Parser

namespace GraphQuery

/-! What a grammar is about: the tokens of a text without the places where they
stand. -/

/-! ## Lexemes -/

/-- A token without its place. Of a token that is always written alike only the
kind is left. -/
inductive Lexeme where
  | name (text : String)
  | int (text : String)
  | float (text : String)
  | string (text : String)
  | blockString (text : String)
  | mark (kind : Token.Kind)
deriving DecidableEq

def Lexeme.kind : Lexeme → Token.Kind
  | .name _ => .name
  | .int _ => .int
  | .float _ => .float
  | .string _ => .string
  | .blockString _ => .blockString
  | .mark kind => kind

def Lexeme.text? : Lexeme → Option String
  | .name text | .int text | .float text | .string text | .blockString text => some text
  | .mark _ => none

/-- Whether a number or a quoted string stands for a value. -/
def Lexeme.Readable : Lexeme → Prop
  | .int text => Word.int64.Fits (Parser.intOfText text.toList)
  | .string text => (StringLiteral.unescape (Parser.between 1 text)).isSome
  | _ => True

namespace Token

def Kind.isPunctuator : Kind → Bool
  | .endOfInput | .invalid | .name | .int | .float | .string | .blockString => false
  | _ => true

def lexeme (token : Token) : Lexeme :=
  match token.kind with
  | .name => .name token.text
  | .int => .int token.text
  | .float => .float token.text
  | .string => .string token.text
  | .blockString => .blockString token.text
  | kind => .mark kind

def lexemes (text : List Char) : List Lexeme := (tokenize text).dropLast.map lexeme

variable {token : Token} {kind : Kind}

@[simp] theorem kind_lexeme (token : Token) : token.lexeme.kind = token.kind := by
  rcases token with ⟨found, text, span, location⟩
  cases found <;> rfl

theorem text_eq_of_lexeme {text : String} (written : token.lexeme.text? = some text) :
    token.text = text := by
  rcases token with ⟨found, held, span, location⟩
  cases found <;> simp_all [lexeme, Lexeme.text?]

theorem lexeme_eq_mark (punctuator : kind.isPunctuator = true) :
    token.lexeme = .mark kind ↔ token.kind = kind := by
  rcases token with ⟨found, text, span, location⟩
  cases found <;> cases kind <;> simp_all [lexeme, Kind.isPunctuator]

theorem lexeme_eq_name {text : String} :
    token.lexeme = .name text ↔ token.kind = .name ∧ token.text = text := by
  rcases token with ⟨found, text, span, location⟩
  cases found <;> simp [lexeme]

/-! ## The end of a text

Only the last token of a text marks the end, because no scanner finds such a
mark. -/

theorem numberEnd_fst_ne (given : kind ≠ .endOfInput) (text : List Char) :
    (numberEnd kind text).1 ≠ .endOfInput := by
  unfold numberEnd
  split
  · split
    · simp
    · exact given
  · exact given

theorem digitsThen_fst_ne {next : List Char → Kind × Nat}
    (given : ∀ text, (next text).1 ≠ .endOfInput) (text : List Char) :
    (digitsThen next text).1 ≠ .endOfInput := by
  simp only [digitsThen]
  split
  · simp
  · exact given _

theorem signThen_fst_ne {next : List Char → Kind × Nat}
    (given : ∀ text, (next text).1 ≠ .endOfInput) (text : List Char) :
    (signThen next text).1 ≠ .endOfInput := by
  unfold signThen
  split <;> exact given _

theorem scanExponent_fst_ne (given : kind ≠ .endOfInput) (text : List Char) :
    (scanExponent kind text).1 ≠ .endOfInput := by
  unfold scanExponent
  split
  · split
    · exact signThen_fst_ne (digitsThen_fst_ne (numberEnd_fst_ne (by simp))) _
    · exact numberEnd_fst_ne given _
  · exact numberEnd_fst_ne given _

theorem scanFraction_fst_ne (text : List Char) : (scanFraction text).1 ≠ .endOfInput := by
  unfold scanFraction
  split
  · exact digitsThen_fst_ne (scanExponent_fst_ne (by simp)) _
  · exact scanExponent_fst_ne (by simp) _

theorem scanUnsigned_fst_ne (text : List Char) : (scanUnsigned text).1 ≠ .endOfInput := by
  unfold scanUnsigned
  split
  · split
    · split
      · simp
      · exact scanFraction_fst_ne _
    · exact scanFraction_fst_ne _
  · exact digitsThen_fst_ne scanFraction_fst_ne _

theorem scanString_fst_ne (text : List Char) : (scanString text).1 ≠ .endOfInput := by
  fun_induction scanString text with
  | case5 _ _ induction => exact induction
  | case6 _ _ _ _ _ _ induction => exact induction
  | _ => simp

theorem scanBlockString_fst_ne (text : List Char) :
    (scanBlockString text).1 ≠ .endOfInput := by
  fun_induction scanBlockString text with
  | case3 _ induction => exact induction
  | case4 _ _ _ _ induction => exact induction
  | _ => simp

theorem ofPunctuator?_ne (character : Char) :
    Kind.ofPunctuator? character ≠ some .endOfInput := by
  unfold Kind.ofPunctuator?
  split <;> simp

theorem scan_fst_ne (first : Char) (rest : List Char) : (scan first rest).1 ≠ .endOfInput := by
  have punctuator := ofPunctuator?_ne first
  unfold scan
  split
  next found => simpa [found] using punctuator
  next =>
    split
    · split <;> simp
    · split
      · split
        · exact scanBlockString_fst_ne _
        · exact scanString_fst_ne _
      · split
        · exact scanUnsigned_fst_ne _
        · split
          · exact scanUnsigned_fst_ne _
          · split <;> simp

end Token

/-! ## Streams -/

namespace Parser.Stream

def passed (stream : Stream) : Stream :=
  match stream.following with
  | next :: following => ⟨next, following⟩
  | [] => stream

/-- A stream holds these lexemes and then the mark of the end. -/
inductive Shows : Stream → List Lexeme → Prop
  | done {last : Token} (ends : last.kind = .endOfInput) : Shows ⟨last, []⟩ []
  | more {token next : Token} {following : List Token} {rest : List Lexeme}
      (more : token.kind ≠ .endOfInput) (others : Shows ⟨next, following⟩ rest) :
      Shows ⟨token, next :: following⟩ (token.lexeme :: rest)

namespace Shows

variable {stream : Stream} {words rest : List Lexeme} {first : Lexeme}

theorem passed (shows : stream.Shows (first :: rest)) : stream.passed.Shows rest := by
  cases shows with
  | more _ others => exact others

theorem current (shows : stream.Shows (first :: rest)) : stream.current.lexeme = first := by
  cases shows with
  | more => rfl

theorem kind_current (shows : stream.Shows (first :: rest)) :
    stream.current.kind = first.kind := by
  rw [← Token.kind_lexeme, shows.current]

theorem text_current {text : String} (shows : stream.Shows (first :: rest))
    (written : first.text? = some text) : stream.current.text = text :=
  Token.text_eq_of_lexeme (shows.current ▸ written)

theorem atEnd (shows : stream.Shows []) : stream.current.kind = .endOfInput := by
  cases shows with
  | done ends => exact ends

theorem eq_cons (shows : stream.Shows words) (more : stream.current.kind ≠ .endOfInput) :
    ∃ rest, words = stream.current.lexeme :: rest ∧ stream.passed.Shows rest := by
  cases shows with
  | done ends => exact absurd ends more
  | more _ others => exact ⟨_, rfl, others⟩

theorem length_following (shows : stream.Shows words) :
    stream.following.length = words.length := by
  induction shows with
  | done => rfl
  | more _ _ induction => simpa using induction

theorem ends {current : Token} {following : List Token}
    (shows : Shows ⟨current, following⟩ words) :
    ∃ tokens last, current :: following = tokens ++ [last] ∧ last.kind = .endOfInput ∧
      ∀ token ∈ tokens, token.kind ≠ .endOfInput := by
  induction following generalizing current words with
  | nil =>
      cases shows with
      | done ends => exact ⟨[], current, rfl, ends, by simp⟩
  | cons next following induction =>
      cases shows with
      | more notEnd others =>
          rcases induction others with ⟨tokens, last, same, ends, before⟩
          refine ⟨current :: tokens, last, by rw [same, List.cons_append], ends, ?_⟩
          exact List.forall_mem_cons.mpr ⟨notEnd, before⟩

end Shows

theorem shows_tokensFrom (cursor : Token.Cursor) : ∃ current following,
    Token.tokensFrom cursor = current :: following ∧
      Shows ⟨current, following⟩ ((current :: following).dropLast.map Token.lexeme) := by
  fun_induction Token.tokensFrom cursor with
  | case1 cursor start atEnd => exact ⟨_, _, rfl, .done rfl⟩
  | case2 cursor start first rest atFirst kind more scanned stop induction =>
      rcases induction with ⟨next, following, others, shows⟩
      have notEnd := Token.scan_fst_ne first rest
      rw [scanned] at notEnd
      rw [others]
      exact ⟨_, _, rfl, .more notEnd shows⟩

theorem shows_ofText (text : List Char) : (ofText text).Shows (Token.lexemes text) := by
  rcases shows_tokensFrom (Token.Cursor.ofText text) with ⟨current, following, found, shows⟩
  simpa only [ofText, Token.lexemes, Token.tokenize, found] using shows

end Parser.Stream

theorem Token.tokenize_ends (text : List Char) : ∃ tokens last,
    tokenize text = tokens ++ [last] ∧ last.kind = .endOfInput ∧
      ∀ token ∈ tokens, token.kind ≠ .endOfInput := by
  rcases Parser.Stream.shows_tokensFrom (Cursor.ofText text) with
    ⟨current, following, found, shows⟩
  rw [tokenize, found]
  exact shows.ends

end GraphQuery
