import GraphQuery.Proofs.Syntax.Layout
import GraphQuery.Proofs.Syntax.Positions
import GraphQuery.Source.LineIndex
import Mathlib.Data.List.DropRight
import Mathlib.Data.List.GetD
import Mathlib.Data.List.Induction

/-! Locations tell positions apart. A location counts the line feeds before a position and
the characters after the last of them, and an index of the lines finds the same one as a
walk through the whole text. -/

namespace GraphQuery

open Token

/-! ## The line in which a text ends -/

def lastLine (text : List Char) : List Char := text.rtakeWhile (· != '\n')

theorem lastLine_concat (text : List Char) (character : Char) :
    lastLine (text ++ [character]) =
      if character = '\n' then [] else lastLine text ++ [character] := by
  rw [lastLine, List.rtakeWhile_concat]
  by_cases lineFeed : character = '\n' <;> simp [lineFeed, lastLine]

theorem length_lastLine (text : List Char) :
    (lastLine text).length = Location.lineLength text := by
  rw [lastLine, List.rtakeWhile, List.length_reverse]
  rfl

theorem count_concat (text : List Char) (character : Char) :
    (text ++ [character]).count '\n' =
      text.count '\n' + if character = '\n' then 1 else 0 := by
  rw [List.count_append, List.count_singleton]
  simp

namespace LineIndex

/-! ## Where lines begin -/

theorem startsFrom_append (position : Nat) (front back : List Char) :
    startsFrom position (front ++ back) =
      startsFrom position front ++ startsFrom (position + byteCount front) back := by
  induction front generalizing position with
  | nil => rfl
  | cons character front induction =>
      simp only [List.cons_append, startsFrom, induction, byteCount_cons, Nat.add_assoc]
      split <;> rfl

theorem length_startsFrom (position : Nat) (text : List Char) :
    (startsFrom position text).length = text.count '\n' := by
  induction text generalizing position with
  | nil => rfl
  | cons character text induction =>
      by_cases lineFeed : character = '\n' <;> simp [startsFrom, lineFeed, induction]

theorem startsFrom_bounds {position : Nat} {text : List Char} :
    ∀ start ∈ startsFrom position text, position < start ∧ start ≤ position + byteCount text := by
  induction text generalizing position with
  | nil => nofun
  | cons character text induction =>
      have positive := character.utf8Size_pos
      have later : ∀ start ∈ startsFrom (position + character.utf8Size) text,
          position < start ∧ start ≤ position + byteCount (character :: text) := by
        intro start member
        have bounds := induction start member
        rw [byteCount_cons]
        omega
      intro start member
      rw [startsFrom] at member
      split at member
      · rcases List.mem_cons.mp member with rfl | member
        · rw [byteCount_cons]
          omega
        · exact later start member
      · exact later start member

theorem start_of_lastLine (text : List Char) :
    (0 :: startsFrom 0 text).getD (text.count '\n') 0 + byteCount (lastLine text) =
      byteCount text := by
  induction text using List.reverseRecOn with
  | nil => rfl
  | append_singleton text character induction =>
      have length : (0 :: startsFrom 0 text).length = text.count '\n' + 1 := by
        rw [List.length_cons, length_startsFrom]
      rw [startsFrom_append, count_concat, lastLine_concat, ← List.cons_append]
      by_cases lineFeed : character = '\n'
      · rw [if_pos lineFeed, if_pos lineFeed, ← length, List.getD_append_right _ _ _ _ (by simp)]
        simp [startsFrom, lineFeed]
      · rw [if_neg lineFeed, if_neg lineFeed, List.getD_append _ _ _ _ (by omega)]
        simp only [byteCount_append, Nat.add_zero]
        omega

/-! ## The search for a line -/

theorem lastBegun_spec {starts : Array Nat} {offset low high : Nat} (order : low < high)
    (begun : starts.getD low 0 ≤ offset)
    (later : high = starts.size ∨ offset < starts.getD high 0) :
    starts.getD (lastBegun starts offset low high) 0 ≤ offset ∧
      lastBegun starts offset low high < high ∧
      (lastBegun starts offset low high + 1 = starts.size ∨
        offset < starts.getD (lastBegun starts offset low high + 1) 0) := by
  fun_induction lastBegun starts offset low high with
  | case1 low high apart middle reached induction =>
      exact induction (by omega) reached later
  | case2 low high apart middle notReached induction =>
      have found := induction (by omega) begun (.inr (by omega))
      exact ⟨found.1, by omega, found.2.2⟩
  | case3 low high adjacent =>
      have next : low + 1 = high := by omega
      exact ⟨begun, order, next ▸ later⟩

theorem getD_toArray (starts : List Nat) (line : Nat) :
    starts.toArray.getD line 0 = starts.getD line 0 := by
  simp

theorem lastBegun_append {begun later : List Nat} {offset : Nat} (some : begun ≠ [])
    (before : ∀ start ∈ begun, start ≤ offset) (after : ∀ start ∈ later, offset < start) :
    lastBegun (begun ++ later).toArray offset 0 (begun ++ later).length + 1 = begun.length := by
  have positive : 0 < begun.length := List.length_pos_iff.mpr some
  have isBefore : ∀ line < begun.length, (begun ++ later).toArray.getD line 0 ≤ offset := by
    intro line inside
    rw [getD_toArray, List.getD_append _ _ _ _ inside, List.getD_eq_getElem _ _ inside]
    exact before _ (List.getElem_mem inside)
  have isAfter : ∀ line, begun.length ≤ line → line < (begun ++ later).length →
      offset < (begun ++ later).toArray.getD line 0 := by
    intro line outside inside
    rw [List.length_append] at inside
    have bound : line - begun.length < later.length := by omega
    rw [getD_toArray, List.getD_append_right _ _ _ _ outside, List.getD_eq_getElem _ _ bound]
    exact after _ (List.getElem_mem bound)
  have order : 0 < (begun ++ later).length := by
    rw [List.length_append]
    omega
  have found := lastBegun_spec order (isBefore 0 positive) (.inl List.size_toArray.symm)
  generalize lastBegun (begun ++ later).toArray offset 0 (begun ++ later).length = line at found ⊢
  obtain ⟨reached, inside, next⟩ := found
  have notLater : line < begun.length := by
    by_contra outside
    have := isAfter line (Nat.le_of_not_lt outside) inside
    omega
  have notEarlier : ¬ line + 1 < begun.length := by
    intro earlier
    rcases next with last | beyond
    · rw [List.size_toArray, List.length_append] at last
      omega
    · have := isBefore (line + 1) earlier
      omega
  omega

/-! ## Cutting -/

theorem cutAt?_byteCount (front back : List Char) :
    cutAt? (byteCount front) (front ++ back) = some (front, back) := by
  induction front with
  | nil => simp [cutAt?]
  | cons character front induction =>
      have positive := character.utf8Size_pos
      obtain ⟨less, enough⟩ := Nat.exists_eq_add_one.mpr
        (Nat.lt_of_lt_of_le positive (Nat.le_add_right _ (byteCount front)))
      have fits : character.utf8Size ≤ less + 1 := by omega
      have left : less + 1 - character.utf8Size = byteCount front := by omega
      rw [byteCount_cons, enough, List.cons_append, cutAt?, if_pos fits, left, induction]
      rfl

theorem cutAt?_inside {front back : List Char} {character : Char} {bytes : Nat}
    (begun : 0 < bytes) (inside : bytes < character.utf8Size) :
    cutAt? (byteCount front + bytes) (front ++ character :: back) = none := by
  induction front with
  | nil =>
      obtain ⟨less, rfl⟩ := Nat.exists_eq_add_one.mpr begun
      rw [byteCount_nil, Nat.zero_add, List.nil_append, cutAt?, if_neg (Nat.not_le.mpr inside)]
  | cons first front induction =>
      obtain ⟨less, enough⟩ := Nat.exists_eq_add_one.mpr
        (Nat.lt_of_lt_of_le begun (Nat.le_add_left _ (byteCount (first :: front))))
      rw [byteCount_cons] at enough ⊢
      have fits : first.utf8Size ≤ less + 1 := by omega
      have left : less + 1 - first.utf8Size = byteCount front + bytes := by omega
      rw [enough, List.cons_append, cutAt?, if_pos fits, left, induction]
      rfl

theorem between?_byteCount (front back : List Char) (stop : Nat) :
    between? (front ++ back) (byteCount front) stop =
      (cutAt? (stop - byteCount front) back).map Prod.fst := by
  rw [between?, cutAt?_byteCount]
  change (cutAt? (stop - byteCount front) back).bind _ = _
  cases cutAt? (stop - byteCount front) back <;> rfl

/-! ## Locations -/

theorem exists_cut (text : List Char) (offset : Nat) :
    byteCount text ≤ offset ∨ ∃ front character back, text = front ++ character :: back ∧
      byteCount front ≤ offset ∧ offset < byteCount front + character.utf8Size := by
  induction text generalizing offset with
  | nil => exact .inl (Nat.zero_le offset)
  | cons first text induction =>
      by_cases inside : offset < first.utf8Size
      · refine .inr ⟨[], first, text, rfl, Nat.zero_le offset, ?_⟩
        rwa [byteCount_nil, Nat.zero_add]
      · rcases induction (offset - first.utf8Size) with past | ⟨front, character, back, rfl, bounds⟩
        · rw [byteCount_cons]
          exact .inl (by omega)
        · refine .inr ⟨first :: front, character, back, rfl, ?_⟩
          rw [byteCount_cons]
          omega

section Lookup

variable {source : String} {front back : List Char} {offset : Nat}

theorem byteCount_toList (source : String) : byteCount source.toList = source.utf8ByteSize := by
  simp [byteCount]

theorem exists_lines (text : List Char) : ∃ lines, text = lines ++ lastLine text :=
  ⟨_, List.rdropWhile_append_rtakeWhile.symm⟩

/-- The line of an offset is found if no line begins between the characters `front` before
the offset and the offset itself. -/
theorem location_of_line (whole : source.toList = front ++ back)
    (reached : byteCount front ≤ offset)
    (ahead : ∀ start ∈ startsFrom (byteCount front) back, offset < start)
    (inside : offset ≤ source.utf8ByteSize) :
    (ofText source).location offset = ⟨front.count '\n' + 1,
      distance source.toList (byteCount front - byteCount (lastLine front)) offset + 1⟩ := by
  have starts : (ofText source).starts =
      ((0 :: startsFrom 0 front) ++ startsFrom (byteCount front) back).toArray := by
    rw [ofText, whole, startsFrom_append, Nat.zero_add, List.cons_append]
  have length : (0 :: startsFrom 0 front).length = front.count '\n' + 1 := by
    rw [List.length_cons, length_startsFrom]
  have begun : ∀ start ∈ 0 :: startsFrom 0 front, start ≤ offset := by
    intro start member
    rcases List.mem_cons.mp member with rfl | member
    · exact Nat.zero_le offset
    · have bounds := startsFrom_bounds start member
      omega
  have line : lastBegun (ofText source).starts offset 0 (ofText source).lineCount =
      front.count '\n' := by
    have found := lastBegun_append (List.cons_ne_nil _ _) begun ahead
    rw [lineCount, starts, List.size_toArray]
    omega
  have start : (ofText source).starts.getD (front.count '\n') 0 =
      byteCount front - byteCount (lastLine front) := by
    have ends := start_of_lastLine front
    rw [starts, getD_toArray, List.getD_append _ _ _ _ (by omega)]
    omega
  have within : min offset source.utf8ByteSize = offset := Nat.min_eq_left inside
  simp only [location, show (ofText source).text = source from rfl, within, line, start]

theorem location_byteCount (whole : source.toList = front ++ back) :
    (ofText source).location (byteCount front) = endOf front := by
  obtain ⟨lines, split⟩ := exists_lines front
  have inside : byteCount front ≤ source.utf8ByteSize := by
    rw [← byteCount_toList, whole, byteCount_append]
    exact Nat.le_add_right _ _
  have bytes := congrArg byteCount split
  rw [byteCount_append] at bytes
  have start : byteCount front - byteCount (lastLine front) = byteCount lines := by omega
  have rest : byteCount front - byteCount lines = byteCount (lastLine front) := by omega
  have counted : between? source.toList (byteCount lines) (byteCount front) =
      some (lastLine front) := by
    have cut : source.toList = lines ++ (lastLine front ++ back) := by
      rw [← List.append_assoc, ← split, whole]
    rw [cut, between?_byteCount, rest, cutAt?_byteCount]
    rfl
  have ahead : ∀ start ∈ startsFrom (byteCount front) back, byteCount front < start :=
    fun start member => (startsFrom_bounds start member).1
  rw [location_of_line whole (Nat.le_refl _) ahead inside, start, distance, counted, endOf_eq,
    ← length_lastLine]

theorem location_inside {character : Char} {bytes : Nat}
    (whole : source.toList = front ++ character :: back) (begun : 0 < bytes)
    (unfinished : bytes < character.utf8Size) :
    (ofText source).location (byteCount front + bytes) =
      ⟨front.count '\n' + 1, byteCount (lastLine front) + bytes + 1⟩ := by
  obtain ⟨lines, split⟩ := exists_lines front
  have inside : byteCount front + bytes ≤ source.utf8ByteSize := by
    rw [← byteCount_toList, whole, byteCount_append, byteCount_cons]
    omega
  have ahead : ∀ start ∈ startsFrom (byteCount front) (character :: back),
      byteCount front + bytes < start := by
    have notLineFeed : character ≠ '\n' := by
      rintro rfl
      exact absurd unfinished (by rw [show '\n'.utf8Size = 1 from rfl]; omega)
    intro start member
    rw [startsFrom, if_neg notLineFeed] at member
    have bounds := startsFrom_bounds start member
    omega
  have bytesOf := congrArg byteCount split
  rw [byteCount_append] at bytesOf
  have start : byteCount front - byteCount (lastLine front) = byteCount lines := by omega
  have rest : byteCount front + bytes - byteCount lines = byteCount (lastLine front) + bytes := by
    omega
  have uncounted : between? source.toList (byteCount lines) (byteCount front + bytes) = none := by
    have cut : source.toList = lines ++ (lastLine front ++ character :: back) := by
      rw [← List.append_assoc, ← split, whole]
    rw [cut, between?_byteCount, rest, cutAt?_inside begun unfinished]
    rfl
  rw [location_of_line whole (Nat.le_add_right _ _) ahead inside, start, distance, uncounted]
  simp only [rest]

theorem location_past (past : source.utf8ByteSize ≤ offset) :
    (ofText source).location offset = (ofText source).location source.utf8ByteSize := by
  simp only [location, show (ofText source).text = source from rfl, Nat.min_eq_right past,
    Nat.min_self]

end Lookup

end LineIndex

/-! ## A walk through the text -/

def bytesAfter (bytes : Nat) (character : Char) : Nat :=
  if character = '\n' then 0 else bytes + character.utf8Size

theorem foldl_bytesAfter (text : List Char) :
    text.foldl bytesAfter 0 = byteCount (lastLine text) := by
  induction text using List.reverseRecOn with
  | nil => rfl
  | append_singleton text character induction =>
      rw [List.foldl_append, List.foldl_cons, List.foldl_nil, induction, bytesAfter,
        lastLine_concat]
      split
      · rfl
      · rw [byteCount_append, byteCount_singleton]

theorem Location.locateFrom_append (location : Location) (lineBytes : Nat)
    (front rest : List Char) (more : Nat) :
    locateFrom location lineBytes (front ++ rest) (byteCount front + more) =
      locateFrom (front.foldl after location) (front.foldl bytesAfter lineBytes) rest more := by
  induction front generalizing location lineBytes with
  | nil => simp
  | cons character front induction =>
      have positive := character.utf8Size_pos
      obtain ⟨less, enough⟩ := Nat.exists_eq_add_one.mpr
        (Nat.lt_of_lt_of_le positive (Nat.le_add_right _ (byteCount front + more)))
      have inside : ¬ less + 1 < character.utf8Size := by omega
      have left : less + 1 - character.utf8Size = byteCount front + more := by omega
      rw [byteCount_cons, Nat.add_assoc, enough, List.cons_append, locateFrom, if_neg inside, left,
        induction]
      rfl

theorem Location.ofOffset_inside {front back : List Char} {character : Char} {bytes : Nat}
    (begun : 0 < bytes) (unfinished : bytes < character.utf8Size) :
    ofOffset (front ++ character :: back) (byteCount front + bytes) =
      ⟨front.count '\n' + 1, byteCount (lastLine front) + bytes + 1⟩ := by
  obtain ⟨less, rfl⟩ := Nat.exists_eq_add_one.mpr begun
  have line : (front.foldl after start).line = front.count '\n' + 1 :=
    congrArg Location.line (endOf_eq front)
  rw [ofOffset, locateFrom_append, locateFrom, if_pos unfinished, foldl_bytesAfter, line]
  rfl

theorem Location.ofOffset_past {text : List Char} {offset : Nat}
    (past : byteCount text ≤ offset) : ofOffset text offset = endOf text := by
  obtain ⟨more, rfl⟩ := Nat.exists_eq_add_of_le past
  have walked := locateFrom_append start 0 text [] more
  rw [List.append_nil] at walked
  rw [ofOffset, walked]
  cases more <;> rfl

theorem LineIndex.location_eq_ofOffset (source : String) (offset : Nat) :
    (ofText source).location offset = Location.ofOffset source.toList offset := by
  have whole : source.toList = source.toList ++ [] := (List.append_nil _).symm
  rcases exists_cut source.toList offset with
    past | ⟨front, character, back, split, reached, before⟩
  · rw [Location.ofOffset_past past, location_past (byteCount_toList source ▸ past),
      ← byteCount_toList, location_byteCount whole]
  · obtain ⟨bytes, rfl⟩ := Nat.exists_eq_add_of_le reached
    rw [split]
    rcases Nat.eq_zero_or_pos bytes with rfl | begun
    · rw [Nat.add_zero, ofOffset_byteCount, location_byteCount split]
    · have unfinished : bytes < character.utf8Size := by omega
      rw [Location.ofOffset_inside begun unfinished, location_inside split begun unfinished]

/-! ## The order of locations -/

/-- The order in which a text is read: line by line, and in a line column by column. -/
def Location.Before (first second : Location) : Prop :=
  first.line < second.line ∨ first.line = second.line ∧ first.column < second.column

namespace Location

theorem Before.trans {first second third : Location} (earlier : first.Before second)
    (later : second.Before third) : first.Before third := by
  unfold Before at *
  omega

theorem Before.ne {first second : Location} (before : first.Before second) : first ≠ second := by
  rintro rfl
  unfold Before at before
  omega

theorem before_after (location : Location) (character : Char) :
    location.Before (location.after character) := by
  unfold after
  split
  · exact .inl (Nat.lt_succ_self _)
  · exact .inr ⟨rfl, Nat.lt_succ_self _⟩

end Location

theorem Token.endOf_before {text more : List Char} (some : more ≠ []) :
    (endOf text).Before (endOf (text ++ more)) := by
  induction more using List.reverseRecOn with
  | nil => exact absurd rfl some
  | append_singleton more character induction =>
      rw [← List.append_assoc, endOf_concat]
      cases more with
      | nil =>
          rw [List.append_nil]
          exact Location.before_after _ _
      | cons first rest =>
          exact (induction (List.cons_ne_nil _ _)).trans (Location.before_after _ _)

theorem Token.endOf_before_of_byteCount_lt {front back other rest : List Char}
    (same : front ++ back = other ++ rest) (less : byteCount front < byteCount other) :
    (endOf front).Before (endOf other) := by
  rcases List.append_eq_append_iff.mp same with ⟨more, rfl, _⟩ | ⟨more, rfl, _⟩
  · apply endOf_before
    rintro rfl
    rw [List.append_nil] at less
    exact absurd less (Nat.lt_irrefl _)
  · rw [byteCount_append] at less
    omega

/-! ## What locations tell -/

namespace LineIndex

theorem location_start_of_token {source : String} {token : Token}
    (member : token ∈ tokenize source.toList) :
    (ofText source).location token.span.start = token.location := by
  obtain ⟨front, word, back, whole, covered, _⟩ :=
    (divides_tokenize source.toList).covers token member
  rw [covered]
  exact location_byteCount whole

/-- At every offset between characters, the location counts the line feeds before it and the
characters since the last of them. Of two such offsets the smaller one has the location that
is read first, so tokens that begin at different offsets have different locations. An offset
past the end has the location of the end. At every offset, inside characters too, the index
tells what a walk through the text tells. -/
theorem locations_identify_positions (source : String) :
    (∀ front back : String, source = front ++ back →
      (ofText source).location front.utf8ByteSize =
        ⟨front.toList.count '\n' + 1, Location.lineLength front.toList + 1⟩) ∧
    (∀ first second : String.Pos.Raw, first.IsValid source → second.IsValid source →
      first.byteIdx < second.byteIdx →
        ((ofText source).location first.byteIdx).Before
          ((ofText source).location second.byteIdx)) ∧
    (∀ token ∈ tokenize source.toList,
      token.location = (ofText source).location token.span.start ∧
      ∀ other ∈ tokenize source.toList, token.span.start ≠ other.span.start →
        token.location ≠ other.location) ∧
    (∀ offset, source.utf8ByteSize ≤ offset →
      (ofText source).location offset = (ofText source).location source.utf8ByteSize) ∧
    ∀ offset, (ofText source).location offset = Location.ofOffset source.toList offset := by
  have located : ∀ front back : String, source = front ++ back →
      (ofText source).location front.utf8ByteSize = endOf front.toList := by
    intro front back whole
    have characters : source.toList = front.toList ++ back.toList := by
      rw [whole, String.toList_append]
    rw [← byteCount_toList, location_byteCount characters]
  refine ⟨?_, ?_, ?_, fun _ => location_past, location_eq_ofOffset source⟩
  · intro front back whole
    rw [located front back whole, endOf_eq]
  · intro first second valid validOther less
    obtain ⟨front, back, whole, rfl⟩ := String.Pos.Raw.isValid_iff_exists_append.mp valid
    obtain ⟨other, rest, again, rfl⟩ := String.Pos.Raw.isValid_iff_exists_append.mp validOther
    rw [String.byteIdx_rawEndPos, String.byteIdx_rawEndPos] at less ⊢
    rw [located front back whole, located other rest again]
    rw [← byteCount_toList, ← byteCount_toList] at less
    have same := congrArg String.toList (whole.symm.trans again)
    rw [String.toList_append, String.toList_append] at same
    exact endOf_before_of_byteCount_lt same less
  · intro token member
    refine ⟨(location_start_of_token member).symm, fun other inside different => ?_⟩
    obtain ⟨front, word, back, whole, covered, _⟩ :=
      (divides_tokenize source.toList).covers token member
    obtain ⟨front', word', back', whole', covered', _⟩ :=
      (divides_tokenize source.toList).covers other inside
    rw [covered, covered'] at different ⊢
    have same := whole.symm.trans whole'
    rcases Nat.lt_or_gt_of_ne different with less | greater
    · exact (endOf_before_of_byteCount_lt same less).ne
    · exact (endOf_before_of_byteCount_lt same.symm greater).ne.symm

/-! ## A menu -/

def menu : String := "\x7b tea(from: \"日本\")\n  noir \x7d"

/-- On the menu, the closing parenthesis stands in the seventeenth column of the first line,
though twenty bytes come before it; what comes later is located later, and behind the end
there is nothing but the end. -/
theorem parenthesis_is_located :
    (ofText menu).location 20 = ⟨1, 17⟩ ∧
      ((ofText menu).location 20).Before ((ofText menu).location 24) ∧
      (∀ token ∈ tokenize menu.toList, token.span.start ≠ 20 → token.location ≠ ⟨1, 17⟩) ∧
      (ofText menu).location 1000 = (ofText menu).location 30 := by
  have located := locations_identify_positions menu
  have front := located.1 "\x7b tea(from: \"日本\"" ")\n  noir \x7d" rfl
  rw [show "\x7b tea(from: \"日本\"".utf8ByteSize = 20 from rfl,
    show "\x7b tea(from: \"日本\"".toList.count '\n' = 0 from rfl,
    show Location.lineLength "\x7b tea(from: \"日本\"".toList = 16 from rfl] at front
  have parenthesis : ⟨.parenClose, ")", ⟨20, 21⟩, ⟨1, 17⟩⟩ ∈ tokenize menu.toList := by
    have words : tokenize menu.toList =
        [⟨.braceOpen, "\x7b", ⟨0, 1⟩, ⟨1, 1⟩⟩, ⟨.name, "tea", ⟨2, 5⟩, ⟨1, 3⟩⟩,
          ⟨.parenOpen, "(", ⟨5, 6⟩, ⟨1, 6⟩⟩, ⟨.name, "from", ⟨6, 10⟩, ⟨1, 7⟩⟩,
          ⟨.colon, ":", ⟨10, 11⟩, ⟨1, 11⟩⟩, ⟨.string, "\"日本\"", ⟨12, 20⟩, ⟨1, 13⟩⟩,
          ⟨.parenClose, ")", ⟨20, 21⟩, ⟨1, 17⟩⟩, ⟨.name, "noir", ⟨24, 28⟩, ⟨2, 3⟩⟩,
          ⟨.braceClose, "\x7d", ⟨29, 30⟩, ⟨2, 8⟩⟩, ⟨.endOfInput, "", ⟨30, 30⟩, ⟨2, 9⟩⟩] := by
      cbv
    rw [words]
    decide
  refine ⟨front, ?_, ?_, ?_⟩
  · exact located.2.1 ⟨20⟩ ⟨24⟩ (by decide) (by decide) (by decide)
  · intro token member elsewhere
    exact (located.2.2.1 token member).2 _ parenthesis elsewhere
  · exact located.2.2.2.1 1000 (by decide)

end LineIndex

end GraphQuery
