import Marginalia.Proofs.Spelling.Name
import Marginalia.Proofs.Writing.Numeral
import Marginalia.Proofs.Writing.Sequence

/-!
# Writing and reading words

The pieces of names, operators and literals: which of them are possible lexemes, and that the
grammar reads them back. Names and operators are one phrase without blanks in it.
-/

namespace Marginalia

open Marginalia.Parser Marginalia.Grammar

variable {α β γ : Type} {input : Input}

/-! ## Phrases -/

namespace Piece

/-- Pieces that can be written behind any others, with a blank in between. -/
structure Phrase (pieces : List Piece) : Prop where
  /-- The pieces can be written. -/
  writable : Writable pieces
  /-- The first one is not joined to what is before it. -/
  apart : Apart pieces

/-- No pieces are a phrase. -/
theorem Phrase.nil : Phrase [] := ⟨⟨by simp, .nil⟩, by simp [Apart]⟩

/-- A phrase may follow whatever can be written. -/
theorem Writable.append {first second : List Piece} (writable : Writable first)
    (phrase : Phrase second) : Writable (first ++ second) := by
  refine ⟨fun piece member => ?_,
    List.isChain_append.mpr ⟨writable.adjoins, phrase.writable.adjoins, ?_⟩⟩
  · rcases List.mem_append.mp member with inFirst | inSecond
    · exact writable.sound piece inFirst
    · exact phrase.writable.sound piece inSecond
  · intro _ _ piece isFirst joined
    rw [phrase.apart piece isFirst] at joined
    cases joined

/-- One phrase after another is a phrase. -/
theorem Phrase.append {first second : List Piece} (phrase : Phrase first)
    (further : Phrase second) : Phrase (first ++ second) := by
  refine ⟨phrase.writable.append further, ?_⟩
  cases first with
  | nil => exact further.apart
  | cons piece rest => exact phrase.apart

/-- Pieces that can be written can be written also at the beginning of a source. -/
theorem Writable.joinFirst {pieces : List Piece} (writable : Writable pieces) :
    Writable (joinFirst pieces) := by
  cases pieces with
  | nil => exact writable
  | cons first rest =>
    have sound := writable.sound first (.head _)
    refine ⟨fun piece member => ?_, ?_⟩
    · cases member with
      | head => exact ⟨sound.isLexeme, sound.isWord, sound.oneLine⟩
      | tail _ inRest => exact writable.sound piece (.tail _ inRest)
    · cases rest with
      | nil => exact .singleton _
      | cons second others =>
        obtain ⟨between, further⟩ := List.isChain_cons_cons.mp writable.adjoins
        exact .cons_cons between further

/-- A piece on its own is a phrase. -/
theorem Sound.phrase {piece : Piece} (sound : piece.Sound) (loose : piece.joined = false) :
    Phrase [piece] := by
  refine ⟨⟨fun other member => List.mem_singleton.mp member ▸ sound, .singleton piece⟩,
    fun other first => ?_⟩
  rw [← Option.some.inj first]
  exact loose

/-- A piece before a phrase is a phrase. -/
theorem Phrase.cons {piece : Piece} {rest : List Piece} (phrase : Phrase rest) (sound : piece.Sound)
    (loose : piece.joined = false) : Phrase (piece :: rest) :=
  (sound.phrase loose).append phrase

/-- Phrases one after the other are a phrase. -/
theorem Phrase.flatMap {items : List β} {pieces : β → List Piece}
    (each : ∀ b ∈ items, Phrase (pieces b)) : Phrase (items.flatMap pieces) := by
  induction items with
  | nil => exact .nil
  | cons b others ih =>
    rw [List.flatMap_cons]
    exact (each b (.head _)).append (ih fun other member => each other (.tail _ member))

/-- Phrases with a piece between each two of them are a phrase. -/
theorem Phrase.between {separator : Piece} {parts : List (List Piece)} (sound : separator.Sound)
    (loose : separator.joined = false) (each : ∀ part ∈ parts, Phrase part) :
    Phrase (between separator parts) := by
  cases parts with
  | nil => exact .nil
  | cons first rest =>
    refine (each first (.head _)).append (.flatMap fun part member => ?_)
    exact (each part (.tail _ member)).cons sound loose

end Piece

/-! ## Single words -/

/-- A unit with a property that no operator character has is none. -/
theorem CodeUnit.isOperator_of {property : CodeUnit → Bool} {u : CodeUnit}
    (holds : property u = true)
    (lacks : operatorCharacters.all (fun c => !property (.ofChar c)) = true) :
    u.isOperator = false := by
  rw [Bool.eq_false_iff]
  intro isOperator
  obtain ⟨c, member, same⟩ := List.any_eq_true.mp isOperator
  obtain rfl := beq_iff_eq.mp same
  have lacking := List.all_eq_true.mp lacks c member
  rw [holds] at lacking
  cases lacking

namespace Piece

/-- Punctuation with one spelling can be written. -/
theorem mark_sound {kind : TokenKind} (marked : kind.mark?.isSome) : (mark kind).Sound := by
  cases kind
  all_goals first
    | exact ⟨.of_fronts ⟨_, _, rfl, rfl, rfl⟩, by decide, by decide⟩
    | cases marked

/-- A reserved word can be written. -/
theorem keyword_sound : ∀ word ∈ keywords, (keyword word).Sound := by
  intro word member
  simp only [keywords, List.mem_cons, List.not_mem_nil, or_false] at member
  rcases member with rfl | rfl | rfl | rfl | rfl | rfl | rfl | rfl | rfl | rfl | rfl | rfl | rfl |
    rfl | rfl | rfl
  all_goals exact ⟨.of_fronts ⟨_, _, rfl, rfl, rfl⟩, by decide, by decide⟩

/-- The sign of an anonymous function can be written. -/
theorem lambda_sound : lambda.Sound := ⟨.of_fronts ⟨_, _, rfl, rfl, rfl⟩, by decide, by decide⟩

/-- A name can be written. -/
theorem name_sound {joined : Bool} {kind : TokenKind} {name : Text} (isLexeme : IsLexeme kind name)
    (isName : kind = .lowerIdentifier ∨ kind = .upperIdentifier) :
    Sound ⟨joined, kind, name⟩ ∧ ∀ u ∈ name.head?, u.isOperator = false := by
  have isWord : kind.isComment = false ∧ kind ≠ .eof := by
    rcases isName with rfl | rfl <;> decide
  have notLine : kind ≠ .lineComment := by
    rcases isName with rfl | rfl <;> decide
  obtain ⟨u, tail, rfl, -, isStart, -, parts⟩ :=
    fronts_isName (isLexeme.fronts isWord.2 notLine (by simp)) isName
  refine ⟨⟨isLexeme, isWord, fun isBreak => ?_⟩, fun v first => ?_⟩
  · cases isBreak with
    | head => exact absurd isStart (by decide)
    | tail _ inTail => exact absurd (parts _ inTail) (by decide)
  · obtain rfl := Option.some.inj first
    exact CodeUnit.isOperator_of isStart (by decide)

/-- An operator can be written. -/
theorem operator_sound {joined : Bool} {symbol : Text} (isLexeme : IsLexeme .operator symbol) :
    Sound ⟨joined, .operator, symbol⟩ := by
  have fronts : Scan.Fronts .operator symbol [] := isLexeme.fronts nofun nofun (by simp)
  obtain ⟨u, tail, rfl, -, isOperator, notLine, read⟩ := fronts_isOperator fronts (.inr rfl)
  obtain ⟨-, -, reaches, -⟩ := Scan.operator_of_front isOperator read notLine
  refine ⟨isLexeme, ⟨rfl, nofun⟩, fun isBreak => ?_⟩
  cases isBreak with
  | head => exact absurd isOperator (by decide)
  | tail _ inTail => exact absurd (Scan.isOperator_of_operatorRun reaches _ inTail) (by decide)

/-- A piece can be written also directly behind another one. -/
theorem Sound.join {piece : Piece} (sound : piece.Sound) : piece.join.Sound :=
  ⟨sound.isLexeme, sound.isWord, sound.oneLine⟩

end Piece

/-! ## What is not there -/

section Avoiding

variable {property : Piece → Bool} {before : List Piece}

/-- Nothing is directly ahead where a blank is. -/
theorem Piece.Apart.avoids (apart : Piece.Apart before) (property : Piece → Bool) :
    Avoids property before := by
  intro piece first joined
  rw [apart piece first] at joined
  cases joined

/-- A piece without the property is directly ahead. -/
theorem Avoids.first {piece : Piece} (lacks : property piece.join = false) (rest : List Piece) :
    Avoids property (Piece.joinFirst (piece :: rest)) := by
  rintro other isFirst -
  rw [← Option.some.inj isFirst]
  exact lacks

/-- What is not there under one property is not there under a narrower one. -/
theorem Avoids.imp {other : Piece → Bool} (avoids : Avoids property before)
    (narrower : ∀ piece, property piece = false → other piece = false) : Avoids other before :=
  fun piece first joined => narrower piece (avoids piece first joined)

end Avoiding

/-! ## Names -/

/-- A piece directly behind a dot that is directly behind what is before it. -/
def Piece.dotted (piece : Piece) : List Piece := [(mark .dot).join, piece.join]

/-- An operator in parentheses, without blanks. -/
def Piece.parenthesized (symbol : Text) : List Piece :=
  [mark .leftParen, (operator symbol).join, (mark .rightParen).join]

open Piece (dotted parenthesized Apart Phrase joinFirst)

/-- The pieces of a qualified name whose last part is a name of the given sort. -/
def QualifiedName.pieces (last : Text → Piece) : QualifiedName → List Piece
  | ⟨[], name⟩ => [last name]
  | ⟨first :: others, name⟩ =>
    .upper first :: (others.flatMap (fun part => dotted (.upper part)) ++ dotted (last name))

/-- The pieces of a name that a term is. -/
def Reference.pieces : Reference → List Piece
  | value name => name.pieces .lower
  | tag name => name.pieces .upper
  | operator symbol => parenthesized symbol

/-- The pieces of the name that a signature is about. -/
def AnnotatedName.pieces : AnnotatedName → List Piece
  | value name => [.lower name]
  | operator symbol => parenthesized symbol

/-- All parts of the name are possible lexemes, the last one of a given kind. -/
structure QualifiedName.Lexical (kind : TokenKind) (qualified : QualifiedName) : Prop where
  /-- The qualifiers are upper-case names. -/
  qualifier : ∀ part ∈ qualified.qualifier, IsLexeme .upperIdentifier part
  /-- The name is one of its kind. -/
  name : IsLexeme kind qualified.name

/-- The name is a possible lexeme of its kind. -/
def Reference.Lexical : Reference → Prop
  | value name => name.Lexical .lowerIdentifier
  | tag name => name.Lexical .upperIdentifier
  | operator symbol => IsLexeme .operator symbol

/-- The annotated name is a possible lexeme of its kind. -/
def AnnotatedName.Lexical : AnnotatedName → Prop
  | value name => IsLexeme .lowerIdentifier name
  | operator symbol => IsLexeme .operator symbol

namespace Piece

/-- A phrase behind which a dot may stand directly: it ends with a name or a bracket. -/
structure Joinable (pieces : List Piece) : Prop where
  /-- The pieces are a phrase. -/
  phrase : Phrase pieces
  /-- The last piece is a name or a bracket. -/
  ends : ∃ init last, pieces = init ++ [last] ∧
    (isBracket last.kind = true ∨ last.kind = .lowerIdentifier ∨ last.kind = .upperIdentifier)

/-- A dot and a name may stand behind a name or a bracket. -/
theorem Joinable.dotted {pieces : List Piece} {name : Text} {kind : TokenKind}
    (joinable : Joinable pieces) (isName : kind = .lowerIdentifier ∨ kind = .upperIdentifier)
    (isLexeme : IsLexeme kind name) : Joinable (pieces ++ dotted ⟨false, kind, name⟩) := by
  obtain ⟨phrase, init, last, rfl, ending⟩ := joinable
  obtain ⟨sound, begins⟩ := @name_sound true kind name isLexeme isName
  have dot : (mark .dot).join.Sound := (mark_sound rfl).join
  have behindDot : Adjoins (mark .dot).join ⟨true, kind, name⟩ := .inr (.inr ⟨.inl rfl, begins⟩)
  have beforeDot : Adjoins last (mark .dot).join := ending.imp id fun named => .inl ⟨named, rfl⟩
  refine ⟨⟨⟨?_, ?_⟩, ?_⟩, init ++ [last, (mark .dot).join], ⟨true, kind, name⟩, ?_, .inr isName⟩
  · intro piece member
    simp only [List.mem_append, Piece.dotted, List.mem_cons, List.not_mem_nil, or_false] at member
    rcases member with inFront | rfl | rfl
    · exact phrase.writable.sound piece
        (List.mem_append.mpr (inFront.imp id fun isLast => by simp [isLast]))
    · exact dot
    · exact sound
  · refine List.isChain_append.mpr ⟨phrase.writable.adjoins, ?_, ?_⟩
    · exact .cons_cons (fun _ => behindDot) (.singleton _)
    · intro piece isLast other isFirst _
      obtain rfl := Option.some.inj isFirst
      rw [List.getLast?_append_of_ne_nil _ (by simp)] at isLast
      obtain rfl := Option.some.inj isLast
      exact beforeDot
  · cases init with
    | nil => exact phrase.apart
    | cons first others => exact phrase.apart
  · simp [Piece.dotted, join]

/-- An operator in parentheses is a phrase that ends with a bracket. -/
theorem parenthesized_joinable {symbol : Text} (isLexeme : IsLexeme .operator symbol) :
    Joinable (parenthesized symbol) := by
  have operator : (Piece.operator symbol).join.Sound := operator_sound isLexeme
  have left : (mark .leftParen).Sound := mark_sound rfl
  have right : (mark .rightParen).join.Sound := (mark_sound rfl).join
  have behindOperator : Adjoins (Piece.operator symbol).join (mark .rightParen).join :=
    .inr (.inr ⟨.inr rfl, fun u first => by rw [← Option.some.inj first]; decide⟩)
  refine ⟨⟨⟨?_, ?_⟩, ?_⟩, [mark .leftParen, (Piece.operator symbol).join], (mark .rightParen).join,
    rfl, .inl rfl⟩
  · intro piece member
    simp only [parenthesized, List.mem_cons, List.not_mem_nil, or_false] at member
    rcases member with rfl | rfl | rfl
    · exact left
    · exact operator
    · exact right
  · exact .cons_cons (fun _ => .inl rfl) (.cons_cons (fun _ => behindOperator) (.singleton _))
  · intro piece first
    rw [← Option.some.inj first]
    rfl

/-- A name is a phrase that ends with a name. -/
theorem name_joinable {name : Text} {kind : TokenKind}
    (isName : kind = .lowerIdentifier ∨ kind = .upperIdentifier) (isLexeme : IsLexeme kind name) :
    Joinable [⟨false, kind, name⟩] :=
  ⟨(name_sound isLexeme isName).1.phrase rfl, [], _, rfl, .inr isName⟩

end Piece

/-- A qualified name is a phrase that ends with a name. -/
theorem QualifiedName.Lexical.joinable {qualified : QualifiedName} {kind : TokenKind}
    (lexical : qualified.Lexical kind)
    (isName : kind = .lowerIdentifier ∨ kind = .upperIdentifier) :
    Piece.Joinable (qualified.pieces fun name => ⟨false, kind, name⟩) := by
  obtain ⟨qualifier, name⟩ := qualified
  cases qualifier with
  | nil => exact Piece.name_joinable isName lexical.name
  | cons first others =>
    have qualifiers : ∀ (others : List Text) (pieces : List Piece), Piece.Joinable pieces →
        (∀ part ∈ others, IsLexeme .upperIdentifier part) →
        Piece.Joinable (pieces ++ others.flatMap fun part => dotted (.upper part)) := by
      intro others
      induction others with
      | nil =>
        intro pieces joinable _
        rwa [List.flatMap_nil, List.append_nil]
      | cons part others ih =>
        intro pieces joinable each
        rw [List.flatMap_cons, ← List.append_assoc]
        exact ih _ (joinable.dotted (.inr rfl) (each part (.head _))) fun other member =>
          each other (.tail _ member)
    have front := qualifiers others _
      (Piece.name_joinable (.inr rfl) (lexical.qualifier first (.head _))) fun part member =>
      lexical.qualifier part (.tail _ member)
    have whole := front.dotted isName lexical.name
    rwa [List.append_assoc] at whole

section Names

variable {rest : List Piece}

/-- A lower-case name is read. -/
theorem lowerName_leads (name : Text) :
    Leads input lowerName (joinFirst (.lower name :: rest)) rest (· = name) := by
  apply (token_leads rfl).bind
  intro token same
  exact .pure same

/-- An upper-case name is read. -/
theorem upperName_leads (name : Text) :
    Leads input upperName (joinFirst (.upper name :: rest)) rest (· = name) := by
  apply (token_leads rfl).bind
  intro token same
  exact .pure same

/-- No lower-case name is read where none is. -/
theorem lowerName_refuses (avoids : Avoids (·.kind == .lowerIdentifier) rest) :
    Refuses input lowerName rest :=
  (token_refuses (by decide) avoids).bind

/-- No upper-case name is read where none is. -/
theorem upperName_refuses (avoids : Avoids (·.kind == .upperIdentifier) rest) :
    Refuses input upperName rest :=
  (token_refuses (by decide) avoids).bind

/-- Upper-case names behind dots are read, up to where no further one is. -/
theorem dottedUpperNames_leads (parts : List Text)
    (stops : Refuses input (attempt do let _ ← dot; upperName) rest) :
    Leads input dottedUpperNames (parts.flatMap (fun part => dotted (.upper part)) ++ rest) rest
      (· = parts) := by
  have each : ∀ part ∈ parts, ∀ after, True → Leads input (attempt do let _ ← dot; upperName)
      (dotted (.upper part) ++ after) after fun value => id value = id part := by
    intro part _ after _
    apply Leads.attempt
    apply (mark_leads .dot).bind
    intro _ _
    exact upperName_leads part
  refine (Leads.many (fun _ _ _ => trivial) trivial each
      (fun _ _ => List.cons_ne_nil _ _) stops).imp fun found same => ?_
  rwa [List.map_id, List.map_id] at same

/-- Where a blank or the end is, no upper-case name behind a dot is. -/
theorem dottedUpper_refuses (apart : Apart rest) :
    Refuses input (attempt do let _ ← dot; upperName) rest :=
  Fails.attempt (token_refuses (by decide) (apart.avoids _)).bind.fails

/-- The name of parts is that of its qualifiers and its last part. -/
theorem QualifiedName.ofParts_concat (first : Text) (others : List Text) (name : Text) :
    ofParts first (others ++ [name]) = ⟨first :: others, name⟩ := by
  induction others generalizing first with
  | nil => rfl
  | cons next others ih => rw [List.cons_append, ofParts, ih]

/-- A qualified upper-case name begins with an upper-case name. -/
theorem QualifiedName.pieces_upper (qualified : QualifiedName) :
    ∃ name rest, qualified.pieces .upper = .upper name :: rest := by
  obtain ⟨qualifier, name⟩ := qualified
  cases qualifier with
  | nil => exact ⟨name, [], rfl⟩
  | cons first others => exact ⟨first, _, rfl⟩

/-- A qualified upper-case name is read. -/
theorem qualifiedUpperName_leads (qualified : QualifiedName) (apart : Apart rest) :
    Leads input qualifiedUpperName (joinFirst (qualified.pieces .upper ++ rest)) rest
      (· = qualified) := by
  obtain ⟨qualifier, name⟩ := qualified
  cases qualifier with
  | nil =>
    apply (upperName_leads name).bind
    rintro _ rfl
    apply (dottedUpperNames_leads [] (dottedUpper_refuses apart)).bind
    rintro _ rfl
    exact .pure rfl
  | cons first others =>
    have shape : QualifiedName.pieces .upper ⟨first :: others, name⟩ ++ rest = .upper first ::
          ((others ++ [name]).flatMap (fun part => dotted (.upper part)) ++ rest) := by
      simp [QualifiedName.pieces]
    rw [shape]
    apply (upperName_leads first).bind
    rintro _ rfl
    apply (dottedUpperNames_leads (others ++ [name]) (dottedUpper_refuses apart)).bind
    rintro _ rfl
    exact .pure (QualifiedName.ofParts_concat _ others name)

/-- A name of a value is read, whatever follows it. -/
theorem nameReference_value_leads (qualified : QualifiedName) :
    Leads input nameReference (joinFirst (qualified.pieces .lower ++ rest)) rest
      (· = .value qualified) := by
  obtain ⟨qualifier, name⟩ := qualified
  cases qualifier with
  | nil =>
    refine (peekIs_tells_true rfl).leads ?_
    apply (lowerName_leads name).bind
    rintro _ rfl
    exact .pure rfl
  | cons first others =>
    have shape : QualifiedName.pieces .lower ⟨first :: others, name⟩ ++ rest = .upper first ::
          (others.flatMap (fun part => dotted (.upper part)) ++
          (dotted (.lower name) ++ rest)) := by
      simp [QualifiedName.pieces]
    rw [shape]
    refine (peekIs_tells_false (by decide) (.first rfl _)).leads ((peekIs_tells_true rfl).leads ?_)
    apply (upperName_leads first).bind
    rintro _ rfl
    have stops :
        Refuses input (attempt do let _ ← dot; upperName) (dotted (.lower name) ++ rest) := by
      apply Fails.attempt
      apply (mark_leads .dot).fails
      intro _ _
      exact (upperName_refuses (.first rfl rest)).fails
    apply (dottedUpperNames_leads others stops).bind
    rintro _ rfl
    have last : Leads input dottedLowerName (dotted (.lower name) ++ rest) rest (· = name) := by
      apply Leads.attempt
      apply (mark_leads .dot).bind
      intro _ _
      exact lowerName_leads name
    apply last.optional.bind
    rintro _ ⟨_, rfl, rfl⟩
    exact .pure rfl

/-- No field is read where a blank or the end is. -/
theorem dottedLowerName_refuses (apart : Apart rest) : Refuses input dottedLowerName rest :=
  Fails.attempt (token_refuses (by decide) (apart.avoids _)).bind.fails

/-- A name of a constructor is read. -/
theorem nameReference_tag_leads (qualified : QualifiedName) (apart : Apart rest) :
    Leads input nameReference (joinFirst (qualified.pieces .upper ++ rest)) rest
      (· = .tag qualified) := by
  obtain ⟨qualifier, name⟩ := qualified
  have alone : Tells input (Parser.optional dottedLowerName) rest none :=
    (dottedLowerName_refuses apart).optional
  cases qualifier with
  | nil =>
    refine (peekIs_tells_false (by decide) (.first rfl _)).leads ((peekIs_tells_true rfl).leads ?_)
    apply (upperName_leads name).bind
    rintro _ rfl
    apply (dottedUpperNames_leads [] (dottedUpper_refuses apart)).bind
    rintro _ rfl
    exact alone.leads (.pure rfl)
  | cons first others =>
    have shape : QualifiedName.pieces .upper ⟨first :: others, name⟩ ++ rest = .upper first ::
          ((others ++ [name]).flatMap (fun part => dotted (.upper part)) ++ rest) := by
      simp [QualifiedName.pieces]
    rw [shape]
    refine (peekIs_tells_false (by decide) (.first rfl _)).leads ((peekIs_tells_true rfl).leads ?_)
    apply (upperName_leads first).bind
    rintro _ rfl
    apply (dottedUpperNames_leads (others ++ [name]) (dottedUpper_refuses apart)).bind
    rintro _ rfl
    exact alone.leads (.pure (by rw [QualifiedName.ofParts_concat]))

/-- No name is read where none is. -/
theorem nameReference_refuses (avoids : Avoids
      (fun piece => piece.kind == .lowerIdentifier || piece.kind == .upperIdentifier) rest) :
    Refuses input nameReference rest := by
  have notLower : Avoids (·.kind == .lowerIdentifier) rest :=
    avoids.imp fun piece lacks => (Bool.or_eq_false_iff.mp lacks).1
  have notUpper : Avoids (·.kind == .upperIdentifier) rest :=
    avoids.imp fun piece lacks => (Bool.or_eq_false_iff.mp lacks).2
  refine (peekIs_tells_false (by decide) notLower).refuses ?_
  refine (peekIs_tells_false (by decide) notUpper).refuses ?_
  exact fail_refuses _

/-- The symbol of an operator is read. -/
theorem operatorSymbol_leads (symbol : Text) :
    Leads input operatorSymbol (joinFirst (.operator symbol :: rest)) rest (· = symbol) := by
  apply (token_leads rfl).bind
  intro token same
  exact .pure same

/-- No operator is read where none is. -/
theorem operatorSymbol_refuses (avoids : Avoids (·.kind == .operator) rest) :
    Refuses input operatorSymbol rest :=
  (token_refuses (by decide) avoids).bind

/-- An operator in parentheses is read. -/
theorem parenthesizedOperator_leads (symbol : Text) :
    Leads input parenthesizedOperator (joinFirst (parenthesized symbol ++ rest)) rest
      (· = symbol) := by
  apply (mark_leads .leftParen).bind
  intro _ _
  apply (operatorSymbol_leads symbol).bind
  rintro _ rfl
  apply (mark_leads .rightParen).bind
  intro _ _
  exact .pure rfl

/-- No operator in parentheses is read where none follows the first one. -/
theorem parenthesizedOperator_fails (avoids : Avoids (·.kind == .operator) rest) :
    Fails input parenthesizedOperator (joinFirst (.mark .leftParen :: rest)) := by
  apply (mark_leads .leftParen).fails
  intro _ _
  exact (operatorSymbol_refuses avoids).bind.fails

/-- No operator in parentheses is read where no parenthesis is. -/
theorem parenthesizedOperator_refuses (avoids : Avoids (·.kind == .leftParen) rest) :
    Refuses input parenthesizedOperator rest :=
  (token_refuses (by decide) avoids).bind

end Names

/-! ## Literals -/

/-- A text between two equal quotes. -/
def Text.quoted (quote : String) (text : Text) : Text := ofString quote ++ (text ++ ofString quote)

/-- How a literal is written. There is no spelling for floating-point numbers. -/
def Literal.spelling : Literal → Text
  | integer value .decimal => .ofNat value.toNat
  | integer value .hexadecimal => Text.ofString "0x" ++ .inBase 16 value.toNat
  | float _ _ => []
  | character text => text.quoted "'"
  | string text true => text.quoted Scan.tripleQuote
  | string text false => text.quoted "\""
  | boolean true => "True"
  | boolean false => "False"

/-- What sort of token a literal is written as. -/
def Literal.tokenKind : Literal → TokenKind
  | integer _ _ | float _ _ => .number
  | character _ => .char
  | string _ _ => .string
  | boolean _ => .upperIdentifier

/-- The piece of a literal. -/
def Literal.piece (literal : Literal) : Piece := ⟨false, literal.tokenKind, literal.spelling⟩

/-- The literal is no floating-point number, has no line break in it and is a possible lexeme of its
kind. A string on one line does not begin with a quote. -/
def Literal.Lexical : Literal → Prop
  | integer value _ => 0 ≤ value
  | float _ _ => False
  | character text => IsLexeme .char (text.quoted "'") ∧ Text.newline ∉ text
  | string text true => IsLexeme .string (text.quoted Scan.tripleQuote) ∧ Text.newline ∉ text
  | string text false =>
    IsLexeme .string (text.quoted "\"") ∧ text.head? ≠ some (.ofChar '"') ∧ Text.newline ∉ text
  | boolean _ => True

/-- The literal is written as a token that is always a literal. -/
def Literal.isPlain : Literal → Bool
  | boolean _ => false
  | _ => true

/-- A text between quotes has no line break in it, if the text has none. -/
theorem Text.newline_notMem_quoted {quote : String} {text : Text}
    (outside : newline ∉ ofString quote) (inside : newline ∉ text) :
    newline ∉ text.quoted quote := by
  simp [quoted, outside, inside]

/-- A literal that is a possible lexeme can be written. -/
theorem Literal.piece_sound {literal : Literal} (lexical : literal.Lexical) :
    literal.piece.Sound := by
  have isWord : literal.piece.kind.isComment = false ∧ literal.piece.kind ≠ .eof := by
    cases literal <;> exact ⟨rfl, nofun⟩
  match literal with
  | integer value .decimal =>
    refine ⟨isLexeme_ofNat _, isWord, fun isBreak => ?_⟩
    exact absurd ((Text.digitPart_ofNat _).2 _ isBreak) (by decide)
  | integer value .hexadecimal =>
    refine ⟨isLexeme_hexadecimal _, isWord, fun isBreak => ?_⟩
    rcases List.mem_append.mp isBreak with inMark | inDigits
    · exact absurd inMark (by decide)
    · exact absurd ((Text.digitPart_hexadecimal _).2 _ inDigits) (by decide)
  | character text => exact ⟨lexical.1, isWord, Text.newline_notMem_quoted (by decide) lexical.2⟩
  | string text true => exact ⟨lexical.1, isWord, Text.newline_notMem_quoted (by decide) lexical.2⟩
  | string text false =>
    exact ⟨lexical.1, isWord, Text.newline_notMem_quoted (by decide) lexical.2.2⟩
  | boolean true => exact ⟨.of_fronts ⟨_, _, rfl, rfl, rfl⟩, isWord, by decide⟩
  | boolean false => exact ⟨.of_fronts ⟨_, _, rfl, rfl, rfl⟩, isWord, by decide⟩

/-- The spelling of a string stands for the string. -/
theorem Literal.ofString_spelling {text : Text} {multiline : Bool}
    (lexical : (string text multiline).Lexical) :
    ofString (string text multiline).spelling = string text multiline := by
  cases multiline with
  | true =>
    have opens : (Text.ofString "\"\"\"").isPrefixOf (text.quoted Scan.tripleQuote) = true :=
      Scan.opensWith_append Scan.tripleQuote _
    have inside : (text.quoted Scan.tripleQuote).trimEnds 3 3 = text :=
      trimEnds_append (Text.ofString Scan.tripleQuote) text (Text.ofString Scan.tripleQuote)
    rw [spelling, ofString, if_pos opens, inside]
  | false =>
    have opens : ¬ (Text.ofString "\"\"\"").isPrefixOf (text.quoted "\"") = true := by
      intro opens
      obtain ⟨rest, same⟩ := List.isPrefixOf_iff_prefix.mp opens
      cases text with
      | nil =>
        exact absurd (congrArg (List.length) same)
          (by simp [Text.quoted, Text.ofString, Text.ofChars, Text.ofChar])
      | cons u tail =>
        exact lexical.2.1 (congrArg some (List.cons.inj (List.cons.inj same).2).1.symm)
    have inside : (text.quoted "\"").trimEnds 1 1 = text :=
      trimEnds_append (Text.ofString "\"") text (Text.ofString "\"")
    rw [spelling, ofString, if_neg opens, inside]

/-- The spelling of an integer stands for the integer. -/
theorem Literal.ofNumber?_spelling {value : Int} {form : IntegerForm}
    (lexical : (integer value form).Lexical) :
    ofNumber? (integer value form).spelling = some (integer value form) := by
  have same : (value.toNat : Int) = value := Int.toNat_of_nonneg lexical
  cases form with
  | decimal => rw [spelling, ofNumber?_ofNat, same]
  | hexadecimal => rw [spelling, ofNumber?_hexadecimal, same]

/-- The piece is a number, a string or a character. -/
def Piece.isLiteral (piece : Piece) : Bool :=
  piece.kind == .number || piece.kind == .string || piece.kind == .char

/-- A literal is read. -/
theorem literal_leads {l : Literal} {rest : List Piece} (lexical : l.Lexical)
    (plain : l.isPlain = true) :
    Leads input literal (joinFirst (l.piece :: rest)) rest (· = l) := by
  have isLiteral : l.piece.isLiteral = true := by
    cases l with
    | boolean value => cases plain
    | _ => rfl
  apply (satisfy_leads fun token sameKind _ => by rw [sameKind]; exact isLiteral).bind
  rintro ⟨kind, lexeme, span⟩ ⟨rfl, rfl⟩
  cases l with
  | integer value form =>
    have number := Literal.ofNumber?_spelling lexical
    simp only [Literal.piece, Literal.tokenKind, number]
    exact .pure rfl
  | float value form => cases lexical
  | character text =>
    have inside : (text.quoted "'").trimEnds 1 1 = text :=
      trimEnds_append (Text.ofString "'") text (Text.ofString "'")
    refine .pure ?_
    rw [Literal.piece, Literal.spelling, Literal.ofCharacter, inside]
  | string text multiline => exact .pure (Literal.ofString_spelling lexical)
  | boolean value => cases plain

/-- No literal is read where none is. -/
theorem literal_refuses {rest : List Piece} (avoids : Avoids Piece.isLiteral rest) :
    Refuses input literal rest := by
  refine Refuses.bind (satisfy_refuses (fun token isEnd => ?_)
      fun piece first joined token sameKind _ => ?_)
  · rw [isEnd]
    rfl
  · rw [sameKind]
    exact avoids piece first joined

end Marginalia
