import Marginalia.Grammar.Pattern
import Marginalia.Proofs.Writing.Recovery

/-!
# Reading written patterns

Patterns in normal form are read back from their pieces, up to spans, by induction over the levels
of nesting.
-/

namespace Marginalia

open Marginalia.Parser Marginalia.Grammar

open Piece (Apart Opening joinFirst listed enclosed parenthesized opensPattern)

variable {input : Input}

/-- The kinds of pieces that may follow a whole pattern. -/
def Piece.closesPattern (piece : Piece) : Bool :=
  !piece.opensPattern && piece.kind != .operator && piece.kind != .keyword

/-- The parser reads back pattern terms. -/
abbrev RecoversPatternTerms (input : Input) (term : Parser Pattern) (bound : Nat) : Prop :=
  Recovers input term Pattern.pieces (Pattern.view .placeless) (fun p => p.Normal ∧
      p.node.isTerm = true) Apart opensPattern bound

/-- The parser reads back patterns. -/
abbrev RecoversPatterns (input : Input) (pattern : Parser Pattern) (bound : Nat) : Prop :=
  Recovers input pattern Pattern.pieces (Pattern.view .placeless) Pattern.Normal
    (Follows Piece.closesPattern) opensPattern bound

/-- What is seen of a node of a pattern without places. -/
abbrev PatternNode.seen (node : PatternNode Pattern) : PatternNode Pattern :=
  node.view .placeless (Pattern.view .placeless)

/-- A located node is read as a pattern. -/
theorem patternOf_leads {parser : Parser (PatternNode Pattern)} {before after : List Piece}
    {node : PatternNode Pattern}
    (leads : Leads input parser before after fun found => found.seen = node.seen) (span : Span) :
    Leads input (patternOf parser) before after fun found =>
      found.view .placeless = Pattern.view .placeless ⟨span, node⟩ := by
  apply leads.located.bind
  intro found same
  refine .pure ?_
  rw [Pattern.view_mk, Pattern.view_mk]
  exact congrArg (Pattern.mk _) same

/-- A located node is refused where the node is. -/
theorem patternOf_refuses {parser : Parser (PatternNode Pattern)} {before : List Piece}
    (refuses : Refuses input parser before) : Refuses input (patternOf parser) before :=
  refuses.located.bind

/-- Field names in braces are read. -/
theorem recordPattern_leads {fields : List Text} (some : fields ≠ []) (rest : List Piece) :
    Leads input recordPattern (joinFirst (enclosed .leftBrace .rightBrace (listed
      (fields.map fun n => [.lower n])) ++ rest)) rest (· = .record (fields.map .alone)) := by
  have contents :
    Leads input (Parser.group .leftBrace .rightBrace lowerName "'\x7d'") (joinFirst (enclosed
      .leftBrace .rightBrace (listed (fields.map fun n => [.lower n])) ++ rest)) rest fun found =>
        ∃ items', found = (⟨items', []⟩, false) ∧
          items'.map (Commented.map id) = fields.map fun n => .alone (id n) := by
    refine group_leads (by decide) (by decide) (fun n _ => ⟨_, _, rfl, nofun⟩)
      fun n _ kind more _ => ?_
    exact lowerName_leads n
  apply contents.bind
  rintro _ ⟨items', rfl, same⟩
  obtain rfl : items' = fields.map .alone := by
    have identity : (Commented.map id : Commented Text → Commented Text) = id := rfl
    rwa [identity, List.map_id] at same
  cases fields with
  | nil => exact absurd rfl some
  | cons first others => exact .pure rfl

/-- Patterns in parentheses: none, one or several. -/
def tupleOfPatterns : List Pattern → PatternNode Pattern
  | [] => .unit []
  | [only] => .parens (.alone only)
  | elements => .tuple (elements.map .alone)

/-- Patterns in square brackets: none or some. -/
def listOfPatterns : List Pattern → PatternNode Pattern
  | [] => .emptyList []
  | elements => .list (elements.map .alone)

/-- What is written in parentheses. -/
theorem pieces_tupleOfPatterns (elements : List Pattern) :
    (tupleOfPatterns elements).pieces Pattern.pieces =
      enclosed .leftParen .rightParen (listed (elements.map Pattern.pieces)) := by
  match elements with
  | [] => rfl
  | [p] => simp [tupleOfPatterns, PatternNode.pieces, Piece.listed, Piece.between, Commented.alone]
  | p :: q :: more =>
    exact congrArg (fun parts => enclosed .leftParen .rightParen (listed parts))
      (map_alone (p :: q :: more) Pattern.pieces)

/-- What is written in square brackets. -/
theorem pieces_listOfPatterns (elements : List Pattern) :
    (listOfPatterns elements).pieces Pattern.pieces =
      enclosed .leftBracket .rightBracket (listed (elements.map Pattern.pieces)) := by
  cases elements with
  | nil => rfl
  | cons p more =>
    exact congrArg (fun parts => enclosed .leftBracket .rightBracket (listed parts))
      (map_alone (p :: more) Pattern.pieces)

/-- The pattern is written as one word. -/
def PatternNode.isWord : PatternNode Pattern → Bool
  | anything | name _ | literal _ => true
  | data _ arguments => arguments.isEmpty
  | _ => false

section Over

variable {pattern : Parser Pattern} {bound : Nat} (recovers : RecoversPatterns input pattern bound)

include recovers

/-- Patterns in brackets are read back. -/
theorem patternGroup_leads {elements : List Pattern} {opening close : TokenKind} (label : String)
    (normal : ∀ p ∈ elements, p.Normal)
    (small : (listed (elements.map Pattern.pieces)).length < bound)
    (closes : close = .rightParen ∨ close = .rightBracket) (rest : List Piece) :
    Leads input (Parser.group opening close pattern label) (joinFirst
      (enclosed opening close (listed (elements.map Pattern.pieces)) ++ rest)) rest fun found =>
        ∃ items', found = (⟨items', []⟩, false) ∧
          items'.map (Commented.map (Pattern.view .placeless)) = elements.map fun p =>
          .alone (p.view .placeless) := by
  refine recovers.group normal (fun p member => (normal p member).opening) small ?_ ?_
    (fun piece opens isClose => ?_) fun kind more isMark => ?_
  · rcases closes with rfl | rfl <;> decide
  · rcases closes with rfl | rfl <;> decide
  · rcases closes with rfl | rfl <;> simp [opensPattern, isClose] at opens
  · rcases closes with rfl | rfl <;> rcases isMark with rfl | rfl <;> exact .first rfl rfl more

/-- Patterns in parentheses are read back. -/
theorem tuplePattern_leads {elements : List Pattern} (normal : ∀ p ∈ elements, p.Normal)
    (small : (listed (elements.map Pattern.pieces)).length < bound) (rest : List Piece) :
    Leads input (tuplePattern pattern) (joinFirst (enclosed .leftParen .rightParen
      (listed (elements.map Pattern.pieces)) ++ rest)) rest fun found =>
        found.seen = (tupleOfPatterns elements).seen := by
  apply (patternGroup_leads recovers _ normal small (.inl rfl) rest).bind
  rintro _ ⟨items', rfl, same⟩
  match items', elements with
  | [], [] => exact .pure rfl
  | [only], [p] =>
    refine .pure ?_
    have value := (List.cons.inj same).1
    exact congrArg PatternNode.parens value
  | first :: second :: others, p :: q :: more =>
    refine .pure ?_
    simp only [PatternNode.seen, tupleOfPatterns, PatternNode.view, Commented.view_placeless,
      map_map_alone]
    rw [same]
  | [], _ :: _ | _ :: _, [] => cases same
  | [_], _ :: _ :: _ | _ :: _ :: _, [_] => cases (List.cons.inj same).2

/-- Patterns in square brackets are read back. -/
theorem listPattern_leads {elements : List Pattern} (normal : ∀ p ∈ elements, p.Normal)
    (small : (listed (elements.map Pattern.pieces)).length < bound) (rest : List Piece) :
    Leads input (listPattern pattern) (joinFirst (enclosed .leftBracket .rightBracket
      (listed (elements.map Pattern.pieces)) ++ rest)) rest fun found =>
        found.seen = (listOfPatterns elements).seen := by
  apply (patternGroup_leads recovers _ normal small (.inr rfl) rest).bind
  rintro _ ⟨items', rfl, same⟩
  match items', elements with
  | [], [] => exact .pure rfl
  | first :: others, p :: more =>
    refine .pure ?_
    simp only [PatternNode.seen, listOfPatterns, PatternNode.view, Commented.view_placeless,
      map_map_alone]
    rw [same]
  | [], _ :: _ | _ :: _, [] => cases same

end Over

/-- The next piece is no underscore. -/
theorem underscore_tells_false {before : List Piece} (avoids : Avoids
      (fun piece => piece.kind == .lowerIdentifier && piece.lexeme == Text.ofString "_") before) :
    Tells input (peekSpelled .lowerIdentifier (Text.ofString "_")) before false := by
  refine peekThat_tells_false (fun token isEnd => ?_)
    fun piece first joined token sameKind sameLexeme => ?_
  · rw [isEnd]
    rfl
  · rw [sameKind, sameLexeme]
    exact avoids piece first joined

/-- A pattern of one word is read. -/
theorem wordPattern_leads {node : PatternNode Pattern} {span : Span}
    (normal : Pattern.Normal ⟨span, node⟩) (word : node.isWord = true)
    {rest : List Piece} (apart : Apart rest) :
    Leads input wordPattern (joinFirst (node.pieces Pattern.pieces ++ rest)) rest (· = node) := by
  cases normal with
  | anything =>
    refine (peekThat_tells_true fun token sameKind sameLexeme => ?_).leads ?_
    · rw [sameKind, sameLexeme]
      decide
    · apply (token_leads rfl).bind
      intro _ _
      exact .pure rfl
  | @name _ n lexical binds =>
    refine (underscore_tells_false (.first ?_ rest)).leads ((peekIs_tells_true rfl).leads ?_)
    · simpa [Piece.lower, Piece.join] using binds
    · apply (lowerName_leads n).bind
      rintro _ rfl
      exact .pure rfl
  | @literal _ l lexical plain =>
    have notLower : (l.piece.join.kind == .lowerIdentifier) = false := by
      cases l <;> rfl
    have notUpper : (l.piece.join.kind == .upperIdentifier) = false := by
      cases l with
      | boolean value => cases plain
      | _ => rfl
    refine (underscore_tells_false (.first ?_ rest)).leads ?_
    · rw [notLower]
      rfl
    refine (peekIs_tells_false (by decide) (.first notLower rest)).leads ?_
    refine (peekIs_tells_false (by decide) (.first notUpper rest)).leads ?_
    apply (literal_leads lexical plain).bind
    rintro _ rfl
    exact .pure rfl
  | @data _ tag arguments lexical =>
    obtain rfl : arguments = [] := by simpa [PatternNode.isWord] using word
    have shape :
        (PatternNode.data tag ([].map Commented.alone)).pieces Pattern.pieces = tag.pieces .upper :=
      List.append_nil _
    rw [shape]
    obtain ⟨name, more, begins⟩ := tag.pieces_upper
    have parts := @qualifiedUpperName_leads input _ tag apart
    rw [begins] at parts ⊢
    refine (underscore_tells_false (.first rfl _)).leads ?_
    refine (peekIs_tells_false (by decide) (.first rfl _)).leads ((peekIs_tells_true rfl).leads ?_)
    apply parts.bind
    rintro _ rfl
    exact .pure rfl
  | _ => cases word

/-- A term of a pattern refuses what no pattern begins with. -/
theorem patternTermOver_refuses {pattern : Parser Pattern} {before : List Piece}
    (avoids : Avoids opensPattern before) : Refuses input (patternTermOver pattern) before := by
  apply Refuses.expecting
  apply patternOf_refuses
  apply Refuses.choice
  simp only [List.forall_mem_cons, List.not_mem_nil, false_imp_iff, implies_true, and_true]
  refine ⟨?_, ?_, ?_, ?_⟩
  · exact (group_refuses (by decide)
        (avoids.kind fun piece same => by simp [opensPattern, same])).bind
  · exact (group_refuses (by decide)
        (avoids.kind fun piece same => by simp [opensPattern, same])).bind
  · exact (group_refuses (by decide)
        (avoids.kind fun piece same => by simp [opensPattern, same])).bind
  · have notLower : Avoids (·.kind == .lowerIdentifier) before := avoids.kind fun piece same => by
      simp [opensPattern, same]
    have notUpper : Avoids (·.kind == .upperIdentifier) before := avoids.kind fun piece same => by
      simp [opensPattern, same]
    refine (underscore_tells_false (notLower.imp fun piece lacks => by rw [lacks]; rfl)).refuses ?_
    refine (peekIs_tells_false (by decide) notLower).refuses
      ((peekIs_tells_false (by decide) notUpper).refuses ?_)
    refine (literal_refuses (avoids.imp fun piece lacks => ?_)).bind
    obtain ⟨joined, kind, lexeme⟩ := piece
    cases kind <;> first | rfl | cases lacks

/-- A pattern of one word begins with no bracket. -/
theorem isWord_begins {node : PatternNode Pattern} {span : Span}
    (normal : Pattern.Normal ⟨span, node⟩) (word : node.isWord = true) (rest : List Piece) :
    Avoids (fun piece => piece.kind == .leftBrace || piece.kind == .leftParen || piece.kind ==
      .leftBracket) (joinFirst (node.pieces Pattern.pieces ++ rest)) := by
  cases normal with
  | anything => exact .first rfl rest
  | name lexical binds => exact .first rfl rest
  | @literal _ l lexical plain =>
    refine .first ?_ rest
    cases l <;> rfl
  | @data _ tag arguments lexical =>
    obtain ⟨name, more, begins⟩ := tag.pieces_upper
    rw [PatternNode.pieces, begins]
    exact .first rfl _
  | _ => cases word

/-- Terms of patterns are read back, if the patterns inside them are. -/
theorem patternTermOver_recovers {pattern : Parser Pattern} {bound : Nat}
    (recovers : RecoversPatterns input pattern bound) :
    RecoversPatternTerms input (patternTermOver pattern) (bound + 1) := by
  refine ⟨?_, fun _ before avoids => patternTermOver_refuses avoids⟩
  rintro ⟨span, node⟩ ⟨normal, term⟩ small rest apart
  rw [Pattern.pieces_mk] at small ⊢
  refine Leads.expecting (patternOf_leads ?_ span)
  -- Whatever is no word stands in brackets, and the first bracket tells the rule.
  have parenthesized :
      ∀ elements : List Pattern, node = tupleOfPatterns elements → (∀ p ∈ elements, p.Normal) →
        Leads input (choice [recordPattern, tuplePattern pattern, listPattern pattern, wordPattern])
        (joinFirst (node.pieces Pattern.pieces ++ rest)) rest fun found =>
        found.seen = node.seen := by
    rintro elements rfl each
    rw [pieces_tupleOfPatterns] at small ⊢
    rw [Piece.length_enclosed] at small
    refine Leads.choice_later (group_refuses (by decide) (.first rfl _)).bind fun _ =>
      Leads.choice_here ?_
    exact tuplePattern_leads recovers each (by omega) rest
  have bracketed :
      ∀ elements : List Pattern, node = listOfPatterns elements → (∀ p ∈ elements, p.Normal) →
        Leads input (choice [recordPattern, tuplePattern pattern, listPattern pattern, wordPattern])
        (joinFirst (node.pieces Pattern.pieces ++ rest)) rest fun found =>
        found.seen = node.seen := by
    rintro elements rfl each
    rw [pieces_listOfPatterns] at small ⊢
    rw [Piece.length_enclosed] at small
    refine Leads.choice_later (group_refuses (by decide) (.first rfl _)).bind fun _ => ?_
    refine Leads.choice_later (group_refuses (by decide) (.first rfl _)).bind fun _ =>
      Leads.choice_here ?_
    exact listPattern_leads recovers each (by omega) rest
  have word :
      node.isWord = true → Leads input (choice [recordPattern, tuplePattern pattern, listPattern
        pattern, wordPattern]) (joinFirst (node.pieces Pattern.pieces ++ rest)) rest fun found =>
        found.seen = node.seen := by
    intro isWord
    have begins := @isWord_begins node span normal isWord rest
    refine Leads.choice_later
      (group_refuses (by decide) (begins.kind fun _ same => by simp [same])).bind fun _ => ?_
    refine Leads.choice_later
      (group_refuses (by decide) (begins.kind fun _ same => by simp [same])).bind fun _ => ?_
    refine Leads.choice_later
      (group_refuses (by decide) (begins.kind fun _ same => by simp [same])).bind fun _ => ?_
    exact Leads.choice_here ((wordPattern_leads normal isWord apart).imp fun _ same => by rw [same])
  cases normal with
  | anything => exact word rfl
  | literal lexical plain => exact word rfl
  | name lexical binds => exact word rfl
  | data lexical normal terms => exact word term
  | unit => exact parenthesized [] rfl (by simp)
  | @parens _ p normal => exact parenthesized [p] rfl (by simpa using normal)
  | @tuple _ elements normal several =>
    refine parenthesized elements ?_ normal
    match elements, several with
    | _ :: _ :: _, _ => rfl
  | emptyList => exact bracketed [] rfl (by simp)
  | @list _ elements normal some =>
    refine bracketed elements ?_ normal
    match elements, some with
    | _ :: _, _ => rfl
  | @record _ fields lexical some =>
    refine Leads.choice_here ?_
    rw [PatternNode.pieces, map_alone _ fun n => [Piece.lower n]]
    exact (recordPattern_leads some rest).imp fun _ same => by rw [same]
  | cons | named => cases term

/-- The kinds of pieces that may follow an operand of a pattern. -/
def Piece.closesPatternOperand (piece : Piece) : Bool := !piece.opensPattern

/-- An operand that is no constructor is a term. -/
theorem PatternNode.isTerm_of_isOperand {node : PatternNode Pattern}
    (operand : node.isOperand = true) (noData : ∀ tag arguments, node ≠ .data tag arguments) :
    node.isTerm = true := by
  cases node with
  | data => exact absurd rfl (noData _ _)
  | operator | cons | named => cases operand
  | _ => rfl

/-- Only a constructor begins with an upper-case name. -/
theorem Pattern.Normal.not_upper {p : Pattern} (normal : p.Normal) (term : p.node.isOperand = true)
    (noData : ∀ tag arguments, p.node ≠ .data tag arguments) (rest : List Piece) :
    Avoids (·.kind == .upperIdentifier) (joinFirst (p.pieces ++ rest)) := by
  cases normal with
  | data => exact absurd rfl (noData _ _)
  | cons | named => cases term
  | @literal _ l lexical plain =>
    rw [Pattern.pieces_mk]
    refine .first ?_ rest
    cases l with
    | boolean value => cases plain
    | _ => rfl
  | _ =>
    rw [Pattern.pieces_mk]
    exact .first rfl _

/-- Operands of patterns with `::` between them: one, or several. -/
def consOfPatterns (first : Pattern) : List Pattern → Pattern
  | [] => first
  | rest => ⟨⟨.start, .start⟩, .cons (.alone first) (rest.map .alone)⟩

/-- A pattern without a name for the whole is one operand, or several with `::` between them. -/
theorem Pattern.Normal.operands {p : Pattern} (normal : p.Normal)
    (unnamed : p.node.isNamed = false) :
    ∃ first others, (∀ q ∈ first :: others, q.Normal) ∧
      (∀ q ∈ first :: others, q.node.isOperand = true) ∧
      p.pieces = Piece.between (.operator "::") ((first :: others).map Pattern.pieces) ∧
      p.view .placeless = (consOfPatterns first others).view .placeless := by
  have alone : p.node.isOperand = true → ∃ first others, (∀ q ∈ first :: others, q.Normal) ∧
      (∀ q ∈ first :: others, q.node.isOperand = true) ∧
      p.pieces = Piece.between (.operator "::") ((first :: others).map Pattern.pieces) ∧
      p.view .placeless = (consOfPatterns first others).view .placeless :=
    fun operand => ⟨p, [], by simpa using normal, by simpa using operand,
      (List.append_nil _).symm, rfl⟩
  cases normal with
  | @cons span first rest normal operands some =>
    refine ⟨first, rest, normal, operands, ?_, ?_⟩
    · rw [Pattern.pieces_mk, PatternNode.pieces, map_alone]
      rfl
    · obtain ⟨second, others, rfl⟩ := List.exists_cons_of_ne_nil some
      rw [consOfPatterns, Pattern.view_mk, Pattern.view_mk]
      · rfl
      · rintro ⟨⟩
  | named => cases unnamed
  | _ => exact alone rfl

section Terms

variable {term : Parser Pattern} {bound : Nat} (recovers : RecoversPatternTerms input term bound)

include recovers

/-- Operands of patterns are read back, if terms are. -/
theorem patternOperand_leads {p : Pattern} (normal : p.Normal) (operand : p.node.isOperand = true)
    (small : p.pieces.length < bound) {rest : List Piece}
    (follows : Follows Piece.closesPatternOperand rest) :
    Leads input (patternOperand term) (joinFirst (p.pieces ++ rest)) rest fun found =>
      found.view .placeless = p.view .placeless := by
  by_cases isData : ∃ tag arguments, p.node = .data tag arguments
  · cases normal with
    | @data span tag arguments lexical normal terms =>
      rw [Pattern.pieces_mk, PatternNode.pieces, flatMap_alone] at small ⊢
      have upper : Tells input (peekIs .upperIdentifier)
          (joinFirst (tag.pieces .upper ++ arguments.flatMap Pattern.pieces ++ rest)) true := by
        obtain ⟨name, more, begins⟩ := tag.pieces_upper
        rw [begins]
        exact peekIs_tells_true rfl
      refine upper.leads (patternOf_leads ?_ span)
      refine recovers.constructed (fun p member => ⟨normal p member, terms p member⟩)
        (fun p member => (normal p member).opening) small follows (fun piece closes => ?_)
        fun found same => ?_
      · have lacks : piece.opensPattern = false := by
          simpa [Piece.closesPatternOperand] using closes
        exact lacks
      · simp only [PatternNode.seen, PatternNode.view, Commented.view_placeless, map_map_alone]
        rw [same]
    | _ => simp at isData
  · have noData : ∀ tag arguments, p.node ≠ .data tag arguments :=
      fun tag arguments same => isData ⟨tag, arguments, same⟩
    refine (peekIs_tells_false (by decide) (normal.not_upper operand noData rest)).leads ?_
    exact recovers.leads p ⟨normal, PatternNode.isTerm_of_isOperand operand noData⟩ small
      rest follows.apart

/-- Chains of operands of patterns are read back, if terms are. -/
theorem consPattern_leads {first : Pattern} {others : List Pattern}
    (normal : ∀ p ∈ first :: others, p.Normal)
    (operands : ∀ p ∈ first :: others, p.node.isOperand = true)
    (small : (Piece.between (.operator "::") ((first :: others).map Pattern.pieces)).length < bound)
    {rest : List Piece} (follows : Follows Piece.closesPatternOperand rest)
    (noOperator : Avoids (·.kind == .operator) (joinFirst rest)) :
    Leads input (consPattern term) (joinFirst (Piece.between (.operator "::")
      ((first :: others).map Pattern.pieces) ++ rest)) rest fun found =>
        found.view .placeless = (consOfPatterns first others).view .placeless := by
  have stops : Refuses input (operator "::") (joinFirst rest) :=
    spelled_refuses (by decide) (noOperator.imp fun piece lacks => by rw [lacks]; rfl)
  have chain : Leads input (joined (operator "::") (patternOperand term)) (joinFirst (Piece.between
      (.operator "::") ((first :: others).map Pattern.pieces) ++ rest)) rest fun found =>
        (found.1.map (Pattern.view .placeless), found.2.map
            (Commented.map (Pattern.view .placeless))) = (Commented.alone (first.view .placeless),
          others.map fun p => .alone (p.view .placeless)) := by
    refine joined_leads (fun more => spelled_leads rfl rfl)
      (fun more => .first rfl rfl more) follows ?_ stops
    intro p member after follows'
    have short : p.pieces.length ≤
          (Piece.between (.operator "::") ((first :: others).map Pattern.pieces)).length :=
      Piece.length_le_between member
    exact patternOperand_leads recovers (normal p member) (operands p member) (by omega) follows'
  apply position_leads.bind
  intro start _
  apply chain.bind
  rintro ⟨found, links⟩ same
  have sameFirst : found.map (Pattern.view .placeless) = .alone (first.view .placeless) :=
    (Prod.mk.inj same).1
  have sameLinks : links.map (Commented.map (Pattern.view .placeless)) = others.map fun p =>
        .alone (p.view .placeless) :=
    (Prod.mk.inj same).2
  match links, others, sameLinks with
  | [], [], _ => exact .pure (congrArg Commented.value sameFirst)
  | link :: links, p :: others, sameLinks =>
    apply position_leads.bind
    intro stop _
    refine .pure ?_
    simp only [consOfPatterns, Pattern.view_mk, PatternNode.view, Commented.view_placeless,
      map_map_alone]
    rw [sameFirst, sameLinks]
    rfl

/-- Patterns without a name for the whole are read back, if terms are. -/
theorem unnamedPattern_leads {p : Pattern} (normal : p.Normal) (unnamed : p.node.isNamed = false)
    (small : p.pieces.length < bound) {rest : List Piece}
    (follows : Follows Piece.closesPatternOperand rest)
    (noOperator : Avoids (·.kind == .operator) (joinFirst rest)) :
    Leads input (consPattern term) (joinFirst (p.pieces ++ rest)) rest fun found =>
      found.view .placeless = p.view .placeless := by
  obtain ⟨first, others, normals, operands, pieces, seen⟩ := normal.operands unnamed
  rw [pieces] at small ⊢
  rw [seen]
  exact consPattern_leads recovers normals operands small follows noOperator

/-- Whole patterns are read back, if terms are. -/
theorem patternOver_recovers : RecoversPatterns input (patternOver term) bound := by
  refine ⟨fun p normal small rest follows => Leads.expecting ?_, fun positive before avoids =>
      Refuses.expecting ?_⟩
  · apply position_leads.bind
    intro start _
    have closes : Follows Piece.closesPatternOperand rest := follows.imp fun piece closes => by
      simp only [Piece.closesPattern, Bool.and_eq_true] at closes
      exact closes.1.1
    have noOperator : Avoids (·.kind == .operator) (joinFirst rest) :=
      follows.avoids fun piece closes => by
      simp only [Piece.closesPattern, Bool.and_eq_true, bne_iff_ne] at closes
      exact beq_eq_false_iff_ne.mpr closes.1.2
    have noKeyword : Avoids (·.kind == .keyword) (joinFirst rest) :=
      follows.avoids fun piece closes => by
      simp only [Piece.closesPattern, Bool.and_eq_true, bne_iff_ne] at closes
      exact beq_eq_false_iff_ne.mpr closes.2
    by_cases unnamed : p.node.isNamed = false
    · apply (unnamedPattern_leads recovers normal unnamed small closes noOperator).bind
      intro found same
      have noAlias : Refuses input aliasKeyword rest := by
        apply Fails.attempt
        apply whitespace_leads.fails
        rintro _ rfl
        exact (spelled_refuses (by decide)
            (noKeyword.imp fun piece lacks => by rw [lacks]; rfl)).bind.fails
      exact noAlias.optional.leads (.pure same)
    · cases normal with
      | @named span inner n normal innerUnnamed lexical =>
        rw [Pattern.pieces_mk, PatternNode.pieces] at small ⊢
        rw [List.append_assoc]
        have inside : inner.pieces.length < bound := by
          rw [List.length_append] at small
          exact Nat.lt_of_le_of_lt (Nat.le_add_right _ _) small
        apply (unnamedPattern_leads recovers normal innerUnnamed inside (.first rfl rfl _)
            (.first rfl _)).bind
        intro found same
        have keywordAs : Leads input aliasKeyword (.keyword "as" :: .lower n :: rest)
              (.lower n :: rest) (· = []) := by
          apply Leads.attempt
          apply whitespace_leads.bind
          rintro _ rfl
          apply (spelled_leads rfl rfl).bind
          intro _ _
          exact .pure rfl
        apply keywordAs.optional.bind
        rintro _ ⟨_, rfl, rfl⟩
        apply whitespace_leads.bind
        rintro _ rfl
        apply (lowerName_leads n).bind
        rintro _ rfl
        apply position_leads.bind
        intro stop _
        refine .pure ?_
        rw [Pattern.view_mk, Pattern.view_mk, PatternNode.view, Commented.view_placeless,
          Commented.post, Commented.map, same]
        rfl
      | _ => exact absurd rfl unnamed
  · have notUpper : Avoids (·.kind == .upperIdentifier) before := avoids.kind fun piece same => by
      simp [opensPattern, same]
    refine position_refuses fun start =>
      Refuses.bind (position_refuses fun place => Refuses.bind (Refuses.bind ?_))
    exact (peekIs_tells_false (by decide) notUpper).refuses
      (recovers.refuses positive before avoids)

end Terms

/-- Terms of patterns with fewer pieces than levels are read back. -/
theorem patternTermWithin_recovers (levels : Nat) :
    RecoversPatternTerms input (patternTermWithin levels) levels := by
  induction levels with
  | zero =>
    exact ⟨fun _ _ short => absurd short (Nat.not_lt_zero _),
      fun positive => absurd positive (Nat.lt_irrefl 0)⟩
  | succ levels ih => exact patternTermOver_recovers (patternOver_recovers ih)

/-- Terms of patterns are read back. -/
theorem patternTerm_recovers : RecoversPatternTerms input patternTerm input.nestingLimit :=
  (patternTermWithin_recovers input.nestingLimit).congr rfl

/-- Patterns are read back. -/
theorem pattern_recovers : RecoversPatterns input pattern input.nestingLimit :=
  patternOver_recovers patternTerm_recovers

/-- An operator in parentheses is no term of a pattern. -/
theorem patternTermOver_fails {pattern : Parser Pattern} {bound : Nat}
    (recovers : RecoversPatterns input pattern bound) (positive : 0 < bound)
    (symbol : Text) (rest : List Piece) :
    Fails input (patternTermOver pattern) (joinFirst (parenthesized symbol ++ rest)) := by
  have inside : Fails input (Parser.group .leftParen .rightParen pattern "')'")
        (joinFirst (parenthesized symbol ++ rest)) := by
    refine Fails.trackNewline ((mark_leads .leftParen).fails fun _ _ => ?_)
    exact separated_fails (by decide) (.first rfl _) (recovers.refuses positive _ (.first rfl _))
  have noWord : Refuses input wordPattern (joinFirst (parenthesized symbol ++ rest)) := by
    refine (underscore_tells_false (.first rfl _)).refuses ?_
    refine (peekIs_tells_false (by decide) (.first rfl _)).refuses
      ((peekIs_tells_false (by decide) (.first rfl _)).refuses ?_)
    exact (literal_refuses (.first rfl _)).bind
  have alternatives : Fails input (choice [recordPattern, tuplePattern pattern, listPattern pattern,
        wordPattern]) (joinFirst (parenthesized symbol ++ rest)) := by
    refine Fails.choice ?_
    simp only [List.forall_mem_cons, List.not_mem_nil, false_imp_iff, implies_true, and_true]
    refine ⟨?_, inside.bind, ?_, noWord.fails⟩
    · exact (group_refuses (by decide) (.first rfl _)).bind.fails
    · exact (group_refuses (by decide) (.first rfl _)).bind.fails
  exact Fails.expecting (position_leads.fails fun _ _ => alternatives.bind).bind

/-- An operator in parentheses is no term of a pattern, at any level of nesting. -/
theorem patternTerm_fails (symbol : Text) (rest : List Piece) :
    Fails input patternTerm (joinFirst (parenthesized symbol ++ rest)) := by
  have inner : RecoversPatterns input (patternOver (patternTermWithin (input.tokens.size + 1)))
        (input.tokens.size + 1) :=
    patternOver_recovers (patternTermWithin_recovers _)
  exact fun start ahead => patternTermOver_fails inner (Nat.succ_pos _) symbol rest start ahead

end Marginalia
