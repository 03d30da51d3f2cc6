import Marginalia.Proofs.Writing.Pattern
import Marginalia.Proofs.Writing.Term
import Marginalia.Proofs.Writing.TypeExpression

/-!
# Reading written declarations

Definitions and signatures are read back from their pieces. A signature is tried first, so every
definition is shown to lack the colon of one; and a pattern is tried before an operator in
parentheses, which is none.
-/

namespace Marginalia

open Marginalia.Parser Marginalia.Grammar

open Piece (Apart Phrase Opening joinFirst parenthesized enclosed opensPattern mark_sound)

variable {input : Input}

/-! ## Arguments -/

/-- Arguments are read back up to a mark that no pattern begins with. -/
theorem spacedPatterns_leads {arguments : List Pattern} (normal : ∀ p ∈ arguments, p.Normal)
    (terms : ∀ p ∈ arguments, p.node.isTerm = true) {kind : TokenKind}
    (ends : (Piece.mark kind).opensPattern = false) (rest : List Piece) :
    Leads input (spaced patternTerm) (arguments.flatMap Pattern.pieces ++ .mark kind :: rest)
      (.mark kind :: rest) fun found => found.map (Commented.map (Pattern.view .placeless)) =
      arguments.map fun p => .alone (p.view .placeless) := by
  have each : ∀ p ∈ arguments, ∀ after, Apart after →
        Leads input patternTerm (joinFirst (p.pieces ++ after)) after fun found =>
        found.view .placeless = p.view .placeless :=
    fun p member _ apart => patternTerm_recovers.anywhere ⟨normal p member, terms p member⟩ apart
  have stops : Refuses input patternTerm (joinFirst (.mark kind :: rest)) :=
    patternTerm_recovers.refuses (Nat.succ_pos _) _ (.first ends rest)
  exact spaced_leads (fun p member => (normal p member).opening.phrase.apart) (fun p member =>
      (normal p member).opening.solid) each (fun _ first => Option.some.inj first ▸ rfl) stops

/-- Arguments and a mark behind them stand apart from what is before them. -/
theorem arguments_apart {arguments : List Pattern} (normal : ∀ p ∈ arguments, p.Normal)
    (kind : TokenKind) (rest : List Piece) :
    Apart (arguments.flatMap Pattern.pieces ++ .mark kind :: rest) := by
  cases arguments with
  | nil => exact fun _ first => Option.some.inj first ▸ rfl
  | cons p others =>
    have opening := (normal p (.head _)).opening
    rw [List.flatMap_cons, List.append_assoc]
    exact opening.phrase.apart.append opening.solid _

/-- No colon is where arguments and an equals sign are. -/
theorem arguments_avoid_colon {arguments : List Pattern}
    (normal : ∀ p ∈ arguments, p.Normal) (rest : List Piece) :
    Avoids (·.kind == .colon)
      (joinFirst (arguments.flatMap Pattern.pieces ++ .mark .equals :: rest)) := by
  cases arguments with
  | nil => exact .first rfl rest
  | cons p others =>
    obtain ⟨-, first, more, same, opens⟩ := (normal p (.head _)).opening
    rw [List.flatMap_cons, same]
    refine .first ?_ _
    obtain ⟨joined, kind, lexeme⟩ := first
    cases kind <;> first | rfl | cases opens

/-! ## Definitions -/

namespace Pattern

/-- The arguments of a definition are terms in normal form. -/
theorem Defines.arguments {pattern : Pattern} {arguments : List Pattern}
    (defines : pattern.Defines arguments) :
    (∀ p ∈ arguments, p.Normal) ∧ ∀ p ∈ arguments, p.node.isTerm = true := by
  cases defines with
  | name lexical binds normal terms => exact ⟨normal, terms⟩
  | operator lexical normal terms => exact ⟨normal, terms⟩
  | pattern normal term => exact ⟨by simp, by simp⟩

/-- What is seen as a name is one. -/
theorem node_of_view_name {p : Pattern} {span : Span} {n : Text}
    (same : p.view .placeless = view .placeless ⟨span, .name n⟩) : p.node = .name n := by
  obtain ⟨_, node⟩ := p
  have nodes : node.view .placeless (view .placeless) = .name n := by
    rw [view_mk, view_mk] at same
    exact (Pattern.mk.inj same).2
  cases node <;> first | exact nodes | cases nodes

/-- What is seen as an operator is one. -/
theorem node_of_view_operator {p : Pattern} {span : Span} {symbol : Text}
    (same : p.view .placeless = view .placeless ⟨span, .operator symbol⟩) :
    p.node = .operator symbol := by
  obtain ⟨_, node⟩ := p
  have nodes : node.view .placeless (view .placeless) = .operator symbol := by
    rw [view_mk, view_mk] at same
    exact (Pattern.mk.inj same).2
  cases node <;> first | exact nodes | cases nodes

end Pattern

/-- What is defined is read back. -/
theorem defined_leads {pattern : Pattern} {arguments : List Pattern}
    (defines : pattern.Defines arguments) {rest : List Piece} (apart : Apart rest) :
    Leads input (choice [attempt patternTerm,
      patternOf do return .operator (← parenthesizedOperator)]) (joinFirst (pattern.pieces ++ rest))
      rest fun found => found.view .placeless = pattern.view .placeless := by
  cases defines with
  | name lexical binds normal terms =>
    exact Leads.choice_here (patternTerm_recovers.anywhere ⟨.name lexical binds, rfl⟩ apart).attempt
  | pattern normal term =>
    exact Leads.choice_here (patternTerm_recovers.anywhere ⟨normal, term⟩ apart).attempt
  | @operator span symbol _ lexical normal terms =>
    rw [Pattern.pieces_mk]
    refine Leads.choice_later (patternTerm_fails symbol rest).attempt fun _ =>
      Leads.choice_here (patternOf_leads ?_ span)
    apply (parenthesizedOperator_leads symbol).bind
    rintro _ rfl
    exact .pure rfl

/-- The name or pattern that is defined and its arguments are read back. -/
theorem definitionHead_leads {pattern : Pattern} {arguments : List Pattern}
    (defines : pattern.Defines arguments) (rest : List Piece) :
    Leads input definitionHead
      (joinFirst (pattern.pieces ++ (arguments.flatMap Pattern.pieces ++ .mark .equals :: rest)))
      (.mark .equals :: rest) fun found => found.1.view .placeless = pattern.view .placeless ∧
    found.2.map (Commented.map (Pattern.view .placeless)) = arguments.map fun p =>
      .alone (p.view .placeless) := by
  obtain ⟨normal, terms⟩ := defines.arguments
  have others := @spacedPatterns_leads input _ normal terms .equals rfl rest
  apply Leads.expecting
  apply (defined_leads defines (arguments_apart normal .equals rest)).bind
  rintro ⟨span, node⟩ same
  have spacedArguments :
    Leads input (do return ((⟨span, node⟩ : Pattern), ← spaced patternTerm)) (arguments.flatMap
      Pattern.pieces ++ .mark .equals :: rest) (.mark .equals :: rest) fun found =>
        found.1.view .placeless = pattern.view .placeless ∧
          found.2.map (Commented.map (Pattern.view .placeless)) = arguments.map fun p =>
          .alone (p.view .placeless) := by
    apply others.bind
    intro found sameArguments
    exact .pure ⟨same, sameArguments⟩
  cases defines with
  | name lexical binds normal terms =>
    obtain rfl : node = .name _ := Pattern.node_of_view_name same
    exact spacedArguments
  | operator lexical normal terms =>
    obtain rfl : node = .operator _ := Pattern.node_of_view_operator same
    exact spacedArguments
  | pattern normal term =>
    cases node with
    | name | operator => exact spacedArguments
    | _ => exact .pure ⟨same, rfl⟩

/-- How a term of a pattern begins: with a single name, with a parenthesis and something apart from
it, or otherwise. -/
theorem Pattern.Normal.begins {p : Pattern} (normal : p.Normal) (term : p.node.isTerm = true) :
    (∃ n, p.pieces = [.lower n]) ∨
    (∃ more, p.pieces = .mark .leftParen :: more ∧ Apart more ∧ more ≠ []) ∨ ∃ first more,
      p.pieces = first :: more ∧ first.kind ≠ .lowerIdentifier ∧ first.kind ≠ .leftParen := by
  have parenthesized : ∀ inner, Phrase inner → p.pieces = enclosed .leftParen .rightParen inner →
      ∃ more, p.pieces = .mark .leftParen :: more ∧ Apart more ∧ more ≠ [] := by
    intro inner phrase same
    have closed := phrase.append ((@mark_sound .rightParen rfl).phrase rfl)
    exact ⟨_, same, closed.apart, by simp⟩
  cases normal with
  | anything => exact .inl ⟨_, pieces_mk _ _⟩
  | name lexical binds => exact .inl ⟨_, pieces_mk _ _⟩
  | unit => exact .inr (.inl (parenthesized [] .nil (pieces_mk _ _)))
  | parens normal => exact .inr (.inl (parenthesized _ normal.opening.phrase (pieces_mk _ _)))
  | tuple normal several =>
    have phrase := Piece.listed_phrase fun p member => (normal p member).opening.phrase
    refine .inr (.inl (parenthesized _ phrase ?_))
    rw [pieces_mk, PatternNode.pieces, map_alone]
  | @literal _ l lexical plain =>
    refine .inr (.inr ⟨l.piece, [], pieces_mk _ _, ?_⟩)
    cases l <;> constructor <;> rintro ⟨⟩
  | @data _ tag arguments lexical normal terms =>
    obtain ⟨name, more, same⟩ := tag.pieces_upper
    refine .inr (.inr ⟨.upper name, more ++ arguments.flatMap Pattern.pieces,
      ?_, by rintro ⟨⟩, by rintro ⟨⟩⟩)
    rw [pieces_mk, PatternNode.pieces, flatMap_alone, same]
    rfl
  | emptyList | list | record => exact .inr (.inr ⟨_, _, pieces_mk _ _, by rintro ⟨⟩, by rintro ⟨⟩⟩)
  | cons | named => cases term

/-- An annotated name is read. -/
theorem annotatedName_leads (name : AnnotatedName) {rest : List Piece} :
    Leads input
      (choice [do return .value (← lowerName), do return .operator (← parenthesizedOperator)])
      (joinFirst (name.pieces ++ rest)) rest (· = name) := by
  cases name with
  | value n =>
    apply Leads.choice_here
    apply (lowerName_leads n).bind
    rintro _ rfl
    exact .pure rfl
  | operator symbol =>
    refine Leads.choice_later (lowerName_refuses (.first rfl _)).bind fun _ => Leads.choice_here ?_
    apply (parenthesizedOperator_leads symbol).bind
    rintro _ rfl
    exact .pure rfl

/-- A definition has no annotated name with a colon behind it. -/
theorem signatureHead_refuses {pattern : Pattern} {arguments : List Pattern}
    (defines : pattern.Defines arguments) (rest : List Piece) :
    Refuses input signatureHead (joinFirst
      (pattern.pieces ++ (arguments.flatMap Pattern.pieces ++ .mark .equals :: rest))) := by
  have noColon : Refuses input (token .colon "':'")
      (joinFirst (arguments.flatMap Pattern.pieces ++ .mark .equals :: rest)) :=
    token_refuses (by decide) (arguments_avoid_colon defines.arguments.1 rest)
  have named :
      ∀ name : AnnotatedName, pattern.pieces = name.pieces → Refuses input signatureHead (joinFirst
        (pattern.pieces ++ (arguments.flatMap Pattern.pieces ++ .mark .equals :: rest))) := by
    intro name same
    rw [same]
    refine Fails.attempt ((annotatedName_leads name).fails fun _ _ => ?_)
    exact (whitespace_leads.fails fun _ _ => noColon.bind.fails).bind
  have unnamed : Refuses input lowerName (joinFirst
        (pattern.pieces ++ (arguments.flatMap Pattern.pieces ++ .mark .equals :: rest))) →
      Fails input parenthesizedOperator (joinFirst
        (pattern.pieces ++ (arguments.flatMap Pattern.pieces ++ .mark .equals :: rest))) →
      Refuses input signatureHead (joinFirst
        (pattern.pieces ++ (arguments.flatMap Pattern.pieces ++ .mark .equals :: rest))) := by
    intro noName noOperator
    refine Fails.attempt (Fails.bind (Fails.choice ?_))
    simp only [List.forall_mem_cons, List.not_mem_nil, false_imp_iff, implies_true, and_true]
    exact ⟨noName.bind.fails, noOperator.bind⟩
  cases defines with
  | @name span n _ lexical binds normal terms => exact named (.value n) (Pattern.pieces_mk _ _)
  | @operator span symbol _ lexical normal terms =>
    exact named (.operator symbol) (Pattern.pieces_mk _ _)
  | pattern normal term =>
    rcases normal.begins term with ⟨n, same⟩ | ⟨more, same, apart, solid⟩ |
      ⟨first, more, same, notLower, notParen⟩
    · exact named (.value n) same
    · rw [same] at unnamed ⊢
      refine unnamed (lowerName_refuses (.first rfl _)) (parenthesizedOperator_fails ?_)
      exact (apart.append solid _).avoids _
    · rw [same] at unnamed ⊢
      refine unnamed (lowerName_refuses (.first ?_ _))
        (parenthesizedOperator_refuses (.first ?_ _)).fails
      · exact beq_eq_false_iff_ne.mpr notLower
      · exact beq_eq_false_iff_ne.mpr notParen

section Over

variable {expression : Parser Expression} {bound : Nat}
  (recovers : RecoversExpressions input expression bound)

include recovers

/-- Definitions are read back. -/
theorem definition_leads {pattern : Pattern} {arguments : List Pattern} {value : Expression}
    (defines : pattern.Defines arguments) (normal : value.Normal)
    (small : value.pieces.length < bound) {rest : List Piece}
    (follows : Follows Piece.closesExpression rest) :
    Leads input (definition expression) (joinFirst
      ((Definition.mk pattern (arguments.map .alone) [] value).pieces Expression.pieces ++ rest))
      rest fun found => found.view .placeless (Expression.view .placeless) = (Definition.mk pattern
      (arguments.map .alone) [] value).view .placeless (Expression.view .placeless) := by
  have pieces : (Definition.mk pattern (arguments.map .alone) [] value).pieces Expression.pieces ++
        rest = pattern.pieces ++ (arguments.flatMap Pattern.pieces ++ .mark .equals ::
        (value.pieces ++ rest)) := by
    rw [Definition.pieces, flatMap_alone, List.append_assoc, List.append_assoc]
    rfl
  rw [pieces]
  refine LeadsFlush.withReference (Leads.flush ?_)
  apply (definitionHead_leads defines _).bind
  rintro ⟨defined, found⟩ ⟨same, sameArguments⟩
  apply (mark_leads .equals).padded.bind
  rintro _ ⟨_, rfl, -⟩
  apply (recovers.leads value normal small rest follows).bind
  intro body sameBody
  refine .pure ?_
  simp only [Definition.view, Commented.view_placeless, map_map_alone]
  rw [same, sameArguments, sameBody]
  rfl

end Over

/-! ## Signatures -/

/-- Signatures are read back. -/
theorem signature_leads {name : AnnotatedName} {type : TypeExpression} (normal : type.Normal)
    {rest : List Piece} (follows : Follows Piece.closesType rest) :
    Leads input signature (joinFirst ((Signature.mk (.alone name) (.alone type)).pieces ++ rest))
      rest fun found =>
      found.view .placeless = (Signature.mk (.alone name) (.alone type)).view .placeless := by
  have head : Leads input signatureHead (joinFirst (name.pieces ++ .mark .colon ::
        (type.pieces ++ rest))) (joinFirst (type.pieces ++ rest)) fun found => found.1 = name ∧
      found.2.before = [] ∧ found.2.after = [] := by
    apply Leads.attempt
    apply (annotatedName_leads name).bind
    rintro _ rfl
    apply (mark_leads .colon).padded.bind
    rintro _ ⟨_, rfl, -⟩
    exact .pure ⟨rfl, rfl, rfl⟩
  rw [Signature.pieces, List.append_assoc]
  apply head.bind
  rintro ⟨_, _, _, _⟩ ⟨rfl, rfl, rfl⟩
  apply (typeExpression_recovers.anywhere normal follows).bind
  intro found same
  refine .pure ?_
  simp only [Signature.view, Commented.view_placeless, Commented.pre, Commented.map, same]
  rfl

/-! ## Declarations -/

/-- What is seen of a declaration without places. -/
abbrev Declaration.seen (declaration : Declaration Expression) : Declaration Expression :=
  declaration.view .placeless (Expression.view .placeless)

section Declarations

variable {expression : Parser Expression} {rest : List Piece}

/-- A definition is read as a declaration. -/
theorem declaration_leads_definition {bound : Nat}
    (recovers : RecoversExpressions input expression bound) {pattern : Pattern}
    {arguments : List Pattern} {value : Expression} (defines : pattern.Defines arguments)
    (normal : value.Normal) (small : value.pieces.length < bound)
    (follows : Follows Piece.closesExpression rest) :
    Leads input (declaration expression) (joinFirst ((Declaration.definition ⟨pattern,
      arguments.map .alone, [], value⟩).pieces Expression.pieces ++ rest)) rest fun found =>
      found.seen = (Declaration.definition ⟨pattern, arguments.map .alone, [], value⟩).seen := by
  have noSignature : Refuses input signature (joinFirst ((Definition.mk pattern
        (arguments.map .alone) [] value).pieces Expression.pieces ++ rest)) := by
    rw [Definition.pieces, flatMap_alone, List.append_assoc, List.append_assoc]
    exact (signatureHead_refuses defines _).bind
  refine Leads.choice_later noSignature.bind fun _ => Leads.choice_here ?_
  apply (definition_leads recovers defines normal small follows).bind
  intro found same
  exact .pure (congrArg Declaration.definition same)

/-- A signature is read as a declaration. -/
theorem declaration_leads_signature {name : AnnotatedName} {type : TypeExpression}
    (normal : type.Normal) (follows : Follows Piece.closesType rest) :
    Leads input (declaration expression) (joinFirst
      ((Declaration.signature ⟨.alone name, .alone type⟩).pieces Expression.pieces ++ rest)) rest
      fun found => found.seen = (Declaration.signature ⟨.alone name, .alone type⟩).seen := by
  apply Leads.choice_here
  apply (signature_leads normal follows).bind
  intro found same
  exact .pure (congrArg Declaration.signature same)

/-- No declaration is where no pattern is. -/
theorem declaration_refuses {before : List Piece} (avoids : Avoids opensPattern before) :
    Refuses input (declaration expression) before := by
  have noParen : Avoids (·.kind == .leftParen) before := avoids.kind fun piece same => by
    simp [opensPattern, same]
  have noName : Refuses input lowerName before :=
    lowerName_refuses (avoids.kind fun piece same => by simp [opensPattern, same])
  have noOperator : Refuses input parenthesizedOperator before :=
    parenthesizedOperator_refuses noParen
  have noHead : Refuses input signatureHead before := by
    refine Fails.attempt (Refuses.bind (Refuses.choice ?_)).fails
    simp only [List.forall_mem_cons, List.not_mem_nil, false_imp_iff, implies_true, and_true]
    exact ⟨noName.bind, noOperator.bind⟩
  have noDefined : Refuses input definitionHead before := by
    refine Refuses.expecting (Refuses.bind (Refuses.choice ?_))
    simp only [List.forall_mem_cons, List.not_mem_nil, false_imp_iff, implies_true, and_true]
    exact ⟨(patternTerm_recovers.refuses (Nat.succ_pos _) _ avoids).fails.attempt,
      patternOf_refuses noOperator.bind⟩
  refine Refuses.choice ?_
  simp only [List.forall_mem_cons, List.not_mem_nil, false_imp_iff, implies_true, and_true]
  refine ⟨noHead.bind.bind, ?_⟩
  have noDefinition : Refuses input (definition expression) before :=
    Refuses.withReference noDefined.bind
  exact noDefinition.bind

end Declarations

end Marginalia
