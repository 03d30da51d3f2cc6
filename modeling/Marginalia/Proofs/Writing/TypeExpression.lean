import Marginalia.Proofs.Writing.Recovery

/-!
# Reading written types

Types in normal form are read back from their pieces, up to spans, by induction over the levels of
nesting.
-/

namespace Marginalia

open Marginalia.Parser Marginalia.Grammar

open Piece (Apart Opening joinFirst listed enclosed opensType)

variable {input : Input}

/-- The kinds of pieces that may follow an operand of a type. -/
def Piece.closesTypeOperand (piece : Piece) : Bool := !piece.opensType

/-- The kinds of pieces that may follow a whole type. -/
def Piece.closesType (piece : Piece) : Bool := !piece.opensType && piece.kind != .arrow

/-- The parser reads back type terms. -/
abbrev RecoversTypeTerms (input : Input) (term : Parser TypeExpression) (bound : Nat) : Prop :=
  Recovers input term TypeExpression.pieces (TypeExpression.view .placeless) (fun t => t.Normal ∧
      t.node.isTerm = true) Apart opensType bound

/-- The parser reads back types. -/
abbrev RecoversTypes (input : Input) (type : Parser TypeExpression) (bound : Nat) : Prop :=
  Recovers input type TypeExpression.pieces (TypeExpression.view .placeless) TypeExpression.Normal
    (Follows Piece.closesType) opensType bound

/-- What is seen of a node of a type without places. -/
abbrev TypeNode.seen (node : TypeNode TypeExpression) : TypeNode TypeExpression :=
  node.view .placeless (TypeExpression.view .placeless)

/-- A located node is read as a type. -/
theorem typeOf_leads {parser : Parser (TypeNode TypeExpression)} {before after : List Piece}
    {node : TypeNode TypeExpression}
    (leads : Leads input parser before after fun found => found.seen = node.seen) (span : Span) :
    Leads input (typeOf parser) before after fun found =>
      found.view .placeless = TypeExpression.view .placeless ⟨span, node⟩ := by
  apply leads.located.bind
  intro found same
  refine .pure ?_
  rw [TypeExpression.view_mk, TypeExpression.view_mk]
  exact congrArg (TypeExpression.mk _) same

/-- Types in parentheses: none, one or several. -/
def tupleOfTypes : List TypeExpression → TypeNode TypeExpression
  | [] => .unit []
  | [only] => .parens (.alone only)
  | elements => .tuple (elements.map .alone)

/-- What is written in parentheses. -/
theorem pieces_tupleOfTypes (elements : List TypeExpression) :
    (tupleOfTypes elements).pieces TypeExpression.pieces =
      enclosed .leftParen .rightParen (listed (elements.map TypeExpression.pieces)) := by
  match elements with
  | [] => rfl
  | [t] => simp [tupleOfTypes, TypeNode.pieces, Piece.listed, Piece.between, Commented.alone]
  | t :: u :: more =>
    exact congrArg (fun parts => enclosed .leftParen .rightParen (listed parts))
      (map_alone (t :: u :: more) TypeExpression.pieces)

/-- What is written of a record type. -/
theorem TypeNode.pieces_plainRecord (base : Option Text) (fields : List (Text × TypeExpression)) :
    (TypeNode.record (base.map .alone) (fields.map fun field => .alone (.plain field))
      [] false).pieces TypeExpression.pieces = enclosed .leftBrace .rightBrace
      (basePieces (base.map .alone) ++ listed
      (fields.map fun field => (RecordTypeField.plain field).pieces TypeExpression.pieces)) := by
  rw [TypeNode.pieces, List.map_map]
  rfl

section Over

variable {type : Parser TypeExpression} {bound : Nat} (recovers : RecoversTypes input type bound)

include recovers

/-- Types in parentheses are read back. -/
theorem tupleType_leads {elements : List TypeExpression} (normal : ∀ t ∈ elements, t.Normal)
    (small : (listed (elements.map TypeExpression.pieces)).length < bound) (rest : List Piece) :
    Leads input (tupleType type) (joinFirst (enclosed .leftParen .rightParen
      (listed (elements.map TypeExpression.pieces)) ++ rest)) rest fun found =>
        found.seen = (tupleOfTypes elements).seen := by
  have contents :
    Leads input (Parser.group .leftParen .rightParen type "')'") (joinFirst (enclosed .leftParen
      .rightParen (listed (elements.map TypeExpression.pieces)) ++ rest)) rest fun found =>
        ∃ items', found = (⟨items', []⟩, false) ∧
          items'.map (Commented.map (TypeExpression.view .placeless)) =
            elements.map fun t => .alone (t.view .placeless) := by
    refine recovers.group normal (fun t member => (normal t member).opening) small (by decide)
      (by decide) (fun piece opens isClose => ?_) fun kind more isMark => ?_
    · simp [opensType, isClose] at opens
    · rcases isMark with rfl | rfl <;> exact .first rfl rfl more
  apply contents.bind
  rintro _ ⟨items', rfl, same⟩
  match items', elements, same with
  | [], [], _ => exact .pure rfl
  | [only], [t], same =>
    refine .pure ?_
    have value := (List.cons.inj same).1
    exact congrArg TypeNode.parens value
  | first :: second :: others, t :: u :: more, same =>
    refine .pure ?_
    simp only [TypeNode.seen, tupleOfTypes, TypeNode.view, Commented.view_placeless, map_map_alone]
    rw [same]
  | [_], _ :: _ :: _, same | _ :: _ :: _, [_], same => cases (List.cons.inj same).2

/-- A field of a record type is read back. -/
theorem recordTypeField_leads {field : Text × TypeExpression} (normal : field.2.Normal)
    (small : field.2.pieces.length < bound) {rest : List Piece}
    (follows : Follows Piece.closesType rest) :
    Leads input (recordTypeField type)
      (joinFirst ((RecordTypeField.plain field).pieces TypeExpression.pieces ++ rest)) rest
      fun found => found.view .placeless (TypeExpression.view .placeless) =
      (RecordTypeField.plain field).view .placeless (TypeExpression.view .placeless) := by
  apply (lowerName_leads field.1).bind
  rintro _ rfl
  apply whitespace_leads.bind
  rintro _ rfl
  apply (mark_leads .colon).bind
  intro _ _
  apply whitespace_leads.bind
  rintro _ rfl
  apply (recovers.leads field.2 normal small rest follows).bind
  intro found same
  refine .pure ?_
  exact congrArg (fun type => RecordTypeField.plain (field.1, type)) same

/-- A record type is read back. -/
theorem recordType_leads {base : Option Text} {fields : List (Text × TypeExpression)}
    (normal : ∀ field ∈ fields, field.2.Normal) (small : (listed (fields.map fun field =>
      (RecordTypeField.plain field).pieces TypeExpression.pieces)).length < bound)
    (rest : List Piece) :
    Leads input (recordType type) (joinFirst
      (enclosed .leftBrace .rightBrace (basePieces (base.map .alone) ++ listed (fields.map
      fun field => (RecordTypeField.plain field).pieces TypeExpression.pieces)) ++ rest)) rest
      fun found => found.seen = (TypeNode.record (base.map .alone)
      (fields.map fun field => .alone (.plain field)) [] false).seen := by
  have each : ∀ field ∈ fields, ∀ kind more, kind = .comma ∨ kind = .rightBrace →
        Leads input (recordTypeField type) (joinFirst ((RecordTypeField.plain field).pieces
        TypeExpression.pieces ++ .mark kind :: more)) (.mark kind :: more) fun found =>
        found.view .placeless (TypeExpression.view .placeless) =
        (RecordTypeField.plain field).view .placeless (TypeExpression.view .placeless) := by
    intro field member kind more isMark
    have short := @Piece.length_le_between _ (.mark .comma) _
      (fun field => (RecordTypeField.plain field).pieces TypeExpression.pieces) _ member
    refine recordTypeField_leads recovers (normal field member) ?_ ?_
    · exact Nat.lt_of_le_of_lt (Nat.le_trans (Nat.le_add_right _ 2) short) small
    · rcases isMark with rfl | rfl <;> exact .first rfl rfl more
  apply (recordContents_leads base
      (fun field _ => ⟨field.1, .mark .colon, field.2.pieces, rfl, nofun⟩) each).bind
  rintro _ ⟨items', rfl, same⟩
  refine .pure ?_
  simp only [TypeNode.seen, TypeNode.view, Commented.view_placeless]
  rw [same, List.map_map]
  rfl

end Over

/-- A term of a type refuses what no type begins with. -/
theorem typeTermOver_refuses {type : Parser TypeExpression} {before : List Piece}
    (avoids : Avoids opensType before) : Refuses input (typeTermOver type) before := by
  apply Refuses.expecting
  refine Refuses.bind (Refuses.located (Refuses.choice ?_))
  simp only [List.forall_mem_cons, List.not_mem_nil, false_imp_iff, implies_true, and_true]
  refine ⟨?_, ?_, ?_, ?_⟩
  · exact (group_refuses (by decide) (avoids.kind fun piece same => by simp [opensType, same])).bind
  · exact (token_refuses (by decide)
        (avoids.kind fun piece same => by simp [opensType, same])).bind.trackNewline.bind
  · exact (lowerName_refuses (avoids.kind fun piece same => by simp [opensType, same])).bind
  · exact (upperName_refuses (avoids.kind fun piece same => by simp [opensType, same])).bind.bind

/-- Terms of types are read back, if the types inside them are. -/
theorem typeTermOver_recovers {type : Parser TypeExpression} {bound : Nat}
    (recovers : RecoversTypes input type bound) :
    RecoversTypeTerms input (typeTermOver type) (bound + 1) := by
  refine ⟨?_, fun _ before avoids => typeTermOver_refuses avoids⟩
  rintro ⟨span, node⟩ ⟨normal, term⟩ small rest apart
  rw [TypeExpression.pieces_mk] at small ⊢
  refine Leads.expecting (typeOf_leads ?_ span)
  have parenthesized : ∀ elements : List TypeExpression, node = tupleOfTypes elements →
        (∀ t ∈ elements, t.Normal) → Leads input (choice [tupleType type, recordType
        type, do return .name (← lowerName), do return .construction (← qualifiedUpperName) []])
        (joinFirst (node.pieces TypeExpression.pieces ++ rest)) rest fun found =>
        found.seen = node.seen := by
    rintro elements rfl each
    rw [pieces_tupleOfTypes] at small ⊢
    rw [Piece.length_enclosed] at small
    exact Leads.choice_here (tupleType_leads recovers each (by omega) rest)
  cases normal with
  | unit => exact parenthesized [] rfl (by simp)
  | @parens _ t normal => exact parenthesized [t] rfl (by simpa using normal)
  | @tuple _ elements normal several =>
    refine parenthesized elements ?_ normal
    match elements, several with
    | _ :: _ :: _, _ => rfl
  | @record _ base fields lexicalBase lexical normal =>
    rw [TypeNode.pieces_plainRecord] at small ⊢
    rw [Piece.length_enclosed, List.length_append] at small
    refine Leads.choice_later (group_refuses (by decide) (.first rfl _)).bind fun _ =>
      Leads.choice_here ?_
    exact recordType_leads recovers normal (by omega) rest
  | @name _ n lexical =>
    refine Leads.choice_later (group_refuses (by decide) (.first rfl _)).bind fun _ => ?_
    refine Leads.choice_later (token_refuses (by decide) (.first rfl _)).bind.trackNewline.bind
      fun _ => Leads.choice_here ?_
    apply (lowerName_leads n).bind
    rintro _ rfl
    exact .pure rfl
  | @construction _ tag arguments lexical normal terms =>
    obtain rfl : arguments = [] := by simpa [TypeNode.isTerm] using term
    have shape : (TypeNode.construction tag ([].map Commented.alone)).pieces TypeExpression.pieces =
          tag.pieces .upper :=
      List.append_nil _
    obtain ⟨name, more, begins⟩ := tag.pieces_upper
    have parts := @qualifiedUpperName_leads input _ tag apart
    rw [shape]
    rw [begins] at parts ⊢
    refine Leads.choice_later (group_refuses (by decide) (.first rfl _)).bind fun _ => ?_
    refine Leads.choice_later (token_refuses (by decide) (.first rfl _)).bind.trackNewline.bind
      fun _ => ?_
    refine Leads.choice_later (lowerName_refuses (.first rfl _)).bind fun _ => Leads.choice_here ?_
    apply parts.bind
    rintro _ rfl
    exact .pure rfl
  | function => cases term

/-- An operand that is no constructor is a term. -/
theorem TypeNode.isTerm_of_isOperand {node : TypeNode TypeExpression}
    (operand : node.isOperand = true)
    (noConstruction : ∀ tag arguments, node ≠ .construction tag arguments) :
    node.isTerm = true := by
  cases node with
  | construction => exact absurd rfl (noConstruction _ _)
  | function => cases operand
  | _ => rfl

/-- Only a constructor begins with an upper-case name. -/
theorem TypeExpression.Normal.not_upper {t : TypeExpression} (normal : t.Normal)
    (operand : t.node.isOperand = true)
    (noConstruction : ∀ tag arguments, t.node ≠ .construction tag arguments) (rest : List Piece) :
    Avoids (·.kind == .upperIdentifier) (joinFirst (t.pieces ++ rest)) := by
  cases normal with
  | construction => exact absurd rfl (noConstruction _ _)
  | function => cases operand
  | _ =>
    rw [TypeExpression.pieces_mk]
    exact .first rfl _

/-- Operands of types with arrows between them: one, or several. -/
def functionOfTypes (first : TypeExpression) : List TypeExpression → TypeExpression
  | [] => first
  | rest => ⟨⟨.start, .start⟩, .function (.alone first) (rest.map .alone) false⟩

/-- A type is one operand, or several with arrows between them. -/
theorem TypeExpression.Normal.operands {t : TypeExpression} (normal : t.Normal) :
    ∃ first others, (∀ u ∈ first :: others, u.Normal) ∧
      (∀ u ∈ first :: others, u.node.isOperand = true) ∧
      t.pieces = Piece.between (.mark .arrow) ((first :: others).map TypeExpression.pieces) ∧
      t.view .placeless = (functionOfTypes first others).view .placeless := by
  have alone : t.node.isOperand = true → ∃ first others, (∀ u ∈ first :: others, u.Normal) ∧
      (∀ u ∈ first :: others, u.node.isOperand = true) ∧
      t.pieces = Piece.between (.mark .arrow) ((first :: others).map TypeExpression.pieces) ∧
      t.view .placeless = (functionOfTypes first others).view .placeless :=
    fun operand => ⟨t, [], by simpa using normal, by simpa using operand,
      (List.append_nil _).symm, rfl⟩
  cases normal with
  | @function span first rest normal operands some =>
    refine ⟨first, rest, normal, operands, ?_, ?_⟩
    · rw [TypeExpression.pieces_mk, TypeNode.pieces, map_alone]
      rfl
    · obtain ⟨second, others, rfl⟩ := List.exists_cons_of_ne_nil some
      rw [functionOfTypes, TypeExpression.view_mk, TypeExpression.view_mk]
      · rfl
      · rintro ⟨⟩
  | _ => exact alone rfl

section Terms

variable {term : Parser TypeExpression} {bound : Nat}
  (recovers : RecoversTypeTerms input term bound)

include recovers

/-- Operands of types are read back, if terms are. -/
theorem typeOperand_leads {t : TypeExpression} (normal : t.Normal)
    (operand : t.node.isOperand = true) (small : t.pieces.length < bound) {rest : List Piece}
    (follows : Follows Piece.closesTypeOperand rest) :
    Leads input (typeOperand term) (joinFirst (t.pieces ++ rest)) rest fun found =>
      found.view .placeless = t.view .placeless := by
  by_cases isConstruction : ∃ tag arguments, t.node = .construction tag arguments
  · cases normal with
    | @construction span tag arguments lexical normal terms =>
      rw [TypeExpression.pieces_mk, TypeNode.pieces, flatMap_alone] at small ⊢
      have upper : Tells input (peekIs .upperIdentifier) (joinFirst
            (tag.pieces .upper ++ arguments.flatMap TypeExpression.pieces ++ rest)) true := by
        obtain ⟨name, more, begins⟩ := tag.pieces_upper
        rw [begins]
        exact peekIs_tells_true rfl
      refine upper.leads (typeOf_leads ?_ span)
      refine recovers.constructed (fun u member => ⟨normal u member, terms u member⟩)
        (fun u member => (normal u member).opening) small follows (fun piece closes => ?_)
        fun found same => ?_
      · have lacks : piece.opensType = false := by simpa [Piece.closesTypeOperand] using closes
        exact lacks
      · simp only [TypeNode.seen, TypeNode.view, Commented.view_placeless, map_map_alone]
        rw [same]
    | _ => simp at isConstruction
  · have noConstruction : ∀ tag arguments, t.node ≠ .construction tag arguments :=
      fun tag arguments same => isConstruction ⟨tag, arguments, same⟩
    refine (peekIs_tells_false (by decide) (normal.not_upper operand noConstruction rest)).leads ?_
    exact recovers.leads t ⟨normal, TypeNode.isTerm_of_isOperand operand noConstruction⟩ small
      rest follows.apart

/-- Whole types are read back, if terms are. -/
theorem typeOver_recovers : RecoversTypes input (typeOver term) bound := by
  refine ⟨fun t normal small rest follows => Leads.expecting ?_, fun positive before avoids =>
      Refuses.expecting ?_⟩
  · obtain ⟨first, others, normals, operands, pieces, seen⟩ := normal.operands
    rw [pieces] at small ⊢
    rw [seen]
    have closes : Follows Piece.closesTypeOperand rest := follows.imp fun piece closes => by
      simp only [Piece.closesType, Bool.and_eq_true] at closes
      exact closes.1
    have noArrow : Avoids (·.kind == .arrow) (joinFirst rest) :=
      follows.avoids fun piece closes => by
      simp only [Piece.closesType, Bool.and_eq_true, bne_iff_ne] at closes
      exact beq_eq_false_iff_ne.mpr closes.2
    have chain :
      Leads input (joined (token .arrow "'->'") (typeOperand term)) (joinFirst (Piece.between
        (.mark .arrow) ((first :: others).map TypeExpression.pieces) ++ rest)) rest fun found =>
          (found.1.map (TypeExpression.view .placeless),
            found.2.map (Commented.map (TypeExpression.view .placeless))) = (Commented.alone
              (first.view .placeless), others.map fun u => .alone (u.view .placeless)) := by
      refine joined_leads (fun more => mark_leads .arrow)
        (fun more => .first rfl rfl more) closes ?_ (token_refuses (by decide) noArrow)
      intro u member after follows'
      have short : u.pieces.length ≤
            (Piece.between (.mark .arrow) ((first :: others).map TypeExpression.pieces)).length :=
        Piece.length_le_between member
      exact typeOperand_leads recovers (normals u member) (operands u member) (by omega) follows'
    apply position_leads.bind
    intro start _
    apply chain.trackNewline.bind
    rintro _ ⟨⟨found, links⟩, rfl, same⟩
    have sameFirst : found.map (TypeExpression.view .placeless) = .alone (first.view .placeless) :=
      (Prod.mk.inj same).1
    have sameLinks : links.map (Commented.map (TypeExpression.view .placeless)) =
        others.map fun u => .alone (u.view .placeless) := (Prod.mk.inj same).2
    match links, others, sameLinks with
    | [], [], _ => exact .pure (congrArg Commented.value sameFirst)
    | link :: links, u :: others, sameLinks =>
      apply position_leads.bind
      intro stop _
      refine .pure ?_
      simp only [functionOfTypes, TypeExpression.view_mk, TypeNode.view, Commented.view_placeless,
        map_map_alone]
      rw [sameFirst, sameLinks]
      rfl
  · have notUpper : Avoids (·.kind == .upperIdentifier) before := avoids.kind fun piece same => by
      simp [opensType, same]
    refine position_refuses fun start => Refuses.bind (Refuses.trackNewline (Refuses.bind ?_))
    exact (peekIs_tells_false (by decide) notUpper).refuses
      (recovers.refuses positive before avoids)

end Terms

/-- Terms of types with fewer pieces than levels are read back. -/
theorem typeTermWithin_recovers (levels : Nat) :
    RecoversTypeTerms input (typeTermWithin levels) levels := by
  induction levels with
  | zero =>
    exact ⟨fun _ _ short => absurd short (Nat.not_lt_zero _),
      fun positive => absurd positive (Nat.lt_irrefl 0)⟩
  | succ levels ih => exact typeTermOver_recovers (typeOver_recovers ih)

/-- Types are read back. -/
theorem typeExpression_recovers : RecoversTypes input typeExpression input.nestingLimit :=
  typeOver_recovers ((typeTermWithin_recovers input.nestingLimit).congr rfl)

end Marginalia
