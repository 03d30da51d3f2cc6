import Marginalia.Proofs.Writing.Term

/-!
# Reading written applications and chains

Applications and operator chains in normal form are read back from their pieces, if their terms are.
What follows an operand decides where it ends: the parser of terms refuses an operator with a blank
behind it, also a minus sign.
-/

namespace Marginalia

open Marginalia.Parser Marginalia.Grammar

open Piece (Apart Opening joinFirst opensTerm)

variable {input : Input}

/-! ## Applications -/

/-- A term and its arguments; without any the term alone. -/
def applicationOf (head : Expression) : List Expression → Expression
  | [] => head
  | arguments => ⟨⟨.start, .start⟩, .application head (arguments.map .alone) (.joinFirst .joinAll)⟩

/-- An operand is a term and its arguments. -/
theorem Expression.Normal.applied {e : Expression} (normal : e.Normal)
    (operand : e.node.isOperand = true) :
    ∃ head arguments, (∀ f ∈ head :: arguments, f.Normal) ∧
      (∀ f ∈ head :: arguments, f.node.isTerm = true) ∧
      e.pieces = head.pieces ++ arguments.flatMap Expression.pieces ∧
      e.view .placeless = (applicationOf head arguments).view .placeless := by
  by_cases isTerm : e.node.isTerm = true
  · exact ⟨e, [], by simpa using normal, by simpa using isTerm, (List.append_nil _).symm, rfl⟩
  · cases normal with
    | @application span head arguments normal terms some =>
      refine ⟨head, arguments, normal, terms, ?_, ?_⟩
      · rw [pieces_mk, ExpressionNode.pieces, flatMap_alone]
      · obtain ⟨first, others, rfl⟩ := List.exists_cons_of_ne_nil some
        rw [applicationOf, view_mk, view_mk]
        · rfl
        · rintro ⟨⟩
    | chain | conditional | caseOf | letDefinition | letSignature | lambda => cases operand
    | _ => exact absurd rfl isTerm

/-- On one line an application is joined. -/
theorem applicationLayout_joined {crossed : List Bool} (none : ∀ c ∈ crossed, c = false) :
    applicationLayout false false crossed = .joinFirst .joinAll := by
  have noneCrossed : crossed.or = false := by
    rw [List.or, List.any_eq_false]
    intro c member
    simp [none c member]
  rw [applicationLayout, noneCrossed]
  rfl

/-- What may follow an operand: something apart from it at which no term begins. -/
def EndsOperand (input : Input) (term : Parser Expression) (rest : List Piece) : Prop :=
  Apart rest ∧ Refuses input term (joinFirst rest)

section Terms

variable {term : Parser Expression} {bound : Nat} (recovers : RecoversTerms input term bound)

include recovers

/-- Operands are read back, if terms are. -/
theorem application_leads {e : Expression} (normal : e.Normal) (operand : e.node.isOperand = true)
    (small : e.pieces.length < bound) {rest : List Piece} (ends : EndsOperand input term rest) :
    Leads input (application term) (joinFirst (e.pieces ++ rest)) rest fun found =>
      found.view .placeless = e.view .placeless := by
  obtain ⟨head, arguments, normals, terms, pieces, seen⟩ := normal.applied operand
  rw [pieces, List.length_append] at small
  have apart : Apart (arguments.flatMap Expression.pieces ++ rest) := by
    cases arguments with
    | nil => exact ends.1
    | cons first others =>
      have opening := (normals first (.tail _ (.head _))).opening
      rw [List.flatMap_cons, List.append_assoc]
      exact opening.phrase.apart.append opening.solid _
  have each :
      ∀ f ∈ arguments, ∀ after, Apart after → Leads input term (joinFirst (f.pieces ++ after)) after
        fun found => found.view .placeless = f.view .placeless := by
    intro f member after apart
    have short := Piece.length_le_flatMap_of_mem Expression.pieces member
    exact recovers.leads f ⟨normals f (.tail _ member), terms f (.tail _ member)⟩
      (by omega) after apart
  have first := recovers.leads head ⟨normals head (.head _), terms head (.head _)⟩
    (by omega) _ apart
  have others := arguments_leads (fun f member => (normals f (.tail _ member)).opening.phrase.apart)
    (fun f member => (normals f (.tail _ member)).opening.solid) each ends.1 ends.2
  rw [pieces, seen, List.append_assoc]
  apply Leads.expecting
  apply position_leads.bind
  intro start _
  apply first.trackNewline.bind
  rintro _ ⟨found, rfl, same⟩
  apply others.bind
  rintro further ⟨sameFurther, joined⟩
  match further, arguments with
  | [], [] => exact .pure same
  | argument :: more, f :: others =>
    have notCrossed : argument.2 = false := joined argument (.head _)
    have layout : applicationLayout false argument.2 (more.map (·.2)) = .joinFirst .joinAll := by
      rw [notCrossed]
      exact applicationLayout_joined (List.forall_mem_map.mpr fun other member =>
          joined other (.tail _ member))
    apply position_leads.bind
    intro stop _
    refine .pure ?_
    simp only [applicationOf, Expression.view_mk, ExpressionNode.view, Commented.view_placeless,
      map_map_alone]
    rw [same, sameFurther, layout]
    rfl
  | [], _ :: _ | _ :: _, [] => cases sameFurther

omit recovers in
/-- No operand is read where no term is. -/
theorem application_refuses {before : List Piece} (refuses : Refuses input term before) :
    Refuses input (application term) before :=
  Refuses.expecting (position_refuses fun _ => refuses.trackNewline.bind)

end Terms

/-! ## Chains -/

/-- The pieces of an operator and the operand behind it. -/
abbrev linkPieces (link : Located Text × Expression) : List Piece :=
  (Clause.plain link).pieces Expression.pieces

/-- What is seen of a clause of a chain without places. -/
abbrev Clause.seen (clause : Clause Reference Expression) : Clause Reference Expression :=
  clause.view .placeless (Expression.view .placeless)

section Chains

variable {term last : Parser Expression} {rest : List Piece}

/-- A clause is read as its operator and its operand. -/
theorem chainStep_leads {link : Located Text × Expression} {final : Bool}
    (operand : Leads input (expecting "an expression" (choice
        [do return (← attempt (application term), false),
          do return (← last, true)])) (joinFirst (link.2.pieces ++ rest)) rest fun found =>
      found.1.view .placeless = link.2.view .placeless ∧ found.2 = final) :
    Leads input (chainStep (application term) last infixOperator) (linkPieces link ++ rest) rest
      fun found =>
      found.1.seen = (Clause.plain link).seen ∧ found.2 = final := by
  have symbol : ∀ more, Leads input infixOperator (joinFirst (.operator link.1.value :: more)) more
      (· = .operator link.1.value) := by
    intro more
    apply (operatorSymbol_leads link.1.value).bind
    rintro _ rfl
    exact .pure rfl
  have looks : Leads input (do let _ ← whitespace; infixOperator) (linkPieces link ++ rest)
        (link.2.pieces ++ rest) fun _ => True := by
    apply whitespace_leads.bind
    rintro _ rfl
    exact (symbol _).imp fun _ _ => trivial
  refine looks.commitIf ?_
  apply whitespace_leads.bind
  rintro _ rfl
  apply (symbol (link.2.pieces ++ rest)).located.bind
  intro operator sameOperator
  apply whitespace_leads.bind
  rintro _ rfl
  apply operand.bind
  rintro ⟨found, _⟩ ⟨same, rfl⟩
  refine .pure ⟨?_, rfl⟩
  simp only [Clause.seen, Clause.view, Clause.plain, Located.view, Located.map]
  rw [same, sameOperator]
  rfl

/-- No clause is read where no operator is. -/
theorem clausesUpTo_stops (none : Refuses input infixOperator (joinFirst rest)) (levels : Nat) :
    Tells input (clausesUpTo (application term) last infixOperator (levels + 1)) rest [] := by
  have noCheck : Fails input (do let _ ← whitespace; infixOperator) rest :=
    whitespace_leads.fails fun _ _ => none.fails
  have noStep : Refuses input (chainStep (application term) last infixOperator) rest :=
    noCheck.lookAhead.bind
  intro start ahead
  rw [clausesUpTo, bind_apply, noStep.optional start ahead]
  rfl

/-- A clause that extends as far right as possible is the last one. -/
theorem clausesUpTo_ends {link : Located Text × Expression}
      (noTerm : Refuses input term (joinFirst (link.2.pieces ++ rest)))
      (leads : Leads input last (joinFirst (link.2.pieces ++ rest)) rest fun found =>
      found.view .placeless = link.2.view .placeless) (levels : Nat) :
    Leads input (clausesUpTo (application term) last infixOperator (levels + 1))
      (linkPieces link ++ rest) rest fun found =>
      found.map Clause.seen = [(Clause.plain link).seen] := by
  have operand : Leads input (expecting "an expression" (choice
      [do return (← attempt (application term), false),
        do return (← last, true)])) (joinFirst (link.2.pieces ++ rest)) rest fun found =>
      found.1.view .placeless = link.2.view .placeless ∧ found.2 = true := by
    refine Leads.expecting (Leads.choice_later
        (Fails.attempt (application_refuses noTerm).fails).bind fun _ => ?_)
    apply Leads.choice_here
    apply leads.bind
    intro found same
    exact .pure ⟨same, rfl⟩
  rw [clausesUpTo]
  apply (chainStep_leads operand).optional.bind
  rintro _ ⟨⟨clause, _⟩, rfl, same, rfl⟩
  exact .pure (congrArg (fun clause => [clause]) same)

variable (noOperator : ∀ symbol more, Apart more →
    Refuses input term (joinFirst (.operator symbol :: more)))

include noOperator

/-- A clause may follow an operand. -/
theorem link_ends {link : Located Text × Expression} (normal : link.2.Normal) (more : List Piece) :
    EndsOperand input term (linkPieces link ++ more) :=
  ⟨fun _ first => Option.some.inj first ▸ rfl,
    noOperator _ _ (normal.opening.phrase.apart.append normal.opening.solid more)⟩

variable {bound : Nat} (recovers : RecoversTerms input term bound)

include recovers

/-- Clauses are read back one after the other, up to the last ones. -/
theorem clausesUpTo_leads {closed : List (Located Text × Expression)} {tail : List Piece}
      {target : List (Clause Reference Expression)} (normal : ∀ link ∈ closed, link.2.Normal)
      (operands : ∀ link ∈ closed, link.2.node.isOperand = true)
      (small : (closed.flatMap linkPieces).length < bound) (ends : EndsOperand input term tail)
      (further : ∀ levels, Leads input
      (clausesUpTo (application term) last infixOperator (levels + 1)) tail rest fun found =>
      found.map Clause.seen = target) (levels : Nat) (enough : closed.length < levels) :
    Leads input (clausesUpTo (application term) last infixOperator levels)
      (closed.flatMap linkPieces ++ tail) rest fun found => found.map Clause.seen =
      closed.map (fun link => (Clause.plain link).seen) ++ target := by
  obtain ⟨levels, rfl⟩ := Nat.exists_eq_add_one.mpr (Nat.lt_of_le_of_lt (Nat.zero_le _) enough)
  induction closed generalizing levels with
  | nil => exact further levels
  | cons link others ih =>
    obtain ⟨levels, rfl⟩ := Nat.exists_eq_add_one.mpr
      (Nat.lt_of_lt_of_le (Nat.zero_lt_succ _) (Nat.le_of_lt_succ enough))
    rw [List.flatMap_cons, List.length_append] at small
    rw [List.flatMap_cons, List.append_assoc]
    have inner := ih (fun other member => normal other (.tail _ member)) (fun other member =>
        operands other (.tail _ member)) (by omega) levels (by simpa using enough)
    have behind : EndsOperand input term (others.flatMap linkPieces ++ tail) := by
      cases others with
      | nil => exact ends
      | cons other more =>
        rw [List.flatMap_cons, List.append_assoc]
        exact link_ends noOperator (normal other (.tail _ (.head _))) _
    have short : link.2.pieces.length < bound := by
      have inside : link.2.pieces.length ≤ (linkPieces link).length := Nat.le_succ _
      omega
    have read := application_leads recovers (normal link (.head _))
      (operands link (.head _)) short behind
    have operand : Leads input (expecting "an expression"
        (choice [do return (← attempt (application term), false), do return (← last, true)]))
        (joinFirst (link.2.pieces ++ (others.flatMap linkPieces ++ tail)))
        (others.flatMap linkPieces ++ tail) fun found =>
        found.1.view .placeless = link.2.view .placeless ∧ found.2 = false := by
      refine Leads.expecting (Leads.choice_here ?_)
      apply read.attempt.bind
      intro found same
      exact .pure ⟨same, rfl⟩
    rw [clausesUpTo]
    apply (chainStep_leads operand).optional.bind
    rintro _ ⟨⟨clause, _⟩, rfl, same, rfl⟩
    apply inner.bind
    intro found sameOthers
    refine .pure ?_
    rw [List.map_cons, List.map_cons, List.cons_append, ← sameOthers]
    exact congrArg (· :: found.map Clause.seen) same

/-- Clauses of a chain are read back. -/
theorem clauses_leads {closed : List (Located Text × Expression)} {tail : List Piece}
      {target : List (Clause Reference Expression)} (normal : ∀ link ∈ closed, link.2.Normal)
      (operands : ∀ link ∈ closed, link.2.node.isOperand = true)
      (small : (closed.flatMap linkPieces).length < bound) (ends : EndsOperand input term tail)
      (further : ∀ levels, Leads input
      (clausesUpTo (application term) last infixOperator (levels + 1)) tail rest fun found =>
      found.map Clause.seen = target) :
    Leads input (clauses (application term) last infixOperator)
      (closed.flatMap linkPieces ++ tail) rest fun found =>
      found.map Clause.seen = closed.map (fun link => (Clause.plain link).seen) ++ target := by
  intro start ahead
  have enough : closed.length < input.repetitionLimit := by
    have length := ahead.length
    have counted : closed.length ≤ (closed.flatMap linkPieces).length := by
      refine @length_le_of_less _ closed (·.flatMap linkPieces) fun link more _ => ?_
      rw [List.flatMap_cons, List.length_append]
      exact Nat.lt_add_of_pos_left (Nat.succ_pos _)
    rw [List.length_append] at length
    rw [Input.repetitionLimit]
    omega
  exact clausesUpTo_leads noOperator recovers normal operands small ends further _
    enough start ahead

/-- A chain is read back. -/
theorem operatorChain_leads {left : Expression} {closed : List (Located Text × Expression)}
      {tail : List Piece} {target : List (Clause Reference Expression)} (normalLeft : left.Normal)
      (operandLeft : left.node.isOperand = true) (normal : ∀ link ∈ closed, link.2.Normal)
      (operands : ∀ link ∈ closed, link.2.node.isOperand = true)
      (small : (left.pieces ++ closed.flatMap linkPieces).length < bound)
      (ends : EndsOperand input term tail) (further : ∀ levels, Leads input
      (clausesUpTo (application term) last infixOperator (levels + 1)) tail rest fun found =>
      found.map Clause.seen = target) :
    Leads input (operatorChain (application term) last infixOperator)
      (joinFirst (left.pieces ++ (closed.flatMap linkPieces ++ tail))) rest fun found =>
        found.value.left.view .placeless = left.view .placeless ∧
          found.value.clauses.map Clause.seen = closed.map (fun link => (Clause.plain link).seen) ++
            target ∧ found.value.layout = .joinAll := by
  rw [List.length_append] at small
  have behind : EndsOperand input term (closed.flatMap linkPieces ++ tail) := by
    cases closed with
    | nil => exact ends
    | cons link others =>
      rw [List.flatMap_cons, List.append_assoc]
      exact link_ends noOperator (normal link (.head _)) _
  have first := application_leads recovers normalLeft operandLeft (by omega) behind
  have others := clauses_leads noOperator recovers normal operands (by omega) ends further
  have contents : Leads input (do
        let left ← application term
        return (left, ← clauses (application term) last infixOperator))
      (joinFirst (left.pieces ++ (closed.flatMap linkPieces ++ tail))) rest fun found =>
        found.1.view .placeless = left.view .placeless ∧ found.2.map Clause.seen =
            closed.map (fun link => (Clause.plain link).seen) ++ target := by
    apply first.bind
    intro found same
    apply others.bind
    intro following sameOthers
    exact .pure ⟨same, sameOthers⟩
  refine @Leads.located _ _ _ _ _ (fun chain : OperatorChain Reference Expression =>
    chain.left.view .placeless = left.view .placeless ∧
      chain.clauses.map Clause.seen = closed.map (fun link => (Clause.plain link).seen) ++ target ∧
        chain.layout = .joinAll) ?_
  apply contents.trackNewline.bind
  rintro _ ⟨⟨found, following⟩, rfl, same, sameOthers⟩
  exact .pure ⟨same, sameOthers, rfl⟩

end Chains

/-- An operand and the clauses behind it; without any the operand alone. -/
def chainOf (left : Expression) : List (Located Text × Expression) → Expression
  | [] => left
  | links => ⟨⟨.start, .start⟩, .chain left (links.map .plain) .joinAll⟩

/-- What is seen of a chain whose operand and clauses are seen alike. -/
theorem view_chainOf {left found : Expression} {links : List (Located Text × Expression)}
    {following : List (Clause Reference Expression)}
      (same : found.view .placeless = left.view .placeless)
    (sameLinks : following.map Clause.seen = links.map fun link => (Clause.plain link).seen)
      (span : Span) :
    (match following with
      | [] => found
      | clauses => ⟨span, .chain found clauses .joinAll⟩ : Expression).view .placeless =
      (chainOf left links).view .placeless := by
  match following, links, sameLinks with
  | [], [], _ => exact same
  | clause :: others, link :: links, sameLinks =>
    have seen : (clause :: others).map (Clause.view .placeless (Expression.view .placeless)) =
        ((link :: links).map .plain).map (Clause.view .placeless (Expression.view .placeless)) := by
      rw [List.map_map]
      exact sameLinks
    simp only [chainOf, Expression.view_mk, ExpressionNode.view]
    rw [same, seen]
    rfl

/-- What is no operand and no chain extends as far right as possible. -/
theorem ExpressionNode.isOpenEnded_of_not_isOperand {node : ExpressionNode Expression}
    (notOperand : ¬ node.isOperand = true) (notChain : node.isChain = false) :
    node.isOpenEnded = true := by
  cases node with
  | conditional | caseOf | letIn | lambda => rfl
  | chain => cases notChain
  | _ => exact absurd rfl notOperand

/-- An expression that does not extend as far right as possible is an operand and the clauses behind
it, of which only the last one may extend as far right as possible. -/
theorem Expression.Normal.chained {e : Expression} (normal : e.Normal)
    (notOpenEnded : e.node.isOpenEnded = false) :
    ∃ (left : Expression) (closed : List (Located Text × Expression))
      (final : Option (Located Text × Expression)), left.Normal ∧ left.node.isOperand = true ∧
      (∀ link ∈ closed ++ final.toList, link.2.Normal) ∧
      (∀ link ∈ closed, link.2.node.isOperand = true) ∧
      (∀ link ∈ final, link.2.node.isOpenEnded = true) ∧
      e.pieces = left.pieces ++ (closed ++ final.toList).flatMap linkPieces ∧
      e.view .placeless = (chainOf left (closed ++ final.toList)).view .placeless := by
  by_cases operand : e.node.isOperand = true
  · exact ⟨e, [], none, normal, operand, by simp, by simp, by simp, (List.append_nil _).symm, rfl⟩
  · cases normal with
    | @chain span left inner last normalLeft operandLeft lexical normal operands notChain =>
      have pieces : Expression.pieces ⟨span, .chain left ((inner ++ [last]).map .plain) .joinAll⟩ =
          left.pieces ++ (inner ++ [last]).flatMap linkPieces := by
        rw [pieces_mk, ExpressionNode.pieces, List.flatMap_map]
      have seen : Expression.view .placeless ⟨span, .chain left ((inner ++ [last]).map .plain)
            .joinAll⟩ = (chainOf left (inner ++ [last])).view .placeless := by
        obtain ⟨first, others, same⟩ :=
          List.exists_cons_of_ne_nil (show inner ++ [last] ≠ [] by simp)
        rw [same, chainOf, view_mk, view_mk]
        · rfl
        · rintro ⟨⟩
      by_cases isOperand : last.2.node.isOperand = true
      · refine ⟨left, inner ++ [last], none, normalLeft, operandLeft, ?_, ?_, by simp, ?_, ?_⟩
        · simpa using normal
        · intro link member
          rcases List.mem_append.mp member with inInner | isLast
          · exact operands link inInner
          · rwa [List.mem_singleton.mp isLast]
        · simpa using pieces
        · simpa using seen
      · refine ⟨left, inner, some last, normalLeft, operandLeft, normal, operands, ?_, pieces, seen⟩
        rintro link ⟨rfl⟩
        exact ExpressionNode.isOpenEnded_of_not_isOperand isOperand notChain
    | conditional | caseOf | letDefinition | letSignature | lambda => cases notOpenEnded
    | _ => exact absurd rfl operand

/-- No chain is where no term is. -/
theorem chainExpression_refuses {term last : Parser Expression} {before : List Piece}
    (refuses : Refuses input term before) : Refuses input (chainExpression term last) before :=
  (application_refuses refuses).bind.trackNewline.bind.located.bind

/-- What extends as far right as possible begins with a word or the sign of a function. -/
theorem Expression.Normal.openEnded_begins {e : Expression} (normal : e.Normal)
    (openEnded : e.node.isOpenEnded = true) (rest : List Piece) :
    Avoids opensTerm (joinFirst (e.pieces ++ rest)) := by
  obtain ⟨span, node⟩ := e
  obtain ⟨-, first, more, same, begins⟩ := normal.writable.opening
  have opens : opensTerm first.join = false := by
    cases node with
    | conditional | caseOf | letIn | lambda =>
      obtain rfl := beq_iff_eq.mp begins
      rfl
    | _ => cases openEnded
  rw [same]
  exact .first opens _

/-- Whatever does not extend as far right as possible is read back, if what does is as the last
operand. -/
theorem chainExpression_leads {term last : Parser Expression} {bound : Nat}
    (recovers : RecoversTerms input term bound) (noOperator : ∀ symbol more, Apart more →
      Refuses input term (joinFirst (.operator symbol :: more))) {rest : List Piece}
    (follows : Follows Piece.closesExpression rest)
    (ends : ∀ f : Expression, f.Normal → f.node.isOpenEnded = true → f.pieces.length < bound →
      Leads input last (joinFirst (f.pieces ++ rest)) rest fun found =>
      found.view .placeless = f.view .placeless) {e : Expression} (normal : e.Normal)
    (notOpenEnded : e.node.isOpenEnded = false) (small : e.pieces.length < bound) :
    Leads input (chainExpression term last) (joinFirst (e.pieces ++ rest)) rest fun found =>
      found.view .placeless = e.view .placeless := by
  obtain ⟨left, closed, final, normalLeft, operandLeft, normals, operands, openEnded,
      pieces, seen⟩ :=
    normal.chained notOpenEnded
  have noTerm : ∀ before, Avoids opensTerm before → Refuses input term before :=
    recovers.refuses (by omega)
  have closesTerm : EndsOperand input term rest :=
    ⟨follows.apart, noTerm _ (follows.avoids fun piece closes => by
      obtain ⟨joined, kind, lexeme⟩ := piece
      cases kind <;> first | rfl | cases closes)⟩
  have noFurther : Refuses input infixOperator (joinFirst rest) := by
    refine (operatorSymbol_refuses (follows.avoids fun piece closes => ?_)).bind
    obtain ⟨joined, kind, lexeme⟩ := piece
    cases kind <;> first | rfl | cases closes
  rw [pieces, List.flatMap_append, List.length_append, List.length_append] at small
  rw [pieces, seen, List.flatMap_append, List.append_assoc, List.append_assoc]
  have tail : EndsOperand input term (final.toList.flatMap linkPieces ++ rest) ∧
      ∀ levels, Leads input (clausesUpTo (application term) last infixOperator (levels + 1))
        (final.toList.flatMap linkPieces ++ rest) rest fun found =>
          found.map Clause.seen = final.toList.map fun link => (Clause.plain link).seen := by
    cases final with
    | none =>
      refine ⟨closesTerm, fun levels start ahead => ?_⟩
      exact ⟨[], start, clausesUpTo_stops noFurther levels start ahead, ahead.stay, rfl⟩
    | some link =>
      have normalLink : link.2.Normal := normals link (List.mem_append_right _ (.head _))
      have shape : (some link).toList.flatMap linkPieces = linkPieces link := List.append_nil _
      rw [shape] at small ⊢
      have inside : link.2.pieces.length < bound := by
        have within : link.2.pieces.length ≤ (linkPieces link).length := Nat.le_succ _
        omega
      have begins := normalLink.openEnded_begins (openEnded link rfl) rest
      have read := ends link.2 normalLink (openEnded link rfl) inside
      exact ⟨link_ends noOperator normalLink rest, clausesUpTo_ends (noTerm _ begins) read⟩
  have chain := operatorChain_leads noOperator recovers normalLeft operandLeft
    (fun link member => normals link (List.mem_append_left _ member)) operands
    (by rw [List.length_append]; omega) tail.1 tail.2
  apply chain.bind
  rintro ⟨span, found, following, layout⟩ ⟨same, sameLinks, rfl⟩
  have result := view_chainOf same (sameLinks.trans List.map_append.symm) span
  cases following with
  | nil => exact .pure result
  | cons clause others => exact .pure result

end Marginalia
