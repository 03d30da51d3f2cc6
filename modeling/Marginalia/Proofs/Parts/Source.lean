import Marginalia.Proofs.Parts.Module
import Marginalia.Proofs.Spelling.Source

/-!
# Everything in a source obeys the laws

Main statements: however deep a part stands in what a source is read as, its layout flags tell the
line breaks of the source, it is in normal form, it keeps to the offside rule, blanks and columns
tell what its minus signs are, and its words stand in the source.
-/

namespace Marginalia

variable {source : Text} {tokens : List Token} {placed : Placed}

/-! ## Parts of a source -/

/-- The column of the first token that is no comment. -/
def firstColumn (tokens : List Token) : Nat :=
  ((solidFrom tokens .start).map (·.span.start.column)).getD 1

/-- What a source with these tokens is read as, and the column that it is measured from. -/
inductive Root (source : Text) (tokens : List Token) : Placed → Prop where
  | entry {module : Module} {entry : Located TopLevel} (read : Module.parse source = .ok module)
      (member : entry ∈ module.body) : Root source tokens ⟨1, .entry entry⟩
  | expression {found : Commented Expression} (read : Expression.parse source = .ok found) :
      Root source tokens ⟨firstColumn tokens, .expression found.value⟩
  | pattern {found : Commented Pattern} (read : Pattern.parse source = .ok found) :
      Root source tokens ⟨firstColumn tokens, .pattern found.value⟩
  | type {found : Commented TypeExpression} (read : TypeExpression.parse source = .ok found) :
      Root source tokens ⟨firstColumn tokens, .type found.value⟩

/-- The part is what a source is read as, or stands somewhere in it. -/
def Placed.IsReadFrom (placed : Placed) (source : Text) (tokens : List Token) : Prop :=
  ∃ root, Root source tokens root ∧ placed.Within root

/-- What is read alone obeys the laws everywhere, measured from the first column. -/
theorem whole_sound {α : Type} {parser : Parser α} {span : α → Span} {part : α → Part}
    {shape : α → Prop} (scan : Token.scan source = .ok tokens)
    (builds : ∀ {input : Input}, input.Scanned → Builds input 0 parser span part shape)
    {found : Commented α} (read : (Grammar.whole parser).run source = .ok found) :
    Placed.Everywhere (Placed.Sound source tokens) ⟨firstColumn tokens, part found.value⟩ := by
  obtain ⟨input, stop, rfl, scan', run⟩ := run_eq_ok read
  obtain rfl : tokens = input.tokens.toList := Except.ok.inj (scan.symm.trans scan')
  have scanned := Input.Scanned.of_scan rfl scan'
  obtain ⟨first, begins, obeys⟩ := whole_obeys scanned (builds scanned) run
  rw [firstColumn, begins]
  exact obeys

/-- What a source is read as obeys the laws everywhere. -/
theorem Root.sound (scan : Token.scan source = .ok tokens) (root : Root source tokens placed) :
    placed.Everywhere (Placed.Sound source tokens) := by
  cases root with
  | entry read member =>
    obtain ⟨input, stop, rfl, scan', run⟩ := run_eq_ok read
    obtain rfl : tokens = input.tokens.toList := Except.ok.inj (scan.symm.trans scan')
    exact module_obeys (.of_scan rfl scan') run _ member
  | expression read => exact whole_sound scan (fun scanned => (scanned.knot 0).expressions) read
  | pattern read => exact whole_sound scan pattern_builds read
  | type read => exact whole_sound scan typeExpression_builds read

/-! ## Main statements -/

/-- Layout flags tell the line breaks of the source, in every part of what the source is read as. -/
theorem layout_flags_tell_line_breaks (scan : Token.scan source = .ok tokens)
    (read : placed.IsReadFrom source tokens) : placed.part.Flagged source tokens := by
  obtain ⟨root, isRoot, within⟩ := read
  exact (isRoot.sound scan placed within).flagged

/-- Line breaks in a subject, an application, a field and a list are told everywhere in a case
distinction. -/
theorem broken_case_tells_line_breaks :
    ∃ (source : Text) (tokens : List Token) (found : Commented Expression),
      source = "case f\n  x of\n A -> \x7b a =\n  1, b = 2 \x7d\n B -> [ 1,\n  2 ]" ∧
      Token.scan source = .ok tokens ∧ Expression.parse source = .ok found ∧
      ∀ placed : Placed, placed.Within ⟨firstColumn tokens, .expression found.value⟩ →
        placed.part.Flagged source tokens := by
  obtain ⟨found, read⟩ := ok_of_isOk (show (Expression.parse
      "case f\n  x of\n A -> \x7b a =\n  1, b = 2 \x7d\n B -> [ 1,\n  2 ]").isOk =
      true by decide +kernel)
  obtain ⟨input, _, _, scan, _⟩ := run_eq_ok read
  exact ⟨_, _, found, rfl, scan, read, fun placed within =>
    layout_flags_tell_line_breaks scan ⟨_, .expression read, within⟩⟩

/-- Every part of what a source is read as is in normal form. -/
theorem parts_are_in_normal_form (scan : Token.scan source = .ok tokens)
    (read : placed.IsReadFrom source tokens) : placed.part.Canonical := by
  obtain ⟨root, isRoot, within⟩ := read
  exact (isRoot.sound scan placed within).canonical

/-- A conditional with a further condition, a negated field and a chain is in normal form
everywhere. -/
theorem conditional_is_in_normal_form :
    ∃ (source : Text) (tokens : List Token) (found : Commented Expression),
      source = "if -x.y < 0 then f (a, b) else if True then (,) else \\(p :: q) -> p + g M.q" ∧
      Token.scan source = .ok tokens ∧ Expression.parse source = .ok found ∧ ∀ placed : Placed,
      placed.Within ⟨firstColumn tokens, .expression found.value⟩ → placed.part.Canonical := by
  obtain ⟨found, read⟩ := ok_of_isOk (show (Expression.parse
      "if -x.y < 0 then f (a, b) else if True then (,) else \\(p :: q) -> p + g M.q").isOk =
      true by decide +kernel)
  obtain ⟨input, _, _, scan, _⟩ := run_eq_ok read
  exact ⟨_, _, found, rfl, scan, read, fun placed within =>
    parts_are_in_normal_form scan ⟨_, .expression read, within⟩⟩

/-- Every part of what a source is read as keeps to the offside rule. -/
theorem parts_keep_to_offside_rule (scan : Token.scan source = .ok tokens)
    (read : placed.IsReadFrom source tokens) : placed.Offside tokens := by
  obtain ⟨root, isRoot, within⟩ := read
  exact (isRoot.sound scan placed within).offside

/-- A module with nested blocks keeps to the offside rule everywhere. -/
theorem nested_blocks_keep_to_offside_rule :
    ∃ (source : Text) (tokens : List Token) (module : Module),
      source =
        "type T\n a = T a\nf x =\n case x of\n  A b -> let\n    y = g\n     b\n" ++
          "    z = y\n   in h\n   z\n  C -> x" ∧
      Token.scan source = .ok tokens ∧ Module.parse source = .ok module ∧ module.body.length = 2 ∧
      ∀ entry ∈ module.body, ∀ placed : Placed, placed.Within ⟨1, .entry entry⟩ →
        placed.Offside tokens := by
  let source : Text :=
    "type T\n a = T a\nf x =\n case x of\n  A b -> let\n    y = g\n     b\n" ++
      "    z = y\n   in h\n   z\n  C -> x"
  have entries : (Module.parse source).toOption.map (·.body.length) = some 2 := by decide +kernel
  obtain ⟨module, read, two⟩ := ok_of_toOption_map entries
  obtain ⟨input, _, _, scan, _⟩ := run_eq_ok read
  exact ⟨source, _, module, rfl, scan, read, two, fun entry member placed within =>
    parts_keep_to_offside_rule scan ⟨_, .entry read member, within⟩⟩

/-- Blanks and columns tell negations from subtractions in every part of what a source is read as: a
negation stands directly before its operand, as an argument it stands apart from what is before it,
and an operator directly before its operand stands directly behind the one before it or not past the
reference. -/
theorem minus_signs_are_told (scan : Token.scan source = .ok tokens)
    (read : placed.IsReadFrom source tokens) : placed.Signed := by
  obtain ⟨root, isRoot, within⟩ := read
  exact (isRoot.sound scan placed within).signed

/-- The first minus sign is a negation, the second one an operator in the first column, the third
one an operator that is joined to both operands. -/
theorem minus_signs_of_chain_are_told :
    ∃ (source : Text) (tokens : List Token) (found : Commented Expression), source = "a -b\n-c-d" ∧
      Token.scan source = .ok tokens ∧ Expression.parse source = .ok found ∧
      found.value.node.isChain = true ∧ found.value.node.children.length = 3 ∧ ∀ placed : Placed,
      placed.Within ⟨firstColumn tokens, .expression found.value⟩ → placed.Signed := by
  have operands : (Expression.parse "a -b\n-c-d").toOption.map (fun found =>
      (found.value.node.isChain, found.value.node.children.length)) = some (true,
        3) := by decide +kernel
  obtain ⟨found, read, seen⟩ := ok_of_toOption_map operands
  obtain ⟨isChain, three⟩ := Prod.mk.inj seen
  obtain ⟨input, _, _, scan, _⟩ := run_eq_ok read
  exact ⟨_, _, found, rfl, scan, read, isChain, three, fun placed within =>
    minus_signs_are_told scan ⟨_, .expression read, within⟩⟩

/-- The words of every part of what a source is read as stand in the source as they are told. Names,
operators, fields and signs have neither a blank nor a comment in them. -/
theorem words_stand_in_source (scan : Token.scan source = .ok tokens)
    (read : placed.IsReadFrom source tokens) : placed.part.Echoes source tokens := by
  obtain ⟨root, isRoot, within⟩ := read
  exact (isRoot.sound scan placed within).echoes

/-- A qualified name, a negated field, functions for a field, a tuple and an operator, literals and
an operator behind a comment all stand in their source. -/
theorem words_of_application_stand_in_source :
    ∃ (source : Text) (tokens : List Token) (found : Commented Expression), source =
      "M.N.f -x.y .z (,,) (++) \"\\n\" \x7b- c -\x7d <> True" ∧ Token.scan source = .ok tokens ∧
      Expression.parse source = .ok found ∧ found.value.node.isChain = true ∧
      ∀ placed : Placed, placed.Within ⟨firstColumn tokens, .expression found.value⟩ →
      placed.part.Echoes source tokens := by
  let source : Text := "M.N.f -x.y .z (,,) (++) \"\\n\" \x7b- c -\x7d <> True"
  have form : (Expression.parse source).toOption.map (·.value.node.isChain) = some true := by
    decide +kernel
  obtain ⟨found, read, isChain⟩ := ok_of_toOption_map form
  obtain ⟨input, _, _, scan, _⟩ := run_eq_ok read
  exact ⟨source, _, found, rfl, scan, read, isChain, fun placed within =>
    words_stand_in_source scan ⟨_, .expression read, within⟩⟩

end Marginalia
