import Marginalia.Proofs.Concatenation.Sequel
import Marginalia.Proofs.Spelling.Sequence
import Marginalia.Proofs.Tree.View

/-!
# The nesting of `let`s in a tree

Every `let` of a tree has its `in`: the words of a tree lead as deep into `let`s as they lead out of
them, and so do the tokens that spell them. The words of a pattern moreover part no declaration, so
none of the tokens that spell it does.
-/

namespace Marginalia

variable {α π τ ε : Type} {first second : List Word} {tokens : List Token}

/-! ## Words -/

namespace Word

/-- By how much a word leads deeper into `let`s. -/
def nesting : Word → Int
  | exact .keyword lexeme =>
    if lexeme = Text.ofString "let" then 1 else if lexeme = Text.ofString "in" then -1 else 0
  | _ => 0

/-- By how much words lead deeper into `let`s. -/
def depth (words : List Word) : Int := (words.map nesting).sum

/-- No words lead nowhere. -/
@[simp]
theorem depth_nil : depth [] = 0 := rfl

/-- A word leads deeper before the words behind it. -/
@[simp]
theorem depth_cons (word : Word) (words : List Word) :
    depth (word :: words) = word.nesting + depth words := by
  simp [depth]

/-- Words one after the other lead deeper together. -/
@[simp]
theorem depth_append : depth (first ++ second) = depth first + depth second := by simp [depth]

/-- Words that lead nowhere, one group after the other, lead nowhere. -/
theorem depth_flatMap {items : List α} {words : α → List Word}
    (level : ∀ item ∈ items, depth (words item) = 0) : depth (items.flatMap words) = 0 := by
  induction items with
  | nil => rfl
  | cons item rest ih =>
    obtain ⟨here, others⟩ := List.forall_mem_cons.mp level
    rw [List.flatMap_cons, depth_append, here, ih others]
    rfl

/-- Words that lead nowhere lead nowhere with others between them. -/
theorem depth_between {separator : Word} {parts : List (List Word)}
    (level : ∀ part ∈ parts, depth part = 0) (apart : separator.nesting = 0) :
    depth (between separator parts) = 0 := by
  cases parts with
  | nil => rfl
  | cons part rest =>
    obtain ⟨here, others⟩ := List.forall_mem_cons.mp level
    rw [Parser.between_cons, depth_append, here, depth_flatMap fun part member => ?_]
    · rfl
    · rw [depth_cons, apart, others part member]
      rfl

/-- A mark leads nowhere. -/
@[simp]
theorem nesting_mark (kind : TokenKind) : (mark kind).nesting = 0 := by cases kind <;> rfl

/-- A name in lower case leads nowhere. -/
@[simp]
theorem nesting_lower (name : Text) : (lower name).nesting = 0 := rfl

/-- A name in upper case leads nowhere. -/
@[simp]
theorem nesting_upper (name : Text) : (upper name).nesting = 0 := rfl

/-- An operator leads nowhere. -/
@[simp]
theorem nesting_operator (symbol : Text) : (Word.operator symbol).nesting = 0 := rfl

/-- Parts with commas between them lead nowhere if the parts do not. -/
theorem depth_listed {parts : List (List Word)} (level : ∀ part ∈ parts, depth part = 0) :
    depth (listed parts) = 0 :=
  depth_between level rfl

/-- Brackets lead no deeper than the words between them. -/
@[simp]
theorem depth_enclosed (opening closing : TokenKind) :
    depth (enclosed opening closing first) = depth first := by
  simp [enclosed]

/-- Parentheses lead no deeper than the words between them. -/
@[simp]
theorem depth_inParens : depth (inParens first) = depth first := depth_enclosed _ _

/-- Square brackets lead no deeper than the words between them. -/
@[simp]
theorem depth_inBrackets : depth (inBrackets first) = depth first := depth_enclosed _ _

/-- Braces lead no deeper than the words between them. -/
@[simp]
theorem depth_inBraces : depth (inBraces first) = depth first := depth_enclosed _ _

/-- The word may stand in a pattern. -/
def inPattern : Word → Bool
  | exact kind lexeme =>
    !partingKinds.contains kind && (kind != .keyword || lexeme == Text.ofString "as")
  | assignment => false
  | _ => true

/-- Words of patterns lead nowhere. -/
theorem nesting_of_inPattern {word : Word} (plain : word.inPattern = true) : word.nesting = 0 := by
  cases word with
  | exact kind lexeme =>
    obtain ⟨-, word⟩ := Bool.and_eq_true_iff.mp plain
    rcases Bool.or_eq_true_iff.mp word with notWord | isAs
    · cases kind <;> first | rfl | exact absurd rfl (bne_iff_ne.mp notWord)
    · obtain rfl : lexeme = Text.ofString "as" := beq_iff_eq.mp isAs
      cases kind <;> rfl
  | _ => rfl

/-- Words of patterns lead nowhere, one after the other. -/
theorem depth_of_inPattern (plain : first.all inPattern = true) : depth first = 0 := by
  induction first with
  | nil => rfl
  | cons word rest ih =>
    obtain ⟨here, others⟩ := Bool.and_eq_true_iff.mp plain
    rw [depth_cons, nesting_of_inPattern here, ih others]
    rfl

/-- Parts that may stand in a pattern may stand there with a word between them that may. -/
theorem inPattern_between {separator : Word} {parts : List (List Word)}
    (apart : separator.inPattern = true) (plain : ∀ part ∈ parts, part.all inPattern = true) :
    (between separator parts).all inPattern = true := by
  cases parts with
  | nil => rfl
  | cons part rest =>
    obtain ⟨here, others⟩ := List.forall_mem_cons.mp plain
    simp only [Parser.between_cons, List.all_append, here, Bool.true_and, List.all_flatMap,
      List.all_cons, apart]
    exact List.all_eq_true.mpr others

/-- A name in lower case may stand in a pattern. -/
@[simp]
theorem inPattern_lower (name : Text) : (lower name).inPattern = true := rfl

/-- A name in upper case may stand in a pattern. -/
@[simp]
theorem inPattern_upper (name : Text) : (upper name).inPattern = true := rfl

/-- An operator may stand in a pattern. -/
@[simp]
theorem inPattern_operator (symbol : Text) : (Word.operator symbol).inPattern = true := rfl

/-- Words may stand in a pattern in brackets if they may without. -/
theorem inPattern_enclosed {opening closing : TokenKind} (opens : (mark opening).inPattern = true)
    (closes : (mark closing).inPattern = true) :
    (enclosed opening closing first).all inPattern = first.all inPattern := by
  simp only [enclosed, List.all_cons, List.all_append, List.all_nil, opens, closes, Bool.true_and,
    Bool.and_true]

/-- Words may stand in a pattern in parentheses if they may without. -/
@[simp]
theorem inPattern_inParens : (inParens first).all inPattern = first.all inPattern :=
  inPattern_enclosed rfl rfl

/-- Words may stand in a pattern in square brackets if they may without. -/
@[simp]
theorem inPattern_inBrackets : (inBrackets first).all inPattern = first.all inPattern :=
  inPattern_enclosed rfl rfl

/-- Words may stand in a pattern in braces if they may without. -/
@[simp]
theorem inPattern_inBraces : (inBraces first).all inPattern = first.all inPattern :=
  inPattern_enclosed rfl rfl

end Word

open Word

/-! ## Patterns -/

/-- The words of a qualified name may stand in a pattern. -/
@[simp]
theorem QualifiedName.inPattern_words (name : QualifiedName) :
    (name.words upper).all Word.inPattern = true := by
  rw [words, List.all_append, List.all_flatMap, List.all_eq_true.mpr]
  · rfl
  · exact fun part _ => rfl

/-- The words of a literal may stand in a pattern. -/
@[simp]
theorem Literal.inPattern_words (literal : Literal) : literal.words.all Word.inPattern = true := by
  cases literal with
  | string text multiline => cases multiline <;> rfl
  | boolean value => cases value <;> rfl
  | _ => rfl

/-- The words of a node of a pattern may stand in a pattern if those of the patterns inside may. -/
theorem PatternNode.inPattern_words {node : PatternNode π} {inner : π → List Word}
    (plain : ∀ child ∈ node.children, (inner child).all Word.inPattern = true) :
    (node.words inner).all Word.inPattern = true := by
  cases node with
  | data tag arguments =>
    have others : ∀ argument ∈ arguments, (inner argument.value).all Word.inPattern = true :=
      fun argument member =>
      plain _ (List.mem_map_of_mem member)
    simp only [words, List.all_append, QualifiedName.inPattern_words, List.all_flatMap,
      Bool.true_and]
    exact List.all_eq_true.mpr others
  | parens pattern => simpa [words] using plain _ (.head _)
  | tuple elements =>
    simp only [words, inPattern_inParens]
    refine inPattern_between rfl (List.forall_mem_map.mpr fun element member =>
        plain _ (List.mem_map_of_mem member))
  | list elements =>
    simp only [words, inPattern_inBrackets]
    refine inPattern_between rfl (List.forall_mem_map.mpr fun element member =>
        plain _ (List.mem_map_of_mem member))
  | cons first rest =>
    refine inPattern_between rfl (List.forall_mem_cons.mpr ⟨plain _ (.head _), ?_⟩)
    exact List.forall_mem_map.mpr fun element member =>
      plain _ (.tail _ (List.mem_map_of_mem member))
  | record fields =>
    simp only [words, inPattern_inBraces]
    exact inPattern_between rfl (List.forall_mem_map.mpr fun _ _ => rfl)
  | named pattern name =>
    simp only [words, List.all_append, plain _ (.head _), Bool.true_and]
    rfl
  | _ => simp [words]

/-- All words of a pattern may stand in one. -/
theorem Pattern.inPattern_words (pattern : Pattern) : pattern.words.all Word.inPattern = true := by
  induction pattern using Pattern.induction with
  | step span node inner => simpa using PatternNode.inPattern_words inner

/-- A pattern leads nowhere. -/
@[simp]
theorem Pattern.depth_words (pattern : Pattern) : depth pattern.words = 0 :=
  depth_of_inPattern pattern.inPattern_words

/-- Arguments lead nowhere. -/
@[simp]
theorem Pattern.depth_arguments (arguments : List (Commented Pattern)) :
    depth (arguments.flatMap (·.value.words)) = 0 :=
  depth_flatMap fun argument _ => argument.value.depth_words

/-! ## Types -/

/-- A qualified name leads nowhere. -/
@[simp]
theorem QualifiedName.depth_words (name : QualifiedName) : depth (name.words upper) = 0 :=
  depth_of_inPattern name.inPattern_words

/-- The record that a record is based on leads nowhere. -/
@[simp]
theorem depth_baseWords (base : Option (Commented Text)) : depth (baseWords base) = 0 := by
  cases base <;> simp [baseWords]

/-- A node of a type leads nowhere if the types inside do not. -/
theorem TypeNode.depth_words {node : TypeNode τ} {inner : τ → List Word}
    (level : ∀ child ∈ node.children, depth (inner child) = 0) : depth (node.words inner) = 0 := by
  cases node with
  | construction tag arguments =>
    rw [words, depth_append, QualifiedName.depth_words, depth_flatMap]
    · rfl
    · exact fun argument member => level _ (List.mem_map_of_mem member)
  | parens type => simpa [words] using level _ (.head _)
  | tuple elements =>
    rw [words, depth_inParens]
    exact depth_listed (List.forall_mem_map.mpr fun element member =>
        level _ (List.mem_map_of_mem member))
  | record base fields trailing multiline =>
    rw [words, depth_inBraces, depth_append, depth_baseWords, depth_listed]
    · rfl
    · refine List.forall_mem_map.mpr fun field member => ?_
      have inside := level _ (List.mem_map_of_mem member)
      simpa [RecordTypeField.words] using inside
  | function first rest multiline =>
    refine depth_between (List.forall_mem_cons.mpr ⟨level _ (.head _), ?_⟩) (nesting_mark _)
    exact List.forall_mem_map.mpr fun element member =>
      level _ (.tail _ (List.mem_map_of_mem member))
  | _ => simp [words]

/-- A type leads nowhere. -/
@[simp]
theorem TypeExpression.depth_words (type : TypeExpression) : depth type.words = 0 := by
  induction type using TypeExpression.induction with
  | step span node inner => simpa using TypeNode.depth_words inner

/-! ## Expressions -/

/-- A literal leads nowhere. -/
@[simp]
theorem Literal.depth_words (literal : Literal) : depth literal.words = 0 :=
  depth_of_inPattern literal.inPattern_words

/-- The name of a term leads nowhere. -/
@[simp]
theorem Reference.depth_words (reference : Reference) : depth reference.words = 0 := by
  cases reference with
  | value name =>
    rw [words, QualifiedName.words, depth_append, depth_flatMap]
    · rfl
    · exact fun part _ => rfl
  | tag name => exact name.depth_words
  | operator symbol => rfl

/-- An operator leads nowhere. -/
@[simp]
theorem Reference.depth_infixWords (reference : Reference) : depth reference.infixWords = 0 := by
  cases reference with
  | operator symbol => rfl
  | value name => exact Reference.depth_words (.value name)
  | tag name => exact Reference.depth_words (.tag name)

section Declarations

variable {inner : ε → List Word}

/-- A declaration leads nowhere if its body does not. -/
theorem Declaration.depth_words {declaration : Declaration ε}
    (level : ∀ body ∈ declaration.bodies, depth (inner body) = 0) :
    depth (declaration.words inner) = 0 := by
  cases declaration with
  | definition d =>
    have body : depth (inner d.body) = 0 := level _ (.head _)
    simp [words, Definition.words, body]
  | signature s =>
    have name : depth s.name.value.words = 0 := by cases s.name.value <;> rfl
    simp [words, Signature.words, name]

/-- An entry of a `let` leads nowhere if its body does not. -/
theorem LetEntry.depth_words {entry : LetEntry ε}
    (level : ∀ body ∈ entry.bodies, depth (inner body) = 0) : depth (entry.words inner) = 0 := by
  cases entry with
  | declaration d => exact Declaration.depth_words level
  | comment c => rfl

/-- A conditional's condition and body lead nowhere together if they do not alone. -/
theorem IfClause.depth_words {clause : IfClause ε}
    (level : ∀ child ∈ clause.children, depth (inner child) = 0) :
    depth (clause.words inner) = 0 := by
  have condition : depth (inner clause.condition.value) = 0 := level _ (.head _)
  have body : depth (inner clause.body.value) = 0 := level _ (.tail _ (.head _))
  rw [words, depth_cons, depth_append, depth_cons, condition, body]
  rfl

end Declarations

/-- A node of an expression leads nowhere if the expressions inside do not. -/
theorem ExpressionNode.depth_words {node : ExpressionNode ε} {inner : ε → List Word}
    (level : ∀ child ∈ node.children, depth (inner child) = 0) : depth (node.words inner) = 0 := by
  cases node with
  | negation operand => simpa [words] using level _ (.head _)
  | range low high multiline =>
    have lower : depth (inner low.value) = 0 := level _ (.head _)
    have upper : depth (inner high.value) = 0 := level _ (.tail _ (.head _))
    simp [words, lower, upper]
  | list terms trailing multiline =>
    rw [words, depth_inBrackets]
    exact depth_listed (List.forall_mem_map.mpr fun term member =>
        level _ (List.mem_map_of_mem member))
  | application head arguments layout =>
    rw [words, depth_append, level _ (.head _), depth_flatMap]
    · rfl
    · exact fun argument member => level _ (.tail _ (List.mem_map_of_mem member))
  | chain left clauses layout =>
    rw [words, depth_append, level _ (.head _), depth_flatMap]
    · rfl
    · intro clause member
      have operand : depth (inner clause.expression) = 0 :=
        level _ (.tail _ (List.mem_map_of_mem member))
      simp [Clause.words, operand]
  | conditional first rest final =>
    have begins : depth (first.words inner) = 0 :=
      IfClause.depth_words fun child member => level _ (List.mem_append_left _ member)
    have ends : depth (inner final.value) = 0 :=
      level _ (List.mem_append_right _ (List.mem_append_right _ (.head _)))
    rw [words, depth_append, depth_append, begins, depth_flatMap, depth_cons, ends]
    · rfl
    · intro clause member
      have inside : depth (clause.value.words inner) = 0 :=
        IfClause.depth_words fun child inClause =>
        level _ (List.mem_append_right _
            (List.mem_append_left _ (List.mem_flatMap.mpr ⟨clause, member, inClause⟩)))
      rw [depth_cons, inside]
      rfl
  | caseOf subject multiline branches =>
    rw [words, depth_cons, depth_append, level _ (.head _), depth_cons, depth_flatMap]
    · rfl
    · intro branch member
      have body : depth (inner branch.value.body) = 0 :=
        level _ (.tail _ (List.mem_map.mpr ⟨branch, member, rfl⟩))
      simp [Branch.words, body]
  | letIn entries bodyComments body =>
    -- The word that opens the `let` and the one that closes it make up for each other.
    have ends : depth (inner body) = 0 := level _ (List.mem_append_right _ (.head _))
    rw [words, depth_cons, depth_append, depth_flatMap, depth_cons, ends]
    · rfl
    · exact fun entry member => LetEntry.depth_words fun child inEntry =>
        level _ (List.mem_append_left _ (List.mem_flatMap.mpr ⟨entry, member, inEntry⟩))
  | lambda arguments comments body multiline =>
    have ends : depth (inner body) = 0 := level _ (.head _)
    rw [words, depth_cons, depth_append, Pattern.depth_arguments, depth_cons, ends]
    rfl
  | tuple elements multiline =>
    rw [words, depth_inParens]
    exact depth_listed (List.forall_mem_map.mpr fun element member =>
        level _ (List.mem_map_of_mem member))
  | parens expression => simpa [words] using level _ (.head _)
  | record base fields trailing multiline =>
    rw [words, depth_inBraces, depth_append, depth_baseWords, depth_listed]
    · rfl
    · refine List.forall_mem_map.mpr fun field member => ?_
      have inside : depth (inner field.value.value.value) = 0 :=
        level _ (List.mem_map_of_mem member)
      rw [RecordPair.words, depth_cons, depth_cons, inside]
      rfl
  | access target field =>
    have inside : depth (inner target) = 0 := level _ (.head _)
    simp [words, inside]
  | tupleFunction arity =>
    rw [words, depth_inParens]
    refine depth_of_inPattern (List.all_eq_true.mpr fun word member => ?_)
    rw [List.eq_of_mem_replicate member]
    rfl
  | shader source => rfl
  | _ => simp [words]

/-- An expression leads nowhere. -/
@[simp]
theorem Expression.depth_words (expression : Expression) : depth expression.words = 0 := by
  induction expression using Expression.induction with
  | step span node inner => simpa using ExpressionNode.depth_words inner

/-! ## Modules -/

/-- A dotted name leads nowhere. -/
@[simp]
theorem depth_nameWords (parts : List Text) : depth (nameWords parts) = 0 :=
  depth_between (List.forall_mem_map.mpr fun _ _ => rfl) rfl

/-- A name in a listing leads nowhere. -/
@[simp]
theorem ListedName.depth_words (listed : ListedName) : depth listed.words = 0 := by
  have all : depth (listed.constructors.elim [] fun _ => inParens [mark .range]) = 0 := by
    cases listed.constructors <;> rfl
  rw [words, depth_append, all]
  split
  · rfl
  · split
    · rfl
    · split <;> rfl

/-- A listing leads nowhere. -/
@[simp]
theorem Listing.depth_words (listing : Listing) : depth listing.words = 0 := by
  cases listing with
  | everything comments => rfl
  | explicit names trailing =>
    rw [words, depth_inParens]
    exact depth_listed (List.forall_mem_map.mpr fun name _ => name.value.depth_words)

/-- A header leads nowhere. -/
@[simp]
theorem ModuleHeader.depth_words (header : ModuleHeader) : depth header.words = 0 := by
  rw [words, depth_cons, depth_append, depth_nameWords, depth_cons, Listing.depth_words]
  rfl

/-- An import leads nowhere. -/
@[simp]
theorem Import.depth_words (declaration : Import) : depth declaration.words = 0 := by
  have qualifier :
      depth (declaration.qualifier.elim [] fun name => [keyword "as", upper name.value]) = 0 := by
    cases declaration.qualifier <;> rfl
  have exposes : depth (declaration.exposes.elim [] fun listing => keyword "exposing" ::
        listing.value.words) = 0 := by
    cases declaration.exposes with
    | none => rfl
    | some listing =>
      show depth (keyword "exposing" :: listing.value.words) = 0
      rw [depth_cons, Listing.depth_words]
      rfl
  rw [words, depth_cons, depth_append, depth_append, depth_nameWords, qualifier, exposes]
  rfl

/-- A constructor leads nowhere. -/
@[simp]
theorem ConstructorVariant.depth_words (variant : ConstructorVariant) :
    depth variant.words = 0 := by
  rw [words, depth_cons, depth_flatMap fun argument _ => argument.value.depth_words]
  rfl

/-- The parameters of a type lead nowhere. -/
theorem depth_parameters (parameters : List (Commented Text)) :
    depth (parameters.map (lower ·.value)) = 0 := by
  induction parameters with
  | nil => rfl
  | cons parameter rest ih => simpa using ih

/-- An entry of a module leads nowhere. -/
@[simp]
theorem TopLevel.depth_words (entry : TopLevel) : depth entry.words = 0 := by
  cases entry with
  | declaration d => exact Declaration.depth_words fun body _ => body.depth_words
  | fixity f =>
    cases same : f.associativity <;> rw [words, FixityDeclaration.words, same] <;> rfl
  | typeAlias a =>
    have ends : depth (mark .equals :: a.type.value.words) = 0 := by simp
    rw [words, TypeAlias.words, depth_append, depth_append, depth_parameters, ends]
    rfl
  | datatype d =>
    have variants : depth (between (mark .pipe) (d.variants.map (·.value.value.words))) = 0 :=
      depth_between (List.forall_mem_map.mpr fun variant _ => variant.value.value.depth_words) rfl
    have ends : depth (mark .equals ::
          between (mark .pipe) (d.variants.map (·.value.value.words))) = 0 := by
      rw [depth_cons, variants]
      rfl
    rw [words, Datatype.words, depth_append, depth_append, depth_parameters, ends]
    rfl
  | comment c => rfl

/-- A module leads nowhere: every `let` in it has its `in`. -/
theorem Module.depth_words (module : Module) : depth module.words = 0 := by
  have header : depth (module.header.elim [] (·.value.words)) = 0 := by
    cases module.header with
    | none => rfl
    | some header => exact header.value.depth_words
  rw [words, depth_append, depth_append, header, depth_flatMap fun declaration _ =>
      declaration.value.value.depth_words, depth_flatMap fun entry _ => entry.value.depth_words]
  rfl

/-! ## Tokens -/

/-- The tokens that spell a word lead as deep as the word. -/
theorem Word.Spells.nesting {word : Word} (spells : word.Spells tokens) :
    (tokens.map Token.nesting).sum = word.nesting := by
  cases word with
  | exact kind lexeme =>
    obtain ⟨token, rfl, rfl, rfl⟩ := spells
    show token.nesting + 0 = _
    by_cases isWord : token.kind = .keyword
    · simp [Token.nesting, Word.nesting, isWord]
    · rw [Token.nesting_of_ne isWord]
      unfold Word.nesting
      split
      · rename_i same
        injection same with same
        exact absurd same isWord
      · rfl
  | lambda =>
    obtain ⟨token, rfl, ⟨kind, -⟩ | ⟨kind, -⟩⟩ := spells
    · simp [Token.nesting, Word.nesting, kind]
    · simp [Token.nesting, Word.nesting, kind]
  | assignment =>
    obtain ⟨token, rfl, ⟨kind, -⟩ | ⟨kind, -⟩⟩ := spells
    · simp [Token.nesting, Word.nesting, kind]
    · simp [Token.nesting, Word.nesting, kind]
  | number literal =>
    obtain ⟨token, rfl, kind, -⟩ := spells
    simp [Token.nesting, Word.nesting, kind]
  | precedence value =>
    obtain ⟨token, rfl, kind, -⟩ := spells
    simp [Token.nesting, Word.nesting, kind]
  | shader source =>
    obtain ⟨token, body, rfl, ⟨kind, -⟩, -⟩ := spells
    simp [Token.nesting, Word.nesting, kind]
  | operatorName symbol =>
    obtain ⟨token, rfl, kind, -⟩ |
        ⟨opening, token, closing, rfl, ⟨opens, -⟩, ⟨kind, -⟩, closes, -⟩ := spells
    · simp [Token.nesting, Word.nesting, kind]
    · simp [Token.nesting, Word.nesting, kind, opens, closes]

/-- The tokens that spell words lead as deep as the words. -/
theorem Spelled.nesting {words : List Word} (spelled : Spelled words tokens) :
    (tokens.map Token.nesting).sum = depth words := by
  induction spelled with
  | nil => rfl
  | cons spells _ ih => rw [List.map_append, List.sum_append, spells.nesting, ih, depth_cons]

/-- A token of a kind that parts nothing parts no declaration. -/
theorem Token.parts_of_kind {token : Token} (kind : token.kind ∉ partingKinds)
    (notWord : token.kind ≠ .keyword) : token.parts = false := by
  simp [Token.parts, kind, notWord]

/-- No token that spells a word of a pattern parts a declaration. -/
theorem Word.Spells.parts {word : Word} (spells : word.Spells tokens)
    (plain : word.inPattern = true) : ∀ token ∈ tokens, token.parts = false := by
  cases word with
  | exact kind lexeme =>
    obtain ⟨token, rfl, rfl, rfl⟩ := spells
    obtain ⟨kind, word⟩ := Bool.and_eq_true_iff.mp plain
    refine List.forall_mem_singleton.mpr ?_
    have notSign : token.kind ∉ partingKinds := by simpa using kind
    rcases Bool.or_eq_true_iff.mp word with notWord | isAs
    · exact Token.parts_of_kind notSign (bne_iff_ne.mp notWord)
    · have notDeclaring : (declaringWords.any fun word => token.lexeme == Text.ofString word) =
          false := by
        rw [beq_iff_eq.mp isAs]
        decide
      simp [Token.parts, notSign, notDeclaring]
  | lambda =>
    obtain ⟨token, rfl, ⟨kind, -⟩ | ⟨kind, -⟩⟩ := spells
    all_goals
      exact List.forall_mem_singleton.mpr
        (Token.parts_of_kind (by simp [kind, partingKinds]) (by simp [kind]))
  | assignment => cases plain
  | number literal =>
    obtain ⟨token, rfl, kind, -⟩ := spells
    exact List.forall_mem_singleton.mpr
      (Token.parts_of_kind (by simp [kind, partingKinds]) (by simp [kind]))
  | precedence value =>
    obtain ⟨token, rfl, kind, -⟩ := spells
    exact List.forall_mem_singleton.mpr
      (Token.parts_of_kind (by simp [kind, partingKinds]) (by simp [kind]))
  | shader source =>
    obtain ⟨token, body, rfl, ⟨kind, -⟩, -⟩ := spells
    exact List.forall_mem_singleton.mpr
      (Token.parts_of_kind (by simp [kind, partingKinds]) (by simp [kind]))
  | operatorName symbol =>
    have plainKinds {token : Token} (kind : token.kind ∈ [.operator, .leftParen, .rightParen]) :
        token.parts = false := by
      refine Token.parts_of_kind (fun member => ?_) fun isWord => ?_
      · revert kind member
        cases token.kind <;> decide
      · rw [isWord] at kind
        revert kind
        decide
    obtain ⟨token, rfl, kind, -⟩ |
        ⟨opening, token, closing, rfl, ⟨opens, -⟩, ⟨kind, -⟩, closes, -⟩ := spells
    · exact List.forall_mem_singleton.mpr (plainKinds (by simp [kind]))
    · simp only [List.forall_mem_cons, List.not_mem_nil, false_imp_iff, implies_true, and_true]
      exact ⟨plainKinds (by simp [opens]), plainKinds (by simp [kind]),
        plainKinds (by simp [closes])⟩

/-- No token that spells words of a pattern parts a declaration. -/
theorem Spelled.parts {words : List Word} (spelled : Spelled words tokens)
    (plain : words.all Word.inPattern = true) : ∀ token ∈ tokens, token.parts = false := by
  induction spelled with
  | nil => exact List.forall_mem_nil _
  | cons spells _ ih =>
    obtain ⟨here, others⟩ := Bool.and_eq_true_iff.mp plain
    exact List.forall_mem_append.mpr ⟨spells.parts here, ih others⟩

/-- Comments and the end of a source lead nowhere. -/
theorem nesting_solidOf (tokens : List Token) :
    ((solidOf tokens).map Token.nesting).sum = (tokens.map Token.nesting).sum := by
  induction tokens with
  | nil => rfl
  | cons token rest ih =>
    rw [List.map_cons, List.sum_cons, ← ih]
    by_cases solid : (!token.isComment && token.kind != .eof) = true
    · rw [solidOf, List.filter_cons, if_pos solid]
      rfl
    · rw [solidOf, List.filter_cons, if_neg solid]
      have level : token.nesting = 0 := by
        rcases Bool.eq_false_or_eq_true token.isComment with comment | notComment
        · exact Token.nesting_of_isComment comment
        · refine Token.nesting_of_ne fun isWord => solid ?_
          rw [notComment, isWord]
          rfl
      rw [level, Int.zero_add]
      rfl

end Marginalia
