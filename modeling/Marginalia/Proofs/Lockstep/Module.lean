import Marginalia.Grammar.Module
import Marginalia.Proofs.Lockstep.Expression

/-!
# Modules in lockstep

The rules of modules run in lockstep on corresponding inputs, and so does the reading of a whole
source. Between declarations the next token is asked for as it is, a comment or not; there both runs
have just passed over comments, so that the next tokens are alike.
-/

namespace Marginalia.Grammar

open Marginalia.Parser

variable {left right : Input} {c : Correspondence left right} {n d : Nat}

/-! ## Header and imports -/

/-- The parts of a module's name run in lockstep. -/
theorem moduleName_steps : c.Steps n 1 View.plain moduleName moduleName :=
  .andThen qualifiedUpperName_steps fun _ _ same => .pure (congrArg QualifiedName.parts same)

/-- Two dots in parentheses run in lockstep. -/
theorem everything_steps : c.Steps n 1 View.comments everything everything := by
  refine .attempt (.bind .whitespace fun before before' sameBefore =>
      .andThen (.token (by decide) _) fun _ _ _ => ?_)
  refine .bind .whitespace fun after after' sameAfter =>
    .weaken (.andThen (.token (by decide) _) fun _ _ _ => .pure ?_)
  rw [Correspondence.Same, View.comments_append, View.comments_append, sameBefore, sameAfter]

/-- The mark for all constructors runs in lockstep. -/
theorem allConstructors_steps : c.Steps n 1 View.comments allConstructors allConstructors := by
  refine .attempt (.bind .whitespace fun _ _ same => .andThen (.token (by decide) _)
      fun _ _ _ => ?_)
  refine .weaken (.andThen (.token (by decide) _) fun _ _ _ => ?_)
  exact .weaken (.andThen (.token (by decide) _) fun _ _ _ => .pure same)

/-- A name in a listing runs in lockstep. -/
theorem listedName_steps : c.Steps n 1 ListedName.view listedName listedName := by
  refine .choiceNamed _ (.cons ?_ (.cons ?_ (.cons ?_ .nil)))
  · exact .andThen lowerName_steps fun _ _ same => .pure (congrArg (ListedName.mk · none) same)
  · exact .andThen parenthesizedOperator_steps fun _ _ same =>
      .pure (congrArg (fun symbol => ListedName.mk ("(" ++ symbol ++ ")") none) same)
  · refine .andThen upperName_steps fun _ _ sameName => .bind allConstructors_steps.optional
      fun _ _ same => .pure ?_
    exact congrArg₂ ListedName.mk sameName same

/-- A listing runs in lockstep. -/
theorem listing_steps : c.Steps n 1 Listing.view listing listing := by
  refine .andThen (.token (by decide) _) fun _ _ _ => .bind everything_steps.optional
    fun found found' same => ?_
  match found, found', same with
  | some comments, some comments', same =>
    exact .pure (congrArg Listing.everything (Option.some.inj same))
  | none, none, _ =>
    refine .bind (.separated rfl (by decide) listedName_steps _)
      fun contents contents' sameContents => .pure ?_
    obtain ⟨sameItems, sameTrailing⟩ := Items.mk.inj sameContents
    exact congrArg₂ Listing.explicit sameItems sameTrailing

/-- The header of a module runs in lockstep. -/
theorem moduleHeader_steps :
    c.Steps n 1 (fun view => Located.view view (ModuleHeader.view view)) moduleHeader
      moduleHeader := by
  refine .located (.andThen (.keyword "module") fun _ _ _ =>
      .bind .whitespace fun _ _ samePreName => ?_)
  refine .bind moduleName_steps.weaken fun _ _ sameName =>
    .bind .whitespace fun _ _ samePostName => ?_
  refine .bind (.weaken (.keyword "exposing")) fun _ _ _ =>
    .bind .whitespace fun _ _ samePreListing => ?_
  refine .bind listing_steps.weaken fun _ _ sameListing => .pure ?_
  simp [ModuleHeader.view, Commented.pre, samePreName, sameName.eq, samePostName,
    samePreListing, sameListing]

/-- A word and what it introduces run in lockstep if what it introduces does. -/
theorem introduced_steps {α γ : Type} {seen : View → α → γ} {p q : Parser α} (word : String)
    (steps : c.Steps n d seen p q) :
    c.Steps n 1 (fun view => Commented.view view (seen view)) (introduced word p)
      (introduced word q) := by
  refine .attempt (.bind .whitespace fun _ _ sameBefore => .andThen (.keyword word) fun _ _ _ => ?_)
  refine .bind .whitespace fun _ _ sameAfter => .bind steps.weaken fun _ _ same => .pure ?_
  simp [Commented.pre, sameBefore, sameAfter, same]

/-- An import runs in lockstep. -/
theorem importDeclaration_steps :
    c.Steps n 1 (fun view => Located.view view (Import.view view)) importDeclaration
      importDeclaration := by
  refine .located (.andThen (.keyword "import") fun _ _ _ =>
      .bind .whitespace fun _ _ samePreName => ?_)
  refine .bind moduleName_steps.weaken fun _ _ sameName => ?_
  refine .bind (introduced_steps "as" upperName_steps).optional
    fun qualifier qualifier' sameQualifier => ?_
  refine .bind (introduced_steps "exposing" listing_steps).optional
    fun exposes exposes' sameExposes => .pure ?_
  simp only [Correspondence.Same, View.plain_eq_id] at sameQualifier sameExposes
  simp [Import.view, Commented.pre, samePreName, sameName.eq, sameQualifier, sameExposes]

/-! ## Declarations -/

/-- The declaration of an operator's fixity runs in lockstep. -/
theorem fixityDeclaration_steps :
    c.Steps n 1 FixityDeclaration.view fixityDeclaration fixityDeclaration := by
  have word : c.Steps n 1 Token.view (satisfy (fun token =>
        token.kind == .keyword && (fixityKeyword? token.lexeme).isSome) "an infix declaration")
        (satisfy (fun token => token.kind == .keyword && (fixityKeyword? token.lexeme).isSome)
        "an infix declaration") := by
    refine .satisfy (fun t t' sameKind sameLexeme => ?_) (fun t isWord ends => ?_) _
    · rw [sameKind, sameLexeme]
    · rw [ends] at isWord
      cases isWord
  refine .andThen word fun keyword keyword' sameKeyword =>
    .bind .whitespace fun _ _ samePrecedence => ?_
  refine .weaken (.tokenThen (by decide) _ fun number number' sameNumber reports => ?_)
  rw [(Token.eq_of_view sameKeyword).2, (Token.eq_of_view sameNumber).2]
  cases precedenceOf? number'.lexeme with
  | none => exact .rejectPrecedence sameNumber reports
  | some precedence =>
    refine .bind .whitespace fun _ _ sameOperator => ?_
    refine .weaken (.andThen (.choice (.cons parenthesizedOperator_steps
        (.cons operatorSymbol_steps .nil))) fun _ _ sameSymbol => .pure ?_)
    simp [FixityDeclaration.view, Commented.pre, samePrecedence, sameOperator, sameSymbol.eq]

/-- The word that makes another name for a type runs in lockstep. -/
theorem aliasWord_steps : c.Steps n 1 View.comments aliasWord aliasWord :=
  .attempt (.bind .whitespace fun _ _ same => .andThen (.spelled (by decide) _)
      fun _ _ _ => .pure same)

/-- A bar between two constructors runs in lockstep. -/
theorem variantBar_steps : c.Steps n 1 View.comments variantBar variantBar :=
  .attempt (.bind .whitespace fun _ _ same => .andThen (.token (by decide) _)
      fun _ _ _ => .pure same)

/-- A constructor runs in lockstep. -/
theorem variant_steps :
    c.Steps n 1 (fun view => Located.view view (ConstructorVariant.view view)) variant variant :=
  .located (.andThen upperName_steps fun _ _ sameName => .bind (spaced_steps typeTerm_steps)
      fun _ _ same =>
    .pure (congrArg₂ ConstructorVariant.mk sameName same))

/-- What is seen of the constructors of a type. -/
def variantsView (view : View) :
    List (Commented (Located ConstructorVariant)) → List (Commented (Located ConstructorVariant)) :=
  List.map (Commented.view view (Located.view view (ConstructorVariant.view view)))

/-- Constructors under bounds that exceed the tokens left run in lockstep. -/
theorem variantsUpTo_steps (m bound bound' : Nat) {before before' : Comments}
    (same : c.Same View.comments before before') (enough : m < bound) (enough' : m < bound') :
    c.Steps m 1 variantsView (variantsUpTo bound before) (variantsUpTo bound' before') := by
  induction m generalizing bound bound' before before' with
  | zero => exact .of_none
  | succ m ih =>
    obtain ⟨bound, rfl, further⟩ := Correspondence.Steps.exists_succ_of_lt enough
    obtain ⟨bound', rfl, further'⟩ := Correspondence.Steps.exists_succ_of_lt enough'
    refine .follow variant_steps fun first first' sameFirst => .bind variantBar_steps.optional
      fun bar bar' sameBar => ?_
    match bar, bar', sameBar with
    | none, none, _ =>
      exact .pure (congrArg (fun item => [item]) (Correspondence.Same.pre c same sameFirst))
    | some after, some after', sameBar =>
      refine .bind .whitespace fun next next' sameNext => ?_
      refine .weaken (.andThen (ih bound bound' sameNext further further')
          fun rest rest' sameRest => .pure ?_)
      exact congrArg₂ List.cons
        (Correspondence.Same.commented c same sameFirst (Option.some.inj sameBar)) sameRest

/-- The declaration of a type or of another name for one runs in lockstep. -/
theorem typeDeclaration_steps : c.Steps n 1 TopLevel.view? typeDeclaration typeDeclaration := by
  refine .andThen (.keyword "type") fun _ _ _ => .bind aliasWord_steps.optional
    fun word word' sameWord => ?_
  refine .bind .whitespace fun preName preName' samePreName =>
    .bind upperName_steps.weaken fun name name' sameName => ?_
  refine .bind (spaced_steps lowerName_steps) fun parameters parameters' sameParameters => ?_
  refine .bind .whitespace fun preEquals preEquals' samePreEquals => ?_
  refine .weaken (.andThen (.token (by decide) _) fun _ _ _ =>
      .bind .whitespace fun postEquals postEquals' samePost => ?_)
  obtain rfl := sameName.eq
  simp only [Correspondence.Same, View.plain_eq_id] at sameParameters
  have sameComments :
      c.Same View.comments (preEquals ++ postEquals) (preEquals' ++ postEquals') := by
    rw [Correspondence.Same, View.comments_append, View.comments_append, samePreEquals, samePost]
  cases word with
  | none =>
    cases word' with
    | none =>
      have variants : c.Steps n 1 variantsView (variants (preEquals ++ postEquals))
          (variants (preEquals' ++ postEquals')) :=
        .limited Correspondence.Steps.size_lt_repetitionLimit fun m bound bound' _ enough enough' =>
          variantsUpTo_steps m bound bound' sameComments enough enough'
      refine .weaken (.andThen variants fun found found' same => .pure ?_)
      simp only [Correspondence.Same, variantsView] at same
      simp [TopLevel.view?, Datatype.view, Commented.pre, samePreName, sameParameters, same]
    | some preAlias' => cases sameWord
  | some preAlias =>
    cases word' with
    | none => cases sameWord
    | some preAlias' =>
      have samePreAlias : c.leftView.comments preAlias = c.rightView.comments preAlias' :=
        Option.some.inj sameWord
      refine .weaken (.andThen typeExpression_steps fun type type' sameType => .pure ?_)
      simp only [Correspondence.Same, View.comments_append] at sameComments
      simp [TopLevel.view?, TypeAlias.view, Commented.pre, samePreAlias, samePreName,
        sameParameters, sameComments, sameType]

/-- A declaration at the top level runs in lockstep. -/
theorem topLevel_steps :
    c.Steps n 1 (fun view => Located.view view (TopLevel.view? view)) topLevel topLevel := by
  refine .column (k := fun column => if column ≠ 1 then _ else _) fun column => ?_
  split
  · exact .fail _
  · refine .withReference (.located
        (.choiceNamed _ (.cons ?_ (.cons typeDeclaration_steps (.cons ?_ .nil)))))
    · exact .andThen fixityDeclaration_steps fun _ _ same =>
        .pure (congrArg (fun found => some (TopLevel.fixity found)) same)
    · exact .andThen (declaration_steps expression_steps) fun _ _ same =>
        .pure (congrArg (fun found => some (TopLevel.declaration found)) same)

/-! ## Whole sources -/

/-- What is seen of imports and the comments after them. -/
def importsView (view : View) (found : List (Commented (Located Import)) × Located Comments) :
    List (Commented (Located Import)) × Located Comments :=
  (found.1.map (Commented.view view (Located.view view (Import.view view))),
    found.2.view view view.comments)

/-- Imports under bounds that exceed the tokens left run in lockstep, and leave next tokens of one
kind. -/
theorem importsUpTo_meets (m bound bound' : Nat) {pending pending' : Located Comments}
    (same : c.Same (fun view => Located.view view view.comments) pending pending') {l r : Cursor}
    (along : c.Along l r) (settled : c.Settled l r) (within : right.tokens.size - r.index ≤ m)
    (enough : m < bound) (enough' : m < bound') :
    c.Meets (fun a l' b r' => c.Leads importsView 0 r a l' b r' ∧ c.Settled l' r')
      (importsUpTo bound pending left l) (importsUpTo bound' pending' right r) := by
  induction m generalizing bound bound' pending pending' l r with
  | zero =>
    have some := c.unread_pos along
    omega
  | succ m ih =>
    obtain ⟨bound, rfl, further⟩ := Correspondence.Steps.exists_succ_of_lt enough
    obtain ⟨bound', rfl, further'⟩ := Correspondence.Steps.exists_succ_of_lt enough'
    have test : c.Steps (m + 1) 0 View.plain (peekSpelled .keyword "import")
          (peekSpelled .keyword "import") :=
      .peekSpelled rfl _
    refine (test l r along within).withRun.bind ?_
    rintro isImport l₁ _ r₁ ⟨⟨sameTest, -, -, -⟩, run, run'⟩
    obtain rfl := sameTest.eq
    obtain ⟨rfl, -⟩ := peekThat_done run
    obtain ⟨rfl, -⟩ := peekThat_done run'
    cases isImport with
    | false => exact .done ⟨⟨Prod.ext rfl same, along, Nat.le_refl _, Nat.le_refl _⟩, settled⟩
    | true =>
      refine (importDeclaration_steps l₁ r₁ along within).bind ?_
      rintro declaration l₂ declaration' r₂ ⟨sameDeclaration, along₂, index₂, offset₂⟩
      refine (Correspondence.Steps.whitespace_settles along₂).bind ?_
      rintro next l₃ next' r₃ ⟨⟨sameNext, along₃, index₃, offset₃⟩, settled₃⟩
      refine (ih bound bound' sameNext along₃ settled₃ (by omega) further further').bind ?_
      rintro ⟨rest, last⟩ l₄ ⟨rest', last'⟩ r₄ ⟨⟨sameRest, along₄, index₄, offset₄⟩, settled₄⟩
      obtain ⟨sameImports, sameLast⟩ := Prod.mk.inj sameRest
      have sameFirst := Correspondence.Same.pre c (congrArg Located.value same) sameDeclaration
      exact .done ⟨⟨Prod.ext (congrArg₂ List.cons sameFirst sameImports) sameLast,
        along₄, by omega, by omega⟩, settled₄⟩

/-- What is seen of the entries at the top level. -/
def entriesView (view : View) : List (Located TopLevel) → List (Located TopLevel) :=
  Located.viewAll view (TopLevel.view? view)

/-- Comments that are seen alike are seen alike as entries. -/
theorem commentEntries_same {comments comments' : Located Comments}
    (same : c.Same (fun view => Located.view view view.comments) comments comments') :
    c.Same entriesView (commentEntries comments) (commentEntries comments') := by
  obtain ⟨sameSpan, sameComments⟩ := Located.mk.inj same
  have entries : ∀ (view : View) (found : Located Comments),
        entriesView view (commentEntries found) = (view.comments found.value).map fun comment =>
        ⟨view.span found.span, .comment comment⟩ := by
    intro view found
    refine Located.viewAll_comments ?_ found.span found.value
    exact fun comment => rfl
  rw [Correspondence.Same, entries, entries, sameSpan, sameComments]

/-- Declarations under bounds that exceed the tokens left run in lockstep where the next tokens are
of one kind. -/
theorem declarationsUpTo_meets (m bound bound' : Nat) {l r : Cursor} (along : c.Along l r)
    (settled : c.Settled l r) (within : right.tokens.size - r.index ≤ m)
    (enough : m < bound) (enough' : m < bound') :
    c.Meets (c.Leads entriesView 0 r) (declarationsUpTo bound left l)
      (declarationsUpTo bound' right r) := by
  induction m generalizing bound bound' l r with
  | zero =>
    have some := c.unread_pos along
    omega
  | succ m ih =>
    obtain ⟨bound, rfl, further⟩ := Correspondence.Steps.exists_succ_of_lt enough
    obtain ⟨bound', rfl, further'⟩ := Correspondence.Steps.exists_succ_of_lt enough'
    obtain ⟨t, t', found, found', sameKind⟩ := settled
    rw [declarationsUpTo, declarationsUpTo, bind_apply, bind_apply, peek_apply, peek_apply,
      found, found']
    simp only [sameKind]
    by_cases ends : t'.kind = .eof
    · simp only [if_pos ends]
      exact .done ⟨rfl, along, Nat.le_refl _, Nat.le_refl _⟩
    · simp only [if_neg ends]
      refine (topLevel_steps l r along within).bind ?_
      rintro entry l₁ entry' r₁ ⟨sameEntry, along₁, index₁, offset₁⟩
      refine (Correspondence.Steps.whitespace_settles along₁).bind ?_
      rintro comments l₂ comments' r₂ ⟨⟨sameComments, along₂, index₂, offset₂⟩, settled₂⟩
      refine (ih bound bound' along₂ settled₂ (by omega) further further').bind ?_
      rintro rest l₃ rest' r₃ ⟨sameRest, along₃, index₃, offset₃⟩
      refine .done ⟨?_, along₃, by omega, by omega⟩
      obtain ⟨sameSpan, sameValue⟩ := Located.mk.inj sameEntry
      have sameEntries := commentEntries_same sameComments
      simp only [Correspondence.Same, entriesView, Located.viewAll_cons,
        Located.viewAll_append] at sameRest sameEntries ⊢
      rw [sameSpan, sameValue, sameEntries, sameRest]

/-- A whole source file runs in lockstep. -/
theorem module_steps : c.Steps n 0 Module.view module module := by
  refine .bind .whitespace fun initial initial' sameInitial => ?_
  refine .bind moduleHeader_steps.optional fun header header' sameHeader => ?_
  intro l r along within
  have limitLeft := Correspondence.Steps.size_lt_repetitionLimit left
  have limitRight := Correspondence.Steps.size_lt_repetitionLimit right
  have sizes := c.size_le
  refine (Correspondence.Steps.whitespace_settles along).bind ?_
  rintro pending l₁ pending' r₁ ⟨⟨samePending, along₁, index₁, offset₁⟩, settled₁⟩
  refine Correspondence.Meets.bind (importsUpTo_meets right.tokens.size _ _ samePending along₁
      settled₁ (by omega) (by omega) limitRight) ?_
  rintro ⟨imports, last⟩ l₂ ⟨imports', last'⟩ r₂ ⟨⟨sameFound, along₂, index₂, offset₂⟩, settled₂⟩
  refine Correspondence.Meets.bind (declarationsUpTo_meets right.tokens.size _ _ along₂ settled₂
      (by omega) (by omega) limitRight) ?_
  rintro declarations l₃ declarations' r₃ ⟨sameDeclarations, along₃, index₃, offset₃⟩
  refine (Correspondence.Steps.eof l₃ r₃ along₃ (Nat.le_refl _)).bind ?_
  rintro _ l₄ _ r₄ ⟨-, along₄, index₄, offset₄⟩
  refine .done ⟨?_, along₄, by omega, by omega⟩
  obtain ⟨sameImports, sameLast⟩ := Prod.mk.inj sameFound
  have sameEntries := commentEntries_same sameLast
  simp only [Correspondence.Same, entriesView] at sameHeader sameDeclarations sameEntries
  simp only [Correspondence.Same, Module.view, Located.viewAll_append, sameInitial, sameHeader,
    sameDeclarations, sameEntries]
  exact congrArg (Module.mk _ _ · _) sameImports

/-- What stands alone in a source runs in lockstep if it does anywhere. -/
theorem whole_steps {α γ : Type} {seen : View → α → γ} {p q : Parser α}
    (steps : c.Steps n d seen p q) :
    c.Steps n 0 (fun view => Commented.view view (seen view)) (whole p) (whole q) := by
  refine .bind .whitespace fun before before' sameBefore => .bind steps.withReference.weaken
    fun a b same => ?_
  refine .bind .whitespace fun after after' sameAfter => .bind .eof fun _ _ _ => ?_
  exact .pure (Correspondence.Same.commented c sameBefore same sameAfter)

end Marginalia.Grammar
