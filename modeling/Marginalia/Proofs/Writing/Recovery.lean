import Marginalia.Grammar.TypeExpression
import Marginalia.Proofs.Writing.Normal

/-!
# Reading trees back

What it means that a parser reads trees back from their pieces, up to spans, and what follows for
trees in brackets, arguments of a constructor and fields of a record. The levels of nesting are
counted by pieces: what stands inside brackets has two pieces less than the whole.
-/

namespace Marginalia

open Marginalia.Parser Marginalia.Grammar

open Piece (Apart Opening joinFirst listed enclosed)

variable {α β γ : Type} {input : Input}

/-! ## Trees up to spans -/

/-- Everything but places is seen as it is. -/
def View.placeless : View := ⟨fun _ => .start, true⟩

/-- Without places, values between their comments are seen between them. -/
theorem Commented.view_placeless (inner : α → β) :
    Commented.view .placeless inner = Commented.map inner := by
  funext commented
  rfl

/-- Values that stand alone are seen alone. -/
theorem map_map_alone (items : List α) (f : α → β) :
    (items.map Commented.alone).map (Commented.map f) = items.map fun item => .alone (f item) := by
  rw [List.map_map]
  rfl

/-! ## What may follow -/

/-- The next piece, if there is one, stands apart and has a property. -/
def Follows (property : Piece → Bool) (rest : List Piece) : Prop :=
  ∀ piece ∈ rest.head?, piece.joined = false ∧ property piece = true

section Follows

variable {property other : Piece → Bool} {rest : List Piece}

/-- What follows stands apart. -/
theorem Follows.apart (follows : Follows property rest) : Apart rest :=
  fun piece first => (follows piece first).1

/-- What follows lacks whatever the property excludes. -/
theorem Follows.avoids (follows : Follows property rest)
    (excludes : ∀ piece, property piece = true → other piece.join = false) :
    Avoids other (joinFirst rest) := by
  cases rest with
  | nil => exact fun _ first => by cases first
  | cons piece more => exact .first (excludes piece (follows piece rfl).2) more

/-- What follows under one property follows under a wider one. -/
theorem Follows.imp (follows : Follows property rest)
    (wider : ∀ piece, property piece = true → other piece = true) : Follows other rest :=
  fun piece first => ⟨(follows piece first).1, wider piece (follows piece first).2⟩

/-- A piece with the property follows. -/
theorem Follows.first {piece : Piece} (loose : piece.joined = false) (holds : property piece = true)
    (more : List Piece) : Follows property (piece :: more) :=
  fun _ first => Option.some.inj first ▸ ⟨loose, holds⟩

end Follows

/-- No piece of a kind is there where none with a property is that the kind has. -/
theorem Avoids.kind {property : Piece → Bool} {before : List Piece} {kind : TokenKind}
    (avoids : Avoids property before)
    (holds : ∀ piece : Piece, piece.kind = kind → property piece = true) :
    Avoids (·.kind == kind) before := by
  refine avoids.imp fun piece lacks => beq_eq_false_iff_ne.mpr fun same => ?_
  rw [holds piece same] at lacks
  cases lacks

/-! ## Trees that are read back -/

/-- The parser reads back the trees that are admitted, if they have fewer pieces than the bound, and
refuses what none of them begins with. -/
structure Recovers (input : Input) (parser : Parser α) (pieces : α → List Piece) (seen : α → γ)
    (admits : α → Prop) (follows : List Piece → Prop) (opens : Piece → Bool)
    (bound : Nat) : Prop where
  /-- An admitted tree is read back. -/
  leads : ∀ tree, admits tree → (pieces tree).length < bound → ∀ rest, follows rest →
    Leads input parser (joinFirst (pieces tree ++ rest)) rest fun found => seen found = seen tree
  /-- What no tree begins with is refused. -/
  refuses : 0 < bound → ∀ before, Avoids opens before → Refuses input parser before

/-- No part is longer than all of them. -/
theorem Piece.length_le_flatMap_of_mem {items : List β} (pieces : β → List Piece) {b : β}
    (member : b ∈ items) : (pieces b).length ≤ (items.flatMap pieces).length := by
  rw [List.flatMap_def]
  exact (List.sublist_flatten_of_mem (List.mem_map_of_mem member)).length_le

/-- No part is longer than all of them with pieces in between. -/
theorem Piece.length_le_between {separator : Piece} {items : List β} {pieces : β → List Piece}
    {b : β} (member : b ∈ items) :
    (pieces b).length ≤ (Piece.between separator (items.map pieces)).length := by
  cases items with
  | nil => cases member
  | cons first others =>
    rw [List.map_cons, Piece.between, List.length_append]
    cases member with
    | head => omega
    | tail _ inOthers =>
      have inside := length_le_flatMap_of_mem (separator :: ·)
        (@List.mem_map_of_mem _ _ _ _ pieces inOthers)
      rw [List.length_cons] at inside
      omega

/-- Brackets are two pieces. -/
theorem Piece.length_enclosed (opening closing : TokenKind) (pieces : List Piece) :
    (enclosed opening closing pieces).length = pieces.length + 2 := by
  simp [enclosed]

section Recovers

variable {parser : Parser α} {pieces : α → List Piece} {seen : α → γ} {admits : α → Prop}
  {follows : List Piece → Prop} {opens : Piece → Bool} {bound : Nat} {items : List α}
  {rest : List Piece} {opening close : TokenKind} {label : String}

/-- A parser that does the same on the input reads back the same trees. -/
theorem Recovers.congr {other : Parser α}
    (recovers : Recovers input parser pieces seen admits follows opens bound)
    (same : other input = parser input) :
    Recovers input other pieces seen admits follows opens bound := by
  refine ⟨fun tree admitted small rest further start ahead => ?_,
    fun positive before avoids start ahead => ?_⟩
  · rw [same]
    exact recovers.leads tree admitted small rest further start ahead
  · rw [same]
    exact recovers.refuses positive before avoids start ahead

/-- A tree that lies ahead never has too many pieces for the levels of nesting. -/
theorem Recovers.anywhere
    (recovers : Recovers input parser pieces seen admits follows opens input.nestingLimit)
    {tree : α} (admitted : admits tree) (further : follows rest) :
    Leads input parser (joinFirst (pieces tree ++ rest)) rest fun found =>
      seen found = seen tree := by
  intro start ahead
  have length := ahead.length
  rw [Piece.length_joinFirst, List.length_append] at length
  have small : (pieces tree).length < input.nestingLimit := by
    rw [Input.nestingLimit]
    omega
  exact recovers.leads tree admitted small rest further start ahead

/-- Trees in brackets are read back. -/
theorem Recovers.group (recovers : Recovers input parser pieces seen admits follows opens bound)
    (admitted : ∀ tree ∈ items, admits tree) (begins : ∀ tree ∈ items, Opening opens (pieces tree))
    (small : (listed (items.map pieces)).length < bound) (notComma : close ≠ .comma)
    (notEnd : close ≠ .eof) (notClose : ∀ piece, opens piece = true → piece.kind ≠ close)
    (marks : ∀ kind more, kind = .comma ∨ kind = close → follows (.mark kind :: more)) :
    Leads input (Parser.group opening close parser label)
      (joinFirst (enclosed opening close (listed (items.map pieces)) ++ rest)) rest fun found =>
        ∃ items', found = (⟨items', []⟩, false) ∧
          items'.map (Commented.map seen) = items.map fun tree => .alone (seen tree) := by
  refine group_leads notComma notEnd (fun tree member => ?_) fun tree member kind more isMark => ?_
  · obtain ⟨first, more, same, holds⟩ := (begins tree member).first
    exact ⟨first, more, same, notClose first holds⟩
  · have short : (pieces tree).length ≤ (listed (items.map pieces)).length :=
      Piece.length_le_between member
    exact recovers.leads tree (admitted tree member) (by omega) _ (marks kind more isMark)

/-- A constructor and its arguments are read back, up to where no further argument is. -/
theorem Recovers.constructed {make : QualifiedName → List (Commented α) → β} {described : β → Prop}
    {tag : QualifiedName} {property : Piece → Bool}
    (recovers : Recovers input parser pieces seen admits Apart opens bound)
    (admitted : ∀ tree ∈ items, admits tree) (begins : ∀ tree ∈ items, Opening opens (pieces tree))
    (small : (tag.pieces .upper ++ items.flatMap pieces).length < bound)
    (follows : Follows property rest)
    (excludes : ∀ piece, property piece = true → opens piece.join = false)
    (fits : ∀ found, found.map (Commented.map seen) = items.map (fun tree => .alone (seen tree)) →
      described (make tag found)) :
    Leads input (do let tag ← qualifiedUpperName; return make tag (← spaced parser))
      (joinFirst (tag.pieces .upper ++ items.flatMap pieces ++ rest)) rest described := by
  rw [List.append_assoc]
  have apart : Apart (items.flatMap pieces ++ rest) := by
    cases items with
    | nil => exact follows.apart
    | cons first others =>
      rw [List.flatMap_cons, List.append_assoc]
      exact (begins first (.head _)).phrase.apart.append (begins first (.head _)).solid _
  have each : ∀ tree ∈ items, ∀ after, Apart after →
        Leads input parser (joinFirst (pieces tree ++ after)) after fun found =>
        seen found = seen tree := by
    intro tree member after apart
    refine recovers.leads tree (admitted tree member) ?_ after apart
    have inside := Piece.length_le_flatMap_of_mem pieces member
    rw [List.length_append] at small
    omega
  have stops : Refuses input parser (joinFirst rest) :=
    recovers.refuses (by omega) _ (follows.avoids excludes)
  apply (qualifiedUpperName_leads tag apart).bind
  rintro _ rfl
  apply (spaced_leads (fun tree member => (begins tree member).phrase.apart)
      (fun tree member => (begins tree member).solid) each follows.apart stops).bind
  intro found same
  exact .pure (fits found same)

/-- A sequence in brackets is refused where the opening one is not. -/
theorem group_refuses {item : Parser β} {before : List Piece} (notEnd : opening ≠ .eof)
    (avoids : Avoids (·.kind == opening) before) :
    Refuses input (Parser.group opening close item label) before :=
  (token_refuses notEnd avoids).bind.trackNewline

end Recovers

/-! ## Records -/

section Records

variable {rest : List Piece}

/-- The name of the record that is extended or updated is read. -/
theorem recordBase_leads (n : Text) :
    Leads input recordBase (.lower n :: .mark .pipe :: rest) rest (· = .alone n) := by
  apply Leads.attempt
  apply (lowerName_leads n).padded.bind
  rintro _ ⟨_, rfl, rfl⟩
  apply (mark_leads .pipe).bind
  intro _ _
  exact .pure rfl

/-- The record extends or updates nothing where no name is. -/
theorem recordBase_refuses_other {piece : Piece} (notLower : piece.kind ≠ .lowerIdentifier) :
    Refuses input recordBase (piece :: rest) := by
  have noName : Fails input (padded lowerName) (piece :: rest) := by
    apply whitespace_leads.fails
    intro _ _
    have avoids : Avoids (·.kind == .lowerIdentifier) (joinFirst (piece :: rest)) :=
      .first (by simpa [Piece.join] using notLower) rest
    exact (lowerName_refuses avoids).bind.fails
  exact Fails.attempt noName.bind

/-- The record extends or updates nothing where no bar follows a name. -/
theorem recordBase_refuses_name {n : Text} {piece : Piece} (notPipe : piece.kind ≠ .pipe) :
    Refuses input recordBase (.lower n :: piece :: rest) := by
  apply Fails.attempt
  apply (lowerName_leads n).padded.fails
  intro _ _
  have avoids : Avoids (·.kind == .pipe) (joinFirst (piece :: rest)) :=
    .first (by simpa [Piece.join] using notPipe) rest
  exact (token_refuses (by decide) avoids).bind.fails

/-- The fields of a record are read, with the name of the record that is extended or updated. -/
theorem recordContents_leads {field : Parser α} {pieces : β → List Piece} {seen : α → γ}
    {target : β → γ} {label : String} (base : Option Text) {items : List β}
    (begins : ∀ b ∈ items, ∃ n next more, pieces b = .lower n :: next :: more ∧ next.kind ≠ .pipe)
    (each : ∀ b ∈ items, ∀ kind more, kind = .comma ∨ kind = .rightBrace →
      Leads input field (joinFirst (pieces b ++ .mark kind :: more)) (.mark kind :: more)
      fun value => seen value = target b) : Leads input (trackNewline do
        let _ ← token .leftBrace "'\x7b'"
        let base ← Parser.optional recordBase
        return (base, ← separated .rightBrace field label))
      (joinFirst (enclosed .leftBrace .rightBrace
          (basePieces (base.map .alone) ++ listed (items.map pieces)) ++ rest)) rest
      fun found => ∃ items', found = ((base.map .alone, ⟨items', []⟩), false) ∧
        items'.map (Commented.map seen) = items.map fun b => .alone (target b) := by
  have fields : Leads input (separated .rightBrace field label)
        (listed (items.map pieces) ++ .mark .rightBrace :: rest) rest fun found =>
        found.items.map (Commented.map seen) = (items.map fun b => .alone (target b)) ∧
      found.trailing = [] := by
    refine separated_leads (by decide) (by decide) (fun b member => ?_) each
    obtain ⟨n, next, more, same, -⟩ := begins b member
    exact ⟨.lower n, next :: more, same, nofun⟩
  have contents : Leads input (do
        let base ← Parser.optional recordBase
        return (base, ← separated .rightBrace field label))
      (basePieces (base.map .alone) ++ (listed (items.map pieces) ++ .mark .rightBrace :: rest))
        rest fun found =>
        found.1 = base.map .alone ∧
          found.2.items.map (Commented.map seen) = (items.map fun b => .alone (target b)) ∧
          found.2.trailing = [] := by
    cases base with
    | some n =>
      apply (recordBase_leads n).optional.bind
      rintro _ ⟨_, rfl, rfl⟩
      apply fields.bind
      intro found same
      exact .pure ⟨rfl, same⟩
    | none =>
      have noBase :
          Refuses input recordBase (listed (items.map pieces) ++ .mark .rightBrace :: rest) := by
        cases items with
        | nil => exact recordBase_refuses_other nofun
        | cons b others =>
          obtain ⟨n, next, more, same, notPipe⟩ := begins b (.head _)
          rw [List.map_cons, Piece.listed, Piece.between, same]
          exact recordBase_refuses_name notPipe
      refine noBase.optional.leads ?_
      apply fields.bind
      intro found same
      exact .pure ⟨rfl, same⟩
  rw [enclosed, List.cons_append, List.append_assoc, List.append_assoc]
  refine (Leads.trackNewline ((mark_leads .leftBrace).bind fun _ _ => contents)).imp ?_
  rintro _ ⟨⟨_, ⟨items', _⟩⟩, rfl, rfl, same, rfl⟩
  exact ⟨items', rfl, same⟩

end Records

end Marginalia
