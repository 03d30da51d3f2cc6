import Marginalia.Proofs.Grouping
import Marginalia.Proofs.Resolution
import Marginalia.Proofs.Scan.Arrival
import Marginalia.Proofs.Scan.Partition
import Marginalia.Proofs.Tiling.Source
import Marginalia.Proofs.Totality

/-!
# Places of errors

Every error about a source has a place in it. A fault in the tokens is counted along with them; a
mismatch with the grammar is reported about one of the tokens, which an input's correspondence to
itself carries through every parser; and faults in fixities stand at entries and operators of the
tree, whose spans begin and end with tokens.
-/

namespace Marginalia

open Marginalia.Parser

variable {α : Type} {source : Text}

/-- Both ends of the span are places of the source, told by counting. -/
structure Span.Counted (source : Text) (span : Span) : Prop where
  /-- It begins at a counted place. -/
  start : span.start.Counted source
  /-- It ends at a counted place. -/
  stop : span.stop.Counted source

/-! ## Faults in tokens -/

/-- A fault in a source is at counted places. -/
theorem Token.counted_of_scan {error : ScanError} (fault : scan source = .error error) :
    error.span.Counted source := by
  obtain ⟨found, place, u, rest, stop, arrives, -, rfl⟩ := Scan.Arrives.start.fault fault
  obtain ⟨before, rfl, rfl⟩ := arrives.split
  refine ⟨Position.counted_advance before _, ?_⟩
  have behind := Position.counted_advance (before ++ (u :: rest).take stop.read)
    ((u :: rest).drop stop.read)
  rwa [List.append_assoc, List.take_append_drop, Position.advance_append] at behind

/-! ## Mismatches with the grammar -/

/-- The report is about the token. -/
inductive ParseError.IsAbout (token : Token) : ParseError → Prop where
  | unexpected (labels : List String) : IsAbout token (.unexpected labels token)
  | invalidPrecedence : IsAbout token (.invalidPrecedence token)

/-- What a report is about stands at the place of the report. -/
theorem ParseError.IsAbout.span {token : Token} {error : ParseError} (about : error.IsAbout token) :
    error.span = token.span := by
  cases about <;> rfl

/-- A token is called by its kind and its spelling, and the end of a source as such. -/
theorem ParseError.describe_eq (token : Token) : describe token =
    if token.kind = .eof then Text.ofString "end of input"
    else Text.ofString token.kind.name ++ " '" ++ token.lexeme ++ "'" := by
  unfold describe
  cases token.kind <;> rfl

/-- A report ends with what it is about, unless it is about a number that is no precedence. -/
theorem ParseError.IsAbout.describe_suffix {token : Token} {error : ParseError}
    (about : error.IsAbout token) (other : error ≠ .invalidPrecedence token) :
    describe token <:+ error.message := by
  cases about with
  | unexpected labels =>
    cases labels with
    | nil => exact List.suffix_append _ _
    | cons label labels => exact List.suffix_append _ _
  | invalidPrecedence => exact absurd rfl other

section Reporting

variable {input : Input} (scanned : input.Scanned)

/-- The next tokens of an input are among its tokens. -/
theorem diagonal_reports {l r : Cursor} {t t' : Token} (along : (diagonal scanned).Along l r)
    (found : input.tokenAt? l.index = some t) (found' : input.tokenAt? r.index = some t') :
    (t = t' ∧ t ∈ input.tokens.toList) ∧
    ((t.view (diagonal scanned).leftView = t'.view (diagonal scanned).rightView ∧
      (StartsAt t l ↔ StartsAt t' r)) ∨ (Hidden t l ∧ Hidden t' r)) := by
  obtain ⟨same, seen⟩ := (diagonal scanned).sees along found found'
  exact ⟨⟨same, Input.Scanned.mem_of_tokenAt? found⟩, seen⟩

/-- Every input corresponds to itself, with its own tokens to report about. -/
def reporting : Correspondence input input :=
  { diagonal scanned with
    Found := fun t t' => t = t' ∧ t ∈ input.tokens.toList
    sees := diagonal_reports scanned }

/-- A parser in lockstep with itself reports about a token if it fails. -/
theorem Parser.isAbout_of_steps {γ : Type} {seen : View → α → γ} {parser : Parser α}
    {failure : Failure} {cursor : Cursor}
    (steps : ∀ n, (reporting scanned).Steps n 0 seen parser parser)
    (run : parser input .start = .failed failure cursor) :
    ∃ token ∈ input.tokens.toList, ∃ error, failure = .rejected error ∧ error.IsAbout token := by
  have meets := steps _ .start .start ⟨rfl, scanned.at_start⟩ (Nat.le_refl _)
  rw [run] at meets
  cases meets with
  | failed faults =>
    cases faults with
    | unexpected expected found => exact ⟨_, found.2, _, rfl, .unexpected expected⟩
    | invalidPrecedence _ found => exact ⟨_, found.2, _, rfl, .invalidPrecedence⟩

end Reporting

/-- A source is not read as a module because its tokens are faulty, or because of one of them. -/
theorem Module.parse_error {error : SourceError} (fails : Module.parse source = .error error) :
    (∃ fault, Token.scan source = .error fault ∧ error = .scan fault) ∨
    ∃ tokens token report, Token.scan source = .ok tokens ∧ token ∈ tokens ∧ error = .parse report ∧
      report.IsAbout token := by
  cases scan : Token.scan source with
  | error fault =>
    have made : Input.ofSource? source = .error fault := by rw [Input.ofSource?, scan]; rfl
    rw [Module.parse, Parser.run, made] at fails
    exact .inl ⟨fault, rfl, (Except.error.inj fails).symm⟩
  | ok tokens =>
    have made : Input.ofSource? source = .ok ⟨tokens.toArray, source⟩ :=
      Input.ofSource?_eq_ok.mpr ⟨rfl, scan⟩
    have scanned : Input.Scanned ⟨tokens.toArray, source⟩ := .of_scan rfl scan
    rw [Module.parse, Parser.run, made] at fails
    dsimp only at fails
    cases run : Grammar.module ⟨tokens.toArray, source⟩ .start with
    | done value cursor =>
      rw [run] at fails
      cases fails
    | failed failure cursor =>
      obtain ⟨token, member, report, rfl, about⟩ :=
        isAbout_of_steps scanned (fun _ => Grammar.module_steps) run
      rw [run] at fails
      exact .inr ⟨tokens, token, report, rfl, member, (Except.error.inj fails).symm, about⟩

/-! ## Faults in fixities -/

/-- A conflict with a waiting operation is reported at the operator that comes in. -/
theorem PendingOperation.span_of_conflict? {pending : PendingOperation}
    {operator : Located Reference} {fixity : Fixity} {error : FixityError}
    (reported : pending.conflict? operator fixity = some error) : error.span = operator.span := by
  rw [conflict?] at reported
  by_cases loose : pending.fixity.associativity = .none ∨ fixity.associativity = .none
  · rw [if_pos loose] at reported
    obtain rfl := Option.some.inj reported
    rfl
  by_cases differ : pending.fixity.associativity ≠ fixity.associativity
  · rw [if_neg loose, if_pos differ] at reported
    obtain rfl := Option.some.inj reported
    rfl
  · rw [if_neg loose, if_neg differ] at reported
    cases reported

/-- Operators that may not meet are reported at the second one. -/
theorem takeUp_span {operator : Located Reference} {fixity : Fixity}
    {climbs : List ClimbingOperation} {right : OperatorTree} {error : FixityError}
    (fails : takeUp operator fixity climbs right = .error error) : error.span = operator.span := by
  induction climbs generalizing right with
  | nil => cases fails
  | cons top outer ih =>
    cases takesUp_of_takeUp fails with
    | conflict choice =>
      cases PendingOperation.follows_of_climbsFrom? choice with
      | conflict _ reported => exact PendingOperation.span_of_conflict? reported
    | ends _ _ further => exact ih further

/-- A chain that cannot be grouped is reported at one of its operators. -/
theorem associateFrom_error {registry : Registry} {climbs : List ClimbingOperation}
    {last : OperatorTree} {clauses : List (Clause Reference Expression)} {error : FixityError}
    (fails : associateFrom registry climbs last clauses = .error error) :
    ∃ clause ∈ clauses, error.span = clause.operator.span := by
  induction clauses generalizing climbs last with
  | nil => cases fails
  | cons clause rest ih =>
    rw [associateFrom_cons] at fails
    cases takes : takeUp clause.operator (registry.fixityOf clause.operator) climbs last with
    | error other =>
      rw [takes] at fails
      obtain rfl := Except.error.inj fails
      exact ⟨clause, .head _, takeUp_span takes⟩
    | ok taken =>
      rw [takes] at fails
      obtain ⟨found, member, same⟩ := ih fails
      exact ⟨found, .tail _ member, same⟩

/-! ## Places in trees -/

/-- A part that tiles the tokens of a source is at counted places. -/
theorem Outline.Tiles.counted {tokens : List Token} {span : Span} {inside : List Outline}
    (scan : Token.scan source = .ok tokens) (tiles : (Outline.part span inside).Tiles tokens) :
    span.Counted source := by
  have places := ((Scan.scan_eq_ok_iff source tokens).mp scan).places [] rfl
  cases tiles with
  | part starts stops =>
    obtain ⟨first, inFirst, start⟩ := starts
    obtain ⟨last, inLast, stop⟩ := stops
    exact ⟨start ▸ (places first (List.mem_filter.mp inFirst).1).1,
      stop ▸ (places last (List.mem_filter.mp inLast).1).2⟩

/-- What is inside a part that tiles the tokens tiles them. -/
theorem Outline.Tiles.inside {tokens : List Token} {span : Span} {inside : List Outline}
    (tiles : (Outline.part span inside).Tiles tokens) : ∀ inner ∈ inside, inner.Tiles tokens := by
  cases tiles with
  | part _ _ _ _ _ inner => exact inner

section Tiling

variable {ε : Type} {tokens : List Token} {inner : ε → List Outline}

/-- The body of a declaration tiles the tokens if the declaration does. -/
theorem Declaration.tiles_bodies {declaration : Declaration ε}
    (tiles : ∀ outline ∈ declaration.outlines inner, outline.Tiles tokens) :
    ∀ body ∈ declaration.bodies, ∀ outline ∈ inner body, outline.Tiles tokens := by
  cases declaration with
  | definition definition =>
    refine List.forall_mem_singleton.mpr fun outline member => tiles outline ?_
    exact List.mem_append_right _ (List.mem_append_right _ member)
  | signature signature => exact List.forall_mem_nil _

/-- The children of a node tile the tokens if the node does. -/
theorem ExpressionNode.tiles_children {node : ExpressionNode ε}
    (tiles : ∀ outline ∈ node.outlines inner, outline.Tiles tokens) :
    ∀ child ∈ node.children, ∀ outline ∈ inner child, outline.Tiles tokens := by
  intro child isChild outline member
  cases node with
  | caseOf subject multiline branches =>
    rcases List.mem_cons.mp isChild with rfl | inBranches
    · exact tiles outline (List.mem_append_left _ member)
    · obtain ⟨branch, inList, rfl⟩ := List.mem_map.mp inBranches
      have part :=
        tiles _ (List.mem_append_right _ (List.mem_flatMap.mpr ⟨branch, inList, .head _⟩))
      exact part.inside outline (List.mem_append_right _ member)
  | letIn entries comments body =>
    rcases List.mem_append.mp isChild with inEntries | inBody
    · obtain ⟨⟨span, entry⟩, inList, inEntry⟩ := List.mem_flatMap.mp inEntries
      cases entry with
      | comment comment => cases inEntry
      | declaration declaration =>
        have part := tiles _ (List.mem_append_left _ (List.mem_flatMap.mpr ⟨_, inList, .head _⟩))
        have within := part.inside _ (.head _)
        exact Declaration.tiles_bodies within.inside child inEntry outline member
    · obtain rfl := List.mem_singleton.mp inBody
      exact tiles outline (List.mem_append_right _ member)
  | _ =>
    refine tiles outline ?_
    simp only [ExpressionNode.children, ExpressionNode.outlines] at isChild ⊢
    grind [Clause.outlines, IfClause.outlines, IfClause.children]

/-- Whatever is nested in an expression tiles the tokens if the expression does. -/
theorem Expression.tiles_preorder {expression : Expression}
    (tiles : ∀ outline ∈ expression.outlines, outline.Tiles tokens) :
    ∀ nested ∈ expression.preorder, ∀ outline ∈ nested.outlines, outline.Tiles tokens := by
  induction size : sizeOf expression using Nat.strongRecOn generalizing expression with
  | _ size ih =>
    rw [expression.preorder_eq, List.forall_mem_cons]
    refine ⟨tiles, fun nested member => ?_⟩
    obtain ⟨child, isChild, inChild⟩ := List.mem_flatMap.mp member
    obtain ⟨span, node⟩ := expression
    rw [outlines_mk] at tiles
    have within := (tiles _ (.head _)).inside
    exact ih (sizeOf child) (size ▸ sizeOf_lt_of_mem_children isChild)
      (ExpressionNode.tiles_children within child isChild) rfl nested inChild

end Tiling

variable {module : Module}

/-- The outlines of a module that is read tile the tokens of its source. -/
theorem Module.tiles (read : Module.parse source = .ok module) :
    ∃ tokens, Token.scan source = .ok tokens ∧ ∀ outline ∈ module.outlines,
      outline.Tiles tokens := by
  obtain ⟨input, stop, same, scan, run⟩ := run_eq_ok read
  have scanned := Input.Scanned.of_scan same scan
  obtain ⟨-, parts, filled, made⟩ :=
    Grammar.module_fills scanned .start scanned.at_start module stop run
  have isParts : module.outlines.filter Outline.isPart = parts := made
  exact ⟨input.tokens.toList, scan, module.outlines_tile (isParts ▸ filled)⟩

/-- Every entry of a module that is no comment stands at counted places. -/
theorem Module.counted_entry (read : Module.parse source = .ok module) {entry : Located TopLevel}
    (member : entry ∈ module.body) (solid : ∀ comment, entry.value ≠ .comment comment) :
    entry.span.Counted source := by
  obtain ⟨tokens, scan, tiles⟩ := Module.tiles read
  have inOutlines {outline : Outline} (isEntry : outline ∈ TopLevel.outlines entry) :
      outline ∈ module.outlines :=
    List.mem_append_right _ (List.mem_append_right _
        (List.mem_flatMap.mpr ⟨entry, member, isEntry⟩))
  obtain ⟨span, value⟩ := entry
  cases value with
  | comment comment => exact absurd rfl (solid comment)
  | _ => exact (tiles _ (inOutlines (.head _))).counted scan

/-- Every operator in a module stands at counted places. -/
theorem Module.counted_operator (read : Module.parse source = .ok module) {chain : PlacedChain}
    (inside : chain ∈ module.chains) {clause : Clause Reference Expression}
    (member : clause ∈ chain.clauses) : clause.operator.span.Counted source := by
  obtain ⟨tokens, scan, tiles⟩ := Module.tiles read
  obtain ⟨found, isFound, isChain⟩ := List.mem_filterMap.mp inside
  obtain ⟨rfl, layout, node⟩ := PlacedChain.of?_eq_some.mp isChain
  have walked := List.mem_map_of_mem (f := Prod.snd) isFound
  rw [module.map_occurrences] at walked
  obtain ⟨body, isBody, inBody⟩ := List.mem_flatMap.mp walked
  obtain ⟨⟨span, value⟩, inModule, isEntry⟩ := List.mem_flatMap.mp isBody
  have bodyTiles : ∀ outline ∈ body.outlines, outline.Tiles tokens := by
    cases value with
    | declaration declaration =>
      have part := tiles _ (List.mem_append_right _
          (List.mem_append_right _ (List.mem_flatMap.mpr ⟨_, inModule, .head _⟩)))
      exact Declaration.tiles_bodies part.inside body isEntry
    | _ => cases isEntry
  obtain ⟨place, ⟨chainSpan, chainNode⟩, left, clauses⟩ := chain
  obtain rfl : chainNode = .chain left clauses layout := node
  have chainTiles := Expression.tiles_preorder bodyTiles _ inBody
  rw [Expression.outlines_mk] at chainTiles
  have operator : Outline.part clause.operator.span [] ∈
        (ExpressionNode.chain left clauses layout).outlines Expression.outlines :=
    List.mem_append_right _ (List.mem_flatMap.mpr ⟨clause, member, .head _⟩)
  exact ((chainTiles _ (.head _)).inside _ operator).counted scan

/-! ## Faults in fixities, in a source -/

/-- Faults in declarations are those known before and faults at entries that declare fixities. -/
theorem DeclaredFixities.mem_errors_foldl {entries : List (Located TopLevel)}
    {declared : DeclaredFixities} {error : FixityError}
    (member : error ∈ (entries.foldl add declared).errors) :
    error ∈ declared.errors ∨ ∃ entry ∈ entries, (∃ fixity, entry.value = .fixity fixity) ∧
      error.span = entry.span := by
  induction entries generalizing declared with
  | nil => exact .inl member
  | cons entry rest ih =>
    rcases ih member with added | ⟨other, inRest, found⟩
    · unfold add at added
      split at added
      · rename_i fixity value
        dsimp only at added
        split at added
        · rcases List.mem_append.mp added with known | new
          · exact .inl known
          · obtain rfl := List.mem_singleton.mp new
            exact .inr ⟨entry, .head _, ⟨fixity, value⟩, rfl⟩
        · exact .inl added
      · exact .inl added
    · exact .inr ⟨other, .tail _ inRest, found⟩

/-- Faults in the declarations of a module are at counted places. -/
theorem Module.counted_declared (read : Module.parse source = .ok module) {error : FixityError}
    (member : error ∈ module.declaredFixities.errors) : error.span.Counted source := by
  rcases DeclaredFixities.mem_errors_foldl member with none | ⟨entry, inBody, ⟨fixity, value⟩, same⟩
  · cases none
  · rw [same]
    exact Module.counted_entry read inBody fun comment isComment => by
      rw [value] at isComment
      cases isComment

/-- A chain of a module that cannot be grouped is reported at counted places. -/
theorem Module.counted_resolve (read : Module.parse source = .ok module) {registry : Registry}
    {error : FixityError} (fails : module.resolve registry = .error error) :
    error.span.Counted source := by
  rw [module.resolve_eq] at fails
  obtain ⟨before, chain, after, split, -, failing⟩ := mapM_eq_error_iff.mp fails
  have inside : chain ∈ module.chains := split ▸ List.mem_append_right _ (.head _)
  cases grouped : chain.grouping registry with
  | ok tree =>
    rw [grouped] at failing
    cases failing
  | error other =>
    rw [grouped] at failing
    obtain rfl := Except.error.inj failing
    obtain ⟨clause, member, same⟩ := associateFrom_error grouped
    rw [same]
    exact Module.counted_operator read inside member

end Marginalia
