import Marginalia.CommandLine.Run
import Marginalia.Main
import Marginalia.Script
import Marginalia.Proofs.Scan.Boundary
import Marginalia.Proofs.Scan.Number
import Marginalia.Proofs.Scan.Front
import Marginalia.Proofs.Scan.Division
import Marginalia.Proofs.Scan.Extent
import Marginalia.Proofs.Spelling.Word
import Marginalia.Proofs.Parser.Run
import Marginalia.Proofs.Spelling.Comments
import Marginalia.Proofs.Parser.Input
import Marginalia.Proofs.Parser.Refusal
import Marginalia.Proofs.Spelling.Words
import Marginalia.Proofs.Spelling.Reading
import Marginalia.Proofs.Spelling.Sequence
import Marginalia.Proofs.Spelling.Name
import Marginalia.Proofs.Spelling.Pattern
import Marginalia.Proofs.Spelling.Expression
import Marginalia.Proofs.Spelling.Module
import Marginalia.Proofs.Grouping.Precedence
import Marginalia.Proofs.Grouping.Search
import Marginalia.Proofs.Grouping
import Marginalia.Proofs.Grouping.Clash
import Marginalia.Proofs.Grouping.Climbing
import Marginalia.Proofs.Spelling.Source
import Marginalia.Proofs.Lockstep.Correspondence
import Marginalia.Proofs.Lockstep.Combinators
import Marginalia.Proofs.Lockstep.Sequence
import Marginalia.Proofs.Lockstep.Word
import Marginalia.Proofs.Lockstep.Pattern
import Marginalia.Proofs.Lockstep.Expression
import Marginalia.Proofs.Lockstep.Module
import Marginalia.Proofs.Blanking.Tokens
import Marginalia.Proofs.Blanking.Trees
import Marginalia.Proofs.Respacing
import Marginalia.Proofs.Totality
import Marginalia.Proofs.Tree.Outline
import Marginalia.Proofs.Tiling.Laying
import Marginalia.Proofs.Tiling.Sequence
import Marginalia.Proofs.Tiling.Pattern
import Marginalia.Proofs.Tiling.Expression
import Marginalia.Proofs.Tiling.Module
import Marginalia.Proofs.Tiling.Source
import Marginalia.Proofs.Writing.Piece
import Marginalia.Proofs.Writing.Reading
import Marginalia.Proofs.Writing.Sequence
import Marginalia.Proofs.Writing.Numeral
import Marginalia.Proofs.Writing.Word
import Marginalia.Proofs.Writing.Normal
import Marginalia.Proofs.Writing.Tree
import Marginalia.Proofs.Writing.Pattern
import Marginalia.Proofs.Writing.Recovery
import Marginalia.Proofs.Writing.TypeExpression
import Marginalia.Proofs.Writing.Term
import Marginalia.Proofs.Writing.Chain
import Marginalia.Proofs.Writing.OpenEnded
import Marginalia.Proofs.Writing.Completeness
import Marginalia.Proofs.Writing.Whole
import Marginalia.Proofs.Scan.Partition
import Marginalia.Proofs.Scan.Separation
import Marginalia.Proofs.Scan.Arrival
import Marginalia.Proofs.Scan.Operator
import Marginalia.Proofs.Literal.Token
import Marginalia.Proofs.Literal.Number
import Marginalia.Proofs.Literal.Quoted
import Marginalia.Proofs.Parts.Law
import Marginalia.Proofs.Parts.Verbatim
import Marginalia.Proofs.Parts.Ensures
import Marginalia.Proofs.Parts.Word
import Marginalia.Proofs.Parts.Pattern
import Marginalia.Proofs.Parts.Minus
import Marginalia.Proofs.Parts.Term
import Marginalia.Proofs.Parts.Expression
import Marginalia.Proofs.Parts.Module
import Marginalia.Proofs.Parts.Source
import Marginalia.Proofs.Tree.Occurrence
import Marginalia.Proofs.Resolution
import Marginalia.Proofs.Cursor.Steady
import Marginalia.Proofs.Cursor.Grammar
import Marginalia.Proofs.Cursor.Session
import Marginalia.Proofs.Cursor.Repetition
import Marginalia.Proofs.Cursor.Scripts
import Marginalia.Proofs.Indentation.Continuation
import Marginalia.Proofs.Indentation.Grammar
import Marginalia.Proofs.Indentation.Module
import Marginalia.Proofs.Concatenation.Carrying
import Marginalia.Proofs.Concatenation.Combinators
import Marginalia.Proofs.Concatenation.Pattern
import Marginalia.Proofs.Concatenation.Nesting
import Marginalia.Proofs.Concatenation.Expression
import Marginalia.Proofs.Concatenation.Settling
import Marginalia.Proofs.Concatenation.Heading
import Marginalia.Proofs.Concatenation.Conclusion
import Marginalia.Proofs.Concatenation.Declaration
import Marginalia.Proofs.Concatenation.Module
import Marginalia.Proofs.Concatenation.Below
import Marginalia.Proofs.Concatenation.Opening
import Marginalia.Proofs.Concatenation.Source
import Marginalia.Proofs.Files.Component
import Marginalia.Proofs.Keyed
import Marginalia.Proofs.Files.Listing
import Marginalia.Proofs.Layers
import Marginalia.Proofs.Lines
import Marginalia.Proofs.CommandLine.Check
import Marginalia.Proofs.Diagnosis.Place
import Marginalia.Proofs.Diagnosis.Source
import Marginalia.Proofs.Scan.Reach
import Marginalia.Proofs.Scan.Safety
import Marginalia.Proofs.Parts.Chain
import Marginalia.Proofs.Registry
import Marginalia.Proofs.Members
import Marginalia.Proofs.Configuration
import Marginalia.Proofs.Files.Shown
import Marginalia.Proofs.CommandLine.Print
