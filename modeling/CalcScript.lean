import CalcScript.CommandLine
import CalcScript.Eval
import CalcScript.Expr
import CalcScript.Expr.Json
import CalcScript.Expr.Parser
import CalcScript.Expr.PrefixForm
import CalcScript.Fault
import CalcScript.Json
import CalcScript.Machine
import CalcScript.Number.Binary
import CalcScript.Number.Decimal
import CalcScript.Number.Layout
import CalcScript.Number.Numeral
import CalcScript.Number.Text
import CalcScript.Position
import CalcScript.Primitive
import CalcScript.Session
import CalcScript.Sink
import CalcScript.Store
import CalcScript.Store.Equality
import CalcScript.Store.Text
import CalcScript.Text.Blank
import CalcScript.Text.Excerpt
import CalcScript.Text.Printable
import CalcScript.Text.Quoted
import CalcScript.Token
import CalcScript.Token.Lexer
import CalcScript.Token.Text
import CalcScript.Value
import CalcScript.Value.Coerce
import CalcScript.Main
import CalcScript.Proofs.Evaluation
import CalcScript.Proofs.Labels
import CalcScript.Proofs.Activations
import CalcScript.Proofs.Exits
import CalcScript.Proofs.Grammar
import CalcScript.Proofs.ParserSoundness
import CalcScript.Proofs.ParserCompleteness
import CalcScript.Proofs.Bisimilarity
import CalcScript.Proofs.Relocation
import CalcScript.Proofs.Scopes
import CalcScript.Proofs.Separation
import CalcScript.Proofs.WellFormed
import CalcScript.Proofs.Lookahead
import CalcScript.Proofs.Viability
import CalcScript.Proofs.Similarity
import CalcScript.Proofs.Composition
import CalcScript.Proofs.Places
import CalcScript.Proofs.Lockstep
import CalcScript.Proofs.Equivariance
import CalcScript.Proofs.Layout
import CalcScript.Proofs.Truncation
import CalcScript.Proofs.Regions
import CalcScript.Proofs.Blame
import CalcScript.Proofs.Commands
import CalcScript.Proofs.Lists
import CalcScript.Proofs.WrittenCalls
import CalcScript.Proofs.OrdinaryValues
import CalcScript.Proofs.Operators
import CalcScript.Proofs.LabelNumbers
import CalcScript.Proofs.Pairings
import CalcScript.Proofs.Renaming
import CalcScript.Proofs.ScopeTree
import CalcScript.Proofs.Containment
import CalcScript.Proofs.PlainComparison
import CalcScript.Proofs.Symmetry
import CalcScript.Proofs.Rendering
import CalcScript.Proofs.WrittenNumbers
import CalcScript.Proofs.StringLiterals
import CalcScript.Proofs.Doubles
import CalcScript.Proofs.Rounding
import CalcScript.Proofs.DecimalReading
import CalcScript.Proofs.ShortestDigits
import CalcScript.Proofs.NumberTexts
import CalcScript.Proofs.QuotedTexts
import CalcScript.Proofs.PrefixReading
import CalcScript.Proofs.WholeDivision
import CalcScript.Proofs.ParserRecord
import CalcScript.Proofs.Progress
import CalcScript.Proofs.StoreGrowth
import CalcScript.Proofs.WellFormedStore
import CalcScript.Proofs.SessionStore
