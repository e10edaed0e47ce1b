import BraceLang.Compilation
import BraceLang.Node.Sexpr
import BraceLang.Proofs.Scope.OpenScopes
import BraceLang.Proofs.Binding.Lexical
import BraceLang.Proofs.Binding.Walk
import BraceLang.Proofs.Binding.Bound
import BraceLang.Proofs.Binding.Constructs
import BraceLang.Proofs.Binding.Scoped
import BraceLang.Proofs.Binding.Links
import BraceLang.Proofs.Grammar.Moves
import BraceLang.Proofs.Grammar.Agreement
import BraceLang.Proofs.Node.Words
import BraceLang.Proofs.Token.Words
import BraceLang.Proofs.Grammar.Reads
import BraceLang.Proofs.Grammar.Reads.Expressions
import BraceLang.Proofs.Grammar.Reads.Declarations
import BraceLang.Proofs.Grammar.Reads.Statements
import BraceLang.Proofs.Grammar.Nesting
import BraceLang.Proofs.Grammar.Termination
import BraceLang.Proofs.Grammar.Words
import BraceLang.Proofs.Binding.Resolution
import BraceLang.Proofs.Node.Skeleton
import BraceLang.Proofs.Node.Spelling
import BraceLang.Proofs.Grammar.Yields
import BraceLang.Proofs.Grammar.RoundTrip
import BraceLang.Proofs.Scope.Refinement
import BraceLang.Proofs.Token.Layout
import BraceLang.Proofs.Token.Stream
import BraceLang.Proofs.Token.Spelled
import BraceLang.Proofs.Grammar.Levels
import BraceLang.Proofs.Grammar.Levels.Expressions
import BraceLang.Proofs.Grammar.Levels.Declarations
import BraceLang.Proofs.Grammar.Levels.Statements
import BraceLang.Proofs.Grammar.Blocks
import BraceLang.Proofs.Node.Slots
import BraceLang.Proofs.Grammar.Makes
import BraceLang.Proofs.Grammar.Makes.Expressions
import BraceLang.Proofs.Grammar.Makes.Declarations
import BraceLang.Proofs.Grammar.Makes.Statements
import BraceLang.Proofs.Grammar.Identities
import BraceLang.Proofs.Token.Keywords
import BraceLang.Proofs.Grammar.Formation
import BraceLang.Proofs.Binding.Regions
import BraceLang.Proofs.Binding.Introductions
import BraceLang.Proofs.Binding.Findings
import BraceLang.Proofs.Binding.Contents
import BraceLang.Proofs.Binding.Account
import BraceLang.Proofs.Binding.Telling
import BraceLang.Proofs.Binding.Telling.Constructs
import BraceLang.Proofs.Binding.Telling.Scoped
import BraceLang.Proofs.Binding.Told
import BraceLang.Proofs.Binding.Diagnoses
import BraceLang.Proofs.Binding.Targets
import BraceLang.Proofs.Token.Templates
import BraceLang.Proofs.Binding.Relinks
import BraceLang.Proofs.Binding.Relinks.Constructs
import BraceLang.Proofs.Binding.Frame
import BraceLang.Proofs.Node.Depth
import BraceLang.Proofs.Grammar.Shallow
import BraceLang.Proofs.Grammar.Depth
import BraceLang.Proofs.Grammar.Spans
import BraceLang.Proofs.Grammar.Spans.Expressions
import BraceLang.Proofs.Grammar.Spans.Declarations
import BraceLang.Proofs.Grammar.Spans.Statements
import BraceLang.Proofs.Grammar.Ranges
import BraceLang.Proofs.Source.Places
import BraceLang.Proofs.Source.LineMap
import BraceLang.Proofs.Source.Lines
import BraceLang.Proofs.Token.Genuine
import BraceLang.Proofs.Token.Calls
import BraceLang.Proofs.Node.Layers
import BraceLang.Proofs.Node.Traversal
import BraceLang.Proofs.Grammar.Conduct
import BraceLang.Proofs.Grammar.Conduct.Expressions
import BraceLang.Proofs.Grammar.Conduct.Statements
import BraceLang.Proofs.Grammar.Precedence
import BraceLang.Proofs.Grammar.Lookahead
import BraceLang.Proofs.Binding.Origins
import BraceLang.Proofs.Compilation.Phases
import BraceLang.Proofs.Compilation.Locations
import BraceLang.Proofs.Diagnostic.Distance
import BraceLang.Proofs.Diagnostic.Closest
import BraceLang.Proofs.Node.TypeSpelling
import BraceLang.Proofs.Grammar.RoundTrip.Types
import BraceLang.Proofs.Node.Unplaced
import BraceLang.Proofs.Grammar.Abreast
import BraceLang.Proofs.Grammar.Abreast.Expressions
import BraceLang.Proofs.Grammar.Abreast.Statements
import BraceLang.Proofs.Token.Beside
import BraceLang.Proofs.Token.Closers
import BraceLang.Proofs.Grammar.Closers
import BraceLang.Proofs.Token.Looks
import BraceLang.Proofs.Token.Holes
import BraceLang.Proofs.Token.Digits
import BraceLang.Proofs.Token.Tally
import BraceLang.Proofs.Token.Written
import BraceLang.Proofs.Token.Faithful
import BraceLang.Proofs.Grammar.Headers
import BraceLang.Proofs.Token.Numerals
import BraceLang.Proofs.Grammar.Headers.Expressions
import BraceLang.Proofs.Grammar.Headers.Statements
import BraceLang.Proofs.Compilation.Interpolation
import BraceLang.Proofs.Token.Decimals
import BraceLang.Proofs.Token.Points
import BraceLang.Proofs.Token.Measures
import BraceLang.Proofs.Binding.Concord
import BraceLang.Proofs.Binding.Concord.Constructs
import BraceLang.Proofs.Binding.Idempotence
import BraceLang.Proofs.Binding.Hoisting
import BraceLang.Proofs.Binding.Reordering
import BraceLang.Proofs.Binding.Coverage
import BraceLang.Proofs.Binding.Coverage.Constructs
import BraceLang.Proofs.Binding.Covered
import BraceLang.Proofs.Binding.Hints
import BraceLang.Proofs.Grammar.Limit
import BraceLang.Proofs.Grammar.Modes
import BraceLang.Proofs.Source.Columns
import BraceLang.Proofs.Diagnostic.Rows
import BraceLang.Proofs.Compilation.Quotes
import BraceLang.Proofs.Token.Escapes
