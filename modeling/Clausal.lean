import Clausal.Text.CharClass
import Clausal.Text.Escaped
import Clausal.Input
import Clausal.Binary64.Text
import Clausal.Store.Contents
import Clausal.Store.Copy
import Clausal.Store.Order
import Clausal.Store.Snapshot
import Clausal.Store.Unify
import Clausal.Operator
import Clausal.Token
import Clausal.TermSource
import Clausal.Run
import Clausal.Proofs.Tree.Basic
import Clausal.Proofs.Tree.Unifier
import Clausal.Proofs.Store.Graph
import Clausal.Proofs.Store.Resolve
import Clausal.Proofs.Store.Growth
import Clausal.Proofs.Store.Unification
import Clausal.Proofs.Store.MostGeneral
import Clausal.Proofs.Store.Copying
import Clausal.Proofs.Store.Contents
import Clausal.Proofs.Store.Order
import Clausal.Proofs.Store.StandardOrder
import Clausal.Proofs.Clause.Constants
import Clausal.Proofs.Tree.Renaming
import Clausal.Proofs.Store.Duplicating
import Clausal.Proofs.Clause.Compilation
import Clausal.Proofs.Clause.Activation
import Clausal.Proofs.Clause.Resolution
import Clausal.Proofs.Actions
import Clausal.Proofs.Machine.Reading
import Clausal.Proofs.Clause.Storing
import Clausal.Proofs.Machine.Evolution
import Clausal.Proofs.Machine.Loading
import Clausal.Proofs.Machine.Searching
import Clausal.Proofs.Machine.Sessions
import Clausal.Proofs.Machine.Ledger
import Clausal.Proofs.Machine.History
import Clausal.Proofs.Machine.Distinct
import Clausal.Proofs.Search.Modes
import Clausal.Proofs.Search.Reference
import Clausal.Proofs.Tree.Variants
import Clausal.Proofs.Search.Agreement
import Clausal.Proofs.Search.Behaviour
import Clausal.Proofs.Search.Goals
import Clausal.Proofs.Search.Answering
import Clausal.Proofs.Search.Outcome
import Clausal.Proofs.Search.Vocabulary
import Clausal.Proofs.Search.Refinement
import Clausal.Proofs.Clause.Widening
import Clausal.Proofs.Correspondence
import Clausal.Proofs.Inclusion.Joining
import Clausal.Proofs.Inclusion.Programs
import Clausal.Proofs.Load.Contiguity
import Clausal.Proofs.Load.Splice
import Clausal.Proofs.Load.Acceptance
import Clausal.Proofs.Load.Resplicing
import Clausal.Proofs.Load.Reconsulting
import Clausal.Proofs.Store.Traversals
import Clausal.Proofs.Machine.Operations
import Clausal.Proofs.Search.Consequence
import Clausal.Proofs.Search.LogicPrograms
import Clausal.Proofs.Search.Wrapping
import Clausal.Proofs.Search.Opacity
import Clausal.Proofs.Store.Denotation
import Clausal.Proofs.Syntax.Grammar
import Clausal.Proofs.Syntax.Tokens
import Clausal.Proofs.Syntax.Pending
import Clausal.Proofs.Syntax.Parsing
import Clausal.Proofs.Syntax.Advance
import Clausal.Proofs.Syntax.Termination
import Clausal.Proofs.Syntax.Steps
import Clausal.Proofs.Syntax.Phrases
import Clausal.Proofs.Syntax.Words
import Clausal.Proofs.Syntax.Spelling
import Clausal.Proofs.Syntax.RoundTrip
import Clausal.Proofs.Search.Marks
import Clausal.Proofs.Search.Commitment
import Clausal.Proofs.Tree.Renamed
import Clausal.Proofs.Store.Rebuilding
import Clausal.Proofs.Store.Variance
import Clausal.Proofs.Syntax.VariableNames
import Clausal.Proofs.Syntax.Lexemes
import Clausal.Proofs.Syntax.Decimals
import Clausal.Proofs.Syntax.Listing
import Clausal.Proofs.Syntax.Wording
import Clausal.Proofs.Syntax.Legibility
import Clausal.Proofs.Syntax.Progress
import Clausal.Proofs.Syntax.Lines
import Clausal.Proofs.Syntax.Numerals
import Clausal.Proofs.Store.Settled
import Clausal.Proofs.Syntax.Outlines
import Clausal.Proofs.Syntax.Placeholders
import Clausal.Proofs.Syntax.CharReading
import Clausal.Proofs.Search.Barriers
import Clausal.Proofs.Machine.Cancellation
import Clausal.Proofs.Syntax.Tables
import Clausal.Proofs.Syntax.Names
import Clausal.Proofs.Syntax.Calls
