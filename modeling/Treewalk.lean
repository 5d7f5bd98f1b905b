import Treewalk.Main
import Treewalk.Machine.Session
import Treewalk.Tree.Build
import Treewalk.Tree.Same
import Treewalk.Proofs.Balance
import Treewalk.Proofs.Numbering
import Treewalk.Proofs.Footprint
import Treewalk.Proofs.Lexical
import Treewalk.Proofs.Numerals
import Treewalk.Proofs.Spelling
import Treewalk.Proofs.Reading
import Treewalk.Proofs.Written
import Treewalk.Proofs.RoundTrip
import Treewalk.Proofs.Course
import Treewalk.Proofs.Levels
import Treewalk.Proofs.Termination
import Treewalk.Proofs.History
import Treewalk.Proofs.Finality
import Treewalk.Proofs.HaltFlag
import Treewalk.Proofs.Nesting
import Treewalk.Proofs.SessionTrace
import Treewalk.Proofs.Registry
import Treewalk.Proofs.Operation
import Treewalk.Proofs.Origin
import Treewalk.Proofs.Depth
import Treewalk.Proofs.Settings
import Treewalk.Proofs.Walk
import Treewalk.Proofs.Links
import Treewalk.Proofs.Provenance
import Treewalk.Proofs.Relabeling
import Treewalk.Proofs.Metadata
import Treewalk.Proofs.LineByLine
import Treewalk.Proofs.Members
import Treewalk.Proofs.Acceptance
import Treewalk.Proofs.Presentation
import Treewalk.Proofs.Equivalence
import Treewalk.Proofs.Requests
import Treewalk.Proofs.Rounds
import Treewalk.Proofs.Purity
import Treewalk.Proofs.Insertion
import Treewalk.Proofs.Sequencing
import Treewalk.Proofs.Chains
import Treewalk.Proofs.Parameters
import Treewalk.Proofs.ObjectLiterals
import Treewalk.Proofs.Exactness
import Treewalk.Proofs.Indexing
import Treewalk.Proofs.Assignment
import Treewalk.Proofs.Ambiguity
import Treewalk.Proofs.Frames
import Treewalk.Proofs.Renaming
import Treewalk.Proofs.Finiteness
import Treewalk.Proofs.Writing
import Treewalk.Proofs.Reencoding
import Treewalk.Proofs.Declarations
import Treewalk.Proofs.Sameness
import Treewalk.Proofs.ArgumentWords
import Treewalk.Proofs.ArgumentGrammar
import Treewalk.Proofs.AcceptedOptions
import Treewalk.Proofs.CommandLine
import Treewalk.Proofs.Nearest
import Treewalk.Proofs.Patterns
import Treewalk.Proofs.Rounding
import Treewalk.Proofs.Scaling
import Treewalk.Proofs.Shortest
import Treewalk.Proofs.PrintedNumerals
import Treewalk.Proofs.LiteralNumbers
import Treewalk.Proofs.Splicing
import Treewalk.Proofs.Concatenation
