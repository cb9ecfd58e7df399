import MediaQuery.Clause.Algebra
import MediaQuery.Clause.Basic
import MediaQuery.Clause.Form
import MediaQuery.Clause.OfFeature
import MediaQuery.Clause.Simplify
import MediaQuery.Compile
import MediaQuery.Decimal.Layout
import MediaQuery.Decimal.Numeral
import MediaQuery.Decimal.Shortest
import MediaQuery.Decimal.Stepwise
import MediaQuery.Device.Basic
import MediaQuery.Device.Keyword
import MediaQuery.Device.Matching
import MediaQuery.FeatureTable
import MediaQuery.Gamut
import MediaQuery.Interval
import MediaQuery.Json.Json5
import MediaQuery.Json.Reader
import MediaQuery.Json.Record
import MediaQuery.Json.Value
import MediaQuery.Json.Writer
import MediaQuery.KeyMap
import MediaQuery.Kleene
import MediaQuery.Notice
import MediaQuery.Number
import MediaQuery.Profile.Basic
import MediaQuery.Profile.Edit
import MediaQuery.Profile.Form
import MediaQuery.Profile.Store
import MediaQuery.Profile.Verify
import MediaQuery.Proofs.Access
import MediaQuery.Proofs.Agreement
import MediaQuery.Proofs.Arrangement
import MediaQuery.Proofs.Asking
import MediaQuery.Proofs.Binary64
import MediaQuery.Proofs.Casing
import MediaQuery.Proofs.Clause
import MediaQuery.Proofs.Comparison
import MediaQuery.Proofs.Compile
import MediaQuery.Proofs.Constraint
import MediaQuery.Proofs.Correspondence
import MediaQuery.Proofs.CrossProduct
import MediaQuery.Proofs.Cut
import MediaQuery.Proofs.Decided
import MediaQuery.Proofs.Decision
import MediaQuery.Proofs.Definite
import MediaQuery.Proofs.Demand
import MediaQuery.Proofs.Derivation
import MediaQuery.Proofs.Device
import MediaQuery.Proofs.DeviceSets
import MediaQuery.Proofs.Domain
import MediaQuery.Proofs.DoubleNegation
import MediaQuery.Proofs.Ends
import MediaQuery.Proofs.Exactness
import MediaQuery.Proofs.ExtendedReal
import MediaQuery.Proofs.Extremes
import MediaQuery.Proofs.Faults
import MediaQuery.Proofs.Feasible
import MediaQuery.Proofs.Feature
import MediaQuery.Proofs.FeatureForm
import MediaQuery.Proofs.Grammar
import MediaQuery.Proofs.Groups
import MediaQuery.Proofs.Idempotence
import MediaQuery.Proofs.Interval
import MediaQuery.Proofs.Irredundant
import MediaQuery.Proofs.JsonText
import MediaQuery.Proofs.KeyMap
import MediaQuery.Proofs.Knowledge
import MediaQuery.Proofs.Lexing
import MediaQuery.Proofs.Lists
import MediaQuery.Proofs.Meaning
import MediaQuery.Proofs.Meaningless
import MediaQuery.Proofs.Measure
import MediaQuery.Proofs.Names
import MediaQuery.Proofs.Nearest
import MediaQuery.Proofs.Negation
import MediaQuery.Proofs.NormalForm
import MediaQuery.Proofs.Occupied
import MediaQuery.Proofs.OffsetLexer
import MediaQuery.Proofs.OffsetLists
import MediaQuery.Proofs.OffsetParser
import MediaQuery.Proofs.OffsetReading
import MediaQuery.Proofs.Order
import MediaQuery.Proofs.Outright
import MediaQuery.Proofs.Parser
import MediaQuery.Proofs.Partner
import MediaQuery.Proofs.Placement
import MediaQuery.Proofs.Printing
import MediaQuery.Proofs.ProfileForm
import MediaQuery.Proofs.RangeForms
import MediaQuery.Proofs.ReadBack
import MediaQuery.Proofs.Refinement
import MediaQuery.Proofs.Regrouping
import MediaQuery.Proofs.Reordering
import MediaQuery.Proofs.Report
import MediaQuery.Proofs.Reprint
import MediaQuery.Proofs.Reread
import MediaQuery.Proofs.Restoration
import MediaQuery.Proofs.Restyling
import MediaQuery.Proofs.Rounding
import MediaQuery.Proofs.Setting
import MediaQuery.Proofs.Shape
import MediaQuery.Proofs.Shortest
import MediaQuery.Proofs.SignedZero
import MediaQuery.Proofs.Slots
import MediaQuery.Proofs.Solver
import MediaQuery.Proofs.Spacing
import MediaQuery.Proofs.Spelling
import MediaQuery.Proofs.Spot
import MediaQuery.Proofs.Storing
import MediaQuery.Proofs.Tiling
import MediaQuery.Proofs.Totality
import MediaQuery.Proofs.Truncation
import MediaQuery.Proofs.Truth
import MediaQuery.Proofs.Unread
import MediaQuery.Proofs.Vocabulary
import MediaQuery.Proofs.WrittenRatio
import MediaQuery.Query.Feature
import MediaQuery.Query.Group
import MediaQuery.Query.Lexer
import MediaQuery.Query.ParseError
import MediaQuery.Query.Parser
import MediaQuery.Query.Printer
import MediaQuery.Query.Token
import MediaQuery.Query.Tree
import MediaQuery.Ratio
import MediaQuery.Solver.Basic
import MediaQuery.Solver.Knowledge
import MediaQuery.Text.Characters
import MediaQuery.Text.Distance
import MediaQuery.Text.Scripts
import MediaQuery.Text.Slice
import MediaQuery.Units
