import Grove.Text.Ranges
import Grove.Text.Alphanumeric
import Grove.Text.Printable
import Grove.Text.Blank
import Grove.Number.Binary64
import Grove.Number.Decimal
import Grove.Number.Shortest
import Grove.Text.Escaped
import Grove.ClassSet
import Grove.Selector.Literal
import Grove.Selector.Basic
import Grove.Selector.Printer
import Grove.Selector.Error
import Grove.Selector.Reader
import Grove.Json.Basic
import Grove.Json.Reader
import Grove.Json.Fields
import Grove.Selector.Wire
import Grove.Attr.Basic
import Grove.Attr.Path
import Grove.Attr.Wire
import Grove.Forest.Draft
import Grove.Position.Word
import Grove.Position.Fraction
import Grove.Position.Expansion
import Grove.Position.Error
import Grove.Position.Interval
import Grove.Position.Span
import Grove.Position.Path
import Grove.Position.Wire
import Grove.Forest.Error
import Grove.Query.Basic
import Grove.Query.Wire
import Grove.Table.Record
import Grove.Engine.Config
import Grove.Forest.IdSource
import Grove.Forest.Model
import Grove.Forest.Store
import Grove.Forest.Match
import Grove.Forest.View
import Grove.Engine.Error
import Grove.Table.Basic
import Grove.Engine.Backend
import Grove.Engine.Basic
import Grove.Proofs.Position.Order
import Grove.Proofs.Position.Expansion
import Grove.Proofs.Position.Rendering
import Grove.Proofs.Position.Interval
import Grove.Proofs.Position.Containment
import Grove.Proofs.Forest.Step
import Grove.Proofs.Forest.Consistent
import Grove.Proofs.Forest.Walk
import Grove.Proofs.Forest.Removal
import Grove.Proofs.Forest.Run
import Grove.Proofs.Forest.Boundaries
import Grove.Proofs.Forest.Matching
import Grove.Proofs.Forest.History
import Grove.Proofs.Forest.Ledger
import Grove.Proofs.Forest.Chains
import Grove.Proofs.Table.Correspondence
import Grove.Proofs.Table.Conditions
import Grove.Proofs.Table.WriteParity
import Grove.Proofs.Engine.Lockstep
import Grove.Proofs.Table.ReadParity
import Grove.Proofs.Engine.Selection
import Grove.Proofs.Engine.Direct
import Grove.Proofs.Text.Runs
import Grove.Proofs.Selector.Grammar
import Grove.Proofs.Selector.Pieces
import Grove.Proofs.Selector.Acceptance
import Grove.Proofs.Selector.Printing
import Grove.Proofs.Number.Digits
import Grove.Proofs.Number.ReadBack
import Grove.Proofs.Selector.RoundTrip
import Grove.Proofs.Selector.Legibility
import Grove.Proofs.Attr.Writing
import Grove.Proofs.Forest.DocumentOrder
import Grove.Proofs.Forest.Stability
import Grove.Proofs.Forest.Rollback
import Grove.Proofs.Table.Moves
import Grove.Proofs.Table.Lineage
import Grove.Proofs.Json.Fields
import Grove.Proofs.Json.Scalars
import Grove.Proofs.Json.Text
import Grove.Proofs.Attr.Wire
import Grove.Proofs.Forest.Wire
import Grove.Proofs.Selector.Wire
import Grove.Proofs.Query.Wire
import Grove.Proofs.Position.Resolution
import Grove.Proofs.Forest.Numbering
import Grove.Proofs.Forest.Counters
import Grove.Proofs.Table.Counters
import Grove.Proofs.Position.Wire
import Grove.Proofs.Table.Wire
import Grove.Proofs.Position.Mediants
import Grove.Proofs.Position.Neighbours
import Grove.Proofs.Forest.Planting
import Grove.Proofs.Forest.Subtrees
import Grove.Proofs.Position.Comparison
import Grove.Proofs.Position.ContinuedFractions
import Grove.Proofs.Attr.Tracks
import Grove.Proofs.Position.FixedWidth
import Grove.Proofs.Attr.Removal
import Grove.Proofs.Forest.RefusedWrites
import Grove.Proofs.Position.Overflow
import Grove.Proofs.Forest.Stopping
import Grove.Proofs.Position.LongDivision
import Grove.Proofs.Selector.OnePhase
import Grove.Proofs.Selector.Faults
