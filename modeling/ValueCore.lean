import ValueCore.Script.Run
import ValueCore.Proofs.Table.Order
import ValueCore.Proofs.Table.Sound
import ValueCore.Proofs.Table.Writes
import ValueCore.Proofs.Table.Buckets
import ValueCore.Proofs.Table.Contents
import ValueCore.Proofs.Table.Growth
import ValueCore.Proofs.Run
import ValueCore.Proofs.World.Tables
import ValueCore.Proofs.Table.Changes
import ValueCore.Proofs.World.Sound
import ValueCore.Proofs.World.Evolution
import ValueCore.Proofs.World.Leads
import ValueCore.Proofs.Operations.Scans
import ValueCore.Proofs.Operations.Tables
import ValueCore.Proofs.Operations.Values
import ValueCore.Proofs.Operations.Structs
import ValueCore.Proofs.Consistency
import ValueCore.Proofs.Operations.Insertion
import ValueCore.Proofs.Numbers
import ValueCore.Proofs.Scalars
import ValueCore.Proofs.Operations.PureKeys
import ValueCore.Proofs.Operations.Comparisons
import ValueCore.Proofs.Refinement
import ValueCore.Proofs.Reentrancy
import ValueCore.Proofs.Verdict.Basic
import ValueCore.Proofs.World.Plain
import ValueCore.Proofs.Operations.Reads
import ValueCore.Proofs.Verdict.Laws
import ValueCore.Proofs.Operations.Keys
import ValueCore.Proofs.Operations.Pruning
import ValueCore.Proofs.Distinctness
import ValueCore.Proofs.Budgets
import ValueCore.Proofs.World.Parts
import ValueCore.Proofs.Atomicity
import ValueCore.Proofs.Verdict.Orderly
import ValueCore.Proofs.Operations.Ordering
import ValueCore.Proofs.Orderliness
import ValueCore.Proofs.HashAgreement
import ValueCore.Proofs.Equivalence
import ValueCore.Proofs.Permanence
import ValueCore.Proofs.World.Containers
import ValueCore.Proofs.Operations.Freezing
import ValueCore.Proofs.Freezing
import ValueCore.Proofs.Verdict.Outcome
import ValueCore.Proofs.Operations.Outcomes
import ValueCore.Proofs.Termination
import ValueCore.Proofs.Verdict.Persistence
import ValueCore.Proofs.Immutability
import ValueCore.Proofs.Operations.Filling
import ValueCore.Proofs.Operations.Ascending
import ValueCore.Proofs.Operations.Building
import ValueCore.Proofs.Collation
import ValueCore.Proofs.Canonical
import ValueCore.Proofs.View.Index
import ValueCore.Proofs.View.Sound
import ValueCore.Proofs.Operations.Views
import ValueCore.Proofs.ViewRefinement
import ValueCore.Proofs.Carrying
import ValueCore.Proofs.Cursors.Shelf
import ValueCore.Proofs.Counting
import ValueCore.Proofs.Iteration
import ValueCore.Proofs.Operations.Refusals
import ValueCore.Proofs.Table.Packing
import ValueCore.Proofs.Table.Population
import ValueCore.Proofs.Operations.Sizing
import ValueCore.Proofs.Operations.Union
import ValueCore.Proofs.Merging
import ValueCore.Proofs.Associativity
import ValueCore.Proofs.Reports.Program
import ValueCore.Proofs.Reports.Tables
import ValueCore.Proofs.Reports.Values
import ValueCore.Proofs.Reports
import ValueCore.Proofs.Closing
import ValueCore.Proofs.Operations.Agreement
import ValueCore.Proofs.StructEquality
import ValueCore.Proofs.DictEquality
import ValueCore.Proofs.Drawing
import ValueCore.Proofs.Quoting
import ValueCore.Proofs.Readability
import ValueCore.Proofs.Exactness
import ValueCore.Proofs.Peaks
import ValueCore.Proofs.Operations.MixedKeys
import ValueCore.Proofs.Operations.ViewBuilding
import ValueCore.Proofs.Conversions
import ValueCore.Proofs.Operations.Hostless
import ValueCore.Proofs.Passage.Worlds
import ValueCore.Proofs.Passage.Reads
import ValueCore.Proofs.ReadOnly
import ValueCore.Proofs.Accounting
import ValueCore.Proofs.Presizing
import ValueCore.Proofs.ViewPresizing
import ValueCore.Proofs.ViewUpkeep
import ValueCore.Proofs.Rebuilding
import ValueCore.Proofs.Moderation
import ValueCore.Proofs.ViewModeration
import ValueCore.Proofs.Retries
import ValueCore.Proofs.Narrowing.Tables
import ValueCore.Proofs.Narrowing.Views
import ValueCore.Proofs.Narrowing
