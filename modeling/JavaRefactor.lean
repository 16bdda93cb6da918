import JavaRefactor.Analysis
import JavaRefactor.Answer.Document
import JavaRefactor.Answer.Parts
import JavaRefactor.Command.Ask
import JavaRefactor.Command.Basic
import JavaRefactor.Command.Project
import JavaRefactor.Command.Rename
import JavaRefactor.CommandLine.Arguments
import JavaRefactor.CommandLine.Invocation
import JavaRefactor.CommandLine.Run
import JavaRefactor.Disk.Basic
import JavaRefactor.Disk.Changes
import JavaRefactor.Disk.Outcome
import JavaRefactor.Disk.Walk
import JavaRefactor.Disk.Write
import JavaRefactor.Edit.Apply
import JavaRefactor.Edit.Diff
import JavaRefactor.Edit.Plan
import JavaRefactor.Edit.PlanFile
import JavaRefactor.Failure
import JavaRefactor.Hash.Sha256
import JavaRefactor.Json.Basic
import JavaRefactor.Json.Printer
import JavaRefactor.Json.Reader
import JavaRefactor.Json.Token
import JavaRefactor.Main
import JavaRefactor.Name.Identifier
import JavaRefactor.Name.Letter
import JavaRefactor.Name.Numeral
import JavaRefactor.Path
import JavaRefactor.Project.Layout
import JavaRefactor.Project.MainClass
import JavaRefactor.Project.Template
import JavaRefactor.Proofs.Account
import JavaRefactor.Proofs.AllOrNothing
import JavaRefactor.Proofs.Apply
import JavaRefactor.Proofs.Arena
import JavaRefactor.Proofs.Binding
import JavaRefactor.Proofs.BindingOrder
import JavaRefactor.Proofs.Collision
import JavaRefactor.Proofs.Conflicts
import JavaRefactor.Proofs.Consistent
import JavaRefactor.Proofs.Constructor
import JavaRefactor.Proofs.ConstructorHeader
import JavaRefactor.Proofs.ConstructorNames
import JavaRefactor.Proofs.Cut
import JavaRefactor.Proofs.Decimal
import JavaRefactor.Proofs.Descent
import JavaRefactor.Proofs.DiffText
import JavaRefactor.Proofs.Directories
import JavaRefactor.Proofs.Duplicates
import JavaRefactor.Proofs.EditedBlocks
import JavaRefactor.Proofs.Enclosing
import JavaRefactor.Proofs.ErrorRegion
import JavaRefactor.Proofs.Errors
import JavaRefactor.Proofs.Exchange
import JavaRefactor.Proofs.Finalize
import JavaRefactor.Proofs.Frames
import JavaRefactor.Proofs.FreshName
import JavaRefactor.Proofs.Grammar
import JavaRefactor.Proofs.Hoisting
import JavaRefactor.Proofs.Hunks
import JavaRefactor.Proofs.Isolation
import JavaRefactor.Proofs.JsonText
import JavaRefactor.Proofs.KeptPlan
import JavaRefactor.Proofs.Layout
import JavaRefactor.Proofs.Legality
import JavaRefactor.Proofs.LexicalScope
import JavaRefactor.Proofs.LineHunks
import JavaRefactor.Proofs.LineNumbers
import JavaRefactor.Proofs.Lines
import JavaRefactor.Proofs.Locate
import JavaRefactor.Proofs.LocationText
import JavaRefactor.Proofs.NamePosition
import JavaRefactor.Proofs.Nesting
import JavaRefactor.Proofs.NewFile
import JavaRefactor.Proofs.Numbering
import JavaRefactor.Proofs.Occurrence
import JavaRefactor.Proofs.Offsets
import JavaRefactor.Proofs.Outline
import JavaRefactor.Proofs.Pieces
import JavaRefactor.Proofs.PlanHistory
import JavaRefactor.Proofs.PlanRoundTrip
import JavaRefactor.Proofs.Preorder
import JavaRefactor.Proofs.Rebinding
import JavaRefactor.Proofs.RenameBindings
import JavaRefactor.Proofs.RenameExact
import JavaRefactor.Proofs.RenameSafety
import JavaRefactor.Proofs.Renamed
import JavaRefactor.Proofs.Replay
import JavaRefactor.Proofs.SameOutside
import JavaRefactor.Proofs.Shape
import JavaRefactor.Proofs.Shift
import JavaRefactor.Proofs.Surroundings
import JavaRefactor.Proofs.SymbolTable
import JavaRefactor.Proofs.Use
import JavaRefactor.Proofs.Visibility
import JavaRefactor.Proofs.Walk
import JavaRefactor.Proofs.WellFormed
import JavaRefactor.Rename.Collision
import JavaRefactor.Rename.Plan
import JavaRefactor.Scope.Basic
import JavaRefactor.Scope.Lookup
import JavaRefactor.Scope.Query
import JavaRefactor.Scope.Resolve
import JavaRefactor.Scope.SymbolKind
import JavaRefactor.Snapshot
import JavaRefactor.Sorting
import JavaRefactor.Text.Blank
import JavaRefactor.Text.Decimal
import JavaRefactor.Text.Location
import JavaRefactor.Text.Position
import JavaRefactor.Text.Span
import JavaRefactor.Text.Split
import JavaRefactor.Text.Utf8
import JavaRefactor.Tree.Arena
import JavaRefactor.Tree.Basic
import JavaRefactor.Tree.Cursor
import JavaRefactor.Tree.ErrorRegion
import JavaRefactor.Tree.Kind
import JavaRefactor.Tree.Raw
import JavaRefactor.Tree.Role
