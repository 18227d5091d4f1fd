import LayeredConfig.CommandLine
import LayeredConfig.CommandLine.Arguments
import LayeredConfig.Diagnostic
import LayeredConfig.Directive
import LayeredConfig.Document
import LayeredConfig.Duplicate
import LayeredConfig.Effective
import LayeredConfig.FileTree
import LayeredConfig.FileTree.Canonical
import LayeredConfig.FileTree.Read
import LayeredConfig.FileTree.Walk
import LayeredConfig.Import
import LayeredConfig.Issue
import LayeredConfig.Main
import LayeredConfig.Override
import LayeredConfig.Path
import LayeredConfig.Precedence
import LayeredConfig.Proofs.CommandLine
import LayeredConfig.Proofs.CommandLine.Arguments
import LayeredConfig.Proofs.CommandLine.Checking
import LayeredConfig.Proofs.Concur
import LayeredConfig.Proofs.Diagnostic
import LayeredConfig.Proofs.Diagnostic.Placement
import LayeredConfig.Proofs.Duplicate
import LayeredConfig.Proofs.Effective
import LayeredConfig.Proofs.Effective.Levels
import LayeredConfig.Proofs.FileTree
import LayeredConfig.Proofs.FileTree.Canonical
import LayeredConfig.Proofs.FileTree.Overlong
import LayeredConfig.Proofs.Hierarchy
import LayeredConfig.Proofs.Hierarchy.Aliases
import LayeredConfig.Proofs.Hierarchy.Ancestors
import LayeredConfig.Proofs.Hierarchy.BrokenImport
import LayeredConfig.Proofs.Hierarchy.Comments
import LayeredConfig.Proofs.Hierarchy.Containment
import LayeredConfig.Proofs.Hierarchy.Cycles
import LayeredConfig.Proofs.Hierarchy.Directives
import LayeredConfig.Proofs.Hierarchy.Duplication
import LayeredConfig.Proofs.Hierarchy.Expansion
import LayeredConfig.Proofs.Hierarchy.ImportOrder
import LayeredConfig.Proofs.Hierarchy.Inheritance
import LayeredConfig.Proofs.Hierarchy.Issues
import LayeredConfig.Proofs.Hierarchy.Joining
import LayeredConfig.Proofs.Hierarchy.Layout
import LayeredConfig.Proofs.Hierarchy.LineEnds
import LayeredConfig.Proofs.Hierarchy.Redefinition
import LayeredConfig.Proofs.Hierarchy.RedundantImport
import LayeredConfig.Proofs.Hierarchy.Rendering
import LayeredConfig.Proofs.Hierarchy.Renumbering
import LayeredConfig.Proofs.Hierarchy.Repetition
import LayeredConfig.Proofs.Hierarchy.Restoration
import LayeredConfig.Proofs.Hierarchy.Revision
import LayeredConfig.Proofs.Hierarchy.Rewriting
import LayeredConfig.Proofs.Hierarchy.Routes
import LayeredConfig.Proofs.Hierarchy.Showing
import LayeredConfig.Proofs.Hierarchy.Simulation
import LayeredConfig.Proofs.Hierarchy.Unsaved
import LayeredConfig.Proofs.Line
import LayeredConfig.Proofs.Line.Key
import LayeredConfig.Proofs.Overlay
import LayeredConfig.Proofs.Override
import LayeredConfig.Proofs.Override.Places
import LayeredConfig.Proofs.Path
import LayeredConfig.Proofs.Pattern
import LayeredConfig.Proofs.Precedence
import LayeredConfig.Proofs.Precedence.Canonical
import LayeredConfig.Proofs.Publication
import LayeredConfig.Proofs.Relocation
import LayeredConfig.Proofs.Settings
import LayeredConfig.Proofs.StableSort
import LayeredConfig.Proofs.Text.Lines
import LayeredConfig.Publication
import LayeredConfig.Settings
import LayeredConfig.Settings.Load
import LayeredConfig.Stream
import LayeredConfig.Text.Blank
import LayeredConfig.Text.DecimalDigit
import LayeredConfig.Text.Hex
import LayeredConfig.Text.Lines
import LayeredConfig.Text.Quoted
import LayeredConfig.Text.Ranges
import LayeredConfig.Text.Unprintable
import LayeredConfig.Text.Utf8
import LayeredConfig.Yaml
