import Stylewire.ArgumentList
import Stylewire.Bracket
import Stylewire.CallSite
import Stylewire.Command.Arguments
import Stylewire.Command.Help
import Stylewire.Command.Json
import Stylewire.Command.Report
import Stylewire.Command.Run
import Stylewire.Command.Spec
import Stylewire.EditScript.Basic
import Stylewire.EditScript.Compact
import Stylewire.EditScript.Shortest
import Stylewire.Error
import Stylewire.FileTree
import Stylewire.Glob.Basic
import Stylewire.Glob.Expression
import Stylewire.Glob.Lookup
import Stylewire.Glob.Parser
import Stylewire.IgnoreRule
import Stylewire.ImportLine
import Stylewire.Main
import Stylewire.OptionsObject
import Stylewire.Path
import Stylewire.Project.Scan
import Stylewire.Project.Walk
import Stylewire.Proofs.ArgumentList
import Stylewire.Proofs.Bracket
import Stylewire.Proofs.CallSite
import Stylewire.Proofs.Scan
import Stylewire.Session
import Stylewire.Settings
import Stylewire.SourceFilter
import Stylewire.Splice
import Stylewire.Stylesheet.Registry
import Stylewire.Stylesheet.Sibling
import Stylewire.Stylesheet.Tags
import Stylewire.Text.Basic
import Stylewire.Text.Scan
import Stylewire.Text.Word
import Stylewire.Toml.Document
import Stylewire.Toml.Parser
import Stylewire.Toml.Quoted
import Stylewire.Toml.Scalar
import Stylewire.Toml.Value
import Stylewire.Wiring
import Stylewire.Proofs.OptionsObject
import Stylewire.Proofs.Agreement
import Stylewire.Proofs.Injection
import Stylewire.Proofs.Wiring
import Stylewire.Proofs.Piecewise
import Stylewire.Proofs.Locality
import Stylewire.Proofs.FixedPoint
import Stylewire.Proofs.FileTree
import Stylewire.Proofs.Walk
import Stylewire.Proofs.ProjectScan
import Stylewire.Proofs.Convergence
import Stylewire.Proofs.Commutation
import Stylewire.Proofs.OrderIndependence
import Stylewire.Proofs.ChangeFlag
import Stylewire.Proofs.SessionRun
import Stylewire.Proofs.ByteScan
import Stylewire.Proofs.CheckedText
import Stylewire.Proofs.CheckedEdit
import Stylewire.Proofs.CheckedWiring
import Stylewire.Proofs.PathOrder
import Stylewire.Proofs.WalkTree
import Stylewire.Proofs.ListingOrder
import Stylewire.Proofs.NestedProject
import Stylewire.Proofs.ArgumentSplit
import Stylewire.Proofs.SingleEntry
import Stylewire.Proofs.ImportInsertion
import Stylewire.Proofs.ImportPlacement
import Stylewire.Proofs.ShiftedSites
import Stylewire.Proofs.Nesting
import Stylewire.Proofs.ImportClause
import Stylewire.Proofs.ObjectEntries
import Stylewire.Proofs.Occurrence
import Stylewire.Proofs.ArgumentExtent
import Stylewire.Proofs.BracketPairs
import Stylewire.Proofs.WalkWays
import Stylewire.Proofs.LinkCycle
import Stylewire.Proofs.WalkTermination
import Stylewire.Proofs.ScanAccount
import Stylewire.Proofs.BracketRanges
import Stylewire.Proofs.StylesheetReference
import Stylewire.Proofs.GlobMatch
import Stylewire.Proofs.GlobStart
import Stylewire.Proofs.SourcePattern
