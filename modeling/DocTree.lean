import DocTree.Decimal.Shortest
import DocTree.Flags
import DocTree.FileTable
import DocTree.Json.Parser
import DocTree.Json.Printer
import DocTree.Kind
import DocTree.Ranked
import DocTree.Symbol
import DocTree.Text.Blank
import DocTree.Group
import DocTree.Source
import DocTree.Ty.Display
import DocTree.Ty.Visitor
import DocTree.Ty.Walk
import DocTree.Project.Removal
import DocTree.Writer.Reflection
import DocTree.Reader.Combine
import DocTree.LogFormat
import DocTree.Options.Reader
import DocTree.CommandLine.Reader
import DocTree.CommandLine.Folder
import DocTree.CommandLine.Run
import DocTree.Report
import DocTree.Main
import DocTree.Proofs.Registry.Effect
import DocTree.Proofs.Registry.Referencing
import DocTree.Proofs.Registry.Seat
import DocTree.Proofs.Reading.Isolation
import DocTree.Proofs.RoundTrip.Lookup
import DocTree.Proofs.RoundTrip.Comments
import DocTree.Proofs.RoundTrip.Plain
import DocTree.Proofs.RoundTrip.Fixpoint
import DocTree.Proofs.RoundTrip.Recovered
import DocTree.Proofs.Registry.Symbols
import DocTree.Proofs.Registry.Anchor
import DocTree.Proofs.Display.Faithful
import DocTree.Proofs.Files.Ownership
import DocTree.Proofs.Writing.Covered
import DocTree.Proofs.Files.Canonical
import DocTree.Proofs.Tolerance.Revived
import DocTree.Proofs.Registry.Hops
import DocTree.Proofs.Registry.Enrolment
import DocTree.Proofs.Registry.MainType
import DocTree.Proofs.Registry.Descent
import DocTree.Proofs.Files.Naming
import DocTree.Proofs.Files.Link
import DocTree.Proofs.Registry.StableKey
import DocTree.Proofs.Display.Redirected
import DocTree.Proofs.Extensions.History
