import StackLinker.Main
import StackLinker.CommandLine.FileTree
import StackLinker.Proofs.Value.Rewriting
import StackLinker.Proofs.Module.Lookup
import StackLinker.Proofs.Pattern.Reading
import StackLinker.Proofs.Resolution.Sweep
import StackLinker.Proofs.Resolution.Accounting
import StackLinker.Proofs.Form.Shapes
import StackLinker.Proofs.Substitution.Answers
import StackLinker.Proofs.Resolution.Linked
import StackLinker.Proofs.Dependency.Cycles
import StackLinker.Proofs.Dependency.Uses
import StackLinker.Proofs.Dependency.Waiting
import StackLinker.Proofs.Dependency.Soundness
import StackLinker.Proofs.Dependency.Splicing
import StackLinker.Proofs.Dependency.Reducing
import StackLinker.Proofs.Dependency.Completeness
import StackLinker.Proofs.Resolution.Report
import StackLinker.Proofs.Substitution.Capture
import StackLinker.Proofs.Resolution.Reordering
import StackLinker.Proofs.Form.Places
import StackLinker.Proofs.Resolution.Deferral
import StackLinker.Proofs.Module.Declaration
import StackLinker.Proofs.Linking.ProviderReferences
import StackLinker.Proofs.Substitution.Yielding
import StackLinker.Proofs.Resolution.OneShot
import StackLinker.Proofs.Resolution.Schedule
import StackLinker.Proofs.Resolution.Timetable
import StackLinker.Proofs.Resolution.Interleaving
import StackLinker.Proofs.Resolution.Aliasing
import StackLinker.Proofs.Linking.Attributes
import StackLinker.Proofs.Resolution.Addressing
import StackLinker.Proofs.Resolution.Missing
import StackLinker.Proofs.Substitution.Requests
import StackLinker.Proofs.Dependency.Inheriting
import StackLinker.Proofs.Resolution.Locations
import StackLinker.Proofs.Form.WellFormed
import StackLinker.Proofs.Resolution.WellFormed
import StackLinker.Proofs.Resolution.Correspondence
import StackLinker.Proofs.Linking.Finalization
import StackLinker.Proofs.Linking.Template
import StackLinker.Proofs.Linking.Environments
import StackLinker.Proofs.Resolution.Ordinary
import StackLinker.Proofs.Document.Expressions
import StackLinker.Proofs.Document.Reading
import StackLinker.Proofs.Linking.Validation
import StackLinker.Proofs.Substitution.Literal
import StackLinker.Proofs.Resolution.Expansion
import StackLinker.Proofs.Resolution.Extension
import StackLinker.Proofs.Linking.Declarations
import StackLinker.Proofs.Resolution.Failing
import StackLinker.Proofs.Finalization.Patterns
import StackLinker.Proofs.Finalization.Passes
import StackLinker.Proofs.Finalization.Markers
import StackLinker.Proofs.Finalization.Binding
import StackLinker.Proofs.Substitution.Reports
import StackLinker.Proofs.Resolution.Keyed
import StackLinker.Proofs.Resolution.Bindings
import StackLinker.Proofs.Linking.Scopes
import StackLinker.Proofs.Linking.VariableNames
import StackLinker.Proofs.Resolution.DefaultReferences
import StackLinker.Proofs.Document.Loading
import StackLinker.Proofs.Document.Names
import StackLinker.Proofs.Document.WireForm
import StackLinker.Proofs.Document.RoundTrip
import StackLinker.Proofs.Linking.Injection
import StackLinker.Proofs.Resolution.Iterations
import StackLinker.Proofs.Pattern.Scanning
import StackLinker.Proofs.Value.Postorder
