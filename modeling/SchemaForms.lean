import SchemaForms.Caption
import SchemaForms.CommandLine.Arguments
import SchemaForms.CommandLine.Command
import SchemaForms.CommandLine.Run
import SchemaForms.Fault
import SchemaForms.Form.Anomaly
import SchemaForms.Form.Bind
import SchemaForms.Form.Content
import SchemaForms.Form.Control
import SchemaForms.Form.Copy
import SchemaForms.Form.Document
import SchemaForms.Form.Encode
import SchemaForms.Form.Field
import SchemaForms.Form.Generate
import SchemaForms.Form.Identifiers
import SchemaForms.Form.Layout
import SchemaForms.Form.Repeat
import SchemaForms.Form.Reuse
import SchemaForms.Form.Synthesis
import SchemaForms.Form.Tree
import SchemaForms.Json.Printer
import SchemaForms.Json.Reader
import SchemaForms.Json.Value
import SchemaForms.Main
import SchemaForms.Name.PrefixTable
import SchemaForms.Name.QName
import SchemaForms.Name.Scope
import SchemaForms.Request
import SchemaForms.Schema.Builtin
import SchemaForms.Schema.Chain
import SchemaForms.Schema.Component
import SchemaForms.Schema.Graph
import SchemaForms.Schema.Loader
import SchemaForms.Schema.Occurs
import SchemaForms.Schema.Particle
import SchemaForms.Schema.Source
import SchemaForms.Schema.Substitutes
import SchemaForms.Settings
import SchemaForms.Table
import SchemaForms.Text.Blank
import SchemaForms.Text.Case
import SchemaForms.Text.CaseTable
import SchemaForms.Text.Split
import SchemaForms.Text.Utf8
import SchemaForms.Xml.Element
import SchemaForms.Xml.Encode
import SchemaForms.Xml.Escape
import SchemaForms.Xml.Lexer
import SchemaForms.Xml.Markup
import SchemaForms.Xml.Reader
import SchemaForms.Proofs.Schema.Building
import SchemaForms.Proofs.Schema.Steps
import SchemaForms.Proofs.Form.Arena
import SchemaForms.Proofs.Form.Cases
import SchemaForms.Proofs.Form.Coverage
import SchemaForms.Proofs.Form.Drawing
import SchemaForms.Proofs.Form.Grown
import SchemaForms.Proofs.Form.Issuing
import SchemaForms.Proofs.Form.Openings
import SchemaForms.Proofs.Form.Presentation
import SchemaForms.Proofs.Form.Blocks
import SchemaForms.Proofs.Form.Resolving
import SchemaForms.Proofs.Form.Reading
import SchemaForms.Proofs.Schema.Extension
import SchemaForms.Proofs.Form.Switches
import SchemaForms.Proofs.Form.Attendance
import SchemaForms.Proofs.Form.Seats
import SchemaForms.Proofs.Form.Selection
import SchemaForms.Proofs.Form.Advancing
import SchemaForms.Proofs.Form.Disclosure
import SchemaForms.Proofs.Form.Visibility
import SchemaForms.Proofs.Form.Shown
import SchemaForms.Proofs.Form.Proper
import SchemaForms.Proofs.Form.Provision
import SchemaForms.Proofs.Xml.RoundTrip
import SchemaForms.Proofs.Form.Embedding
import SchemaForms.Proofs.Form.Abreast
import SchemaForms.Proofs.Form.Pruned
import SchemaForms.Proofs.Form.Containment
import SchemaForms.Proofs.Form.Prefixing
import SchemaForms.Proofs.Form.Prohibited
import SchemaForms.Proofs.Form.Mandatory
import SchemaForms.Proofs.Form.Watching
import SchemaForms.Proofs.Form.Doubling
import SchemaForms.Proofs.Schema.Groups
import SchemaForms.Proofs.Schema.Hierarchy
import SchemaForms.Proofs.Schema.Termination
import SchemaForms.Proofs.Form.Widened
import SchemaForms.Proofs.Form.Fidelity
import SchemaForms.Proofs.Form.Conditions
import SchemaForms.Proofs.Form.Merging
import SchemaForms.Proofs.Form.Duplicates
import SchemaForms.Proofs.Form.Calling
import SchemaForms.Proofs.Form.Counting
import SchemaForms.Proofs.Form.Repeating
import SchemaForms.Proofs.Name.Allotting
import SchemaForms.Proofs.Schema.Bounds
import SchemaForms.Proofs.Schema.Nearest
import SchemaForms.Proofs.Schema.Ordering
import SchemaForms.Proofs.Xml.Scoping
import SchemaForms.Proofs.Text.Captions
import SchemaForms.Proofs.Form.Numbering
import SchemaForms.Proofs.Schema.Addresses
