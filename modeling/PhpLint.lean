import PhpLint.Main
import PhpLint.Proofs.Except
import PhpLint.Proofs.Text.Utf8
import PhpLint.Proofs.Token.Stream
import PhpLint.Proofs.Model.Attributes
import PhpLint.Proofs.Model.Bracket
import PhpLint.Proofs.Json.RoundTrip
import PhpLint.Proofs.Storage.Memory
import PhpLint.Proofs.Engine.Entry
import PhpLint.Proofs.Engine.Key
import PhpLint.Proofs.Checked.Stream
import PhpLint.Proofs.Model.Lexeme
import PhpLint.Proofs.Text.Octets
import PhpLint.Proofs.Engine.Transparency
import PhpLint.Proofs.Checked.Lookahead
import PhpLint.Proofs.Checked.Header
import PhpLint.Proofs.Model.Pass
import PhpLint.Proofs.Token.Operator
import PhpLint.Proofs.Checked.Declaration
import PhpLint.Proofs.Checked.Pass
import PhpLint.Proofs.Engine.Incremental
import PhpLint.Proofs.Model.Tiling
import PhpLint.Proofs.Model.Forest
import PhpLint.Proofs.Checked.Resolution
import PhpLint.Proofs.Checked.SourceFile
import PhpLint.Proofs.Checked.Usage
import PhpLint.Proofs.Report
import PhpLint.Proofs.Engine.Isolation
import PhpLint.Proofs.Model.Owner
import PhpLint.Proofs.Rule.Interpolation
import PhpLint.Proofs.Rule.UnusedVariable
import PhpLint.Proofs.Model.Relocation
import PhpLint.Proofs.Model.Place
import PhpLint.Proofs.Model.Trivia
import PhpLint.Proofs.Model.Layout
import PhpLint.Proofs.Checked.Findings
import PhpLint.Proofs.Token.Mode
import PhpLint.Proofs.Project.Database
import PhpLint.Proofs.Storage.Lock
import PhpLint.Proofs.Storage.Store
import PhpLint.Proofs.Config.DefaultFile
import PhpLint.Proofs.Config.Layers
import PhpLint.Proofs.Token.Append
import PhpLint.Proofs.Document.Output
import PhpLint.Proofs.Model.Constant
import PhpLint.Proofs.Project.Declaration
import PhpLint.Proofs.Model.Imports
import PhpLint.Proofs.Model.Promotion
import PhpLint.Proofs.Engine.Frame
import PhpLint.Proofs.Storage.Paths
import PhpLint.Proofs.Plugin.Registry
import PhpLint.Proofs.Document.Boundaries
import PhpLint.Proofs.Document.Containment
import PhpLint.Proofs.Config.Scalar
import PhpLint.Proofs.Project.Ancestors
import PhpLint.Proofs.Report.Filter
import PhpLint.Proofs.Defect.Signature
import PhpLint.Proofs.Engine.Fingerprint
import PhpLint.Proofs.Files.FailedExclusion
import PhpLint.Proofs.Files.PathFilter
import PhpLint.Proofs.Model.Element
import PhpLint.Proofs.Model.LeadingSeparator
import PhpLint.Proofs.Model.DeclaredType
import PhpLint.Proofs.Revision
import PhpLint.Proofs.Toml.Sections
