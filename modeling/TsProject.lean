import TsProject.Diagnostic.OfNode
import TsProject.Diagnostic.Render
import TsProject.Failure
import TsProject.Host.Disk
import TsProject.Host.Memory
import TsProject.Logging
import TsProject.Program
import TsProject.Template.Fragment
import TsProject.Template.Literal
import TsProject.Proofs.Case
import TsProject.Proofs.Fields
import TsProject.Proofs.Normal
import TsProject.Proofs.Memory
import TsProject.Proofs.Stem
import TsProject.Proofs.Glob.Descent
import TsProject.Proofs.Glob.Cover
import TsProject.Proofs.Glob.Folder
import TsProject.Proofs.Glob.Walk
import TsProject.Proofs.Glob.Search
import TsProject.Proofs.Glob.Once
import TsProject.Proofs.Glob.Respelled
import TsProject.Proofs.Config.Collect
import TsProject.Proofs.Config.Extends
import TsProject.Proofs.Config.Circularity
import TsProject.Proofs.Config.Kept
import TsProject.Proofs.Config.Inheritance
import TsProject.Proofs.Config.KeyWise
import TsProject.Proofs.Config.Totality
import TsProject.Proofs.Config.Extension
import TsProject.Proofs.Config.Preference
import TsProject.Proofs.Config.Verdict
import TsProject.Proofs.Config.Beside
import TsProject.Proofs.Config.Inputs
import TsProject.Proofs.Config.Canonical
import TsProject.Proofs.Template.Escape
import TsProject.Proofs.Config.Arrival
import TsProject.Proofs.Glob.Exclusion
import TsProject.Proofs.Glob.Monotone
import TsProject.Proofs.Glob.Segments
import TsProject.Proofs.Config.Recursion
import TsProject.Proofs.Glob.PackageFolders
import TsProject.Proofs.Glob.Hidden
import TsProject.Proofs.Config.Output
import TsProject.Proofs.Config.Location
import TsProject.Proofs.Config.Conversion
import TsProject.Proofs.Config.ConfigDirectory
import TsProject.Proofs.Climb
import TsProject.Proofs.Relative
import TsProject.Proofs.Glob.Apart
import TsProject.Proofs.Lines
import TsProject.Proofs.Offsets
import TsProject.Proofs.Json5.Reader
import TsProject.Proofs.Config.Comment
import TsProject.Proofs.Glob.Links
import TsProject.Proofs.Glob.Subtree
import TsProject.Proofs.Config.Layers
import TsProject.Proofs.Diagnostic.OfNode
import TsProject.Proofs.Diagnostic.SyntaxErrors
import TsProject.Proofs.Diagnostic.Frame
