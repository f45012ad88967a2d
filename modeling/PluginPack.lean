import PluginPack.Build
import PluginPack.Bundle.Basic
import PluginPack.Bundle.Module
import PluginPack.CommandLine.Help
import PluginPack.CommandLine.Invocation
import PluginPack.CommandLine.Reader
import PluginPack.CommandLine.Run
import PluginPack.CommandLine.Scope
import PluginPack.Config
import PluginPack.Console
import PluginPack.Documentation.Extract
import PluginPack.Documentation.Function
import PluginPack.Documentation.Line
import PluginPack.FileSystem.Basic
import PluginPack.Main
import PluginPack.Manifest.Descriptor
import PluginPack.Manifest.PackageId
import PluginPack.Manifest.Section
import PluginPack.Manifest.Template
import PluginPack.Path
import PluginPack.Proofs.Build.Effect
import PluginPack.Proofs.Build.Rebuild
import PluginPack.Proofs.Bundle.Assembly
import PluginPack.Proofs.Bundle.Binding
import PluginPack.Proofs.Bundle.Exploration
import PluginPack.Proofs.Bundle.ModuleGraph
import PluginPack.Proofs.Bundle.Order
import PluginPack.Proofs.Bundle.Root
import PluginPack.Proofs.Bundle.Visit
import PluginPack.Proofs.CommandLine.Flags
import PluginPack.Proofs.CommandLine.Louder
import PluginPack.Proofs.CommandLine.Quiet
import PluginPack.Proofs.CommandLine.Settle
import PluginPack.Proofs.CommandLine.Trace
import PluginPack.Proofs.Console.Log
import PluginPack.Proofs.Console.Run
import PluginPack.Proofs.Console.Transcript
import PluginPack.Proofs.Documentation.Boundary
import PluginPack.Proofs.Documentation.Comment
import PluginPack.Proofs.Documentation.Distinct
import PluginPack.Proofs.Documentation.Excerpt
import PluginPack.Proofs.Documentation.Item
import PluginPack.Proofs.Documentation.LineEnd
import PluginPack.Proofs.Documentation.Located
import PluginPack.Proofs.Documentation.Preceding
import PluginPack.Proofs.Documentation.ReadBack
import PluginPack.Proofs.Documentation.Search
import PluginPack.Proofs.FileSystem.Alike
import PluginPack.Proofs.FileSystem.Directory
import PluginPack.Proofs.FileSystem.Effect
import PluginPack.Proofs.FileSystem.Location
import PluginPack.Proofs.FileSystem.Place
import PluginPack.Proofs.FileSystem.Removal
import PluginPack.Proofs.Manifest.Assignment
import PluginPack.Proofs.Manifest.Component
import PluginPack.Proofs.Manifest.Document
import PluginPack.Proofs.Manifest.ReadBack
import PluginPack.Proofs.Offset.Safety
import PluginPack.Proofs.Path.Canonical
import PluginPack.Proofs.Path.Pieces
import PluginPack.Proofs.Registry.EntryCount
import PluginPack.Proofs.Registry.Handler
import PluginPack.Proofs.Registry.Literal
import PluginPack.Proofs.Registry.ReadBack
import PluginPack.Proofs.Registry.Spelling
import PluginPack.Proofs.Scaffold.Confinement
import PluginPack.Proofs.Scaffold.Course
import PluginPack.Proofs.Scaffold.Frame
import PluginPack.Proofs.Scaffold.Residue
import PluginPack.Proofs.Scaffold.Traversal
import PluginPack.Proofs.Script.Detached
import PluginPack.Proofs.Script.ForeignImport
import PluginPack.Proofs.Script.Forest
import PluginPack.Proofs.Script.ImportLayout
import PluginPack.Proofs.Script.KeptDeclaration
import PluginPack.Proofs.Script.KeptLiteral
import PluginPack.Proofs.Script.LineEnd
import PluginPack.Proofs.Script.LocalImport
import PluginPack.Proofs.Script.Nesting
import PluginPack.Proofs.Script.Passage
import PluginPack.Proofs.Script.Reach
import PluginPack.Proofs.Script.Statement
import PluginPack.Proofs.Text.Clearance
import PluginPack.Proofs.Text.Escape
import PluginPack.Proofs.Text.LineEnd
import PluginPack.Proofs.Text.Reading
import PluginPack.Proofs.Text.Span
import PluginPack.Proofs.Text.Unescape
import PluginPack.Proofs.Toml.Grammar
import PluginPack.Proofs.TypeSyntax.Arrival
import PluginPack.Proofs.TypeSyntax.Barrier
import PluginPack.Proofs.TypeSyntax.Continuation
import PluginPack.Proofs.TypeSyntax.Deletion
import PluginPack.Proofs.TypeSyntax.Head
import PluginPack.Proofs.TypeSyntax.KeptStatement
import PluginPack.Proofs.TypeSyntax.Length
import PluginPack.Proofs.TypeSyntax.LineEnd
import PluginPack.Proofs.TypeSyntax.LineEnd.Declaration
import PluginPack.Proofs.TypeSyntax.LineEnd.Expression
import PluginPack.Proofs.TypeSyntax.LineEnd.Parameter
import PluginPack.Proofs.TypeSyntax.LineEnd.Signature
import PluginPack.Proofs.TypeSyntax.Operand
import PluginPack.Proofs.TypeSyntax.Passing
import PluginPack.Proofs.TypeSyntax.Rounds
import PluginPack.Proofs.TypeSyntax.Shrinking
import PluginPack.Proofs.TypeSyntax.Spacing
import PluginPack.Proofs.Typed.Assertion
import PluginPack.Proofs.Typed.Chain
import PluginPack.Proofs.Typed.Header
import PluginPack.Proofs.Typed.Nested
import PluginPack.Proofs.Typed.Parameter
import PluginPack.Proofs.Typed.Rewriting
import PluginPack.Proofs.Typed.Tree
import PluginPack.Proofs.Typed.Variable
import PluginPack.Proofs.Untyped.Bracket
import PluginPack.Proofs.Untyped.Colon
import PluginPack.Proofs.Untyped.Declaration
import PluginPack.Proofs.Untyped.Erasure
import PluginPack.Proofs.Untyped.Expression
import PluginPack.Proofs.Untyped.Grammar
import PluginPack.Proofs.Untyped.Layout
import PluginPack.Proofs.Untyped.Parameter
import PluginPack.Proofs.Untyped.Parenthesis
import PluginPack.Proofs.Untyped.Signature
import PluginPack.Proofs.Untyped.Tail
import PluginPack.Proofs.Untyped.Token
import PluginPack.Registry.Declaration
import PluginPack.Registry.Script
import PluginPack.Scaffold.Basic
import PluginPack.Scaffold.Options
import PluginPack.Script.Dependency
import PluginPack.Script.Export
import PluginPack.Script.Literal
import PluginPack.Text.Alphabetic
import PluginPack.Text.Basic
import PluginPack.Text.CharClass
import PluginPack.Text.CodeRange
import PluginPack.Text.Escape
import PluginPack.Text.Lowercase
import PluginPack.Text.Marker
import PluginPack.Text.Numeric
import PluginPack.Toml.Document
import PluginPack.Toml.Quoted
import PluginPack.Toml.Scalar
import PluginPack.Toml.Table
import PluginPack.Toml.Value
import PluginPack.TypeSyntax.Annotation
import PluginPack.TypeSyntax.Assertion
import PluginPack.TypeSyntax.Declaration
import PluginPack.TypeSyntax.Erasure
import PluginPack.TypeSyntax.Parameter
import PluginPack.TypeSyntax.Signature
