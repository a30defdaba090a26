import Namespacing.Text.Basic
import Namespacing.Text.Blank
import Namespacing.Text.Encoding
import Namespacing.Token.Basic
import Namespacing.Token.Lexeme
import Namespacing.Token.Stream
import Namespacing.Outline
import Namespacing.Path
import Namespacing.Namespace
import Namespacing.Manifest
import Namespacing.GlobalClasses
import Namespacing.RenameTable.Basic
import Namespacing.RenameTable.Symbols
import Namespacing.Layout
import Namespacing.Json.Basic
import Namespacing.Json.Syntax
import Namespacing.FileSystem.IoError
import Namespacing.Fault
import Namespacing.Settings.Basic
import Namespacing.Settings.Reader
import Namespacing.Settings.Load
import Namespacing.FileSystem.Node
import Namespacing.FileSystem.Basic
import Namespacing.FileSystem.Resolve
import Namespacing.FileSystem.Operations
import Namespacing.FileSystem.Tree
import Namespacing.FileSystem.Storage
import Namespacing.Glob
import Namespacing.Conversion.Report
import Namespacing.Conversion.Walk
import Namespacing.Conversion.Revision
import Namespacing.Conversion.Run
import Namespacing.Conversion.Session
import Namespacing.CommandLine.Command
import Namespacing.CommandLine.Response
import Namespacing.CommandLine.Run
import Namespacing.Main
import Namespacing.Proofs.RenameTable.Entries
import Namespacing.Proofs.Text.Replacement
import Namespacing.Proofs.RenameTable.ClassPieces
import Namespacing.Proofs.RenameTable.Windows
import Namespacing.Proofs.RenameTable.References
import Namespacing.Proofs.RenameTable.Restorations
import Namespacing.Proofs.Path.Steps
import Namespacing.Proofs.FileSystem.Lookup
import Namespacing.Proofs.FileSystem.Directories
import Namespacing.Proofs.FileSystem.Removal
import Namespacing.Proofs.FileSystem.Filling
import Namespacing.Proofs.Conversion.Convert
import Namespacing.Proofs.Conversion.Preservation
import Namespacing.Proofs.Conversion.Confinement
import Namespacing.Proofs.Conversion.Refinement
import Namespacing.Proofs.Token.Lossless
import Namespacing.Proofs.Layout.Container
import Namespacing.Proofs.Token.Respelling
import Namespacing.Proofs.Layout.Outlines
import Namespacing.Proofs.Layout.ClassFiles
import Namespacing.Proofs.RenameTable.Rearrangement
import Namespacing.Proofs.Outline.Enclosures
import Namespacing.Proofs.Layout.Encodings
import Namespacing.Proofs.Conversion.ForeignRuns
import Namespacing.Proofs.Conversion.Traces
import Namespacing.Proofs.Token.Stops
import Namespacing.Proofs.Layout.NamespaceDeclarations
import Namespacing.Proofs.Layout.Strings
import Namespacing.Proofs.Layout.Methods
import Namespacing.Proofs.Token.Modes
import Namespacing.Proofs.Token.SelfDelimiting
import Namespacing.Proofs.Token.Grammars
import Namespacing.Proofs.Outline.Functions
import Namespacing.Proofs.Outline.Names
import Namespacing.Proofs.FileSystem.Agreement
import Namespacing.Proofs.FileSystem.Listings
import Namespacing.Proofs.FileSystem.Descents
import Namespacing.Proofs.Conversion.SourceFiles
import Namespacing.Proofs.RenameTable.Size
import Namespacing.Proofs.Settings.Requirements
import Namespacing.Proofs.Manifest.Reading
import Namespacing.Proofs.Conversion.InPlace
import Namespacing.Proofs.RenameTable.PlainDeclarations
import Namespacing.Proofs.Token.QualifiedDeclarations
import Namespacing.Proofs.Layout.StaticMethods
