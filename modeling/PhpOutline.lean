import PhpOutline.Command
import PhpOutline.Declaration.Callable
import PhpOutline.Declaration.ClassLike
import PhpOutline.Declaration.Member
import PhpOutline.Declaration.Parameter
import PhpOutline.Declaration.Property
import PhpOutline.Diagnostic
import PhpOutline.Discovery.Event
import PhpOutline.Discovery.Import
import PhpOutline.Lexeme.Comment
import PhpOutline.Lexeme.Heredoc
import PhpOutline.Lexeme.Quoted
import PhpOutline.Lexeme.Sign
import PhpOutline.Lexeme.Tag
import PhpOutline.Lexeme.Word
import PhpOutline.Lexing.Basic
import PhpOutline.Lexing.Reading
import PhpOutline.Lookup
import PhpOutline.Main
import PhpOutline.Modifiers
import PhpOutline.Name.Bindings
import PhpOutline.Name.Context
import PhpOutline.Nesting
import PhpOutline.Outline
import PhpOutline.Proofs.Declaration.Binding
import PhpOutline.Proofs.Declaration.ClassBody
import PhpOutline.Proofs.Declaration.ClassSource
import PhpOutline.Proofs.Declaration.Constants
import PhpOutline.Proofs.Declaration.DefaultValue
import PhpOutline.Proofs.Declaration.Lead
import PhpOutline.Proofs.Declaration.MemberSyntax
import PhpOutline.Proofs.Declaration.Methods
import PhpOutline.Proofs.Declaration.Parameters
import PhpOutline.Proofs.Declaration.ParameterSyntax
import PhpOutline.Proofs.Declaration.Properties
import PhpOutline.Proofs.Discovery.OneType
import PhpOutline.Proofs.Discovery.Sites
import PhpOutline.Proofs.Lexing.Bounds
import PhpOutline.Proofs.Lexing.CodeText
import PhpOutline.Proofs.Lexing.Continuation
import PhpOutline.Proofs.Lexing.Fence
import PhpOutline.Proofs.Lexing.Lexemes
import PhpOutline.Proofs.Lexing.Lossless
import PhpOutline.Proofs.Lexing.Placement
import PhpOutline.Proofs.Lookup
import PhpOutline.Proofs.Modifiers
import PhpOutline.Proofs.Nesting
import PhpOutline.Proofs.Outline.Listed
import PhpOutline.Proofs.Sweep
import PhpOutline.Proofs.TokenTable.Items
import PhpOutline.Proofs.TokenTable.Parts
import PhpOutline.Proofs.TokenTable.Windows
import PhpOutline.Report
import PhpOutline.SourceFile
import PhpOutline.Sweep
import PhpOutline.Text.Basic
import PhpOutline.Text.Blank
import PhpOutline.Text.Segments
import PhpOutline.Token.Basic
import PhpOutline.Token.Kind
import PhpOutline.TokenTable.Basic
import PhpOutline.TokenTable.Slices
import PhpOutline.Proofs.Lexing.Lines
import PhpOutline.Proofs.Declaration.Spans
import PhpOutline.Proofs.Discovery.Spans
import PhpOutline.Proofs.Outline.Snapshots
import PhpOutline.Proofs.Outline.Spans
import PhpOutline.Proofs.Discovery.ItemEvents
import PhpOutline.Proofs.Outline.Scopes
import PhpOutline.Proofs.Discovery.Alike
import PhpOutline.Proofs.Outline.Findings
import PhpOutline.Proofs.Discovery.Locality
import PhpOutline.Proofs.Discovery.Bodies
import PhpOutline.Proofs.Outline.Opacity
import PhpOutline.Proofs.TokenTable.Shifts
import PhpOutline.Proofs.Declaration.Shifts
import PhpOutline.Proofs.Declaration.TypeShifts
import PhpOutline.Proofs.Outline.CodeMode
import PhpOutline.Proofs.Lexing.Newline
import PhpOutline.Proofs.Outline.Newline
import PhpOutline.Proofs.Lexing.Restart
import PhpOutline.Proofs.Lexing.StringGrammar
import PhpOutline.Proofs.Lexing.Interpolation
import PhpOutline.Proofs.Lexing.NameShape
import PhpOutline.Proofs.Outline.CanonicalNames
import PhpOutline.Proofs.Outline.Depth
import PhpOutline.Proofs.Declaration.Naming
import PhpOutline.Proofs.Declaration.MethodNames
import PhpOutline.Proofs.Discovery.UseSyntax
import PhpOutline.Proofs.Discovery.Imports
import PhpOutline.Proofs.Outline.Imports
import PhpOutline.Proofs.Declaration.Parts
import PhpOutline.Proofs.Discovery.Headers
import PhpOutline.Proofs.Outline.Parts
import PhpOutline.Proofs.Outline.Slices
import PhpOutline.Proofs.Declaration.Lines
import PhpOutline.Proofs.Declaration.Hooks
import PhpOutline.Proofs.Declaration.HookedBody
import PhpOutline.Proofs.Balance
import PhpOutline.Proofs.Name.TypeHints
import PhpOutline.Proofs.Outline.Aliases
import PhpOutline.Proofs.Lexing.Runs
import PhpOutline.Proofs.Lexing.Diagnostics
import PhpOutline.Proofs.Lexing.Alternation
import PhpOutline.Proofs.Lexing.WordKinds
import PhpOutline.Proofs.Lexing.HeredocSyntax
import PhpOutline.Proofs.Lexing.Heredocs
import PhpOutline.Proofs.Matching
import PhpOutline.Proofs.TokenTable.Matching
import PhpOutline.Proofs.TokenTable.DocComments
import PhpOutline.Proofs.TokenTable.Separators
import PhpOutline.Proofs.Lexing.Shapes
import PhpOutline.Proofs.TokenTable.Passes
import PhpOutline.Proofs.Cursor.Loop
import PhpOutline.Proofs.Cursor.Searches
import PhpOutline.Proofs.Cursor.Parameters
import PhpOutline.Proofs.Cursor.Properties
import PhpOutline.Proofs.Cursor.Callables
import PhpOutline.Proofs.Cursor.Ends
import PhpOutline.Proofs.Cursor.Members
import PhpOutline.Proofs.Cursor.Types
import PhpOutline.Proofs.Cursor.Headers
import PhpOutline.Proofs.Cursor.Discovery
import PhpOutline.Proofs.Cursor.Readers
