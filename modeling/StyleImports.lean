import StyleImports.Cache.Basic
import StyleImports.Command.Arguments
import StyleImports.Command.Basic
import StyleImports.Command.Run
import StyleImports.Decimal.Ratio
import StyleImports.Digest.Sha256
import StyleImports.Files.Basic
import StyleImports.Files.Disk
import StyleImports.Files.Memory
import StyleImports.Glob.Basic
import StyleImports.Glob.Braces
import StyleImports.Glob.Expand
import StyleImports.Glob.Pattern
import StyleImports.Graph.Basic
import StyleImports.Graph.Cycle
import StyleImports.Graph.Diagnostic
import StyleImports.Graph.Listing
import StyleImports.Graph.Resolution
import StyleImports.Graph.Walk
import StyleImports.Json.Basic
import StyleImports.Json.Read
import StyleImports.Json.Write
import StyleImports.Loader.Basic
import StyleImports.Lookup.Directories
import StyleImports.Main
import StyleImports.Options.Basic
import StyleImports.Options.Fingerprint
import StyleImports.Options.Json
import StyleImports.Options.Layers
import StyleImports.Options.Variable
import StyleImports.Package.Error
import StyleImports.Package.Exports
import StyleImports.Package.Manifest
import StyleImports.Package.Request
import StyleImports.Package.Resolver
import StyleImports.Path.Basic
import StyleImports.Path.Spelling
import StyleImports.Path.Table
import StyleImports.Proofs.Cache.Log
import StyleImports.Proofs.Files.Memory
import StyleImports.Proofs.Files.Plain
import StyleImports.Proofs.Files.Within
import StyleImports.Proofs.Glob.Depth
import StyleImports.Proofs.Glob.Ending
import StyleImports.Proofs.Glob.Exact
import StyleImports.Proofs.Glob.Levels
import StyleImports.Proofs.Glob.Search
import StyleImports.Proofs.Glob.Split
import StyleImports.Proofs.Graph.BackEdges
import StyleImports.Proofs.Graph.Found
import StyleImports.Proofs.Graph.Origins
import StyleImports.Proofs.Graph.Plain
import StyleImports.Proofs.Graph.Reach
import StyleImports.Proofs.Graph.Sort
import StyleImports.Proofs.Graph.Static
import StyleImports.Proofs.Json.Write
import StyleImports.Proofs.Loader.Bypass
import StyleImports.Proofs.Loader.Compile
import StyleImports.Proofs.Loader.Consulted
import StyleImports.Proofs.Loader.Cycles
import StyleImports.Proofs.Loader.Importless
import StyleImports.Proofs.Loader.Inlined
import StyleImports.Proofs.Loader.Prepared
import StyleImports.Proofs.Loader.Substitution
import StyleImports.Proofs.Loader.Watched
import StyleImports.Proofs.Lookup.Alike
import StyleImports.Proofs.Lookup.Confined
import StyleImports.Proofs.Lookup.Fewer
import StyleImports.Proofs.Lookup.Literal
import StyleImports.Proofs.Lookup.Manifest
import StyleImports.Proofs.Lookup.Origins
import StyleImports.Proofs.Lookup.Spelling
import StyleImports.Proofs.Lookup.Static
import StyleImports.Proofs.Lookup.Stylesheets
import StyleImports.Proofs.Lookup.Twins
import StyleImports.Proofs.Lookup.Within
import StyleImports.Proofs.Options.Fingerprint
import StyleImports.Proofs.Path.Below
import StyleImports.Proofs.Path.Clean
import StyleImports.Proofs.Path.Climb
import StyleImports.Proofs.Path.Order
import StyleImports.Proofs.Path.Parent
import StyleImports.Proofs.Path.Parts
import StyleImports.Proofs.Path.Place
import StyleImports.Proofs.Path.Relative
import StyleImports.Proofs.Path.Table
import StyleImports.Proofs.Render.Agreement
import StyleImports.Proofs.Render.Calls
import StyleImports.Proofs.Render.Ending
import StyleImports.Proofs.Render.Finish
import StyleImports.Proofs.Render.Indentation
import StyleImports.Proofs.Render.Literal
import StyleImports.Proofs.Render.Replay
import StyleImports.Proofs.Render.Stack
import StyleImports.Proofs.Render.Targets
import StyleImports.Proofs.Render.Termination
import StyleImports.Proofs.Render.Traversal
import StyleImports.Proofs.Render.Uses
import StyleImports.Proofs.Request.Candidates
import StyleImports.Proofs.Session.Basic
import StyleImports.Proofs.Session.Changes
import StyleImports.Proofs.Session.Creations
import StyleImports.Proofs.Session.Edits
import StyleImports.Proofs.Session.Shared
import StyleImports.Proofs.Sheet.Alignment
import StyleImports.Proofs.Sheet.Comments
import StyleImports.Proofs.Sheet.Grammar
import StyleImports.Proofs.Sheet.Importless
import StyleImports.Proofs.Sheet.Malformed
import StyleImports.Proofs.Sheet.Outline
import StyleImports.Proofs.Sheet.Positions
import StyleImports.Proofs.Sheet.Quoted
import StyleImports.Proofs.Sheet.Reading
import StyleImports.Proofs.Sheet.Shift
import StyleImports.Proofs.Sheet.Tree
import StyleImports.Proofs.Sheet.Values
import StyleImports.Proofs.Sheet.Visitor
import StyleImports.Proofs.Url.Calls
import StyleImports.Proofs.Url.Target
import StyleImports.Proofs.Walk.Cached
import StyleImports.Proofs.Walk.Claim
import StyleImports.Proofs.Walk.Climbing
import StyleImports.Proofs.Walk.Closure
import StyleImports.Proofs.Walk.Confluence
import StyleImports.Proofs.Walk.Discovery
import StyleImports.Proofs.Walk.Endless
import StyleImports.Proofs.Walk.Findings
import StyleImports.Proofs.Walk.Interleaving
import StyleImports.Proofs.Walk.Invariant
import StyleImports.Proofs.Walk.Notes
import StyleImports.Proofs.Walk.Reached
import StyleImports.Proofs.Walk.Records
import StyleImports.Proofs.Walk.Sequential
import StyleImports.Proofs.Walk.Stores
import StyleImports.Proofs.Walk.Termination
import StyleImports.Proofs.Walk.Transparent
import StyleImports.Proofs.Walk.Visits
import StyleImports.Proofs.Walk.Watched
import StyleImports.Render.Decision
import StyleImports.Render.Error
import StyleImports.Render.Inline
import StyleImports.Request.Candidates
import StyleImports.Request.Resolver
import StyleImports.Sheet.Basic
import StyleImports.Sheet.Comment
import StyleImports.Sheet.Expr
import StyleImports.Sheet.Imports
import StyleImports.Sheet.Parse
import StyleImports.Sheet.Scope
import StyleImports.Specifier.Basic
import StyleImports.Text.Basic
import StyleImports.Text.Blank
import StyleImports.Text.Utf8
import StyleImports.Text.Word
import StyleImports.Url.Rebaser
import StyleImports.Proofs.Files.Edits
import StyleImports.Proofs.Glob.Choices
import StyleImports.Proofs.Sheet.Lexical
import StyleImports.Proofs.Options.Overlay
import StyleImports.Proofs.Options.Reading
import StyleImports.Proofs.Options.Layers
import StyleImports.Proofs.Sheet.Sums
