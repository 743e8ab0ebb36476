import StyleImports.Lookup.Directories
import StyleImports.Render.Decision
import StyleImports.Render.Error
import StyleImports.Sheet.Imports
import StyleImports.Sheet.Parse
import StyleImports.Url.Rebaser

/-!
# Putting imports in place

A rendered stylesheet is its lines with every import replaced by the rendered lines of its files,
which are indented as far as the import. An import of a URL, and of a `.css` file unless these are
put in, stays as a line. A file that is required is put in on its first use only.

The files on the way to the present one form a chain; an import of one of them is an error, so the
chain holds no file twice. The budget of a render bounds the length of the chain.
-/

set_option autoImplicit false

namespace StyleImports

/-- What a stylesheet is rendered with. Without URL options its URLs stay as they are; without an
index every import is looked up. -/
structure Renderer where
  fs : FileSystem
  paths : List Path
  includeCss : Bool
  urls : Option UrlOptions
  index : Option Index

/-- The lines written so far and the files put in, in the order of their first use. -/
structure Rendered where
  lines : List Text
  imports : List Path
  deriving DecidableEq, Repr

/-- Why a render stops: it fails, or its budget is spent. -/
inductive RenderStop where
  | failed (error : RenderError)
  | tooDeep
  deriving DecidableEq, Repr

namespace Rendered

def empty : Rendered := ⟨[], []⟩

def emit (r : Rendered) (indent : Nat) (text : Text) : Rendered :=
  { r with lines := r.lines ++ [List.replicate indent ' ' ++ text] }

def holds (r : Rendered) (file : Path) : Bool := file.isAmong r.imports

def use (r : Rendered) (file : Path) : Rendered :=
  { r with imports := Path.addNew r.imports file }

/-- The rendered text: the lines, each with a line feed. -/
def code (r : Rendered) : Text :=
  match Text.joinWith '\n' r.lines with
  | [] => []
  | code => code ++ ['\n']

end Rendered

namespace Renderer

def source (urls : Option UrlRebaser) (file : Path) (text : Text) : Text :=
  match urls with
  | some rebaser => rebaser.rebase file text
  | none => text

/-- What an import comes to: a line of its own, or files to put in. -/
inductive Placement where
  | literal (text : Text)
  | files (paths : List Path)
  deriving DecidableEq, Repr

/-- The files that an import stands for, by the index or else by lookup. -/
def targets (r : Renderer) (file : Path) (kind : ImportKind) (position : Position)
    (specifier : Text) : Except RenderError (List Path) :=
  let decision :=
    match r.index with
    | some index => index.decision file position specifier
    | none => .defer none
  match decision with
  | .substitute paths => .ok paths
  | .defer detail =>
    match Lookup.resolve ⟨r.fs, r.paths⟩ specifier file with
    | some found => .ok found
    | none => .error (.notFound kind specifier file position detail)

/-- Whether an import of a specifier stays as a line. -/
def isLiteral (r : Renderer) (specifier : Text) : Bool :=
  Specifier.isExternal specifier || (Text.endsWithAscii ".css" specifier && !r.includeCss)

/-- What an import comes to whose path has the given value. -/
def place (r : Renderer) (file : Path) (kind : ImportKind) (position : Position) :
    Option Sheet.Value → Except RenderError Placement
  | none => .error (.emptyPath file position)
  | some (.str []) => .error (.emptyPath file position)
  | some (.url url) => .ok (.literal (kind.keyword ++ " url(\x22" ++ url ++ "\x22)"))
  | some (.str specifier) =>
    if r.isLiteral specifier then
      .ok (.literal (kind.keyword ++ " \x22" ++ specifier ++ "\x22"))
    else (r.targets file kind position specifier).map .files

def specifierOf (path : Option Sheet.Value) : Text := (path.bind Sheet.Value.text?).getD []

/-- Renders a file below a chain of files, at an indentation. -/
def renderFile (r : Renderer) (urls : Option UrlRebaser) :
    Nat → List Path → Path → Text → Nat → Rendered → Except RenderStop Rendered
  | 0, _, _, _, _, _ => .error .tooDeep
  | budget + 1, chain, file, text, base, out =>
    match Sheet.parse text with
    | .error e => .error (.failed (.unparsed file e))
    | .ok nodes =>
      (Sheet.stepsOf .empty nodes).foldlM
        (fun out step =>
          match step with
          | .line indent text => .ok (out.emit (base + indent) (source urls file text))
          | .request kind position indent path =>
            match r.place file kind position path with
            | .error e => .error (.failed e)
            | .ok (.literal text) => .ok (out.emit (base + indent) text)
            | .ok (.files paths) =>
              paths.foldlM
                (fun out target =>
                  if target.isAmong (file :: chain) then
                    .error (.failed (.loop (specifierOf path) file position target))
                  else if kind = .once && out.holds target then .ok out
                  else
                    match r.fs.readText target with
                    | .error e => .error (.failed (.unread target e))
                    | .ok text =>
                      renderFile r urls budget (file :: chain) target text (base + indent)
                        (out.use target))
                out)
        out

/-- How long a chain can be on which every file renders in its own way: it holds the entry, paths
that the index speaks of, and a path for each stored file. -/
def span (r : Renderer) : Nat :=
  let indexed :=
    match r.index with
    | some index => index.size + (Index.targets index).length
    | none => 0
  r.fs.size + indexed + 1

/-- A budget that no render exceeds. A stored file has many paths; one that stands on the chain
under another path fails to render, and that takes at most as many files again. -/
def budget (r : Renderer) : Nat := 2 * r.span

def render (r : Renderer) (file : Path) (text : Text) : Except RenderStop Rendered :=
  let urls := r.urls.map fun urls => UrlRebaser.ofOptions r.fs file urls r.paths
  renderFile r urls r.budget [] file text 0 .empty

end Renderer

end StyleImports
