import StyleImports.Files.Basic
import StyleImports.Sheet.Basic

/-!
# Render errors

Why a stylesheet cannot be rendered, with the place where that came up.
-/

set_option autoImplicit false

namespace StyleImports

inductive RenderError where
  /-- An import names no file; `detail` is what the import graph knows about it. -/
  | notFound (kind : ImportKind) (specifier : Text) (file : Path) (position : Position)
      (detail : Option Text)
  /-- An import leads back to a file that is being rendered. -/
  | loop (specifier : Text) (file : Path) (position : Position) (target : Path)
  /-- An import has an empty path. -/
  | emptyPath (file : Path) (position : Position)
  | unread (path : Path) (error : FileError)
  | unparsed (file : Path) (error : ParseError)
  deriving DecidableEq, Repr

namespace RenderError

/-- The place of an error in a stylesheet, before what is said about it. -/
def place (file : Path) (position : Position) : Text :=
  file.text ++ ':' :: position.text ++ ": "

/-- What the import graph knows, in parentheses. -/
def detailText : Option Text → Text
  | some detail => " (bundler resolver: " ++ detail ++ ")"
  | none => []

def message : RenderError → Text
  | notFound kind specifier file position detail =>
    place file position ++ "failed to locate " ++ kind.keyword ++ " file '" ++ specifier ++ "'" ++
      detailText detail
  | loop specifier file position target =>
    place file position ++ "import loop has been found: '" ++ specifier ++ "' resolves to '" ++
      target.text ++ "'"
  | emptyPath file position => place file position ++ "import path is empty"
  | unread path error => "Failed to read '" ++ path.text ++ "': " ++ error.message
  | unparsed file error => "Failed to parse '" ++ file.text ++ "': " ++ error.message

/-- The text of the error below this one, if there is one. -/
def cause? : RenderError → Option Text
  | unread _ error => some error.message
  | unparsed _ error => some error.message
  | _ => none

def location? : RenderError → Option (Path × Position)
  | notFound _ _ file position _ => some (file, position)
  | loop _ file position _ => some (file, position)
  | emptyPath file position => some (file, position)
  | unparsed file error => some (file, error.position)
  | unread _ _ => none

end RenderError

end StyleImports
