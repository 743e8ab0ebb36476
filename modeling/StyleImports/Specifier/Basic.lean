import StyleImports.Path.Spelling
import StyleImports.Text.Blank
import StyleImports.Text.Word

/-!
# Import specifiers

What the text of an import can be taken for: an absolute or a relative path, a URL that stays
where it is, or a request for a package. The classes overlap; each caller asks for the one that
matters to it.
-/

set_option autoImplicit false

namespace StyleImports.Specifier

def isAsciiLetter (c : Char) : Bool := c.isAlpha

/-- A drive letter, a colon and a separator. -/
def isDrivePath : Text → Bool
  | c :: ':' :: sep :: _ => isAsciiLetter c && (sep = '/' || sep = '\\')
  | _ => false

/-- A host and a path without a scheme: `//host/path`. -/
def isSchemeRelative (s : Text) : Bool := "//".toList.isPrefixOf s

/-- A path from a root: of the file system, of a drive or of a share. -/
def isAbsolute (s : Text) : Bool :=
  (['/'].isPrefixOf s && !isSchemeRelative s) || isDrivePath s || "\\\\".toList.isPrefixOf s

def isSchemeChar (c : Char) : Bool :=
  isAsciiLetter c || Text.isDigit c || c = '+' || c = '-' || c = '.'

/-- Letters, digits and `+-.` up to a colon; a drive letter is no scheme. -/
def hasScheme (s : Text) : Bool :=
  match s with
  | [] => false
  | c :: rest =>
    isAsciiLetter c && (rest.dropWhile isSchemeChar).head? = some ':' && !isDrivePath s

/-- A specifier that names a file relative to something. -/
def isRelative (s : Text) : Bool :=
  s ≠ [] && !isAbsolute s && !isSchemeRelative s && !hasScheme s

/-- A specifier that never names a file: a fragment, or a URL with or without its scheme. -/
def isExternal (s : Text) : Bool := ['#'].isPrefixOf s || isSchemeRelative s || hasScheme s

/-- A request that goes to the packages: `~name`. -/
def isModule (s : Text) : Bool := ['~'].isPrefixOf s

/-! ## URL requests -/

/-- A character that, letter case aside, is the given small letter. The long s folds to `s`. -/
def foldsTo (letter c : Char) : Bool := c.toLower = letter || (letter = 's' && c = 'ſ')

/-- What follows a word of small letters, letter case aside. -/
def afterWord? : Text → Text → Option Text
  | [], t => some t
  | letter :: word, c :: t => if foldsTo letter c then afterWord? word t else none
  | _ :: _, [] => none

/-- A fragment, a path from the root, or a URL of the web. -/
def startsWebTarget (t : Text) : Bool :=
  match t with
  | '#' :: _ => true
  | '/' :: _ => true
  | _ =>
    match afterWord? "http" t with
    | none => false
    | some rest =>
      "://".toList.isPrefixOf rest ||
        match afterWord? "s" rest with
        | some rest => "://".toList.isPrefixOf rest
        | none => false

/-- A web target, perhaps after an opening quote. -/
def startsQuotedWebTarget (t : Text) : Bool :=
  startsWebTarget t ||
    match t with
    | c :: rest => (c = '\x22' || c = '\x27') && startsWebTarget rest
    | [] => false

/-- What follows `url(` and blanks, letter case aside. -/
def afterUrlOpen? (t : Text) : Option Text :=
  match (afterWord? "url" t).map Text.trimStart with
  | some ('(' :: rest) => some (Text.trimStart rest)
  | _ => none

/-- A specifier that the compiler treats as a URL: a web target, in `url(…)` or not. -/
def isUrl (s : Text) : Bool :=
  startsQuotedWebTarget s ||
    match afterUrlOpen? s with
    | some inner => startsQuotedWebTarget inner
    | none => false

/-! ## Source names -/

/-- How a source is shown: below the root it is relative to it, elsewhere as it is, always with
forward slashes; external URLs are left alone. -/
def sourceName (root : Path) (source : Text) : Text :=
  if isExternal source then source
  else
    let full := if isAbsolute source then ⟨source⟩ else root.join ⟨source⟩
    ((Path.below? root full).getD full).forwardSlashes.text

end StyleImports.Specifier
