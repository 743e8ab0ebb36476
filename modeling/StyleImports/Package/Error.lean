import StyleImports.Path.Basic

/-!
# Why a package request has no answer
-/

set_option autoImplicit false

namespace StyleImports

inductive PackageError where
  | emptyRequest (request : Text)
  | notFound (request : Text)
  | aliasNotFound (request key : Text)
  | recursion
  | notExported (subpath : Text) (directory : Path) (conditions : List Text)
  | invalidTarget (target key : Text) (manifest : Path)
  | mixedExports (manifest : Path)
  | notFolder (manifest : Path)
  | invalidImport (request : Text) (manifest : Path)
  | unknownImport (request : Text) (manifest : Path)
  | invalidManifest (manifest : Path)
  deriving DecidableEq, Repr

namespace PackageError

def conditionsText : List Text → Text
  | [] => "no conditions"
  | [condition] => "the condition \x22" ++ condition ++ "\x22"
  | conditions =>
    "the conditions [" ++
      Text.joinBy ", " (conditions.map fun c => '\x22' :: c ++ ['\x22']) ++ "]"

def message : PackageError → Text
  | emptyRequest request =>
    "The specifiers must be a non-empty string. Received \x22" ++ request ++ "\x22"
  | notFound request => "Cannot find module '" ++ request ++ "'"
  | aliasNotFound request key =>
    "Cannot find module '" ++ request ++ "' for matched aliased key '" ++ key ++ "'"
  | recursion => "Recursion in resolving"
  | notExported subpath directory conditions =>
    '\x22' :: subpath ++ "\x22 is not exported under " ++ conditionsText conditions ++
      " from package " ++ directory.text ++ " (see exports field in " ++
      (directory.join ⟨"package.json"⟩).text ++ ")"
  | invalidTarget target key manifest =>
    "Invalid \x22exports\x22 target \x22" ++ target ++ "\x22 defined for '" ++ key ++
      "' in the package config " ++ manifest.text
  | mixedExports manifest =>
    "Invalid package config \x22" ++ manifest.text ++
      "\x22, \x22exports\x22 cannot contain some keys starting with '.' and some not. " ++
      "The exports object must either be an object of package subpath keys " ++
      "or an object of main entry condition name keys only."
  | notFolder manifest =>
    "Expecting folder to folder mapping. \x22" ++ manifest.text ++
      "\x22 should end with \x22/\x22"
  | invalidImport request manifest =>
    "Invalid module \x22" ++ request ++
      "\x22 specifier is not a valid subpath for the \x22exports\x22 resolution of " ++
      manifest.text
  | unknownImport request manifest =>
    "Package import specifier \x22" ++ request ++ "\x22 is not defined in package " ++
      manifest.text
  | invalidManifest manifest => "Invalid package config \x22" ++ manifest.text ++ "\x22"

/-- Errors after which other ways to answer are tried. -/
def isMissing : PackageError → Bool
  | notFound _ => true
  | aliasNotFound _ _ => true
  | _ => false

end PackageError

end StyleImports
