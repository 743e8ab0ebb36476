import StyleImports.Path.Basic

/-!
# Spellings of paths

Paths reach the library from tools that write backslashes or a verbatim mark `//?/` in front. Here
they are brought to the spelling in which dependencies are reported, and made absolute.
-/

set_option autoImplicit false

namespace StyleImports.Path

def forwardSlashes (p : Path) : Path := ⟨p.text.map fun c => if c = '\\' then '/' else c⟩

/-- The mark before a path that is to be taken verbatim. -/
def verbatimMark : Text := "//?/"

/-- The spelling in which a dependency is reported: forward slashes and no verbatim mark. -/
def asDependency (p : Path) : Path :=
  let slashed := p.forwardSlashes
  ⟨(verbatimMark.isPrefixOf? slashed.text).getD slashed.text⟩

/-- A cleaned path, seen from a working directory. -/
def cleanFrom (cwd p : Path) : Path := if p.isAbsolute then p.clean else (cwd.join p).clean

def absoluteFrom (cwd p : Path) : Path := cleanFrom cwd p.asDependency

end StyleImports.Path
