import StyleImports.Digest.Sha256
import StyleImports.Options.Json

/-!
# The fingerprint of options

The digest of every option that can change where an import leads: the search directories, whether
imports are resolved ahead of rendering, the root and the settings for packages. Every path is
closed by a zero byte.
-/

set_option autoImplicit false

namespace StyleImports.Options

def fingerprintBytes (o : Options) : Bytes :=
  (o.searchPaths.flatMap fun p => Text.utf8 p.text ++ [0]) ++
    [if o.preresolve then 1 else 0, 0] ++
    Text.utf8 (o.rootRequest.getD []) ++ [0] ++
    Text.utf8 (Json.compact (packagesToJson o.packages))

def fingerprint (o : Options) : Text := Sha256.hex o.fingerprintBytes

end StyleImports.Options
