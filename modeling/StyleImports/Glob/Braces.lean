import StyleImports.Text.Basic

/-!
# Alternatives in braces

`x/{a,b}` stands for `x/a` and `x/b`; groups may be nested, and an alternative may be empty. The
first group is expanded first, so its alternatives vary slowest. If the first opening brace is
never closed, the whole text stands for itself.
-/

set_option autoImplicit false

namespace StyleImports.Glob

/-- The alternatives of a group whose opening brace was read, and what follows the closing brace;
none if it is never closed. `depth` counts the open inner groups, `part` is the present alternative
read backwards. -/
def readGroup (depth : Nat) (part : Text) : Text → Option (List Text × Text)
  | [] => none
  | '{' :: rest => readGroup (depth + 1) ('{' :: part) rest
  | '}' :: rest =>
    match depth with
    | 0 => some ([part.reverse], rest)
    | depth + 1 => readGroup depth ('}' :: part) rest
  | ',' :: rest =>
    match depth with
    | 0 => (readGroup 0 [] rest).map fun group => (part.reverse :: group.1, group.2)
    | depth + 1 => readGroup (depth + 1) (',' :: part) rest
  | c :: rest => readGroup depth (c :: part) rest

/-- Expands groups, at most the given number of them one inside or after another. -/
def expandGroups : Nat → Text → List Text
  | 0, t => [t]
  | n + 1, t =>
    match Text.splitFirst '{' t with
    | none => [t]
    | some (start, rest) =>
      match readGroup 0 [] rest with
      | none => [t]
      | some (parts, ending) => parts.flatMap fun part => expandGroups n (start ++ part ++ ending)

/-- All choices of one alternative in every group. Each step takes an opening brace away, so their
number bounds the steps. -/
def expandBraces (t : Text) : List Text := expandGroups (t.count '{') t

end StyleImports.Glob
