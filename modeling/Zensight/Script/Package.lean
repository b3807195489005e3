import Zensight.Path

/-!
# Packages

The package of a script follows from its path in the workspace, and qualifies
the names of the classes it declares.
-/

namespace Zensight.Package

/-- The package that holds all others. -/
def root : Text := txt "scripts"

/-- The package of the script at a path relative to the workspace:
`lib/vec.zs` is in `scripts.lib.vec`. -/
def ofPath (path : Text) : Text :=
  let stem := Text.trim (· == Path.slash) (path.dropEnd (Path.extension path))
  if stem = [] then root
  else root ++ txt "." ++ stem.map (fun c => if c = Path.slash then byte '.' else c)

/-- The qualified name of something declared in a package; nothing qualifies in
the package without a name. -/
def qualify (package name : Text) : Text :=
  if package = [] then name else package ++ txt "." ++ name

end Zensight.Package
