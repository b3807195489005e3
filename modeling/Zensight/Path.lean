import Zensight.Text

/-!
# Paths

Paths are texts whose segments are divided by slashes. Everything here is
lexical: no file is looked at, so `a/..` is the current directory even where
`a` is a link to somewhere else.
-/

namespace Zensight.Path

def slash : UInt8 := byte '/'

/-- The directory itself. -/
def dot : Text := txt "."

/-- The directory above. -/
def dotDot : Text := txt ".."

/-- The last segment's text from its last dot on; empty without a dot. -/
def extension (path : Text) : Text :=
  let name := (path.reverse.takeWhile (· != slash)).reverse
  let tail := (name.reverse.takeWhile (· != byte '.')).reverse
  if name.contains (byte '.') then byte '.' :: tail else []

/-- Does the path start at the top of the file system? -/
def isAbsolute (path : Text) : Bool := path.head? == some slash

/-- The segments between the slashes; empty ones do not count. -/
def segments (path : Text) : List Text := (Text.split slash path).filter (· ≠ [])

/-- The segments one after another, divided by slashes. -/
def ofSegments (names : List Text) : Text := Text.join [slash] names

/-- Takes one segment more. The segment `..` undoes the one before it; at the
top of the file system there is nothing to undo. -/
def descend (absolute : Bool) (names : List Text) (name : Text) : List Text :=
  if name = dot then names
  else if name = dotDot then
    match names.getLast? with
    | none => if absolute then [] else [dotDot]
    | some last => if last = dotDot then names ++ [dotDot] else names.dropLast
  else names ++ [name]

/-- The segments of the shortest path that leads to the same place. -/
def cleanSegments (path : Text) : List Text :=
  (segments path).foldl (descend (isAbsolute path)) []

/-- The shortest path that leads to the same place. -/
def clean (path : Text) : Text :=
  let names := cleanSegments path
  if isAbsolute path then slash :: ofSegments names
  else if names.isEmpty then dot
  else ofSegments names

/-- The path `name` seen from the directory `directory`; empty parts do not
count. -/
def join (directory name : Text) : Text :=
  if directory = [] then if name = [] then [] else clean name
  else if name = [] then clean directory
  else clean (directory ++ [slash] ++ name)

/-- What is left of two lists after their common start. -/
def dropCommon : List Text → List Text → List Text × List Text
  | a :: s, b :: t => if a = b then dropCommon s t else (a :: s, b :: t)
  | s, t => (s, t)

/-- The path that leads from `base` to `target`. There is none between an
absolute and a relative path, nor from a directory above that is not named. -/
def relative? (base target : Text) : Option Text :=
  if clean base = clean target then some dot
  else if isAbsolute base != isAbsolute target then none
  else
    let (up, down) := dropCommon (cleanSegments base) (cleanSegments target)
    if up.head? = some dotDot then none
    else some (ofSegments (up.map (fun _ => dotDot) ++ down))

/-- The last segment. -/
def base (path : Text) : Text :=
  if path = [] then dot
  else match (segments path).getLast? with
    | none => [slash]
    | some name => name

/-- The path from the top of the file system, for someone in `directory`. -/
def absolute (directory path : Text) : Text :=
  if isAbsolute path then clean path else join directory path

end Zensight.Path
