/-
Paths of files.

A path is a text whose pieces stand between slashes. An empty piece and a piece
that is a dot mean nothing, except that a slash at the front is the root and a
dot at the front is the current directory (`Path.components`). A path keeps the
text it was given, so two paths with the same components may differ.

* **`Path.extension?`**, **`Path.withExtension`** — what stands behind the last
  dot of the name at the end, unless the name has no other dot before its first
  character, and a path with something else there;
* **`Path.join`** — a path with a name at its end;
* **`Path.below?`** — the way from one path to another that starts with it.
-/

namespace HackVm

/-- A path, as it is written. -/
structure Path where
  text : String
  deriving DecidableEq, Repr

/-- A step of a path. -/
inductive Component where
  | root
  /-- A dot at the front of a path. -/
  | here
  /-- Two dots: the directory above. -/
  | up
  | normal (name : String)
  deriving DecidableEq, Repr

/-- A step as it is written. -/
def Component.text : Component → String
  | .root => "/"
  | .here => "."
  | .up => ".."
  | .normal name => name

/-- The pieces of a path between its slashes. -/
def Path.pieces (p : Path) : List String :=
  (p.text.toList.splitOn '/').map String.ofList

/-- Whether a piece means nothing unless it is at the front. -/
def isIdle (piece : String) : Bool :=
  piece = "" || piece = "."

/-- The step that a piece stands for. -/
def Component.ofPiece? (piece : String) : Option Component :=
  if isIdle piece then none else if piece = ".." then some .up else some (.normal piece)

/-- The steps of a path. -/
def Path.components (p : Path) : List Component :=
  match p.pieces with
  | "" :: piece :: rest => .root :: (piece :: rest).filterMap Component.ofPiece?
  | "." :: rest => .here :: rest.filterMap Component.ofPiece?
  | pieces => pieces.filterMap Component.ofPiece?

/-- The shortest path with the given steps. -/
def Path.ofComponents (steps : List Component) : Path :=
  match steps with
  | .root :: rest => ⟨"/" ++ "/".intercalate (rest.map Component.text)⟩
  | _ => ⟨"/".intercalate (steps.map Component.text)⟩

/-- The name at the end of a path, and what is written before it. A path that ends otherwise than
in a name has none. -/
def Path.fileName? (p : Path) : Option (String × String) :=
  match p.pieces.reverse.dropWhile isIdle with
  | [] => none
  | name :: before =>
    if name = ".." then none
    else some (String.join (before.reverse.map (· ++ "/")), name)

/-- A name without its extension, and its extension: what stands behind the last dot, unless
that dot is the first character. -/
def splitExtension (name : String) : String × Option String :=
  let reversed := name.toList.reverse
  match reversed.dropWhile (· ≠ '.') with
  | [] | [_] => (name, none)
  | _ :: stem =>
    (String.ofList stem.reverse, some (String.ofList (reversed.takeWhile (· ≠ '.')).reverse))

/-- The extension of the name at the end of a path. -/
def Path.extension? (p : Path) : Option String :=
  p.fileName?.bind fun (_, name) => (splitExtension name).2

/-- A path with an extension in the place of the one it has, or with none if the new one is
empty. A path that does not end in a name is left as it is. -/
def Path.setExtension (p : Path) (extension : String) : Path :=
  match p.fileName? with
  | none => p
  | some (before, name) =>
    let stem := (splitExtension name).1
    ⟨before ++ stem ++ (if extension = "" then "" else "." ++ extension)⟩

/-- A path with another extension. The old one is cut off the end of the path before the new one
is set, which leaves a name such as `..vm` without any. -/
def Path.withExtension (p : Path) (extension : String) : Path :=
  match p.extension? with
  | none => p.setExtension extension
  | some old =>
    let chars := p.text.toList
    (Path.mk (String.ofList (chars.take (chars.length - old.length)))).setExtension extension

/-- A path with a name at its end. -/
def Path.join (p : Path) (name : String) : Path :=
  if p.text = "" || p.text.toList.getLast? = some '/' then ⟨p.text ++ name⟩
  else ⟨p.text ++ "/" ++ name⟩

/-- The steps from one path to another that starts with the same steps. -/
def Path.below? (base p : Path) : Option Path :=
  if base.components.isPrefixOf p.components then
    some (.ofComponents (p.components.drop base.components.length))
  else none

end HackVm
