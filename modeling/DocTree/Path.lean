import DocTree.Text.Split

/-!
Paths as plain text. A path is cleaned by its letters alone: both slashes separate, empty and `.`
segments vanish, `..` removes the segment before it. Files are told apart by their cleaned path, so
the same file has one text on every machine. A path is *rooted* when it begins with `/` or with a
drive such as `C:`.
-/

namespace DocTree

/-- A path; cleaned unless it was taken over as it stood. -/
structure Path where
  text : String
  deriving DecidableEq, Repr, Inhabited

namespace Path

/-- A segment between two slashes. -/
abbrev Segment := List Char

/-- Where a rooted path begins. -/
inductive Root where
  | slash
  | drive (letter : Char)
  deriving DecidableEq, Repr

/-- The segment that stays in place. -/
def dot : Segment := ['.']

/-- The segment that goes up. -/
def dotDot : Segment := ['.', '.']

/-- Every backslash turned into a slash. -/
def slashed (s : List Char) : List Char :=
  s.map fun c => if c = '\\' then '/' else c

/-- The letter of a drive in front. -/
def drive? : List Char → Option Char
  | c :: ':' :: _ => if c.isAlpha then some c else none
  | _ => none

/-- Where the path begins, if it is rooted. -/
def root? (s : List Char) : Option Root :=
  match drive? s with
  | some letter => some (.drive letter)
  | none => if s.head? = some '/' then some .slash else none

/-- The path without its drive. -/
def body (s : List Char) : List Char :=
  if (drive? s).isSome then s.drop 2 else s

/-- The segments of a path, empty ones left out. -/
def segments (s : List Char) : List Segment :=
  (Text.pieces '/' (body s)).filter fun segment => !segment.isEmpty

/-- Segments joined with slashes. -/
def join (segments : List Segment) : List Char :=
  ['/'].intercalate segments

/-! ### Cleaning -/

/-- One segment taken onto the stack, whose top is the last segment kept. Going up from a root stays
there; going up from the start of a path without root is kept. -/
def step (rooted : Bool) (stack : List Segment) (segment : Segment) : List Segment :=
  if segment = dot then stack
  else if segment = dotDot then
    match stack with
    | last :: below => if last ≠ dotDot then below else if rooted then stack else dotDot :: stack
    | [] => if rooted then [] else [dotDot]
  else segment :: stack

/-- The segments left when `.` and `..` are carried out. -/
def cancel (rooted : Bool) (segments : List Segment) : List Segment :=
  (segments.foldl (step rooted) []).reverse

/-- The text of a root, drive letters in upper case. -/
def Root.text : Root → List Char
  | .slash => ['/']
  | .drive letter => [letter.toUpper, ':', '/']

/-- A path cleaned. -/
def cleaned (s : List Char) : List Char :=
  let s := slashed s
  match root? s with
  | some root => root.text ++ join (cancel true (segments s))
  | none =>
    let kept := join (cancel false (segments s))
    if kept.isEmpty then dot else kept

/-- The path of a text, cleaned. -/
def ofText (text : String) : Path :=
  ⟨String.ofList (cleaned text.toList)⟩

/-- A path seen from a directory: a rooted one is taken alone. -/
def resolve (base text : String) : Path :=
  let path := slashed text.toList
  if (root? path).isSome then ofText (String.ofList path)
  else ofText (String.ofList (slashed base.toList ++ '/' :: path))

/-! ### Parts -/

/-- Is rooted. -/
def isAbsolute (p : Path) : Bool :=
  (root? p.text.toList).isSome

/-- The directory: `/` for a file at the root, `.` where there is no slash. -/
def directory (p : Path) : String :=
  match Text.cutLast '/' p.text.toList with
  | some ([], _) => "/"
  | some (before, _) => String.ofList before
  | none => "."

/-- The last segment. -/
def baseName (p : Path) : String :=
  match Text.cutLast '/' p.text.toList with
  | some (_, after) => String.ofList after
  | none => p.text

/-- How many leading items two lists share. -/
def commonLength : List Segment → List Segment → Nat
  | a :: as, b :: bs => if a = b then commonLength as bs + 1 else 0
  | _, _ => 0

/-- The path as seen from a directory; unchanged when one of the two is not rooted or the roots
differ. -/
def relativeTo (p : Path) (directory : String) : String :=
  let source := cleaned directory.toList
  let target := p.text.toList
  match root? source, root? target with
  | some a, some b =>
    if a = b then
      let up := segments source
      let down := segments target
      let common := commonLength up down
      let route := List.replicate (up.length - common) dotDot ++ down.drop common
      if route.isEmpty then "." else String.ofList (join route)
    else p.text
  | _, _ => p.text

/-- A file name cut before its last point; a name that begins with its only point is not cut. -/
def splitExtension (file : String) : String × String :=
  match Text.cutLast '.' file.toList with
  | some ([], _) | none => (file, "")
  | some (stem, extension) => (String.ofList stem, String.ofList ('.' :: extension))

end Path

end DocTree
