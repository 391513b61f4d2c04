import DocTree.Project.Basic
import DocTree.Reader.Issue

/-!
What is reported of a project: how many reflections there are of each single kind, and what was amiss
when it was read.
-/

namespace DocTree

namespace Project

/-- How many reflections are of exactly this kind. -/
def count (p : Project) (k : Kind) : Nat := p.reflections.countP (·.kind = k)

/-- The single kinds that occur with their counts, in the order of the bits. -/
def kindCounts (p : Project) : List (Kind × Nat) :=
  (Kind.primary.map fun k => (k, p.count k)).filter fun (_, n) => 0 < n

end Project

namespace Report

/-- The width of the column of counts. -/
def countWidth : Nat := 5

/-- A count, right-aligned in its column. -/
def countText (n : Nat) : String :=
  let digits := toString n
  String.ofList (List.replicate (countWidth - digits.length) ' ') ++ digits

/-- A kind with its count. -/
def kindLine (entry : Kind × Nat) : String :=
  "  " ++ countText entry.2 ++ " " ++
    (if entry.2 = 1 then entry.1.singular else entry.1.plural) ++ "\n"

/-- What was amiss, one item a line; nothing at all when all was well. -/
def issueLines (issues : List Issue) : String :=
  if issues.isEmpty then ""
  else
    toString issues.length ++ " issue(s):\n" ++
      String.join (issues.map fun issue => "  " ++ issue.message ++ "\n")

/-- The report of a project: its size, its kinds, and what was amiss. -/
def text (p : Project) (issues : List Issue) : String :=
  p.name ++ ": " ++ toString p.size ++ " reflections\n" ++
    String.join (p.kindCounts.map kindLine) ++ issueLines issues

end Report

end DocTree
