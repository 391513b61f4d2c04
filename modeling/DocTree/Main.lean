import DocTree.CommandLine.Help
import DocTree.CommandLine.Reader
import DocTree.CommandLine.Run

/-!
The program. It reads its words, reads and writes files, and prints; what is read and written is told
elsewhere.
-/

namespace DocTree.CommandLine

/-- The text of a file of the file system, if it can be read. -/
def readFile (place : String) : IO (Option String) :=
  tryCatch (some <$> IO.FS.readFile place) fun _ => return none

/-- Write a file of the file system; tells whether that could be done. -/
def writeFile (place text : String) : IO Bool :=
  tryCatch (IO.FS.writeFile place text *> return true) fun _ => return false

/-- Write the outcome to its place, or print it. -/
def deliver (outcome : ReviveOutcome) : Option String → ExceptT RunError IO Unit
  | none => IO.println outcome.json
  | some place => do unless ← writeFile place outcome.json do throw (.unwritable place)

/-- Carry out an invocation from a directory. -/
def execute (i : Invocation) (workingDirectory : String) : ExceptT RunError IO Unit := do
  let options ← i.options readFile
  let root := options.resolvedRoot workingDirectory
  match i.command with
  | .revive _ =>
    let outcome ← runRevive readFile options root
    deliver outcome options.out
    unless outcome.issues.isEmpty do
      IO.eprintln (toString outcome.issues.length ++ " issue(s) while reviving:")
      for issue in outcome.issues do IO.eprintln ("  " ++ issue.message)
  | .check input => IO.print (← runCheck readFile input root)

/-- Ends with 0 when all is done, with 1 when a run fails, and with 2 when there is no telling what is
asked for. -/
def run (words : List String) : IO UInt32 := do
  match parse words with
  | .error .help => IO.println helpText; return 0
  | .error .version => IO.println versionText; return 0
  | .error .usage => IO.eprintln usageText; return 2
  | .ok i =>
    match ← (execute i (← IO.currentDir).toString).run with
    | .ok () => return 0
    | .error reason => IO.eprintln ("Error: " ++ reason.message); return 1

end DocTree.CommandLine

def main (words : List String) : IO UInt32 := DocTree.CommandLine.run words
