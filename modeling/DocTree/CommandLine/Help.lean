/-!
What is said of the program itself: its version, how it is called, and what it can be told.
-/

namespace DocTree.CommandLine

/-- The name under which the program is called. -/
def programName : String := "tsz-docs"

/-- The program and its version. -/
def versionText : String := programName ++ " 0.1.0"

/-- How the program is called. -/
def usageText : String := "Usage: " ++ programName ++ " [OPTIONS] <COMMAND>"

/-- The commands and the options that count for all of them. -/
def helpText : String :=
  "\n".intercalate
    ["Revive, merge and re-serialize tsz documentation projects",
      "",
      usageText,
      "",
      "Commands:",
      "  revive  Revive serialized projects and write them back as JSON. Several inputs are merged " ++
        "into one project with a module per input",
      "  check   Revive a serialized project and print reflection counts by kind",
      "  help    Print this message or the help of the given subcommand(s)",
      "",
      "Options:",
      "  -c, --config <CONFIG>             Options file (JSON) supplying defaults for the flags below",
      "      --projectRoot <PROJECT_ROOT>  Directory that serialized file names are relative to",
      "  -h, --help                        Print help",
      "  -V, --version                     Print version"]

end DocTree.CommandLine
