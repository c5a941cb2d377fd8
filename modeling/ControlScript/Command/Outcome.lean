import ControlScript.Command.Arguments

/-!
# Outcomes

What a run of the program leaves: an exit code and two texts.
-/

namespace ControlScript.Command

/-- The exit code of a run and what it writes. -/
structure Outcome where
  exitCode : Nat
  output : String := ""
  errors : String := ""
deriving DecidableEq

/-- The line that tells the version of the program. -/
def versionLine : String := "ctlfile 0.1.0\n"

/-- The text that tells how the program is used. -/
def usageText : String :=
  "Parse and check control files against a method/variable registry\n\n" ++
  "Usage: ctlfile <check|print|dump> [OPTIONS] --registry <JSON> <FILE>\n\n" ++
  "Options:\n" ++
  "  -r, --registry <JSON>    manifest of methods and variables\n" ++
  "  -I, --include-dir <DIR>  directory to search for included files\n" ++
  "      --entry <NAME>       outermost method [default: Arts]\n" ++
  "      --max-depth <N>      greatest nesting depth [default: 64]\n" ++
  "      --indent <N>         print: blanks per level [default: 2]\n" ++
  "      --check              print: only compare with the canonical form\n" ++
  "      --compact            dump: everything on one line\n" ++
  "  -h, --help               show this text\n" ++
  "  -V, --version            show the version\n"

/-- A text without the line feeds at its end. -/
def trimEnd (text : String) : String :=
  .ofList (text.toList.reverse.dropWhile (· = '\n')).reverse

/-- The outcome of a command line that asks for no command. -/
def Stop.outcome : Stop → Outcome
  | usage => { exitCode := 2, errors := usageText }
  | help => { exitCode := 0, output := usageText }
  | version => { exitCode := 0, output := versionLine }

/-- The outcome of a command. -/
def outcome : Except Failure Report → Outcome
  | .ok (.line text) => { exitCode := 0, output := text ++ "\n" }
  | .ok (.whole text) => { exitCode := 0, output := text }
  | .ok .silent => { exitCode := 0 }
  | .error failure =>
      let message := failure.message
      { exitCode := 1, errors := if message.isEmpty then "" else trimEnd message ++ "\n" }

end ControlScript.Command
