import ProtectedMedia.CommandLine.Invocation
import ProtectedMedia.Error

/-!
# Reports

What a command has to show: lines for standard output, notices for the log, and how it ended. A
command that fails says why in a chain of contexts, the widest first. Standard error takes the log
and the failure; how much of the log is shown, and in what form, is a matter of the settings.
-/

namespace ProtectedMedia.CommandLine

inductive Ending where
  | success
  | failure (contexts : List String)
  deriving DecidableEq

structure Report where
  lines : List String
  notices : List Notice
  ending : Ending
  deriving DecidableEq

/-- Text with a display code, if attributes are wanted. -/
def paint (color : Bool) (code text : String) : String :=
  if color then "\x1b[" ++ code ++ "m" ++ text ++ "\x1b[0m" else text

def bold : String := "1"
def dimmed : String := "2"
def red : String := "31"
def green : String := "32"
def cyan : String := "36"

/-- A text filled up with blanks on the left. -/
def padLeft (width : Nat) (text : String) : String :=
  String.ofList (List.replicate (width - text.length) ' ') ++ text

/-- A text filled up with blanks on the right. -/
def padRight (width : Nat) (text : String) : String :=
  text ++ String.ofList (List.replicate (width - text.length) ' ')

/-- A line of standard error. A detailed line belongs to a log for which more was asked. -/
structure LogLine where
  text : String
  detailed : Bool
  deriving DecidableEq

/-- The label of a log line and its display code. -/
def label : Level → String × String
  | .error => ("[ERROR]", "1;31")
  | .warning => ("[WARN]", "1;33")
  | .info => ("[INFO]", "1;32")

def isShown (s : Settings) (n : Notice) : Bool := !s.quiet || n.level = .error

/-- A notice as a line. Information goes without a label unless more was asked for. -/
def logLine (s : Settings) (color : Bool) (n : Notice) : LogLine :=
  let (name, code) := label n.level
  let labelled := paint color code name ++ " " ++ n.text
  if !s.quiet ∧ 0 < s.verbosity then ⟨labelled, true⟩
  else if n.level = .info then ⟨n.text, false⟩
  else ⟨labelled, false⟩

def failureLine (color : Bool) (contexts : List String) : LogLine :=
  ⟨paint color "1;31" "error" ++ ": " ++ String.intercalate ": " contexts, false⟩

namespace Report

def output (r : Report) : String := String.join (r.lines.map (· ++ "\n"))

def errorLines (r : Report) (s : Settings) (color : Bool) : List LogLine :=
  let log := (r.notices.filter (isShown s)).map (logLine s color)
  match r.ending with
  | .success => log
  | .failure contexts => log ++ [failureLine color contexts]

def exitCode (r : Report) : Nat :=
  match r.ending with
  | .success => 0
  | .failure _ => 1

end Report

/-- What is logged with an error, and the failure it means inside a context. -/
def failed (context : List String) (e : Error) : List Notice × Ending :=
  (e.notice?.toList, .failure (context ++ e.chain))

end ProtectedMedia.CommandLine
