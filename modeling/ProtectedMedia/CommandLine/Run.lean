import ProtectedMedia.CommandLine.Probe
import ProtectedMedia.CommandLine.TypeSupport

/-!
# Carrying out a command line

A command line is read, carried out on a disk, and answered with an exit code, standard output and
the lines of standard error. The exit code is zero for success, one for failure and two for a
command line that is not well formed.
-/

namespace ProtectedMedia.CommandLine

structure Outcome where
  exitCode : Nat
  output : String
  errorLines : List LogLine
  deriving DecidableEq

def versionText : String := "player 0.1.0\n"

def usageText : String :=
  String.intercalate "\n"
    ["Usage: player [--color auto|always|never] [-v...|-q] COMMAND",
      "",
      "  decrypt INPUT... -k KID:KEY... [--init INIT] -o OUTPUT",
      "      Decrypt segments; the output is the init segment and the decrypted segments.",
      "  probe INPUT [--init INIT] [-n LIMIT]",
      "      Print the encryption of every sample in a segment.",
      "  type-supported TYPE... [--add] [--duration SECONDS]",
      "      Check media types, and with --add add them to a media source.",
      ""]

def Stop.outcome : Stop → Outcome
  | .version => ⟨0, versionText, []⟩
  | .help => ⟨0, usageText, []⟩
  | .usage => ⟨2, "", [⟨usageText, false⟩]⟩

/-- Whether output is coloured. -/
def Settings.isColored (s : Settings) (terminal : Bool) : Bool :=
  match s.color with
  | .always => true
  | .auto => terminal
  | .never => false

def Report.outcome (r : Report) (s : Settings) (color : Bool) : Outcome :=
  ⟨r.exitCode, r.output, r.errorLines s color⟩

/-- Carries out an invocation. `terminal` says whether standard error is one, and `url` is the url
of the media source if one is created. -/
def Invocation.run (i : Invocation) (terminal : Bool) (url : String) (disk : Disk) :
    Outcome × Disk :=
  let color := i.settings.isColored terminal
  match i.command with
  | .decrypt args =>
    let (r, disk) := args.run disk
    (r.outcome i.settings color, disk)
  | .probe args => ((args.run color disk.read).outcome i.settings color, disk)
  | .typeSupported args => ((args.run color url).outcome i.settings color, disk)

def run (args : List String) (terminal : Bool) (url : String) (disk : Disk) : Outcome × Disk :=
  match Invocation.ofArgs args with
  | .error stop => (stop.outcome, disk)
  | .ok i => i.run terminal url disk

end ProtectedMedia.CommandLine
