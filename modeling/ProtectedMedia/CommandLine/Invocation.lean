import ProtectedMedia.Binary64.Decimal
import ProtectedMedia.CommandLine.Options

/-!
# Invocations

What a command line asks for: one of three commands, and settings that may stand before or after
its name. Where both places have a setting the one after the name counts.
-/

namespace ProtectedMedia.CommandLine

inductive ColorChoice where
  | auto
  | always
  | never
  deriving DecidableEq

/-- What holds for every command. -/
structure Settings where
  color : ColorChoice
  verbosity : Nat
  quiet : Bool
  deriving DecidableEq

structure DecryptArgs where
  inputs : List String
  keys : List String
  init : Option String
  output : String
  deriving DecidableEq

/-- Shows the encryption of the samples of a segment, `limit` of them at most. -/
structure ProbeArgs where
  input : String
  init : Option String
  limit : Option Nat
  deriving DecidableEq

/-- Checks media types, with or without a session that adds them. -/
structure TypeArgs where
  types : List String
  add : Bool
  duration : Option Binary64
  deriving DecidableEq

inductive Command where
  | decrypt (args : DecryptArgs)
  | probe (args : ProbeArgs)
  | typeSupported (args : TypeArgs)
  deriving DecidableEq

structure Invocation where
  settings : Settings
  command : Command
  deriving DecidableEq

def ColorChoice.ofName? : String → Option ColorChoice
  | "auto" => some .auto
  | "always" => some .always
  | "never" => some .never
  | _ => none

/-- A 64-bit number in decimal, with a plus sign or not. -/
def limit? (text : String) : Option Nat :=
  let digits :=
    match text.toList with
    | '+' :: digits => digits
    | digits => digits
  if digits = [] ∨ !digits.all Char.isDigit then none
  else
    let n := Binary64.ofDigits digits
    if n < UInt64.size then some n else none

def anyText : String → Bool := fun _ => true

/-- A path, which cannot be empty. -/
def isPath (text : String) : Bool := text ≠ ""

def commonOptions : List OptionSpec :=
  [⟨"color", none, .value false fun t => (ColorChoice.ofName? t).isSome⟩,
    ⟨"verbose", some 'v', .count⟩, ⟨"quiet", some 'q', .flag⟩, ⟨"help", some 'h', .stop .help⟩]

def mainGrammar : Grammar :=
  ⟨⟨"version", some 'V', .stop .version⟩ :: commonOptions,
    .command ["decrypt", "probe", "type-supported", "help"]⟩

def decryptGrammar : Grammar :=
  ⟨[⟨"key", some 'k', .value true anyText⟩, ⟨"init", none, .value false isPath⟩,
    ⟨"output", some 'o', .value false isPath⟩] ++ commonOptions,
    .values none isPath⟩

def probeGrammar : Grammar :=
  ⟨[⟨"init", none, .value false isPath⟩,
    ⟨"limit", some 'n', .value false fun t => (limit? t).isSome⟩] ++ commonOptions,
    .values (some 1) isPath⟩

def typeGrammar : Grammar :=
  ⟨[⟨"add", none, .flag⟩,
    ⟨"duration", none, .value false fun t => (Binary64.ofText? t).isSome⟩] ++ commonOptions,
    .values none anyText⟩

/-- Being quiet and being verbose exclude each other. -/
def agrees (g : Given) : Bool := !(g.has "quiet" && g.has "verbose")

/-- The settings given before and after the command name together. -/
def mergeSettings (before after : Given) : Settings where
  color := (((after.value? "color") <|> (before.value? "color")).bind ColorChoice.ofName?).getD .auto
  verbosity :=
    if after.has "verbose" then (after.values "verbose").length
    else (before.values "verbose").length
  quiet := before.has "quiet" || after.has "quiet"

def decryptArgs (g : Given) : Except Stop DecryptArgs :=
  match g.operands, g.values "key", g.value? "output" with
  | input :: inputs, key :: keys, some output =>
    .ok ⟨input :: inputs, key :: keys, g.value? "init", output⟩
  | _, _, _ => .error .usage

def probeArgs (g : Given) : Except Stop ProbeArgs :=
  match g.operands with
  | input :: _ => .ok ⟨input, g.value? "init", (g.value? "limit").bind limit?⟩
  | [] => .error .usage

/-- The arguments of `type-supported`: a duration only makes sense in a session. -/
def typeArgs (g : Given) : Except Stop TypeArgs :=
  if g.operands = [] ∨ (g.has "duration" ∧ !g.has "add") then .error .usage
  else .ok ⟨g.operands, g.has "add", (g.value? "duration").bind Binary64.ofText?⟩

def readCommand {α : Type} (grammar : Grammar) (build : Given → Except Stop α) (args : List String) :
    Except Stop (Given × α) := do
  let (g, _) ← read grammar args .nothing
  if !agrees g then throw .usage
  return (g, ← build g)

/-- Whether names of commands after `help` lead to a text: a command has none below it. -/
def helpTopic : List String → Bool
  | [] => true
  | [name] => ["decrypt", "probe", "type-supported", "help"].contains name
  | _ => false

def Invocation.ofArgs (args : List String) : Except Stop Invocation := do
  let (before, rest) ← read mainGrammar args .nothing
  let (after, command) ←
    match rest with
    | some ("decrypt", args) => do
      let (g, a) ← readCommand decryptGrammar decryptArgs args
      pure (g, Command.decrypt a)
    | some ("probe", args) => do
      let (g, a) ← readCommand probeGrammar probeArgs args
      pure (g, Command.probe a)
    | some ("type-supported", args) => do
      let (g, a) ← readCommand typeGrammar typeArgs args
      pure (g, Command.typeSupported a)
    | some (_, names) => throw (if helpTopic names then .help else .usage)
    | none => throw .usage
  if !agrees before then throw .usage
  return ⟨mergeSettings before after, command⟩

end ProtectedMedia.CommandLine
