/-!
# Options

The grammar of command line arguments. An option has a long name after two hyphens and may have a
letter after one; letters may stand together. A value follows an equals sign, or directly after a
letter, or as the next argument, which must not look like an option itself. After a bare pair of
hyphens nothing is an option any more.

Arguments are taken from left to right, and what is wrong with one of them counts before anything
that comes later, a call for help included.
-/

namespace ProtectedMedia.CommandLine

inductive Stop where
  /-- It is not well formed. -/
  | usage
  | help
  | version
  deriving DecidableEq

inductive OptionKind where
  /-- Nothing; it may be given once. -/
  | flag
  /-- Nothing; it counts how often it is given. -/
  | count
  /-- A value that has to satisfy a condition; given once or `many` times. -/
  | value (many : Bool) (accepts : String → Bool)
  /-- Nothing; ends everything else. -/
  | stop (reason : Stop)

structure OptionSpec where
  long : String
  short : Option Char
  kind : OptionKind

inductive Operands where
  /-- The name of a command, after which other rules hold. -/
  | command (names : List String)
  /-- Values that have to satisfy a condition, at least one of them and at most `most`. -/
  | values (most : Option Nat) (accepts : String → Bool)

structure Grammar where
  options : List OptionSpec
  operands : Operands

/-- What has been given: options by their long names, with values, and operands, in order. -/
structure Given where
  options : List (String × String)
  operands : List String

namespace Given

def nothing : Given := ⟨[], []⟩

/-- The values of an option, one for each time that it is given. -/
def values (g : Given) (long : String) : List String :=
  (g.options.filter fun o => o.1 = long).map (·.2)

def has (g : Given) (long : String) : Bool := !(g.values long).isEmpty

/-- The value of an option that is given once at most. -/
def value? (g : Given) (long : String) : Option String := (g.values long).head?

def addOption (g : Given) (long value : String) : Given :=
  { g with options := g.options ++ [(long, value)] }

def addOperand (g : Given) (value : String) : Given :=
  { g with operands := g.operands ++ [value] }

end Given

/-- Whether an argument can only be an operand or a value: it has no hyphen in front, or is one. -/
def isPlain (arg : String) : Bool := !arg.startsWith "-" || arg = "-"

/-- Takes an option with the value that is attached to it, if any, or the next argument as its
value. The flag of the result tells whether the next argument was used up. -/
def takeOption (o : OptionSpec) (attached : Option String) (next : Option String) (g : Given) :
    Except Stop (Given × Bool) :=
  match o.kind with
  | .stop reason => if attached.isSome then .error .usage else .error reason
  | .flag => if attached.isSome || g.has o.long then .error .usage else .ok (g.addOption o.long "", false)
  | .count => if attached.isSome then .error .usage else .ok (g.addOption o.long "", false)
  | .value many accepts =>
    let accept (v : String) (used : Bool) : Except Stop (Given × Bool) :=
      if !accepts v || (!many && g.has o.long) then .error .usage
      else .ok (g.addOption o.long v, used)
    match attached, next with
    | some v, _ => accept v false
    | none, some v => if isPlain v then accept v true else .error .usage
    | none, none => .error .usage

/-- Takes an argument of letters. The first letter whose option takes a value has the rest of the
argument for it, with or without an equals sign. -/
def takeLetters (grammar : Grammar) (next : Option String) :
    List Char → Given → Except Stop (Given × Bool)
  | [], g => .ok (g, false)
  | c :: rest, g =>
    match grammar.options.find? fun o => o.short = some c with
    | none => .error .usage
    | some o =>
      match o.kind with
      | .value .. =>
        let attached :=
          match rest with
          | [] => none
          | '=' :: v => some (String.ofList v)
          | v => some (String.ofList v)
        takeOption o attached next g
      | _ =>
        match takeOption o none next g with
        | .error e => .error e
        | .ok (g, _) => takeLetters grammar next rest g

/-- Takes an argument that is a long option, given without its hyphens. -/
def takeLong (grammar : Grammar) (next : Option String) (text : List Char) (g : Given) :
    Except Stop (Given × Bool) :=
  let name := String.ofList (text.takeWhile (· ≠ '='))
  let attached :=
    match text.dropWhile (· ≠ '=') with
    | [] => none
    | _ :: v => some (String.ofList v)
  match grammar.options.find? fun o => o.long = name with
  | none => .error .usage
  | some o => takeOption o attached next g

def takeOperand (grammar : Grammar) (arg : String) (g : Given) : Except Stop Given :=
  match grammar.operands with
  | .command _ => .error .usage
  | .values most accepts =>
    if most.any (· ≤ g.operands.length) || !accepts arg then .error .usage
    else .ok (g.addOperand arg)

def isCommand (grammar : Grammar) (arg : String) : Bool :=
  match grammar.operands with
  | .command names => names.contains arg
  | .values .. => false

/-- Reads arguments. Ends at the name of a command, which is returned with what follows it. -/
def read (grammar : Grammar) (args : List String) (g : Given) :
    Except Stop (Given × Option (String × List String)) :=
  match args with
  | [] => .ok (g, none)
  | arg :: rest =>
    if isCommand grammar arg then .ok (g, some (arg, rest))
    else
      match arg.toList with
      | ['-', '-'] => (rest.foldlM (fun g arg => takeOperand grammar arg g) g).map (·, none)
      | '-' :: '-' :: text =>
        match takeLong grammar rest.head? text g with
        | .error e => .error e
        | .ok (g, used) => read grammar (rest.drop (if used then 1 else 0)) g
      | '-' :: c :: letters =>
        match takeLetters grammar rest.head? (c :: letters) g with
        | .error e => .error e
        | .ok (g, used) => read grammar (rest.drop (if used then 1 else 0)) g
      | _ =>
        match takeOperand grammar arg g with
        | .error e => .error e
        | .ok g => read grammar rest g
termination_by args.length
decreasing_by all_goals simp; try omega

end ProtectedMedia.CommandLine
