import CipherGraph.Config

/-! # Arguments

A command line names a command and gives its options, each at most once. An option with a long
name takes its value after an equals sign or as the next argument; one with a letter takes it
directly as well. Asking for help anywhere before a fault gives help.
-/

namespace CipherGraph

inductive Command where
  | keygen (graph : String) (scheme : Option SchemeKind) (config : Option String)
      (scaleBits : Option Nat) (outDir : String)
  | encrypt (bundle inputs out : String)
  | execute (bundle inputs out : String)
  | decrypt (bundle outputs : String) (out : Option String)
deriving DecidableEq, Repr

inductive CommandName where
  | keygen
  | encrypt
  | execute
  | decrypt
deriving DecidableEq, Repr

inductive HelpTopic where
  | program
  | command (name : CommandName)
  | help
deriving DecidableEq, Repr

inductive UsageFault where
  | noCommand
  | unknownCommand (name : String)
  | unexpected (argument : String)
  | missingValue (option : String)
  | invalidValue (option value : String)
  | repeated (option : String)
  | missingOption (option : String)
deriving DecidableEq, Repr

inductive Request where
  | run (command : Command)
  | help (topic : HelpTopic)
  | refused (fault : UsageFault)
deriving DecidableEq, Repr

structure CommandOption where
  long : String
  letter : Option Char
  accepts : String → Bool

/-- Reading options ends early. -/
inductive Stop where
  | help
  | refused (fault : UsageFault)

namespace CommandName

def all : List CommandName := [.keygen, .encrypt, .execute, .decrypt]

def text : CommandName → String
  | .keygen => "keygen"
  | .encrypt => "encrypt"
  | .execute => "execute"
  | .decrypt => "decrypt"

def ofText? (s : String) : Option CommandName := all.find? (·.text = s)

def scaleBits? (s : String) : Option Nat :=
  match s.toList with
  | '-' :: ds => SchemeConfig.digitsBelow? 1 ds
  | cs => SchemeConfig.naturalBelow? UInt32.size cs

def path (long : String) (letter : Option Char) : CommandOption := ⟨long, letter, fun s => s ≠ ""⟩

def options : CommandName → List CommandOption
  | .keygen =>
    [path "graph" 'g', ⟨"scheme", 's', fun s => (SchemeKind.ofName? s).isSome⟩, path "config" 'c',
      ⟨"scale-bits", none, fun s => (scaleBits? s).isSome⟩, path "out-dir" 'o']
  | .encrypt | .execute => [path "bundle" 'b', path "inputs" 'i', path "out" 'o']
  | .decrypt => [path "bundle" 'b', path "outputs" 'o', path "out" none]

end CommandName

namespace Arguments

/-- The values given so far, by the long names of their options. -/
abbrev Given := List (String × String)

def give (o : CommandOption) (value : String) (given : Given) : Except Stop Given :=
  if !o.accepts value then .error (.refused (.invalidValue o.long value))
  else if given.any (·.1 = o.long) then .error (.refused (.repeated o.long))
  else .ok ((o.long, value) :: given)

/-- A lone hyphen is a value, anything else after a hyphen is none. -/
def isValue (s : String) : Bool := s = "-" || !s.startsWith "-"

inductive Meaning where
  | value (option : CommandOption) (value : String)
  | pending (option : CommandOption)
  | help
  | ending
  | unexpected

/-- A long name, perhaps with its value after an equals sign. -/
def meaningOfLong (options : List CommandOption) (cs : List Char) : Meaning :=
  let name := String.ofList (cs.takeWhile (· ≠ '='))
  match options.find? (·.long = name), cs.dropWhile (· ≠ '=') with
  | some o, _ :: value => .value o (String.ofList value)
  | some o, [] => .pending o
  | none, [] => if name = "help" then .help else .unexpected
  | none, _ => .unexpected

/-- A letter, perhaps with its value right behind it. -/
def meaningOfLetter (options : List CommandOption) (c : Char) (rest : List Char) : Meaning :=
  if c = 'h' then .help
  else
    match options.find? (·.letter = some c), rest with
    | some o, [] => .pending o
    | some o, '=' :: value => .value o (String.ofList value)
    | some o, value => .value o (String.ofList value)
    | none, _ => .unexpected

def meaning (options : List CommandOption) (argument : String) : Meaning :=
  match argument.toList with
  | ['-', '-'] => .ending
  | '-' :: '-' :: cs => meaningOfLong options cs
  | '-' :: c :: rest => meaningOfLetter options c rest
  | _ => .unexpected

def read (options : List CommandOption) : List String → Given → Except Stop Given
  | [], given => .ok given
  | argument :: rest, given =>
    match meaning options argument with
    | .help => .error .help
    | .unexpected => .error (.refused (.unexpected argument))
    | .ending =>
      match rest with
      | [] => .ok given
      | next :: _ => .error (.refused (.unexpected next))
    | .value o value => do read options rest (← give o value given)
    | .pending o =>
      match rest with
      | [] => .error (.refused (.missingValue o.long))
      | value :: rest => do
        if !isValue value then throw (.refused (.missingValue o.long))
        read options rest (← give o value given)
termination_by arguments => arguments.length

def value? (given : Given) (long : String) : Option String :=
  (given.find? (·.1 = long)).map (·.2)

def required (given : Given) (long : String) : Except Stop String :=
  match value? given long with
  | some value => .ok value
  | none => .error (.refused (.missingOption long))

def command (given : Given) : CommandName → Except Stop Command
  | .keygen => do
    return .keygen (← required given "graph") ((value? given "scheme").bind SchemeKind.ofName?)
      (value? given "config") ((value? given "scale-bits").bind CommandName.scaleBits?)
      ((value? given "out-dir").getD ".")
  | .encrypt => do
    return .encrypt (← required given "bundle") (← required given "inputs") (← required given "out")
  | .execute => do
    return .execute (← required given "bundle") (← required given "inputs") (← required given "out")
  | .decrypt => do
    return .decrypt (← required given "bundle") (← required given "outputs") (value? given "out")

def helpOn : List String → Request
  | [] => .help .program
  | ["help"] => .help .help
  | name :: rest =>
    match CommandName.ofText? name, rest with
    | some name, [] => .help (.command name)
    | some _, next :: _ => .refused (.unknownCommand next)
    | none, _ => .refused (.unknownCommand name)

def request : List String → Request
  | [] => .refused .noCommand
  | argument :: rest =>
    match meaning [] argument with
    | .help => .help .program
    | .ending => .refused .noCommand
    | _ =>
      if argument = "help" then helpOn rest
      else
        match CommandName.ofText? argument with
        | none => .refused (.unknownCommand argument)
        | some name =>
          match (read name.options rest []).bind (command · name) with
          | .ok command => .run command
          | .error .help => .help (.command name)
          | .error (.refused fault) => .refused fault

end Arguments

end CipherGraph
