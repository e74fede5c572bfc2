namespace Treewalk

inductive Command
  | tokenize (file : String) (json : Bool)
  | parse (file : String)
  | evaluate (file : String)
  | run (file : String)
  | repl
  deriving DecidableEq

def Command.file? : Command → Option String
  | tokenize file _ | parse file | evaluate file | run file => some file
  | repl => none

inductive Verb
  | tokenize | parse | evaluate | run | repl
  deriving DecidableEq

namespace Verb

def ofName? : String → Option Verb
  | "tokenize" => some tokenize
  | "parse" => some parse
  | "evaluate" => some evaluate
  | "run" => some run
  | "repl" => some repl
  | _ => none

def name : Verb → String
  | tokenize => "tokenize"
  | parse => "parse"
  | evaluate => "evaluate"
  | run => "run"
  | repl => "repl"

theorem ofName?_name (verb : Verb) : ofName? verb.name = some verb := by cases verb <;> rfl

def takesFile (verb : Verb) : Bool := verb ≠ repl

def command? (json : Bool) : Verb → Option String → Option Command
  | tokenize, some file => some (.tokenize file json)
  | parse, some file => some (.parse file)
  | evaluate, some file => some (.evaluate file)
  | run, some file => some (.run file)
  | repl, none => some .repl
  | _, _ => none

end Verb

inductive Topic
  | program
  | verb (verb : Verb)
  | help
  deriving DecidableEq

inductive Request
  | invoke (command : Command) (log : Bool)
  | version
  | help (topic : Topic)
  | misuse
  deriving DecidableEq

structure Tail where
  log : Bool
  json : Bool
  file : Option String

namespace Request

def isShort (letter : Char) (arg : String) : Bool := ['-', letter].isPrefixOf arg.toList

def isHelp (arg : String) : Bool := arg = "--help" || isShort 'h' arg

def isVersion (arg : String) : Bool := arg = "--version" || isShort 'V' arg

def isOption (arg : String) : Bool := ['-'].isPrefixOf arg.toList && arg ≠ "-"

def addFile (verb : Verb) (tail : Tail) (arg : String) : Option Tail :=
  if verb.takesFile && tail.file.isNone && arg ≠ "" then some { tail with file := some arg } else none

def ofNames (verb : Verb) (tail : Tail) : List String → Option Tail
  | [] => some tail
  | arg :: args => do ofNames verb (← addFile verb tail arg) args

def finish (verb : Verb) (log : Bool) (tail : Tail) : Request :=
  match verb.command? tail.json tail.file with
  | some command => .invoke command (log || tail.log)
  | none => .misuse

/-- The arguments behind a verb, up to the first that settles the request; after two dashes they are
all names. -/
def behind (verb : Verb) (log : Bool) (tail : Tail) : List String → Request
  | [] => finish verb log tail
  | arg :: args =>
    if arg = "--" then
      match ofNames verb tail args with
      | some tail => finish verb log tail
      | none => .misuse
    else if arg = "--log" && !tail.log then behind verb log { tail with log := true } args
    else if arg = "--json" && verb = .tokenize && !tail.json then
      behind verb log { tail with json := true } args
    else if isHelp arg then .help (.verb verb)
    else if isOption arg then .misuse
    else
      match addFile verb tail arg with
      | some tail => behind verb log tail args
      | none => .misuse

def helpOn : List String → Request
  | [] => .help .program
  | ["help"] => .help .help
  | [arg] =>
    match Verb.ofName? arg with
    | some verb => .help (.verb verb)
    | none => .misuse
  | _ => .misuse

/-- The arguments from the start; `log` tells whether the log was asked for already. -/
def before (log : Bool) : List String → Request
  | [] => .misuse
  | arg :: args =>
    if arg = "--log" && !log then before true args
    else if isVersion arg then .version
    else if isHelp arg then .help .program
    else if arg = "help" then helpOn args
    else
      match Verb.ofName? arg with
      | some verb => behind verb log ⟨false, false, none⟩ args
      | none => .misuse

def ofArguments (args : List String) : Request := before false args

end Request

end Treewalk
