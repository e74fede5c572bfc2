import Treewalk.CommandLine.Invocation

namespace Treewalk

structure HelpSection where
  title : String
  rows : List (String × String)

structure HelpPage where
  summary : String
  usage : String
  sections : List HelpSection

namespace HelpSection

def width (s : HelpSection) : Nat := s.rows.foldl (fun w (entry, _) => max w entry.length) 0

/-- Explanations start in one column, two blanks behind the longest entry. -/
def row (width : Nat) (entry explanation : String) : String :=
  "  " ++ entry ++ "".pushn ' ' (width - entry.length) ++ "  " ++ explanation ++ "\n"

def render (s : HelpSection) : String :=
  s.title ++ ":\n" ++ String.join (s.rows.map fun (entry, explanation) => row s.width entry explanation)

end HelpSection

def HelpPage.usageLine (page : HelpPage) : String := "Usage: " ++ page.usage ++ "\n"

def HelpPage.render (page : HelpPage) : String :=
  page.summary ++ "\n\n" ++ page.usageLine ++ String.join (page.sections.map fun s => "\n" ++ s.render)

namespace Verb

def all : List Verb := [tokenize, parse, evaluate, run, repl]

theorem mem_all (verb : Verb) : verb ∈ all := by cases verb <;> decide

def summary : Verb → String
  | tokenize => "Tokenizes input from a file, printing each token"
  | parse => "Parses input from a file as a program and prints its AST"
  | evaluate => "Evaluates input from a file as a single expression and prints the result"
  | run => "Runs input from a file as a program"
  | repl => "Starts an interactive session; declarations persist between lines"

end Verb

namespace Topic

def helpSummary : String := "Print this message or the help of the given subcommand(s)"

def logOption : String × String := ("    --log", "Enable logging to app.log")

def jsonOption : String × String :=
  ("    --json", "Print the token list as JSON instead of one token per line")

def helpOption : String × String := ("-h, --help", "Print help")

def versionOption : String × String := ("-V, --version", "Print version")

def programPage : HelpPage where
  summary := "Rox language interpreter"
  usage := "rox [OPTIONS] <COMMAND>"
  sections :=
    [⟨"Commands", (Verb.all.map fun verb => (verb.name, verb.summary)) ++ [("help", helpSummary)]⟩,
     ⟨"Options", [logOption, helpOption, versionOption]⟩]

def verbOptions : Verb → List (String × String)
  | .tokenize => [jsonOption, logOption, helpOption]
  | _ => [logOption, helpOption]

def verbPage (verb : Verb) : HelpPage where
  summary := verb.summary
  usage := "rox " ++ verb.name ++ " [OPTIONS]" ++ if verb.takesFile then " <FILENAME>" else ""
  sections :=
    (if verb.takesFile then [⟨"Arguments", [("<FILENAME>", "")]⟩] else []) ++
      [⟨"Options", verbOptions verb⟩]

def helpPage : HelpPage where
  summary := helpSummary
  usage := "rox help [COMMAND]..."
  sections := [⟨"Arguments", [("[COMMAND]...", "Print help for the subcommand(s)")]⟩]

def page : Topic → HelpPage
  | program => programPage
  | verb v => verbPage v
  | help => helpPage

end Topic

end Treewalk
