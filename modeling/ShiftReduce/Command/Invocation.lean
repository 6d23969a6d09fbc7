/-!
Command lines. A command is a verb with options: `-g file` or `--grammar file` names the grammar,
and each verb has options of its own. A command line is read from the left, so a request for help
counts unless something before it is wrong; what is missing shows only at the end.
-/

namespace ShiftReduce

inductive Command where
  | table (grammar : String) (states sets : Bool)
  | parse (grammar input : String)
  | dot (grammar : String) (output : Option String)
deriving DecidableEq

inductive Verb where
  | table
  | parse
  | dot
deriving DecidableEq

inductive Topic where
  | program
  | verb (v : Verb)
  | help
deriving DecidableEq

inductive Invocation where
  | command (c : Command)
  | help (topic : Topic)
  | misuse
deriving DecidableEq

/-- Flags take no value; paths take one that is not empty. -/
inductive ValueForm where
  | none
  | path
  | text
deriving DecidableEq

structure OptionForm where
  name : String
  letter : Option Char
  value : ValueForm
  required : Bool
  about : String
deriving DecidableEq

namespace Verb

def all : List Verb := [table, parse, dot]

def name : Verb → String
  | table => "table"
  | parse => "parse"
  | dot => "dot"

def ofName? (name : String) : Option Verb := all.find? fun v => v.name == name

theorem ofName?_name (v : Verb) : ofName? v.name = some v := by
  cases v <;> rfl

def about : Verb → String
  | table => "Print the productions and the parse table"
  | parse => "Parse whitespace-separated tokens and print the trace"
  | dot => "Write the LR(0) automaton as Graphviz DOT"

def grammarForm : OptionForm := ⟨"grammar", some 'g', .path, true, "Path to the grammar file"⟩

def forms : Verb → List OptionForm
  | table =>
      [grammarForm,
        ⟨"states", none, .none, false, "Also print the LR(0) item sets"⟩,
        ⟨"sets", none, .none, false, "Also print the FIRST and FOLLOW sets"⟩]
  | parse =>
      [grammarForm, ⟨"input", some 'i', .text, true, "Input tokens, e.g. \"id + id\""⟩]
  | dot =>
      [grammarForm, ⟨"output", some 'o', .path, false, "Output file; stdout if omitted"⟩]

end Verb

namespace Invocation

inductive Token where
  | plain (value : String)
  | separator
  | long (name : String) (value : Option String)
  | short (letter : Char) (rest : List Char)
deriving DecidableEq

def splitEquals (cs : List Char) : String × Option String :=
  match cs.dropWhile (· != '=') with
  | [] => (String.ofList cs, none)
  | _ :: value => (String.ofList (cs.takeWhile (· != '=')), some (String.ofList value))

def Token.ofWord (word : String) : Token :=
  match word.toList with
  | ['-', '-'] => separator
  | '-' :: '-' :: cs => long (splitEquals cs).1 (splitEquals cs).2
  | '-' :: c :: cs => short c cs
  | _ => plain word

/-- Options by long name, with their values; a flag has an empty one. -/
abbrev Given := List (String × String)

/-- An option counts once, and a path is not empty. -/
def give? (given : Given) (form : OptionForm) (value : String) : Option Given :=
  if (given.lookup form.name).isSome || (form.value == .path && value.isEmpty) then none
  else some ((form.name, value) :: given)

inductive Options where
  | given (options : Given)
  | help
  | misuse
deriving DecidableEq

def attached? : List Char → Option String
  | [] => none
  | '=' :: cs => some (String.ofList cs)
  | cs => some (String.ofList cs)

/-- Reads the words after a verb; `pending` is an option that waits for its value. -/
def readOptions (forms : List OptionForm) :
    Given → Option OptionForm → List String → Options
  | given, none, [] => .given given
  | _, some _, [] => .misuse
  | given, some form, word :: words =>
      match Token.ofWord word with
      | .plain value =>
          match give? given form value with
          | some given => readOptions forms given none words
          | none => .misuse
      | _ => .misuse
  | given, none, word :: words =>
      match Token.ofWord word with
      | .plain _ => .misuse
      | .separator => if words.isEmpty then .given given else .misuse
      | .short letter rest =>
          if letter = 'h' then .help
          else
            match forms.find? fun form => form.letter == some letter, attached? rest with
            | none, _ => .misuse
            | some form, none => readOptions forms given (some form) words
            | some form, some value =>
                match give? given form value with
                | some given => readOptions forms given none words
                | none => .misuse
      | .long name value =>
          if name = "help" then if value.isNone then .help else .misuse
          else
            match forms.find? fun form => form.name == name with
            | none => .misuse
            | some form =>
                if form.value = .none then
                  match value, give? given form "" with
                  | none, some given => readOptions forms given none words
                  | _, _ => .misuse
                else
                  match value with
                  | none => readOptions forms given (some form) words
                  | some value =>
                      match give? given form value with
                      | some given => readOptions forms given none words
                      | none => .misuse

def command? (given : Given) : Verb → Option Command
  | .table => do
      return .table (← given.lookup "grammar") (given.lookup "states").isSome
        (given.lookup "sets").isSome
  | .parse => do return .parse (← given.lookup "grammar") (← given.lookup "input")
  | .dot => do return .dot (← given.lookup "grammar") (given.lookup "output")

def ofVerb (verb : Verb) (words : List String) : Invocation :=
  match readOptions verb.forms [] none words with
  | .help => .help (.verb verb)
  | .misuse => .misuse
  | .given given =>
      match command? given verb with
      | some c => .command c
      | none => .misuse

/-- The verb `help` takes the name of at most one verb, its own included. -/
def ofHelp : List String → Invocation
  | [] => .help .program
  | [name] =>
      if name = "help" then .help .help
      else
        match Verb.ofName? name with
        | some verb => .help (.verb verb)
        | none => .misuse
  | _ => .misuse

def ofWords : List String → Invocation
  | [] => .misuse
  | word :: words =>
      match Token.ofWord word with
      | .plain name =>
          if name = "help" then ofHelp words
          else
            match Verb.ofName? name with
            | some verb => ofVerb verb words
            | none => .misuse
      | .long "help" none => .help .program
      | .short 'h' _ => .help .program
      | _ => .misuse

end Invocation

end ShiftReduce
