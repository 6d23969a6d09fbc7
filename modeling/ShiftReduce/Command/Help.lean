import ShiftReduce.Text.Words
import ShiftReduce.Command.Invocation

/-!
Help pages: what a command is for, how it is called, and a list of what can follow it, where the
explanations stand in a column of their own.
-/

namespace ShiftReduce

namespace OptionForm

def placeholder (form : OptionForm) : String :=
  if form.value = .none then "" else " <" ++ form.name.toUpper ++ ">"

def synopsis (form : OptionForm) : String := "--" ++ form.name ++ form.placeholder

/-- The letter of the option, or the room for one, in front of its name. -/
def term (form : OptionForm) : String :=
  (match form.letter with
    | some letter => "-" ++ letter.toString ++ ", "
    | none => "    ") ++ form.synopsis

end OptionForm

namespace Topic

def programName : String := "slrkit"

def helpForm : OptionForm := ⟨"help", some 'h', .none, false, "Print help"⟩

def about : Topic → String
  | program => "Build SLR(1) tables and trace parses"
  | verb v => v.about
  | help => "Print this message or the help of the given subcommand(s)"

/-- What follows the name of the program: options that are required are spelled out. -/
def synopsis : Topic → List String
  | program => ["<COMMAND>"]
  | verb v =>
      v.name :: (if v.forms.all OptionForm.required then [] else ["[OPTIONS]"]) ++
        (v.forms.filter OptionForm.required).map OptionForm.synopsis
  | help => ["help", "[COMMAND]..."]

def listed (heading : String) (rows : List (String × String)) : List String :=
  let width := (rows.map fun (term, _) => term.length).foldl max 0
  heading :: rows.map fun (term, text) =>
    "  " ++ term ++ String.ofList (List.replicate (width - term.length) ' ') ++ "  " ++ text

def optionRows (forms : List OptionForm) : List (String × String) :=
  (forms ++ [helpForm]).map fun form => (form.term, form.about)

def verbRows : List (String × String) :=
  Verb.all.map (fun v => (v.name, v.about)) ++ [("help", about help)]

def details : Topic → List String
  | program => listed "Commands:" verbRows ++ [""] ++ listed "Options:" (optionRows [])
  | verb v => listed "Options:" (optionRows v.forms)
  | help => listed "Arguments:" [("[COMMAND]...", "Print help for the subcommand(s)")]

def page (topic : Topic) : String :=
  Text.unlines ([topic.about, "", "Usage: " ++ Text.spaced (programName :: topic.synopsis), ""] ++
    topic.details)

end Topic

end ShiftReduce
