import EnvKeeper.Text.Character
import EnvKeeper.Text.Likeness
import EnvKeeper.Text.Split

/-! What can be wrong with a command line, and the wording of each. A message may end in a guess at
the command or the options that were meant. -/

namespace EnvKeeper.Command

/-- An unknown option comes with the options that are like it. -/
inductive Misuse where
  | noSuchOption (name : String) (alike : List String)
  | valueMissing (name : String)
  | valueUnwanted (name : String)
  | noSuchCommand (name : String)
  | extraArguments (args : List String)
  | unknownFormat (name : String)
  | nulInPath (option : String)
  deriving DecidableEq, Repr

namespace Misuse

def text : Misuse → String
  | .noSuchOption n _ => "No such option: " ++ legible n
  | .valueMissing n => "Option '" ++ n ++ "' requires an argument."
  | .valueUnwanted n => "Option '" ++ n ++ "' does not take a value."
  | .noSuchCommand n => "No such command " ++ quoted n ++ "."
  | .extraArguments l =>
    "Got unexpected extra argument(s) (" ++ legible (" ".intercalate l) ++ ")"
  | .unknownFormat n =>
    "Invalid value: Unknown format '" ++ n ++ "'; choose from text, json, yaml"
  | .nulInPath o => "Invalid value for '" ++ o ++ "': Value error, embedded null byte"

def alike : Misuse → List String
  | .noSuchOption _ l => l
  | _ => []

end Misuse

/-- A command line that is not carried out, with the commands that may have been meant. -/
structure Rejection where
  misuse : Misuse
  meant : List String := []
  deriving DecidableEq, Repr

namespace Rejection

def text (r : Rejection) : String :=
  if r.meant.isEmpty then r.misuse.text
  else
    String.ofList (dropEnd (· == '.') r.misuse.text.toList) ++ ". Did you mean "
      ++ ", ".intercalate (r.meant.map quoted) ++ "?"

def message (r : Rejection) : String :=
  match r.misuse.alike with
  | [] => r.text
  | l => r.text ++ " (Possible options: " ++ ", ".intercalate (l.mergeSort (· ≤ ·)) ++ ")"

end Rejection
end EnvKeeper.Command
