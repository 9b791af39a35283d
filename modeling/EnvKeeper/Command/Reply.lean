import EnvKeeper.Command.Perform

/-! The reply to a command line: the two outputs, and how the command ended. -/

namespace EnvKeeper.Command

/-- The length of a colour code behind its escape character. -/
def codeLength? : List Char → Option Nat
  | '[' :: s =>
    let n := (s.takeWhile fun c => c == ';' || c == '?' || c.isDigit).length
    match s.drop n with
    | c :: _ => if c.isAlpha then some (n + 2) else none
    | [] => none
  | _ => none

/-- Takes out colour codes. The first `skip` characters belong to one. -/
def dropCodes (skip : Nat) : List Char → List Char
  | [] => []
  | c :: s =>
    match skip with
    | k + 1 => dropCodes k s
    | 0 =>
      match if c = '\x1b' then codeLength? s else none with
      | some n => dropCodes n s
      | none => c :: dropCodes 0 s

def printed (s : String) : String := String.ofList (dropCodes 0 s.toList) ++ "\n"

def isShown (verbose : Bool) (n : Notice) : Bool := verbose || n.level == .warning

def outputOf (journal : List Event) : String :=
  String.join <| journal.map fun
    | .line s => printed s
    | _ => ""

def errorsOf (verbose : Bool) (journal : List Event) : String :=
  String.join <| journal.map fun
    | .warning s => printed s
    | .notice n => if isShown verbose n then n.line ++ "\n" else ""
    | .line _ => ""

/-- Why a command ended early. -/
inductive Trouble where
  | rejected (r : Rejection)
  | failed (f : Failure)
  deriving DecidableEq, Repr

def Trouble.message : Trouble → String
  | .rejected r => r.message
  | .failed f => f.message

structure Reply where
  output : String
  errors : String
  ending : Except Trouble Ending

def Reply.exitCode (r : Reply) : Nat :=
  match r.ending with
  | .ok .done => 0
  | .ok .incomplete => 1
  | .error (.rejected _) => 2
  | .error (.failed _) => 1

/-- Carries out the command line `args`. `preset` is the value of `ENV_SCAN_ENV_FILE`, if set. -/
def execute (args : List String) (preset : Option String) (d : Disk) : Reply × Disk :=
  match Request.read args with
  | .error m => (⟨"", "", .error (.rejected m)⟩, d)
  | .ok r =>
    let (ending, desk) := (r.perform preset).on d
    (⟨outputOf desk.journal, errorsOf r.verbose desk.journal, ending.mapError .failed⟩, desk.disk)

end EnvKeeper.Command
