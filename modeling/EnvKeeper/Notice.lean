/-! What a run notes beside its result: each notice with its level, the part of the program that it
comes from, and its wording. -/

namespace EnvKeeper

inductive Level where
  | debug
  | info
  | warning
  deriving DecidableEq, Repr

def Level.name : Level → String
  | .debug => "DEBUG"
  | .info => "INFO"
  | .warning => "WARNING"

inductive Notice where
  | malformed (line : Nat)
  | storeMissing (store : String)
  | storeUnreadable (store reason : String)
  | storeNotCreated (store reason : String)
  | storeNotUpdated (store reason : String)
  | entriesLoaded (count : Nat) (store : String)
  | nothingToAdd (store : String)
  | namesAdded (count : Nat) (store : String)
  | filesFound (count : Nat) (root : String)
  | fileSkipped (file reason : String)
  | namesFound (file : String) (names : List String)
  deriving DecidableEq, Repr

namespace Notice

def level : Notice → Level
  | .malformed .. | .storeUnreadable .. | .storeNotCreated .. | .storeNotUpdated ..
  | .fileSkipped .. => .warning
  | .storeMissing .. | .nothingToAdd .. | .namesAdded .. | .filesFound .. => .info
  | .entriesLoaded .. | .namesFound .. => .debug

def channel : Notice → String
  | .malformed .. => "dotenv.main"
  | .storeMissing .. | .storeUnreadable .. | .storeNotUpdated .. | .nothingToAdd ..
  | .namesAdded .. => "env_scan.env_file"
  | .filesFound .. | .fileSkipped .. | .namesFound .. => "env_scan.scanner"
  | .storeNotCreated .. | .entriesLoaded .. => "env_scan.sync"

def message : Notice → String
  | .malformed line =>
    "python-dotenv could not parse statement starting at line " ++ Nat.repr line
  | .storeMissing s => s ++ " not found, creating it"
  | .storeUnreadable s r => "Could not read " ++ s ++ ", treating it as empty: " ++ r
  | .storeNotCreated s r => "Could not create " ++ s ++ ": " ++ r
  | .storeNotUpdated s r => "Could not update " ++ s ++ ": " ++ r
  | .entriesLoaded n s => "Loaded " ++ Nat.repr n ++ " existing variables from " ++ s
  | .nothingToAdd s => "No new environment variables to add to " ++ s
  | .namesAdded n s => "Added " ++ Nat.repr n ++ " new environment variables to " ++ s
  | .filesFound n root => "Found " ++ Nat.repr n ++ " files to scan in " ++ root
  | .fileSkipped f r => "Skipping unreadable file " ++ f ++ ": " ++ r
  | .namesFound f names => f ++ ": " ++ ", ".intercalate names

def line (n : Notice) : String := n.level.name ++ " " ++ n.channel ++ ": " ++ n.message

end Notice
end EnvKeeper
