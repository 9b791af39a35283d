import EnvKeeper.Text.Character

/-! References to environment variables: a namespace, and behind it a name by member access, by
index or by call, as in `process.env.PORT`, `env["PORT"]` and `env('PORT')`. -/

namespace EnvKeeper

inductive Namespace where
  | processEnv
  | importMetaEnv
  | env
  deriving DecidableEq, Repr

def Namespace.all : List Namespace := [.processEnv, .importMetaEnv, .env]

def Namespace.text : Namespace → List Char
  | .processEnv => "process.env".toList
  | .importMetaEnv => "import.meta.env".toList
  | .env => "env".toList

inductive Quote where
  | single
  | double
  deriving DecidableEq, Repr

def Quote.char : Quote → Char
  | .single => '\''
  | .double => '"'

def Quote.ofChar? (c : Char) : Option Quote :=
  if c = '\'' then some .single else if c = '"' then some .double else none

/-- How a name stands behind its namespace. The two quotes need not be the same. -/
inductive Access where
  | member
  | index (opening closing : Quote)
  | call (opening closing : Quote)
  deriving DecidableEq, Repr

def Access.text (name : List Char) : Access → List Char
  | .member => '.' :: name
  | .index o c => '[' :: o.char :: name ++ [c.char, ']']
  | .call o c => '(' :: o.char :: name ++ [c.char, ')']

structure Reference where
  space : Namespace
  access : Access
  name : List Char
  deriving DecidableEq, Repr

def Reference.text (r : Reference) : List Char := r.space.text ++ r.access.text r.name

theorem Quote.ofChar?_eq_some {c : Char} {q : Quote} : Quote.ofChar? c = some q ↔ c = q.char := by
  cases q <;> grind [Quote.ofChar?, Quote.char]

end EnvKeeper
