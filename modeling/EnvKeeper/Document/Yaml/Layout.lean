import EnvKeeper.Document.Yaml.Scalar
import EnvKeeper.Report
import EnvKeeper.Text.Character

/-! Documents as YAML in block style, laid out as by the safe dumper of PyYAML 6.0.3 with keys in the
order of the document. A list in a table is not indented under its key. A key that is empty, long or of
several lines is marked by `?`. -/

namespace EnvKeeper.Yaml

def longKey : Nat := 123

def isSimpleKey (k : List Char) : Bool :=
  !k.isEmpty && !k.any isBreak && decide (k.length < longKey)

/-- Joins items that start at column `n`, the first one being there already. -/
def rows (n : Nat) (items : List (List Char)) : List Char :=
  ('\n' :: spaces n).intercalate items

def text (n col : Nat) (s : String) : List Char := scalar ⟨n + 2, true⟩ col s.toList

def simpleKey (n : Nat) (k : String) : List Char := scalar ⟨n, false⟩ n k.toList ++ [':']

mutual

/-- What stands behind a mark of two columns at `n`. -/
def marked (n : Nat) : Document → List Char
  | .text s => text n (n + 2) s
  | .number k => (Nat.repr k).toList
  | .list [] => ['[', ']']
  | .list l => rows (n + 2) (items (n + 2) l)
  | .table [] => ['\x7b', '\x7d']
  | .table f => rows (n + 2) (fields (n + 2) f)

def items (n : Nat) : List Document → List (List Char)
  | [] => []
  | d :: l => ('-' :: ' ' :: marked n d) :: items n l

/-- What stands behind a simple key of a table at `n`, from column `col`. -/
def behindKey (n col : Nat) : Document → List Char
  | .text s => ' ' :: text n (col + 1) s
  | .number k => ' ' :: (Nat.repr k).toList
  | .list [] => [' ', '[', ']']
  | .list l => '\n' :: spaces n ++ rows n (items n l)
  | .table [] => [' ', '\x7b', '\x7d']
  | .table f => '\n' :: spaces (n + 2) ++ rows (n + 2) (fields (n + 2) f)

def fields (n : Nat) : List (String × Document) → List (List Char)
  | [] => []
  | (k, d) :: f =>
    (if isSimpleKey k.toList then
      simpleKey n k ++ behindKey n (n + (simpleKey n k).length) d
    else
      '?' :: ' ' :: text n (n + 2) k ++ '\n' :: spaces n ++ ':' :: ' ' :: marked n d) :: fields n f

end

def document : Document → List Char
  | .text s => text 0 0 s ++ ['\n']
  | .number k => (Nat.repr k).toList ++ ['\n']
  | .list l => (if l.isEmpty then ['[', ']'] else rows 0 (items 0 l)) ++ ['\n']
  | .table f => (if f.isEmpty then ['\x7b', '\x7d'] else rows 0 (fields 0 f)) ++ ['\n']

end EnvKeeper.Yaml

namespace EnvKeeper

/-- The YAML of a document without the white space at its end. -/
def Document.yaml (d : Document) : String := String.ofList (dropEnd isBlank (Yaml.document d))

end EnvKeeper
