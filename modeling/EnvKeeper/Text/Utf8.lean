import EnvKeeper.Text.Character

/-! Bytes read as UTF-8. A reading goes byte by byte; between two characters nothing is pending,
and inside one the bytes still owed are counted, with the range that the next one must lie in.
So overlong forms, surrogates and values above U+10FFFF are refused at the second byte. -/

namespace EnvKeeper.Utf8

inductive Cause where
  | badStart
  | badContinuation
  | cutShort
  deriving DecidableEq, Repr

def Cause.text : Cause → String
  | .badStart => "invalid start byte"
  | .badContinuation => "invalid continuation byte"
  | .cutShort => "unexpected end of data"

/-- The first bytes that are no character: `width` of them from `start`, the first being `byte`. -/
structure Fault where
  start : Nat
  width : Nat
  byte : UInt8
  cause : Cause
  deriving DecidableEq, Repr

def Fault.message (f : Fault) : String :=
  let place :=
    if f.width = 1 then
      "byte 0x" ++ String.ofList (hex 2 f.byte.toNat) ++ " in position " ++ Nat.repr f.start
    else
      "bytes in position " ++ Nat.repr f.start ++ "-" ++ Nat.repr (f.start + f.width - 1)
  "'utf-8' codec can't decode " ++ place ++ ": " ++ f.cause.text

/-- A character of which `seen` bytes were read and `owed` are to come, the next one between `low`
and `high`. -/
structure Pending where
  first : UInt8
  seen : Nat
  owed : Nat
  low : UInt8
  high : UInt8
  code : Nat
  deriving DecidableEq, Repr

/-- What a first byte promises; `none` if it starts nothing of more than one byte. -/
def Pending.ofFirst (b : UInt8) : Option Pending :=
  if b < 0xC2 then none
  else if b < 0xE0 then some ⟨b, 1, 1, 0x80, 0xBF, b.toNat - 0xC0⟩
  else if b < 0xF0 then
    some ⟨b, 1, 2, if b = 0xE0 then 0xA0 else 0x80, if b = 0xED then 0x9F else 0xBF, b.toNat - 0xE0⟩
  else if b < 0xF5 then
    some ⟨b, 1, 3, if b = 0xF0 then 0x90 else 0x80, if b = 0xF4 then 0x8F else 0xBF, b.toNat - 0xF0⟩
  else none

/-- The state of a reading: `pos` bytes are read, and `text` is what they say, last first. -/
structure Reading where
  pos : Nat
  text : List Char
  pending : Option Pending
  deriving DecidableEq, Repr

def Reading.start : Reading := ⟨0, [], none⟩

def Reading.step (r : Reading) (b : UInt8) : Except Fault Reading :=
  match r.pending with
  | none =>
    if b < 0x80 then .ok ⟨r.pos + 1, Char.ofNat b.toNat :: r.text, none⟩
    else match Pending.ofFirst b with
      | none => .error ⟨r.pos, 1, b, .badStart⟩
      | some p => .ok ⟨r.pos + 1, r.text, some p⟩
  | some p =>
    if p.low ≤ b ∧ b ≤ p.high then
      let code := p.code * 64 + (b.toNat - 0x80)
      if p.owed = 1 then .ok ⟨r.pos + 1, Char.ofNat code :: r.text, none⟩
      else .ok ⟨r.pos + 1, r.text, some ⟨p.first, p.seen + 1, p.owed - 1, 0x80, 0xBF, code⟩⟩
    else .error ⟨r.pos - p.seen, p.seen, p.first, .badContinuation⟩

def Reading.finish (r : Reading) : Except Fault (List Char) :=
  match r.pending with
  | none => .ok r.text.reverse
  | some p => .error ⟨r.pos - p.seen, p.seen, p.first, .cutShort⟩

def decode (bytes : List UInt8) : Except Fault (List Char) := do
  (← bytes.foldlM Reading.step Reading.start).finish

def encode (s : List Char) : List UInt8 := s.flatMap String.utf8EncodeChar

theorem encode_nil : encode [] = [] := rfl

theorem encode_cons (c : Char) (s : List Char) :
    encode (c :: s) = String.utf8EncodeChar c ++ encode s := by
  simp [encode]

theorem encode_append (s t : List Char) : encode (s ++ t) = encode s ++ encode t := by
  simp [encode]

end EnvKeeper.Utf8
