import IronQuery.Exception

/-! # Names (`impl/identifier.cpp`) -/

namespace IronQuery

/-- A letter or underscore, then letters, digits and underscores (`std::isalpha` and `std::isalnum`
in the C locale). -/
def isPlainIdentifier : Text → Bool
  | [] => false
  | c :: s => (c.isAlpha || c == '_') && s.all fun c => c.isAlphanum || c == '_'

/-- `s.find(c, start)`. -/
def find (s : Text) (c : Char) (start : Nat) : Option Nat :=
  ((s.drop start).findIdx? (· == c)).map (start + ·)

/-- `s.substr(start, count)`; no count is `npos - start`, which is more than the text has. -/
def substr (s : Text) (start : Nat) : Option Nat → Text
  | some count => (s.drop start).take count
  | none => s.drop start

/-- The loop of `ValidateIdentifier` from the position `start`, with `n` rounds to go. -/
def validateParts : Nat → Text → Nat → Result Unit
  | 0, s, _ => .error (.invalidIdentifier s)
  | n + 1, s, start =>
    let dot := find s '.' start
    let part := substr s start (dot.map (· - start))
    if !isPlainIdentifier part then .error (.invalidIdentifier s)
    else match dot with
      | none => .ok ()
      | some dot => validateParts n s (dot + 1)

/-- Validates a plain or dot-qualified identifier. A round moves `start` on, so there are no more
rounds than positions. -/
def validateIdentifier (s : Text) : Result Unit := validateParts (s.length + 1) s 0

def isOperatorChar (c : Char) : Bool := "+-*/<>=~!@#%^&|`?".toList.contains c

/-- `s.find(sub) != npos`. -/
def contains (sub : Text) : Text → Bool
  | [] => sub.isEmpty
  | c :: s => sub.isPrefixOf (c :: s) || contains sub s

/-- Validates an operator's name. -/
def validateOperatorName (s : Text) : Result Unit :=
  if s.isEmpty || !s.all isOperatorChar || contains "--".toList s || contains "/*".toList s then
    .error (.invalidOperator s)
  else if s.length > 1 && (s.getLast? == some '+' || s.getLast? == some '-') &&
      s.all fun c => "+-".toList.contains c then
    .error (.invalidOperator s)
  else .ok ()

example : validateIdentifier "schema.name_1".toList = .ok () := by decide

example : validateIdentifier "a..b".toList = .error (.invalidIdentifier "a..b".toList) := by decide

end IronQuery
