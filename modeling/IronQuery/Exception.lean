import IronQuery.Pg.Lexer

/-!
# Exceptions, and member functions that may throw

A member function that changes its object is a function from the object to an `Outcome`: what it
threw, if it did, and the object it left behind (a C++ setter can throw half way through, and the
caller can go on with the object).
-/

namespace IronQuery

export Pg (Text)

/-- The exception classes; `InvalidIdentifier`, `InvalidOperator`, `InvalidLiteral` and
`UnknownColumn` derive from `InvalidArgument`. -/
inductive Exception
  | logicError (what : Text)
  | invalidArgument (what : Text)
  | invalidIdentifier (identifier : Text)
  | invalidOperator (op : Text)
  | invalidLiteral (what : Text)
  | unknownColumn (column table : Text)
  deriving DecidableEq, Repr

namespace Exception

def what : Exception → Text
  | logicError w => "iron_query: ".toList ++ w
  | invalidArgument w => "iron_query: ".toList ++ w
  | invalidIdentifier identifier =>
    "iron_query: ".toList ++ "invalid identifier: ".toList ++ identifier
  | invalidOperator op => "iron_query: ".toList ++ "invalid operator name: ".toList ++ op
  | invalidLiteral w => "iron_query: ".toList ++ w
  | unknownColumn column table =>
    "iron_query: ".toList ++ "'".toList ++ column ++ "' is not a column of table '".toList ++
      table ++ "'".toList

def isLogicError : Exception → Bool
  | logicError _ => true
  | _ => false

end Exception

/-- What a call of a function that throws gives. -/
abbrev Result (α : Type) := Except Exception α

theorem bind_ok {α β : Type} {x : Result α} {f : α → Result β} {b : β} :
    (x >>= f) = .ok b ↔ ∃ a, x = .ok a ∧ f a = .ok b := by
  cases x with
  | error e => exact ⟨nofun, nofun⟩
  | ok a => exact ⟨fun h => ⟨a, rfl, h⟩, fun ⟨_, h, h'⟩ => by cases h; exact h'⟩

theorem pure_ok {α : Type} {a b : α} : (pure a : Result α) = .ok b ↔ a = b :=
  ⟨fun h => by cases h; rfl, fun h => by rw [h]; rfl⟩

/-- A call of a member function on an object: the exception it threw, and the object after it. -/
structure Outcome (σ : Type) where
  thrown : Option Exception
  object : σ
  deriving Repr

namespace Outcome

variable {σ : Type}

def ok (s : σ) : Outcome σ := ⟨none, s⟩

def throw (e : Exception) (s : σ) : Outcome σ := ⟨some e, s⟩

/-- The statements after one that may throw. -/
def andThen (o : Outcome σ) (f : σ → Outcome σ) : Outcome σ :=
  match o.thrown with
  | none => f o.object
  | some _ => o

/-- The value a builder chain goes on with. -/
def result (o : Outcome σ) : Result σ :=
  match o.thrown with
  | none => .ok o.object
  | some e => .error e

@[simp] theorem thrown_ok (s : σ) : (ok s).thrown = none := rfl
@[simp] theorem object_ok (s : σ) : (ok s).object = s := rfl
@[simp] theorem thrown_throw (e : Exception) (s : σ) : (throw e s).thrown = some e := rfl
@[simp] theorem object_throw (e : Exception) (s : σ) : (throw e s).object = s := rfl
@[simp] theorem andThen_ok (s : σ) (f : σ → Outcome σ) : (ok s).andThen f = f s := rfl
@[simp] theorem andThen_throw (e : Exception) (s : σ) (f : σ → Outcome σ) :
    (throw e s).andThen f = throw e s := rfl
@[simp] theorem result_ok (s : σ) : (ok s).result = .ok s := rfl
@[simp] theorem result_throw (e : Exception) (s : σ) : (throw e s).result = .error e := rfl

theorem result_eq_ok {o : Outcome σ} {s : σ} : o.result = .ok s ↔ o = ok s := by
  obtain ⟨t, s'⟩ := o
  cases t <;> simp [result, ok]

end Outcome

end IronQuery
