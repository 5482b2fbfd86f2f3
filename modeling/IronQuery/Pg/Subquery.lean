import IronQuery.Pg.Grammar

/-!
# Brackets around a query

A bracket opens a subquery when nothing but a query, in any number of extra brackets, stands in it
(`isQuery`): it is then taken as one lexeme, whether it is an operand or the right side of
`EXISTS`, `IN`, `ANY` or `ALL`. The bracket behind a function's name or `CAST` is never one
(`isCallee`). `units` groups the tokens of a text so, and `readExpr` reads it.
-/

namespace Pg

/-- The tokens up to the bracket that closes the level `d`, and those behind it. -/
def upTo : Nat → List Token → Option (List Token × List Token)
  | _, [] => none
  | d, .punct c :: ts =>
    if c = '(' then (upTo (d + 1) ts).map fun p => (.punct c :: p.1, p.2)
    else if c = ')' then
      if d = 0 then some ([], ts) else (upTo (d - 1) ts).map fun p => (.punct c :: p.1, p.2)
    else (upTo d ts).map fun p => (.punct c :: p.1, p.2)
  | d, t :: ts => (upTo d ts).map fun p => (t :: p.1, p.2)

/-- What may stand behind a query in brackets that is the first part of a larger one. -/
def goesOn : List Token → Bool
  | [] => true
  | .word w :: _ =>
    match Key.ofWord w with
    | some .union | some .intersect | some .except | some .order | some .limit | some .offset =>
      true
    | _ => false
  | _ => false

/-- The tokens are a query, with `n` levels of brackets to look into. -/
def isQueryAux : Nat → List Token → Bool
  | 0, _ => false
  | n + 1, ts =>
    match ts with
    | .word w :: r =>
      match Key.ofWord w with
      | some .select | some .with => true
      | some .values => r.head? == some (.punct '(')
      | _ => false
    | .punct c :: r =>
      c == '(' && match upTo 0 r with
        | some (inner, rest) => isQueryAux n inner && goesOn rest
        | none => false
    | _ => false

/-- The tokens are a query, or one in brackets and what goes on from there. -/
def isQuery (ts : List Token) : Bool := isQueryAux (ts.length + 1) ts

/-- A bracket behind the token holds arguments. -/
def isCallee : Token → Bool
  | .word w =>
    match Key.ofWord w with
    | none => true
    | some .cast => true
    | some .exists | some .between | some .values => false
    | some k => !k.reserved
  | .quotedIdent _ => true
  | _ => false

/-- The lexemes of tokens, with `n` of them to look at; `callee`: the one before may be called. -/
def unitsAux : Nat → Bool → List Token → List Lexeme
  | 0, _, _ => []
  | _ + 1, _, [] => []
  | n + 1, callee, t :: ts =>
    if t = .punct '(' ∧ callee = false then
      match upTo 0 ts with
      | some (inner, rest) =>
        if isQuery inner then .subquery inner :: unitsAux n false rest
        else .punct '(' :: unitsAux n false ts
      | none => .punct '(' :: unitsAux n false ts
    else t.lexeme :: unitsAux n (isCallee t) ts

/-- The lexemes of tokens, every subquery as one. -/
def units (ts : List Token) : List Lexeme := unitsAux ts.length false ts

/-- A text as one expression. -/
def readExpr (s : Text) : Option Sql := parse (units (lex s))

example : units (lex "x IN ((SELECT 1))".toList) =
    [.name "x".toList, .key .in "IN".toList, .subquery (lex "(SELECT 1)".toList)] := by decide

end Pg
