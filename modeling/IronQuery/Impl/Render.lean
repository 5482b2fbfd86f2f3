import IronQuery.Exception

/-! # Joining rendered terms, clauses that are set once (`impl/render.cpp`, `impl/render.hpp`) -/

namespace IronQuery

/-- `std::to_string` of an unsigned number. -/
def natToString (n : Nat) : Text := Nat.toDigits 10 n

/-- `std::to_string` of a signed number. -/
def intToString : Int → Text
  | .ofNat n => natToString n
  | .negSucc n => '-' :: natToString (n + 1)

/-- Joins rendered terms with `", "`. -/
def joinCsv (items : List Text) : Text :=
  items.foldl (fun s item => (if s.isEmpty then s else s ++ ", ".toList) ++ item) []

/-- Indents every line of the text. -/
def indentBlock (text : Text) (spaces : Nat) : Text :=
  let pre := List.replicate spaces ' '
  text.foldl (fun s c => if c == '\n' then s ++ [c] ++ pre else s ++ [c]) pre

def renderBinary (lhs op rhs : Text) : Text := lhs ++ [' '] ++ op ++ [' '] ++ rhs

/-- A type that stores a clause, with a value that stands for "not set yet". -/
class Clause (β : Type) where
  isEmpty : β → Bool

instance {α : Type} : Clause (List α) := ⟨List.isEmpty⟩
instance {α : Type} : Clause (Option α) := ⟨Option.isNone⟩

@[simp] theorem isEmpty_list {α : Type} (l : List α) : Clause.isEmpty l = l.isEmpty := rfl
@[simp] theorem isEmpty_option {α : Type} (o : Option α) : Clause.isEmpty o = o.isNone := rfl

section
variable {β σ : Type} [Clause β]

/-- Goes on with `s` unless the field was set. -/
def ensureNotSet (field : β) (what : Text) (s : σ) : Outcome σ :=
  if Clause.isEmpty field then .ok s else .throw (.logicError (what ++ " is already set".toList)) s

/-- `EnsureNotSet`, then the assignment that turns `s` into `s'`. -/
def setOnce (field : β) (what : Text) (s s' : σ) : Outcome σ :=
  (ensureNotSet field what s).andThen fun _ => .ok s'

end

/-! ## Equations -/

@[simp] theorem joinCsv_nil : joinCsv [] = [] := rfl

@[simp] theorem joinCsv_singleton (x : Text) : joinCsv [x] = x := rfl

theorem joinCsv_concat (items : List Text) (x : Text) :
    joinCsv (items ++ [x]) =
      if joinCsv items = [] then x else joinCsv items ++ ", ".toList ++ x := by
  have e : joinCsv (items ++ [x]) = (if (joinCsv items).isEmpty then joinCsv items
      else joinCsv items ++ ", ".toList) ++ x := by
    rw [joinCsv, List.foldl_append]
    rfl
  rw [e]
  by_cases h : joinCsv items = []
  · simp [h]
  · simp [h]

theorem indentBlock_eq (text : Text) (spaces : Nat) :
    indentBlock text spaces = List.replicate spaces ' ' ++
      text.flatMap fun c => if c = '\n' then c :: List.replicate spaces ' ' else [c] := by
  have key : ∀ (t acc : Text), t.foldl (fun s c => if c == '\n' then s ++ [c] ++
      List.replicate spaces ' ' else s ++ [c]) acc =
      acc ++ t.flatMap fun c => if c = '\n' then c :: List.replicate spaces ' ' else [c] := by
    intro t
    induction t with
    | nil => simp
    | cons c t ih =>
      intro acc
      rw [List.foldl_cons, ih, List.flatMap_cons]
      by_cases hc : c = '\n' <;> simp [hc]
  exact key text _

theorem setOnce_eq {β σ : Type} [Clause β] (field : β) (what : Text) (s s' : σ) :
    setOnce field what s s' = if Clause.isEmpty field then .ok s'
      else .throw (.logicError (what ++ " is already set".toList)) s := by
  unfold setOnce ensureNotSet
  split <;> rfl

section
variable {β σ : Type} [Clause β] {field : β} {what : Text} {s s' : σ}

/-- Whether the clause is set. -/
def isSet (field : β) : Bool := !Clause.isEmpty field

theorem ensureNotSet_of_not (h : isSet field = false) : ensureNotSet field what s = .ok s := by
  unfold ensureNotSet
  rw [if_pos (Bool.not_eq_false' _ ▸ h)]

theorem setOnce_of_not (h : isSet field = false) : setOnce field what s s' = .ok s' := by
  rw [setOnce, ensureNotSet_of_not h]
  rfl

theorem ensureNotSet_of_set (h : isSet field = true) :
    ∃ e, e.isLogicError = true ∧ ensureNotSet field what s = .throw e s := by
  refine ⟨.logicError (what ++ " is already set".toList), rfl, ?_⟩
  rw [ensureNotSet, if_neg (fun he => by rw [isSet, he] at h; cases h)]

theorem andThen_of_throw {o : Outcome σ} (f : σ → Outcome σ)
    (h : ∃ e, e.isLogicError = true ∧ o = .throw e s) :
    ∃ e, e.isLogicError = true ∧ o.andThen f = .throw e s := by
  obtain ⟨e, he, rfl⟩ := h
  exact ⟨e, he, rfl⟩

theorem setOnce_of_set (h : isSet field = true) :
    ∃ e, e.isLogicError = true ∧ setOnce field what s s' = .throw e s :=
  andThen_of_throw _ (ensureNotSet_of_set h)

end

end IronQuery
