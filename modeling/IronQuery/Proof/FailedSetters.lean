import IronQuery.Proof.Setters

/-!
# Setters that throw

`failed_setter`: for each builder, which failed calls leave the object as it was, and that a run of
such calls may be read without the failed ones. Only the setters of `InsertInto` that give columns
or rows throw after they have written.
-/

namespace IronQuery

/-! ## INSERT -/

/-- The call throws before it writes (its clause is set already), or gives columns and rows of one
width. -/
def InsertCall.fits (s : InsertInto) : InsertCall → Prop
  | columns cols =>
    s.columns_ ≠ [] ∨ InsertInto.ensureSameArity (cols.map Expr.toString) s.rows_ = none
  | values vals =>
    s.rows_ ≠ [] ∨ InsertInto.ensureSameArity s.columns_ [vals.map Expr.toString] = none
  | rows r => s.rows_ ≠ [] ∨
    InsertInto.ensureSameArity s.columns_ (r.map fun row => row.map Expr.toString) = none
  | _ => True

theorem ensureSameArity_ne {columns : List Text} {rows : List (List Text)}
    (h : InsertInto.ensureSameArity columns rows ≠ none) : columns ≠ [] ∧ rows ≠ [] := by
  unfold InsertInto.ensureSameArity at h
  constructor
  · rintro rfl
    exact h rfl
  · rintro rfl
    simp at h

theorem nil_of_not_blocked {α : Type} {l : List α} (h : isSet l = false) : l = [] :=
  List.isEmpty_iff.1 (Bool.not_eq_false' _ ▸ h)

theorem insert_failSafe : FailSafe InsertCall.apply InsertCall.fits := by
  refine insert_setter.failSafe (fun s c _ hf => ?_) fun s c h => ?_
  · cases c with
    | columns cols =>
      have hnil : s.columns_ = [] := nil_of_not_blocked hf
      refine ⟨fun hne he => (ensureSameArity_ne hne).1 ?_, ?_⟩
      · exact (congrArg InsertInto.columns_ he).trans hnil
      · simp only [InsertCall.fits, hnil, ne_eq, not_true_eq_false, false_or]
        rfl
    | values vals =>
      have hnil : s.rows_ = [] := nil_of_not_blocked hf
      refine ⟨fun hne he => (ensureSameArity_ne hne).2 ?_, ?_⟩
      · exact (congrArg InsertInto.rows_ he).trans hnil
      · simp only [InsertCall.fits, hnil, ne_eq, not_true_eq_false, false_or]
        rfl
    | rows r =>
      have hnil : s.rows_ = [] := nil_of_not_blocked hf
      refine ⟨fun hne he => (ensureSameArity_ne hne).2 ?_, ?_⟩
      · exact (congrArg InsertInto.rows_ he).trans hnil
      · simp only [InsertCall.fits, hnil, ne_eq, not_true_eq_false, false_or]
        rfl
    | returning | onConflictDoNothing | onConflictDoNothingAt | onConflictDoUpdate =>
      exact ⟨fun hne => absurd rfl hne, iff_of_true rfl trivial⟩
  · have set {α : Type} {l : List α} (hs : isSet l = true) : l ≠ [] := by
      rintro rfl
      cases hs
    cases c with
    | columns cols => exact .inl (set (h.resolve_left (not_not_intro rfl)))
    | values vals => exact .inl (set (h.resolve_left (not_not_intro rfl)))
    | rows r => exact .inl (set (h.resolve_left (not_not_intro rfl)))
    | returning | onConflictDoNothing | onConflictDoNothingAt | onConflictDoUpdate => trivial

/-! ## WITH -/

/-- The formatted text of a query can be made whenever the bracketed one can. -/
theorem formatted_of_bracketed {v : VirtualTable} {s : Text} (h : v.toStringBracketed = .ok s) :
    ∃ x, v.toStringFormatted = .ok x := by
  cases v with
  | table t => exact ⟨_, rfl⟩
  | tableWithColumns t => exact ⟨_, rfl⟩
  | join j => exact ⟨_, rfl⟩
  | setOp x => exact ⟨_, rfl⟩
  | «with» w => exact ⟨_, rfl⟩
  | deleteFrom d =>
    obtain ⟨x, hx, -⟩ := bind_ok.1 h
    exact ⟨x, hx⟩
  | select x =>
    obtain ⟨y, hy, -⟩ := bind_ok.1 h
    obtain ⟨items, hitems, -⟩ := bind_ok.1 hy
    exact ⟨_, bind_ok.2 ⟨items, hitems, rfl⟩⟩

theorem with_failSafe : FailSafe WithCall.apply fun _ _ => True := by
  refine .of_step fun s c => iff_of_true (fun e he => ?_) trivial
  rw [WithCall.apply, WithBuilder.with] at he ⊢
  cases hn : validateIdentifier c.name with
  | error e => rfl
  | ok u =>
    rw [hn] at he
    simp only [Outcome.given_ok] at he ⊢
    split
    · rfl
    · rename_i hdup
      rw [if_neg hdup] at he
      cases hb : c.query.toStringBracketed with
      | error e => rfl
      | ok body =>
        -- the other rendering does not throw in the middle of the update
        obtain ⟨x, hx⟩ := formatted_of_bracketed hb
        rw [hb, hx] at he
        cases he

/-! ## All builders -/

/-- A failed setter of the builder leaves it as it was, unless it gives an INSERT columns and rows
of different widths. -/
def Builder.failSafe : Builder → Prop
  | select => FailSafe SelectCall.apply fun _ _ => True
  | insert => FailSafe InsertCall.apply InsertCall.fits
  | update => FailSafe UpdateCall.apply fun _ _ => True
  | delete => FailSafe DeleteCall.apply fun _ _ => True
  | join => FailSafe JoinCall.apply fun _ _ => True
  | case => FailSafe CaseCall.apply fun _ _ => True

/-- **A failed setter leaves its builder as it was**, for every builder, a WITH included, and every
call but one that gives an INSERT columns and rows of different widths; and a run of such calls ends
as if the failed ones had not been made. -/
theorem failed_setter (b : Builder) : b.failSafe ∧ FailSafe WithCall.apply (fun _ _ => True) := by
  refine ⟨?_, with_failSafe⟩
  cases b with
  | select => exact select_setter.failSafe_of_check fun _ _ => rfl
  | insert => exact insert_failSafe
  | update => exact update_setter.failSafe_of_check fun _ _ => rfl
  | delete => exact delete_setter.failSafe_of_check fun _ _ => rfl
  | join => exact join_setter.failSafe_of_check fun _ _ => rfl
  | case => exact case_setter.failSafe_of_check fun _ _ => rfl

/-- `Values(1)` after two columns throws, and its row stays: the corrected call throws too. -/
theorem values_stay :
    let s := after InsertCall.apply [.columns [.fromRaw "a".toList, .fromRaw "b".toList]]
      (.new (.fromRaw "t".toList))
    let o := InsertCall.apply (.values [.fromInteger 1]) s
    o.thrown ≠ none ∧ o.object ≠ s ∧
      (InsertCall.apply (.values [.fromInteger 1, .fromInteger 2]) o.object).thrown =
        some (.logicError "row values is already set".toList) := by
  decide

end IronQuery
