import IronQuery.VirtualTable

/-!
# Lists between commas

`csv_join`: `JoinCsv`, the size it reserves, `JoinCsvIndented` and `SelectArgAll` agree with the
items put between separators if and only if the list does not begin with an empty item that others
follow. `JoinCsv` and `SelectArgAll` take the empty text so far for the beginning of the list.
-/

namespace IronQuery

/-- The size that `JoinCsv` reserves. -/
def csvSize (items : List Text) : Nat :=
  if items.isEmpty then 0
  else items.foldl (fun size item => size + item.length) (2 * (items.length - 1))

/-- The four ways to write the list agree with the items put between separators. -/
structure IsCsv (items : List Text) : Prop where
  csv : joinCsv items = ", ".toList.intercalate items
  size : csvSize items = (joinCsv items).length
  indented : SelectExpr.joinCsvIndented items =
    ",\n".toList.intercalate (items.map fun item => "    ".toList ++ item)
  columns : ∀ t : TableWithColumns, t.columns_.map Column.name = items →
    t.selectArgAll.toString = joinCsv items

/-- A list of two or more items begins with one that is not empty. -/
def opensFilled : List Text → Bool
  | [] :: _ :: _ => false
  | _ => true

/-! ## Separators by what is written so far -/

section
variable {α : Type} (sep : Text) (f : α → Text)

/-- Behind an item that is not empty every item gets its separator. -/
theorem foldl_separated {acc : Text} (h : acc ≠ []) (l : List α) :
    l.foldl (fun s x => (if s.isEmpty then s else s ++ sep) ++ f x) acc =
      acc ++ l.flatMap fun x => sep ++ f x := by
  induction l generalizing acc with
  | nil => simp
  | cons x l ih =>
    have hne : acc ++ sep ++ f x ≠ [] := by simp [h]
    rw [List.foldl_cons, if_neg (by simpa using h), ih hne, List.flatMap_cons]
    simp only [List.append_assoc]

theorem intercalate_cons (x : α) (l : List α) :
    sep.intercalate ((x :: l).map f) = f x ++ l.flatMap fun y => sep ++ f y := by
  induction l generalizing x with
  | nil => simp
  | cons y l ih =>
    rw [List.map_cons, List.map_cons, List.intercalate_cons_cons, ← List.map_cons, ih,
      List.flatMap_cons]
    simp only [List.append_assoc]

/-- A first item that is not empty makes a true join. -/
theorem foldl_join {x : α} (h : f x ≠ []) (l : List α) :
    (x :: l).foldl (fun s x => (if s.isEmpty then s else s ++ sep) ++ f x) [] =
      sep.intercalate ((x :: l).map f) := by
  rw [intercalate_cons, List.foldl_cons]
  exact foldl_separated sep f h l

end

theorem joinCsv_filled {x : Text} (h : x ≠ []) (l : List Text) :
    joinCsv (x :: l) = ", ".toList.intercalate (x :: l) := by
  have := foldl_join ", ".toList id (x := x) h l
  rwa [List.map_id] at this

theorem joinCsv_empty (l : List Text) : joinCsv ([] :: l) = joinCsv l := rfl

theorem joinCsv_length_le : (l : List Text) →
    (joinCsv l).length ≤ (", ".toList.intercalate l).length
  | [] => Nat.le_refl _
  | [] :: l => by
    rw [joinCsv_empty]
    refine Nat.le_trans (joinCsv_length_le l) ?_
    cases l with
    | nil => exact Nat.le_refl _
    | cons y l =>
      rw [List.intercalate_cons_cons, List.length_append]
      exact Nat.le_add_left _ _
  | (c :: x) :: l => by rw [joinCsv_filled (List.cons_ne_nil c x)]

/-- An empty item that others follow loses its separator. -/
theorem joinCsv_lost (y : Text) (l : List Text) :
    joinCsv ([] :: y :: l) ≠ ", ".toList.intercalate ([] :: y :: l) := by
  intro h
  have hlen := joinCsv_length_le (y :: l)
  rw [← joinCsv_empty, h, List.intercalate_cons_cons, List.length_append] at hlen
  have hsep : ([] ++ ", ".toList : Text).length = 2 := rfl
  omega

theorem joinCsv_eq {items : List Text} (h : opensFilled items = true) :
    joinCsv items = ", ".toList.intercalate items := by
  match items, h with
  | [], _ => rfl
  | [x], _ => simp
  | (c :: x) :: y :: l, _ => exact joinCsv_filled (List.cons_ne_nil c x) _

/-! ## The four of them -/

theorem foldl_length (l : List Text) (n : Nat) :
    l.foldl (fun size item => size + item.length) n = n + (l.map List.length).sum := by
  induction l generalizing n with
  | nil => rfl
  | cons x l ih => rw [List.foldl_cons, ih, List.map_cons, List.sum_cons, Nat.add_assoc]

theorem length_separated (l : List Text) :
    (l.flatMap fun y => ", ".toList ++ y).length = 2 * l.length + (l.map List.length).sum := by
  have hsep : ", ".toList.length = 2 := rfl
  induction l with
  | nil => rfl
  | cons y l ih =>
    rw [List.flatMap_cons, List.length_append, List.length_append, ih, hsep, List.length_cons,
      List.map_cons, List.sum_cons]
    omega

theorem csvSize_eq (items : List Text) :
    csvSize items = (", ".toList.intercalate items).length := by
  cases items with
  | nil => rfl
  | cons x l =>
    have h := intercalate_cons ", ".toList id x l
    rw [List.map_id] at h
    rw [csvSize, if_neg nofun, foldl_length, h, List.length_append, List.map_cons, List.sum_cons,
      List.length_cons, Nat.add_sub_cancel]
    exact (Nat.add_left_comm _ _ _).trans (congrArg _ (length_separated l).symm)

theorem joinCsvIndented_eq (items : List Text) : SelectExpr.joinCsvIndented items =
    ",\n".toList.intercalate (items.map fun item => "    ".toList ++ item) := by
  cases items with
  | nil => rfl
  | cons x l =>
    rw [SelectExpr.joinCsvIndented,
      ← foldl_join ",\n".toList (fun item => "    ".toList ++ item) (by simp) l]
    simp only [List.append_assoc]

/-- **The lists are true joins if they do not begin with an empty item.** -/
theorem csv_join (items : List Text) : IsCsv items ↔ opensFilled items = true := by
  constructor
  · intro h
    cases ho : opensFilled items
    · match items, ho with
      | [] :: y :: l, _ => exact absurd h.csv (joinCsv_lost y l)
      | (c :: x) :: y :: l, ho => cases ho
    · rfl
  · intro h
    have hcsv := joinCsv_eq h
    refine ⟨hcsv, by rw [hcsv, csvSize_eq], joinCsvIndented_eq items, fun t ht => ?_⟩
    rw [t.selectArgAll_eq, ht]

/-- The first of two items loses its place. -/
theorem empty_item_lost : ¬ IsCsv [[], "a".toList] ∧ joinCsv [[], "a".toList] = "a".toList ∧
    csvSize [[], "a".toList] = 3 :=
  ⟨fun h => absurd h.csv (by decide), by decide, by decide⟩

end IronQuery
