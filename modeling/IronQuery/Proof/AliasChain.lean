import IronQuery.Proof.IdentifierGrammar
import IronQuery.VirtualTable

/-!
# Chains of aliases

A `TableWithColumns` keeps its alias twice: in the text of its name, and in a field. `alias_chain`:
over a chain of `As` the two agree, and the FROM item has one alias, if and only if the chain is one
call; every later one is written behind the one before. `Dot` takes the last of them whatever the
chain.
-/

namespace IronQuery

open OperatorPrecedence

/-- `t.As(n1)...As(nk)`. -/
def asChain (t : TableWithColumns) : List Text → Result TableWithColumns
  | [] => .ok t
  | name :: names => do asChain (← t.as name) names

/-- What `Dot(c)` gives for a table of the alias `al`. -/
def dotOf (columns : List Column) (al c : Text) : Result Expr :=
  if columns.any fun column => column.name == c then .ok (.fromRaw (al ++ ".".toList ++ c) kDot)
  else .error (.unknownColumn c al)

/-- The table after the chain has one alias, the last one, in its text and in its members; before
it there are no members. -/
structure AliasedAs (name : Text) (columns : List Column) (names : List Text) : Prop where
  chain : ∃ t, asChain (.fromRaw name columns) names = .ok t ∧
    (VirtualTable.tableWithColumns t).toStringAsFromItem =
      .ok (name ++ " AS ".toList ++ names.getLast?.getD []) ∧
    ∀ c, t.dot c = dotOf columns (names.getLast?.getD []) c
  before : ∀ c, ∃ what, (TableWithColumns.fromRaw name columns).dot c = .error (.logicError what)

theorem validateIdentifier_plain {s : Text} (h : isPlainIdentifier s = true) :
    validateIdentifier s = .ok () := by
  rw [validateIdentifier_eq, if_pos ((isDotted_iff s).1 (.part ((isPart_iff s).2 h)))]

/-- Every call adds its alias to the text. -/
theorem asChain_eq (t : TableWithColumns) : (names : List Text) →
    (∀ n ∈ names, isPlainIdentifier n = true) →
    asChain t names = .ok { name_ := t.name_ ++ names.flatMap fun n => " AS ".toList ++ n
                            columns_ := t.columns_
                            alias_ := names.getLast?.getD t.alias_ }
  | [], _ => by simp [asChain]
  | n :: names, h => by
    have has : t.as n =
        .ok { name_ := t.name_ ++ " AS ".toList ++ n, columns_ := t.columns_, alias_ := n } := by
      rw [TableWithColumns.as, validateIdentifier_plain (h n (.head _))]
      rfl
    have hrest := fun t => asChain_eq t names fun m hm => h m (.tail _ hm)
    rw [asChain, has]
    refine (hrest _).trans ?_
    rw [List.flatMap_cons, List.getLast?_cons, Option.getD_some]
    simp only [List.append_assoc]

theorem dot_aliased {name al : Text} {columns : List Column} (h : al ≠ []) (c : Text) :
    TableWithColumns.dot ⟨name, columns, al⟩ c = dotOf columns al c := by
  rw [TableWithColumns.dot, if_neg (by simpa using h), dotOf]
  cases columns.any fun column => column.name == c <;> rfl

theorem fromItem_eq (t : TableWithColumns) :
    (VirtualTable.tableWithColumns t).toStringAsFromItem = .ok t.name_ := rfl

/-- **The table has one alias after a chain of one call.** -/
theorem alias_chain (name : Text) (columns : List Column) (names : List Text)
    (hne : names ≠ []) (h : ∀ n ∈ names, isPlainIdentifier n = true) :
    AliasedAs name columns names ↔ names.length = 1 := by
  have hchain := asChain_eq (.fromRaw name columns) names h
  constructor
  · rintro ⟨⟨t, ht, hfrom, -⟩, -⟩
    rw [hchain] at ht
    cases ht
    rw [fromItem_eq] at hfrom
    have htext := List.append_cancel_left
      ((Except.ok.inj hfrom).trans (List.append_assoc name " AS ".toList _))
    match names, hne with
    | [n], _ => rfl
    | n :: m :: l, _ =>
      -- the last alias alone is shorter than the chain
      obtain ⟨k, hk⟩ : ∃ k, k ∈ m :: l ∧ (m :: l).getLast? = some k :=
        ⟨_, List.getLast_mem (List.cons_ne_nil m l),
          List.getLast?_eq_some_getLast (List.cons_ne_nil m l)⟩
      have hlen := congrArg List.length htext
      rw [List.getLast?_cons_cons, hk.2, Option.getD_some, List.flatMap_cons, List.length_append,
        List.length_append, List.length_append] at hlen
      have hmem : (" AS ".toList ++ k).length ≤
          ((m :: l).flatMap fun n => " AS ".toList ++ n).length :=
        (List.sublist_flatten_of_mem (List.mem_map_of_mem hk.1)).length_le
      have hn : 0 < n.length := List.length_pos_iff.2 (plain_ne_nil (h n (.head _)))
      rw [List.length_append] at hmem
      omega
  · intro hlen
    obtain ⟨n, rfl⟩ := List.length_eq_one_iff.1 hlen
    refine ⟨⟨_, hchain, ?_, fun c => ?_⟩, fun c => ⟨_, rfl⟩⟩
    · rw [fromItem_eq, List.flatMap_singleton, List.append_assoc]
      rfl
    · exact dot_aliased (plain_ne_nil (h n (.head _))) c

/-- One call. -/
theorem alias_chain_one :
    AliasedAs "users".toList [⟨"id".toList⟩] ["u".toList] :=
  (alias_chain _ _ ["u".toList] (List.cons_ne_nil _ _) (by decide)).2 rfl

/-- The second alias is written behind the first. -/
theorem alias_twice : ¬ AliasedAs "users".toList [⟨"id".toList⟩] ["u".toList, "v".toList] ∧
    (asChain (.fromRaw "users".toList [⟨"id".toList⟩]) ["u".toList, "v".toList]).map
      (fun t => t.name_) = .ok "users AS u AS v".toList := by
  refine ⟨fun h => ?_, rfl⟩
  obtain ⟨t, ht, hfrom, -⟩ := h.chain
  cases ht
  exact absurd hfrom (by decide)

end IronQuery
