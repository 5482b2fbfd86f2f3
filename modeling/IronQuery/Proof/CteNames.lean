import IronQuery.Proof.Names
import IronQuery.Proof.Setters
import IronQuery.Proof.Text
import Mathlib.Data.List.Nodup

/-!
# The names of the common table expressions

`cte_names`: a chain of `With` calls that does not throw holds its tables one after the other in
both lists, each behind its name; the names differ as texts, and so as identifiers unless two of
them differ in the case of their letters only. A dotted name and a key word are accepted too, and
name no table of a `WITH`.
-/

namespace IronQuery

/-! ## Names to the server -/

/-- An unquoted identifier as the server reads it. -/
def foldName (name : Text) : Text := name.map Char.toLower

/-- The key words that the server keeps to itself. -/
def reservedWords : List Text :=
  ["all".toList, "analyse".toList, "analyze".toList, "and".toList, "any".toList, "array".toList,
    "as".toList, "asc".toList, "asymmetric".toList, "both".toList, "case".toList, "cast".toList,
    "check".toList, "collate".toList, "column".toList, "constraint".toList, "create".toList,
    "current_catalog".toList, "current_date".toList, "current_role".toList, "current_time".toList,
    "current_timestamp".toList, "current_user".toList, "default".toList, "deferrable".toList,
    "desc".toList, "distinct".toList, "do".toList, "else".toList, "end".toList, "except".toList,
    "false".toList, "fetch".toList, "for".toList, "foreign".toList, "from".toList, "grant".toList,
    "group".toList, "having".toList, "in".toList, "initially".toList, "intersect".toList,
    "into".toList, "lateral".toList, "leading".toList, "limit".toList, "localtime".toList,
    "localtimestamp".toList, "not".toList, "null".toList, "offset".toList, "on".toList,
    "only".toList, "or".toList, "order".toList, "placing".toList, "primary".toList,
    "references".toList, "returning".toList, "select".toList, "session_user".toList, "some".toList,
    "symmetric".toList, "system_user".toList, "table".toList, "then".toList, "to".toList,
    "trailing".toList, "true".toList, "union".toList, "unique".toList, "user".toList,
    "using".toList, "variadic".toList, "when".toList, "where".toList, "window".toList,
    "with".toList]

/-- The key words that name a type or a function, and nothing else. -/
def typeWords : List Text :=
  ["authorization".toList, "binary".toList, "collation".toList, "concurrently".toList,
    "cross".toList, "current_schema".toList, "freeze".toList, "full".toList, "ilike".toList,
    "inner".toList, "is".toList, "isnull".toList, "join".toList, "left".toList, "like".toList,
    "natural".toList, "notnull".toList, "outer".toList, "overlaps".toList, "right".toList,
    "similar".toList, "tablesample".toList, "verbose".toList]

/-- A word that names a relation: an identifier, of one part, and no key word of the two lists. -/
def isRelationName (name : Text) : Bool :=
  (name.head?.any Pg.isIdentStart && name.all Pg.isIdentCont) &&
    !(reservedWords ++ typeWords).contains (foldName name)

/-! ## What a chain says -/

namespace WithCall

/-- The table of the call in the one-line list. -/
def plain (c : WithCall) : Text := match c.query.toStringBracketed with
  | .ok body => c.name ++ " AS ".toList ++ body
  | .error _ => []

/-- The table of the call in the formatted list. -/
def formatted (c : WithCall) : Text := match c.query.toStringFormatted with
  | .ok body => c.name ++ " AS (\n    ".toList ++ Pg.indented 4 body ++ "\n)".toList
  | .error _ => []

/-- Both texts of the query can be made. -/
def Rendered (c : WithCall) : Prop :=
  (∃ x, c.query.toStringBracketed = .ok x) ∧ ∃ x, c.query.toStringFormatted = .ok x

end WithCall

/-- The names of the calls name tables, the server tells them apart, and both lists hold the calls'
tables in call order, each name with its own query. -/
def CtesDistinct (calls : List WithCall) (b : WithBuilder) : Prop :=
  (∀ c ∈ calls, isRelationName c.name = true) ∧
  (calls.map fun c => foldName c.name).Nodup ∧
  (∀ c ∈ calls, c.Rendered) ∧
  b.ctes_ = ", ".toList.intercalate (calls.map WithCall.plain) ∧
  b.ctesFormatted_ = ",\n".toList.intercalate (calls.map WithCall.formatted)

/-- No two names differ in the case of their letters only. -/
def CaseSensible (calls : List WithCall) : Prop :=
  ∀ c ∈ calls, ∀ d ∈ calls, foldName c.name = foldName d.name → c.name = d.name

/-- Every name is of one part, and none is a key word of the two lists. -/
def Nameable (calls : List WithCall) : Prop :=
  ∀ c ∈ calls, '.' ∉ c.name ∧ foldName c.name ∉ reservedWords ++ typeWords

theorem isRelationName_iff {name : Text} {u : Unit} (h : validateIdentifier name = .ok u) :
    isRelationName name = true ↔ '.' ∉ name ∧ foldName name ∉ reservedWords ++ typeWords := by
  rw [isRelationName, Bool.and_eq_true, Bool.not_eq_true', ← Bool.not_eq_true,
    List.contains_iff_mem]
  refine and_congr_left fun _ => ?_
  constructor
  · intro hn hdot
    rw [Bool.and_eq_true, List.all_eq_true] at hn
    exact absurd (hn.2 _ hdot) (by decide)
  · intro hdot
    have hparts := validateIdentifier_ok h
    rw [dotParts_of_no_dot fun d hd e => hdot (e ▸ hd)] at hparts
    obtain ⟨c, s, rfl, hc, hs⟩ := plain_cons (hparts name (.head _))
    rw [List.head?_cons, Option.any_some, hc, List.all_cons, hs, Pg.isIdentStart_cont hc]
    rfl

/-! ## The state after a chain -/

/-- The builder holds the calls' tables under their names. -/
structure CtesHold (b : WithBuilder) (calls : List WithCall) : Prop where
  nonempty : calls ≠ []
  names : b.cteNames_ = calls.map WithCall.name
  nodup : (calls.map WithCall.name).Nodup
  valid : ∀ c ∈ calls, validateIdentifier c.name = .ok ()
  rendered : ∀ c ∈ calls, c.Rendered
  plain : b.ctes_ = ", ".toList.intercalate (calls.map WithCall.plain)
  formatted : b.ctesFormatted_ = ",\n".toList.intercalate (calls.map WithCall.formatted)

theorem intercalate_concat {α : Type} (sep x : List α) {l : List (List α)} (h : l ≠ []) :
    sep.intercalate (l ++ [x]) = sep.intercalate l ++ (sep ++ x) := by
  induction l with
  | nil => exact absurd rfl h
  | cons a l ih =>
    cases l with
    | nil => simp [List.intercalate]
    | cons b l =>
      have := ih (by simp)
      simp only [List.intercalate, List.cons_append, List.intersperse_cons_cons, List.flatten_cons,
        List.append_assoc] at this ⊢
      rw [this]

theorem plain_eq {c : WithCall} {x : Text} (h : c.query.toStringBracketed = .ok x) :
    c.plain = cteText c.name x := by
  rw [WithCall.plain, h]
  rfl

theorem formatted_eq {c : WithCall} {y : Text} (h : c.query.toStringFormatted = .ok y) :
    c.formatted = cteTextFormatted c.name y := by
  rw [WithCall.formatted, h, cteTextFormatted, indentBlock_indented]
  simp

theorem withCte_holds {c : WithCall} {b : WithBuilder} (h : withCte c.name c.query = .ok b) :
    CtesHold b [c] := by
  obtain ⟨_, hn, h⟩ := bind_ok.1 h
  obtain ⟨x, hx, h⟩ := bind_ok.1 h
  obtain ⟨y, hy, h⟩ := bind_ok.1 h
  cases h
  refine ⟨by simp, rfl, by simp, fun d hd => ?_, fun d hd => ?_, ?_, ?_⟩
  · rw [List.mem_singleton.1 hd]
    exact hn
  · rw [List.mem_singleton.1 hd]
    exact ⟨⟨x, hx⟩, y, hy⟩
  · simp [plain_eq hx, List.intercalate]
  · simp [formatted_eq hy, List.intercalate]

/-- One more `With`. -/
theorem with_holds {c : WithCall} {b b' : WithBuilder} {calls : List WithCall}
    (h : CtesHold b calls) (ha : (c.apply b).accepted = some b') : CtesHold b' (calls ++ [c]) := by
  obtain ⟨_, x, y, hn, hdup, hx, hy, rfl⟩ := with_accepted ha
  have hmem : c.name ∉ calls.map WithCall.name := by rwa [← h.names]
  refine ⟨by simp, ?_, ?_, fun d hd => ?_, fun d hd => ?_, ?_, ?_⟩
  · rw [h.names, List.map_append]
    rfl
  · rw [List.map_append]
    refine List.nodup_append.2 ⟨h.nodup, by simp, fun n hn m hm e => ?_⟩
    rw [List.map_singleton, List.mem_singleton] at hm
    rw [← hm, ← e] at hmem
    exact hmem hn
  · rcases List.mem_append.1 hd with hd | hd
    · exact h.valid d hd
    · rw [List.mem_singleton.1 hd]
      exact hn
  · rcases List.mem_append.1 hd with hd | hd
    · exact h.rendered d hd
    · rw [List.mem_singleton.1 hd]
      exact ⟨⟨x, hx⟩, y, hy⟩
  · rw [List.map_append, List.map_singleton, intercalate_concat _ _ (by simpa using h.nonempty),
      ← h.plain, plain_eq hx]
  · rw [List.map_append, List.map_singleton, intercalate_concat _ _ (by simpa using h.nonempty),
      ← h.formatted, formatted_eq hy]

theorem run_ctes {b b' : WithBuilder} {calls rest : List WithCall} (h : CtesHold b calls)
    (hrun : chain WithCall.apply rest b = some b') : CtesHold b' (calls ++ rest) := by
  induction rest generalizing b calls with
  | nil =>
    cases hrun
    rwa [List.append_nil]
  | cons c rest ih =>
    obtain ⟨b₁, ha, hrest⟩ := Option.bind_eq_some_iff.1 hrun
    have := ih (with_holds h ha) hrest
    rwa [List.append_assoc] at this

/-! ## Whole chains -/

/-- **The tables of a chain that does not throw are in both lists in call order, each with its own
query, under names that the server takes and tells apart** if and only if no two of them differ in
case only and none is dotted or a key word. -/
theorem cte_names (first : WithCall) (rest : List WithCall) (b₀ b : WithBuilder)
    (hfirst : withCte first.name first.query = .ok b₀)
    (hrun : chain WithCall.apply rest b₀ = some b) :
    CtesDistinct (first :: rest) b ↔ CaseSensible (first :: rest) ∧ Nameable (first :: rest) := by
  have h : CtesHold b (first :: rest) := run_ctes (withCte_holds hfirst) hrun
  have hname := fun c hc => isRelationName_iff (h.valid c hc)
  constructor
  · rintro ⟨hnames, hfold, -⟩
    refine ⟨fun c hc d hd e => ?_, fun c hc => (hname c hc).1 (hnames c hc)⟩
    obtain rfl := List.inj_on_of_nodup_map hfold hc hd e
    rfl
  · rintro ⟨hs, hn⟩
    refine ⟨fun c hc => (hname c hc).2 (hn c hc), ?_, h.rendered, h.plain, h.formatted⟩
    refine List.Nodup.map_on (fun c hc d hd e => ?_) h.nodup.of_map
    exact List.inj_on_of_nodup_map h.nodup hc hd (hs c hc d hd e)

/-- `WITH a AS t, b AS u`. -/
theorem cte_names_two : ∃ b₀ b,
    withCte "a".toList (.table (.fromRaw "t".toList)) = .ok b₀ ∧
    chain WithCall.apply [⟨"b".toList, .table (.fromRaw "u".toList)⟩] b₀ = some b ∧
    CtesDistinct [⟨"a".toList, .table (.fromRaw "t".toList)⟩,
      ⟨"b".toList, .table (.fromRaw "u".toList)⟩] b := by
  refine ⟨_, _, rfl, rfl, (cte_names ⟨"a".toList, .table (.fromRaw "t".toList)⟩
    [⟨"b".toList, .table (.fromRaw "u".toList)⟩] _ _ rfl rfl).2
      ⟨fun c hc d hd => ?_, fun c hc => ?_⟩⟩
  · simp only [List.mem_cons, List.not_mem_nil, or_false] at hc hd
    rcases hc with rfl | rfl <;> rcases hd with rfl | rfl <;> decide
  · simp only [List.mem_cons, List.not_mem_nil, or_false] at hc
    rcases hc with rfl | rfl <;> decide

/-- `a` and `A` are one name to the server. -/
theorem caseless_duplicate_accepted : ∃ b₀ b,
    withCte "a".toList (.table (.fromRaw "t".toList)) = .ok b₀ ∧
    chain WithCall.apply [⟨"A".toList, .table (.fromRaw "u".toList)⟩] b₀ = some b ∧
    ¬ CtesDistinct [⟨"a".toList, .table (.fromRaw "t".toList)⟩,
      ⟨"A".toList, .table (.fromRaw "u".toList)⟩] b :=
  ⟨_, _, rfl, rfl, fun h => absurd h.2.1 (by decide)⟩

end IronQuery
