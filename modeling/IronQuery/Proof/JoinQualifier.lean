import IronQuery.Proof.Setters

/-!
# The qualifier of a join

`join_qualifier`: a run of `On` and `Using` that does not throw leaves at most one qualifier, that of
one call, and none on a `NATURAL` join. On a `CROSS` join it leaves none if and only if no call of
the run has a text: the setters guard the `NATURAL` kinds alone.
-/

namespace IronQuery

namespace JoinCall

/-- What the call sets its clause to. -/
def text : JoinCall → Text
  | on exp => exp.toString
  | .using columns => joinCsv (columns.map Expr.toString)

/-- What `ToString` writes for the call. -/
def written : JoinCall → Text
  | on exp => if exp.toString.isEmpty then [] else " ON ".toList ++ exp.toString
  | .using columns =>
    let list := joinCsv (columns.map Expr.toString)
    if list.isEmpty then [] else " USING (".toList ++ list ++ ")".toList

/-- The call sets a qualifier. -/
def qualifies (c : JoinCall) : Bool := !c.text.isEmpty

end JoinCall

/-- SQL's grammar admits no qualifier. -/
def JoinKind.unqualified (kind : JoinKind) : Bool := kind == .Cross || kind.isNatural

/-- A qualifier stands where SQL's grammar admits one: the text is the join's own and what the
calls write, at most one call writes anything, and none does where the kind forbids it. -/
structure Qualified (kind : JoinKind) (calls : List JoinCall) (j s : Join) : Prop where
  text : s.toString = j.toString ++ calls.flatMap JoinCall.written
  once : (calls.filter JoinCall.qualifies).length ≤ 1
  none : kind.unqualified = true → s.toString = j.toString

/-! ## Steps -/

/-- Neither clause is set. -/
def Join.bare (s : Join) : Bool := s.on_.isEmpty && s.using_.isEmpty

theorem toString_bare {s : Join} (h : s.bare = true) :
    s.toString = s.a_ ++ " ".toList ++ s.kind_ ++ " JOIN ".toList ++ s.b_ := by
  simp only [Join.bare, Bool.and_eq_true] at h
  simp only [Join.toString, h.1, h.2, Bool.not_true, Bool.false_eq_true, if_false]

/-- A call that finds no clause set puts its own behind the text. -/
theorem toString_put {s : Join} (h : s.bare = true) (c : JoinCall) :
    (c.put s).toString = s.toString ++ c.written := by
  have hbare := toString_bare h
  obtain ⟨a, b, kind, natural, on, list⟩ := s
  simp only [Join.bare, Bool.and_eq_true, List.isEmpty_iff] at h
  obtain ⟨rfl, rfl⟩ := h
  rw [hbare]
  cases c with
  | on exp =>
    by_cases he : exp.toString = []
    · simp [JoinCall.put, Join.toString, JoinCall.written, he]
    · simp [JoinCall.put, Join.toString, JoinCall.written, he]
  | «using» columns =>
    by_cases he : joinCsv (columns.map Expr.toString) = []
    · simp [JoinCall.put, Join.toString, JoinCall.written, he]
    · simp [JoinCall.put, Join.toString, JoinCall.written, he]

/-- **What an accepted call does**: it finds no clause set, and sets its own. -/
theorem joinCall_step {c : JoinCall} {s s' : Join} (h : (c.apply s).accepted = some s') :
    s.natural_ = false ∧ s.bare = true ∧ s' = c.put s := by
  obtain ⟨hbad, hblocked, hput⟩ := join_setter.put_of_accepted h
  cases c with
  | on exp =>
    simp only [JoinCall.bad] at hbad
    split at hbad
    · cases hbad
    · rename_i hn
      split at hbad
      · cases hbad
      · rename_i hu
        have hon : s.on_.isEmpty = true := by
          simpa [JoinCall.blocked, JoinCall.clause, JoinClause.isSet, isSet] using hblocked
        refine ⟨by simpa using hn, ?_, hput⟩
        simp only [Join.bare, hon, Bool.true_and]
        simpa using hu
  | «using» columns =>
    simp only [JoinCall.bad] at hbad
    split at hbad
    · cases hbad
    · rename_i hn
      split at hbad
      · cases hbad
      · rename_i ho
        have husing : s.using_.isEmpty = true := by
          simpa [JoinCall.blocked, JoinCall.clause, JoinClause.isSet, isSet] using hblocked
        refine ⟨by simpa using hn, ?_, hput⟩
        simp only [Join.bare, husing, Bool.and_true]
        simpa using ho

theorem put_bare {s : Join} (h : s.bare = true) (c : JoinCall) :
    (c.put s).bare = !c.qualifies := by
  simp only [Join.bare, Bool.and_eq_true] at h
  cases c with
  | on exp => simp only [JoinCall.put, Join.bare, h.2, Bool.and_true, JoinCall.qualifies,
      JoinCall.text, Bool.not_not]
  | «using» columns => simp only [JoinCall.put, Join.bare, h.1, Bool.true_and, JoinCall.qualifies,
      JoinCall.text, Bool.not_not]

/-! ## Runs -/

/-- Behind a call that sets a qualifier no call is accepted. -/
theorem chain_set {calls : List JoinCall} {s s' : Join} (hs : s.bare = false)
    (h : chain JoinCall.apply calls s = some s') : calls = [] := by
  cases calls with
  | nil => rfl
  | cons c calls =>
    obtain ⟨t, ht, -⟩ := Option.bind_eq_some_iff.1 h
    rw [(joinCall_step ht).2.1] at hs
    cases hs

/-- What a run leaves. -/
theorem chain_join {calls : List JoinCall} {s s' : Join} (hs : s.bare = true)
    (h : chain JoinCall.apply calls s = some s') :
    s'.toString = s.toString ++ calls.flatMap JoinCall.written ∧
      (calls.filter JoinCall.qualifies).length ≤ 1 := by
  induction calls generalizing s with
  | nil =>
    cases h
    simp
  | cons c calls ih =>
    obtain ⟨t, ht, hrest⟩ := Option.bind_eq_some_iff.1 h
    obtain ⟨-, -, rfl⟩ := joinCall_step ht
    have hbare := put_bare hs c
    have htext := toString_put hs c
    cases hq : c.qualifies with
    | false =>
      rw [hq] at hbare
      obtain ⟨h1, h2⟩ := ih hbare hrest
      rw [List.filter_cons_of_neg (by simp [hq])]
      exact ⟨by rw [h1, htext, List.flatMap_cons, List.append_assoc], h2⟩
    | true =>
      rw [hq] at hbare
      obtain rfl := chain_set hbare hrest
      cases hrest
      rw [htext, List.filter_cons_of_pos hq]
      simp

theorem chain_natural {calls : List JoinCall} {s s' : Join} (hs : s.natural_ = true)
    (h : chain JoinCall.apply calls s = some s') : calls = [] := by
  cases calls with
  | nil => rfl
  | cons c calls =>
    obtain ⟨t, ht, -⟩ := Option.bind_eq_some_iff.1 h
    rw [(joinCall_step ht).1] at hs
    cases hs

theorem join_new {a b : VirtualTable} {kind : JoinKind} {j : Join}
    (h : Join.new a b kind = .ok j) : j.bare = true ∧ j.natural_ = kind.isNatural := by
  simp only [Join.new, bind_ok, pure_ok] at h
  obtain ⟨_, -, _, -, rfl⟩ := h
  exact ⟨rfl, rfl⟩

theorem written_nil {c : JoinCall} : c.written = [] ↔ c.qualifies = false := by
  cases c with
  | on exp =>
    by_cases he : exp.toString = [] <;>
      simp [JoinCall.written, JoinCall.qualifies, JoinCall.text, he]
  | «using» columns =>
    by_cases he : joinCsv (columns.map Expr.toString) = [] <;>
      simp [JoinCall.written, JoinCall.qualifies, JoinCall.text, he]

/-- **A join carries a qualifier only where SQL admits one, but for a `CROSS` join whose calls have
a text.** -/
theorem join_qualifier {a b : VirtualTable} {kind : JoinKind} {calls : List JoinCall} {j s : Join}
    (hj : Join.new a b kind = .ok j) (h : chain JoinCall.apply calls j = some s) :
    Qualified kind calls j s ↔ (kind = .Cross → ∀ c ∈ calls, c.qualifies = false) := by
  obtain ⟨hbare, hnatural⟩ := join_new hj
  obtain ⟨htext, honce⟩ := chain_join hbare h
  have hnone : s.toString = j.toString ↔ ∀ c ∈ calls, c.qualifies = false := by
    rw [htext, List.append_right_eq_self, List.flatMap_eq_nil_iff]
    exact forall₂_congr fun c _ => written_nil
  constructor
  · exact fun hq hkind => hnone.1 (hq.none (by rw [hkind]; rfl))
  · refine fun hc => ⟨htext, honce, fun hk => hnone.2 ?_⟩
    rcases Bool.or_eq_true _ _ ▸ hk with hcross | hnat
    · exact hc (by simpa using hcross)
    · obtain rfl := chain_natural (hnatural.trans hnat) h
      exact nofun

/-- `t INNER JOIN u ON a`. -/
theorem join_qualifier_inner :
    let j : Join := { a_ := "t".toList, b_ := "u".toList, kind_ := "INNER".toList, natural_ := false }
    let c : JoinCall := .on (.fromRaw "a".toList)
    Qualified .Inner [c] j { j with on_ := "a".toList } :=
  (join_qualifier (a := .table ⟨"t".toList⟩) (b := .table ⟨"u".toList⟩) rfl rfl).2 nofun

/-- A `CROSS` join takes an `ON`. -/
theorem cross_join_qualified :
    let j : Join := { a_ := "t".toList, b_ := "u".toList, kind_ := "CROSS".toList, natural_ := false }
    let c : JoinCall := .on (.fromRaw "a".toList)
    let s := { j with on_ := "a".toList }
    Join.new (.table ⟨"t".toList⟩) (.table ⟨"u".toList⟩) .Cross = .ok j ∧
      chain JoinCall.apply [c] j = some s ∧ s.toString = "t CROSS JOIN u ON a".toList ∧
      ¬ Qualified .Cross [c] j s :=
  ⟨rfl, rfl, by decide, fun h => absurd (h.none rfl) (by decide)⟩

end IronQuery
