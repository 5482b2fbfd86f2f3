import IronQuery.Calls
import IronQuery.Run

/-!
# Runs of a CASE builder

What a run of `When`, `Then` and `Else` calls leaves in the builder (`run_holds`), and what `End`
makes of it (`case_kept`): the branches that the run closed, each with the `Then` that closed it,
and the last `ELSE`. `End` looks at the closed branches only: an open `When` behind them is dropped.
-/

namespace IronQuery

/-! ## What a run says -/

namespace CaseCall

/-- The branches that the calls close, with the `When` open before them. -/
def branches : Option Condition → List CaseCall → List (Condition × Expr)
  | _, [] => []
  | _, when c :: l => branches (some c) l
  | some c, .then r :: l => (c, r) :: branches none l
  | none, .then _ :: l => branches none l
  | p, .else _ :: l => branches p l

/-- The `When` that is open after the calls. -/
def openWhen : Option Condition → List CaseCall → Option Condition
  | p, [] => p
  | _, when c :: l => openWhen (some c) l
  | _, .then _ :: l => openWhen none l
  | p, .else _ :: l => openWhen p l

/-- The result of the last `Else`. -/
def lastElse : Option Expr → List CaseCall → Option Expr
  | e, [] => e
  | _, .else r :: l => lastElse (some r) l
  | e, when _ :: l | e, .then _ :: l => lastElse e l

/-- The conditions of the `When` calls. -/
def conditions : List CaseCall → List Condition
  | [] => []
  | when c :: l => c :: conditions l
  | .then _ :: l | .else _ :: l => conditions l

end CaseCall

def branchText (l : List (Condition × Expr)) : Text := l.flatMap fun p =>
  "WHEN ".toList ++ p.1.toString ++ " THEN ".toList ++ p.2.toString ++ " ".toList

/-- A `CASE` with all its branches and its `ELSE`. -/
def caseText (l : List (Condition × Expr)) (els : Option Expr) : Text :=
  "CASE ".toList ++ branchText l ++
    (match els with
      | some e => "ELSE ".toList ++ e.toString ++ " ".toList
      | none => []) ++ "END".toList

/-- `End` gives one branch for each `When` of the run, in call order and with the `Then` behind it,
and the `ELSE` that was set; it throws if a `When` has no `Then`. -/
def CaseKept (calls : List CaseCall) (b : CaseBuilder) : Prop :=
  (∀ e, b.end = .ok e →
    (CaseCall.branches none calls).map Prod.fst = CaseCall.conditions calls ∧
      e.toString = caseText (CaseCall.branches none calls) (CaseCall.lastElse none calls)) ∧
  ((CaseCall.branches none calls).map Prod.fst ≠ CaseCall.conditions calls →
    ∃ e, b.end = .error e)

/-- No branch was closed (and `End` throws), or none is left open and the `ELSE` has a text. -/
def CaseClosed (calls : List CaseCall) : Prop :=
  CaseCall.branches none calls = [] ∨
    CaseCall.openWhen none calls = none ∧
      ∀ e, CaseCall.lastElse none calls = some e → e.toString ≠ []

/-! ## The state after a run -/

/-- The builder holds the closed branches, the open `When` and the `ELSE`. -/
structure CaseHolds (b : CaseBuilder) (closed : List (Condition × Expr)) (pending : Option Condition)
    (els : Option Expr) : Prop where
  whens : b.whens_ = branchText closed
  hasPending : b.hasPendingWhen_ = pending.isSome
  pendingText : ∀ c, pending = some c → b.pendingWhen_ = c.toString
  els : b.else_ = (els.map Expr.toString).getD []

section
variable {b b' : CaseBuilder} {closed : List (Condition × Expr)} {pending : Option Condition}
  {els : Option Expr}

theorem when_holds {c : Condition} (h : CaseHolds b closed pending els)
    (ha : (b.when c).accepted = some b') : pending = none ∧ CaseHolds b' closed (some c) els := by
  unfold CaseBuilder.when at ha
  split at ha
  · cases ha
  · rename_i hp
    cases ha
    rw [h.hasPending] at hp
    exact ⟨by simpa using hp, h.whens, rfl, fun _ e => by cases e; rfl, h.els⟩

theorem then_holds {r : Expr} (h : CaseHolds b closed pending els)
    (ha : (b.then r).accepted = some b') :
    ∃ c, pending = some c ∧ CaseHolds b' (closed ++ [(c, r)]) none els := by
  unfold CaseBuilder.then at ha
  split at ha
  · cases ha
  · rename_i hp
    cases ha
    rw [h.hasPending, Bool.not_eq_true', Bool.not_eq_false, Option.isSome_iff_exists] at hp
    obtain ⟨c, hc⟩ := hp
    refine ⟨c, hc, ?_, rfl, nofun, h.els⟩
    show b.whens_ ++ ("WHEN ".toList ++ b.pendingWhen_ ++ " THEN ".toList ++ r.toString ++ [' ']) =
      branchText (closed ++ [(c, r)])
    rw [h.whens, h.pendingText c hc, branchText, branchText, List.flatMap_append]
    simp

theorem else_holds {r : Expr} (h : CaseHolds b closed pending els)
    (ha : (b.else r).accepted = some b') : CaseHolds b' closed pending (some r) := by
  cases ha
  exact ⟨h.whens, h.hasPending, h.pendingText, rfl⟩

/-- **A run that does not throw** leaves the branches it closed behind those of before, and each of
its `When` calls is one of them or still open. -/
theorem run_holds {calls : List CaseCall} (h : CaseHolds b closed pending els)
    (hrun : chain CaseCall.apply calls b = some b') :
    CaseHolds b' (closed ++ CaseCall.branches pending calls) (CaseCall.openWhen pending calls)
      (CaseCall.lastElse els calls) ∧
    (CaseCall.branches pending calls).map Prod.fst ++ (CaseCall.openWhen pending calls).toList =
      pending.toList ++ CaseCall.conditions calls := by
  induction calls generalizing b closed pending els with
  | nil =>
    cases hrun
    exact ⟨by rwa [CaseCall.branches, List.append_nil], by simp [CaseCall.branches,
      CaseCall.openWhen, CaseCall.conditions]⟩
  | cons call calls ih =>
    obtain ⟨b₁, ha, hrest⟩ := Option.bind_eq_some_iff.1 hrun
    cases call with
    | when c =>
      obtain ⟨rfl, h₁⟩ := when_holds h ha
      exact ih h₁ hrest
    | «then» r =>
      obtain ⟨c, rfl, h₁⟩ := then_holds h ha
      obtain ⟨h₂, hc⟩ := ih h₁ hrest
      rw [List.append_assoc] at h₂
      exact ⟨h₂, congrArg (c :: ·) hc⟩
    | «else» r =>
      obtain ⟨h₂, hc⟩ := ih (else_holds h ha) hrest
      refine ⟨?_, ?_⟩
      · cases pending <;> exact h₂
      · cases pending <;> exact hc

end

/-! ## `End` -/

theorem branchText_eq_nil {l : List (Condition × Expr)} : branchText l = [] ↔ l = [] := by
  cases l with
  | nil => simp [branchText]
  | cons p l => simp [branchText]

/-- **`End`** leaves out an `ELSE` whose text is empty. -/
theorem end_holds {b : CaseBuilder} {closed : List (Condition × Expr)} {pending : Option Condition}
    {els : Option Expr} (h : CaseHolds b closed pending els) :
    (closed = [] → ∃ e, b.end = .error e) ∧
    (closed ≠ [] → ∃ e, b.end = .ok e ∧
      (e.toString = caseText closed els ↔ ∀ x, els = some x → x.toString ≠ [])) := by
  have hempty : b.whens_.isEmpty = true ↔ closed = [] := by
    rw [h.whens, List.isEmpty_iff, branchText_eq_nil]
  constructor
  · intro hc
    unfold CaseBuilder.end
    rw [if_pos (hempty.2 hc)]
    exact ⟨_, rfl⟩
  · intro hc
    unfold CaseBuilder.end
    rw [if_neg (fun he => hc (hempty.1 he))]
    refine ⟨_, rfl, ?_⟩
    show _ ++ "END".toList = _ ↔ _
    rw [h.els, h.whens]
    cases els with
    | none => simp [caseText]
    | some x =>
      cases hx : x.toString with
      | nil => simp [caseText, hx]
      | cons c s => simp [caseText, hx]

theorem case_new : CaseHolds case [] none none := ⟨rfl, rfl, nofun, rfl⟩

/-- **No branch is lost** in a run that throws nowhere if and only if it leaves no `When` open
behind a closed branch and its `ELSE` has a text. -/
theorem case_kept (calls : List CaseCall) (b : CaseBuilder)
    (hrun : chain CaseCall.apply calls case = some b) : CaseKept calls b ↔ CaseClosed calls := by
  obtain ⟨h, hconds⟩ := run_holds case_new hrun
  rw [List.nil_append] at h
  obtain ⟨hthrow, hend⟩ := end_holds h
  have hopen : (CaseCall.branches none calls).map Prod.fst = CaseCall.conditions calls ↔
      CaseCall.openWhen none calls = none := by
    rw [Option.toList_none, List.nil_append] at hconds
    rw [← hconds]
    cases CaseCall.openWhen none calls <;> simp
  rw [CaseKept, CaseClosed, hopen]
  by_cases hnil : CaseCall.branches none calls = []
  · obtain ⟨e, he⟩ := hthrow hnil
    rw [he]
    exact ⟨fun _ => .inl hnil, fun _ => ⟨nofun, fun _ => ⟨e, rfl⟩⟩⟩
  · obtain ⟨e, he, htext⟩ := hend hnil
    rw [he, ← htext]
    constructor
    · rintro ⟨hall, -⟩
      exact .inr (hall e rfl)
    · rintro (h | h)
      · exact absurd h hnil
      · refine ⟨fun e' he' => by cases he'; exact h, fun ho => absurd (hopen.2 h.1) ho⟩

/-- `CASE WHEN x THEN 1 ELSE 2 END`, the `Else` set in the middle. -/
def closedCalls : List CaseCall :=
  [.when (.fromRaw "x".toList), .else (.fromInteger 2), .then (.fromInteger 1)]

theorem case_kept_closed : ∃ b, chain CaseCall.apply closedCalls case = some b ∧
    CaseKept closedCalls b :=
  ⟨_, rfl, (case_kept closedCalls _ rfl).2 (.inr ⟨rfl, fun e he => by
    cases he
    decide⟩)⟩

/-- The `When` of `y` has no `Then`, and `End` drops it. -/
theorem openWhen_dropped : ∃ b,
    chain CaseCall.apply [.when (.fromRaw "x".toList), .then (.fromInteger 1),
      .when (.fromRaw "y".toList)] case = some b ∧
    b.end = .ok (.fromRaw "CASE WHEN x THEN 1 END".toList) ∧
    ¬ CaseKept [.when (.fromRaw "x".toList), .then (.fromInteger 1),
      .when (.fromRaw "y".toList)] b := by
  refine ⟨_, rfl, rfl, fun h => ?_⟩
  have := (h.1 _ rfl).1
  cases this

end IronQuery
