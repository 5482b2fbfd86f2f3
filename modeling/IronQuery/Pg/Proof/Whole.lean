import IronQuery.Pg.Proof.Lexemes
import IronQuery.Pg.Proof.Statements

/-!
# Texts that are put together from whole ones

`Whole x`: no token of `x` goes on into what stands behind it. Whole texts with connectors between
them are read piece by piece: a list as its entries (`reads_intercalate`), clauses as clauses
(`Trails.clauses`), in whatever white space the connectors have.
-/

namespace Pg

section
variable {x y k : Text} {ts us ks : List Token}

/-! ## Whole texts -/

/-- No token of the text goes on into what stands behind it. -/
def Whole (x : Text) : Prop := Reads lex x (lex x)

theorem Reads.lex_eq (h : Reads lex x ts) : lex x = ts := h.view_eq lex_nil

theorem Reads.whole (h : Reads lex x ts) : Whole x := by
  rw [Whole, h.lex_eq]
  exact h

theorem Whole.nil : Whole [] := fun _ _ _ => rfl

theorem IsTerm.opening (h : IsTerm ts) : Opening ts := by
  obtain ⟨t, r, rfl⟩ := List.exists_cons_of_ne_nil h.nonempty
  exact ⟨t, r, rfl, h.head t rfl⟩

/-- A text with tokens is not empty. -/
theorem Opening.text (h : Opening (lex x)) : x ≠ [] := by
  rintro rfl
  exact h.ne_nil lex_nil

/-! ## What stands behind a text -/

/-- `x` may stand behind any text that is read, and is read as `ts` there. -/
def Trails (x : Text) (ts : List Token) : Prop :=
  ∀ y us, Reads lex y us → Reads lex (y ++ x) (us ++ ts)

theorem Trails.nil : Trails [] [] := fun y us h => by
  rwa [List.append_nil, List.append_nil]

theorem Trails.append (hx : Trails x ts) (hy : Trails y us) : Trails (x ++ y) (ts ++ us) := by
  intro z vs hz
  rw [← List.append_assoc, ← List.append_assoc]
  exact hy _ _ (hx _ _ hz)

theorem Reads.trails (hx : Reads lex x ts) (hy : Trails y us) : Reads lex (x ++ y) (ts ++ us) :=
  hy x ts hx

theorem Reads.trailing (hl : leads x = true) (h : Reads lex x ts) : Trails x ts :=
  fun _ _ hy => hy.append hl h

/-- A piece with white space or a bracket at its end, which may stand behind any text. -/
structure Connector (k : Text) (ks : List Token) : Prop where
  leads : ∀ x, leads (k ++ x) = true
  opens : Opens lex k ks

theorem Connector.trails (hk : Connector k ks) (hx : Reads lex x ts) : Trails (k ++ x) (ks ++ ts) :=
  fun _ _ hy => hy.append (hk.leads x) (hk.opens.reads hx)

theorem connector_const (h : ∀ x, leads (k ++ x) = true) (ho : isOpener k = true)
    (he : lex k = ks) : Connector k ks := ⟨h, opens_const ho he⟩

/-! ## Lists and clauses -/

theorem reads_intercalate {sep : Text} (hs : Connector sep [.punct ',']) :
    {xs : List Text} → (∀ x ∈ xs, Whole x) → Reads lex (sep.intercalate xs) (csv (xs.map lex))
  | [], _ => Whole.nil
  | [x], h => by
    rw [List.intercalate_singleton]
    exact h x (.head _)
  | x :: y :: xs, h => by
    rw [List.intercalate_cons_cons, List.append_assoc]
    have hrest : ∀ z ∈ y :: xs, Whole z := fun z hz => h z (.tail _ hz)
    exact (h x (.head _)).trails (hs.trails (reads_intercalate hs hrest))

theorem csv_opening {l : List (List Token)} (hne : l ≠ []) (h : ∀ ts ∈ l, Opening ts) :
    Opening (csv l) := by
  obtain ⟨ts, l, rfl⟩ := List.exists_cons_of_ne_nil hne
  have hts := h ts (.head _)
  cases l with
  | nil => exact hts
  | cons us l => exact hts.append _

theorem Trails.clauses {c : List Key × Option (List Token)}
    {l : List (List Key × Option (List Token))} (hx : Trails x (clauseTokens [c]))
    (hy : Trails y (clauseTokens l)) : Trails (x ++ y) (clauseTokens (c :: l)) := by
  have : clauseTokens ([c] ++ l) = clauseTokens [c] ++ clauseTokens l := List.flatMap_append
  rw [← List.singleton_append, this]
  exact hx.append hy

/-- A clause behind its key words. -/
theorem Connector.clause {m : List Key} (hk : Connector k (m.map Key.token))
    (hx : Reads lex x ts) : Trails (k ++ x) (clauseTokens [(m, some ts)]) := by
  have : clauseTokens [(m, some ts)] = m.map Key.token ++ ts := by simp [clauseTokens]
  rw [this]
  exact hk.trails hx

/-- The tokens of a clause that is kept as text, which is empty if the clause is not there. -/
def keptTokens (x : Text) : Option (List Token) := if x.isEmpty then none else some (lex x)

theorem Connector.kept {m : List Key} (hk : Connector k (m.map Key.token)) (hx : Whole x) :
    Trails (if x.isEmpty then [] else k ++ x) (clauseTokens [(m, keptTokens x)]) := by
  unfold keptTokens
  split
  · exact .nil
  · exact hk.clause hx

end

end Pg
