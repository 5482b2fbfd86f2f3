import IronQuery.Pg.Boolean
import IronQuery.Pg.Tokens

/-!
# Cutting and reading boolean expressions

* `cut_junct`, `cut_not`, `cut_bracketed`: an expression in front of `AND` or `OR`, behind `NOT`, and
  in brackets is cut as it is on its own.
* `Spine.or_eq`, `Spine.and_eq`, `Spine.not_eq`: what is read of two expressions with an operator
  between them is that operator over what is read of the two if and only if no looser operator, and
  on the right no equally loose one, stands in them.
* `readBoolean_eq`: the bound on the depth of brackets does not matter.
-/

namespace Pg

/-! ## The last operator -/

section
variable {τ : Type} {a b m n : Formula τ} {o : Option (Formula τ)} {r q : List (Junct × Formula τ)}

theorem Formula.size_pos (a : Formula τ) : 0 < a.size := by
  cases a <;> exact Nat.succ_pos _

theorem climb_size (r : List (Junct × Formula τ)) (o : Option (Formula τ)) (a : Formula τ) :
    (climb r o a).size = (disj o a).size + (r.map fun p => p.2.size + 1).sum := by
  induction r generalizing o a with
  | nil => rfl
  | cons p r ih =>
    obtain ⟨j, b⟩ := p
    rw [List.map_cons, List.sum_cons]
    cases j with
    | and =>
      rw [climb, ih]
      cases o <;> simp only [disj, Formula.size] <;> omega
    | or =>
      rw [climb, ih]
      simp only [disj, Formula.size]
      omega

theorem climb_or (r q : List (Junct × Formula τ)) (o : Option (Formula τ)) (a b : Formula τ) :
    climb (r ++ (.or, b) :: q) o a = climb q (some (climb r o a)) b := by
  induction r generalizing o a with
  | nil => rfl
  | cons p r ih =>
    obtain ⟨j, c⟩ := p
    cases j <;> exact ih _ _

/-- Without `OR` the alternatives to the left stay where they are. -/
theorem climb_disj (h : Junct.or ∉ r.map Prod.fst) : climb r o a = disj o (climb r none a) := by
  induction r generalizing a with
  | nil => rfl
  | cons p r ih =>
    obtain ⟨j, b⟩ := p
    rw [List.map_cons, List.mem_cons, not_or] at h
    cases j with
    | and => exact ih h.2
    | or => exact absurd rfl h.1

theorem climb_and (h : Junct.or ∉ r.map Prod.fst) :
    climb (r ++ [(.and, b)]) none a = .and (climb r none a) b := by
  induction r generalizing a with
  | nil => rfl
  | cons p r ih =>
    obtain ⟨j, c⟩ := p
    rw [List.map_cons, List.mem_cons, not_or] at h
    cases j with
    | and => exact ih h.2
    | or => exact absurd rfl h.1

/-- The operands behind the last `OR`. -/
theorem last_or (h : Junct.or ∈ r.map Prod.fst) :
    ∃ r' b q, r = r' ++ (.or, b) :: q ∧ Junct.or ∉ q.map Prod.fst := by
  induction r with
  | nil => cases h
  | cons p r ih =>
    by_cases hr : Junct.or ∈ r.map Prod.fst
    · obtain ⟨r', b, q, rfl, hq⟩ := ih hr
      exact ⟨p :: r', b, q, rfl, hq⟩
    · obtain ⟨j, b⟩ := p
      rw [List.map_cons, List.mem_cons] at h
      obtain rfl := h.resolve_right hr
      exact ⟨[], b, r, rfl, hr⟩

/-- With an `OR` the formula is one. -/
theorem climb_has_or (h : Junct.or ∈ r.map Prod.fst) (o : Option (Formula τ)) (a : Formula τ) :
    ∃ m n, climb r o a = .or m n := by
  obtain ⟨r', b, q, rfl, hq⟩ := last_or h
  exact ⟨_, _, (climb_or ..).trans (climb_disj hq)⟩

/-- With no operator but `AND` it is a conjunction. -/
theorem climb_has_and (h : Junct.or ∉ r.map Prod.fst) (hr : r ≠ []) (a : Formula τ) :
    ∃ m n, climb r none a = .and m n := by
  rcases List.eq_nil_or_concat r with rfl | ⟨r', ⟨j, b⟩, rfl⟩
  · exact absurd rfl hr
  · rw [List.concat_eq_append, List.map_append, List.mem_append, not_or] at h
    cases j with
    | and => exact ⟨_, _, List.concat_eq_append .. ▸ climb_and h.1⟩
    | or => exact absurd (.head _) h.2

/-- Two operands with `OR` between them are its sides unless there is an `OR` in the right one. -/
theorem climb_or_eq (hn : n.size = (climb q none b).size) :
    climb (r ++ (.or, b) :: q) none a = .or m n ↔
      Junct.or ∉ q.map Prod.fst ∧ climb r none a = m ∧ climb q none b = n := by
  rw [climb_or]
  by_cases h : Junct.or ∈ q.map Prod.fst
  · refine iff_of_false (fun he => ?_) fun hc => hc.1 h
    -- the right side of the root is behind the last `OR`, and too short
    obtain ⟨q', c, q'', rfl, hq⟩ := last_or h
    rw [climb_or, climb_disj hq] at he hn
    obtain rfl := (Formula.or.inj he).2
    simp only [disj, Formula.size] at hn
    omega
  · rw [climb_disj h, disj, Formula.or.injEq, and_iff_right h]

/-- With `AND` between them they are, if there is no `OR` in the left and nothing in the right. -/
theorem climb_and_eq (hn : n.size = (climb q none b).size) :
    climb (r ++ (.and, b) :: q) none a = .and m n ↔
      (Junct.or ∉ r.map Prod.fst ∧ q.map Prod.fst = []) ∧ climb r none a = m ∧
        climb q none b = n := by
  by_cases h : Junct.or ∈ (r ++ (.and, b) :: q).map Prod.fst
  · obtain ⟨x, y, hxy⟩ := climb_has_or h none a
    rw [hxy]
    refine iff_of_false (fun he => by cases he) fun hc => ?_
    rw [List.map_append, List.map_cons, hc.1.2, List.mem_append, List.mem_singleton] at h
    exact h.elim hc.1.1 fun he => by cases he
  · have hr : Junct.or ∉ r.map Prod.fst := fun hm => h (by simp [List.mem_append, hm])
    rcases List.eq_nil_or_concat q with rfl | ⟨q', ⟨j, c⟩, rfl⟩
    · rw [climb_and hr, Formula.and.injEq]
      exact (and_iff_right ⟨hr, rfl⟩).symm
    · have hj : j = .and := by
        cases j with
        | and => rfl
        | or => exact absurd (by simp) h
      subst hj
      rw [List.concat_eq_append, ← List.cons_append, ← List.append_assoc, List.map_append,
        List.mem_append, not_or] at h
      rw [List.concat_eq_append, ← List.cons_append, ← List.append_assoc, climb_and h.1]
      refine iff_of_false (fun he => ?_) fun hc => absurd hc.1.2 (by simp)
      obtain rfl := (Formula.and.inj he).2
      rw [List.concat_eq_append, climb_size, List.map_append, List.sum_append] at hn
      simp only [List.map_cons, List.map_nil, List.sum_cons] at hn
      omega

theorem climb_not_eq :
    climb r none (.not a) = .not m ↔ r.map Prod.fst = [] ∧ climb r none a = m := by
  by_cases h : Junct.or ∈ r.map Prod.fst
  · obtain ⟨x, y, hxy⟩ := climb_has_or h none (.not a)
    rw [hxy]
    exact iff_of_false (fun he => by cases he) fun hc => by rw [hc.1] at h; cases h
  · by_cases hr : r = []
    · subst hr
      simp [climb, disj]
    · obtain ⟨x, y, hxy⟩ := climb_has_and h hr (.not a)
      rw [hxy]
      exact iff_of_false (fun he => by cases he) fun hc => hr (List.map_eq_nil_iff.1 hc.1)

end

/-! ## Expressions that were cut -/

namespace Spine

variable {τ : Type} {op : List Token → Formula τ} {s u : Spine} {m n : Formula τ}

theorem formula_join (j : Junct) : (s.join j u).formula op =
    climb ((s.rest.map fun p => (p.1, p.2.formula op)) ++ (j, u.first.formula op) ::
      u.rest.map fun p => (p.1, p.2.formula op)) none (s.first.formula op) := by
  rw [formula, join, List.map_append, List.map_cons]

theorem formula_negate : s.negate.formula op =
    climb (s.rest.map fun p => (p.1, p.2.formula op)) none (.not (s.first.formula op)) := by
  rw [formula, negate, Factor.formula, Function.iterate_succ_apply']
  rfl

theorem juncts_eq (op : List Token → Formula τ) (s : Spine) :
    (s.rest.map fun p => (p.1, p.2.formula op)).map Prod.fst = s.juncts := by
  rw [List.map_map]
  rfl

theorem size_join (j : Junct) :
    ((s.join j u).formula op).size = (s.formula op).size + (u.formula op).size + 1 := by
  rw [formula_join, formula, formula, climb_size, climb_size, climb_size, List.map_append,
    List.sum_append, List.map_cons, List.sum_cons]
  simp only [disj]
  omega

theorem size_negate : (s.negate.formula op).size = (s.formula op).size + 1 := by
  rw [formula_negate, formula, climb_size, climb_size]
  simp only [disj, Formula.size]
  omega

theorem or_eq (hn : n.size = (u.formula op).size) : (s.join .or u).formula op = .or m n ↔
    Junct.or ∉ u.juncts ∧ s.formula op = m ∧ u.formula op = n := by
  rw [formula_join, climb_or_eq hn, juncts_eq]
  rfl

theorem and_eq (hn : n.size = (u.formula op).size) : (s.join .and u).formula op = .and m n ↔
    (Junct.or ∉ s.juncts ∧ u.juncts = []) ∧ s.formula op = m ∧ u.formula op = n := by
  rw [formula_join, climb_and_eq hn, juncts_eq, juncts_eq]
  rfl

theorem not_eq : s.negate.formula op = .not m ↔ s.juncts = [] ∧ s.formula op = m := by
  rw [formula_negate, climb_not_eq, juncts_eq]
  rfl

/-- Nothing stands beside a negation. -/
theorem juncts_of_not (h : s.formula op = .not m) : s.juncts = [] := by
  rw [← juncts_eq op, List.map_eq_nil_iff]
  by_contra hr
  by_cases ho : Junct.or ∈ (s.rest.map fun p => (p.1, p.2.formula op)).map Prod.fst
  · obtain ⟨x, y, hxy⟩ := climb_has_or ho none (s.first.formula op)
    cases hxy.symm.trans h
  · obtain ⟨x, y, hxy⟩ := climb_has_and ho hr (s.first.formula op)
    cases hxy.symm.trans h

/-- No `OR` stands beside a conjunction. -/
theorem juncts_of_and (h : s.formula op = .and m n) : Junct.or ∉ s.juncts := by
  rw [← juncts_eq op]
  intro ho
  obtain ⟨x, y, hxy⟩ := climb_has_or ho none (s.first.formula op)
  cases hxy.symm.trans h

end Spine

/-! ## Cutting -/

section
variable {c c' d : Cursor} {t : Token} {ts us : List Token} {s : Spine} {m : Move} {j : Junct}

theorem cut_cons (h : cut c (t :: ts) = some s) :
    ∃ m d u, c.step t = some (m, d) ∧ cut d ts = some u ∧ s = m.apply t u := by
  obtain ⟨⟨m, d⟩, hstep, h⟩ := Option.bind_eq_some_iff.1 h
  obtain ⟨u, hu, rfl⟩ := Option.map_eq_some_iff.1 h
  exact ⟨m, d, u, hstep, hu, rfl⟩

theorem cut_of_step (h : c.step t = some (m, d)) :
    cut c (t :: ts) = (cut d ts).map (m.apply t) := by
  rw [cut, h]
  rfl

theorem done_iff : c.done = true ↔
    c.groups = [] ∧ c.pending = 0 ∧ c.dotted = false ∧ c.fresh = false := by
  simp [Cursor.done, and_assoc]

theorem role_ne {r : Role} (ht : t.role = r) (hr : r ≠ .foreign) : t ≠ .unterminated := by
  rintro rfl
  exact hr ht.symm

/-- Where an expression may end, `AND` and `OR` join it to the next one. -/
theorem step_junct (hc : c.done = true) (ht : t.role = .junct j) :
    c.step t = some (.junct j, {}) := by
  obtain ⟨hg, hp, hd, hf⟩ := done_iff.1 hc
  have hrole : c.role t = .junct j := by rw [Cursor.role, hd, ← ht]; rfl
  rw [Cursor.step, if_neg (role_ne ht (by simp)), Cursor.turn, hg, hrole]
  cases j <;> simp [Cursor.outside, hp, hf, Cursor.past]

/-- **An expression in front of `AND` or `OR` is cut as it is on its own.** -/
theorem cut_junct (ht : t.role = .junct j) (h : cut c ts = some s) :
    cut c (ts ++ t :: us) = (cut {} us).map (s.join j) := by
  induction ts generalizing c s with
  | nil =>
    rw [cut, Option.ite_none_right_eq_some] at h
    obtain ⟨hc, hs⟩ := h
    cases hs
    exact cut_of_step (step_junct hc ht)
  | cons x ts ih =>
    obtain ⟨m, d, u, hstep, hu, rfl⟩ := cut_cons h
    rw [List.cons_append, cut_of_step hstep, ih hu, Option.map_map]
    cases m <;> rfl

theorem cut_not (ht : t.role = .not) : cut {} (t :: ts) = (cut {} ts).map .negate := by
  refine cut_of_step (m := .not) ?_
  rw [Cursor.step, if_neg (role_ne ht (by simp)), Cursor.turn, show Cursor.role {} t = .not from ht]
  rfl

/-! ### In brackets -/

/-- What is open for a reader who stands in one more bracket: it hides what `CASE`s are open. -/
def under (gs : List Group) : List Group := gs.filter (· ≠ .case) ++ [.round]

theorem under_cons (gs : List Group) : ∃ g gs', under gs = g :: gs' ∧ g ≠ .case := by
  rw [under]
  cases h : gs.filter (· ≠ .case) with
  | nil => exact ⟨.round, [], rfl, by decide⟩
  | cons g gs' =>
    have hg : g ∈ gs.filter (· ≠ .case) := h ▸ .head _
    exact ⟨g, _, rfl, by simpa using (List.mem_filter.1 hg).2⟩

theorem under_case (gs : List Group) : under (.case :: gs) = under gs := rfl

theorem under_bracket {g : Group} (hg : g ≠ .case) (gs : List Group) :
    under (g :: gs) = g :: under gs := by
  rw [under, List.filter_cons_of_pos (by simpa using hg)]
  rfl

theorem hides_iff {g h : Group} (hg : g ≠ .case) : g.hides h = true ↔ h = .case := by
  cases g with
  | case => exact absurd rfl hg
  | round | square => exact beq_iff_eq

/-- In brackets a token opens and closes what it does without them. -/
theorem nest_under {g : Group} {gs gs' : List Group} {r : Role} (h : nest g gs r = some gs') :
    ∃ g' us, under (g :: gs) = g' :: us ∧ nest g' us r = some (under gs') := by
  by_cases hg : g = .case
  · subst hg
    obtain ⟨g', us, hu, hg'⟩ := under_cons gs
    refine ⟨g', us, hu, ?_⟩
    cases r with
    | opening k =>
      cases h
      rw [nest, ← hu]
      by_cases hk : k = .case
      · rw [if_pos ((hides_iff hg').2 hk), hk]
        rfl
      · rw [if_neg (mt (hides_iff hg').1 hk), ← under_case, ← under_bracket hk]
        rfl
    | closing k =>
      rw [nest, if_neg (by simp [Group.hides]), Option.ite_none_right_eq_some] at h
      obtain ⟨rfl, h⟩ := h
      cases h
      rw [nest, if_pos ((hides_iff hg').2 rfl), hu]
    | _ =>
      cases h
      rw [under_case, hu]
      rfl
  · refine ⟨g, under gs, under_bracket hg gs, ?_⟩
    cases r with
    | opening k =>
      cases h
      rw [nest]
      by_cases hk : k = .case
      · rw [if_pos ((hides_iff hg).2 hk), if_pos ((hides_iff hg).2 hk), under_bracket hg]
      · rw [if_neg (mt (hides_iff hg).1 hk), if_neg (mt (hides_iff hg).1 hk), under_bracket hk,
          under_bracket hg]
    | closing k =>
      rw [nest] at h ⊢
      split at h
      · cases h
        rw [if_pos ‹_›, under_bracket hg]
      · rw [Option.ite_none_right_eq_some] at h
        obtain ⟨rfl, h⟩ := h
        cases h
        rw [if_neg ‹_›, if_pos rfl]
    | _ =>
      cases h
      rw [under_bracket hg]
      rfl

theorem turn_under {r : Role} (h : c.turn r = some (m, d)) :
    ∃ g gs, under c.groups = g :: gs ∧ nest g gs r = some (under d.groups) := by
  cases hc : c.groups with
  | nil =>
    rw [Cursor.turn, hc] at h
    refine ⟨.round, [], rfl, ?_⟩
    cases r with
    | opening g =>
      cases h
      cases g <;> rfl
    | closing | foreign => cases h
    | junct j =>
      cases j <;> simp only [Cursor.outside] at h <;> repeat' split at h
      all_goals cases h
      all_goals simp [nest, under, hc]
    | _ =>
      simp only [Cursor.outside] at h
      repeat' split at h
      all_goals cases h; simp [nest, under, hc]
  | cons g gs =>
    rw [Cursor.turn, hc] at h
    obtain ⟨gs', hn, he⟩ := Option.map_eq_some_iff.1 h
    cases he
    exact nest_under hn

theorem punctRole_ne (x : Char) : ¬ ((punctRoles.lookup x).getD .foreign = .not ∨
    ∃ j, (punctRoles.lookup x).getD .foreign = .junct j) := by
  have key (l : List (Char × Role)) (hl : ∀ p ∈ l, ¬ (p.2 = .not ∨ ∃ j, p.2 = .junct j)) :
      ¬ ((l.lookup x).getD .foreign = .not ∨ ∃ j, (l.lookup x).getD .foreign = .junct j) := by
    induction l with
    | nil => simp
    | cons p l ih =>
      rw [List.lookup_cons]
      cases x == p.1
      · exact ih fun p hp => hl p (.tail _ hp)
      · exact hl p (.head _)
  exact key _ (by simp [punctRoles])

/-- `AND`, `OR` and `NOT` are words, and not behind a point. -/
theorem loose_role (h : c.role t = .not ∨ ∃ j, c.role t = .junct j) :
    c.dotted = false ∧ t.isWord = true := by
  unfold Cursor.role at h
  split at h
  · simp at h
  · rename_i hd
    have hw : t.isWord = true := by
      cases t with
      | word => rfl
      | punct x => exact absurd h (punctRole_ne x)
      | _ => rcases h with h | ⟨j, h⟩ <;> cases h
    exact ⟨by simpa [hw] using hd, hw⟩

theorem turn_loose {r : Role} (h : c.turn r = some (m, d)) (hm : m ≠ .part) :
    (r = .not ∨ ∃ j, r = .junct j) ∧ (d = c ∨ d = {}) := by
  unfold Cursor.turn at h
  split at h
  · cases r with
    | not =>
      cases h
      exact ⟨.inl rfl, .inl rfl⟩
    | junct j =>
      refine ⟨.inr ⟨j, rfl⟩, .inr ?_⟩
      cases j <;> simp only [Cursor.outside] at h <;> repeat' split at h
      all_goals cases h
      all_goals first | rfl | exact absurd rfl hm
    | _ =>
      simp only [Cursor.outside] at h
      repeat' split at h
      all_goals cases h <;> exact absurd rfl hm
  · obtain ⟨gs', -, he⟩ := Option.map_eq_some_iff.1 h
    cases he
    exact absurd rfl hm

theorem past_groups (d : Cursor) (t : Token) (m : Move) : (d.past t m).groups = d.groups := by
  cases m <;> rfl

/-- Behind a token, a point is behind the reader if the token is one. -/
theorem step_dotted (h : c.turn (c.role t) = some (m, d)) :
    (d.past t m).dotted = (t == .punct '.') := by
  by_cases hm : m = .part
  · subst hm
    rfl
  · obtain ⟨hr, hd⟩ := turn_loose h hm
    obtain ⟨hdot, hw⟩ := loose_role hr
    have ht : (t == .punct '.') = false := by
      cases t with
      | word => rfl
      | _ => cases hw
    rw [ht]
    have : d.dotted = false := by
      rcases hd with rfl | rfl
      · exact hdot
      · rfl
    cases m with
    | part => exact absurd rfl hm
    | not | junct => exact this

/-- The second reader stands where the first one does, but in one more bracket. -/
structure Inside (c c' : Cursor) : Prop where
  groups : c'.groups = under c.groups
  pending : c'.pending = 0
  dotted : c'.dotted = c.dotted

theorem Inside.step (h : Inside c c') (hs : c.step t = some (m, d)) :
    ∃ d', c'.step t = some (.part, d') ∧ Inside d d' := by
  rw [Cursor.step, Option.ite_none_left_eq_some] at hs
  obtain ⟨ht, hs⟩ := hs
  obtain ⟨⟨m', e⟩, hturn, he⟩ := Option.map_eq_some_iff.1 hs
  cases he
  obtain ⟨g, gs, hu, hn⟩ := turn_under hturn
  have hrole : c'.role t = c.role t := by rw [Cursor.role, Cursor.role, h.dotted]
  refine ⟨Cursor.past { c' with groups := under e.groups, expects := false } t .part, ?_, ?_⟩
  · rw [Cursor.step, if_neg ht, Cursor.turn, h.groups, hu, hrole]
    simp only [Cursor.inside, hn, Option.map_some]
  · exact ⟨by rw [past_groups, past_groups], h.pending, (step_dotted hturn).symm⟩

/-- The tokens in front of an operand. -/
def pushes (ts : List Token) (s : Spine) : Spine :=
  ⟨⟨s.first.nots, ts ++ s.first.tokens⟩, s.rest⟩

/-- In brackets an expression is a part of the operand. -/
theorem Inside.cut (h : Inside c c') (hc : Pg.cut c ts = some s) :
    ∃ d', d'.groups = [.round] ∧ d'.pending = 0 ∧ d'.dotted = false ∧
      ∀ us, Pg.cut c' (ts ++ us) = (Pg.cut d' us).map (pushes ts) := by
  induction ts generalizing c c' s with
  | nil =>
    rw [Pg.cut, Option.ite_none_right_eq_some] at hc
    obtain ⟨hg, -, hd, -⟩ := done_iff.1 hc.1
    refine ⟨c', by rw [h.groups, hg]; rfl, h.pending, h.dotted.trans hd, fun us => ?_⟩
    exact (Option.map_id' ..).symm
  | cons t ts ih =>
    obtain ⟨m, d, u, hstep, hu, rfl⟩ := cut_cons hc
    obtain ⟨e, he, hi⟩ := h.step hstep
    obtain ⟨d', hg, hp, hd, hcut⟩ := ih hi hu
    refine ⟨d', hg, hp, hd, fun us => ?_⟩
    rw [List.cons_append, cut_of_step he, hcut, Option.map_map]
    rfl

/-- **An expression in brackets is one operand.** -/
theorem cut_bracketed (h : cut {} ts = some s) :
    cut {} (bracketed ts) = some ⟨⟨0, bracketed ts⟩, []⟩ := by
  have hi : Inside {} { groups := [.round], fresh := false } := ⟨rfl, rfl, rfl⟩
  obtain ⟨d', hg, hp, hd, hcut⟩ := hi.cut h
  have hstep : Cursor.step {} (.punct '(') =
      some (.part, { groups := [.round], fresh := false }) := by rfl
  have hclose : d'.step (.punct ')') = some
      (.part, { d' with groups := [], expects := false, dotted := false, fresh := false }) := by
    rw [Cursor.step, if_neg (by decide), Cursor.turn, hg]
    have hr : d'.role (.punct ')') = .closing .round := by rw [Cursor.role, hd]; rfl
    rw [hr]
    rfl
  rw [bracketed, cut_of_step hstep, hcut, cut_of_step hclose, cut,
    if_pos (by simp [Cursor.done, hp])]
  rfl

theorem cut_length (h : cut c ts = some s) : ∀ f ∈ s.factors, f.tokens.length ≤ ts.length := by
  induction ts generalizing c s with
  | nil =>
    rw [cut, Option.ite_none_right_eq_some] at h
    cases h.2
    intro f hf
    rw [List.mem_singleton.1 hf]
    exact Nat.le_refl 0
  | cons t ts ih =>
    obtain ⟨m, d, u, -, hu, rfl⟩ := cut_cons h
    have hle := ih hu
    intro f hf
    cases m with
    | part =>
      rcases List.mem_cons.1 hf with rfl | hf
      · exact Nat.succ_le_succ (hle u.first (.head _))
      · exact Nat.le_succ_of_le (hle f (.tail _ hf))
    | not =>
      rcases List.mem_cons.1 hf with rfl | hf
      · exact Nat.le_succ_of_le (hle u.first (.head _))
      · exact Nat.le_succ_of_le (hle f (.tail _ hf))
    | junct j =>
      rcases List.mem_cons.1 hf with rfl | hf
      · exact Nat.zero_le _
      · exact Nat.le_succ_of_le (hle f hf)

end

/-! ## Reading -/

section
variable {τ : Type} {term : List Token → τ} {ts us : List Token} {s : Spine}

theorem Spine.formula_congr {op op' : List Token → Formula τ}
    (h : ∀ f ∈ s.factors, op f.tokens = op' f.tokens) : s.formula op = s.formula op' := by
  have factor (f : Factor) (hf : f ∈ s.factors) : f.formula op = f.formula op' := by
    rw [Factor.formula, Factor.formula, h f hf]
  rw [Spine.formula, Spine.formula, factor _ (.head _)]
  congr 1
  refine List.map_congr_left fun p hp => ?_
  rw [factor p.2 (.tail _ (List.mem_map_of_mem hp))]

theorem unbracket_bracketed (ts : List Token) : unbracket (bracketed ts) = some ts := by
  simp [bracketed, unbracket]

theorem unbracket_length (h : unbracket ts = some us) : us.length < ts.length := by
  unfold unbracket at h
  split at h
  · split at h
    · cases h
      rw [List.length_dropLast, List.length_cons]
      omega
    · cases h
  · cases h

/-- Brackets in an operand hold less than the expression. -/
theorem formula_readers {rd rd' : List Token → Option (Formula τ)} (hc : cut {} ts = some s)
    (h : ∀ us, us.length < ts.length → rd us = rd' us) :
    s.formula (openOperand term rd) = s.formula (openOperand term rd') := by
  refine Spine.formula_congr fun f hf => ?_
  rw [openOperand, openOperand]
  cases hu : unbracket f.tokens with
  | none => rfl
  | some us =>
    rw [Option.bind_some, Option.bind_some,
      h us (Nat.lt_of_lt_of_le (unbracket_length hu) (cut_length hc f hf))]

/-- The bound on the depth does not matter. -/
theorem readTokens_eq {n m : Nat} (hn : ts.length < n) (hm : ts.length < m) :
    readTokens term n ts = readTokens term m ts := by
  induction n generalizing m ts with
  | zero => exact absurd hn (Nat.not_lt_zero _)
  | succ n ih =>
    obtain ⟨m, rfl⟩ := Nat.exists_eq_succ_of_ne_zero (Nat.ne_of_gt (Nat.zero_lt_of_lt hm))
    rw [readTokens, readTokens]
    cases hc : cut {} ts with
    | none => rfl
    | some s =>
      exact congrArg some (formula_readers hc fun us hus => ih (by omega) (by omega))

/-- What an operand is read as. -/
def operandOf (term : List Token → τ) : List Token → Formula τ :=
  openOperand term (readBoolean term)

theorem readBoolean_eq (ts : List Token) :
    readBoolean term ts = (cut {} ts).map (Spine.formula (operandOf term)) := by
  rw [readBoolean, readTokens]
  cases hc : cut {} ts with
  | none => rfl
  | some s =>
    exact congrArg some (formula_readers hc fun us hus =>
      readTokens_eq hus (Nat.lt_succ_self _))

/-- More than one operand in brackets is read as what stands in them. -/
theorem operandOf_bracketed {f : Formula τ} (h : readBoolean term ts = some f) (hf : 1 < f.size) :
    operandOf term (bracketed ts) = f := by
  rw [operandOf, openOperand, unbracket_bracketed, Option.bind_some, h]
  cases f with
  | test => exact absurd hf (Nat.lt_irrefl _)
  | not | and | or => rfl

end

end Pg
