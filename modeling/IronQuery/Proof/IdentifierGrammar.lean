import IronQuery.Proof.Names

/-!
# What `ValidateIdentifier` accepts

`identifier_grammar`: the loop ends, reads the text within its bounds, and accepts exactly the parts
between single dots (`IsDotted`). `checkedParts` is the loop with its bounds checked: it gives
nothing where `substr` would throw, a count would wrap around, or a round is missing.
-/

namespace IronQuery

/-- A part of a name: a letter or underscore, then letters, digits and underscores. -/
inductive IsPart : Text → Prop
  | mk {c : Char} {s : Text} : (c.isAlpha = true ∨ c = '_') →
      (∀ d ∈ s, d.isAlpha = true ∨ d.isDigit = true ∨ d = '_') → IsPart (c :: s)

/-- One or more parts with single dots between them. -/
inductive IsDotted : Text → Prop
  | part {p : Text} : IsPart p → IsDotted p
  | dot {p s : Text} : IsPart p → IsDotted s → IsDotted (p ++ '.' :: s)

/-- `s.substr(start, count)`, if it begins and ends in the text; no count reaches to its end. -/
def checkedSubstr (s : Text) (start : Nat) (count : Option Nat) : Option Text :=
  if start + count.getD 0 ≤ s.length then some (substr s start count) else none

/-- The loop of `ValidateIdentifier` with its bounds checked. -/
def checkedParts : Nat → Text → Nat → Option (Result Unit)
  | 0, _, _ => none
  | n + 1, s, start =>
    let dot := find s '.' start
    if dot.any (· < start) then none
    else (checkedSubstr s start (dot.map (· - start))).bind fun part =>
      if !isPlainIdentifier part then some (.error (.invalidIdentifier s))
      else match dot with
        | none => some (.ok ())
        | some dot => checkedParts n s (dot + 1)

/-! ## The grammar -/

theorem isPart_iff (s : Text) : IsPart s ↔ isPlainIdentifier s = true := by
  constructor
  · rintro ⟨hc, hs⟩
    simp only [isPlainIdentifier, Bool.and_eq_true, Bool.or_eq_true, beq_iff_eq, List.all_eq_true,
      Char.isAlphanum]
    exact ⟨hc, fun d hd => or_assoc.2 (hs d hd)⟩
  · intro h
    cases s with
    | nil => cases h
    | cons c s =>
      simp only [isPlainIdentifier, Bool.and_eq_true, Bool.or_eq_true, beq_iff_eq,
        List.all_eq_true, Char.isAlphanum] at h
      exact .mk h.1 fun d hd => or_assoc.1 (h.2 d hd)

theorem IsPart.no_dot {s : Text} (h : IsPart s) : ∀ d ∈ s, d ≠ '.' := by
  obtain ⟨hc, hs⟩ := h
  rintro d hd rfl
  rcases List.mem_cons.1 hd with rfl | hd
  · exact absurd hc (by decide)
  · exact absurd (hs _ hd) (by decide)

theorem dotParts_dot {p : Text} (h : ∀ d ∈ p, d ≠ '.') (s : Text) :
    dotParts (p ++ '.' :: s) = p :: dotParts s := by
  induction p with
  | nil => rw [List.nil_append, dotParts, if_pos rfl]
  | cons c p ih =>
    rw [List.cons_append, dotParts, if_neg (h c (.head _)), ih fun d hd => h d (.tail _ hd)]

theorem isDotted_joinDots {ps : List Text} (hne : ps ≠ []) (h : ∀ p ∈ ps, IsPart p) :
    IsDotted (joinDots ps) := by
  induction ps with
  | nil => exact absurd rfl hne
  | cons p ps ih =>
    cases ps with
    | nil => exact .part (h p (.head _))
    | cons q ps => exact .dot (h p (.head _)) (ih nofun fun r hr => h r (.tail _ hr))

theorem isDotted_iff (s : Text) : IsDotted s ↔ (dotParts s).all isPlainIdentifier = true := by
  rw [List.all_eq_true]
  constructor
  · intro h
    induction h with
    | part hp =>
      rw [dotParts_of_no_dot hp.no_dot]
      intro q hq
      rw [List.mem_singleton.1 hq]
      exact (isPart_iff _).1 hp
    | dot hp _ ih =>
      rw [dotParts_dot hp.no_dot]
      exact List.forall_mem_cons.2 ⟨(isPart_iff _).1 hp, ih⟩
  · intro h
    have hd := isDotted_joinDots (dotParts_ne_nil s) fun p hp => (isPart_iff p).2 (h p hp)
    rwa [joinDots_dotParts] at hd

/-! ## The bounds -/

theorem find_bounds {s : Text} {c : Char} {start dot : Nat} (h : find s c start = some dot) :
    start ≤ dot ∧ dot < s.length := by
  simp only [find, Option.map_eq_some_iff] at h
  obtain ⟨k, hk, rfl⟩ := h
  have := (List.findIdx?_eq_some_iff_findIdx_eq.1 hk).1
  rw [List.length_drop] at this
  omega

/-- The checks never fail: every round starts in the text or at its end, and moves on. -/
theorem checkedParts_eq (s : Text) (n start : Nat) (hs : start ≤ s.length)
    (hn : s.length < n + start) : checkedParts n s start = some (validateParts n s start) := by
  induction n generalizing start with
  | zero => omega
  | succ n ih =>
    rw [checkedParts, validateParts]
    cases hf : find s '.' start with
    | none =>
      simp only [Option.any_none, Option.map_none, checkedSubstr, Option.getD_none, Nat.add_zero,
        hs, if_true, Option.bind_some, Bool.false_eq_true, if_false]
      split <;> rfl
    | some dot =>
      obtain ⟨hle, hlt⟩ := find_bounds hf
      have hin : start + (dot - start) ≤ s.length := by omega
      have hany : (decide (dot < start)) = false := decide_eq_false (Nat.not_lt.2 hle)
      simp only [Option.any_some, hany, Option.map_some, checkedSubstr, Option.getD_some, hin,
        if_true, Option.bind_some, Bool.false_eq_true, if_false]
      split
      · rfl
      · exact ih (dot + 1) hlt (by omega)

/-- **`ValidateIdentifier` finishes within the bounds of its text, and accepts its grammar.** -/
theorem identifier_grammar (s : Text) :
    checkedParts (s.length + 1) s 0 = some (validateIdentifier s) ∧
    (validateIdentifier s = .ok () ↔ IsDotted s) ∧
    (¬ IsDotted s → validateIdentifier s = .error (.invalidIdentifier s)) := by
  refine ⟨checkedParts_eq s _ 0 (Nat.zero_le _) (Nat.lt_succ_self _), ?_⟩
  rw [isDotted_iff, validateIdentifier_eq]
  split
  · rename_i h
    exact ⟨iff_of_true rfl h, fun hn => absurd h hn⟩
  · rename_i h
    exact ⟨iff_of_false nofun h, fun _ => rfl⟩

end IronQuery
