import IronQuery.Exception
import Mathlib.Data.List.Perm.Basic

/-!
# Runs of calls on one object

`after`: the object after a run in which the caller catches every exception and goes on.
`chain`: a run that the first exception ends. `SetsOnce`: no clause is set twice, over every run
whose steps meet a condition (`SetsOnce.of_step` has it from one step). `chain_all`: what every call
of a run leaves behind. `chain_perm`: calls that commute may be permuted. `chain_text`: what the
calls of a run leave in each clause. `FailSafe`: a call that throws changes nothing, so that a run
may be read without it. `Setter`: the setters that look before they write, from which the step
lemmas of all four come.
-/

namespace IronQuery

/-- The object after a call that did not throw. -/
def Outcome.accepted {σ : Type} (o : Outcome σ) : Option σ :=
  match o.thrown with
  | none => some o.object
  | some _ => none

@[simp] theorem Outcome.accepted_ok {σ : Type} (s : σ) : (Outcome.ok s).accepted = some s := rfl
@[simp] theorem Outcome.accepted_throw {σ : Type} (e : Exception) (s : σ) :
    (Outcome.throw e s).accepted = none := rfl

section
variable {κ σ ι : Type} (apply : κ → σ → Outcome σ)

/-- The object after the calls; a call that throws leaves behind what it has done so far. -/
def after : List κ → σ → σ
  | [], s => s
  | c :: calls, s => after calls (apply c s).object

/-- The calls up to the first that throws. -/
def chain : List κ → σ → Option σ
  | [], s => some s
  | c :: calls, s => (apply c s).accepted.bind (chain calls)

/-- Every step of the run meets the condition. -/
def Meets (ok : σ → κ → Prop) : List κ → σ → Prop
  | [], _ => True
  | c :: calls, s => ok s c ∧ Meets ok calls (apply c s).object

theorem after_append (l l' : List κ) (s : σ) :
    after apply (l ++ l') s = after apply l' (after apply l s) := by
  induction l generalizing s with
  | nil => rfl
  | cons c l ih => exact ih _

theorem chain_append (l l' : List κ) (s : σ) :
    chain apply (l ++ l') s = (chain apply l s).bind (chain apply l') := by
  induction l generalizing s with
  | nil => rfl
  | cons c l ih =>
    rw [List.cons_append, chain, chain, Option.bind_assoc]
    exact congrArg _ (funext ih)

theorem meets_append {ok : σ → κ → Prop} {l l' : List κ} {s : σ} :
    Meets apply ok (l ++ l') s ↔ Meets apply ok l s ∧ Meets apply ok l' (after apply l s) := by
  induction l generalizing s with
  | nil => simp [Meets, after]
  | cons c l ih => simp only [List.cons_append, Meets, after, ih, and_assoc]

/-- An invariant of the steps is one of the run. -/
theorem after_inv (inv : σ → Prop) {l : List κ} (h : ∀ c ∈ l, ∀ s, inv s → inv (apply c s).object)
    {s : σ} (hs : inv s) : inv (after apply l s) := by
  induction l generalizing s with
  | nil => exact hs
  | cons c l ih => exact ih (fun d hd => h d (.tail _ hd)) (h c (.head _) s hs)

theorem chain_inv (inv : σ → Prop) {l : List κ}
    (h : ∀ c ∈ l, ∀ s s', (apply c s).accepted = some s' → inv s → inv s') {s s' : σ}
    (hrun : chain apply l s = some s') (hs : inv s) : inv s' := by
  induction l generalizing s with
  | nil => cases hrun; exact hs
  | cons c l ih =>
    obtain ⟨s₁, h1, h2⟩ := Option.bind_eq_some_iff.1 hrun
    exact ih (fun d hd => h d (.tail _ hd)) h2 (h c (.head _) s s₁ h1 hs)

theorem accepted_eq_some {o : Outcome σ} {s : σ} (h : o.accepted = some s) : o.object = s := by
  unfold Outcome.accepted at h
  split at h
  · exact Option.some.inj h
  · cases h

/-- What each call of a run leaves behind, if the calls after it keep it. -/
theorem chain_all {P : κ → σ → Prop} {ok : σ → κ → Prop}
    (hset : ∀ c s s', ok s c → (apply c s).accepted = some s' → P c s')
    (hkeep : ∀ c d s s', ok s d → (apply d s).accepted = some s' → P c s → P c s')
    {l : List κ} {s s' : σ} (hm : Meets apply ok l s) (hrun : chain apply l s = some s') :
    ∀ c ∈ l, P c s' := by
  -- a call that is over is kept by all that follow
  have keeps : ∀ (l : List κ) (s : σ), Meets apply ok l s → chain apply l s = some s' →
      ∀ c, P c s → P c s' := by
    intro l
    induction l with
    | nil => exact fun s _ h c hc => by cases h; exact hc
    | cons d l ih =>
      intro s hm h c hc
      obtain ⟨s₁, h1, h2⟩ := Option.bind_eq_some_iff.1 h
      exact ih s₁ (accepted_eq_some h1 ▸ hm.2) h2 c (hkeep c d s s₁ hm.1 h1 hc)
  induction l generalizing s with
  | nil => exact nofun
  | cons c l ih =>
    obtain ⟨s₁, h1, h2⟩ := Option.bind_eq_some_iff.1 hrun
    have hm' : Meets apply ok l s₁ := accepted_eq_some h1 ▸ hm.2
    intro d hd
    rcases List.mem_cons.1 hd with rfl | hd
    · exact keeps l s₁ hm' h2 d (hset d s s₁ hm.1 h1)
    · exact ih hm' h2 d hd

/-! ## Clauses that are set once -/

/-- **Set-once, over every run whose steps meet `ok`**: a call for a clause that an accepted call
has set throws `LogicError`, and nothing changes the clause after it was set. -/
structure SetsOnce (clause : κ → Option ι) (same : ι → σ → σ → Prop) (ok : σ → κ → Prop) :
    Prop where
  second : ∀ (s : σ) (pre mid : List κ) (c c' : κ) (k : ι),
    Meets apply ok (pre ++ c :: (mid ++ [c'])) s → clause c = some k → clause c' = some k →
    (apply c (after apply pre s)).thrown = none →
    ∃ e, (apply c' (after apply (pre ++ c :: mid) s)).thrown = some e ∧ e.isLogicError = true
  kept : ∀ (s : σ) (pre post : List κ) (c : κ) (k : ι),
    Meets apply ok (pre ++ c :: post) s → clause c = some k →
    (apply c (after apply pre s)).thrown = none →
    same k (after apply (pre ++ [c]) s) (after apply (pre ++ c :: post) s)

/-- What one step has to do, for clauses told by `isSet`. -/
structure SetStep (clause : κ → Option ι) (same : ι → σ → σ → Prop) (ok : σ → κ → Prop)
    (isSet : ι → σ → Prop) : Prop where
  sets : ∀ s c k, ok s c → clause c = some k → (apply c s).thrown = none →
    isSet k (apply c s).object
  throws : ∀ s c k, ok s c → clause c = some k → isSet k s →
    ∃ e, (apply c s).thrown = some e ∧ e.isLogicError = true
  keeps : ∀ s c k, ok s c → isSet k s → same k s (apply c s).object
  refl : ∀ k s, same k s s
  trans : ∀ k s s' s'', same k s s' → same k s' s'' → same k s s''
  isSet_of_same : ∀ k s s', same k s s' → isSet k s → isSet k s'

variable {apply} {clause : κ → Option ι} {same : ι → σ → σ → Prop} {ok : σ → κ → Prop}
  {isSet : ι → σ → Prop}

/-- What is set stays as it is. -/
theorem SetStep.run (h : SetStep apply clause same ok isSet) {l : List κ} {s : σ} {k : ι}
    (hm : Meets apply ok l s) (hs : isSet k s) : same k s (after apply l s) := by
  induction l generalizing s with
  | nil => exact h.refl k s
  | cons c l ih =>
    have hstep := h.keeps s c k hm.1 hs
    exact h.trans k _ _ _ hstep (ih hm.2 (h.isSet_of_same k _ _ hstep hs))

theorem SetsOnce.of_step (h : SetStep apply clause same ok isSet) :
    SetsOnce apply clause same ok where
  second s pre mid c c' k hm hc hc' hacc := by
    obtain ⟨-, hok, hrest⟩ := (meets_append apply).1 hm
    obtain ⟨hmid, hlast, -⟩ := (meets_append apply).1 hrest
    have hset := h.sets _ c k hok hc hacc
    rw [after_append, after]
    exact h.throws _ c' k hlast hc' (h.isSet_of_same k _ _ (h.run hmid hset) hset)
  kept s pre post c k hm hc hacc := by
    obtain ⟨-, hok, hrest⟩ := (meets_append apply).1 hm
    rw [after_append, after_append, after, after, after]
    exact h.run hrest (h.sets _ c k hok hc hacc)

/-! ## Calls that throw -/

variable (apply)

/-- The calls of the run that did not throw. -/
def successes : List κ → σ → List κ
  | [], _ => []
  | c :: calls, s => match (apply c s).thrown with
    | none => c :: successes calls (apply c s).object
    | some _ => successes calls (apply c s).object

/-- **A failed call leaves the object as it was** if and only if it meets `ok`, and a run whose
calls meet it ends as if its failed calls had not been made. -/
structure FailSafe (ok : σ → κ → Prop) : Prop where
  step : ∀ s c, (∀ e, (apply c s).thrown = some e → (apply c s).object = s) ↔ ok s c
  run : ∀ s calls, Meets apply ok calls s →
    chain apply (successes apply calls s) s = some (after apply calls s)

variable {apply}

theorem FailSafe.of_step {ok : σ → κ → Prop}
    (h : ∀ s c, (∀ e, (apply c s).thrown = some e → (apply c s).object = s) ↔ ok s c) :
    FailSafe apply ok where
  step := h
  run s calls hm := by
    induction calls generalizing s with
    | nil => rfl
    | cons c calls ih =>
      have hrest := ih _ hm.2
      rw [successes, after]
      cases ht : (apply c s).thrown with
      | none =>
        have ha : (apply c s).accepted = some (apply c s).object := by rw [Outcome.accepted, ht]
        rw [chain, ha]
        exact hrest
      | some e =>
        rw [(h s c).2 hm.1 e ht] at hrest ⊢
        exact hrest

/-! ## Permuted runs -/

variable (apply)

/-- The two calls may come in either order: both orders throw, or both end in the same object. -/
def Commutes (c d : κ) : Prop :=
  ∀ s, (apply c s).accepted.bind (fun s => (apply d s).accepted) =
    (apply d s).accepted.bind fun s => (apply c s).accepted

/-- No clause is the clause of two calls. -/
def Once (clause : κ → Option ι) (calls : List κ) : Prop := (calls.filterMap clause).Nodup

instance [DecidableEq ι] (clause : κ → Option ι) (calls : List κ) : Decidable (Once clause calls) :=
  inferInstanceAs (Decidable (List.Nodup _))

/-- Of the runs that set no clause twice, the permuted ones give the same text or throw alike; the
calls of no clause keep their order. -/
def OrderFree {β : Type} (clause : κ → Option ι) (text : σ → β) : Prop :=
  ∀ (s : σ) (calls calls' : List κ), Once clause calls → calls.Perm calls' →
    (calls.filter fun c => (clause c).isNone) = (calls'.filter fun c => (clause c).isNone) →
    (chain apply calls s).map text = (chain apply calls' s).map text

variable {apply}

theorem chain_swap {c d : κ} (h : Commutes apply c d) (l : List κ) (s : σ) :
    chain apply (c :: d :: l) s = chain apply (d :: c :: l) s := by
  have e (c d : κ) : chain apply (c :: d :: l) s =
      ((apply c s).accepted.bind fun s => (apply d s).accepted).bind (chain apply l) := by
    rw [Option.bind_assoc]
    rfl
  rw [e, e, h s]

theorem chain_perm_of {l l' : List κ} (hp : l.Perm l')
    (hc : ∀ c ∈ l, ∀ d ∈ l, c = d ∨ Commutes apply c d) (s : σ) :
    chain apply l s = chain apply l' s := by
  induction hp generalizing s with
  | nil => rfl
  | cons c _ ih =>
    exact congrArg _ (funext (ih fun c h d h' => hc c (.tail _ h) d (.tail _ h')))
  | swap c d l =>
    rcases hc d (.head _) c (.tail _ (.head _)) with rfl | h
    · rfl
    · exact chain_swap h l s
  | trans hp _ ih ih' =>
    rw [ih hc s]
    exact ih' (fun c h d h' => hc c (hp.mem_iff.2 h) d (hp.mem_iff.2 h')) s

/-- A call moves behind calls that it commutes with. -/
theorem chain_move {c : κ} {l : List κ} (h : ∀ d ∈ l, Commutes apply c d) (l' : List κ) (s : σ) :
    chain apply (c :: (l ++ l')) s = chain apply (l ++ c :: l') s := by
  induction l generalizing s with
  | nil => rfl
  | cons d l ih =>
    rw [List.cons_append, chain_swap (h d (.head _)), List.cons_append, chain, chain]
    exact congrArg _ (funext (ih fun e he => h e (.tail _ he)))

section
variable (hc : ∀ c d, clause c ≠ clause d → Commutes apply c d)
include hc

/-- The calls of no clause may come first. -/
theorem chain_split (l : List κ) (s : σ) : chain apply l s = chain apply
    (l.filter (fun c => (clause c).isNone) ++ l.filter fun c => (clause c).isSome) s := by
  induction l generalizing s with
  | nil => rfl
  | cons c l ih =>
    have e : chain apply (c :: l) s = chain apply (c :: (l.filter (fun c => (clause c).isNone) ++
        l.filter fun c => (clause c).isSome)) s := congrArg _ (funext ih)
    rw [e]
    cases hcl : clause c with
    | none => simp only [List.filter_cons, hcl, Option.isNone_none, Option.isSome_none, if_true,
        List.cons_append, Bool.false_eq_true, if_false]
    | some k =>
      simp only [List.filter_cons, hcl, Option.isNone_some, Option.isSome_some, if_true,
        Bool.false_eq_true, if_false]
      refine chain_move (fun d hd => hc c d fun he => ?_) _ s
      have := (List.mem_filter.1 hd).2
      rw [← he, hcl] at this
      cases this

theorem once_commutes {l : List κ} (h : Once clause l) (hs : ∀ c ∈ l, (clause c).isSome = true) :
    ∀ c ∈ l, ∀ d ∈ l, c = d ∨ Commutes apply c d := by
  intro c hcl d hdl
  by_cases he : clause c = clause d
  · left
    obtain ⟨k, hk⟩ := Option.isSome_iff_exists.1 (hs c hcl)
    induction l with
    | nil => cases hcl
    | cons x l ih =>
      obtain ⟨kx, hx⟩ := Option.isSome_iff_exists.1 (hs x (.head _))
      simp only [Once, List.filterMap_cons, hx, List.nodup_cons, List.mem_filterMap,
        not_exists, not_and] at h
      rcases List.mem_cons.1 hcl with rfl | hc' <;> rcases List.mem_cons.1 hdl with rfl | hd'
      · rfl
      · exact absurd (he.symm.trans hx) (h.1 d hd')
      · exact absurd (he.trans hx) (h.1 c hc')
      · exact ih h.2 (fun c h => hs c (.tail _ h)) hc' hd'
  · exact .inr (hc c d he)

/-- **Runs that set no clause twice may be permuted**, the calls of no clause in their order. -/
theorem chain_perm {l l' : List κ} (h : Once clause l) (hp : l.Perm l')
    (ho : l.filter (fun c => (clause c).isNone) = l'.filter fun c => (clause c).isNone) (s : σ) :
    chain apply l s = chain apply l' s := by
  rw [chain_split hc l, chain_split hc l', ho, chain_append, chain_append]
  refine congrArg _ (funext (chain_perm_of (hp.filter _) (once_commutes hc ?_ fun c h => ?_)))
  · have e : (l.filter fun c => (clause c).isSome).filterMap clause = l.filterMap clause := by
      rw [List.filterMap_filter]
      congr 1
      funext c
      cases clause c <;> rfl
    rw [Once, e]
    exact h
  · exact (List.mem_filter.1 h).2

theorem OrderFree.of_commutes {β : Type} (text : σ → β) : OrderFree apply clause text :=
  fun s _ _ h hp ho => by rw [chain_perm hc h hp ho s]

end

/-! ## What a run leaves in each clause -/

/-- What the calls for the clause `k` say. -/
def pieces [DecidableEq ι] (clause : κ → Option ι) (piece : κ → Text) (calls : List κ) (k : ι) :
    Text := (calls.filter fun c => clause c = some k).flatMap piece

/-- **Each clause holds what its call says.** -/
theorem chain_text [DecidableEq ι] {piece : κ → Text} {text : ι → σ → Text} {s₀ s : σ}
    {calls : List κ} (hfresh : ∀ k, text k s₀ = [])
    (hsets : ∀ c s s' k, (apply c s).accepted = some s' → clause c = some k → text k s' = piece c)
    (hkeeps : ∀ c s s' k, (apply c s).accepted = some s' → clause c ≠ some k → text k s' = text k s)
    (h : Once clause calls) (hrun : chain apply calls s₀ = some s) (k : ι) :
    text k s = pieces clause piece calls k := by
  have key : ∀ (calls : List κ) (s₀ : σ), Once clause calls → chain apply calls s₀ = some s →
      text k s = if pieces clause piece calls k = [] ∧ ∀ c ∈ calls, clause c ≠ some k then text k s₀
        else pieces clause piece calls k := by
    intro calls
    induction calls with
    | nil =>
      intro s₀ _ hrun
      cases hrun
      simp [pieces]
    | cons c calls ih =>
      intro s₀ h hrun
      obtain ⟨s₁, h1, hrest⟩ := Option.bind_eq_some_iff.1 hrun
      by_cases hck : clause c = some k
      · have hnot : ∀ d ∈ calls, clause d ≠ some k := by
          simp only [Once, List.filterMap_cons, hck, List.nodup_cons, List.mem_filterMap,
            not_exists, not_and] at h
          exact h.1
        have hnil : pieces clause piece calls k = [] := by
          rw [pieces, List.filter_eq_nil_iff.2 fun d hd => by simpa using hnot d hd]
          rfl
        have htail : Once clause calls := by
          simp only [Once, List.filterMap_cons, hck, List.nodup_cons] at h
          exact h.2
        rw [ih s₁ htail hrest, if_pos ⟨hnil, hnot⟩, hsets c s₀ s₁ k h1 hck,
          if_neg (fun h => h.2 c (.head _) hck)]
        simp only [pieces] at hnil
        simp only [pieces, List.filter_cons, hck, decide_true, if_true, List.flatMap_cons, hnil,
          List.append_nil]
      · have htail : Once clause calls := by
          unfold Once at h ⊢
          rw [List.filterMap_cons] at h
          cases hcl : clause c with
          | none => rw [hcl] at h; exact h
          | some k' => rw [hcl] at h; exact (List.nodup_cons.1 h).2
        have hp : pieces clause piece (c :: calls) k = pieces clause piece calls k := by
          simp only [pieces, List.filter_cons, hck, decide_false, Bool.false_eq_true, if_false]
        rw [ih s₁ htail hrest, hkeeps c s₀ s₁ k h1 hck, hp]
        simp [hck]
  rw [key calls s₀ h hrun, hfresh k]
  split
  · rename_i hn; exact hn.1.symm
  · rfl

/-! ## Setters that look before they write -/

/-- What a setter does: it throws on bad arguments, or when it is blocked (its clause is set), else
it writes, and may throw after it has written. -/
structure Setter (apply : κ → σ → Outcome σ) (put : κ → σ → σ) (bad : κ → σ → Option Exception)
    (blocked : κ → σ → Bool) (check : κ → σ → Option Exception) : Prop where
  rejects : ∀ c s e, bad c s = some e → apply c s = .throw e s
  blocks : ∀ c s, bad c s = none → blocked c s = true →
    ∃ e, e.isLogicError = true ∧ apply c s = .throw e s
  writes : ∀ c s, bad c s = none → blocked c s = false →
    apply c s = ⟨check c (put c s), put c s⟩

variable {put : κ → σ → σ} {bad : κ → σ → Option Exception} {blocked : κ → σ → Bool}
  {check : κ → σ → Option Exception}

namespace Setter

variable (h : Setter apply put bad blocked check)
include h

/-- The three ways a setter goes. -/
theorem cases (c : κ) (s : σ) :
    (∃ e, bad c s = some e ∧ apply c s = .throw e s) ∨
    (bad c s = none ∧ blocked c s = true ∧
      ∃ e, e.isLogicError = true ∧ apply c s = .throw e s) ∨
    (bad c s = none ∧ blocked c s = false ∧ apply c s = ⟨check c (put c s), put c s⟩) := by
  cases hb : bad c s with
  | some e => exact .inl ⟨e, rfl, h.rejects c s e hb⟩
  | none =>
    cases hk : blocked c s with
    | true => exact .inr (.inl ⟨rfl, rfl, h.blocks c s hb hk⟩)
    | false => exact .inr (.inr ⟨rfl, rfl, h.writes c s hb hk⟩)

theorem accepted_eq (c : κ) (s : σ) : (apply c s).accepted =
    if bad c s = none ∧ blocked c s = false ∧ check c (put c s) = none then some (put c s)
    else none := by
  rcases h.cases c s with ⟨e, hb, ha⟩ | ⟨hb, hk, e, -, ha⟩ | ⟨hb, hk, ha⟩
  · rw [ha, hb, if_neg (by simp)]
    rfl
  · rw [ha, hk, if_neg (by simp)]
    rfl
  · rw [ha, hb, hk]
    cases hc : check c (put c s) <;> simp [Outcome.accepted]

theorem put_of_accepted {c : κ} {s s' : σ} (ha : (apply c s).accepted = some s') :
    bad c s = none ∧ blocked c s = false ∧ s' = put c s := by
  rw [h.accepted_eq] at ha
  split at ha
  · rename_i hc
    cases ha
    exact ⟨hc.1, hc.2.1, rfl⟩
  · cases ha

/-- **Setters of different clauses commute**, if neither's checks see what the other writes. -/
theorem commutes {c d : κ} (hput : ∀ s, put d (put c s) = put c (put d s))
    (hbad : ∀ s, bad c (put d s) = bad c s) (hbad' : ∀ s, bad d (put c s) = bad d s)
    (hblk : ∀ s, blocked c (put d s) = blocked c s)
    (hblk' : ∀ s, blocked d (put c s) = blocked d s)
    (hcheck : ∀ s, blocked c s = false → blocked d s = false →
      (check c (put c s) = none ∧ check d (put d (put c s)) = none ↔
        check d (put d s) = none ∧ check c (put c (put d s)) = none)) : Commutes apply c d := by
  intro s
  have hbind : ∀ (P Q : Prop) [Decidable P] [Decidable Q] (x y : σ),
      ((if P then some x else none).bind fun _ => if Q then some y else none) =
        if P ∧ Q then some y else none := fun P Q _ _ x y => by
    by_cases hp : P <;> by_cases hq : Q <;> simp [hp, hq]
  have hstep : ∀ c d, (apply c s).accepted.bind (fun s => (apply d s).accepted) =
      if (bad c s = none ∧ blocked c s = false ∧ check c (put c s) = none) ∧
        bad d (put c s) = none ∧ blocked d (put c s) = false ∧ check d (put d (put c s)) = none
      then some (put d (put c s)) else none := fun c d => by
    rw [← hbind _ _ (put c s), h.accepted_eq]
    split
    · rw [Option.bind_some, Option.bind_some, h.accepted_eq]
    · rfl
  rw [hstep, hstep, hbad', hblk', hbad, hblk, hput]
  refine if_congr ?_ rfl rfl
  have := hcheck s
  rw [hput] at this
  constructor
  · rintro ⟨⟨h1, h2, h3⟩, h4, h5, h6⟩
    exact ⟨⟨h4, h5, ((this h2 h5).1 ⟨h3, h6⟩).1⟩, h1, h2, ((this h2 h5).1 ⟨h3, h6⟩).2⟩
  · rintro ⟨⟨h1, h2, h3⟩, h4, h5, h6⟩
    exact ⟨⟨h4, h5, ((this h5 h2).2 ⟨h3, h6⟩).1⟩, h1, h2, ((this h5 h2).2 ⟨h3, h6⟩).2⟩

/-- **A setter that fails leaves the object as it was** unless it throws after a write. -/
theorem failSafe (hcheck : ∀ s c, bad c s = none → blocked c s = false →
      (check c (put c s) ≠ none → put c s ≠ s) ∧ (check c (put c s) = none ↔ ok s c))
    (hok : ∀ s c, bad c s ≠ none ∨ blocked c s = true → ok s c) : FailSafe apply ok := by
  refine .of_step fun s c => ?_
  rcases h.cases c s with ⟨e, hb, ha⟩ | ⟨-, hk, e, -, ha⟩ | ⟨hb, hf, ha⟩
  · rw [ha]
    exact ⟨fun _ => hok s c (.inl (by rw [hb]; nofun)), fun _ _ _ => rfl⟩
  · rw [ha]
    exact ⟨fun _ => hok s c (.inr hk), fun _ _ _ => rfl⟩
  · obtain ⟨hput, hiff⟩ := hcheck s c hb hf
    rw [ha, ← hiff]
    cases hc : check c (put c s) with
    | none => exact ⟨fun _ => rfl, fun _ _ he => by cases he⟩
    | some e => exact ⟨fun hall => absurd (hall e rfl) (hput (by rw [hc]; nofun)), nofun⟩

/-- A setter that throws before its write, if at all. -/
theorem failSafe_of_check (hcheck : ∀ c s, check c s = none) : FailSafe apply fun _ _ => True :=
  h.failSafe (fun _ c _ _ => ⟨fun hne => absurd (hcheck c _) hne, iff_of_true (hcheck c _) trivial⟩)
    fun _ _ _ => trivial

/-- **Setters set their clauses once**, under a condition that leaves no value unseen (`hsets`) and
lets no unguarded setter meet a set clause (`hblk`). -/
theorem setStep (hframe : ∀ c s k, clause c ≠ some k → same k s (put c s))
    (hsets : ∀ s c k, ok s c → clause c = some k → isSet k (put c s))
    (hblk : ∀ s c k, ok s c → clause c = some k → isSet k s →
      (∀ e, bad c s = some e → e.isLogicError = true) ∧ (bad c s = none → blocked c s = true))
    (hrefl : ∀ k s, same k s s) (htrans : ∀ k s s' s'', same k s s' → same k s' s'' → same k s s'')
    (hset : ∀ k s s', same k s s' → isSet k s → isSet k s') :
    SetStep apply clause same ok isSet where
  sets s c k hok hk ht := by
    rcases h.cases c s with ⟨e, -, ha⟩ | ⟨-, -, e, -, ha⟩ | ⟨-, -, ha⟩
    · rw [ha] at ht; cases ht
    · rw [ha] at ht; cases ht
    · rw [ha]
      exact hsets s c k hok hk
  throws s c k hok hk hs := by
    obtain ⟨h1, h2⟩ := hblk s c k hok hk hs
    rcases h.cases c s with ⟨e, hb, ha⟩ | ⟨-, -, e, he, ha⟩ | ⟨hb, hf, -⟩
    · exact ⟨e, by rw [ha]; rfl, h1 e hb⟩
    · exact ⟨e, by rw [ha]; rfl, he⟩
    · rw [h2 hb] at hf; cases hf
  keeps s c k hok hs := by
    rcases h.cases c s with ⟨e, -, ha⟩ | ⟨-, -, e, -, ha⟩ | ⟨hb, hf, ha⟩
    · rw [ha]; exact hrefl k s
    · rw [ha]; exact hrefl k s
    · rw [ha]
      refine hframe c s k fun hk => ?_
      rw [(hblk s c k hok hk hs).2 hb] at hf
      cases hf
  refl := hrefl
  trans := htrans
  isSet_of_same := hset

end Setter

end

end IronQuery
