import IronQuery.Proof.Heads

/-!
# Two runs of a program

`related`: a program whose unchecked texts are closed, and in which no unary minus meets another, is
run alike with any two related expressions in its holes.
-/

namespace IronQuery

open OperatorPrecedence Pg

/-- What the leaves of a program must satisfy for its texts to be put together soundly. -/
def Leaf.Sound (l : Leaf) : Prop := l.WF ∧ l ≠ .minus true

def Program.Sound {t : Ty} (p : Program t) : Prop := ∀ l ∈ p.leaves, l.Sound

theorem Program.sound {t : Ty} {p : Program t} (hwf : p.WF) (hg : p.Unglued) : p.Sound :=
  fun l hl => ⟨hwf l hl, hg l hl⟩

theorem Program.Sound.split {t t₁ t₂ : Ty} {r : Program t} {p : Program t₁} {q : Program t₂}
    (hr : r.Sound) (he : r.leaves = p.leaves ++ q.leaves) : p.Sound ∧ q.Sound := by
  rw [Program.Sound, he] at hr
  exact List.forall_mem_append.1 hr

theorem Program.Sound.split₃ {t t₁ t₂ t₃ : Ty} {r : Program t} {p : Program t₁} {q : Program t₂}
    {s : Program t₃} (hr : r.Sound) (he : r.leaves = p.leaves ++ (q.leaves ++ s.leaves)) :
    p.Sound ∧ q.Sound ∧ s.Sound := by
  rw [Program.Sound, he] at hr
  exact (List.forall_mem_append.1 hr).imp_right List.forall_mem_append.1

section
variable {u : Text} {h h' : Expr}

/-- A unary minus of a sound program finds no minus behind it. -/
theorem unary_related (hm : NoMinus h.toString) {op : Unary} {a : Program .expr}
    (hp : (Program.unary op a).Sound) {e e' : Expr} (hx : a.run h = .ok e) (he : ExprRel u e e') :
    Agree (ExprRel u) (op.apply e) (op.apply e') := by
  obtain ⟨hop, ha⟩ := List.forall_mem_append.1 hp
  refine unary_rel op he ?_ ?_
  · rintro rfl hlt
    have hnone : a.minus = none := by
      have hne := (hop _ (.head _)).2
      cases hma : a.minus with
      | none => rfl
      | some q => rw [hma] at hne; exact absurd rfl hne
    exact (headed hm a (fun l hl => (ha l hl).1) hx).1 hnone hlt
  · rintro type rfl
    exact (hop _ (.head _)).1

variable (hu : u ≠ []) (hh : ExprRel u h h') (hm : NoMinus h.toString)
include hu hh hm

/-- **Every call of the program keeps the relation of the two runs.** -/
theorem related {t : Ty} (p : Program t) (hp : p.Sound) : Agree (t.Rel u) (p.run h) (p.run h') := by
  induction p with
  | hole => exact hh
  | atom a => exact atom_rel a fun l hl => (hp l hl).1
  | call f args ih => exact (ih hp).bind fun _ _ hl => function_rel f hl
  | unary op a ih =>
    exact (ih (List.forall_mem_append.1 hp).2).bind_eq fun _ _ hx he => unary_related hm hp hx he
  | binary op a b iha ihb =>
    obtain ⟨ha, hb⟩ := hp.split rfl
    exact (iha ha).bind fun _ _ h₁ => (ihb hb).bind fun _ _ h₂ => binary_rel op h₁ h₂
  | ofCondition c ih => exact (ih hp).bind fun _ _ hc => Agree.pure hc
  | subquery q ih => exact (ih hp).bind fun _ _ hv => subquery_rel hu hv
  | caseEnd b ih => exact (ih hp).bind fun _ _ hb => end_rel hu hb
  | selectArgAll t ih => exact (ih hp).bind fun _ _ ht => Agree.pure (selectArgAll_rel hu ht)
  | tableDot t column ih => exact (ih hp).bind fun _ _ ht => tableDot_rel column ht
  | rawCondition s => exact NodeRel.leaf (Filled.of_closed (hp _ (.head _)).1) _
  | relation op a b iha ihb =>
    obtain ⟨ha, hb⟩ := hp.split rfl
    exact (iha ha).bind fun _ _ h₁ => (ihb hb).bind fun _ _ h₂ => Agree.pure (relation_rel op h₁ h₂)
  | test op a ih => exact (ih hp).bind fun _ _ ha => Agree.pure (test_rel op ha)
  | between neg e a b ihe iha ihb =>
    obtain ⟨he, ha, hb⟩ := hp.split₃ rfl
    refine (ihe he).bind fun _ _ h₁ => (iha ha).bind fun _ _ h₂ => (ihb hb).bind fun _ _ h₃ => ?_
    cases neg
    · exact betweenNode_rel _ (by decide) h₁ h₂ h₃
    · exact betweenNode_rel _ (by decide) h₁ h₂ h₃
  | isIn neg e l ihe ihl =>
    obtain ⟨he, hl⟩ := hp.split rfl
    refine (ihe he).bind fun _ _ h₁ => (ihl hl).bind fun _ _ h₂ => ?_
    cases neg
    · exact buildInListNode_rel _ (by decide) h₁ h₂
    · exact buildInListNode_rel _ (by decide) h₁ h₂
  | subqueryOp op e q ihe ihq =>
    obtain ⟨he, hq⟩ := hp.split rfl
    exact (ihe he).bind fun _ _ h₁ => (ihq hq).bind fun _ _ h₂ => subqueryOp_rel hu op h₁ h₂
  | «exists» neg q ih => exact (ih hp).bind fun _ _ hv => exists_rel hu neg hv
  | connective op c d ihc ihd =>
    obtain ⟨hc, hd⟩ := hp.split rfl
    exact (ihc hc).bind fun _ _ h₁ => (ihd hd).bind fun _ _ h₂ =>
      Agree.pure (connective_rel op h₁ h₂)
  | conditionNot c ih => exact (ih hp).bind fun _ _ hc => Agree.pure (condition_not_rel hc)
  | selectItem e ih => exact (ih hp).bind fun _ _ he => Agree.pure he.text
  | selectItemAs e name ih => exact (ih hp).bind fun _ _ he => as_rel name he
  | orderByTerm e direction nulls ih =>
    exact (ih hp).bind fun _ _ he => Agree.pure ⟨he, rfl, rfl⟩
  | assignment a b iha ihb =>
    obtain ⟨ha, hb⟩ := hp.split rfl
    exact (iha ha).bind fun _ _ h₁ => (ihb hb).bind fun _ _ h₂ => Agree.pure ⟨h₁, h₂⟩
  | nil => exact List.Forall₂.nil
  | cons x l ihx ihl =>
    obtain ⟨hx, hl⟩ := hp.split rfl
    exact (ihx hx).bind fun _ _ h₁ => (ihl hl).bind fun _ _ h₂ => Agree.pure (.cons h₁ h₂)
  | caseNew => exact case_rel
  | caseWhen b c ihb ihc =>
    obtain ⟨hb, hc⟩ := hp.split rfl
    exact (ihb hb).bind fun _ _ h₁ => (ihc hc).bind fun _ _ h₂ => when_rel h₁ h₂
  | caseThen b r ihb ihr =>
    obtain ⟨hb, hr⟩ := hp.split rfl
    exact (ihb hb).bind fun _ _ h₁ => (ihr hr).bind fun _ _ h₂ => then_rel h₁ h₂
  | caseElse b r ihb ihr =>
    obtain ⟨hb, hr⟩ := hp.split rfl
    exact (ihb hb).bind fun _ _ h₁ => (ihr hr).bind fun _ _ h₂ => else_rel h₁ h₂
  | table name => exact Named.of_tableName (hp _ (.head _)).1
  | aliased q name ih => exact (ih hp).bind fun _ _ hv => aliased_rel hu name hv
  | tableWithColumns name columns =>
    obtain ⟨hname, hcols⟩ := List.forall_mem_cons.1 hp
    exact ⟨Named.of_tableName hname.1, rfl,
      fun c hc => (hcols (.code c.name) (List.mem_map_of_mem hc)).1, rfl, rfl⟩
  | aliasedColumns t name ih => exact (ih hp).bind fun _ _ ht => aliasedColumns_rel name ht
  | upcast t ih => exact (ih hp).bind fun _ _ ht => Agree.pure ht.name
  | ofTable t ih => exact (ih hp).bind fun _ _ h => Agree.pure (.table h)
  | ofTableWithColumns t ih => exact (ih hp).bind fun _ _ h => Agree.pure (.tableWithColumns h)
  | ofJoin j ih => exact (ih hp).bind fun _ _ h => Agree.pure (.join h)
  | ofSelect s ih => exact (ih hp).bind fun _ _ h => Agree.pure (.select h)
  | ofSetOp s ih => exact (ih hp).bind fun _ _ h => Agree.pure (.setOp h)
  | ofWith w ih => exact (ih hp).bind fun _ _ h => Agree.pure (.with h)
  | ofDeleteFrom d ih => exact (ih hp).bind fun _ _ h => Agree.pure (.deleteFrom h)
  | join a b kind iha ihb =>
    obtain ⟨ha, hb⟩ := hp.split rfl
    exact (iha ha).bind fun _ _ h₁ => (ihb hb).bind fun _ _ h₂ => newJoin_rel hu kind h₁ h₂
  | joinOn j c ihj ihc =>
    obtain ⟨hj, hc⟩ := hp.split rfl
    exact (ihj hj).bind fun _ _ h₁ => (ihc hc).bind fun _ _ h₂ => on_rel hu h₁ h₂
  | joinUsing j l ihj ihl =>
    obtain ⟨hj, hl⟩ := hp.split rfl
    exact (ihj hj).bind fun _ _ h₁ => (ihl hl).bind fun _ _ h₂ => using_rel hu h₁ h₂
  | setOp a b kind iha ihb =>
    obtain ⟨ha, hb⟩ := hp.split rfl
    exact (iha ha).bind fun _ _ h₁ => (ihb hb).bind fun _ _ h₂ => newSetOp_rel hu kind h₁ h₂
  | select tbl ih => exact (ih hp).bind fun _ _ hv => fromTable_rel hu hv
  | distinct s ih => exact (ih hp).bind fun _ _ hs => distinct_rel hs
  | distinctOn s l ihs ihl =>
    obtain ⟨hs, hl⟩ := hp.split rfl
    exact (ihs hs).bind fun _ _ h₁ => (ihl hl).bind fun _ _ h₂ => distinctOn_rel h₁ h₂
  | selectItems s l ihs ihl =>
    obtain ⟨hs, hl⟩ := hp.split rfl
    exact (ihs hs).bind fun _ _ h₁ => (ihl hl).bind fun _ _ h₂ => select_rel h₁ h₂
  | «where» s c ihs ihc =>
    obtain ⟨hs, hc⟩ := hp.split rfl
    exact (ihs hs).bind fun _ _ h₁ => (ihc hc).bind fun _ _ h₂ => selectWhere_rel h₁ h₂
  | groupBy s l ihs ihl =>
    obtain ⟨hs, hl⟩ := hp.split rfl
    exact (ihs hs).bind fun _ _ h₁ => (ihl hl).bind fun _ _ h₂ => groupBy_rel h₁ h₂
  | having s c ihs ihc =>
    obtain ⟨hs, hc⟩ := hp.split rfl
    exact (ihs hs).bind fun _ _ h₁ => (ihc hc).bind fun _ _ h₂ => having_rel h₁ h₂
  | orderBy s l ihs ihl =>
    obtain ⟨hs, hl⟩ := hp.split rfl
    exact (ihs hs).bind fun _ _ h₁ => (ihl hl).bind fun _ _ h₂ => orderBy_rel h₁ h₂
  | limit s n ih => exact (ih hp).bind fun _ _ hs => limit_rel n hs
  | offset s n ih => exact (ih hp).bind fun _ _ hs => offset_rel n hs
  | deleteFrom t ih => exact (ih hp).bind fun _ _ ht => Agree.pure (newDelete_rel ht)
  | deleteUsing d v ihd ihv =>
    obtain ⟨hd, hv⟩ := hp.split rfl
    exact (ihd hd).bind fun _ _ h₁ => (ihv hv).bind fun _ _ h₂ => deleteUsing_rel hu h₁ h₂
  | deleteWhere d c ihd ihc =>
    obtain ⟨hd, hc⟩ := hp.split rfl
    exact (ihd hd).bind fun _ _ h₁ => (ihc hc).bind fun _ _ h₂ => deleteWhere_rel hu h₁ h₂
  | deleteReturning d l ihd ihl =>
    obtain ⟨hd, hl⟩ := hp.split rfl
    exact (ihd hd).bind fun _ _ h₁ => (ihl hl).bind fun _ _ h₂ => deleteReturning_rel hu h₁ h₂
  | insertInto t ih => exact (ih hp).bind fun _ _ ht => Agree.pure (newInsert_rel ht)
  | columns s l ihs ihl =>
    obtain ⟨hs, hl⟩ := hp.split rfl
    exact (ihs hs).bind fun _ _ h₁ => (ihl hl).bind fun _ _ h₂ => columns_rel h₁ h₂
  | values s l ihs ihl =>
    obtain ⟨hs, hl⟩ := hp.split rfl
    exact (ihs hs).bind fun _ _ h₁ => (ihl hl).bind fun _ _ h₂ => values_rel h₁ h₂
  | rows s l ihs ihl =>
    obtain ⟨hs, hl⟩ := hp.split rfl
    exact (ihs hs).bind fun _ _ h₁ => (ihl hl).bind fun _ _ h₂ => rows_rel h₁ h₂
  | insertReturning s l ihs ihl =>
    obtain ⟨hs, hl⟩ := hp.split rfl
    exact (ihs hs).bind fun _ _ h₁ => (ihl hl).bind fun _ _ h₂ => insertReturning_rel hu h₁ h₂
  | onConflictDoNothing s ih => exact (ih hp).bind fun _ _ hs => onConflictDoNothing_rel hs
  | onConflictDoNothingAt s l ihs ihl =>
    obtain ⟨hs, hl⟩ := hp.split rfl
    exact (ihs hs).bind fun _ _ h₁ => (ihl hl).bind fun _ _ h₂ => onConflictDoNothingAt_rel hu h₁ h₂
  | onConflictDoUpdate s l a ihs ihl iha =>
    obtain ⟨hs, hl, ha⟩ := hp.split₃ rfl
    exact (ihs hs).bind fun _ _ h₁ => (ihl hl).bind fun _ _ h₂ => (iha ha).bind fun _ _ h₃ =>
      onConflictDoUpdate_rel hu h₁ h₂ h₃
  | update t ih => exact (ih hp).bind fun _ _ ht => Agree.pure (newUpdate_rel ht)
  | set s a b ihs iha ihb =>
    obtain ⟨hs, ha, hb⟩ := hp.split₃ rfl
    exact (ihs hs).bind fun _ _ h₁ => (iha ha).bind fun _ _ h₂ => (ihb hb).bind fun _ _ h₃ =>
      set_rel hu h₁ h₂ h₃
  | updateFrom s v ihs ihv =>
    obtain ⟨hs, hv⟩ := hp.split rfl
    exact (ihs hs).bind fun _ _ h₁ => (ihv hv).bind fun _ _ h₂ => updateFrom_rel hu h₁ h₂
  | updateWhere s c ihs ihc =>
    obtain ⟨hs, hc⟩ := hp.split rfl
    exact (ihs hs).bind fun _ _ h₁ => (ihc hc).bind fun _ _ h₂ => updateWhere_rel hu h₁ h₂
  | updateReturning s l ihs ihl =>
    obtain ⟨hs, hl⟩ := hp.split rfl
    exact (ihs hs).bind fun _ _ h₁ => (ihl hl).bind fun _ _ h₂ => updateReturning_rel hu h₁ h₂
  | withNew name q ih => exact (ih hp).bind fun _ _ hv => withCte_rel hu name hv
  | «with» b name q ihb ihq =>
    obtain ⟨hb, hq⟩ := hp.split rfl
    exact (ihb hb).bind fun _ _ h₁ => (ihq hq).bind fun _ _ h₂ => with_rel hu name h₁ h₂
  | main b q ihb ihq =>
    obtain ⟨hb, hq⟩ := hp.split rfl
    exact (ihb hb).bind fun _ _ h₁ => (ihq hq).bind fun _ _ h₂ => main_rel hu h₁ h₂
  | exprText e ih => exact (ih hp).bind fun _ _ he => Agree.pure he.text
  | conditionText c ih => exact (ih hp).bind fun _ _ hc => Agree.pure hc.text
  | virtualTableText q ih => exact (ih hp).bind fun _ _ hv => virtual_text_rel hu hv
  | insertText s ih => exact (ih hp).bind fun _ _ hs => insert_text_rel hu hs
  | updateText s ih => exact (ih hp).bind fun _ _ hs => update_text_rel hu hs

end

end IronQuery
