import Mathlib.Data.List.Perm.Subperm
import ScriptLang.Proofs.Relabelling.Places
import ScriptLang.Proofs.Scoping.Tracking

/-!
# The numbers of events

An event can bind one reference, and no reference is bound at two events. So if no two references of
a program have the same number, nor have two of its events (`Program.nodup_numbers`). Then what is
bound at an event stays bound so, and the table that the walk leaves says of each variable where the
local is that it belongs to by position (`Program.hops?_walked`).
-/

namespace ScriptLang

open Scoping (Path Event Phrase Node Resolution)

namespace Scoping.Event

/-- The number of the reference that the event can bind. -/
def number? : Event → Option Nat
  | reads ref | assigns ref => some ref.id
  | stands path node => (node.lookUp? path).map (·.id)
  | _ => none

/-- The numbers of the references that the events can bind. -/
def numbers (es : List Event) : List Nat := es.filterMap number?

section Numbers

variable {es es' : List Event}

theorem numbers_append : numbers (es ++ es') = numbers es ++ numbers es' :=
  List.filterMap_append

theorem numbers_cons_none {e : Event} (h : e.number? = none) :
    numbers (e :: es) = numbers es := List.filterMap_cons_none h

theorem numbers_params (params : List Lexeme) : numbers (params.flatMap introduces) = [] := by
  induction params with
  | nil => rfl
  | cons word params ih =>
    rw [List.flatMap_cons, numbers_append, ih]
    rfl

theorem numbers_opensClass (path : Path) (name : Lexeme) (superclass : Option Ref) :
    numbers (opensClass path name superclass) = superclass.toList.map (·.id) := by
  cases superclass <;> rfl

theorem numbers_closesClass (superclass : Option Ref) : numbers (closesClass superclass) = [] := by
  cases superclass <;> rfl

end Numbers

end Scoping.Event

open Scoping.Event (numbers numbers_append)

/-! ## Each number is that of a reference -/

mutual

theorem Expr.numbers_events (path : Path) :
    ∀ e : Expr, (numbers (e.events path)).Subperm (Phrase.expression e).ids
  | .literal _ => .refl _
  | .variable _ => .refl _
  | .assign ref value => by
    rw [Expr.events, numbers_append, Phrase.ids_assign]
    exact ((value.numbers_events path).append (.refl [ref.id])).trans
      List.perm_append_comm.subperm
  | .unary _ _ operand => operand.numbers_events path
  | .binary _ _ left right => by
    rw [Expr.events, numbers_append, Phrase.ids_binary]
    exact (left.numbers_events path).append (right.numbers_events path)
  | .logical _ _ left right => by
    rw [Expr.events, numbers_append, Phrase.ids_logical]
    exact (left.numbers_events path).append (right.numbers_events path)
  | .comma left right => by
    rw [Expr.events, numbers_append, Phrase.ids_comma]
    exact (left.numbers_events path).append (right.numbers_events path)
  | .conditional condition whenTrue whenFalse => by
    rw [Expr.events, numbers_append, numbers_append, Phrase.ids_conditional]
    exact ((condition.numbers_events path).append (whenTrue.numbers_events path)).append
      (whenFalse.numbers_events path)
  | .grouping inner => inner.numbers_events path
  | .call callee arguments _ => by
    rw [Expr.events, numbers_append, Phrase.ids_call]
    exact (callee.numbers_events path).append (Expr.numbers_listEvents path arguments)
  | .get object _ => object.numbers_events path
  | .set object _ value => by
    rw [Expr.events, numbers_append, Phrase.ids_set]
    exact ((value.numbers_events path).append (object.numbers_events path)).trans
      List.perm_append_comm.subperm
  | .this ref => by
    have hnumber : Scoping.Event.number? (.stands path (.this ref)) =
        path.descent?.map fun _ => ref.id := Option.map_map ..
    rw [Expr.events, Phrase.ids_this, Scoping.Event.numbers, List.filterMap_cons, hnumber]
    cases path.descent? with
    | none => exact List.nil_subperm
    | some descent => exact .refl _
  | .super _ _ => .refl _
  | .function ⟨params, body⟩ => Routine.numbers_events _ ⟨params, body⟩

theorem Expr.numbers_listEvents (path : Path) :
    ∀ es : List Expr, (numbers (Expr.listEvents path es)).Subperm (Phrase.expressions es).ids
  | [] => .refl _
  | e :: es => by
    rw [Expr.listEvents, numbers_append, Phrase.ids_expressions]
    exact (e.numbers_events path).append (Expr.numbers_listEvents path es)

theorem Stmt.numbers_events (path : Path) :
    ∀ s : Stmt, (numbers (s.events path)).Subperm (Phrase.statement s).ids
  | .expression e => e.numbers_events path
  | .print e => e.numbers_events path
  | .vars declarators => Declarator.numbers_listEvents path declarators
  | .block body => by
    rw [Stmt.events, numbers_append, Scoping.Event.numbers_cons_none rfl]
    exact (List.append_nil _).symm ▸ Stmt.numbers_listEvents path body
  | .ifElse condition whenTrue none => by
    rw [Stmt.events, numbers_append, Phrase.ids_if]
    exact (condition.numbers_events path).append (whenTrue.numbers_events path)
  | .ifElse condition whenTrue (some whenFalse) => by
    rw [Stmt.events, numbers_append, numbers_append, Phrase.ids_ifElse]
    exact ((condition.numbers_events path).append (whenTrue.numbers_events path)).append
      (whenFalse.numbers_events path)
  | .whileLoop condition body => by
    rw [Stmt.events, numbers_append, Phrase.ids_while]
    exact (condition.numbers_events path).append (body.numbers_events _)
  | .breakLoop _ => .refl _
  | .returnFrom _ none => .refl _
  | .returnFrom _ (some e) => e.numbers_events path
  | .function _ ⟨params, body⟩ => Routine.numbers_events _ ⟨params, body⟩
  | .class _ superclass methods => by
    have hmethods := Method.numbers_listEvents
      (.class (if superclass.isSome then .derived else .base) :: path) methods
    rw [Stmt.events, numbers_append, numbers_append, numbers_append,
      Scoping.Event.numbers_opensClass, Scoping.Event.numbers_closesClass, List.append_nil]
    cases superclass with
    | none => exact hmethods
    | some ref => exact (List.Subperm.refl [ref.id]).append hmethods

theorem Stmt.numbers_listEvents (path : Path) :
    ∀ body : List Stmt, (numbers (Stmt.listEvents path body)).Subperm (Phrase.statements body).ids
  | [] => .refl _
  | s :: rest => by
    rw [Stmt.listEvents, numbers_append, Phrase.ids_statements]
    exact (s.numbers_events path).append (Stmt.numbers_listEvents path rest)

theorem Declarator.numbers_listEvents (path : Path) :
    ∀ ds : List Declarator,
      (numbers (Declarator.listEvents path ds)).Subperm (Phrase.declarators ds).ids
  | [] => .refl _
  | ⟨_, none⟩ :: rest => Declarator.numbers_listEvents path rest
  | ⟨_, some e⟩ :: rest => by
    rw [Declarator.listEvents, numbers_append, numbers_append, Phrase.ids_initialized]
    refine List.Subperm.append ?_ (Declarator.numbers_listEvents path rest)
    exact (List.append_nil _).symm ▸ e.numbers_events path

theorem Method.numbers_listEvents (path : Path) :
    ∀ ms : List Method, (numbers (Method.listEvents path ms)).Subperm (Phrase.methods ms).ids
  | [] => .refl _
  | ⟨_, ⟨params, body⟩⟩ :: rest => by
    rw [Method.listEvents, numbers_append, Phrase.ids_methods]
    exact (Routine.numbers_events _ ⟨params, body⟩).append (Method.numbers_listEvents path rest)

theorem Routine.numbers_events (path : Path) :
    ∀ r : Routine, (numbers (r.events path)).Subperm (Phrase.routine r).ids
  | ⟨params, body⟩ => by
    rw [Routine.events, numbers_append, List.cons_append, Scoping.Event.numbers_cons_none rfl,
      numbers_append, Scoping.Event.numbers_params]
    exact (List.append_nil _).symm ▸ Stmt.numbers_listEvents path body

end

/-- No two events of a program can bind references of the same number. -/
theorem Program.nodup_numbers {p : Program}
    (h : ((Phrase.statements p.statements).ids ++
      (Phrase.expressions p.trailing.toList).ids).Nodup) : (numbers p.events).Nodup := by
  have htrailing : (numbers ((p.trailing.map (Expr.events [])).getD [])).Subperm
      (Phrase.expressions p.trailing.toList).ids := by
    cases p.trailing with
    | none => exact .refl _
    | some e =>
      have hids : (Phrase.expressions (some e).toList).ids = (Phrase.expression e).ids := by simp
      rw [hids]
      exact e.numbers_events []
  have hall := (Stmt.numbers_listEvents [] p.statements).append htrailing
  rw [← numbers_append] at hall
  obtain ⟨ids, hperm, hsublist⟩ := hall
  exact hperm.nodup_iff.mp (h.sublist hsublist)

/-! ## Bindings that stay -/

namespace Scoping.Resolution

variable {es : List Event} {k : Nat} {e : Event} {r : Resolution} {ref : Ref} {id : Nat}
variable {globals : List String}

theorem bindings_leave (r : Resolution) : r.leave.bindings = r.bindings := by
  unfold leave
  cases r.scopes with
  | nil => rfl
  | cons scope scopes =>
    dsimp only
    rw [foldl_report_eq]

/-- An event leaves the bindings of all references but its own. -/
theorem hops?_take_of_ne (h : e.number? ≠ some id) :
    (r.take e).bindings.hops? id = r.bindings.hops? id := by
  have hquiet {r r' : Resolution} {names : List String} (hgrows : r.Grows [] names r') :
      r'.bindings.hops? id = r.bindings.hops? id := hgrows.bindings id List.not_mem_nil
  have hown {ref : Ref} {r r' : Resolution} (hne : some ref.id ≠ some id)
      (hgrows : r.Grows [ref.id] [] r') : r'.bindings.hops? id = r.bindings.hops? id :=
    hgrows.bindings id fun hid => hne (congrArg some (List.mem_singleton.mp hid).symm)
  cases e with
  | opens => rfl
  | opensFor special name => rfl
  | closes => rw [take, bindings_leave]
  | declares word => exact hquiet (grows_declare word)
  | defines word => exact hquiet (grows_define word)
  | reads ref => exact hown h (grows_read (List.mem_singleton_self _))
  | assigns ref => exact hown h (grows_refer (List.mem_singleton_self _))
  | stands path node =>
    unfold take
    dsimp only
    cases hnode : node.lookUp? path with
    | none => rfl
    | some ref =>
      rw [Event.number?, hnode] at h
      exact hown (r := { r with found := r.found ++ (node.fault? path).toList }) h
        (grows_refer (List.mem_singleton_self _))

/-- An event binds its variable if there is a local for it. -/
theorem hops?_take (href : e.looksUp? = some ref) (hnone : r.bindings.hops? ref.id = none) :
    (r.take e).bindings.hops? ref.id = r.hops? e := by
  cases e with
  | reads _ =>
    cases href
    exact hops?_read hnone
  | assigns _ =>
    cases href
    exact hops?_refer hnone
  | _ => cases href

/-- The events from one to another leave the bindings of all references but their own. -/
theorem hops?_before_of_ne {n : Nat} (hkn : k ≤ n) (hn : n ≤ es.length)
    (h : ∀ j e, k ≤ j → j < n → es[j]? = some e → e.number? ≠ some id) :
    (before globals es n).bindings.hops? id = (before globals es k).bindings.hops? id := by
  induction hkn with
  | refl => rfl
  | @step n hkn ih =>
    have he : es[n]? = some es[n] := List.getElem?_eq_getElem hn
    rw [before_succ he, hops?_take_of_ne (h n _ hkn (Nat.lt_succ_self n) he)]
    exact ih (Nat.le_of_succ_le hn) fun j e hj hjn => h j e hj (Nat.lt_succ_of_lt hjn)

end Scoping.Resolution

theorem Scoping.Event.number?_of_looksUp {e : Event} {ref : Ref} (h : e.looksUp? = some ref) :
    e.number? = some ref.id := by
  cases e <;> cases h <;> rfl

/-- **What the walk leaves as the binding of a variable** is where the local is that the variable
belongs to by position. -/
theorem Program.hops?_walked {p : Program} (globals : List String)
    (hproper : Scoping.Event.AllProper p.events) (hdistinct : (numbers p.events).Nodup) {k : Nat}
    {e : Event} (he : p.events[k]? = some e) {ref : Ref} (href : e.looksUp? = some ref) {hops : Nat} :
    (p.walked globals).bindings.hops? ref.id = some hops ↔
      ∃ i, Scoping.Event.Resolves p.events k i hops := by
  obtain ⟨hk, heq⟩ := List.getElem?_eq_some_iff.mp he
  have hother (j : Nat) (e' : Event) (hne : j ≠ k) (he' : p.events[j]? = some e') :
      e'.number? ≠ some ref.id := by
    obtain ⟨hj, rfl⟩ := List.getElem?_eq_some_iff.mp he'
    subst heq
    have hpairwise := List.pairwise_filterMap.mp hdistinct
    have hnumber := Scoping.Event.number?_of_looksUp href
    intro hnumber'
    rcases Nat.lt_or_gt_of_ne hne with hlt | hgt
    · exact List.pairwise_iff_getElem.mp hpairwise j k hj hk hlt _ hnumber' _ hnumber rfl
    · exact List.pairwise_iff_getElem.mp hpairwise k j hk hj hgt _ hnumber _ hnumber' rfl
  have hbefore : (Resolution.before globals p.events k).bindings.hops? ref.id = none :=
    Resolution.hops?_before_of_ne (Nat.zero_le k) (Nat.le_of_lt hk) fun j e' _ hj he' =>
      hother j e' (Nat.ne_of_lt hj) he'
  have hafter : (p.walked globals).bindings.hops? ref.id =
      (Resolution.before globals p.events (k + 1)).bindings.hops? ref.id := by
    rw [← p.before_length globals]
    exact Resolution.hops?_before_of_ne hk (Nat.le_refl _) fun j e' hj _ he' =>
      hother j e' (Nat.ne_of_gt hj) he'
  rw [hafter, Resolution.before_succ he, Resolution.hops?_take href hbefore]
  exact (Resolution.tracked_before globals hproper (Nat.le_of_lt hk)).hops?_eq_some he
    (hproper e (List.mem_of_getElem? he))

end ScriptLang
