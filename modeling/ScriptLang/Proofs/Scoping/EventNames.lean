import ScriptLang.Proofs.Program.WellFormed
import ScriptLang.Proofs.Scoping.Events

/-!
# The names of events

In a tree that was parsed, things are named by names that are free, and what is looked up for `this`
and `super`, and found in the scopes around the methods of a class, are keywords. So the two never
meet (`Event.Proper`).
-/

namespace ScriptLang

open Scoping (Path Event)

/-- The names of an event are no keywords, but for those of `this` and `super`. -/
def Scoping.Event.Proper : Event → Prop
  | opensFor special _ => ¬ IsFree special
  | declares word | defines word => IsFree word.text
  | reads ref | assigns ref => IsFree ref.word.text
  | stands path node => ∀ ref ∈ node.lookUp? path, ¬ IsFree ref.word.text
  | opens | closes => True

/-- All the events are proper. -/
def Scoping.Event.AllProper (es : List Event) : Prop := ∀ e ∈ es, e.Proper

namespace Scoping.Event

variable {es es' : List Event} {e : Event}

theorem allProper_nil : AllProper [] := fun _ h => nomatch h

theorem allProper_cons : AllProper (e :: es) ↔ e.Proper ∧ AllProper es := List.forall_mem_cons

theorem allProper_append : AllProper (es ++ es') ↔ AllProper es ∧ AllProper es' :=
  List.forall_mem_append

theorem allProper_introduces {word : Lexeme} (h : IsFree word.text) :
    AllProper (introduces word) := by
  unfold introduces
  exact allProper_cons.mpr ⟨h, allProper_cons.mpr ⟨h, allProper_nil⟩⟩

theorem allProper_params {params : List Lexeme} (h : ∀ p ∈ params, IsFree p.text) :
    AllProper (params.flatMap introduces) := by
  intro e he
  obtain ⟨p, hp, he⟩ := List.mem_flatMap.mp he
  exact allProper_introduces (h p hp) e he

theorem allProper_opensClass {path : Path} {name : Lexeme} {superclass : Option Ref}
    (h : ∀ ref ∈ superclass, IsFree ref.word.text) :
    AllProper (opensClass path name superclass) := by
  cases superclass with
  | none => exact allProper_cons.mpr ⟨this_not_free, allProper_nil⟩
  | some ref =>
    refine allProper_cons.mpr ⟨nofun, allProper_cons.mpr ⟨h ref rfl, ?_⟩⟩
    exact allProper_cons.mpr ⟨super_not_free, allProper_cons.mpr ⟨this_not_free, allProper_nil⟩⟩

theorem allProper_closesClass (superclass : Option Ref) : AllProper (closesClass superclass) := by
  cases superclass with
  | none => exact allProper_cons.mpr ⟨trivial, allProper_nil⟩
  | some ref => exact allProper_cons.mpr ⟨trivial, allProper_cons.mpr ⟨trivial, allProper_nil⟩⟩

end Scoping.Event

open Scoping.Event (AllProper allProper_nil allProper_cons allProper_append)

mutual

theorem Expr.allProper_events (path : Path) :
    ∀ e : Expr, e.WellFormed → AllProper (e.events path)
  | .literal _, _ => allProper_nil
  | .variable _, h => allProper_cons.mpr ⟨h, allProper_nil⟩
  | .assign _ value, h =>
    allProper_append.mpr ⟨value.allProper_events path h.2, allProper_cons.mpr ⟨h.1, allProper_nil⟩⟩
  | .unary _ _ operand, h => operand.allProper_events path h
  | .binary _ _ left right, h =>
    allProper_append.mpr ⟨left.allProper_events path h.1, right.allProper_events path h.2⟩
  | .logical _ _ left right, h =>
    allProper_append.mpr ⟨left.allProper_events path h.1, right.allProper_events path h.2⟩
  | .comma left right, h =>
    allProper_append.mpr ⟨left.allProper_events path h.1, right.allProper_events path h.2⟩
  | .conditional condition whenTrue whenFalse, h =>
    allProper_append.mpr ⟨allProper_append.mpr ⟨condition.allProper_events path h.1,
      whenTrue.allProper_events path h.2.1⟩, whenFalse.allProper_events path h.2.2⟩
  | .grouping inner, h => inner.allProper_events path h
  | .call callee arguments _, h =>
    allProper_append.mpr ⟨callee.allProper_events path h.1,
      Expr.allProper_listEvents path arguments h.2⟩
  | .get object _, h => object.allProper_events path h
  | .set object _ value, h =>
    allProper_append.mpr ⟨value.allProper_events path h.2, object.allProper_events path h.1⟩
  | .this ref, h => by
    refine allProper_cons.mpr ⟨fun ref' href' => ?_, allProper_nil⟩
    obtain ⟨descent, -, rfl⟩ := Option.map_eq_some_iff.mp href'
    have hname : ref.word.text = "this" := h
    rw [hname]
    exact this_not_free
  | .super ref _, h => by
    refine allProper_cons.mpr ⟨fun ref' href' => ?_, allProper_nil⟩
    cases href'
    have hname : ref.word.text = "super" := h
    rw [hname]
    exact super_not_free
  | .function ⟨params, body⟩, h => Routine.allProper_events _ ⟨params, body⟩ h

theorem Expr.allProper_listEvents (path : Path) :
    ∀ es : List Expr, Expr.AllWellFormed es → AllProper (Expr.listEvents path es)
  | [], _ => allProper_nil
  | e :: es, h =>
    allProper_append.mpr ⟨e.allProper_events path h.1, Expr.allProper_listEvents path es h.2⟩

theorem Stmt.allProper_events (path : Path) :
    ∀ s : Stmt, s.WellFormed → AllProper (s.events path)
  | .expression e, h => e.allProper_events path h
  | .print e, h => e.allProper_events path h
  | .vars declarators, h => Declarator.allProper_listEvents path declarators h
  | .block body, h =>
    allProper_cons.mpr ⟨trivial, allProper_append.mpr ⟨Stmt.allProper_listEvents path body h,
      allProper_cons.mpr ⟨trivial, allProper_nil⟩⟩⟩
  | .ifElse condition whenTrue none, h =>
    allProper_append.mpr ⟨condition.allProper_events path h.1, whenTrue.allProper_events path h.2.1⟩
  | .ifElse condition whenTrue (some whenFalse), h =>
    allProper_append.mpr ⟨allProper_append.mpr ⟨condition.allProper_events path h.1,
      whenTrue.allProper_events path h.2.1.1⟩, whenFalse.allProper_events path h.2.2.1⟩
  | .whileLoop condition body, h =>
    allProper_append.mpr ⟨condition.allProper_events path h.1, body.allProper_events _ h.2.1⟩
  | .breakLoop _, _ => allProper_cons.mpr ⟨nofun, allProper_nil⟩
  | .returnFrom _ none, _ => allProper_cons.mpr ⟨nofun, allProper_nil⟩
  | .returnFrom _ (some e), h => allProper_cons.mpr ⟨nofun, e.allProper_events path h⟩
  | .function _ ⟨params, body⟩, h =>
    allProper_append.mpr ⟨Scoping.Event.allProper_introduces h.1,
      Routine.allProper_events _ ⟨params, body⟩ h.2⟩
  | .class _ superclass methods, h =>
    allProper_append.mpr ⟨allProper_append.mpr ⟨allProper_append.mpr
      ⟨Scoping.Event.allProper_introduces h.1, Scoping.Event.allProper_opensClass h.2.1⟩,
      Method.allProper_listEvents _ methods h.2.2⟩, Scoping.Event.allProper_closesClass superclass⟩

theorem Stmt.allProper_listEvents (path : Path) :
    ∀ body : List Stmt, Stmt.AllWellFormed body → AllProper (Stmt.listEvents path body)
  | [], _ => allProper_nil
  | s :: rest, h =>
    allProper_append.mpr ⟨s.allProper_events path h.1, Stmt.allProper_listEvents path rest h.2⟩

theorem Declarator.allProper_listEvents (path : Path) :
    ∀ ds : List Declarator, Declarator.AllWellFormed ds → AllProper (Declarator.listEvents path ds)
  | [], _ => allProper_nil
  | ⟨_, none⟩ :: rest, h =>
    allProper_append.mpr ⟨Scoping.Event.allProper_introduces h.1,
      Declarator.allProper_listEvents path rest h.2⟩
  | ⟨_, some e⟩ :: rest, h =>
    allProper_append.mpr ⟨allProper_cons.mpr ⟨h.1, allProper_append.mpr
      ⟨e.allProper_events path h.2.1, allProper_cons.mpr ⟨h.1, allProper_nil⟩⟩⟩,
      Declarator.allProper_listEvents path rest h.2.2⟩

theorem Method.allProper_listEvents (path : Path) :
    ∀ ms : List Method, Method.AllWellFormed ms → AllProper (Method.listEvents path ms)
  | [], _ => allProper_nil
  | ⟨_, ⟨params, body⟩⟩ :: rest, h =>
    allProper_append.mpr ⟨Routine.allProper_events _ ⟨params, body⟩ h.1,
      Method.allProper_listEvents path rest h.2⟩

theorem Routine.allProper_events (path : Path) :
    ∀ r : Routine, r.WellFormed → AllProper (r.events path)
  | ⟨_, body⟩, h =>
    allProper_append.mpr ⟨allProper_cons.mpr ⟨trivial, allProper_append.mpr
      ⟨Scoping.Event.allProper_params h.1, Stmt.allProper_listEvents path body h.2⟩⟩,
      allProper_cons.mpr ⟨trivial, allProper_nil⟩⟩

end

theorem Program.allProper_events {p : Program} (hstatements : Stmt.AllWellFormed p.statements)
    (htrailing : Expr.AllWellFormed p.trailing.toList) : AllProper p.events := by
  refine allProper_append.mpr ⟨Stmt.allProper_listEvents [] p.statements hstatements, ?_⟩
  cases hp : p.trailing with
  | none => exact allProper_nil
  | some e =>
    rw [hp] at htrailing
    exact e.allProper_events [] htrailing.1

end ScriptLang
