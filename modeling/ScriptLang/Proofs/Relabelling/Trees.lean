import Mathlib.Logic.Equiv.Basic
import ScriptLang.Proofs.Scoping.Places

/-!
# Other labels

A `Relabelling` gives the references of a tree other numbers and other words, and the variables
of each scope other names. What a scope is the scope of decides what its variables are called.
Names of routines, classes and properties stay, since a program can see them.

Two relabellings matter. One gives only other numbers to references (`Relabelling.renumbering`):
these depend on what was parsed before. The other gives one local variable another name, and
its references with it.
-/

namespace ScriptLang

open Scoping (Site Phrase)

/-- Other numbers and words for references, and other names for the variables of scopes. -/
structure Relabelling where
  id : Nat → Nat
  word : Ref → String
  names : Site → Equiv.Perm String

/-- Only the numbers change. -/
def Relabelling.renumbering (ρ : Nat → Nat) : Relabelling :=
  ⟨ρ, fun ref => ref.word.text, fun _ => Equiv.refl String⟩

@[simp]
theorem Relabelling.names_renumbering (ρ : Nat → Nat) (site : Site) :
    (renumbering ρ).names site = Equiv.refl String := rfl

/-- The word with another text. -/
def Lexeme.rename (π : Equiv.Perm String) (word : Lexeme) : Lexeme := ⟨π word.text, word.line⟩

/-- The reference with its other number and word. -/
def Ref.relabel (R : Relabelling) (ref : Ref) : Ref := ⟨R.id ref.id, ⟨R.word ref, ref.word.line⟩⟩

@[simp]
theorem Lexeme.rename_refl (word : Lexeme) : word.rename (Equiv.refl String) = word := rfl

@[simp]
theorem Lexeme.rename_refl_eq_id : Lexeme.rename (Equiv.refl String) = id := rfl

/-! ## Trees -/

mutual

/-- The expression with other labels. -/
@[simp]
def Expr.relabel (R : Relabelling) : Expr → Expr
  | .literal value => .literal value
  | .variable ref => .variable (ref.relabel R)
  | .assign ref value => .assign (ref.relabel R) (value.relabel R)
  | .unary op sign operand => .unary op sign (operand.relabel R)
  | .binary op sign left right => .binary op sign (left.relabel R) (right.relabel R)
  | .logical op sign left right => .logical op sign (left.relabel R) (right.relabel R)
  | .comma left right => .comma (left.relabel R) (right.relabel R)
  | .conditional condition whenTrue whenFalse =>
    .conditional (condition.relabel R) (whenTrue.relabel R) (whenFalse.relabel R)
  | .grouping inner => .grouping (inner.relabel R)
  | .call callee arguments closing =>
    .call (callee.relabel R) (Expr.relabelAll R arguments) closing
  | .get object property => .get (object.relabel R) property
  | .set object property value => .set (object.relabel R) property (value.relabel R)
  | .this ref => .this (ref.relabel R)
  | .super ref method => .super (ref.relabel R) method
  | .function ⟨params, body⟩ =>
    .function ⟨params.map (Lexeme.rename (R.names (.routine ⟨params, body⟩))),
      Stmt.relabelAll R (R.names (.routine ⟨params, body⟩)) body⟩

/-- The expressions with other labels. -/
@[simp]
def Expr.relabelAll (R : Relabelling) : List Expr → List Expr
  | [] => []
  | e :: es => e.relabel R :: Expr.relabelAll R es

/-- The statement with other labels, in a scope whose variables have the names `π`. -/
@[simp]
def Stmt.relabel (R : Relabelling) (π : Equiv.Perm String) : Stmt → Stmt
  | .expression e => .expression (e.relabel R)
  | .print e => .print (e.relabel R)
  | .vars ds => .vars (Declarator.relabelAll R π ds)
  | .block body => .block (Stmt.relabelAll R (R.names (.block body)) body)
  | .ifElse condition whenTrue none =>
    .ifElse (condition.relabel R) (whenTrue.relabel R π) none
  | .ifElse condition whenTrue (some whenFalse) =>
    .ifElse (condition.relabel R) (whenTrue.relabel R π) (some (whenFalse.relabel R π))
  | .whileLoop condition body => .whileLoop (condition.relabel R) (body.relabel R π)
  | .breakLoop keyword => .breakLoop keyword
  | .returnFrom keyword none => .returnFrom keyword none
  | .returnFrom keyword (some e) => .returnFrom keyword (some (e.relabel R))
  | .function name ⟨params, body⟩ =>
    .function name ⟨params.map (Lexeme.rename (R.names (.routine ⟨params, body⟩))),
      Stmt.relabelAll R (R.names (.routine ⟨params, body⟩)) body⟩
  | .class name superclass members =>
    .class name (superclass.map (Ref.relabel R)) (Method.relabelAll R members)

/-- The statements with other labels, in a scope whose variables have the names `π`. -/
@[simp]
def Stmt.relabelAll (R : Relabelling) (π : Equiv.Perm String) : List Stmt → List Stmt
  | [] => []
  | s :: rest => s.relabel R π :: Stmt.relabelAll R π rest

/-- The declared variables with other labels and the names `π`. -/
@[simp]
def Declarator.relabelAll (R : Relabelling) (π : Equiv.Perm String) :
    List Declarator → List Declarator
  | [] => []
  | ⟨name, none⟩ :: rest => ⟨name.rename π, none⟩ :: Declarator.relabelAll R π rest
  | ⟨name, some e⟩ :: rest =>
    ⟨name.rename π, some (e.relabel R)⟩ :: Declarator.relabelAll R π rest

/-- The methods with other labels. -/
@[simp]
def Method.relabelAll (R : Relabelling) : List Method → List Method
  | [] => []
  | ⟨name, ⟨params, body⟩⟩ :: rest =>
    ⟨name, ⟨params.map (Lexeme.rename (R.names (.routine ⟨params, body⟩))),
      Stmt.relabelAll R (R.names (.routine ⟨params, body⟩)) body⟩⟩ :: Method.relabelAll R rest

end

/-- The routine with other labels. -/
def Routine.relabel (R : Relabelling) (r : Routine) : Routine :=
  ⟨r.params.map (Lexeme.rename (R.names (.routine r))),
    Stmt.relabelAll R (R.names (.routine r)) r.body⟩

/-- The program with other labels. Its own variables are global and keep their names. -/
def Program.relabel (R : Relabelling) (p : Program) : Program :=
  ⟨Stmt.relabelAll R (Equiv.refl String) p.statements, p.trailing.map (Expr.relabel R)⟩

/-- The method with other labels. -/
def Method.relabel (R : Relabelling) (m : Method) : Method := ⟨m.name, m.routine.relabel R⟩

section Lists

variable (R : Relabelling) (π : Equiv.Perm String)

theorem Expr.relabelAll_eq_map (es : List Expr) : Expr.relabelAll R es = es.map (Expr.relabel R) := by
  induction es with
  | nil => rfl
  | cons e es ih => rw [Expr.relabelAll, ih, List.map_cons]

theorem Stmt.relabelAll_eq_map (body : List Stmt) :
    Stmt.relabelAll R π body = body.map (Stmt.relabel R π) := by
  induction body with
  | nil => rfl
  | cons s body ih => rw [Stmt.relabelAll, ih, List.map_cons]

theorem Method.relabelAll_eq_map (members : List Method) :
    Method.relabelAll R members = members.map (Method.relabel R) := by
  induction members with
  | nil => rfl
  | cons m members ih =>
    obtain ⟨name, params, body⟩ := m
    rw [Method.relabelAll, ih, List.map_cons]
    rfl

theorem Expr.relabel_function (r : Routine) :
    (Expr.function r).relabel R = .function (r.relabel R) := by
  obtain ⟨params, body⟩ := r
  rfl

theorem Stmt.relabel_function (name : Lexeme) (r : Routine) :
    (Stmt.function name r).relabel R π = .function name (r.relabel R) := by
  obtain ⟨params, body⟩ := r
  rfl

end Lists

/-! ## Tables of names -/

namespace Slots

variable {α β : Type} (π : Equiv.Perm String) (f : α → β)

/-- The table with other names and other values. -/
def relabel (s : Slots α) : Slots β := ⟨s.entries.map (Prod.map π f)⟩

theorem get?_relabel (s : Slots α) (name : String) :
    (s.relabel π f).get? (π name) = (s.get? name).map f := by
  obtain ⟨entries⟩ := s
  unfold relabel get?
  induction entries with
  | nil => rfl
  | cons entry entries ih =>
    obtain ⟨n, v⟩ := entry
    by_cases hn : n = name
    · simp [read, hn]
    · have hother : π n ≠ π name := fun h => hn (π.injective h)
      simp only [List.map_cons, Prod.map, read, hn, hother, if_false]
      exact ih

theorem relabel_set (s : Slots α) (name : String) (v : α) :
    (s.set name v).relabel π f = (s.relabel π f).set (π name) (f v) := by
  obtain ⟨entries⟩ := s
  have hwrite : (write name v entries).map (Prod.map π f) =
      write (π name) (f v) (entries.map (Prod.map π f)) := by
    induction entries with
    | nil => rfl
    | cons entry entries ih =>
      obtain ⟨n, w⟩ := entry
      by_cases hn : n = name
      · simp [write, hn]
      · have hother : π n ≠ π name := fun h => hn (π.injective h)
        simp only [write, hn, if_false, List.map_cons, Prod.map, hother, ih]
  exact congrArg Slots.mk hwrite

theorem names_relabel (s : Slots α) : (s.relabel π f).names = s.names.map π := by
  unfold names relabel
  rw [List.map_map, List.map_map]
  rfl

theorem contains_relabel (s : Slots α) (name : String) :
    (s.relabel π f).contains (π name) = s.contains name := by
  unfold contains
  rw [get?_relabel, Option.isSome_map]

theorem modify_relabel (s : Slots α) (name : String) {g : α → α} {g' : β → β}
    (hg : ∀ v, g' (f v) = f (g v)) :
    (s.relabel π f).modify (π name) g' = (s.modify name g).relabel π f := by
  unfold modify
  rw [get?_relabel]
  cases s.get? name with
  | none => rfl
  | some v =>
    rw [relabel_set, ← hg]
    rfl

end Slots

/-! ## Labels that stay -/

/-- Labels stay where the references have these numbers: the labels of the references, and the names
in the scopes that have no other references in them. -/
structure Fixes (R : Relabelling) (ids : List Nat) : Prop where
  refs : ∀ ref : Ref, ref.id ∈ ids → ref.relabel R = ref
  names : ∀ site : Site, (∀ id ∈ site.ids, id ∈ ids) → R.names site = Equiv.refl String

theorem Fixes.part {R : Relabelling} {ids ids' : List Nat} (h : Fixes R ids)
    (hids : ∀ id ∈ ids', id ∈ ids) : Fixes R ids' :=
  ⟨fun ref href => h.refs ref (hids ref.id href),
    fun site hsite => h.names site fun id hid => hids id (hsite id hid)⟩

theorem fixes_renumbering {ρ : Nat → Nat} {ids : List Nat} (h : ∀ id ∈ ids, ρ id = id) :
    Fixes (.renumbering ρ) ids := by
  refine ⟨fun ref href => ?_, fun _ _ => rfl⟩
  have hrelabel : ref.relabel (.renumbering ρ) = ⟨ρ ref.id, ref.word⟩ := rfl
  rw [hrelabel, h ref.id href]

section Fixed

variable {R : Relabelling}

mutual

/-- A tree whose labels stay is the same. -/
theorem Expr.relabel_of_fixed : (e : Expr) → Fixes R (Phrase.expression e).ids → e.relabel R = e
  | .literal _, _ => rfl
  | .variable ref, h => by rw [Expr.relabel, h.refs ref (by simp)]
  | .assign ref value, h => by
    rw [Expr.relabel, h.refs ref (by simp), Expr.relabel_of_fixed value (h.part (by simp +contextual))]
  | .unary op sign operand, h => by
    rw [Expr.relabel, Expr.relabel_of_fixed operand h]
  | .binary op sign left right, h => by
    rw [Expr.relabel, Expr.relabel_of_fixed left (h.part (by simp +contextual)),
      Expr.relabel_of_fixed right (h.part (by simp +contextual))]
  | .logical op sign left right, h => by
    rw [Expr.relabel, Expr.relabel_of_fixed left (h.part (by simp +contextual)),
      Expr.relabel_of_fixed right (h.part (by simp +contextual))]
  | .comma left right, h => by
    rw [Expr.relabel, Expr.relabel_of_fixed left (h.part (by simp +contextual)),
      Expr.relabel_of_fixed right (h.part (by simp +contextual))]
  | .conditional condition whenTrue whenFalse, h => by
    rw [Expr.relabel, Expr.relabel_of_fixed condition (h.part (by simp +contextual)),
      Expr.relabel_of_fixed whenTrue (h.part (by simp +contextual)),
      Expr.relabel_of_fixed whenFalse (h.part (by simp +contextual))]
  | .grouping inner, h => by rw [Expr.relabel, Expr.relabel_of_fixed inner h]
  | .call callee arguments closing, h => by
    rw [Expr.relabel, Expr.relabel_of_fixed callee (h.part (by simp +contextual)),
      Expr.relabelAll_of_fixed arguments (h.part (by simp +contextual))]
  | .get object property, h => by rw [Expr.relabel, Expr.relabel_of_fixed object h]
  | .set object property value, h => by
    rw [Expr.relabel, Expr.relabel_of_fixed object (h.part (by simp +contextual)),
      Expr.relabel_of_fixed value (h.part (by simp +contextual))]
  | .this ref, h => by rw [Expr.relabel, h.refs ref (by simp)]
  | .super ref method, h => by rw [Expr.relabel, h.refs ref (by simp)]
  | .function ⟨params, body⟩, h => by
    have hnames := h.names (.routine ⟨params, body⟩) fun _ hid => hid
    have hbody := Stmt.relabelAll_of_fixed body h
    rw [Expr.relabel, hnames, hbody, Lexeme.rename_refl_eq_id, List.map_id]

theorem Expr.relabelAll_of_fixed : (es : List Expr) → Fixes R (Phrase.expressions es).ids →
    Expr.relabelAll R es = es
  | [], _ => rfl
  | e :: es, h => by
    rw [Expr.relabelAll, Expr.relabel_of_fixed e (h.part (by simp +contextual)),
      Expr.relabelAll_of_fixed es (h.part (by simp +contextual))]

theorem Stmt.relabel_of_fixed : (s : Stmt) → Fixes R (Phrase.statement s).ids →
    s.relabel R (Equiv.refl String) = s
  | .expression e, h => by rw [Stmt.relabel, Expr.relabel_of_fixed e h]
  | .print e, h => by rw [Stmt.relabel, Expr.relabel_of_fixed e h]
  | .vars ds, h => by rw [Stmt.relabel, Declarator.relabelAll_of_fixed ds h]
  | .block body, h => by
    have hnames := h.names (.block body) fun _ hid => hid
    rw [Stmt.relabel, hnames, Stmt.relabelAll_of_fixed body h]
  | .ifElse condition whenTrue none, h => by
    rw [Stmt.relabel, Expr.relabel_of_fixed condition (h.part (by simp +contextual)),
      Stmt.relabel_of_fixed whenTrue (h.part (by simp +contextual))]
  | .ifElse condition whenTrue (some whenFalse), h => by
    rw [Stmt.relabel, Expr.relabel_of_fixed condition (h.part (by simp +contextual)),
      Stmt.relabel_of_fixed whenTrue (h.part (by simp +contextual)),
      Stmt.relabel_of_fixed whenFalse (h.part (by simp +contextual))]
  | .whileLoop condition body, h => by
    rw [Stmt.relabel, Expr.relabel_of_fixed condition (h.part (by simp +contextual)),
      Stmt.relabel_of_fixed body (h.part (by simp +contextual))]
  | .breakLoop _, _ => rfl
  | .returnFrom _ none, _ => rfl
  | .returnFrom _ (some e), h => by rw [Stmt.relabel, Expr.relabel_of_fixed e h]
  | .function name ⟨params, body⟩, h => by
    have hnames := h.names (.routine ⟨params, body⟩) fun _ hid => hid
    have hbody := Stmt.relabelAll_of_fixed body h
    rw [Stmt.relabel, hnames, hbody, Lexeme.rename_refl_eq_id, List.map_id]
  | .class name none members, h => by
    rw [Stmt.relabel, Method.relabelAll_of_fixed members h]
    rfl
  | .class name (some ref) members, h => by
    rw [Stmt.relabel, Method.relabelAll_of_fixed members (h.part (by simp +contextual)),
      Option.map_some, h.refs ref (by simp)]

theorem Stmt.relabelAll_of_fixed : (body : List Stmt) → Fixes R (Phrase.statements body).ids →
    Stmt.relabelAll R (Equiv.refl String) body = body
  | [], _ => rfl
  | s :: rest, h => by
    rw [Stmt.relabelAll, Stmt.relabel_of_fixed s (h.part (by simp +contextual)),
      Stmt.relabelAll_of_fixed rest (h.part (by simp +contextual))]

theorem Declarator.relabelAll_of_fixed : (ds : List Declarator) → Fixes R (Phrase.declarators ds).ids →
    Declarator.relabelAll R (Equiv.refl String) ds = ds
  | [], _ => rfl
  | ⟨name, none⟩ :: rest, h => by
    rw [Declarator.relabelAll, Declarator.relabelAll_of_fixed rest h, Lexeme.rename_refl]
  | ⟨name, some e⟩ :: rest, h => by
    rw [Declarator.relabelAll, Expr.relabel_of_fixed e (h.part (by simp +contextual)),
      Declarator.relabelAll_of_fixed rest (h.part (by simp +contextual)), Lexeme.rename_refl]

theorem Method.relabelAll_of_fixed : (members : List Method) → Fixes R (Phrase.methods members).ids →
    Method.relabelAll R members = members
  | [], _ => rfl
  | ⟨name, ⟨params, body⟩⟩ :: rest, h => by
    have hroutine : Fixes R (Phrase.routine ⟨params, body⟩).ids := h.part (by simp +contextual)
    have hnames := hroutine.names (.routine ⟨params, body⟩) fun _ hid => hid
    have hbody := Stmt.relabelAll_of_fixed body hroutine
    rw [Method.relabelAll, Method.relabelAll_of_fixed rest (h.part (by simp +contextual)), hnames,
      hbody, Lexeme.rename_refl_eq_id, List.map_id]

end

theorem Program.relabel_of_fixed {p : Program}
    (hstatements : Fixes R (Phrase.statements p.statements).ids)
    (htrailing : ∀ e, p.trailing = some e → Fixes R (Phrase.expression e).ids) : p.relabel R = p := by
  obtain ⟨statements, trailing⟩ := p
  unfold relabel
  rw [Stmt.relabelAll_of_fixed statements hstatements]
  cases trailing with
  | none => rfl
  | some e => rw [Option.map_some, Expr.relabel_of_fixed e (htrailing e rfl)]

end Fixed

end ScriptLang
