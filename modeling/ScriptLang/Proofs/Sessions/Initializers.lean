import ScriptLang.Proofs.Scoping.Initializers
import ScriptLang.Proofs.Sessions.History

/-!
# References to a local in its own initializer

A name that occurs in the initializer of a local of that name means two things. A variable that is
read is the one of that name further out, as if the local were not there. A variable that is assigned
is the local itself, although it does not exist before its initializer has come to its end: the walk
over an assignment does not ask whether the local is defined
(`initializer_reads_outward_assigns_inward`).
-/

namespace ScriptLang

open Scoping (Place Visits VisitsPlainly)
open Relation (ReflTransGen)

theorem Launch.Places.path {l : Launch} {P Q : Place} (h : l.Places P)
    (hpath : ReflTransGen VisitsPlainly P Q) : l.Places Q := by
  induction hpath with
  | refl => exact h
  | tail _ hlast ih => exact ih.visits hlast.1

/-- **An initializer reads outward, and assigns inward.** Of an accepted program, take a local that
is declared with an initializer, and a place in the initializer that is not inside a function there.
If a variable of the name of the local is read at the place, then it is bound to the nearest scope
further out that has the name, and to none if there is no such scope. If it is assigned, then it is
bound to the innermost scope, where the local that is being declared is, whatever is further out. -/
theorem initializer_reads_outward_assigns_inward {l : Launch} (hproper : l.program.Proper)
    (haccepted : l.program.resolve l.machine.globalNames = .ok l.bindings)
    {a : Scoping.Surroundings} {name : Lexeme} {e : Expr} {rest : List Declarator}
    {S : List Scoping.Site} {r : Scoping.Resolution}
    (hP : l.Places ⟨a, .declarators (⟨name, some e⟩ :: rest), S, r⟩) (hlocal : r.scopes ≠ [])
    {Q : Place} (hQ : ReflTransGen VisitsPlainly ⟨a, .expression e, S, r.declare name⟩ Q) {ref : Ref}
    (hname : ref.word.text = name.text) :
    (Q.phrase = .expression (.variable ref) → ∀ hops,
      l.bindings.hops? ref.id = some hops ↔ r.Outside name.text hops) ∧
    (∀ value, Q.phrase = .expression (.assign ref value) →
      l.bindings.hops? ref.id = some 0 ∧ Q.state.Declaring name) := by
  have hsound : Q.Sound l.bindings :=
    ((hP.visits .initializer).path hQ).sound fun _ hroot => hroot.sound hproper haccepted
  have hin := Place.inExpression rfl hQ
  have hdeclaring : Q.state.Declaring name :=
    (Scoping.Resolution.declaring_declare hlocal).spared hin.spares
  obtain ⟨a', t, S', r'⟩ := Q
  refine ⟨?_, ?_⟩
  · rintro rfl hops
    rw [hsound.read_outside (hname ▸ hdeclaring.initializing), ← hname,
      ← Scoping.Resolution.index?_one_eq_some, ← Scoping.Resolution.index?_one_eq_some]
    rw [Scoping.Resolution.index?_spared hin.spares.outer,
      Scoping.Resolution.index?_spared (Scoping.Resolution.spares_declare name)]
  · rintro value rfl
    exact ⟨hsound.assign_innermost hdeclaring hname, hdeclaring⟩

/-- A local whose initializer assigns and reads its name, inside a block with a variable of that
name. -/
theorem shadowing_initializer_binds : ∃ l a S r e Q Q' assigned read,
    Session.start.launch? 1 "{var a;{var a=(a=a);a;}}" .script = some l ∧
      l.Places ⟨a, .declarators [⟨⟨"a", 1⟩, some e⟩], S, r⟩ ∧ r.scopes.length = 2 ∧
      ReflTransGen VisitsPlainly ⟨a, .expression e, S, r.declare ⟨"a", 1⟩⟩ Q ∧
      ReflTransGen VisitsPlainly ⟨a, .expression e, S, r.declare ⟨"a", 1⟩⟩ Q' ∧
      Q.phrase = .expression (.assign assigned (.variable read)) ∧
      Q'.phrase = .expression (.variable read) ∧ assigned.word.text = "a" ∧ read.word.text = "a" ∧
      l.bindings.hops? assigned.id = some 0 ∧ Q.state.Declaring ⟨"a", 1⟩ ∧
      ∀ hops, l.bindings.hops? read.id = some hops ↔ r.Outside "a" hops := by
  let word : Lexeme := ⟨"a", 1⟩
  let e : Expr := .grouping (.assign ⟨0, word⟩ (.variable ⟨1, word⟩))
  let inner : List Stmt := [.vars [⟨word, some e⟩], .expression (.variable ⟨2, word⟩)]
  let l : Launch := ⟨.start, (((∅ : Bindings).bind 1 1).bind 0 0).bind 2 0, 1,
    ⟨[.block [.vars [⟨word, none⟩], .block inner]], none⟩⟩
  have hlaunch : Session.start.launch? 1 "{var a;{var a=(a=a);a;}}" .script = some l := rfl
  have hfollows := Session.follows_of_launch hlaunch
  have houter := (Launch.Root.statements (l := l)).places.visits .head |>.visits .block
  have hplace := ((houter.visits .tail).visits .head).visits .block |>.visits .head
    |>.visits .declared
  have hassigned {a S r} : ReflTransGen VisitsPlainly ⟨a, .expression e, S, r⟩
      ⟨a, .expression (.assign ⟨0, word⟩ (.variable ⟨1, word⟩)), S, r⟩ := .single ⟨.grouping, nofun⟩
  have hread {a S r} : ReflTransGen VisitsPlainly ⟨a, .expression e, S, r⟩
      ⟨a, .expression (.variable ⟨1, word⟩), S, r⟩ := hassigned.tail ⟨.assignValue, nofun⟩
  have hname (id : Nat) : (⟨id, word⟩ : Ref).word.text = word.text := rfl
  have hlocal := initializer_reads_outward_assigns_inward hfollows.proper hfollows.accepted hplace
    (List.cons_ne_nil _ _) hassigned (hname 0)
  have houtward := initializer_reads_outward_assigns_inward hfollows.proper hfollows.accepted hplace
    (List.cons_ne_nil _ _) hread (hname 1)
  obtain ⟨hbound, hdeclaring⟩ := hlocal.2 _ rfl
  exact ⟨l, _, _, _, e, _, _, _, _, hlaunch, hplace, rfl, hassigned, hread, rfl, rfl, rfl, rfl,
    hbound, hdeclaring, houtward.1 rfl⟩

/-- An assignment to the name of a local in its initializer is not bound to the enclosing variable of
that name, although there is one, but to the local itself. -/
theorem assignment_in_initializer_is_bound_inward : ∃ l a S r e Q ref value,
    Session.start.launch? 1 "{var a;{var a=(a=nil);a;}a;}" .script = some l ∧
      l.Places ⟨a, .declarators [⟨⟨"a", 1⟩, some e⟩], S, r⟩ ∧
      ReflTransGen VisitsPlainly ⟨a, .expression e, S, r.declare ⟨"a", 1⟩⟩ Q ∧
      Q.phrase = .expression (.assign ref value) ∧ ref.word.text = "a" ∧ r.Outside "a" 1 ∧
      l.bindings.hops? ref.id = some 0 := by
  let word : Lexeme := ⟨"a", 1⟩
  let e : Expr := .grouping (.assign ⟨0, word⟩ (.literal .nil))
  let inner : List Stmt := [.vars [⟨word, some e⟩], .expression (.variable ⟨1, word⟩)]
  let l : Launch := ⟨.start, (((∅ : Bindings).bind 0 0).bind 1 0).bind 2 0, 1,
    ⟨[.block [.vars [⟨word, none⟩], .block inner, .expression (.variable ⟨2, word⟩)]], none⟩⟩
  have hlaunch : Session.start.launch? 1 "{var a;{var a=(a=nil);a;}a;}" .script = some l := rfl
  have houter := (Launch.Root.statements (l := l)).places.visits .head |>.visits .block
  have hplace := ((houter.visits .tail).visits .head).visits .block |>.visits .head
    |>.visits .declared
  refine ⟨l, _, _, _, e, _, _, _, hlaunch, hplace, .single ⟨.grouping, nofun⟩, rfl, rfl,
    ⟨Nat.one_pos, ⟨_, rfl, rfl⟩, fun k _ hk hk' => ?_⟩, rfl⟩
  omega

end ScriptLang
