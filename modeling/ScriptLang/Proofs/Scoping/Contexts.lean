import ScriptLang.Proofs.Scoping.Events
import ScriptLang.Proofs.Sorting

/-!
# Faults of context

Jumps, `this`, `super` and the names of superclasses are right or wrong by what is around them, and
by nothing else: not by the names that are declared, nor by other faults. So the faults of this kind
are those of the nodes of the program, each with the path to it (`Program.nodes`), whatever else is
found. The list of all faults goes by lines, and on one line by the order of the walk
(`context_faults_are_exact`).
-/

namespace ScriptLang

/-- The fault is one of context, and not one of a declared name. -/
def ScopeFault.isOfContext : ScopeFault → Bool
  | returnAtTopLevel | returnFromInitializer | breakOutsideLoop | thisOutsideClass
  | superOutsideClass | superWithoutSuperclass | inheritsFromItself => true
  | alreadyDeclared _ | ownInitializer _ | unusedLocal _ => false

/-- The diagnostic is about a fault of context. -/
def Diagnostic.isOfContext (d : Diagnostic) : Bool :=
  match d.fault with
  | .scope fault => fault.isOfContext
  | _ => false

namespace Scoping

/-- The node of an event, with the path to it. -/
def Event.node? : Event → Option (Path × Node)
  | stands path node => some (path, node)
  | _ => none

/-- What is wrong with the nodes among some events. -/
def Event.contextFaults (es : List Event) : List Diagnostic :=
  (es.filterMap Event.node?).filterMap fun (path, node) => node.fault? path

theorem Node.isOfContext_fault? {path : Path} {node : Node} {d : Diagnostic}
    (h : node.fault? path = some d) : d.isOfContext = true := by
  unfold fault? at h
  split at h
  · -- `break`
    split at h <;> simp only [Option.some.injEq, reduceCtorEq] at h
    rw [← h]
    rfl
  · -- `return`
    split at h
    · simp only [Option.some.injEq] at h
      rw [← h]
      rfl
    · split at h <;> simp only [Option.some.injEq, reduceCtorEq] at h
      rw [← h]
      rfl
    · simp only [reduceCtorEq] at h
  · -- `this`
    split at h <;> simp only [Option.some.injEq, reduceCtorEq] at h
    rw [← h]
    rfl
  · -- `super`
    split at h <;> simp only [Option.some.injEq, reduceCtorEq] at h <;> rw [← h] <;> rfl
  · -- a superclass
    split at h <;> simp only [Option.some.injEq, reduceCtorEq] at h
    rw [← h]
    rfl

/-- A step finds the faults of context of its node, and no others. -/
theorem Resolution.finds_filter_isOfContext (r : Resolution) (e : Event) :
    (r.finds e).filter Diagnostic.isOfContext = Event.contextFaults [e] := by
  cases e with
  | opens => rfl
  | opensFor special name => rfl
  | closes =>
    change ((r.scopes.head?.map fun scope => (unused scope).map unusedFault).getD []).filter _ = []
    refine List.filter_eq_nil_iff.mpr fun d hd => ?_
    cases hhead : r.scopes.head? with
    | none =>
      rw [hhead] at hd
      cases hd
    | some scope =>
      rw [hhead] at hd
      obtain ⟨l, -, rfl⟩ := List.mem_map.mp hd
      exact Bool.false_ne_true
  | declares word =>
    change (if _ then [Diagnostic.scope word _] else []).filter _ = []
    split <;> rfl
  | defines word => rfl
  | reads ref =>
    change (if _ then [Diagnostic.scope ref.word _] else []).filter _ = []
    split <;> rfl
  | assigns ref => rfl
  | stands path node =>
    change (node.fault? path).toList.filter _ = ([(path, node)] : List (Path × Node)).filterMap _
    cases hfault : node.fault? path with
    | none => simp [hfault]
    | some d => simp [hfault, Node.isOfContext_fault? hfault]

/-- Of all that is found by a walk, the faults of context are those of the nodes. -/
theorem Resolution.found_filter_isOfContext (r : Resolution) (es : List Event) :
    (r.takeAll es).found.filter Diagnostic.isOfContext =
      r.found.filter Diagnostic.isOfContext ++ Event.contextFaults es := by
  induction es generalizing r with
  | nil => exact (List.append_nil _).symm
  | cons e es ih =>
    have hcons : Event.contextFaults (e :: es) =
        Event.contextFaults [e] ++ Event.contextFaults es := by
      unfold Event.contextFaults
      rw [← List.filterMap_append, ← List.filterMap_append]
      rfl
    rw [takeAll_cons, ih, found_take, List.filter_append, finds_filter_isOfContext, hcons,
      List.append_assoc]

end Scoping

open Scoping (Path Node)

/-- The jumps, the `this` and `super`, and the superclasses of a program, in the order of the walk and
with the paths to them. -/
def Program.nodes (p : Program) : List (Path × Node) := p.events.filterMap Scoping.Event.node?

/-- **Faults of context are reported exactly.** On each line, the faults of context that are reported
for a program are those of its nodes, in the order of the walk: one for each `break` without a loop
around it in the same routine or outside of routines, for each `return` outside of routines, for each
`return` with a value in an initializer, for each `this` and each `super` outside of classes, for each
`super` in a class without a superclass, and for each class that names itself as its superclass. All
that is reported is in the order of lines, and on one line in the order in which the walk found
it. -/
theorem context_faults_are_exact (p : Program) (globals : List String) :
    (∀ n, ((p.scopeFaults globals).filter Diagnostic.isOfContext).filter (·.line = n) =
      (p.nodes.filterMap fun (path, node) => node.fault? path).filter (·.line = n)) ∧
    (p.scopeFaults globals).Pairwise (fun d d' => d.line ≤ d'.line) ∧
    ∀ n, (p.scopeFaults globals).filter (·.line = n) =
      (p.walked globals).found.filter (·.line = n) := by
  rw [Program.scopeFaults_eq]
  have hfound : (p.walked globals).found.filter Diagnostic.isOfContext =
      p.nodes.filterMap fun (path, node) => node.fault? path :=
    Scoping.Resolution.found_filter_isOfContext _ p.events
  refine ⟨fun n => ?_, pairwise_sortByNumber _ _, fun n => filter_eq_sortByNumber n _⟩
  rw [filter_sortByNumber, filter_eq_sortByNumber, hfound]

end ScriptLang
