import ScriptLang.Proofs.Scoping.Walk

/-!
# A program, event by event

As far as names and jumps are concerned, a program is a list of events in the order in which the
walk comes across them: a scope begins or ends, a name is declared or defined, a variable is read or
assigned, and here and there stands a node whose meaning depends on what is around it
(`Program.events`). The list is read off the tree alone. The walk does one small step for each event
and nothing else (`program_eq_takeAll`), so that what it does to a whole program follows from what
it does for one event, by induction on the list.
-/

namespace ScriptLang.Scoping

/-! ## Surroundings as paths -/

/-- What can be around a place and matter for jumps, `this` and `super`: the body of a loop, the body
of a routine, and the methods of a class. -/
inductive Enclosing
  | loop
  | routine (role : Role)
  | class (descent : Descent)
  deriving DecidableEq

namespace Enclosing

/-- Whether it is a routine, which no jump leaves but `return`. -/
def isRoutine : Enclosing → Bool
  | routine _ => true
  | _ => false

/-- What a routine is called for. -/
def role? : Enclosing → Option Role
  | routine role => some role
  | _ => none

/-- Whether a class has a superclass. -/
def descent? : Enclosing → Option Descent
  | «class» descent => some descent
  | _ => none

end Enclosing

/-- What is around a place, from the inside out. -/
abbrev Path := List Enclosing

namespace Path

/-- There is a loop around the place, inside the innermost routine. -/
def inLoop (path : Path) : Bool := .loop ∈ path.takeWhile (!·.isRoutine)

/-- What the innermost routine is called for. -/
def role? (path : Path) : Option Role := path.findSome? Enclosing.role?

/-- Whether the innermost class has a superclass. -/
def descent? (path : Path) : Option Descent := path.findSome? Enclosing.descent?

/-- As much of what is around a place as the walk keeps. -/
def surroundings (path : Path) : Surroundings := ⟨path.role?, path.descent?, path.inLoop⟩

theorem surroundings_loop (path : Path) :
    surroundings (.loop :: path) = { path.surroundings with inLoop := true } := rfl

theorem surroundings_routine (path : Path) (role : Role) :
    surroundings (.routine role :: path) = path.surroundings.within role := rfl

theorem surroundings_class (path : Path) (descent : Descent) :
    surroundings (.class descent :: path) =
      { path.surroundings with descent := some descent } := by
  have hinside : List.takeWhile (!·.isRoutine) (.class descent :: path) =
    .class descent :: path.takeWhile (!·.isRoutine) := rfl
  have hloop : inLoop (.class descent :: path) = path.inLoop := by simp [inLoop, hinside]
  unfold surroundings
  rw [hloop]
  rfl

end Path

/-! ## Nodes that depend on their surroundings -/

/-- A node whose meaning depends on what is around it, or on its own name. -/
inductive Node
  | break (keyword : Lexeme)
  | return (keyword : Lexeme) (hasValue : Bool)
  | this (ref : Ref)
  | super (ref : Ref)
  | inherits (name : Lexeme) (superclass : Ref)

namespace Node

/-- What is wrong with a node at a place: a `break` without a loop around it in the same routine, a
`return` outside all routines, or with a value in an initializer, `this` or `super` outside all
classes, `super` in a class without a superclass, and a class that names itself as its superclass. -/
def fault? (path : Path) : Node → Option Diagnostic
  | .break keyword => if path.inLoop then none else some (.scope keyword .breakOutsideLoop)
  | .return keyword hasValue =>
    match path.role? with
    | none => some (.scope keyword .returnAtTopLevel)
    | some .initializer => if hasValue then some (.scope keyword .returnFromInitializer) else none
    | some _ => none
  | .this ref =>
    match path.descent? with
    | none => some (.scope ref.word .thisOutsideClass)
    | some _ => none
  | .super ref =>
    match path.descent? with
    | none => some (.scope ref.word .superOutsideClass)
    | some .base => some (.scope ref.word .superWithoutSuperclass)
    | some .derived => none
  | .inherits name superclass =>
    if superclass.word.text = name.text then some (.scope superclass.word .inheritsFromItself)
    else none

/-- The name that is looked up for a node: `super` always, and `this` only in a class. -/
def lookUp? (path : Path) : Node → Option Ref
  | .this ref => path.descent?.map fun _ => ref
  | .super ref => some ref
  | _ => none

end Node

/-! ## Events -/

/-- What a program says about names and jumps. -/
inductive Event
  /-- The scope of a block or a routine begins. -/
  | opens
  /-- The scope of `this` or `super` begins, around the methods of a class. -/
  | opensFor (special : String) (name : Lexeme)
  | closes
  | declares (word : Lexeme)
  /-- A declared name has its value. -/
  | defines (word : Lexeme)
  | reads (ref : Ref)
  | assigns (ref : Ref)
  | stands (path : Path) (node : Node)

/-- A name is declared and has its value at once. -/
def Event.introduces (word : Lexeme) : List Event := [.declares word, .defines word]

/-- The scopes around the methods of a class begin, after its superclass is looked up. -/
def Event.opensClass (path : Path) (name : Lexeme) : Option Ref → List Event
  | none => [.opensFor "this" name]
  | some superclass =>
    [.stands path (.inherits name superclass), .reads superclass, .opensFor "super" name,
      .opensFor "this" name]

/-- The scopes around the methods of a class end. -/
def Event.closesClass : Option Ref → List Event
  | none => [.closes]
  | some _ => [.closes, .closes]

end Scoping

open Scoping (Path Event)

mutual

/-- The events of an expression. -/
def Expr.events (path : Path) : Expr → List Event
  | .literal _ => []
  | .variable ref => [.reads ref]
  | .assign ref value => value.events path ++ [.assigns ref]
  | .unary _ _ operand => operand.events path
  | .binary _ _ left right => left.events path ++ right.events path
  | .logical _ _ left right => left.events path ++ right.events path
  | .comma left right => left.events path ++ right.events path
  | .conditional condition whenTrue whenFalse =>
    condition.events path ++ whenTrue.events path ++ whenFalse.events path
  | .grouping inner => inner.events path
  | .call callee arguments _ => callee.events path ++ Expr.listEvents path arguments
  | .get object _ => object.events path
  | .set object _ value => value.events path ++ object.events path
  | .this ref => [.stands path (.this ref)]
  | .super ref _ => [.stands path (.super ref)]
  | .function routine => routine.events (.routine .function :: path)

/-- The events of several expressions. -/
def Expr.listEvents (path : Path) : List Expr → List Event
  | [] => []
  | e :: es => e.events path ++ Expr.listEvents path es

/-- The events of a statement. -/
def Stmt.events (path : Path) : Stmt → List Event
  | .expression e => e.events path
  | .print e => e.events path
  | .vars declarators => Declarator.listEvents path declarators
  | .block body => .opens :: Stmt.listEvents path body ++ [.closes]
  | .ifElse condition whenTrue none => condition.events path ++ whenTrue.events path
  | .ifElse condition whenTrue (some whenFalse) =>
    condition.events path ++ whenTrue.events path ++ whenFalse.events path
  | .whileLoop condition body => condition.events path ++ body.events (.loop :: path)
  | .breakLoop keyword => [.stands path (.break keyword)]
  | .returnFrom keyword none => [.stands path (.return keyword false)]
  | .returnFrom keyword (some e) => .stands path (.return keyword true) :: e.events path
  | .function name routine =>
    Event.introduces name ++ routine.events (.routine .function :: path)
  | .class name superclass methods =>
    Event.introduces name ++ Event.opensClass path name superclass ++
      Method.listEvents (.class (if superclass.isSome then .derived else .base) :: path) methods ++
      Event.closesClass superclass

/-- The events of several statements. -/
def Stmt.listEvents (path : Path) : List Stmt → List Event
  | [] => []
  | s :: rest => s.events path ++ Stmt.listEvents path rest

/-- The events of several declared variables. -/
def Declarator.listEvents (path : Path) : List Declarator → List Event
  | [] => []
  | ⟨name, none⟩ :: rest => Event.introduces name ++ Declarator.listEvents path rest
  | ⟨name, some e⟩ :: rest =>
    .declares name :: e.events path ++ [.defines name] ++ Declarator.listEvents path rest

/-- The events of several methods. -/
def Method.listEvents (path : Path) : List Method → List Event
  | [] => []
  | ⟨name, routine⟩ :: rest =>
    routine.events (.routine (.ofMethod name.text) :: path) ++ Method.listEvents path rest

/-- The events of a routine. Its parameters are in one scope with its statements. -/
def Routine.events (path : Path) : Routine → List Event
  | ⟨params, body⟩ =>
    .opens :: params.flatMap Event.introduces ++ Stmt.listEvents path body ++ [.closes]

end

/-- The events of a program. -/
def Program.events (p : Program) : List Event :=
  Stmt.listEvents [] p.statements ++ (p.trailing.map (Expr.events [])).getD []

namespace Scoping

/-! ## The walk, event by event -/

namespace Resolution

/-- One step of the walk. -/
def take (r : Resolution) : Event → Resolution
  | .opens => r.enter
  | .opensFor special name => r.enter (implicitly special name)
  | .closes => r.leave
  | .declares word => r.declare word
  | .defines word => r.define word
  | .reads ref => r.read ref
  | .assigns ref => r.refer ref
  | .stands path node =>
    let r := { r with found := r.found ++ (node.fault? path).toList }
    match node.lookUp? path with
    | some ref => r.refer ref
    | none => r

/-- Several steps of the walk. -/
def takeAll (r : Resolution) (es : List Event) : Resolution := es.foldl take r

@[simp] theorem takeAll_nil (r : Resolution) : r.takeAll [] = r := rfl

@[simp] theorem takeAll_cons (r : Resolution) (e : Event) (es : List Event) :
    r.takeAll (e :: es) = (r.take e).takeAll es := rfl

@[simp] theorem takeAll_append (r : Resolution) (es es' : List Event) :
    r.takeAll (es ++ es') = (r.takeAll es).takeAll es' := List.foldl_append

theorem takeAll_introduces (r : Resolution) (word : Lexeme) :
    r.takeAll (Event.introduces word) = (r.declare word).define word := rfl

theorem takeAll_params (r : Resolution) (params : List Lexeme) :
    r.takeAll (params.flatMap Event.introduces) = r.declareAll params := by
  induction params generalizing r with
  | nil => rfl
  | cons word params ih =>
    rw [List.flatMap_cons, takeAll_append, ih]
    rfl

theorem report_eq (r : Resolution) (word : Lexeme) (fault : ScopeFault) :
    r.report word fault = { r with found := r.found ++ [.scope word fault] } := rfl

variable (path : Path) (r : Resolution)

theorem take_break (keyword : Lexeme) :
    r.take (.stands path (.break keyword)) = r.checkBreak path.surroundings keyword := by
  unfold take checkBreak
  cases h : path.inLoop <;> simp [Path.surroundings, Node.fault?, Node.lookUp?, h, report_eq]

theorem take_return (keyword : Lexeme) (hasValue : Bool) :
    r.take (.stands path (.return keyword hasValue)) =
      r.checkReturn path.surroundings keyword hasValue := by
  unfold take checkReturn
  cases h : path.role? with
  | none => simp [Path.surroundings, Node.fault?, Node.lookUp?, h, report_eq]
  | some role =>
    cases role <;> cases hasValue <;>
      simp [Path.surroundings, Node.fault?, Node.lookUp?, h, report_eq]

theorem take_this (ref : Ref) :
    r.take (.stands path (.this ref)) = r.referThis path.surroundings ref := by
  unfold take referThis
  cases h : path.descent? <;> simp [Path.surroundings, Node.fault?, Node.lookUp?, h, report_eq]

theorem take_super (ref : Ref) :
    r.take (.stands path (.super ref)) = r.referSuper path.surroundings ref := by
  unfold take referSuper
  cases h : path.descent? with
  | none => simp [Path.surroundings, Node.fault?, Node.lookUp?, h, report_eq]
  | some descent =>
    cases descent <;> simp [Path.surroundings, Node.fault?, Node.lookUp?, h, report_eq]

theorem takeAll_opensClass (name : Lexeme) (superclass : Option Ref) :
    r.takeAll (Event.opensClass path name superclass) = r.enterClass name superclass := by
  cases superclass with
  | none => rfl
  | some ref =>
    have hinherits : r.take (.stands path (.inherits name ref)) =
        if ref.word.text = name.text then r.report ref.word .inheritsFromItself else r := by
      unfold take
      by_cases h : ref.word.text = name.text <;> simp [Node.fault?, Node.lookUp?, h, report_eq]
    simp only [Event.opensClass, takeAll_cons, takeAll_nil, hinherits]
    rfl

theorem takeAll_closesClass (superclass : Option Ref) :
    r.takeAll (Event.closesClass superclass) = r.leaveClass superclass := by
  cases superclass <;> rfl

end Resolution

open Resolution

mutual

theorem expression_eq_takeAll (path : Path) :
    ∀ e r, expression path.surroundings e r = r.takeAll (e.events path)
  | .literal _, _ => rfl
  | .variable _, _ => rfl
  | .assign ref value, r => by
    rw [Expr.events, takeAll_append, ← expression_eq_takeAll path value]
    rfl
  | .unary _ _ operand, r => expression_eq_takeAll path operand r
  | .binary _ _ left right, r => by
    rw [Expr.events, takeAll_append, ← expression_eq_takeAll path left,
      ← expression_eq_takeAll path right]
    rfl
  | .logical _ _ left right, r => by
    rw [Expr.events, takeAll_append, ← expression_eq_takeAll path left,
      ← expression_eq_takeAll path right]
    rfl
  | .comma left right, r => by
    rw [Expr.events, takeAll_append, ← expression_eq_takeAll path left,
      ← expression_eq_takeAll path right]
    rfl
  | .conditional condition whenTrue whenFalse, r => by
    rw [Expr.events, takeAll_append, takeAll_append, ← expression_eq_takeAll path condition,
      ← expression_eq_takeAll path whenTrue, ← expression_eq_takeAll path whenFalse]
    rfl
  | .grouping inner, r => expression_eq_takeAll path inner r
  | .call callee arguments _, r => by
    rw [Expr.events, takeAll_append, ← expression_eq_takeAll path callee,
      ← expressions_eq_takeAll path arguments]
    rfl
  | .get object _, r => expression_eq_takeAll path object r
  | .set object _ value, r => by
    rw [Expr.events, takeAll_append, ← expression_eq_takeAll path value,
      ← expression_eq_takeAll path object]
    rfl
  | .this ref, r => (take_this path r ref).symm
  | .super ref _, r => (take_super path r ref).symm
  | .function ⟨params, body⟩, r => by
    rw [Expr.events, ← routineBody_eq_takeAll, Path.surroundings_routine]
    rfl

theorem expressions_eq_takeAll (path : Path) :
    ∀ es r, expressions path.surroundings es r = r.takeAll (Expr.listEvents path es)
  | [], _ => rfl
  | e :: es, r => by
    rw [Expr.listEvents, takeAll_append, ← expression_eq_takeAll path e,
      ← expressions_eq_takeAll path es]
    rfl

theorem statement_eq_takeAll (path : Path) :
    ∀ s r, statement path.surroundings s r = r.takeAll (s.events path)
  | .expression e, r => expression_eq_takeAll path e r
  | .print e, r => expression_eq_takeAll path e r
  | .vars ds, r => declarators_eq_takeAll path ds r
  | .block body, r => by
    rw [Stmt.events, List.cons_append, takeAll_cons, takeAll_append,
      ← statements_eq_takeAll path body]
    rfl
  | .ifElse condition whenTrue none, r => by
    rw [Stmt.events, takeAll_append, ← expression_eq_takeAll path condition,
      ← statement_eq_takeAll path whenTrue]
    rfl
  | .ifElse condition whenTrue (some whenFalse), r => by
    rw [Stmt.events, takeAll_append, takeAll_append, ← expression_eq_takeAll path condition,
      ← statement_eq_takeAll path whenTrue, ← statement_eq_takeAll path whenFalse]
    rfl
  | .whileLoop condition body, r => by
    rw [Stmt.events, takeAll_append, ← expression_eq_takeAll path condition,
      ← statement_eq_takeAll (.loop :: path) body, Path.surroundings_loop]
    rfl
  | .breakLoop keyword, r => (take_break path r keyword).symm
  | .returnFrom keyword none, r => (take_return path r keyword false).symm
  | .returnFrom keyword (some e), r => by
    rw [Stmt.events, takeAll_cons, take_return, ← expression_eq_takeAll path e]
    rfl
  | .function name ⟨params, body⟩, r => by
    rw [Stmt.events, takeAll_append, takeAll_introduces, ← routineBody_eq_takeAll,
      Path.surroundings_routine]
    rfl
  | .class name superclass members, r => by
    rw [Stmt.events, takeAll_append, takeAll_append, takeAll_append, takeAll_introduces,
      takeAll_opensClass, ← methods_eq_takeAll _ members, Path.surroundings_class,
      takeAll_closesClass]
    rfl

theorem statements_eq_takeAll (path : Path) :
    ∀ body r, statements path.surroundings body r = r.takeAll (Stmt.listEvents path body)
  | [], _ => rfl
  | s :: rest, r => by
    rw [Stmt.listEvents, takeAll_append, ← statement_eq_takeAll path s,
      ← statements_eq_takeAll path rest]
    rfl

theorem declarators_eq_takeAll (path : Path) :
    ∀ ds r, declarators path.surroundings ds r = r.takeAll (Declarator.listEvents path ds)
  | [], _ => rfl
  | ⟨name, none⟩ :: rest, r => by
    rw [Declarator.listEvents, takeAll_append, takeAll_introduces,
      ← declarators_eq_takeAll path rest]
    rfl
  | ⟨name, some e⟩ :: rest, r => by
    rw [Declarator.listEvents, takeAll_append, List.cons_append, takeAll_cons, takeAll_append,
      ← expression_eq_takeAll path e, ← declarators_eq_takeAll path rest]
    rfl

theorem methods_eq_takeAll (path : Path) :
    ∀ members r, methods path.surroundings members r = r.takeAll (Method.listEvents path members)
  | [], _ => rfl
  | ⟨name, ⟨params, body⟩⟩ :: rest, r => by
    rw [Method.listEvents, takeAll_append, ← routineBody_eq_takeAll, Path.surroundings_routine,
      ← methods_eq_takeAll path rest]
    rfl

theorem routineBody_eq_takeAll (path : Path) :
    ∀ routine r, routineBody path.surroundings routine r = r.takeAll (routine.events path)
  | ⟨params, body⟩, r => by
    rw [Routine.events, List.cons_append, List.cons_append, takeAll_cons, takeAll_append,
      takeAll_append, takeAll_params, ← statements_eq_takeAll path body]
    rfl

end

/-- **The walk over a program takes its events**, one after the other. -/
theorem program_eq_takeAll (p : Program) (r : Resolution) : program p r = r.takeAll p.events := by
  obtain ⟨body, trailing⟩ := p
  have hstatements := statements_eq_takeAll [] body r
  cases trailing with
  | none =>
    rw [Program.events, takeAll_append, ← hstatements]
    rfl
  | some e =>
    rw [Program.events, takeAll_append, ← hstatements]
    exact expression_eq_takeAll [] e _

end Scoping

/-! ## What a step finds -/

namespace Scoping

namespace Resolution

/-- A local that nothing refers to. -/
def unusedFault (l : Local) : Diagnostic := .scope l.word (.unusedLocal l.word.text)

/-- The faults that a step adds to those found before. -/
def finds (r : Resolution) : Event → List Diagnostic
  | .closes => (r.scopes.head?.map fun scope => (unused scope).map unusedFault).getD []
  | .declares word =>
    if r.scopes.head?.any (·.contains word.text) then [.scope word (.alreadyDeclared word.text)]
    else []
  | .reads ref =>
    if r.initializing ref.word.text ∧ r.bind? ref 1 = none ∧ ref.word.text ∉ r.globals then
      [.scope ref.word (.ownInitializer ref.word.text)]
    else []
  | .stands path node => (node.fault? path).toList
  | _ => []

variable (r : Resolution)

theorem foldl_report_eq (ls : List Local) :
    ls.foldl (fun r l => r.report l.word (.unusedLocal l.word.text)) r =
      { r with found := r.found ++ ls.map unusedFault } := by
  induction ls generalizing r with
  | nil => simp
  | cons l ls ih =>
    rw [List.foldl_cons, ih]
    simp [report, unusedFault]

theorem found_define (word : Lexeme) : (r.define word).found = r.found := by
  unfold define
  split <;> rfl

theorem found_bind? {r r' : Resolution} {ref : Ref} {skipped : Nat}
    (h : r.bind? ref skipped = some r') : r'.found = r.found := by
  unfold bind? at h
  split at h
  · cases h
  · cases h
    rfl

theorem found_refer (ref : Ref) : (r.refer ref).found = r.found := by
  unfold refer
  cases h : r.bind? ref with
  | none => rfl
  | some r' => exact found_bind? h

theorem found_leave : r.leave.found = r.found ++ r.finds .closes := by
  unfold leave finds
  cases r.scopes with
  | nil => simp
  | cons scope scopes => simp [foldl_report_eq]

theorem found_declare (word : Lexeme) :
    (r.declare word).found = r.found ++ r.finds (.declares word) := by
  unfold declare finds
  cases r.scopes with
  | nil => simp
  | cons scope scopes => cases h : scope.contains word.text <;> simp [h, report]

theorem found_read (ref : Ref) : (r.read ref).found = r.found ++ r.finds (.reads ref) := by
  unfold read finds
  cases hinitializing : r.initializing ref.word.text with
  | false => simp [found_refer, hinitializing]
  | true =>
    cases hbind : r.bind? ref 1 with
    | some r' => simp [found_bind? hbind, hbind]
    | none =>
      by_cases hknown : ref.word.text ∈ r.globals <;> simp [hinitializing, hbind, hknown, report]

/-- A step keeps the faults found before and adds its own. -/
theorem found_take (e : Event) : (r.take e).found = r.found ++ r.finds e := by
  cases e with
  | opens => exact (List.append_nil _).symm
  | opensFor special name => exact (List.append_nil _).symm
  | closes => exact found_leave r
  | declares word => exact found_declare r word
  | defines word => exact (found_define r word).trans (List.append_nil _).symm
  | reads ref => exact found_read r ref
  | assigns ref => exact (found_refer r ref).trans (List.append_nil _).symm
  | stands path node =>
    unfold take finds
    dsimp only
    split
    · exact found_refer _ _
    · rfl

end Resolution

end Scoping

/-- What the walk over a program leaves that knows the given globals. -/
def Program.walked (p : Program) (globals : List String) : Scoping.Resolution :=
  (Scoping.Resolution.start globals).takeAll p.events

/-- The faults of a program that knows the given globals. -/
def Program.scopeFaults (p : Program) (globals : List String) : List Diagnostic :=
  match p.resolve globals with
  | .ok _ => []
  | .error ds => ds

/-- The faults of a program are what the walk finds, by line. -/
theorem Program.scopeFaults_eq (p : Program) (globals : List String) :
    p.scopeFaults globals =
      sortByNumber Diagnostic.line (p.walked globals).found := by
  unfold walked
  rw [← Scoping.program_eq_takeAll]
  unfold scopeFaults resolve
  dsimp only
  by_cases h : (Scoping.program p (.start globals)).found = []
  · rw [if_pos h, h]
    rfl
  · rw [if_neg h]

end ScriptLang
