import ScriptLang.Diagnostic
import ScriptLang.Program.Tree
import ScriptLang.Scoping.Bindings
import ScriptLang.Slots
import ScriptLang.Sorting

/-!
# Static scopes

While a program is read for its names, the blocks, routines and classes around the current
place form a stack of scopes, the innermost first. A scope knows each of its locals: the
word that declared it, whether its initializer is done, and whether it was referred to.
Outside all scopes names are global, and only their existence is kept.

`Resolution` is that stack with what was found out so far: the bindings of references, and
the faults.
-/

namespace ScriptLang.Scoping

/-- A name of a scope. -/
structure Local where
  /-- The word that declared it. -/
  word : Lexeme
  /-- Whether its initializer is done. -/
  defined : Bool
  /-- Whether some reference is bound to it. -/
  used : Bool
  /-- How many names its scope had when it was declared. -/
  order : Nat
  deriving DecidableEq

/-- The names of one block, routine or class. -/
abbrev Scope := Slots Local

/-- The scopes around a place of a program, and what is known so far. -/
structure Resolution where
  scopes : List Scope
  globals : List String
  bindings : Bindings
  found : List Diagnostic

namespace Resolution

/-- The start of a program that knows the given globals. -/
def start (globals : List String) : Resolution := ⟨[], globals, ∅, []⟩

/-- One more fault. -/
def report (r : Resolution) (word : Lexeme) (fault : ScopeFault) : Resolution :=
  { r with found := r.found ++ [.scope word fault] }

/-! ## Scopes -/

/-- Enter a scope. -/
def enter (r : Resolution) (scope : Scope := .empty) : Resolution :=
  { r with scopes := scope :: r.scopes }

/-- The locals of a scope that nothing refers to, in the order of their declarations. -/
def unused (scope : Scope) : List Local :=
  sortByNumber Local.order ((scope.entries.map (·.2)).filter (!·.used))

/-- Leave the innermost scope. Every local that nothing refers to is a fault. -/
def leave (r : Resolution) : Resolution :=
  match r.scopes with
  | [] => r
  | scope :: scopes =>
    (unused scope).foldl (fun r l => r.report l.word (.unusedLocal l.word.text))
      { r with scopes }

/-! ## Declarations -/

/-- Declare a name in the innermost scope. A name that is there already is a fault, and is
declared anew. -/
def declare (r : Resolution) (word : Lexeme) : Resolution :=
  match r.scopes with
  | [] => { r with globals := word.text :: r.globals }
  | scope :: scopes =>
    let r := if scope.contains word.text then
      r.report word (.alreadyDeclared word.text) else r
    { r with scopes := scope.set word.text ⟨word, false, false, scope.size⟩ :: scopes }

/-- Note that the initializer of a name of the innermost scope is done. -/
def define (r : Resolution) (word : Lexeme) : Resolution :=
  match r.scopes with
  | [] => r
  | scope :: scopes =>
    { r with scopes := scope.modify word.text ({ · with defined := true }) :: scopes }

/-- A scope with one name that every reference may use and none has to. -/
def implicitly (name : String) (word : Lexeme) : Scope :=
  Slots.empty.set name ⟨word, true, true, 0⟩

/-! ## References -/

/-- Bind a reference to the innermost scope that has its name, without regard to the first
`skipped` scopes. -/
def bind? (r : Resolution) (ref : Ref) (skipped : Nat := 0) : Option Resolution :=
  match (r.scopes.drop skipped).findIdx? (·.contains ref.word.text) with
  | none => none
  | some i =>
    let hops := skipped + i
    some { r with
      scopes := r.scopes.modify hops (·.modify ref.word.text ({ · with used := true }))
      bindings := r.bindings.bind ref.id hops }

/-- Bind a reference if its name is local. -/
def refer (r : Resolution) (ref : Ref) : Resolution := (r.bind? ref).getD r

/-- Whether the innermost scope has a name whose initializer is not done. -/
def initializing (r : Resolution) (name : String) : Bool :=
  match r.scopes with
  | [] => false
  | scope :: _ =>
    match scope.get? name with
    | some l => !l.defined
    | none => false

/-- Bind a reference that reads a variable. In the initializer of a local of its name it
means what the name meant before, an outer local or a global that exists. -/
def read (r : Resolution) (ref : Ref) : Resolution :=
  if r.initializing ref.word.text then
    match r.bind? ref 1 with
    | some r' => r'
    | none =>
      if ref.word.text ∈ r.globals then r
      else r.report ref.word (.ownInitializer ref.word.text)
  else
    r.refer ref

end Resolution

end ScriptLang.Scoping
