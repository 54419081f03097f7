import ScriptLang.Proofs.Evaluation.Runs
import ScriptLang.Proofs.Scoping.Classes

/-!
# Static scopes and frames

What ties the frames of a run to the scopes that the walk over a program saw. A `World` has
the places of the programs that were accepted and the moments that happened. Some moments make
a frame for a site (`Moment.Activates`): entering a block, calling a function, giving a method
its `this`, and declaring a class with a superclass. The last two also give the new frame the one
name that it has, which is a keyword (`Moment.Provides`).

A frame is *lodged* in static scopes if it was made for the site of the innermost of them,
the frame around it is lodged in the others, and each frame has the names of its scope
(`World.Lodged`). A name may be missing as long as it is *pending*: its variable is declared,
but the initializer has not come to its end.

A function is good if its closure is lodged in the scopes in which the walk visited its
routine, and a machine is good if all values that it holds are (`World.Stands`). A method with its
`this` is one that was bound at some moment, and the names `this` and `super` have the values that
were provided.
-/

namespace ScriptLang

open Scoping (Place Visits Site Scope Widened SameNames Shaped)

/-! ## Frames made for sites -/

/-- The evaluation at a moment begins with a new frame for a site. -/
inductive Moment.Activates : Moment → FrameId → Site → Prop
  | block {n body m} : Activates ⟨n, .statement (.block body), m⟩ m.frames.nextId (.block body)
  | call {n f arguments m} :
    Activates ⟨n, .call f arguments, m⟩ m.frames.nextId (.routine f.routine)
  | bind {n f self m members name} (h : ⟨name, f.routine⟩ ∈ members) :
    Activates ⟨n, .bind f self, m⟩ m.frames.nextId (.self members)
  | class {n name ref members m c} (h : Eval.superclassOf ref m = .ok c m) :
    Activates ⟨n, .statement (.class name (some ref) members), m⟩ m.frames.nextId
      (.super members)

/-- The frame around the one that is made at a moment. -/
def Moment.outer (M : Moment) : FrameId :=
  match M.task with
  | .call f _ => f.closure
  | .bind f _ => f.closure
  | _ => M.machine.current

/-- The evaluation at a moment gives a new frame its `this` or its `super`. -/
inductive Moment.Provides : Moment → FrameId → String → Value → Prop
  | this {n f self m} : Provides ⟨n, .bind f self, m⟩ m.frames.nextId "this" self
  | super {n name ref members m c} (h : Eval.superclassOf ref m = .ok c m) :
    Provides ⟨n, .statement (.class name (some ref) members), m⟩ m.frames.nextId "super"
      (.callable (.class c))

/-- The moment `I` is the start of the initializer of the variable `x`, which is declared in
the frame `f` by what starts at `N`. -/
inductive Moment.Initializes : Moment → FrameId → String → Moment → Prop
  | intro {n name e rest m} :
    Initializes ⟨n, .declarators (⟨name, some e⟩ :: rest), m⟩ m.current name.text
      ⟨n, .expression e, m⟩

/-- Variables that are declared but may have no value yet, by their frames and names. -/
abbrev Pending := FrameId → String → Prop

/-- The variables whose initializers were given up in the course of what starts at `M`. -/
def Moment.Aborts (M : Moment) : Pending := fun f x =>
  ∃ N I, Relation.ReflTransGen Part M N ∧ N.Initializes f x I ∧
    ∃ e m', I.ending = .error (.error e) m'

/-! ## Worlds -/

/-- The places of accepted programs, and the moments of their runs. -/
structure World where
  table : Bindings
  globals : FrameId
  placed : Place → Prop
  happens : Moment → Prop
  visits {P P' : Place} : placed P → Visits P P' → placed P'
  sound {P : Place} : placed P → P.Sound table
  nested {P : Place} : placed P → P.Nested
  part {M N : Moment} : happens M → Part M N → happens N

namespace World

/-- Everything of the first world is in the second one. -/
structure Le (W W' : World) : Prop where
  globals : W'.globals = W.globals
  placed : ∀ P, W.placed P → W'.placed P
  happens : ∀ M, W.happens M → W'.happens M

theorem Le.refl (W : World) : W.Le W := ⟨rfl, fun _ h => h, fun _ h => h⟩

variable (W : World)

theorem visits_path {P Q : Place} (hP : W.placed P) (h : Relation.ReflTransGen Visits P Q) :
    W.placed Q := by
  induction h with
  | refl => exact hP
  | tail _ hlast ih => exact W.visits ih hlast

/-- The frame was made for the site. -/
def Made (f : FrameId) (site : Site) : Prop := ∃ M, W.happens M ∧ M.Activates f site

/-! ## Frames in scopes -/

/-- The frame and those around it were made for the sites, each inside the next one, and they have
the names of the scopes, except perhaps those that are pending. -/
def Lodged (fs : Frames) (pending : Pending) : List Site → List Scope → FrameId → Prop
  | [], [], f => f = W.globals
  | site :: S, scope :: scopes, f =>
    (∀ x, scope.contains x → (fs.here? f x).isSome ∨ pending f x) ∧
      ∃ M, W.happens M ∧ M.Activates f site ∧ fs.outward? f = some M.outer ∧
        Lodged fs pending S scopes M.outer
  | _, _, _ => False

variable {W}
variable {fs fs' : Frames} {pending pending' : Pending} {S : List Site} {scopes : List Scope}
variable {f : FrameId}

/-- A frame that is lodged was made for the innermost site. -/
theorem Lodged.made {site : Site} (h : W.Lodged fs pending (site :: S) scopes f) :
    W.Made f site := by
  cases scopes with
  | nil => exact h.elim
  | cons scope scopes =>
    obtain ⟨-, M, hM, hactivates, -⟩ := h
    exact ⟨M, hM, hactivates⟩

/-- What is lodged stays so when frames are added and get more names, and when more happens.
A name is no longer pending once its frame has it. -/
theorem Lodged.mono {W' : World} {may : FrameId → String → Prop} (hW : W.Le W')
    (hfs : fs.Extends may fs')
    (hpending : ∀ f x, pending f x → (fs'.here? f x).isSome ∨ pending' f x)
    (h : W.Lodged fs pending S scopes f) : W'.Lodged fs' pending' S scopes f := by
  induction S generalizing scopes f with
  | nil =>
    cases scopes with
    | nil => exact Eq.trans h hW.globals.symm
    | cons scope scopes => exact h.elim
  | cons site S ih =>
    cases scopes with
    | nil => exact h.elim
    | cons scope scopes =>
      obtain ⟨hnames, M, hM, hactivates, hg, hrest⟩ := h
      refine ⟨fun x hx => ?_, M, hW.happens M hM, hactivates, ?_, ih hrest⟩
      · rcases hnames x hx with hx | hx
        · exact .inl (hfs.kept f x hx)
        · exact hpending f x hx
      · rw [hfs.outward f (Frames.lt_count_of_outward? hg), hg]

theorem Lodged.congr {scopes' : List Scope} (hs : List.Forall₂ SameNames scopes scopes')
    (h : W.Lodged fs pending S scopes f) : W.Lodged fs pending S scopes' f := by
  induction S generalizing scopes scopes' f with
  | nil =>
    cases hs with
    | nil => exact h
    | cons _ _ => exact h.elim
  | cons site S ih =>
    cases hs with
    | nil => exact h.elim
    | cons hs htail =>
      obtain ⟨hnames, M, hM, hactivates, hg, hrest⟩ := h
      refine ⟨fun x hx => hnames x ?_, M, hM, hactivates, hg, ih htail hrest⟩
      rwa [hs] at hx

/-- New names of the innermost scope have to be in its frame, or pending there. -/
theorem Lodged.widen {names : List String} {scopes' : List Scope}
    (hw : Widened names scopes scopes')
    (hnew : ∀ x ∈ names, (fs.here? f x).isSome ∨ pending f x)
    (h : W.Lodged fs pending S scopes f) : W.Lodged fs pending S scopes' f := by
  cases scopes with
  | nil =>
    cases scopes' with
    | nil => exact h
    | cons scope' scopes' => exact hw.elim
  | cons scope scopes =>
    cases scopes' with
    | nil => exact hw.elim
    | cons scope' scopes' =>
      cases S with
      | nil => exact h.elim
      | cons site S =>
        obtain ⟨hnames, M, hM, hactivates, hg, hrest⟩ := h
        refine ⟨fun x hx => ?_, M, hM, hactivates, hg, hrest.congr hw.2⟩
        rcases (hw.1 x).mp hx with hx | hx
        · exact hnames x hx
        · exact hnew x hx

/-- The frame a number of links outward is the one made for the site of that number, and it has
the names of the scope. -/
theorem Lodged.ancestor (h : W.Lodged fs pending S scopes f) {k : Nat} {scope : Scope}
    (hk : scopes[k]? = some scope) :
    ∃ g site, fs.ancestor? k f = some g ∧ S[k]? = some site ∧ W.Made g site ∧
      ∀ x, scope.contains x → (fs.here? g x).isSome ∨ pending g x := by
  induction S generalizing scopes f k with
  | nil =>
    cases scopes with
    | nil => simp at hk
    | cons scope scopes => exact h.elim
  | cons site S ih =>
    cases scopes with
    | nil => exact h.elim
    | cons first scopes =>
      obtain ⟨hnames, M, hM, hactivates, hg, hrest⟩ := h
      cases k with
      | zero =>
        cases hk
        exact ⟨f, site, rfl, rfl, ⟨M, hM, hactivates⟩, hnames⟩
      | succ k =>
        obtain ⟨g', site', hg', hS, hmade', hnames'⟩ := ih hrest hk
        refine ⟨g', site', ?_, hS, hmade', hnames'⟩
        rw [Frames.ancestor?, hg]
        exact hg'

/-- The frame a number of links outward was made at some moment for the site of that number, and the
next frame outward is the one that was around it then. -/
theorem Lodged.made_at (h : W.Lodged fs pending S scopes f) {k : Nat} {site : Site}
    (hk : S[k]? = some site) :
    ∃ g M scope, fs.ancestor? k f = some g ∧ W.happens M ∧ M.Activates g site ∧
      fs.ancestor? (k + 1) f = some M.outer ∧ scopes[k]? = some scope ∧
      ∀ x, scope.contains x → (fs.here? g x).isSome ∨ pending g x := by
  induction S generalizing scopes f k with
  | nil => simp at hk
  | cons first S ih =>
    cases scopes with
    | nil => exact h.elim
    | cons scope scopes =>
      obtain ⟨hnames, M, hM, hactivates, hg, hrest⟩ := h
      cases k with
      | zero =>
        cases hk
        refine ⟨f, M, scope, rfl, hM, hactivates, ?_, rfl, hnames⟩
        rw [Frames.ancestor?, hg]
        rfl
      | succ k =>
        obtain ⟨g', M', scope', hg', hM', hactivates', houter, hscope, hnames'⟩ := ih hrest hk
        refine ⟨g', M', scope', ?_, hM', hactivates', ?_, hscope, hnames'⟩
        · rw [Frames.ancestor?, hg]
          exact hg'
        · rw [Frames.ancestor?, hg]
          exact houter

/-- Nothing is lodged for the names in the global frame. -/
theorem Lodged.clear (hmade : ∀ f site, W.Made f site → f ≠ W.globals)
    (h : W.Lodged fs pending S scopes f) : W.Lodged (fs.clear W.globals) pending S scopes f := by
  induction S generalizing scopes f with
  | nil =>
    cases scopes with
    | nil => exact h
    | cons scope scopes => exact h.elim
  | cons site S ih =>
    cases scopes with
    | nil => exact h.elim
    | cons scope scopes =>
      obtain ⟨hnames, M, hM, hactivates, hg, hrest⟩ := h
      refine ⟨fun x hx => ?_, M, hM, hactivates, ?_, ih hrest⟩
      · rw [Frames.here?_clear, if_neg (hmade f site ⟨M, hM, hactivates⟩)]
        exact hnames x hx
      · rw [Frames.outward?_clear]
        exact hg

theorem Lodged.lt_count (hglobals : W.globals < fs.count) (h : W.Lodged fs pending S scopes f) :
    f < fs.count := by
  cases S with
  | nil =>
    cases scopes with
    | nil => exact h ▸ hglobals
    | cons scope scopes => exact h.elim
  | cons site S =>
    cases scopes with
    | nil => exact h.elim
    | cons scope scopes =>
      obtain ⟨-, M, -, -, hg, -⟩ := h
      exact Frames.lt_count_of_outward? hg

/-- A new frame around which the frame of the outer scopes is, with variables for the names of
the new scope. -/
theorem Lodged.enter {M : Moment} {site : Site} {scope : Scope} (names : List String)
    (vs : List Value) (h : W.Lodged fs pending S scopes f) (hM : W.happens M)
    (hactivates : M.Activates fs.nextId site) (houter : M.outer = f)
    (hscope : ∀ x, scope.contains x → x ∈ names) (hlen : names.length = vs.length) :
    W.Lodged ((fs.push (some f)).defineAll fs.nextId names vs) pending (site :: S)
      (scope :: scopes) fs.nextId := by
  subst houter
  have hfs : fs.Extends (fun _ _ => True)
      ((fs.push (some M.outer)).defineAll fs.nextId names vs) :=
    .of_push_defineAll (some M.outer) names vs
  refine ⟨fun x hx => .inl ?_, M, hM, hactivates, ?_,
    h.mono (.refl W) hfs fun _ _ hp => .inr hp⟩
  · refine Frames.here?_isSome_defineAll_of_mem ?_ hlen (hscope x hx)
    rw [Frames.count_push]
    exact Nat.lt_succ_self _
  · rw [Frames.outward?_defineAll, Frames.outward?_push_self]

/-! ## Good values -/

variable (W) (fs) (pending)

/-- The function is a method that got its `this` at some moment. -/
def BoundMethod (f : Function) : Prop :=
  ∃ n g self m, W.happens ⟨n, .bind g self, m⟩ ∧ f = Eval.boundFunction g m

/-- The routine of a function was visited in the scopes in which its closure is lodged. Right inside
a scope with `this`, there are only methods that were bound. -/
def GoodFunction (f : Function) : Prop :=
  ∃ P, W.placed P ∧ P.phrase = .routine f.routine ∧
    (f.isInitializer = true → P.around.role = some .initializer) ∧
    (∀ members S, P.sites = .self members :: S → W.BoundMethod f) ∧
    W.Lodged fs pending P.sites P.state.scopes f.closure

/-- A function of a class, which has no `this` yet: its closure is lodged in the scopes around
the one with `this`. -/
def GoodMethod (f : Function) : Prop :=
  ∃ P members S this scopes, W.placed P ∧ P.phrase = .routine f.routine ∧
    (f.isInitializer = true → P.around.role = some .initializer) ∧
    P.sites = .self members :: S ∧ P.state.scopes = this :: scopes ∧
    (∀ x, this.contains x → x = "this") ∧ (∃ name, ⟨name, f.routine⟩ ∈ members) ∧
    W.Lodged fs pending S scopes f.closure

/-- A class all of whose methods are good, those of its superclasses included. -/
def GoodClass (c : Class) : Prop :=
  ∀ name f, c.findMethod name = some f → W.GoodMethod fs pending f

/-- Something that can be called and is good. -/
def GoodCallable : Callable → Prop
  | .function f => W.GoodFunction fs pending f
  | .native _ => True
  | .class c => W.GoodClass fs pending c

/-- A value all of whose functions are good. -/
def Good : Value → Prop
  | .callable c => W.GoodCallable fs pending c
  | .instance i => W.GoodClass fs pending i.ofClass
  | _ => True

/-- An end of a statement whose value is good. -/
def GoodFlow : Flow → Prop
  | .returned v => W.Good fs pending v
  | .normal | .broken => True

variable {W fs pending}

section Imp

variable {W' : World} (hplaced : ∀ P, W.placed P → W'.placed P)
  (hhappens : ∀ M, W.happens M → W'.happens M)
  (hlodged : ∀ {S scopes f}, W.Lodged fs pending S scopes f → W'.Lodged fs' pending' S scopes f)

include hplaced hlodged

theorem GoodMethod.imp {f : Function} (h : W.GoodMethod fs pending f) :
    W'.GoodMethod fs' pending' f := by
  obtain ⟨P, members, S, this, scopes, hP, hphrase, hrole, hsites, hscopes, hthis, hmember,
    hrest⟩ := h
  exact ⟨P, members, S, this, scopes, hplaced P hP, hphrase, hrole, hsites, hscopes, hthis,
    hmember, hlodged hrest⟩

theorem GoodClass.imp {c : Class} (h : W.GoodClass fs pending c) :
    W'.GoodClass fs' pending' c := fun name f hf => (h name f hf).imp hplaced hlodged

include hhappens

theorem GoodFunction.imp {f : Function} (h : W.GoodFunction fs pending f) :
    W'.GoodFunction fs' pending' f := by
  obtain ⟨P, hP, hphrase, hrole, hbound, hclosure⟩ := h
  refine ⟨P, hplaced P hP, hphrase, hrole, fun members S hsites => ?_, hlodged hclosure⟩
  obtain ⟨n, g, self, m, hbind, heq⟩ := hbound members S hsites
  exact ⟨n, g, self, m, hhappens _ hbind, heq⟩

theorem GoodCallable.imp {c : Callable} (h : W.GoodCallable fs pending c) :
    W'.GoodCallable fs' pending' c := by
  cases c with
  | function f => exact GoodFunction.imp hplaced hhappens hlodged h
  | native n => exact trivial
  | «class» c => exact GoodClass.imp hplaced hlodged h

/-- A value stays good where whatever is lodged stays so. -/
theorem Good.imp {v : Value} (h : W.Good fs pending v) : W'.Good fs' pending' v := by
  cases v with
  | callable c => exact GoodCallable.imp hplaced hhappens hlodged h
  | «instance» i => exact GoodClass.imp hplaced hlodged h
  | nil => exact trivial
  | bool b => exact trivial
  | number x => exact trivial
  | text s => exact trivial

end Imp

section Mono

variable {W' : World} {may : FrameId → String → Prop} (hW : W.Le W')
  (hfs : fs.Extends may fs')
  (hpending : ∀ f x, pending f x → (fs'.here? f x).isSome ∨ pending' f x)

include hW hfs hpending

theorem GoodFunction.mono {f : Function} (h : W.GoodFunction fs pending f) :
    W'.GoodFunction fs' pending' f :=
  h.imp hW.placed hW.happens fun hf => hf.mono hW hfs hpending

theorem GoodMethod.mono {f : Function} (h : W.GoodMethod fs pending f) :
    W'.GoodMethod fs' pending' f := h.imp hW.placed fun hf => hf.mono hW hfs hpending

theorem GoodCallable.mono {c : Callable} (h : W.GoodCallable fs pending c) :
    W'.GoodCallable fs' pending' c :=
  h.imp hW.placed hW.happens fun hf => hf.mono hW hfs hpending

theorem Good.mono {v : Value} (h : W.Good fs pending v) : W'.Good fs' pending' v :=
  h.imp hW.placed hW.happens fun hf => hf.mono hW hfs hpending

end Mono

/-! ## Good machines -/

variable (W) (pending)

/-- Every value on the machine is good, and every variable named `super` holds a class. Outside the
global frame a keyword has a value only if it was provided. -/
structure Stands (m : Machine) : Prop where
  values : ∀ f x v, m.frames.here? f x = some v → W.Good m.frames pending v
  fields : ∀ (i : Nat) (slots : Slots Value), m.fields[i]? = some slots → ∀ x v, slots.get? x = some v →
    W.Good m.frames pending v
  supers : ∀ f v, m.frames.here? f "super" = some v → ∃ c, v = .callable (.class c)
  provided : ∀ f x v, f ≠ W.globals → m.frames.here? f x = some v → ¬ IsFree x →
    ∃ N, W.happens N ∧ N.Provides f x v
  globals : m.globals = W.globals
  globals_lt : W.globals < m.frames.count
  bindings : m.bindings = W.table

variable {W} {pending}
variable {m m' : Machine} {v : Value}

namespace Stands

/-- More may be pending, and more may have happened. What steers evaluation does not matter. -/
theorem mono {W' : World} (hW : W.Le W') (hpending : ∀ f x, pending f x → pending' f x)
    (h : W.Stands pending m) (hframes : m'.frames = m.frames) (hfields : m'.fields = m.fields)
    (hglobals : m'.globals = m.globals) (hbindings : m'.bindings = W'.table) :
    W'.Stands pending' m' := by
  have hsame : m.frames.Extends (fun _ _ => True) m.frames := .refl _
  have hgood {v : Value} (hv : W.Good m.frames pending v) : W'.Good m.frames pending' v :=
    hv.mono hW hsame fun f x hp => .inr (hpending f x hp)
  refine ⟨?_, ?_, ?_, fun f x v hf hv hx => ?_, ?_, ?_, hbindings⟩
  · rw [hframes]
    exact fun f x v hv => hgood (h.values f x v hv)
  · rw [hframes, hfields]
    exact fun i slots hi x v hv => hgood (h.fields i slots hi x v hv)
  · rw [hframes]
    exact h.supers
  · rw [hW.globals] at hf
    rw [hframes] at hv
    obtain ⟨N, hN, hprovides⟩ := h.provided f x v hf hv hx
    exact ⟨N, hW.happens N hN, hprovides⟩
  · rw [hglobals, h.globals, hW.globals]
  · rw [hframes, hW.globals]
    exact h.globals_lt

theorem more (hpending : ∀ f x, pending f x → pending' f x) (h : W.Stands pending m) :
    W.Stands pending' m := h.mono (.refl W) hpending rfl rfl rfl h.bindings

theorem congr (h : W.Stands pending m) (hframes : m'.frames = m.frames)
    (hfields : m'.fields = m.fields) (hglobals : m'.globals = m.globals)
    (hbindings : m'.bindings = m.bindings) : W.Stands pending m' :=
  h.mono (.refl W) (fun _ _ hp => hp) hframes hfields hglobals (hbindings.trans h.bindings)

/-- Frames that hold nothing but what the old ones hold, and values that are good. -/
theorem extend {may : FrameId → String → Prop} {fs' : Frames} (h : W.Stands pending m)
    (hfs : m.frames.Extends may fs')
    (hpending : ∀ f x, pending f x → (fs'.here? f x).isSome ∨ pending' f x)
    (hvalues : ∀ f x v, fs'.here? f x = some v → m.frames.here? f x = some v ∨
      (W.Good fs' pending' v ∧ (x = "super" → ∃ c, v = .callable (.class c)) ∧
        (f ≠ W.globals → ¬ IsFree x → ∃ N, W.happens N ∧ N.Provides f x v))) :
    W.Stands pending' { m with frames := fs' } where
  values f x v hv := by
    rcases hvalues f x v hv with hold | hnew
    · exact (h.values f x v hold).mono (.refl W) hfs hpending
    · exact hnew.1
  fields i slots hi x v hv := (h.fields i slots hi x v hv).mono (.refl W) hfs hpending
  supers f v hv := by
    rcases hvalues f "super" v hv with hold | hnew
    · exact h.supers f v hold
    · exact hnew.2.1 rfl
  provided f x v hf hv hx := by
    rcases hvalues f x v hv with hold | hnew
    · exact h.provided f x v hf hold hx
    · exact hnew.2.2 hf hx
  globals := h.globals
  globals_lt := Nat.lt_of_lt_of_le h.globals_lt hfs.count
  bindings := h.bindings

/-- A variable with a good value. If it was pending, it need not be so any longer. -/
theorem define {may : FrameId → String → Prop} (h : W.Stands pending m) {f : FrameId}
    {name : String} (hfs : m.frames.Extends may (m.frames.define f name v))
    (hpending : ∀ g x, pending g x →
      ((m.frames.define f name v).here? g x).isSome ∨ pending' g x)
    (hv : W.Good (m.frames.define f name v) pending' v)
    (hsuper : name = "super" → ∃ c, v = .callable (.class c))
    (hfree : f ≠ W.globals → IsFree name) :
    W.Stands pending' { m with frames := m.frames.define f name v } := by
  refine h.extend hfs hpending fun g x w hw => ?_
  rw [Frames.here?_define] at hw
  split at hw
  · rename_i hc
    cases hw
    refine .inr ⟨hv, fun hx => hsuper (hc.2.1 ▸ hx), fun hg hx => absurd ?_ hx⟩
    rw [hc.2.1]
    exact hfree (hc.1 ▸ hg)
  · exact .inl hw

/-- Without the global variables. -/
theorem clearGlobals (h : W.Stands pending m) (hmade : ∀ f site, W.Made f site → f ≠ W.globals) :
    W.Stands pending m.clearGlobals := by
  have hgood {v : Value} (hv : W.Good m.frames pending v) :
      W.Good m.clearGlobals.frames pending v := by
    refine hv.imp (fun _ hP => hP) (fun _ hM => hM) fun hf => ?_
    have hclear := hf.clear hmade
    rwa [← h.globals] at hclear
  have hhere {f : FrameId} {x : String} {v : Value}
      (hv : m.clearGlobals.frames.here? f x = some v) : m.frames.here? f x = some v := by
    have hv' : (m.frames.clear m.globals).here? f x = some v := hv
    rw [Frames.here?_clear] at hv'
    split at hv'
    · cases hv'
    · exact hv'
  have hcount : m.clearGlobals.frames.count = m.frames.count := Frames.count_clear ..
  exact ⟨fun f x v hv => hgood (h.values f x v (hhere hv)),
    fun i slots hi x v hv => hgood (h.fields i slots hi x v hv),
    fun f v hv => h.supers f v (hhere hv), fun f x v hf hv hx => h.provided f x v hf (hhere hv) hx,
    h.globals, hcount ▸ h.globals_lt, h.bindings⟩

/-- A new frame with variables that have good values. -/
theorem enter (h : W.Stands pending m) (e : Option FrameId) (names : List String)
    (vs : List Value) (hvs : ∀ v ∈ vs, W.Good m.frames pending v)
    (hsuper : "super" ∈ names → ∀ v ∈ vs, ∃ c, v = .callable (.class c))
    (hprovided : ∀ x ∈ names, ¬ IsFree x → ∀ v ∈ vs, ∃ N, W.happens N ∧
      N.Provides m.frames.nextId x v) :
    W.Stands pending
      { m with frames := (m.frames.push e).defineAll m.frames.nextId names vs } := by
  have hfs : m.frames.Extends (fun _ _ => True)
      ((m.frames.push e).defineAll m.frames.nextId names vs) := .of_push_defineAll e names vs
  refine h.extend hfs (fun _ _ hp => .inr hp) fun g x w hw => ?_
  rcases Frames.here?_defineAll_cases hw with hw | ⟨rfl, hmem, hx⟩
  · rw [Frames.here?_push] at hw
    exact .inl hw
  · refine .inr ⟨(hvs w hmem).mono (.refl W) hfs fun _ _ hp => .inr hp, ?_,
      fun _ hkeyword => hprovided x hx hkeyword w hmem⟩
    rintro rfl
    exact hsuper hx w hmem

theorem withInstance (h : W.Stands pending m) : W.Stands pending m.withInstance where
  values := h.values
  fields i slots hi x v hv := by
    have hi' : (m.fields.push .empty)[i]? = some slots := hi
    rw [Array.getElem?_push] at hi'
    split at hi'
    · cases hi'
      rw [Slots.get?_empty] at hv
      cases hv
    · exact h.fields i slots hi' x v hv
  supers := h.supers
  provided := h.provided
  globals := h.globals
  globals_lt := h.globals_lt
  bindings := h.bindings

theorem setField (h : W.Stands pending m) {i : Nat} {name : String}
    (hv : W.Good m.frames pending v) :
    W.Stands pending { m with fields := m.fields.modify i (·.set name v) } where
  values := h.values
  fields j slots hj x w hw := by
    have hj' : (m.fields.modify i (·.set name v))[j]? = some slots := hj
    rw [Array.getElem?_modify] at hj'
    split at hj'
    · cases hold : m.fields[j]? with
      | none =>
        rw [hold] at hj'
        cases hj'
      | some old =>
        rw [hold] at hj'
        cases hj'
        rw [Slots.get?_set] at hw
        split at hw
        · cases hw
          exact hv
        · exact h.fields j old hold x w hw
    · exact h.fields j slots hj' x w hw
  supers := h.supers
  provided := h.provided
  globals := h.globals
  globals_lt := h.globals_lt
  bindings := h.bindings

/-- The value of a field is good. -/
theorem field (h : W.Stands pending m) {i : Instance} {name : String}
    (hv : m.field? i name = some v) : W.Good m.frames pending v := by
  obtain ⟨slots, hslots, hv⟩ := Option.bind_eq_some_iff.mp hv
  exact h.fields i.id slots hslots name v hv

end Stands

end World

end ScriptLang
