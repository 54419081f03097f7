import ScriptLang.Proofs.Sessions.Past

/-!
# `this` and `super` are lexical

What `this` and `super` mean is settled by where they are written. The innermost method around such
a node was bound to an instance at some moment, and what came of that was called; the node is
evaluated in the course of that call, or of a function that was declared in it, however late
(`Launch.Activation`). `this` is the instance. `super` is the class that was the superclass when the
class around the method was declared, and the method that is found there is bound to the same
instance (`this_and_super_are_lexical`).

A frame with `this` is activated once, when a method is bound. So the call in whose frame the
variables of the method are is one of the function that was bound then: its closure is that frame.
That the value is an instance goes back along the chain of `super` calls to a first frame, in which
the method was bound to an instance by an access to a property or by a new instance
(`Launch.Coherent.bound_instance`).
-/

namespace ScriptLang

open Scoping (Place Site Scope Phrase)
open Relation (ReflTransGen)

/-! ## Frames with `this` and `super` -/

namespace Moment.Provides

variable {N : Moment} {f : FrameId} {x : String} {v : Value}

theorem activates (h : N.Provides f x v) : ∃ site, N.Activates f site := by
  cases h with
  | @this n g self m => exact ⟨.self [⟨⟨"", 0⟩, g.routine⟩], .bind (List.mem_singleton_self _)⟩
  | super h => exact ⟨_, .class h⟩

theorem of_this (h : N.Provides f "this" v) : ∃ n g m, N = ⟨n, .bind g v, m⟩ := by
  generalize hx : "this" = x at h
  cases h with
  | this => exact ⟨_, _, _, rfl⟩
  | super => exact absurd hx (by decide)

theorem of_super (h : N.Provides f "super" v) : ∃ n name ref members m c,
    N = ⟨n, .statement (.class name (some ref) members), m⟩ ∧ v = .callable (.class c) ∧
      Eval.superclassOf ref m = .ok c m := by
  generalize hx : "super" = x at h
  cases h with
  | this => exact absurd hx (by decide)
  | super h => exact ⟨_, _, _, _, _, _, rfl, rfl, h⟩

end Moment.Provides

/-- Giving a method its `this` activates a frame. -/
theorem Moment.activates_bind (n : Nat) (f : Function) (self : Value) (m : Machine) :
    ∃ site, Moment.Activates ⟨n, .bind f self, m⟩ m.frames.nextId site := Provides.this.activates

/-- A method is bound in the course of something else. -/
theorem Launch.Runs.part_of_bind {l : Launch} {n : Nat} {f : Function} {self : Value} {m : Machine}
    (h : l.Runs ⟨n, .bind f self, m⟩) : ∃ M, l.Runs M ∧ Part M ⟨n, .bind f self, m⟩ := by
  obtain ⟨M₀, hstart, hpath⟩ := h
  rcases ReflTransGen.cases_tail hpath with heq | ⟨M, hM, hpart⟩
  · subst heq
    cases hstart
  · exact ⟨M, ⟨M₀, hstart, hM⟩, hpart⟩

namespace Launch

/-! ## Activations of methods -/

/-- A place in a method is reached on the machine in the course of a call of the method: the function
`f`, which has the routine of the method, was bound to the instance on the machine `birth`, and the
result was called. The frame that the call made is so many links outward, and around it is the one
with `this`. -/
structure Activation (H : List Launch) (m : Machine) (depth : Nat) (method : Method)
    (f : Function) (i : Instance) (birth : Machine) : Prop where
  routine : f.routine = method.routine
  bound : ∃ n, Happened H ⟨n, .bind f (.instance i), birth⟩
  called : ∃ n arguments m₁, Happened H ⟨n, .call (Eval.boundFunction f birth) arguments, m₁⟩ ∧
    m.frames.ancestor? depth m.current = some m₁.frames.nextId
  outward : m.frames.ancestor? (depth + 1) m.current = some birth.frames.nextId
  this : m.frames.here? birth.frames.nextId "this" = some (.instance i)

theorem Activation.nameAt? {H : List Launch} {m : Machine} {depth : Nat} {method : Method}
    {f : Function} {i : Instance} {birth : Machine} (h : Activation H m depth method f i birth) :
    m.frames.nameAt? (depth + 1) m.current "this" = some (.instance i) :=
  (Frames.nameAt?_of_ancestor? h.outward "this").trans h.this

/-- Whatever refers to `this` at such a place yields the instance. -/
theorem Activation.readVariable {H : List Launch} {m : Machine} {depth : Nat} {method : Method}
    {f : Function} {i : Instance} {birth : Machine} (h : Activation H m depth method f i birth)
    {ref : Ref} (hword : ref.word.text = "this")
    (hbound : m.bindings.hops? ref.id = some (depth + 1)) :
    Eval.readVariable ref m = .ok (.instance i) m := by
  unfold Eval.readVariable Frames.getAt
  rw [hbound, hword]
  dsimp only
  rw [h.nameAt?]
  rfl

/-- A phrase is evaluated on the machine at a place in a method, and so in the course of a call of
the method. -/
structure Encloses (H : List Launch) (m : Machine) (t : Phrase) (depth : Nat)
    (members : List Method) (method : Method) (f : Function) (i : Instance) (birth : Machine) :
    Prop where
  inside : ∃ P, (∃ l ∈ H, l.Places P) ∧ P.phrase = t ∧ P.InMethod depth members method
  activation : Activation H m depth method f i birth

/-- The class with the given methods was declared with the superclass `c`, and the method `f` is
from that declaration: it is closed in the frame with `super` that was made then. -/
def Descends (H : List Launch) (members : List Method) (f : Function) (c : Class) : Prop :=
  ∃ n name ref m, Happened H ⟨n, .statement (.class name (some ref) members), m⟩ ∧
    Eval.superclassOf ref m = .ok c m ∧ f.closure = m.frames.nextId

namespace Coherent

variable {H : List Launch} (h : Coherent H)
variable {W : World} {pending : Pending} (hW : World.Past H W pending)
variable {m : Machine} {P : Place} {depth : Nat} {members : List Method} {method : Method}

include h hW

/-- In the frame of a scope with `this` or `super` there is a value, which was provided when the
frame was made. -/
theorem provided (hm : W.Stands pending m) {S : List Site} {scopes : List Scope}
    (hlodged : W.Lodged m.frames pending S scopes m.current) {k : Nat} {site : Site}
    (hk : S[k]? = some site) {x : String} (hx : ¬ IsFree x)
    (hscope : ∀ scope, scopes[k]? = some scope → scope.contains x) :
    ∃ g M v, m.frames.ancestor? k m.current = some g ∧ Happened H M ∧ M.Activates g site ∧
      m.frames.ancestor? (k + 1) m.current = some M.outer ∧ m.frames.here? g x = some v ∧
      M.Provides g x v := by
  obtain ⟨g, M, scope, hg, hM, hactivates, houter, hscope', hnames⟩ := hlodged.made_at hk
  have hsome : (m.frames.here? g x).isSome :=
    (hnames x (hscope scope hscope')).resolve_right fun hp => hx (hW.free g x hp)
  obtain ⟨v, hv⟩ := Option.isSome_iff_exists.mp hsome
  have hne : g ≠ W.globals := by
    rw [hW.globals]
    exact h.ne_zero M g site (hW.happens M hM) hactivates
  obtain ⟨N, hN, hprovides⟩ := hm.provided g x v hne hv hx
  obtain ⟨site', hsite'⟩ := hprovides.activates
  cases h.activates_eq M N g site site' (hW.happens M hM) (hW.happens N hN) hactivates hsite'
  exact ⟨g, M, v, hg, hW.happens M hM, hactivates, houter, hv, hprovides⟩

/-- The frame with `this` around a method was made when the method was bound. -/
theorem this_frame (hm : W.Stands pending m) (hP : W.placed P) (hmethod : P.InMethod depth members method)
    (hlodged : W.Lodged m.frames pending P.sites P.state.scopes m.current) :
    ∃ n f self birth, Happened H ⟨n, .bind f self, birth⟩ ∧
      m.frames.ancestor? (depth + 1) m.current = some birth.frames.nextId ∧
      m.frames.ancestor? (depth + 2) m.current = some f.closure ∧
      m.frames.here? birth.frames.nextId "this" = some self := by
  have hshaped := (W.sound hP).shaped
  obtain ⟨g, M, v, hg, hM, hactivates, houter, hv, hprovides⟩ :=
    h.provided hW hm hlodged hmethod.self this_not_free fun scope hscope =>
      (hshaped.this_at hscope).mpr ⟨members, hmethod.self⟩
  obtain ⟨n, f, birth, rfl⟩ := hprovides.of_this
  cases hactivates
  exact ⟨n, f, v, birth, hM, hg, houter, hv⟩

omit hW in
/-- **A method is only bound to instances.** -/
theorem bound_instance {n : Nat} {f : Function} {self : Value} {m : Machine}
    (hbind : Happened H ⟨n, .bind f self, m⟩) : ∃ i, self = .instance i := by
  -- the `this` that a `super` call passes on is from a frame that was made earlier
  induction hcount : m.frames.count using Nat.strong_induction_on generalizing n f self m with
  | _ count ih =>
    obtain ⟨l, hl, hruns⟩ := hbind
    obtain ⟨M, hM, hpart⟩ := hruns.part_of_bind
    cases hpart with
    | getBind => exact ⟨_, rfl⟩
    | constructBind => exact ⟨_, rfl⟩
    | @superBind _ _ ref name hops c _ hhops =>
      obtain ⟨W, pending, hW, hfits⟩ := h.fits _ ⟨l, hl, hM⟩
      obtain ⟨⟨a, _, S, r⟩, hP, rfl, hlodged⟩ := hfits.suits
      obtain ⟨depth, members, method, hmethod, -, htable⟩ :=
        (W.sound hP).super_inMethod (W.nested hP)
      obtain ⟨n', f', self', birth, hbind', hg, -, hthis⟩ :=
        h.this_frame hW hfits.stands hP hmethod hlodged
      obtain rfl : hops = depth + 2 := by
        have hbindings : m.bindings = W.table := hfits.stands.bindings
        rw [hbindings, htable] at hhops
        exact (Option.some.inj hhops).symm
      have hself : m.frames.nameAt? (depth + 1) m.current "this" = some self' :=
        (Frames.nameAt?_of_ancestor? hg "this").trans hthis
      change ∃ i, (m.frames.nameAt? (depth + 1) m.current "this").getD .nil = .instance i
      rw [hself]
      exact ih _ (hcount ▸ Frames.lt_count_of_here? hthis) hbind' rfl

omit hW in
/-- One frame is made by one binding only. -/
theorem bind_eq {n k : Nat} {f g : Function} {v w : Value} {birth m' : Machine}
    (hbind : Happened H ⟨n, .bind f v, birth⟩) (hbind' : Happened H ⟨k, .bind g w, m'⟩)
    (hframe : m'.frames.nextId = birth.frames.nextId) :
    (⟨n, .bind f v, birth⟩ : Moment) = ⟨k, .bind g w, m'⟩ := by
  obtain ⟨site, hsite⟩ := Moment.activates_bind n f v birth
  obtain ⟨site', hsite'⟩ := Moment.activates_bind k g w m'
  rw [hframe] at hsite'
  exact h.activates_eq _ _ _ _ _ hbind hbind' hsite hsite'

omit hW in
/-- A function that is closed in the frame of a binding is what came of that binding, since the
binding made the frame. -/
theorem eq_boundFunction {n n₁ : Nat} {F f : Function} {arguments : List Value} {i : Instance}
    {m₁ birth : Machine} (hcall : Happened H ⟨n₁, .call F arguments, m₁⟩)
    (hbind : Happened H ⟨n, .bind f (.instance i), birth⟩)
    (hclosure : F.closure = birth.frames.nextId) : F = Eval.boundFunction f birth := by
  obtain ⟨W, pending, hW, hfits⟩ := h.fits _ hcall
  obtain ⟨⟨P, hP, -, -, hbound, hlodged⟩, -, -⟩ := hfits.suits
  obtain ⟨site, hbirth⟩ := Moment.activates_bind n f (.instance i) birth
  cases hsites : P.sites with
  | nil =>
    -- the frame of the global variables is older than any binding
    rw [hsites] at hlodged
    cases hscopes : P.state.scopes with
    | nil =>
      rw [hscopes] at hlodged
      have hglobals : F.closure = W.globals := hlodged
      rw [hclosure, hW.globals] at hglobals
      exact absurd hglobals (h.ne_zero _ _ _ hbind hbirth)
    | cons scope scopes =>
      rw [hscopes] at hlodged
      exact hlodged.elim
  | cons site' S =>
    rw [hsites] at hlodged
    obtain ⟨M, hM, hmade⟩ := hlodged.made
    rw [hclosure] at hmade
    cases h.activates_eq _ _ _ _ _ hbind (hW.happens _ hM) hbirth hmade
    cases hmade
    obtain ⟨k, f', v, m', hbind', rfl⟩ := hbound _ _ hsites
    cases h.bind_eq hbind (hW.happens _ hbind') hclosure
    rfl

/-- **A place in a method is reached in the course of a call of the method.** -/
theorem activation (hm : W.Stands pending m) (hP : W.placed P)
    (hmethod : P.InMethod depth members method)
    (hlodged : W.Lodged m.frames pending P.sites P.state.scopes m.current) :
    ∃ f i birth, Activation H m depth method f i birth ∧
      m.frames.ancestor? (depth + 2) m.current = some f.closure := by
  obtain ⟨n, f, self, birth, hbind, houter, hclosure, hthis⟩ :=
    h.this_frame hW hm hP hmethod hlodged
  obtain ⟨i, rfl⟩ := h.bound_instance hbind
  -- the call that made the frame of the method
  obtain ⟨g, M, -, hg, hM, hcall, hcalled, -⟩ := hlodged.made_at hmethod.routine
  generalize hsite : Site.routine method.routine = site at hcall
  cases hcall with
  | block => cases hsite
  | bind => cases hsite
  | «class» => cases hsite
  | @call n₁ F arguments m₁ =>
    have hroutine : F.routine = method.routine := (Site.routine.inj hsite).symm
    have hF : F.closure = birth.frames.nextId := Option.some.inj (hcalled.symm.trans houter)
    have hhappened := hW.happens _ hM
    obtain rfl := h.eq_boundFunction hhappened hbind hF
    exact ⟨f, i, birth, ⟨hroutine, ⟨_, hbind⟩, ⟨n₁, arguments, m₁, hhappened, hg⟩, houter, hthis⟩,
      hclosure⟩

/-- The class around the method was declared with a superclass, which is the value of `super`. -/
theorem descends (hm : W.Stands pending m) (hP : W.placed P)
    (hsuper : P.sites[depth + 2]? = some (.super members))
    (hself : P.sites[depth + 1]? = some (.self members))
    (hlodged : W.Lodged m.frames pending P.sites P.state.scopes m.current) {f : Function}
    (hclosure : m.frames.ancestor? (depth + 2) m.current = some f.closure) :
    ∃ c, Descends H members f c ∧
      m.frames.nameAt? (depth + 2) m.current "super" = some (.callable (.class c)) := by
  obtain ⟨-, scope, hscope, hcontains⟩ := (W.sound hP).shaped.super_after hself hsuper
  obtain ⟨g, M, v, hg, hM, hactivates, -, hv, hprovides⟩ :=
    h.provided hW hm hlodged hsuper super_not_free fun scope' hscope' => by
      cases hscope.symm.trans hscope'
      exact hcontains
  obtain ⟨n, name, ref, members', m', c, rfl, rfl, hc⟩ := hprovides.of_super
  cases hactivates
  exact ⟨c, ⟨n, name, ref, m', hM, hc, Option.some.inj (hclosure.symm.trans hg)⟩,
    (Frames.nameAt?_of_ancestor? hg "super").trans hv⟩

end Coherent

end Launch

/-! ## The values of `this` and `super` -/

/-- A method of the superclass is bound to `this`, or it is missing. -/
theorem Eval.superMethod_eq {ref : Ref} {method : Lexeme} {m : Machine} {depth : Nat} {c : Class}
    {i : Instance} (hbound : m.bindings.hops? ref.id = some (depth + 2))
    (hsuper : m.frames.nameAt? (depth + 2) m.current "super" = some (.callable (.class c)))
    (hthis : m.frames.nameAt? (depth + 1) m.current "this" = some (.instance i)) :
    superMethod ref method m =
      match c.findMethod method.text with
      | some g => .ok (.callable (.function (boundFunction g m))) (boundMachine g (.instance i) m)
      | none => .error (.error (.at method (.undefinedProperty method.text))) m := by
  unfold superMethod
  rw [hbound]
  dsimp only
  rw [hsuper]
  dsimp only
  rw [hthis]
  cases c.findMethod method.text with
  | some g => rfl
  | none => rfl

/-- **`this` and `super` are lexical.** In the next run of any session, the value of `this` is the
instance to which the innermost method around it was bound for the call in the course of which it
is evaluated. A method of `super` is searched for from the class on that was the superclass when the
class around that method was declared, and what is found is bound to the same instance, which is
what `this` yields there; if nothing is found, it is the method that is missing, and never
`super`. -/
theorem this_and_super_are_lexical {L : List Launch} {vs : List Value} {s : Session}
    (hs : Session.Hosted L vs s) {fuel : Nat} {source : String} {mode : Mode} {l : Launch}
    (hlaunch : s.launch? fuel source mode = some l) {n : Nat} {m : Machine} {ref : Ref} :
    (l.Runs ⟨n, .expression (.this ref), m⟩ → ∃ depth members method f i birth,
      Launch.Encloses (L ++ [l]) m (.expression (.this ref)) depth members method f i birth ∧
      Eval.expression (.ofFuel n) (.this ref) m = .ok (.instance i) m) ∧
    ∀ name, l.Runs ⟨n, .expression (.super ref name), m⟩ → ∃ depth members method f i birth c,
      Launch.Encloses (L ++ [l]) m (.expression (.super ref name)) depth members method f i birth ∧
      Launch.Descends (L ++ [l]) members f c ∧
      (∀ this : Ref, this.word.text = "this" → m.bindings.hops? this.id = some (depth + 1) →
        Eval.expression (.ofFuel n) (.this this) m = .ok (.instance i) m) ∧
      (Eval.expression (.ofFuel n) (.super ref name) m =
        match c.findMethod name.text with
        | some g => .ok (.callable (.function (Eval.boundFunction g m)))
            (Eval.boundMachine g (.instance i) m)
        | none => .error (.error (.at name (.undefinedProperty name.text))) m) ∧
      ∀ word x m', Eval.expression (.ofFuel n) (.super ref name) m ≠
        .error (.error (.at word (.undefinedVariable x))) m' := by
  have hcoherent := hs.coherent hlaunch
  refine ⟨fun hN => ?_, fun name hN => ?_⟩
  · obtain ⟨W, pending, hW, hfits⟩ := hcoherent.fits _ ⟨l, by simp, hN⟩
    have hbindings : m.bindings = W.table := hfits.stands.bindings
    obtain ⟨⟨a, _, S, r⟩, hP, rfl, hlodged⟩ := hfits.suits
    obtain ⟨depth, members, method, hmethod, htable⟩ := (W.sound hP).this_inMethod (W.nested hP)
    obtain ⟨f, i, birth, hactivation, -⟩ :=
      hcoherent.activation hW hfits.stands hP hmethod hlodged
    refine ⟨depth, members, method, f, i, birth,
      ⟨⟨_, hW.placed _ hP, rfl, hmethod⟩, hactivation⟩, ?_⟩
    exact hactivation.readVariable (W.sound hP).wellFormed (hbindings ▸ htable)
  · obtain ⟨W, pending, hW, hfits⟩ := hcoherent.fits _ ⟨l, by simp, hN⟩
    have hbindings : m.bindings = W.table := hfits.stands.bindings
    obtain ⟨⟨a, _, S, r⟩, hP, rfl, hlodged⟩ := hfits.suits
    obtain ⟨depth, members, method, hmethod, hsite, htable⟩ :=
      (W.sound hP).super_inMethod (W.nested hP)
    obtain ⟨f, i, birth, hactivation, hclosure⟩ :=
      hcoherent.activation hW hfits.stands hP hmethod hlodged
    obtain ⟨c, hdescends, hsuper⟩ :=
      hcoherent.descends hW hfits.stands hP hsite hmethod.self hlodged hclosure
    have hvalue : Eval.expression (.ofFuel n) (.super ref name) m = _ :=
      Eval.superMethod_eq (hbindings ▸ htable) hsuper hactivation.nameAt?
    refine ⟨depth, members, method, f, i, birth, c,
      ⟨⟨_, hW.placed _ hP, rfl, hmethod⟩, hactivation⟩, hdescends,
      fun this hword hbound => hactivation.readVariable hword hbound, hvalue,
      fun word x m' herror => ?_⟩
    rw [hvalue] at herror
    cases hfound : c.findMethod name.text with
    | some g => simp [hfound] at herror
    | none =>
      rw [hfound] at herror
      injection herror with hstop
      injection hstop with hfault
      injection hfault with _ hfault
      cases hfault

/-- A method of a subclass, in which both `this` and a method of the superclass are asked for. -/
theorem method_knows_receiver_and_superclass : ∃ l m m' receiver superclass c,
    Session.start.launch? 20 "class A{f(){}}class B<A{g(){this;super.f();}}B().g();" .script = some l ∧
      l.Runs ⟨19, .expression (.this receiver), m⟩ ∧
      (∃ i, Eval.expression (.ofFuel 19) (.this receiver) m = .ok (.instance i) m) ∧
      l.Runs ⟨19, .expression (.super superclass ⟨"f", 1⟩), m'⟩ ∧
      ∃ members f, Launch.Descends [l] members f c := by
  let receiver : Ref := ⟨1, ⟨"this", 1⟩⟩
  let superclass : Ref := ⟨2, ⟨"super", 1⟩⟩
  let body : List Stmt :=
    [.expression (.this receiver), .expression (.call (.super superclass ⟨"f", 1⟩) [] ⟨")", 1⟩)]
  let declareA : Stmt := .class ⟨"A", 1⟩ none [⟨⟨"f", 1⟩, ⟨[], []⟩⟩]
  let declareB : Stmt := .class ⟨"B", 1⟩ (some ⟨0, ⟨"A", 1⟩⟩) [⟨⟨"g", 1⟩, ⟨[], body⟩⟩]
  let getMethod : Expr := .get (.call (.variable ⟨3, ⟨"B", 1⟩⟩) [] ⟨")", 1⟩) ⟨"g", 1⟩
  let p : Program :=
    ⟨[declareA, declareB, .expression (.call getMethod [] ⟨")", 1⟩)], none⟩
  let l : Launch := ⟨.start, ((∅ : Bindings).bind 1 1).bind 2 2, 20, p⟩
  -- the classes, and the frames that are made until the method is called
  let g : Function := ⟨2, some "g", ⟨[], body⟩, 1, false⟩
  let A : Class := ⟨1, "A", none, ⟨[("f", ⟨0, some "f", ⟨[], []⟩, 0, false⟩)]⟩⟩
  let B : Class := ⟨3, "B", some A, ⟨[("g", g)]⟩⟩
  let clock : String × Value := ("clock", .callable (.native .clock))
  let globalsA : Frame := ⟨⟨[clock, ("A", .callable (.class A))]⟩, none⟩
  let globalsB : Frame :=
    ⟨⟨[clock, ("A", .callable (.class A)), ("B", .callable (.class B))]⟩, none⟩
  let outer : Frame := ⟨⟨[("super", .callable (.class A))]⟩, some 0⟩
  let inner : Frame := ⟨⟨[("this", .instance ⟨0, B⟩)]⟩, some 1⟩
  let mA : Machine := { l.start.home with frames := ⟨#[globalsA]⟩, made := 2 }
  let mB : Machine := { l.start.home with frames := ⟨#[globalsB, outer]⟩, made := 4 }
  let m : Machine := { l.start.home with
    frames := ⟨#[globalsB, outer, inner]⟩, made := 5, fields := #[.empty] }
  let bound : Function := { g with id := 4, closure := 2 }
  have hlaunch : Session.start.launch? 20 "class A{f(){}}class B<A{g(){this;super.f();}}B().g();"
    .script = some l := rfl
  have hA : Eval.statement (.ofFuel 20) declareA l.start.home = .ok .normal mA := rfl
  have hB : Eval.statement (.ofFuel 20) declareB mA = .ok .normal mB := rfl
  have hget : Eval.expression (.ofFuel 20) getMethod mB = .ok (.callable (.function bound)) m := rfl
  have hnone : Eval.expressions (.ofFuel 20) [] m = .ok [] m := rfl
  have hstart : l.Runs ⟨20, .topLevel p.statements, l.start.home⟩ := Machine.Starts.statements.runs
  have hcall := (((hstart.part (.topTail hA)).part (.topTail hB)).part .topHead).part .evaluated
  have happly := hcall.part (.apply hget hnone rfl (by decide))
  have hbody := (happly.part .function).part .body
  have hthis := (hbody.part .head).part .evaluated
  have hsuper := (((hbody.part (.tail rfl)).part .head).part .evaluated).part .callee
  obtain ⟨-, -, -, -, i, -, -, hvalue⟩ := (this_and_super_are_lexical (.start _ _) hlaunch).1 hthis
  obtain ⟨-, members, -, f, -, -, c, -, hdescends, -⟩ :=
    (this_and_super_are_lexical (.start _ _) hlaunch).2 _ hsuper
  exact ⟨l, _, _, receiver, superclass, c, hlaunch, hthis, ⟨i, hvalue⟩, hsuper, members, f, hdescends⟩

end ScriptLang
