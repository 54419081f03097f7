import ScriptLang.Proofs.Realms.Holding
import ScriptLang.Proofs.Sessions.Calls
import ScriptLang.Proofs.Sessions.Instances
import ScriptLang.Proofs.Sessions.Receivers

/-!
# Construction gives the right instance

Neither construction nor an initializer cares for the result of the body that it runs. A call of a class
gives back the instance that it made before (`Eval.invokeWith_class`), and this is a new one, since
whatever exists at a moment has been made by then (`Session.Hosted.has_existing`). So only its class
and the choice of the initializer matter. Both the check of the arguments and the choice look for the
nearest class with an initializer (`Class.nearest`).

A call of an initializer looks up `this` in the frame around it when the body is done
(`Eval.callFunction_initializer`). Code of any kind may have run by then, and a function is just a
value, which may have been kept anywhere. But the frame is one that a binding made, since the routine of
an initializer stands inside a scope with `this` (`Scoping.Place.Homed`). One frame is made by one
binding only, and no variable `this` comes to hold anything else
(`Launch.Coherent.eq_of_this`). Hence the answer is what was bound
(`Launch.Coherent.result_of_initializer`), and only instances are ever bound. That a method is an
initializer is known since its class was declared (`Class.Declared.isInitializer`).
-/

namespace ScriptLang

open Scoping (Place Site Phrase Visits)
open Relation (ReflTransGen)

/-! ## Routines of initializers -/

namespace Scoping

/-- Methods are right inside a scope with `this`, and so is the routine of an initializer. -/
structure Place.Homed (P : Place) : Prop where
  methods : ∀ rest, P.phrase = .methods rest → ∃ members S, P.sites = .self members :: S
  initializer : ∀ routine, P.phrase = .routine routine → P.around.role = some .initializer →
    ∃ members S, P.sites = .self members :: S

theorem Visits.homed {P P' : Place} (h : Visits P P') (hP : P.Homed) : P'.Homed := by
  cases h with
  | function => exact ⟨nofun, fun _ _ hrole => nomatch hrole⟩
  | declaredFunction => exact ⟨nofun, fun _ _ hrole => nomatch hrole⟩
  | @members a S r name superclass members =>
    exact ⟨fun _ _ => by cases superclass <;> exact ⟨_, _, rfl⟩, nofun⟩
  | method => exact ⟨nofun, fun _ _ _ => hP.methods _ rfl⟩
  | otherMethods => exact ⟨fun _ _ => hP.methods _ rfl, nofun⟩
  | _ => exact ⟨nofun, nofun⟩

end Scoping

theorem Launch.Places.homed {l : Launch} {P : Place} (h : l.Places P) : P.Homed := by
  obtain ⟨Q, hQ, hpath⟩ := h
  induction hpath with
  | refl => cases hQ <;> exact ⟨nofun, nofun⟩
  | tail _ hlast ih => exact hlast.homed ih

/-! ## Bound initializers -/

/-- What an initializer gives back is looked up when its body is done. -/
theorem Eval.callFunction_initializer {n : Nat} {g : Function} {arguments : List Value}
    {m m' : Machine} {v : Value} (hg : g.isInitializer = true)
    (h : callFunction (runBody n) g arguments m = .ok v m') :
    v = (m'.frames.here? g.closure "this").getD .nil := by
  have hends : Ends (callFunction (runBody n) g arguments) m
      (fun v m' => v = (m'.frames.here? g.closure "this").getD .nil) fun _ _ => True := by
    refine ends_callFunction (ends_of (fun flow m₁ _ => ?_) fun _ _ _ => trivial)
    unfold callResult
    rw [if_pos hg]
  exact hends.of_ok h

namespace Launch.Coherent

variable {H : List Launch} (h : Coherent H) {n : Nat} {m : Machine} {g : Function}
  {arguments : List Value}

include h

/-- An initializer that is called was bound to an instance at some moment. -/
theorem exists_bind (hcall : Happened H ⟨n, .call g arguments, m⟩) (hg : g.isInitializer = true) :
    ∃ k f i birth, Happened H ⟨k, .bind f (.instance i), birth⟩ ∧
      g = Eval.boundFunction f birth := by
  obtain ⟨W, pending, hW, hfits⟩ := h.fits _ hcall
  obtain ⟨⟨P, hP, hphrase, hrole, hbound, -⟩, -, -⟩ := hfits.suits
  obtain ⟨l, -, hplaces⟩ := hW.placed P hP
  obtain ⟨members, S, hsites⟩ := hplaces.homed.initializer _ hphrase (hrole hg)
  obtain ⟨k, f, self, birth, hbind, hgf⟩ := hbound members S hsites
  obtain ⟨i, rfl⟩ := h.bound_instance (hW.happens _ hbind)
  exact ⟨k, f, i, birth, hW.happens _ hbind, hgf⟩

/-- A function comes of one binding only. -/
theorem bind_unique {k k' : Nat} {f f' : Function} {self self' : Value} {birth birth' : Machine}
    (hbind : Happened H ⟨k, .bind f self, birth⟩) (hbind' : Happened H ⟨k', .bind f' self', birth'⟩)
    (hg : Eval.boundFunction f birth = Eval.boundFunction f' birth') : self' = self := by
  have hframe : birth'.frames.nextId = birth.frames.nextId := (congrArg Function.closure hg).symm
  cases h.bind_eq hbind hbind' hframe
  rfl

/-- In the frame of a binding, `this` is what was bound, whatever happens. -/
theorem eq_of_this {W : World} {pending : Pending} (hW : World.Past H W pending) {m' : Machine}
    (hm' : W.Stands pending m') {k : Nat} {f : Function} {self v : Value} {birth : Machine}
    (hbind : Happened H ⟨k, .bind f self, birth⟩)
    (hv : m'.frames.here? birth.frames.nextId "this" = some v) : v = self := by
  obtain ⟨site, hsite⟩ := Moment.activates_bind k f self birth
  have hne : birth.frames.nextId ≠ W.globals := by
    rw [hW.globals]
    exact h.ne_zero _ _ _ hbind hsite
  obtain ⟨N, hN, hprovides⟩ := hm'.provided _ _ _ hne hv this_not_free
  obtain ⟨site', hsite'⟩ := hprovides.activates
  obtain ⟨k', f', birth', rfl⟩ := hprovides.of_this
  cases h.activates_eq _ _ _ _ _ hbind (hW.happens _ hN) hsite hsite'
  rfl

/-- **A bound initializer that is called to its end gives back the instance it is bound to.** -/
theorem result_of_initializer (hcall : Happened H ⟨n, .call g arguments, m⟩)
    (hg : g.isInitializer = true) {v : Value} {m' : Machine}
    (hend : Eval.callFunction (Eval.runBody n) g arguments m = .ok v m') {k : Nat} {f : Function}
    {i : Instance} {birth : Machine} (hbind : Happened H ⟨k, .bind f (.instance i), birth⟩)
    (hgf : g = Eval.boundFunction f birth) : v = .instance i := by
  obtain ⟨W, pending, hW, hfits⟩ := h.fits _ hcall
  have hstands' : W.Stands pending m' := ((W.preserves _ pending hfits).of_ok hend).1
  have hclosure : g.closure = birth.frames.nextId := hgf ▸ rfl
  -- there is a `this` in the frame around the call from the beginning, and so there is at the end
  obtain ⟨⟨P, hP, hphrase, hrole, -, hlodged⟩, -, -⟩ := hfits.suits
  have hsome : (m.frames.here? g.closure "this").isSome := by
    obtain ⟨l, -, hplaces⟩ := hW.placed P hP
    obtain ⟨members, S, hsites⟩ := hplaces.homed.initializer _ hphrase (hrole hg)
    have hshaped := (W.sound hP).shaped
    rw [hsites] at hlodged hshaped
    cases hscopes : P.state.scopes with
    | nil =>
      rw [hscopes] at hlodged
      exact hlodged.elim
    | cons scope scopes =>
      rw [hscopes] at hlodged hshaped
      have hthis : scope.contains "this" := (hshaped.this_at (k := 0) rfl).mpr ⟨members, rfl⟩
      exact (hlodged.1 "this" hthis).resolve_right fun hp => this_not_free (hW.free _ _ hp)
  have hgrows := Eval.Ends.of_ok (Moment.keeps ⟨n, .call g arguments, m⟩) hend
  obtain ⟨w, hw⟩ := Option.isSome_iff_exists.mp (hgrows.frames.kept _ _ hsome)
  rw [Eval.callFunction_initializer hg hend, hw]
  exact h.eq_of_this hW hstands' hbind (hclosure ▸ hw)

end Launch.Coherent

/-! ## Calls that come to their ends -/

section Call

open Eval

variable {n : Nat} {callee : Expr} {arguments : List Expr} {closing : Lexeme}
variable {m m₁ m₂ m' : Machine} {c : Callable} {ws : List Value} {v : Value}

theorem Eval.callValue_eq_ok {invoke : Callable → List Value → Eval Value}
    (h : callValue invoke (.callable c) ws closing m = .ok v m') :
    ws.length = c.arity ∧ m.depth < m.maxDepth ∧
      ∃ m₁, invoke c ws m.deeper = .ok v m₁ ∧ m' = { m₁ with depth := m₁.depth - 1 } := by
  by_cases harity : ws.length = c.arity
  · by_cases hdepth : m.maxDepth ≤ m.depth
    · cases (callValue_stackOverflow harity hdepth).symm.trans h
    · refine ⟨harity, Nat.lt_of_not_le hdepth, ?_⟩
      unfold callValue at h
      dsimp only at h
      rw [if_neg (not_not.mpr harity)] at h
      unfold deeper at h
      rw [if_neg hdepth] at h
      split at h
      · rename_i w m₁ hinvoke
        cases h
        exact ⟨m₁, hinvoke, rfl⟩
      · cases h
  · cases (callValue_arity harity).symm.trans h

/-- What is called is called if the call passes its checks. -/
theorem part_apply_iff (hcallee : expression (.ofFuel n) callee m = .ok (.callable c) m₁)
    (harguments : expressions (.ofFuel n) arguments m₁ = .ok ws m₂) :
    Part ⟨n, .expression (.call callee arguments closing), m⟩ ⟨n, .apply c ws, m₂.deeper⟩ ↔
      ws.length = c.arity ∧ m₂.depth < m₂.maxDepth := by
  refine ⟨fun h => ?_, fun h => .apply hcallee harguments h.1 h.2⟩
  rcases (part_of_call_iff hcallee harguments).mp h with hmem | ⟨c', hc, harity, hdepth, -⟩
  · simp at hmem
  · cases hc
    exact ⟨harity, hdepth⟩

/-- A call that comes to its end has passed its checks, and what was called then has the same
result. -/
theorem apply_of_call (hcallee : expression (.ofFuel n) callee m = .ok (.callable c) m₁)
    (harguments : expressions (.ofFuel n) arguments m₁ = .ok ws m₂)
    (hend : Moment.ending ⟨n, .expression (.call callee arguments closing), m⟩ = .ok v m') :
    Part ⟨n, .expression (.call callee arguments closing), m⟩ ⟨n, .apply c ws, m₂.deeper⟩ ∧
      ∃ m₃, invokeWith n c ws m₂.deeper = .ok v m₃ := by
  rw [ending_of_call hcallee harguments] at hend
  obtain ⟨harity, hdepth, m₃, hinvoke, -⟩ := callValue_eq_ok hend
  exact ⟨.apply hcallee harguments harity hdepth, m₃, hinvoke⟩

/-- What comes of a class is the next instance, whatever its initializer does. -/
theorem Eval.invokeWith_class {d : Class} (h : invokeWith n (.class d) ws m = .ok v m') :
    v = .instance (m.nextInstance d) := by
  cases n with
  | zero => cases h
  | succ k =>
    have hends : Ends (construct (runBody k) d ws) m (fun v _ => v = .instance (m.nextInstance d))
        fun _ _ => True := by
      refine ends_construct (fun _ => rfl) fun f _ => ends_of (fun g m₁ _ => ?_) fun _ _ _ => trivial
      exact ends_of (fun _ _ _ => rfl) fun _ _ _ => trivial
    exact hends.of_ok h

end Call

/-! ## The right instance -/

/-- The nearest method of the name in a class and those above it. -/
def Class.nearest (c : Class) (name : String) : Option Function :=
  c.line.findSome? (·.methods.get? name)

/-- How many parameters the nearest initializer of a class has, or none if there is none. -/
def Class.needs (c : Class) : Nat :=
  match c.nearest "init" with
  | some f => f.routine.params.length
  | none => 0

theorem Class.initializer?_eq (c : Class) : c.initializer? = c.nearest "init" :=
  c.findMethod_eq_findSome? "init"

theorem Class.arity_eq (c : Class) : c.arity = c.needs := by
  unfold arity needs
  rw [initializer?_eq]
  rfl

/-- What is done to make an instance of a class is to bind its nearest initializer to the instance, and to
call what comes of that. -/
theorem part_of_construct {k : Nat} {d : Class} {ws : List Value} {m : Machine} {N : Moment}
    (h : Part ⟨k + 1, .apply (.class d) ws, m⟩ N) : ∃ f, d.nearest "init" = some f ∧
      (N = ⟨k, .bind f (.instance (m.nextInstance d)), m.withInstance⟩ ∨
        N = ⟨k, .call (Eval.boundFunction f m.withInstance) ws,
          Eval.boundMachine f (.instance (m.nextInstance d)) m.withInstance⟩) := by
  cases h with
  | constructBind hf => exact ⟨_, d.initializer?_eq ▸ hf, .inl rfl⟩
  | constructCall hf hg =>
    cases hg
    exact ⟨_, d.initializer?_eq ▸ hf, .inr rfl⟩

/-- What exists at a moment of the next run of a session has been made by then. -/
theorem Session.Hosted.has_existing {L : List Launch} {vs : List Value} {s : Session}
    (hs : Session.Hosted L vs s) {fuel : Nat} {source : String} {mode : Mode} {l : Launch}
    (hlaunch : s.launch? fuel source mode = some l) {N : Moment} (hN : l.Runs N) {v : Value}
    (hv : l.start.Existing l.fuel l.program vs N v) :
    (Realm.ofLaunches (L ++ [l])).Has N.machine v := by
  have hstart : s.machine.Precedes l.start := by
    unfold Launch.start
    rw [machine_of_launch hlaunch]
    exact ⟨Nat.le_refl _, Nat.le_refl _, Nat.le_refl _⟩
  refine (hs.closed_start hlaunch).has_existing (fun _ => trivial) (fun _ => trivial)
    (Launch.admits L l) (fun w hw => ?_) hN hv
  exact ((hs.hosts.values w hw).has _ fun l' hl' => List.mem_append_left _ hl').later hstart

theorem Value.equals_instance_of_ne {i : Instance} {v : Value}
    (h : ∀ j, v = .instance j → j.id ≠ i.id) :
    Value.equals (.instance i) v = false ∧ v.equals (.instance i) = false := by
  cases v with
  | «instance» j =>
    have hne := h j rfl
    simp [equals, hne, hne.symm]
  | _ => exact ⟨rfl, rfl⟩

open Eval in
/-- **Construction gives the right instance.** Let a call be reached in the next run of any session, and
let what is called and the arguments have values.

* If it is a class, it is called if there are as many arguments as the nearest initializer among the class
  and those above it has parameters, or none if there is none, and no other initializer is bound and
  called then. If the call comes to its end, it gives back an instance of this very class, which is
  equal to nothing that existed before the call began.
* If it is an initializer, and the call comes to its end, then it was bound to an instance and to nothing
  else, and it gives back this instance.
* What comes of binding the method that a class has under the name `init` is an initializer, whatever
  class or instance it is taken from. -/
theorem construction_gives_right_instance {L : List Launch} {vs : List Value} {s : Session}
    (hs : Session.Hosted L vs s) {fuel : Nat} {source : String} {mode : Mode} {l : Launch}
    (hlaunch : s.launch? fuel source mode = some l) {n : Nat} {callee : Expr}
    {arguments : List Expr} {closing : Lexeme} {m m₁ m₂ : Machine} {c : Callable} {ws : List Value}
    (hcall : l.Runs ⟨n, .expression (.call callee arguments closing), m⟩)
    (hcallee : expression (.ofFuel n) callee m = .ok (.callable c) m₁)
    (harguments : expressions (.ofFuel n) arguments m₁ = .ok ws m₂) :
    let M : Moment := ⟨n, .expression (.call callee arguments closing), m⟩
    let applied : Moment := ⟨n, .apply c ws, m₂.deeper⟩
    (∀ d, c = .class d →
      (ws.length ≠ d.needs → M.ending =
        .error (.error (.at closing (.arity (Callable.display (.class d)) d.needs ws.length))) m₂) ∧
      (Part M applied ↔ ws.length = d.needs ∧ m₂.depth < m₂.maxDepth) ∧
      (∀ N, Part applied N → ∃ f, d.nearest "init" = some f ∧
        (N.task = .bind f (.instance (m₂.nextInstance d)) ∨
          ∃ g, g.routine = f.routine ∧ N.task = .call g ws)) ∧
      ∀ v m', M.ending = .ok v m' → ∃ i, v = .instance i ∧ i.ofClass = d ∧
        ∀ w, l.start.Existing l.fuel l.program vs applied w →
          v.equals w = false ∧ w.equals v = false) ∧
    (∀ g, c = .function g → g.isInitializer = true → ∀ v m', M.ending = .ok v m' →
      ∃ i, v = .instance i ∧
        (∃ k f birth, Launch.Happened (L ++ [l]) ⟨k, .bind f (.instance i), birth⟩ ∧
          g = boundFunction f birth) ∧
        ∀ k f self birth, Launch.Happened (L ++ [l]) ⟨k, .bind f self, birth⟩ →
          g = boundFunction f birth → self = .instance i) ∧
    ∀ d, (l.start.Existing l.fuel l.program vs M (.callable (.class d)) ∨
        ∃ j, j.ofClass = d ∧ l.start.Existing l.fuel l.program vs M (.instance j)) →
      ∀ f birth, d.nearest "init" = some f → (boundFunction f birth).isInitializer = true := by
  intro M applied
  have hcoherent := hs.coherent hlaunch
  have hl : l ∈ L ++ [l] := by simp
  refine ⟨fun d hc => ?_, fun g hc hg v m' hend => ?_, fun d hd f birth hf => ?_⟩
  · subst hc
    have harity : Callable.arity (.class d) = d.needs := d.arity_eq
    refine ⟨fun hne => ?_, ?_, fun N hN => ?_, fun v m' hend => ?_⟩
    · rw [← harity] at hne ⊢
      exact (ending_of_call hcallee harguments).trans (callValue_arity hne)
    · rw [← harity]
      exact part_apply_iff hcallee harguments
    · cases n with
      | zero => exact nomatch (show Part ⟨0, .apply (.class d) ws, m₂.deeper⟩ N from hN)
      | succ k =>
        obtain ⟨f, hf, rfl | rfl⟩ := part_of_construct hN
        · exact ⟨f, hf, .inl rfl⟩
        · exact ⟨f, hf, .inr ⟨boundFunction f m₂.deeper.withInstance, rfl, rfl⟩⟩
    · obtain ⟨happly, m₃, hinvoke⟩ := apply_of_call hcallee harguments hend
      obtain rfl : v = .instance (m₂.deeper.nextInstance d) := invokeWith_class hinvoke
      refine ⟨_, rfl, rfl, fun w hw => Value.equals_instance_of_ne fun j hj => ?_⟩
      -- an instance that exists has a number that is taken
      subst hj
      exact Nat.ne_of_lt (hs.has_existing hlaunch (hcall.part happly) hw).2.1
  · subst hc
    obtain ⟨happly, m₃, hinvoke⟩ := apply_of_call hcallee harguments hend
    cases n with
    | zero => cases hinvoke
    | succ k =>
      have hhappened : Launch.Happened (L ++ [l]) ⟨k, .call g ws, m₂.deeper⟩ :=
        ⟨l, hl, (hcall.part happly).part .function⟩
      obtain ⟨k', f, i, birth, hbind, hgf⟩ := hcoherent.exists_bind hhappened hg
      refine ⟨i, hcoherent.result_of_initializer hhappened hg hinvoke hbind hgf,
        ⟨k', f, birth, hbind, hgf⟩, fun k'' f' self birth' hbind' hgf' => ?_⟩
      exact hcoherent.bind_unique hbind hbind' (hgf.symm.trans hgf')
  · have hdeclared : d.Declared (Launch.Happened (L ++ [l])) := by
      rcases hd with hd | ⟨j, rfl, hj⟩
      · exact hs.knows.existing hlaunch hcall hd
      · exact (hs.knows.existing hlaunch hcall hj).declared
    rw [← d.initializer?_eq] at hf
    have hinit : f.isInitializer = true := hdeclared.isInitializer hf
    exact hinit

open Eval in
/-- An initializer is taken from an instance, kept in a variable, and called again, which gives back the
instance. -/
theorem stored_initializer_gives_back_instance : ∃ l m i g,
    Session.start.launch? 9 "class A{init(){}}var f=A().init;f();" .script = some l ∧
      let callee : Expr := .variable ⟨1, ⟨"f", 1⟩⟩
      l.Runs ⟨9, .expression (.call callee [] ⟨")", 1⟩), m⟩ ∧
      expression (.ofFuel 9) callee m = .ok (.callable (.function g)) m ∧
      expressions (.ofFuel 9) [] m = .ok [] m ∧ g.isInitializer = true ∧
      (∃ m', expression (.ofFuel 9) (.call callee [] ⟨")", 1⟩) m = .ok (.instance i) m') ∧
      ∃ k f birth, Launch.Happened [l] ⟨k, .bind f (.instance i), birth⟩ ∧
        g = boundFunction f birth := by
  let callee : Expr := .variable ⟨1, ⟨"f", 1⟩⟩
  let construction : Expr := .call (.variable ⟨0, ⟨"A", 1⟩⟩) [] ⟨")", 1⟩
  let declaration : Stmt := .class ⟨"A", 1⟩ none [⟨⟨"init", 1⟩, ⟨[], []⟩⟩]
  let keeping : Stmt := .vars [⟨⟨"f", 1⟩, some (.get construction ⟨"init", 1⟩)⟩]
  let p : Program := ⟨[declaration, keeping, .expression (.call callee [] ⟨")", 1⟩)], none⟩
  let l : Launch := ⟨.start, ∅, 9, p⟩
  let d : Class := ⟨1, "A", none, ⟨[("init", ⟨0, some "init", ⟨[], []⟩, 0, true⟩)]⟩⟩
  let i : Instance := ⟨0, d⟩
  let g : Function := ⟨3, some "init", ⟨[], []⟩, 3, true⟩
  -- the frames of the class, of the first call with its `this`, and of the `this` of what is kept
  let clock : String × Value := ("clock", .callable (.native .clock))
  let globals : Frame := ⟨⟨[clock, ("A", .callable (.class d))]⟩, none⟩
  let globals' : Frame :=
    ⟨⟨[clock, ("A", .callable (.class d)), ("f", .callable (.function g))]⟩, none⟩
  let this : Frame := ⟨⟨[("this", .instance i)]⟩, some 0⟩
  let m₀ : Machine := { l.start.home with frames := ⟨#[globals]⟩, made := 2 }
  let m : Machine := { l.start.home with
    frames := ⟨#[globals', this, ⟨.empty, some 1⟩, this]⟩, made := 4, fields := #[.empty] }
  let m' : Machine := { m with
    frames := ⟨#[globals', this, ⟨.empty, some 1⟩, this, ⟨.empty, some 3⟩]⟩ }
  have hlaunch : Session.start.launch? 9 "class A{init(){}}var f=A().init;f();" .script =
      some l := rfl
  have hdeclared : statement (.ofFuel 9) declaration l.start.home = .ok .normal m₀ := rfl
  have hkept : statement (.ofFuel 9) keeping m₀ = .ok .normal m := by
    dsimp only [keeping, construction, m₀, m, globals, globals', this, d, g, i, clock, l, p]
    cbv
  have hstart : l.Runs ⟨9, .topLevel p.statements, l.start.home⟩ := Machine.Starts.statements.runs
  have hcall : l.Runs ⟨9, .expression (.call callee [] ⟨")", 1⟩), m⟩ :=
    (((hstart.part (.topTail hdeclared)).part (.topTail hkept)).part .topHead).part .evaluated
  have hcallee : expression (.ofFuel 9) callee m = .ok (.callable (.function g)) m := rfl
  have harguments : expressions (.ofFuel 9) [] m = .ok [] m := rfl
  have hend : expression (.ofFuel 9) (.call callee [] ⟨")", 1⟩) m = .ok (.instance i) m' := by
    dsimp only [m, m', globals', this, d, g, i, clock, l, p, declaration, construction, keeping,
      callee]
    cbv
  obtain ⟨j, hj, hbound, -⟩ := (construction_gives_right_instance (.start _ _) hlaunch hcall hcallee
    harguments).2.1 g rfl rfl _ m' hend
  cases hj
  exact ⟨l, m, i, g, hlaunch, hcall, hcallee, harguments, rfl, ⟨m', hend⟩, hbound⟩

end ScriptLang
