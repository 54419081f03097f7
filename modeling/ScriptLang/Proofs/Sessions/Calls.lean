import ScriptLang.Proofs.Scoping.Locals
import ScriptLang.Proofs.Sessions.Past

/-!
# Calls are checked before they begin

A call evaluates what is called, then its arguments in turn (`Eval.InTurn`), and then it is checked:
whether there is something to call, whether it has as many arguments as it needs, and whether one more
call may go on. A call that fails a check is refused (`Moment.Refuses`): it has no parts but those
evaluations, and it stops on the very machine that they left.

A call that is not refused begins the body of a function. That happens one call deeper, in a new
frame, which has the parameters with their arguments and nothing else (`Machine.Enters`). Since a
program in which a routine has two parameters of one name is not accepted, no argument can hide
another one, and since the numbers were compared, none is left over
(`World.Fits.params_nodup`, `Machine.enters_inCall`). Both checks on the way are the same for functions,
methods, native functions and classes; `call_checks_before_running` puts them together.
-/

namespace ScriptLang

open Scoping (Place Site)

/-! ## New frames with variables -/

namespace Slots

variable {α : Type}

theorem write_of_notMem {name : String} (value : α) {entries : List (String × α)}
    (h : name ∉ entries.map (·.1)) : write name value entries = entries ++ [(name, value)] := by
  induction entries with
  | nil => rfl
  | cons entry entries ih =>
    obtain ⟨n, v⟩ := entry
    have hn : n ≠ name := fun hn => h (List.mem_cons.mpr (.inl hn.symm))
    rw [write, if_neg hn, ih fun hmem => h (List.mem_cons_of_mem _ hmem)]
    rfl

end Slots

namespace Frames

variable {fs : Frames} {f : FrameId} {frame : Frame}

theorem frame?_define_self (h : fs.frame? f = some frame) (name : String) (v : Value) :
    (fs.define f name v).frame? f = some { frame with slots := frame.slots.set name v } := by
  unfold define
  rw [frame?_change, if_pos rfl, h]
  rfl

/-- Different names that a frame does not have are added to it in order. -/
theorem frame?_defineAll_self {names : List String} {vs : List Value}
    (h : fs.frame? f = some frame) (hnames : names.Nodup)
    (hnew : ∀ x ∈ names, x ∉ frame.slots.names) :
    (fs.defineAll f names vs).frame? f =
      some { frame with slots := ⟨frame.slots.entries ++ names.zip vs⟩ } := by
  induction names generalizing fs frame vs with
  | nil => simpa [defineAll] using h
  | cons name names ih =>
    cases vs with
    | nil => simpa [defineAll] using h
    | cons v vs =>
      obtain ⟨hname, hrest⟩ := List.nodup_cons.mp hnames
      have hset : (frame.slots.set name v).entries = frame.slots.entries ++ [(name, v)] :=
        Slots.write_of_notMem v (hnew name List.mem_cons_self)
      have hnew' (x : String) (hx : x ∈ names) : x ∉ (frame.slots.set name v).names := by
        unfold Slots.names
        rw [hset, List.map_append, List.mem_append, not_or]
        refine ⟨hnew x (List.mem_cons_of_mem _ hx), fun hmem => ?_⟩
        rw [List.map_singleton, List.mem_singleton] at hmem
        subst hmem
        exact hname hx
      rw [defineAll, ih (frame?_define_self h name v) hrest hnew', hset, List.zip_cons_cons,
        List.append_assoc]
      rfl

/-- A new frame for different names has these names with their values, and is inside the given
one. -/
theorem frame?_push_defineAll (fs : Frames) (e : Option FrameId) {names : List String}
    (hnames : names.Nodup) (vs : List Value) :
    ((fs.push e).defineAll fs.nextId names vs).frame? fs.nextId = some ⟨⟨names.zip vs⟩, e⟩ :=
  frame?_defineAll_self (fs.frame?_push_self e) hnames fun _ _ => by simp [Slots.names, Slots.empty]

end Frames

/-! ## Arguments -/

namespace Eval

variable {n : Nat} {es : List Expr} {m m' : Machine} {vs : List Value}

/-- The expressions are evaluated one after the other, each once and on the machine that the one
before it left. -/
inductive InTurn (n : Nat) : List Expr → Machine → List Value → Machine → Prop
  | nil {m : Machine} : InTurn n [] m [] m
  | cons {e : Expr} {es : List Expr} {m m₁ m₂ : Machine} {v : Value} {vs : List Value}
    (hfirst : expression (.ofFuel n) e m = .ok v m₁)
    (hothers : InTurn n es m₁ vs m₂) : InTurn n (e :: es) m (v :: vs) m₂

/-- Arguments are evaluated in turn. -/
theorem expressions_eq_ok_iff :
    expressions (.ofFuel n) es m = .ok vs m' ↔ InTurn n es m vs m' := by
  constructor
  · intro h
    induction es generalizing m vs with
    | nil =>
      cases h
      exact .nil
    | cons e es ih =>
      obtain ⟨v, m₁, hfirst, h⟩ := bind_eq_ok h
      obtain ⟨ws, m₂, hothers, h⟩ := bind_eq_ok h
      cases h
      exact .cons hfirst (ih hothers)
  · intro h
    induction h with
    | nil => rfl
    | cons hfirst _ ih => exact (bind_of_ok hfirst).trans (bind_of_ok ih)

end Eval

/-! ## Refused calls -/

/-- The evaluation has no parts but those named, and then it stops for a fault on the machine. -/
structure Moment.Refuses (M : Moment) (parts : List Moment) (word : Lexeme) (fault : RunFault)
    (m : Machine) : Prop where
  ending : M.ending = .error (.error (.at word fault)) m
  parts : ∀ N, Part M N ↔ N ∈ parts

section Call

open Eval

variable {n : Nat} {callee : Expr} {arguments : List Expr} {closing : Lexeme}
variable {m m₁ m₂ : Machine} {v : Value} {vs : List Value}

/-- The parts of a call are what is called, the arguments, and, if all is well, what is done then. -/
theorem part_of_call_iff (hcallee : expression (.ofFuel n) callee m = .ok v m₁)
    (harguments : expressions (.ofFuel n) arguments m₁ = .ok vs m₂) {N : Moment} :
    Part ⟨n, .expression (.call callee arguments closing), m⟩ N ↔
      N ∈ [⟨n, .expression callee, m⟩, ⟨n, .expressions arguments, m₁⟩] ∨
      ∃ c, v = .callable c ∧ vs.length = c.arity ∧ m₂.depth < m₂.maxDepth ∧
        N = ⟨n, .apply c vs, m₂.deeper⟩ := by
  constructor
  · intro h
    cases h with
    | callee => exact .inl List.mem_cons_self
    | arguments hcallee' =>
      cases hcallee.symm.trans hcallee'
      exact .inl (List.mem_cons_of_mem _ List.mem_cons_self)
    | apply hcallee' harguments' harity hdepth =>
      cases hcallee.symm.trans hcallee'
      cases harguments.symm.trans harguments'
      exact .inr ⟨_, rfl, harity, hdepth, rfl⟩
  · rintro (h | ⟨c, rfl, harity, hdepth, rfl⟩)
    · rcases List.mem_cons.mp h with rfl | h
      · exact .callee
      · rw [List.mem_singleton.mp h]
        exact .arguments hcallee
    · exact .apply hcallee harguments harity hdepth

/-- A call ends as what comes after its arguments does. -/
theorem ending_of_call (hcallee : expression (.ofFuel n) callee m = .ok v m₁)
    (harguments : expressions (.ofFuel n) arguments m₁ = .ok vs m₂) :
    Moment.ending ⟨n, .expression (.call callee arguments closing), m⟩ =
      callValue (invokeWith n) v vs closing m₂ :=
  (bind_of_ok hcallee).trans (bind_of_ok harguments)

/-- A call that stops at its checks is refused, if its checks are such that nothing begins. -/
theorem refuses_of_call (hcallee : expression (.ofFuel n) callee m = .ok v m₁)
    (harguments : expressions (.ofFuel n) arguments m₁ = .ok vs m₂) {fault : RunFault}
    (hstop : callValue (invokeWith n) v vs closing m₂ = .error (.error (.at closing fault)) m₂)
    (hnone : ∀ c, v = .callable c → vs.length = c.arity → ¬ m₂.depth < m₂.maxDepth) :
    Moment.Refuses ⟨n, .expression (.call callee arguments closing), m⟩
      [⟨n, .expression callee, m⟩, ⟨n, .expressions arguments, m₁⟩] closing fault m₂ where
  ending := (ending_of_call hcallee harguments).trans hstop
  parts N := by
    rw [part_of_call_iff hcallee harguments, or_iff_left]
    rintro ⟨c, hc, harity, hdepth, -⟩
    exact hnone c hc harity hdepth

theorem Eval.callValue_notCallable {invoke : Callable → List Value → Eval Value}
    (h : ∀ c, v ≠ .callable c) :
    callValue invoke v vs closing m = .error (.error (.at closing .notCallable)) m := by
  cases v with
  | callable c => exact absurd rfl (h c)
  | _ => rfl

theorem Eval.callValue_arity {invoke : Callable → List Value → Eval Value} {c : Callable}
    (h : vs.length ≠ c.arity) : callValue invoke (.callable c) vs closing m =
      .error (.error (.at closing (.arity c.display c.arity vs.length))) m := by
  unfold callValue
  dsimp only
  rw [if_pos h]
  rfl

theorem Eval.callValue_stackOverflow {invoke : Callable → List Value → Eval Value} {c : Callable}
    (h : vs.length = c.arity) (hdepth : m.maxDepth ≤ m.depth) :
    callValue invoke (.callable c) vs closing m =
      .error (.error (.at closing .stackOverflow)) m := by
  unfold callValue
  dsimp only
  rw [if_neg (not_not.mpr h)]
  unfold deeper
  rw [if_pos hdepth]
  rfl

/-- Without fuel a call that is not refused does not begin, either. -/
theorem Eval.callValue_outOfFuel {c : Callable} (h : vs.length = c.arity)
    (hdepth : m.depth < m.maxDepth) :
    callValue (invokeWith 0) (.callable c) vs closing m = .error .outOfFuel m := by
  have hstop : invokeWith 0 c vs m.deeper = .error .outOfFuel m.deeper := rfl
  exact callValue_of_error h hdepth hstop

end Call

/-! ## Bodies -/

/-- On the machine `M` the body of a function begins, one call deeper than on the machine `m` and in a
frame that is not there yet. The frame has the parameters with their arguments, in order, and it is
inside the closure of the function. -/
structure Machine.Enters (m : Machine) (f : Function) (arguments : List Value) (M : Machine) :
    Prop where
  depth : M.depth = m.depth + 1
  new : m.frames.count ≤ M.current
  distinct : (f.routine.params.map (·.text)).Nodup
  length : arguments.length = f.arity
  frame : M.frames.frame? M.current =
    some ⟨⟨(f.routine.params.map (·.text)).zip arguments⟩, some f.closure⟩

theorem Machine.enters_inCall {m m' : Machine} {f : Function} {arguments : List Value}
    (hdepth : m'.depth = m.depth + 1) (hframes : m.frames.count ≤ m'.frames.count)
    (hdistinct : (f.routine.params.map (·.text)).Nodup) (hlength : arguments.length = f.arity) :
    m.Enters f arguments (m'.inCall f arguments) where
  depth := hdepth
  new := hframes
  distinct := hdistinct
  length := hlength
  frame := Frames.frame?_push_defineAll m'.frames (some f.closure) hdistinct arguments

/-- A call leaves the frames that are there as they are. -/
theorem Machine.frame?_inCall_of_lt {m : Machine} {g : FrameId} (h : g < m.frames.count)
    (f : Function) (arguments : List Value) :
    (m.inCall f arguments).frames.frame? g = m.frames.frame? g := by
  have hne : g ≠ m.frames.nextId := Nat.ne_of_lt h
  exact (Frames.frame?_defineAll_of_ne hne _ arguments).trans (Frames.frame?_push_of_lt h)

theorem Eval.count_boundMachine (f : Function) (self : Value) (m : Machine) :
    (boundMachine f self m).frames.count = m.frames.count + 1 := by
  unfold boundMachine
  rw [Frames.count_define, Frames.count_push]

/-- A bound method that is called finds `this` in the frame around its own, and nothing else. -/
theorem Eval.frame?_this (f : Function) (self : Value) (m : Machine) (arguments : List Value) :
    ((boundMachine f self m).inCall (boundFunction f m) arguments).frames.frame? m.frames.nextId =
      some ⟨⟨[("this", self)]⟩, some f.closure⟩ := by
  have hlt : m.frames.nextId < (boundMachine f self m).frames.count := by
    rw [count_boundMachine]
    exact Nat.lt_succ_self _
  rw [Machine.frame?_inCall_of_lt hlt]
  exact Frames.frame?_define_self (m.frames.frame?_push_self (some f.closure)) "this" self

/-- The parameters of a function that is called have different names. -/
theorem World.Fits.params_nodup {W : World} {pending : Pending} {n : Nat} {f : Function}
    {arguments : List Value} {m : Machine} (h : W.Fits pending ⟨n, .call f arguments, m⟩) :
    (f.routine.params.map (·.text)).Nodup := by
  obtain ⟨⟨⟨a, _, S, r⟩, hP, rfl, -⟩, -, -⟩ := h.suits
  have hvars := (List.nodup_append'.mp (W.sound hP).proper_routine.distinct).1
  exact (List.nodup_append'.mp hvars).1

namespace Launch

/-- In the run, the body of the function begins after the machine `m`. -/
def Enters (l : Launch) (k : Nat) (m : Machine) (f : Function) (arguments : List Value)
    (M : Machine) : Prop :=
  l.Runs ⟨k, .statements f.routine.body, M⟩ ∧ m.Enters f arguments M

theorem Coherent.params_nodup {H : List Launch} (h : Coherent H) {n : Nat} {f : Function}
    {arguments : List Value} {m : Machine} (hcall : Happened H ⟨n, .call f arguments, m⟩) :
    (f.routine.params.map (·.text)).Nodup := by
  obtain ⟨W, pending, -, hfits⟩ := h.fits _ hcall
  exact hfits.params_nodup

section Apply

variable {H : List Launch} (h : Coherent H) {l : Launch} (hl : l ∈ H)
variable {k : Nat} {m : Machine} {arguments : List Value}

include h hl

/-- A function that is called begins its body. -/
theorem Coherent.enters_function {f : Function}
    (happly : l.Runs ⟨k + 1, .apply (.function f) arguments, m.deeper⟩)
    (harity : arguments.length = f.arity) :
    l.Enters k m f arguments (m.deeper.inCall f arguments) := by
  have hcall := happly.part .function
  exact ⟨hcall.part .body, Machine.enters_inCall rfl (Nat.le_refl _)
    (h.params_nodup ⟨l, hl, hcall⟩) harity⟩

/-- A class that is called binds its initializer to a new instance and begins the body. -/
theorem Coherent.enters_initializer {c : Class} {f : Function}
    (happly : l.Runs ⟨k + 1, .apply (.class c) arguments, m.deeper⟩)
    (hf : c.initializer? = some f) (harity : arguments.length = f.arity) :
    ∃ M, l.Enters k m (Eval.boundFunction f m.deeper.withInstance) arguments M ∧
      M.frames.frame? m.frames.nextId =
        some ⟨⟨[("this", .instance (m.nextInstance c))]⟩, some f.closure⟩ := by
  have hcall := happly.part (.constructCall hf (Eval.bindThis_eq ..))
  refine ⟨_, ⟨hcall.part .body, Machine.enters_inCall rfl ?_
    (h.params_nodup ⟨l, hl, hcall⟩) harity⟩, ?_⟩
  · rw [Eval.count_boundMachine]
    exact Nat.le_succ _
  · exact Eval.frame?_this f _ m.deeper.withInstance arguments

end Apply

end Launch

/-! ## All calls -/

open Eval in
/-- **Calls are checked before they begin.** Let a call be reached in the next run of any session,
let what is called have a value, and let the arguments have values in turn, which leaves a machine.

* If that value is nothing to call, the call is refused for this.
* Otherwise, if the number of arguments is not the one needed, it is refused for both numbers.
* Otherwise, if as many calls go on as may, it is refused for being too deep. A refused call has
  evaluated what is called and the arguments and nothing else, and leaves the machine as it is then.
* Otherwise, unless the fuel is spent, the body of the function that is called begins; of a class, that
  is the body of its initializer, bound to a new instance. It begins one call deeper, in a new frame that
  holds the parameters with their arguments and is inside the closure of the function. -/
theorem call_checks_before_running {L : List Launch} {vs : List Value} {s : Session}
    (hs : Session.Hosted L vs s) {fuel : Nat} {source : String} {mode : Mode} {l : Launch}
    (hlaunch : s.launch? fuel source mode = some l) {n : Nat} {callee : Expr}
    {arguments : List Expr} {closing : Lexeme} {m m₁ m₂ : Machine} {v : Value} {ws : List Value}
    (hcall : l.Runs ⟨n, .expression (.call callee arguments closing), m⟩)
    (hcallee : expression (.ofFuel n) callee m = .ok v m₁)
    (harguments : InTurn n arguments m₁ ws m₂) :
    let M : Moment := ⟨n, .expression (.call callee arguments closing), m⟩
    let before : List Moment := [⟨n, .expression callee, m⟩, ⟨n, .expressions arguments, m₁⟩]
    ((∀ c, v ≠ .callable c) → M.Refuses before closing .notCallable m₂) ∧
    ∀ c, v = .callable c →
      (ws.length ≠ c.arity →
        M.Refuses before closing (.arity c.display c.arity ws.length) m₂) ∧
      (ws.length = c.arity → m₂.depth = m₂.maxDepth →
        M.Refuses before closing .stackOverflow m₂) ∧
      (ws.length = c.arity → m₂.depth ≠ m₂.maxDepth →
        (n = 0 → M.ending = .error .outOfFuel m₂) ∧
        ∀ k, n = k + 1 →
          (∀ f, c = .function f → ∃ M', l.Enters k m₂ f ws M') ∧
          ∀ d f, c = .class d → d.initializer? = some f →
            ∃ g M', g.routine = f.routine ∧ l.Enters k m₂ g ws M' ∧
              M'.frames.frame? g.closure =
                some ⟨⟨[("this", .instance (m₂.nextInstance d))]⟩, some f.closure⟩) := by
  intro M before
  have hcoherent := hs.coherent hlaunch
  have hl : l ∈ L ++ [l] := by simp
  have harguments' := expressions_eq_ok_iff.mpr harguments
  -- the depth of calls is never more than the limit
  have hwithin : m₂.depth ≤ m₂.maxDepth := by
    have hleads := (hcall.part (.arguments hcallee)).leads.trans
      (Moment.leads ⟨n, .expressions arguments, m₁⟩ harguments')
    rw [hleads.maxDepth]
    exact hleads.depth (Nat.zero_le _)
  refine ⟨fun hv => ?_, fun c hc => ?_⟩
  · exact refuses_of_call hcallee harguments' (callValue_notCallable hv) fun c hc => absurd hc (hv c)
  subst hc
  refine ⟨fun harity => ?_, fun harity hdepth => ?_, fun harity hdepth => ?_⟩
  · refine refuses_of_call hcallee harguments' (callValue_arity harity) fun c hc hlength => ?_
    cases hc
    exact absurd hlength harity
  · exact refuses_of_call hcallee harguments' (callValue_stackOverflow harity (Nat.le_of_eq hdepth.symm))
      fun _ _ _ hlt => absurd hdepth (Nat.ne_of_lt hlt)
  · have hlt : m₂.depth < m₂.maxDepth := Nat.lt_of_le_of_ne hwithin hdepth
    refine ⟨fun hn => ?_, fun k hk => ?_⟩
    · subst hn
      exact (ending_of_call hcallee harguments').trans (callValue_outOfFuel harity hlt)
    subst hk
    have happly := hcall.part (.apply hcallee harguments' harity hlt)
    refine ⟨fun f hc => ?_, fun d f hc hf => ?_⟩
    · subst hc
      exact ⟨_, hcoherent.enters_function hl happly harity⟩
    · subst hc
      have harity' : ws.length = f.arity := by
        have hd : d.arity = f.arity := by unfold Class.arity; rw [hf]
        exact harity.trans hd
      obtain ⟨M', henters, hthis⟩ := hcoherent.enters_initializer hl happly hf harity'
      exact ⟨boundFunction f m₂.deeper.withInstance, M', rfl, henters, hthis⟩

open Eval in
/-- A class is called with a constant and itself, and its initializer begins in a frame that has both, in
this order. -/
theorem initializer_begins_with_arguments : ∃ l m ws d f,
    Session.start.launch? 9 "class A{init(a,b){a;b;}}A(nil,A);" .script = some l ∧
      let callee : Expr := .variable ⟨2, ⟨"A", 1⟩⟩
      let arguments : List Expr := [.literal .nil, .variable ⟨3, ⟨"A", 1⟩⟩]
      l.Runs ⟨9, .expression (.call callee arguments ⟨")", 1⟩), m⟩ ∧
      expression (.ofFuel 9) callee m = .ok (.callable (.class d)) m ∧
      InTurn 9 arguments m ws m ∧ d.initializer? = some f ∧
      ∃ g M, l.Enters 8 m g ws M ∧ M.frames.here? M.current "b" = some (.callable (.class d)) := by
  let callee : Expr := .variable ⟨2, ⟨"A", 1⟩⟩
  let arguments : List Expr := [.literal .nil, .variable ⟨3, ⟨"A", 1⟩⟩]
  let call : Expr := .call callee arguments ⟨")", 1⟩
  let body : List Stmt :=
    [.expression (.variable ⟨0, ⟨"a", 1⟩⟩), .expression (.variable ⟨1, ⟨"b", 1⟩⟩)]
  let routine : Routine := ⟨[⟨"a", 1⟩, ⟨"b", 1⟩], body⟩
  let declaration : Stmt := .class ⟨"A", 1⟩ none [⟨⟨"init", 1⟩, routine⟩]
  let p : Program := ⟨[declaration, .expression call], none⟩
  let l : Launch := ⟨.start, ((∅ : Bindings).bind 0 0).bind 1 0, 9, p⟩
  let f : Function := ⟨0, some "init", routine, 0, true⟩
  let d : Class := ⟨1, "A", none, ⟨[("init", f)]⟩⟩
  let v : Value := .callable (.class d)
  let globals : Frame := ⟨⟨[("clock", .callable (.native .clock)), ("A", v)]⟩, none⟩
  let m : Machine := { l.start.home with frames := ⟨#[globals]⟩, made := 2 }
  have hlaunch : Session.start.launch? 9 "class A{init(a,b){a;b;}}A(nil,A);" .script = some l := rfl
  have hdeclared : statement (.ofFuel 9) declaration l.start.home = .ok .normal m := rfl
  have hstart : l.Runs ⟨9, .topLevel p.statements, l.start.home⟩ := Machine.Starts.statements.runs
  have hcall : l.Runs ⟨9, .expression call, m⟩ :=
    ((hstart.part (.topTail hdeclared)).part .topHead).part .evaluated
  have hcallee : expression (.ofFuel 9) callee m = .ok v m := rfl
  have harguments : InTurn 9 arguments m [.nil, v] m := .cons rfl (.cons rfl .nil)
  obtain ⟨-, -, hentered⟩ :=
    (call_checks_before_running (.start _ _) hlaunch hcall hcallee harguments).2 _ rfl
  obtain ⟨g, M, hroutine, henters, -⟩ := ((hentered rfl (by decide)).2 8 rfl).2 d f rfl rfl
  refine ⟨l, m, _, d, f, hlaunch, hcall, hcallee, harguments, rfl, g, M, henters, ?_⟩
  have hframe := henters.2.frame
  rw [hroutine] at hframe
  unfold Frames.here?
  rw [hframe]
  rfl

end ScriptLang
