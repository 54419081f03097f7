import ScriptLang.Proofs.Agreement.World

/-!
# Moments that fit

A moment fits a world if its machine is good, if what is evaluated was visited in scopes in
which the current frame is lodged, and if the values it gets are good (`World.Fits`). What
comes of it is to be good again (`World.Leaves`), as long as the fuel lasts: an error leaves a
good machine, but for the variables whose initializers were given up.

`Fits.part` goes from a moment to its parts. It is where the two walks meet: each part is
evaluated in the frames that were made for the scopes in which it was visited.
-/

namespace ScriptLang

open Scoping (Place Visits Site Scope Widened SameNames Shaped Phrase)

/-- The phrase that is evaluated, if it is one that the walk over a program visits. -/
def Task.phrase? : Task → Option Phrase
  | .expression e => some (.expression e)
  | .expressions es => some (.expressions es)
  | .statement s => some (.statement s)
  | .statements body => some (.statements body)
  | .declarators ds => some (.declarators ds)
  | _ => none

namespace World

variable {W : World} {pending pending' : Pending} {m m' : Machine} {xs : List String}
variable {S : List Site} {scopes : List Scope}

/-! ## Places of phrases -/

theorem Lodged.later (h : W.Lodged m.frames pending S scopes m.current) (hg : m.Grows xs m') :
    W.Lodged m'.frames pending S scopes m'.current :=
  hg.current ▸ h.mono (.refl W) hg.frames fun _ _ hp => .inr hp

theorem Good.later {v : Value} (h : W.Good m.frames pending v) (hg : m.Grows xs m') :
    W.Good m'.frames pending v := h.mono (.refl W) hg.frames fun _ _ hp => .inr hp

/-- The phrase was visited in scopes in which the current frame is lodged. -/
def At (W : World) (pending : Pending) (m : Machine) (t : Phrase) : Prop :=
  ∃ P, W.placed P ∧ P.phrase = t ∧ W.Lodged m.frames pending P.sites P.state.scopes m.current

/-- A phrase that is visited in the same scopes, with names declared that are there by now. -/
theorem At.visit {t t' : Phrase} (names : List String) (h : W.At pending m t)
    (hg : m.Grows xs m')
    (hvisit : ∀ a S r, Place.Sound W.table ⟨a, t, S, r⟩ →
      ∃ a' r', Visits ⟨a, t, S, r⟩ ⟨a', t', S, r'⟩ ∧ Widened names r.scopes r'.scopes)
    (hnames : ∀ x ∈ names, (m'.frames.here? m'.current x).isSome ∨ pending m'.current x) :
    W.At pending m' t' := by
  obtain ⟨⟨a, _, S, r⟩, hP, rfl, hlodged⟩ := h
  obtain ⟨a', r', hvisits, hscopes⟩ := hvisit a S r (W.sound hP)
  exact ⟨_, W.visits hP hvisits, rfl, (hlodged.later hg).widen hscopes hnames⟩

/-- The same phrase, evaluated again. -/
theorem At.later {t : Phrase} (h : W.At pending m t) (hg : m.Grows xs m') : W.At pending m' t := by
  obtain ⟨P, hP, hphrase, hlodged⟩ := h
  exact ⟨P, hP, hphrase, hlodged.later hg⟩

/-- A phrase that is visited later, after nothing was declared. -/
theorem At.next {t t' : Phrase} (h : W.At pending m t) (hg : m.Grows xs m')
    (hvisit : ∀ a S r, ∃ a' r' ids, Visits ⟨a, t, S, r⟩ ⟨a', t', S, r'⟩ ∧
      Scoping.Resolution.Grows ids [] r r') :
    W.At pending m' t' := by
  refine h.visit [] hg (fun a S r _ => ?_) (by simp)
  obtain ⟨a', r', ids, hvisits, hgrows⟩ := hvisit a S r
  exact ⟨a', r', hvisits, hgrows.scopes⟩

/-- A phrase that is visited at once. -/
theorem At.first {t t' : Phrase} (h : W.At pending m t)
    (hvisit : ∀ a S r, ∃ a', Visits ⟨a, t, S, r⟩ ⟨a', t', S, r⟩) : W.At pending m t' := by
  have hsame : m.Grows [] m := .refl m
  refine h.next hsame fun a S r => ?_
  obtain ⟨a', hvisits⟩ := hvisit a S r
  exact ⟨a', r, [], hvisits, .refl r⟩

theorem At.wellFormed {t : Phrase} (h : W.At pending m t) : t.WellFormed := by
  obtain ⟨P, hP, rfl, -⟩ := h
  exact (W.sound hP).wellFormed

theorem At.current_lt {t : Phrase} (h : W.At pending m t) (hm : W.Stands pending m) :
    m.current < m.frames.count := by
  obtain ⟨P, -, -, hlodged⟩ := h
  exact hlodged.lt_count hm.globals_lt

/-! ## New functions and classes -/

/-- A function that is declared in the current frame. What declares it is not right inside a scope
with `this`. -/
theorem At.goodFunction {t : Phrase} {routine : Routine} (names : List String)
    (h : W.At pending m t) (hg : m.Grows xs m')
    (hvisit : ∀ a S r, ∃ a' r', Visits ⟨a, t, S, r⟩ ⟨a', .routine routine, S, r'⟩ ∧
      Widened names r.scopes r'.scopes)
    (hnames : ∀ x ∈ names, (m'.frames.here? m'.current x).isSome ∨ pending m'.current x)
    (hmethods : ∀ rest, t ≠ .methods rest) (hroutine : ∀ r, t ≠ .routine r) (k : Nat)
    (name : Option String) :
    W.GoodFunction m'.frames pending ⟨k, name, routine, m'.current, false⟩ := by
  obtain ⟨⟨a, _, S, r⟩, hP, rfl, hlodged⟩ := h
  obtain ⟨a', r', hvisits, hscopes⟩ := hvisit a S r
  refine ⟨_, W.visits hP hvisits, rfl, nofun, fun members S' hsites => ?_,
    (hlodged.later hg).widen hscopes hnames⟩
  have hself : S[0]? = some (.self members) := by
    rw [show S = .self members :: S' from hsites]
    rfl
  rcases (W.nested hP).inner members hself with ⟨rest, hphrase, -⟩ | ⟨method, -, hphrase⟩
  · exact absurd hphrase (hmethods rest)
  · exact absurd hphrase (hroutine method.routine)

/-- A method that gets its `this`. -/
theorem GoodMethod.bound {n : Nat} {f : Function} {self : Value}
    (hhappens : W.happens ⟨n, .bind f self, m⟩) (hf : W.GoodMethod m.frames pending f) :
    W.GoodFunction (Eval.boundMachine f self m).frames pending (Eval.boundFunction f m) := by
  obtain ⟨P, members, S, this, scopes, hP, hphrase, hrole, hsites, hscopes, hthis, ⟨name, hname⟩,
    hlodged⟩ := hf
  refine ⟨P, hP, hphrase, hrole, fun _ _ _ => ⟨n, f, self, m, hhappens, rfl⟩, ?_⟩
  rw [hsites, hscopes]
  exact hlodged.enter ["this"] [self] hhappens (.bind hname) rfl (by simpa using hthis) rfl

/-- The frame in which the methods of a class are closed is lodged in the scopes around
`this`. -/
theorem Lodged.methodClosure {superclass : Option Ref} {parent : Option Class} {name : Lexeme}
    {members : List Method} {n : Nat} {r : Scoping.Resolution}
    (hhappens : W.happens ⟨n, .statement (.class name superclass members), m⟩)
    (hparent : Eval.parentOf superclass m = .ok parent m)
    (hcount : m'.frames.nextId = m.frames.nextId) (hcurrent : m'.current = m.current)
    (h : W.Lodged m'.frames pending S r.scopes m'.current) :
    ∃ S' this scopes', Scoping.classSites superclass members S = .self members :: S' ∧
      (r.enterClass name superclass).scopes = this :: scopes' ∧
      (∀ x, this.contains x → x = "this") ∧
      W.Lodged (Eval.methodMachine m' parent).frames pending S' scopes'
        (Eval.methodClosure m' parent) := by
  rcases Eval.parentOf_ok hparent with ⟨-, ⟨rfl, rfl⟩ | ⟨ref, c, rfl, rfl, hc⟩⟩
  · exact ⟨S, _, r.scopes, rfl, rfl, fun x hx => (Scoping.contains_implicitly ..).mp hx, h⟩
  · obtain ⟨scopes', heq, hscopes⟩ := r.scopes_enterClass name ref
    refine ⟨_, _, _, rfl, heq, fun x hx => (Scoping.contains_implicitly ..).mp hx, ?_⟩
    have hactivates : Moment.Activates ⟨n, .statement (.class name (some ref) members), m⟩
        m'.frames.nextId (.super members) := hcount ▸ .class hc
    refine (h.congr hscopes).enter ["super"] [.callable (.class c)] hhappens hactivates
      hcurrent.symm ?_ rfl
    intro x hx
    simpa using (Scoping.contains_implicitly ..).mp hx

/-- A class that is declared in the current frame. -/
theorem At.goodMethod {n : Nat} {name : Lexeme} {superclass : Option Ref}
    {members : List Method} {parent : Option Class} {f : Function}
    (h : W.At pending m (.statement (.class name superclass members)))
    (hhappens : W.happens ⟨n, .statement (.class name superclass members), m⟩)
    (hparent : Eval.parentOf superclass m = .ok parent m)
    (hm : m.current < m.frames.count)
    (hf : Eval.MadeFrom (Eval.methodClosure (m.defining name.text .nil) parent) members f) :
    W.GoodMethod (Eval.methodMachine (m.defining name.text .nil) parent).frames pending f := by
  obtain ⟨⟨a, _, S, r⟩, hP, rfl, hlodged⟩ := h
  obtain ⟨⟨word, hmember, hinit⟩, hclosure⟩ := hf
  -- the scopes of the class, with its name in the innermost
  have hgrows : m.Grows [name.text] (m.defining name.text .nil) := .of_defining _ (by simp)
  have hdeclared : Scoping.Resolution.Grows [] [name.text] r ((r.declare name).define name) :=
    Scoping.Resolution.grows_declareDefine name
  have hnamed := (hlodged.later hgrows).widen hdeclared.scopes fun x hx => by
    obtain rfl : x = name.text := by simpa using hx
    exact .inl (Eval.isSome_defining hm ..)
  have hcount : (m.defining name.text .nil).frames.nextId = m.frames.nextId :=
    Frames.count_define ..
  obtain ⟨S', this, scopes', hsites, hscopes, hthis, hlodged'⟩ :=
    hnamed.methodClosure hhappens hparent hcount rfl
  -- the place of the method in them
  obtain ⟨Q, hpath, hphrase, hQsites, haround, hQscopes⟩ :=
    Scoping.exists_method_place (P := ⟨a.inClass superclass, .methods members,
      Scoping.classSites superclass members S,
      ((r.declare name).define name).enterClass name superclass⟩) rfl hmember
  have hQ : W.placed Q := W.visits_path (W.visits hP .members) hpath
  rw [hscopes] at hQscopes
  obtain ⟨this', scopes'', hthis', hscopes'', hQeq⟩ := List.forall₂_cons_left_iff.mp hQscopes
  refine ⟨Q, members, S', this', scopes'', hQ, hphrase, fun hi => ?_, hQsites.trans hsites, hQeq,
    fun x hx => hthis x ?_, ⟨word, hmember⟩, ?_⟩
  · have hword : word.text = "init" := by
      rw [hi] at hinit
      simpa using hinit.symm
    rw [haround]
    simp [Scoping.Surroundings.within, Scoping.Role.ofMethod, hword]
  · rwa [hthis'] at hx
  · rw [hclosure]
    exact hlodged'.congr hscopes''

/-! ## Fitting and leaving -/

variable (W pending m)

/-- What is evaluated was visited where the machine is, and its values are good. -/
def Suits : Task → Prop
  | .expression e => W.At pending m (.expression e)
  | .expressions es => W.At pending m (.expressions es)
  | .statement s => W.At pending m (.statement s)
  | .statements body => W.At pending m (.statements body)
  | .declarators ds => W.At pending m (.declarators ds)
  | .loop condition body _ => W.At pending m (.statement (.whileLoop condition body))
  | .topLevel body => W.At pending m (.statements body)
  | .apply c arguments => W.GoodCallable m.frames pending c ∧ arguments.length = c.arity ∧
      ∀ v ∈ arguments, W.Good m.frames pending v
  | .call f arguments => W.GoodFunction m.frames pending f ∧ arguments.length = f.arity ∧
      ∀ v ∈ arguments, W.Good m.frames pending v
  | .bind f self => W.GoodMethod m.frames pending f ∧ W.Good m.frames pending self

/-- What a task leads to is good. -/
def Yields : (t : Task) → t.Result → Prop
  | .expression _, v => W.Good m.frames pending v
  | .expressions _, vs => ∀ v ∈ vs, W.Good m.frames pending v
  | .statement _, flow => W.GoodFlow m.frames pending flow
  | .statements _, flow => W.GoodFlow m.frames pending flow
  | .declarators _, _ => True
  | .loop _ _ _, flow => W.GoodFlow m.frames pending flow
  | .topLevel _, _ => True
  | .apply _ _, v => W.Good m.frames pending v
  | .call _ _, v => W.Good m.frames pending v
  | .bind f _, g => W.GoodFunction m.frames pending g ∧ g.routine = f.routine

/-- A stop leaves a good machine, unless it is for want of fuel. -/
def Stops (aborted : Pending) : Abort → Prop
  | .error _ => W.Stands (fun f x => pending f x ∨ aborted f x) m
  | .outOfFuel => True

variable {m}

/-- A moment that happens on a good machine, in the right frame and with good values. -/
structure Fits (M : Moment) : Prop where
  happens : W.happens M
  stands : W.Stands pending M.machine
  suits : W.Suits pending M.machine M.task

/-- The end of a moment is good. -/
def Leaves (M : Moment) : Prop :=
  Eval.Ends (M.task.perform M.fuel) M.machine
    (fun a m' => W.Stands pending m' ∧ W.Yields pending m' M.task a)
    fun stop m' => W.Stops pending m' M.Aborts stop

variable {W pending}

/-- A moment whose end is good whenever it fits. -/
def Preserves (W : World) (M : Moment) : Prop := ∀ pending, W.Fits pending M → W.Leaves pending M

/-! ## From a moment to its parts -/

section Parts

variable {n : Nat} {name : Lexeme} {e : Expr} {rest : List Declarator}

theorem not_super_of_free {name : String} (h : IsFree name) {P : Prop} : name = "super" → P := by
  rintro rfl
  exact absurd h super_not_free

/-- While the initializer of a variable is evaluated, the variable is pending. -/
theorem Fits.initializer (hM : W.Fits pending ⟨n, .declarators (⟨name, some e⟩ :: rest), m⟩) :
    W.Fits (fun f x => pending f x ∨
        Moment.Initializes ⟨n, .declarators (⟨name, some e⟩ :: rest), m⟩ f x ⟨n, .expression e, m⟩)
      ⟨n, .expression e, m⟩ := by
  refine ⟨W.part hM.happens .initializer, hM.stands.more fun _ _ hp => .inl hp, ?_⟩
  obtain ⟨⟨a, _, S, r⟩, hP, rfl, hlodged⟩ := hM.suits
  have hdeclared : Scoping.Resolution.Grows [] [name.text] r (r.declare name) :=
    Scoping.Resolution.grows_declare name
  have hsame : m.frames.Extends (fun _ _ => True) m.frames := .refl _
  refine ⟨_, W.visits hP .initializer, rfl, Lodged.widen hdeclared.scopes (fun x hx => ?_)
    (hlodged.mono (.refl W) hsame fun _ _ hp => .inr (.inl hp))⟩
  obtain rfl : x = name.text := by simpa using hx
  exact .inr (.inr .intro)

/-- Once the initializer is done, its variable is no longer pending. -/
theorem Fits.afterInitializer {v : Value} {m₁ : Machine}
    (hM : W.Fits pending ⟨n, .declarators (⟨name, some e⟩ :: rest), m⟩)
    (he : Eval.expression (.ofFuel n) e m = .ok v m₁)
    (hinner : W.Preserves ⟨n, .expression e, m⟩) :
    W.Fits pending ⟨n, .declarators rest, m₁.defining name.text v⟩ := by
  obtain ⟨hstands, hv⟩ := (hinner _ hM.initializer).of_ok he
  have hat : W.At pending m (.declarators (⟨name, some e⟩ :: rest)) := hM.suits
  have hgrows := Eval.grows_of_expression he
  have hcurrent : m₁.current < m₁.frames.count := by
    rw [hgrows.current]
    exact Nat.lt_of_lt_of_le (hat.current_lt hM.stands) hgrows.frames.count
  have hname : ((m₁.defining name.text v).frames.here? m₁.current name.text).isSome :=
    Eval.isSome_defining hcurrent ..
  have hfs : m₁.frames.Extends (fun _ _ => True) (m₁.frames.define m₁.current name.text v) :=
    .of_define v (.inr trivial)
  have hdone : ∀ f x, (pending f x ∨ Moment.Initializes
        ⟨n, .declarators (⟨name, some e⟩ :: rest), m⟩ f x ⟨n, .expression e, m⟩) →
      ((m₁.defining name.text v).frames.here? f x).isSome ∨ pending f x := by
    rintro f x (hp | hp)
    · exact .inr hp
    · cases hp
      rw [hgrows.current] at hname
      exact .inl hname
  refine ⟨W.part hM.happens (.afterInitializer he), ?_, ?_⟩
  · exact hstands.define hfs hdone (Good.mono (.refl W) hfs hdone hv)
      (not_super_of_free hat.wellFormed.1) fun _ => hat.wellFormed.1
  · have hdefined : m₁.Grows [name.text] (m₁.defining name.text v) := .of_defining _ (by simp)
    have hall : m.Grows [name.text] (m₁.defining name.text v) := hgrows.of_none.trans hdefined
    refine hat.visit [name.text] hall (fun a S r _ => ⟨a, _, .afterInitializer, ?_⟩) fun x hx => ?_
    · exact ((Scoping.Resolution.grows_declare name).andThen
        ((Scoping.expression_grows a e _).andThen
          (Scoping.Resolution.grows_define name))).scopes
    · obtain rfl : x = name.text := by simpa using hx
      exact .inl hname

theorem Fits.afterName (hM : W.Fits pending ⟨n, .declarators (⟨name, none⟩ :: rest), m⟩) :
    W.Fits pending ⟨n, .declarators rest, m.defining name.text .nil⟩ := by
  have hat : W.At pending m (.declarators (⟨name, none⟩ :: rest)) := hM.suits
  have hname := Eval.isSome_defining (hat.current_lt hM.stands) name.text .nil
  have hfs : m.frames.Extends (fun _ _ => True) (m.frames.define m.current name.text .nil) :=
    .of_define .nil (.inr trivial)
  refine ⟨W.part hM.happens .afterName, ?_, ?_⟩
  · exact hM.stands.define hfs (fun _ _ hp => .inr hp) trivial
      (not_super_of_free hat.wellFormed.1) fun _ => hat.wellFormed.1
  · have hgrows : m.Grows [name.text] (m.defining name.text .nil) := .of_defining _ (by simp)
    refine hat.visit [name.text] hgrows (fun a S r _ => ⟨a, _, .afterName, ?_⟩) fun x hx => ?_
    · have hdeclared : Scoping.Resolution.Grows [] [name.text] r ((r.declare name).define name) :=
        Scoping.Resolution.grows_declareDefine name
      exact hdeclared.scopes
    · obtain rfl : x = name.text := by simpa using hx
      exact .inl hname

/-- A block is run in a frame that is lodged in one more scope, which is empty. -/
theorem Lodged.block {body : List Stmt} {S : List Site} {r : Scoping.Resolution}
    (h : W.Lodged m.frames pending S r.scopes m.current)
    (hhappens : W.happens ⟨n, .statement (.block body), m⟩) :
    W.Lodged m.inBlock.frames pending (.block body :: S) r.enter.scopes m.inBlock.current := by
  refine h.enter [] [] hhappens .block rfl (fun x hx => ?_) rfl
  simp [Slots.contains, Slots.get?_empty] at hx

/-- A block is run in a frame of its own, which was made for it. -/
theorem Fits.block {body : List Stmt} (hM : W.Fits pending ⟨n, .statement (.block body), m⟩) :
    W.Fits pending ⟨n, .statements body, m.inBlock⟩ := by
  have hstands := hM.stands.enter (some m.current) [] [] (by simp) (by simp) (by simp)
  refine ⟨W.part hM.happens .block, hstands.congr rfl rfl rfl rfl, ?_⟩
  obtain ⟨⟨a, _, S, r⟩, hP, rfl, hlodged⟩ := hM.suits
  exact ⟨_, W.visits hP .block, rfl, hlodged.block hM.happens⟩

/-- A function is run in a frame of its own, which has the parameters. -/
theorem Fits.body {f : Function} {arguments : List Value}
    (hM : W.Fits pending ⟨n, .call f arguments, m⟩) :
    W.Fits pending ⟨n, .statements f.routine.body, m.inCall f arguments⟩ := by
  obtain ⟨⟨⟨a, _, S, r⟩, hP, rfl, -, -, hlodged⟩, harity, hgood⟩ := hM.suits
  have hfree := (W.sound hP).wellFormed.1
  refine ⟨W.part hM.happens .body, ?_, ?_⟩
  · have hsuper (hx : "super" ∈ f.routine.params.map (·.text)) :
        ∀ v ∈ arguments, ∃ c, v = .callable (.class c) := by
      obtain ⟨p, hp, hsuper⟩ := List.mem_map.mp hx
      exact not_super_of_free (hfree p hp) hsuper
    have hfreeParams : ∀ x ∈ f.routine.params.map (·.text), ¬ IsFree x → ∀ v ∈ arguments,
        ∃ N, W.happens N ∧ N.Provides m.frames.nextId x v := by
      rintro x hx hkeyword
      obtain ⟨p, hp, rfl⟩ := List.mem_map.mp hx
      exact absurd (hfree p hp) hkeyword
    exact (hM.stands.enter (some f.closure) _ arguments hgood hsuper hfreeParams).congr
      rfl rfl rfl rfl
  · have hlen : (f.routine.params.map (·.text)).length = arguments.length := by
      rw [List.length_map, harity]
      rfl
    have hparams : Scoping.Resolution.Grows [] (f.routine.params.map (·.text)) r.enter
        (r.enter.declareAll f.routine.params) := Scoping.Resolution.grows_declareAll _
    obtain ⟨scope, scopes, heq, hscope, hscopes⟩ := hparams.scopes.of_cons rfl
    refine ⟨_, W.visits hP .body, rfl, ?_⟩
    change W.Lodged _ pending _ (r.enter.declareAll f.routine.params).scopes _
    rw [heq]
    refine (hlodged.congr hscopes).enter _ arguments hM.happens .call rfl (fun x hx => ?_) hlen
    rcases (hscope x).mp hx with hx | hx
    · simp [Slots.contains, Slots.get?_empty] at hx
    · exact hx

/-- What an expression leaves behind that is evaluated first. -/
theorem Fits.evaluated {M : Moment} {e : Expr} {v : Value} {m₁ : Machine} {k : Nat}
    (hM : W.Fits pending M) (hpart : Part M ⟨k, .expression e, m⟩)
    (hearlier : ∀ N, Part M N → W.Preserves N) (hm : m = M.machine)
    (hat : W.At pending m (.expression e)) (he : Eval.expression (.ofFuel k) e m = .ok v m₁) :
    W.Stands pending m₁ ∧ W.Good m₁.frames pending v ∧ m.Grows [] m₁ := by
  have hfits : W.Fits pending ⟨k, .expression e, m⟩ :=
    ⟨W.part hM.happens hpart, hm ▸ hM.stands, hat⟩
  have hend := (hearlier _ hpart pending hfits).of_ok he
  exact ⟨hend.1, hend.2, Eval.grows_of_expression he⟩

/-- An expression is evaluated first, and what comes next is visited after it. -/
theorem Fits.second {M : Moment} {t t' : Phrase} {e : Expr} {v : Value} {m₁ : Machine} {k : Nat}
    {task : Task} (hM : W.Fits pending M) (hpart : Part M ⟨k, .expression e, M.machine⟩)
    (hearlier : ∀ N, Part M N → W.Preserves N) (hat : W.At pending M.machine t)
    (hfirst : ∀ a S r, ∃ a', Visits ⟨a, t, S, r⟩ ⟨a', .expression e, S, r⟩)
    (he : Eval.expression (.ofFuel k) e M.machine = .ok v m₁) (hN : W.happens ⟨k, task, m₁⟩)
    (hsuits : W.At pending m₁ t' → W.Suits pending m₁ task)
    (hvisit : ∀ a S r, ∃ a' r' ids, Visits ⟨a, t, S, r⟩ ⟨a', t', S, r'⟩ ∧
      Scoping.Resolution.Grows ids [] r r') : W.Fits pending ⟨k, task, m₁⟩ := by
  obtain ⟨hstands, -, hgrows⟩ := hM.evaluated hpart hearlier rfl (hat.first hfirst) he
  exact ⟨hN, hstands, hsuits (hat.next hgrows hvisit)⟩

/-- The rest of some statements is run once the first one is done. -/
theorem Fits.remaining {t : Task} {s : Stmt} {body : List Stmt} {flow : Flow} {m₁ : Machine}
    (hM : W.Fits pending ⟨n, t, m⟩) (hat : W.At pending m (.statements (s :: body)))
    (hpart : Part ⟨n, t, m⟩ ⟨n, .statement s, m⟩)
    (hearlier : W.Preserves ⟨n, .statement s, m⟩)
    (hs : Eval.statement (.ofFuel n) s m = .ok flow m₁) :
    W.Stands pending m₁ ∧ W.At pending m₁ (.statements body) := by
  have hfits : W.Fits pending ⟨n, .statement s, m⟩ :=
    ⟨W.part hM.happens hpart, hM.stands, hat.first fun a S r => ⟨_, .head⟩⟩
  have hgrows := Eval.grows_of_statement hs
  refine ⟨((hearlier pending hfits).of_ok hs).1, ?_⟩
  refine hat.visit s.declares hgrows (fun a S r _ => ⟨a, _, .tail, ?_⟩) fun x hx => .inl ?_
  · exact (Scoping.statement_grows a s r).scopes
  · exact Eval.defines_statement hat.wellFormed.1 hs (hat.current_lt hM.stands) x hx

/-- A call is of something good, with as many good arguments as it takes. -/
theorem Fits.apply {callee : Expr} {arguments : List Expr} {closing : Lexeme} {c : Callable}
    {vs : List Value} {m₁ m₂ : Machine}
    (hM : W.Fits pending ⟨n, .expression (.call callee arguments closing), m⟩)
    (hearlier : ∀ N, Part ⟨n, .expression (.call callee arguments closing), m⟩ N → W.Preserves N)
    (hcallee : Eval.expression (.ofFuel n) callee m = .ok (.callable c) m₁)
    (harguments : Eval.expressions (.ofFuel n) arguments m₁ = .ok vs m₂)
    (harity : vs.length = c.arity) (hdepth : m₂.depth < m₂.maxDepth) :
    W.Fits pending ⟨n, .apply c vs, m₂.deeper⟩ := by
  have hat : W.At pending m (.expression (.call callee arguments closing)) := hM.suits
  obtain ⟨hstands, hc, hgrows⟩ :=
    hM.evaluated .callee hearlier rfl (hat.first fun a S r => ⟨_, .callee⟩) hcallee
  have hpart : Part ⟨n, .expression (.call callee arguments closing), m⟩
      ⟨n, .expressions arguments, m₁⟩ := .arguments hcallee
  have hfits : W.Fits pending ⟨n, .expressions arguments, m₁⟩ :=
    ⟨W.part hM.happens hpart, hstands, hat.next hgrows fun a S r =>
      ⟨a, _, _, .arguments, Scoping.expression_grows a callee r⟩⟩
  obtain ⟨hstands', hvs⟩ := (hearlier _ hpart pending hfits).of_ok harguments
  have hgood : W.Good m₂.frames pending (.callable c) :=
    hc.later (Eval.grows_of_expressions harguments)
  exact ⟨W.part hM.happens (.apply hcallee harguments harity hdepth),
    hstands'.congr rfl rfl rfl rfl, hgood, harity, hvs⟩

/-- A loop goes on after a round. -/
theorem Fits.nextRound {condition : Expr} {body : Stmt} {k : Nat} {v : Value} {m₁ m₂ : Machine}
    (hM : W.Fits pending ⟨n, .loop condition body (k + 1), m⟩)
    (hearlier : ∀ N, Part ⟨n, .loop condition body (k + 1), m⟩ N → W.Preserves N)
    (hcondition : Eval.expression (.ofFuel n) condition m = .ok v m₁) (hv : v.isTruthy = true)
    (hbody : Eval.statement (.ofFuel n) body m₁ = .ok .normal m₂) :
    W.Fits pending ⟨n, .loop condition body k, m₂⟩ := by
  have hat : W.At pending m (.statement (.whileLoop condition body)) := hM.suits
  obtain ⟨hstands, -, hgrows⟩ := hM.evaluated .roundCondition hearlier rfl
    (hat.first fun a S r => ⟨_, .roundCondition⟩) hcondition
  have hpart : Part ⟨n, .loop condition body (k + 1), m⟩ ⟨n, .statement body, m₁⟩ :=
    .roundBody hcondition hv
  have hfits : W.Fits pending ⟨n, .statement body, m₁⟩ :=
    ⟨W.part hM.happens hpart, hstands, hat.next hgrows fun a S r =>
      ⟨_, _, _, .roundBody, Scoping.expression_grows a condition r⟩⟩
  have hend := (hearlier _ hpart pending hfits).of_ok hbody
  refine ⟨W.part hM.happens (.nextRound hcondition hv hbody), hend.1, ?_⟩
  exact hat.later (hgrows.of_none.trans (Eval.grows_of_statement hbody))

/-- A method of a superclass is good, and so is the `this` that it gets. -/
theorem Fits.superBind {ref : Ref} {method : Lexeme} {hops : Nat} {c : Class} {f : Function}
    (hM : W.Fits pending ⟨n, .expression (.super ref method), m⟩)
    (hhops : m.bindings.hops? ref.id = some hops)
    (hsuper : m.frames.nameAt? hops m.current "super" = some (.callable (.class c)))
    (hf : c.findMethod method.text = some f) :
    W.Fits pending ⟨n, .bind f (m.thisInside hops), m⟩ := by
  refine ⟨W.part hM.happens (.superBind hhops hsuper hf), hM.stands, ?_, ?_⟩
  · obtain ⟨g, -, hg⟩ := Frames.nameAt?_eq_some hsuper
    have hc : W.GoodClass m.frames pending c := hM.stands.values g _ _ hg
    exact hc _ f hf
  · change W.Good m.frames pending (m.thisInside hops)
    rcases m.thisInside_eq hops with hnil | ⟨k, hthis⟩
    · rw [hnil]
      exact trivial
    · obtain ⟨g, -, hg⟩ := Frames.nameAt?_eq_some hthis
      exact hM.stands.values g _ _ hg

theorem Fits.constructBind {c : Class} {arguments : List Value} {f : Function}
    (hM : W.Fits pending ⟨n + 1, .apply (.class c) arguments, m⟩) (hf : c.initializer? = some f) :
    W.Fits pending ⟨n, .bind f (.instance (m.nextInstance c)), m.withInstance⟩ := by
  have hc : W.GoodClass m.frames pending c := hM.suits.1
  exact ⟨W.part hM.happens (.constructBind hf), hM.stands.withInstance, hc _ f hf, hc⟩

/-- The initializer of a class takes as many arguments as the class does. -/
theorem Fits.constructCall {c : Class} {arguments : List Value} {f g : Function} {m₁ : Machine}
    (hM : W.Fits pending ⟨n + 1, .apply (.class c) arguments, m⟩)
    (hearlier : ∀ N, Part ⟨n + 1, .apply (.class c) arguments, m⟩ N → W.Preserves N)
    (hf : c.initializer? = some f)
    (hg : Eval.bindThis f (.instance (m.nextInstance c)) m.withInstance = .ok g m₁) :
    W.Fits pending ⟨n, .call g arguments, m₁⟩ := by
  obtain ⟨hstands, hgood, hroutine⟩ :=
    (hearlier _ (.constructBind hf) pending (hM.constructBind hf)).of_ok hg
  obtain ⟨-, harity, hvs⟩ := hM.suits
  have hgrows : m.Grows [] m₁ :=
    Machine.Grows.of_withInstance.trans (Eval.Ends.of_ok Eval.keeps_bindThis hg)
  refine ⟨W.part hM.happens (.constructCall hf hg), hstands, hgood, ?_, fun v hv => ?_⟩
  · have hcount : arguments.length = f.arity := by
      rw [harity]
      simp only [Callable.arity, Class.arity, hf]
    rw [hcount]
    unfold Function.arity
    rw [hroutine]
  · exact (hvs v hv).later hgrows

end Parts

/-! ## All parts -/

/-- **A part of a moment that fits, fits.** It is evaluated in the frames that were made for
the scopes in which it was visited. While an initializer is evaluated its variable is pending,
so that part is left to `Fits.initializer`. -/
theorem Fits.part {M N : Moment} (hM : W.Fits pending M) (h : Part M N)
    (hearlier : ∀ N', Part M N' → W.Preserves N') (hinit : ∀ f x, ¬ M.Initializes f x N) :
    W.Fits pending N := by
  have hN : W.happens N := W.part hM.happens h
  have hstands := hM.stands
  cases h with
  -- expressions
  | assignValue => exact ⟨hN, hstands, At.first hM.suits fun a S r => ⟨_, .assignValue⟩⟩
  | unaryOperand => exact ⟨hN, hstands, At.first hM.suits fun a S r => ⟨_, .unaryOperand⟩⟩
  | binaryLeft => exact ⟨hN, hstands, At.first hM.suits fun a S r => ⟨_, .binaryLeft⟩⟩
  | binaryRight hleft =>
    refine hM.second .binaryLeft hearlier hM.suits (fun a S r => ⟨_, .binaryLeft⟩) hleft hN id ?_
    exact fun a S r => ⟨a, _, _, .binaryRight, Scoping.expression_grows a _ r⟩
  | logicalLeft => exact ⟨hN, hstands, At.first hM.suits fun a S r => ⟨_, .logicalLeft⟩⟩
  | logicalRight hleft _ =>
    refine hM.second .logicalLeft hearlier hM.suits (fun a S r => ⟨_, .logicalLeft⟩) hleft hN id ?_
    exact fun a S r => ⟨a, _, _, .logicalRight, Scoping.expression_grows a _ r⟩
  | commaLeft => exact ⟨hN, hstands, At.first hM.suits fun a S r => ⟨_, .commaLeft⟩⟩
  | commaRight hleft =>
    refine hM.second .commaLeft hearlier hM.suits (fun a S r => ⟨_, .commaLeft⟩) hleft hN id ?_
    exact fun a S r => ⟨a, _, _, .commaRight, Scoping.expression_grows a _ r⟩
  | condition => exact ⟨hN, hstands, At.first hM.suits fun a S r => ⟨_, .condition⟩⟩
  | whenTrue hcondition _ =>
    refine hM.second .condition hearlier hM.suits (fun a S r => ⟨_, .condition⟩) hcondition hN id ?_
    exact fun a S r => ⟨a, _, _, .whenTrue, Scoping.expression_grows a _ r⟩
  | whenFalse hcondition _ =>
    refine hM.second .condition hearlier hM.suits (fun a S r => ⟨_, .condition⟩) hcondition hN id ?_
    exact fun a S r => ⟨a, _, _, .whenFalse,
      (Scoping.expression_grows a _ r).trans (Scoping.expression_grows a _ _)⟩
  | grouping => exact ⟨hN, hstands, At.first hM.suits fun a S r => ⟨_, .grouping⟩⟩
  | callee => exact ⟨hN, hstands, At.first hM.suits fun a S r => ⟨_, .callee⟩⟩
  | arguments hcallee =>
    refine hM.second .callee hearlier hM.suits (fun a S r => ⟨_, .callee⟩) hcallee hN id ?_
    exact fun a S r => ⟨a, _, _, .arguments, Scoping.expression_grows a _ r⟩
  | apply hcallee harguments harity hdepth =>
    exact hM.apply hearlier hcallee harguments harity hdepth
  | getObject => exact ⟨hN, hstands, At.first hM.suits fun a S r => ⟨_, .getObject⟩⟩
  | getBind hobject _ hf =>
    obtain ⟨hstands', hi, -⟩ := hM.evaluated .getObject hearlier rfl
      (At.first hM.suits fun a S r => ⟨_, .getObject⟩) hobject
    exact ⟨hN, hstands', hi _ _ hf, hi⟩
  | @setObject n m object property value =>
    have hsame : m.Grows [] m := .refl m
    exact ⟨hN, hstands, At.next hM.suits hsame fun a S r =>
      ⟨a, _, _, .setObject, Scoping.expression_grows a value r⟩⟩
  | @setValue n m m₁ object property value i hobject =>
    have hsame : m.Grows [] m := .refl m
    obtain ⟨hstands', -, hgrows⟩ := hM.evaluated .setObject hearlier rfl
      (At.next hM.suits hsame fun a S r =>
        ⟨a, _, _, .setObject, Scoping.expression_grows a value r⟩) hobject
    exact ⟨hN, hstands', At.next hM.suits hgrows fun a S r => ⟨a, r, [], .setValue, .refl r⟩⟩
  | superBind hhops hsuper hf => exact hM.superBind hhops hsuper hf
  | first => exact ⟨hN, hstands, At.first hM.suits fun a S r => ⟨_, .first⟩⟩
  | others hfirst =>
    refine hM.second .first hearlier hM.suits (fun a S r => ⟨_, .first⟩) hfirst hN id ?_
    exact fun a S r => ⟨a, _, _, .others, Scoping.expression_grows a _ r⟩
  -- statements
  | evaluated => exact ⟨hN, hstands, At.first hM.suits fun a S r => ⟨_, .evaluated⟩⟩
  | printed => exact ⟨hN, hstands, At.first hM.suits fun a S r => ⟨_, .printed⟩⟩
  | declared => exact ⟨hN, hstands, At.first hM.suits fun a S r => ⟨_, .declared⟩⟩
  | block => exact hM.block
  | choice => exact ⟨hN, hstands, At.first hM.suits fun a S r => ⟨_, .choice⟩⟩
  | chosen hcondition _ =>
    refine hM.second .choice hearlier hM.suits (fun a S r => ⟨_, .choice⟩) hcondition hN id ?_
    exact fun a S r => ⟨a, _, _, .chosen, Scoping.expression_grows a _ r⟩
  | @alternative n m m₁ condition whenTrue whenFalse v hcondition _ =>
    obtain ⟨hstands', -, hgrows⟩ := hM.evaluated .choice hearlier rfl
      (At.first hM.suits fun a S r => ⟨_, .choice⟩) hcondition
    -- the branch that is not run declares nothing
    have hat : W.At pending m (.statement (.ifElse condition whenTrue (some whenFalse))) := hM.suits
    have hnone : whenTrue.declares = [] := hat.wellFormed.2.1.2
    refine ⟨hN, hstands', hat.next hgrows fun a S r => ?_⟩
    have hwalk := Scoping.statement_grows a whenTrue (Scoping.expression a condition r)
    rw [hnone] at hwalk
    exact ⟨a, _, _, .alternative, (Scoping.expression_grows a condition r).trans hwalk⟩
  | loop => exact ⟨hN, hstands, hM.suits⟩
  | @returned n m keyword e =>
    have hsame : m.Grows [] m := .refl m
    exact ⟨hN, hstands, At.next hM.suits hsame fun a S r =>
      ⟨a, _, [], .returned, Scoping.Resolution.grows_checkReturn⟩⟩
  | head => exact ⟨hN, hstands, At.first hM.suits fun a S r => ⟨_, .head⟩⟩
  | tail hhead =>
    obtain ⟨hstands', hat⟩ := hM.remaining hM.suits .head (hearlier _ .head) hhead
    exact ⟨hN, hstands', hat⟩
  | initializer => exact absurd .intro (hinit _ _)
  | afterInitializer he => exact hM.afterInitializer he (hearlier _ .initializer)
  | afterName => exact hM.afterName
  | roundCondition => exact ⟨hN, hstands, At.first hM.suits fun a S r => ⟨_, .roundCondition⟩⟩
  | roundBody hcondition _ =>
    refine hM.second .roundCondition hearlier hM.suits (fun a S r => ⟨_, .roundCondition⟩) hcondition
      hN id ?_
    exact fun a S r => ⟨_, _, _, .roundBody, Scoping.expression_grows a _ r⟩
  | nextRound hcondition hv hbody => exact hM.nextRound hearlier hcondition hv hbody
  | topHead => exact ⟨hN, hstands, At.first hM.suits fun a S r => ⟨_, .head⟩⟩
  | topTail hhead =>
    obtain ⟨hstands', hat⟩ := hM.remaining hM.suits .topHead (hearlier _ .topHead) hhead
    exact ⟨hN, hstands', hat⟩
  -- calls
  | function => exact ⟨hN, hstands, hM.suits⟩
  | constructBind hf => exact hM.constructBind hf
  | constructCall hf hg => exact hM.constructCall hearlier hf hg
  | body => exact hM.body

/-! ## Look-ups -/

/-- A look-up happens where the phrase was visited, on a machine that came from there. -/
theorem Fits.lookup {N : Moment} {ref : Ref} (hN : W.Fits pending N) (h : N.LooksUp ref m) :
    ∃ P, W.placed P ∧ N.task.phrase? = some P.phrase ∧ P.Mentions ref ∧
      W.Lodged m.frames pending P.sites P.state.scopes m.current ∧ m.bindings = W.table := by
  have hbindings := hN.stands.bindings
  have hsuits := hN.suits
  cases h with
  | «variable» =>
    obtain ⟨⟨a, _, S, r⟩, hP, rfl, hlodged⟩ := hsuits
    exact ⟨_, hP, rfl, .variable, hlodged, hbindings⟩
  | assign hvalue =>
    obtain ⟨⟨a, _, S, r⟩, hP, rfl, hlodged⟩ := hsuits
    have hgrows := Eval.grows_of_expression hvalue
    exact ⟨_, hP, rfl, .assign, Lodged.later hlodged hgrows, hgrows.bindings.trans hbindings⟩
  | this =>
    obtain ⟨⟨a, _, S, r⟩, hP, rfl, hlodged⟩ := hsuits
    exact ⟨_, hP, rfl, .this, hlodged, hbindings⟩
  | super =>
    obtain ⟨⟨a, _, S, r⟩, hP, rfl, hlodged⟩ := hsuits
    exact ⟨_, hP, rfl, .super, hlodged, hbindings⟩
  | superclass =>
    obtain ⟨⟨a, _, S, r⟩, hP, rfl, hlodged⟩ := hsuits
    exact ⟨_, hP, rfl, .superclass, hlodged, hbindings⟩

end World

end ScriptLang
