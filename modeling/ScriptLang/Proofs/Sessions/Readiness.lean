import ScriptLang.Proofs.Evaluation.Order
import ScriptLang.Proofs.Realms.Referring
import ScriptLang.Proofs.Scoping.KnownGlobals
import ScriptLang.Proofs.Sessions.LocalNames
import ScriptLang.Proofs.Sessions.Numbers

/-!
# Known names and present globals

The walk over a program knows the names of globals in textual order, but a global variable gets its
value only when its declarator is done. So in the initializer of a global that nothing before makes
known (`Launch.Introduces`) the walk knows a name that the machine does not have yet, and a read of
this name in there may be let through as one of a global (`Place.LetsThrough`) and fail. This is the
only way in which such reads go wrong, and it is over when the initializer has come to its end.

A function gets into the machine only when everything in front of it in the program is done, and
globals are never lost. So the code on the machine at any time is such that its reads find their
variables or are excused (`Realm.provided`), and this is shown for one statement after another,
and one declarator after another: each of them knows no names but those that are there when it begins
(`Launch.Ready`) and those that it declares itself (`Launch.Settles`).
-/

namespace ScriptLang

open Scoping (Place Visits Phrase)
open Relation (ReflTransGen)

/-! ## Globals of machines -/

namespace Machine

variable {m m' : Machine} {x : String}

/-- There is a global variable of the name. -/
def HasGlobal (m : Machine) (x : String) : Prop := (m.frames.here? m.globals x).isSome

theorem mem_globalNames : x ∈ m.globalNames ↔ m.HasGlobal x := Frames.mem_names_iff

theorem Leads.hasGlobal (h : m.Leads m') (hx : m.HasGlobal x) : m'.HasGlobal x := by
  unfold HasGlobal
  rw [h.globals]
  exact h.frames.kept _ _ hx

theorem Grows.hasGlobal {xs : List String} (h : m.Grows xs m') (hx : m.HasGlobal x) :
    m'.HasGlobal x := (Leads.of_grows h).hasGlobal hx

theorem hasGlobal_of_here (hcurrent : m.current = m.globals)
    (hx : (m.frames.here? m.current x).isSome) : m.HasGlobal x := by
  rwa [hcurrent] at hx

end Machine

/-! ## Excuses -/

namespace Launch

/-- The moment is the start of the initializer of a global variable that nothing before makes known,
and the place is in this initializer. -/
inductive Introduces (l : Launch) (P : Place) (x : String) : Moment → Prop
  | intro {a n m name e rest r} (hplace : l.Places ⟨a, .declarators (⟨name, some e⟩ :: rest), [], r⟩)
    (hname : name.text = x) (hnew : x ∉ r.globals)
    (hinside : ReflTransGen Visits ⟨a, .expression e, [], r.declare name⟩ P)
    (hruns : l.Runs ⟨n, .declarators (⟨name, some e⟩ :: rest), m⟩) :
    Introduces l P x ⟨n, .expression e, m⟩

/-- In an earlier launch such an initializer was given up. -/
def GaveUp (L : List Launch) (l : Launch) (P : Place) (x : String) : Prop :=
  l ∈ L ∧ ∃ I stop m, l.Introduces P x I ∧ I.ending = .error stop m

/-- Around the moment of the launch such an initializer runs. -/
def RunsAround (l : Launch) (N : Moment) (l' : Launch) (P : Place) (x : String) : Prop :=
  l' = l ∧ ∃ I, l.Introduces P x I ∧ ReflTransGen Part I N

theorem GaveUp.append {L : List Launch} {l l' : Launch} {P : Place} {x : String}
    (h : GaveUp L l' P x) : GaveUp (L ++ [l]) l' P x := ⟨List.mem_append_left _ h.1, h.2⟩

end Launch

/-! ## Code that is provided for -/

/-- The reads with the number that were let through find their variable on the machine, or are
excused. -/
structure Provided (L : List Launch) (m : Machine) (excuse : Launch → Place → String → Prop)
    (id : Nat) : Prop where
  launched : ∃ l ∈ L, id ∈ l.program.ids
  found : ∀ l ∈ L, ∀ P ref, l.Places P → P.LetsThrough ref → ref.id = id →
    m.HasGlobal ref.word.text ∨ excuse l P ref.word.text

/-- Everything, and the code that is provided for on the machine. -/
def Realm.provided (L : List Launch) (m : Machine) (excuse : Launch → Place → String → Prop) :
    Realm := .referring (Provided L m excuse)

section Provided

variable {L : List Launch} {m m' m₁ : Machine} {excuse excuse' : Launch → Place → String → Prop}

/-- With more globals and other excuses. -/
theorem Realm.Closed.provided (h : (Realm.provided L m excuse).Closed m₁)
    (hm : ∀ x, m.HasGlobal x → m'.HasGlobal x)
    (hexcuse : ∀ l P x, excuse l P x → m'.HasGlobal x ∨ excuse' l P x) :
    (Realm.provided L m' excuse').Closed m₁ := by
  refine h.mono (Realm.referring_le fun id hid => ⟨hid.launched, fun l hl P ref hP hthrough heq => ?_⟩)
  rcases hid.found l hl P ref hP hthrough heq with hx | hx
  · exact .inl (hm _ hx)
  · exact hexcuse l P _ hx

/-- A read that was let through, in the course of a moment whose code is provided for. -/
theorem Realm.Fits.finds {M : Moment} (hM : (Realm.provided L m excuse).Fits M)
    (hm : M.machine = m) {n : Nat} {ref : Ref}
    (hpath : ReflTransGen Part M ⟨n, .expression (.variable ref), m₁⟩) {l : Launch} (hl : l ∈ L)
    {P : Place} (hP : l.Places P) (hthrough : P.LetsThrough ref) :
    m₁.HasGlobal ref.word.text ∨ excuse l P ref.word.text := by
  have hread := (hM.path hpath).code _ rfl ref.id (List.mem_singleton_self _)
  refine (hread.found l hl P ref hP hthrough rfl).imp_left fun hx => ?_
  rw [← hm] at hx
  exact (Part.leads_path hpath).hasGlobal hx

end Provided

/-! ## Readiness -/

namespace Launch

variable {L : List Launch} {l : Launch} {s : Session} {m m' : Machine} {r r' : Scoping.Resolution}

/-- Between runs, all code on the machine is provided for, or excused by the runs. -/
def Settled (L : List Launch) (m : Machine) : Prop := (Realm.provided L m (GaveUp L)).Closed m

/-- Between two statements of the program: all code is provided for, and the names that the walk
knows are there. -/
structure Ready (L : List Launch) (l : Launch) (m : Machine) (r : Scoping.Resolution) : Prop where
  closed : (Realm.provided (L ++ [l]) m (GaveUp L)).Closed m
  known : ∀ x ∈ r.globals, m.HasGlobal x
  outside : r.scopes = []
  current : m.current = m.globals

theorem Ready.current_lt (h : l.Ready L m r) : m.current < m.frames.count := by
  rw [h.current]
  exact h.closed.globals_lt

theorem Ready.settled (h : l.Ready L m r) : Settled (L ++ [l]) m :=
  h.closed.provided (fun _ hx => hx) fun _ _ _ hx => .inr hx.append

/-- Some names were declared, and they are there. -/
theorem Ready.after (h : l.Ready L m r) {ids : List Nat} {names xs : List String}
    (hr : Scoping.Resolution.Grows ids names r r') (hm : m.Grows xs m')
    (hnames : ∀ x ∈ names, m'.HasGlobal x)
    (hclosed : (Realm.provided (L ++ [l]) m' (GaveUp L)).Closed m') : l.Ready L m' r' where
  closed := hclosed
  known x hx := by
    rcases (hr.globals x).mp hx with hx | ⟨-, hx⟩
    · exact hm.hasGlobal (h.known x hx)
    · exact hnames x hx
  outside := hr.scopes.nil_iff.mpr h.outside
  current := by rw [hm.current, hm.globals, h.current]

/-- In the course of the moment, reads that were let through find their variables, unless they are
excused. -/
def FindsGlobals (L : List Launch) (l : Launch) (M : Moment) : Prop :=
  ∀ n ref m, ReflTransGen Part M ⟨n, .expression (.variable ref), m⟩ →
    ∀ l' ∈ L ++ [l], ∀ P, l'.Places P → P.LetsThrough ref → m.HasGlobal ref.word.text ∨
      GaveUp L l' P ref.word.text ∨
      l.RunsAround ⟨n, .expression (.variable ref), m⟩ l' P ref.word.text

theorem FindsGlobals.of_parts {M : Moment} (hM : ∀ ref, M.task ≠ .expression (.variable ref))
    (h : ∀ N, Part M N → l.FindsGlobals L N) : l.FindsGlobals L M := by
  intro n ref m hpath
  rcases hpath.cases_head with rfl | ⟨N, hN, hpath⟩
  · exact absurd rfl (hM ref)
  · exact h N hN n ref m hpath

/-- What comes of a piece of the program outside all scopes: reads that were let through find their
variables unless they are excused, and afterwards the next piece can come. -/
structure Settles (L : List Launch) (l : Launch) (M : Moment) (after : Scoping.Resolution) :
    Prop where
  finds : l.FindsGlobals L M
  ends : Eval.Ends (M.task.perform M.fuel) M.machine (fun _ m' => l.Ready L m' after)
    fun _ m' => Settled (L ++ [l]) m'

section Steps

variable (hs : s.Bound L) (hl : l.Follows s)

include hs hl

/-- Reads of the program are provided for if they are at the places where they stand. -/
theorem Places.provided {Q : Place} (hQ : l.Places Q) {excuse : Launch → Place → String → Prop}
    (h : ∀ P ref, P.LetsThrough ref → ReflTransGen Visits Q P →
      m.HasGlobal ref.word.text ∨ excuse l P ref.word.text) :
    ∀ id ∈ Q.phrase.ids, Provided (L ++ [l]) m excuse id := by
  intro id hid
  refine ⟨⟨l, by simp, hQ.mem_ids hid⟩, fun l' hl' P ref hP hthrough heq => ?_⟩
  subst heq
  rcases List.mem_append.mp hl' with hl' | hl'
  · have hspent := hs.spent l' hl' _ (hP.mem_ids hthrough.mem_ids)
    exact absurd (hl.fresh _ (hQ.mem_ids hid)) (Nat.not_le_of_lt hspent)
  · obtain rfl := List.mem_singleton.mp hl'
    obtain ⟨root, hroot, hpath⟩ := hQ
    obtain ⟨root', hroot', hpath'⟩ := hP
    have hmem := hthrough.mem_ids
    cases hroot.eq hl hroot' (Visits.path_ids hpath hid) (Visits.path_ids hpath' hmem)
    rcases Visits.comparable hpath hpath' (hroot.sound hl.proper hl.accepted) hid hmem with
      hinside | houtside
    · exact h P ref hthrough hinside
    · obtain rfl := hthrough.eq_of_path houtside
      exact h _ ref hthrough .refl

/-- The code at a place is provided for if its reads are. -/
theorem Ready.fits (h : l.Ready L m r) {Q : Place} (hQ : l.Places Q) {n : Nat} {task : Task}
    (hcode : task.code? = some Q.phrase) {excuse : Launch → Place → String → Prop}
    (hexcuse : ∀ l' P x, GaveUp L l' P x → excuse l' P x)
    (hreads : ∀ P ref, P.LetsThrough ref → ReflTransGen Visits Q P →
      m.HasGlobal ref.word.text ∨ excuse l P ref.word.text) :
    (Realm.provided (L ++ [l]) m excuse).Fits ⟨n, task, m⟩ := by
  refine ⟨h.closed.provided (fun _ hx => hx) fun l' P x hx => .inr (hexcuse l' P x hx),
    ⟨trivial, h.current_lt⟩, fun t ht => ?_, ?_⟩
  · cases hcode.symm.trans ht
    exact hQ.provided hs hl hreads
  · cases task <;> first | exact trivial | cases hcode

omit hs hl in
/-- A statement that declares functions or classes runs no code, and if it fails nothing has
happened. -/
theorem quiet_of_declares {st : Stmt} (hwf : st.WellFormed) (hvars : ∀ ds, st ≠ .vars ds)
    (hdeclares : st.declares ≠ []) (n : Nat) (m : Machine) :
    (∀ N, ¬ Part ⟨n, .statement st, m⟩ N) ∧
      ∀ stop m', Moment.ending ⟨n, .statement st, m⟩ = .error stop m' → m' = m := by
  cases st with
  | vars ds => exact absurd rfl (hvars ds)
  | function name routine =>
    refine ⟨fun N hN => ?_, fun stop m' hstop => ?_⟩
    · cases hN
    · cases hstop
  | «class» name superclass members =>
    refine ⟨fun N hN => ?_, fun stop m' hstop => ?_⟩
    · cases hN
    · have hclass : Eval.Ends (Eval.declareClass name superclass members) m
          (fun _ _ => True) fun _ m' => m' = m :=
        Eval.ends_declareClass (fun _ _ _ _ _ _ => trivial) fun _ => rfl
      have hends : Eval.Ends (Eval.statement (.ofFuel n) (.class name superclass members)) m
          (fun _ _ => True) fun _ m' => m' = m := by
        rw [Eval.statement]
        exact Eval.ends_bind hclass fun _ _ _ _ => trivial
      exact hends.of_error hstop
  | ifElse condition whenTrue whenFalse =>
    cases whenFalse with
    | none => exact absurd hwf.2.2 hdeclares
    | some whenFalse =>
      refine absurd ?_ hdeclares
      rw [Stmt.declares, hwf.2.1.2, hwf.2.2.2]
      rfl
  | whileLoop condition body => exact absurd hwf.2.2 hdeclares
  | _ => exact absurd rfl hdeclares

/-- A statement that declares no variables. -/
theorem settles_other (h : l.Ready L m r) {a : Scoping.Surroundings} {st : Stmt}
    (hQ : l.Places ⟨a, .statement st, [], r⟩) (hvars : ∀ ds, st ≠ .vars ds) (n : Nat) :
    l.Settles L ⟨n, .statement st, m⟩ (Scoping.statement a st r) := by
  have hwf : st.WellFormed := (hQ.sound_of_follows hl).wellFormed
  have hquiet := quiet_of_declares hwf hvars
  -- reads of what is declared by the statement itself are excused while it runs
  have hfits : (Realm.provided (L ++ [l]) m fun l' P x => GaveUp L l' P x ∨ x ∈ st.declares).Fits
      ⟨n, .statement st, m⟩ := by
    refine h.fits hs hl hQ rfl (fun _ _ _ hx => .inl hx) fun P ref hthrough hpath => ?_
    rcases Visits.path_knows hpath (.inl hthrough.known) with hx | ⟨-, hx⟩
    · exact .inl (h.known _ hx)
    · exact .inr (.inr hx)
  have hpreserved := Realm.preserves _ _ hfits
  refine ⟨fun k ref m₁ hpath l' hl' P hP hthrough => ?_,
    Eval.ends_of (fun flow m' hend => ?_) fun stop m' hend => ?_⟩
  · rcases hfits.finds rfl hpath hl' hP hthrough with hx | hx | hx
    · exact .inl hx
    · exact .inr (.inl hx)
    · rcases hpath.cases_head with heq | ⟨N, hN, -⟩
      · cases heq
      · exact absurd hN ((hquiet (List.ne_nil_of_mem hx) n m).1 N)
  · have hgrows := Eval.grows_of_statement hend
    have hdefines : ∀ x ∈ st.declares, m'.HasGlobal x := fun x hx =>
      Machine.hasGlobal_of_here (by rw [hgrows.current, hgrows.globals, h.current])
        (Eval.defines_statement hwf hend h.current_lt x hx)
    refine h.after (Scoping.statement_grows a st r) hgrows hdefines ?_
    refine (hpreserved.of_ok hend).1.provided (fun _ hx => hgrows.hasGlobal hx) fun l' P x hx => ?_
    exact hx.elim .inr fun hx => .inl (hdefines x hx)
  · by_cases hdeclares : st.declares = []
    · have hgrows := Eval.Ends.of_error (Moment.keeps ⟨n, .statement st, m⟩) hend
      refine (hpreserved.of_error hend).provided (fun _ hx => hgrows.hasGlobal hx) fun l' P x hx => ?_
      rw [hdeclares] at hx
      exact .inr (hx.resolve_right List.not_mem_nil).append
    · obtain rfl := (hquiet hdeclares n m).2 stop m' hend
      exact h.settled

/-- The trailing expression. -/
theorem settles_expression (h : l.Ready L m r) {a : Scoping.Surroundings} {e : Expr}
    (hQ : l.Places ⟨a, .expression e, [], r⟩) (n : Nat) :
    l.Settles L ⟨n, .expression e, m⟩ r := by
  have hfits : (Realm.provided (L ++ [l]) m (GaveUp L)).Fits ⟨n, .expression e, m⟩ := by
    refine h.fits hs hl hQ rfl (fun _ _ _ hx => hx) fun P ref hthrough hpath => ?_
    rcases Visits.path_knows hpath (.inl hthrough.known) with hx | ⟨-, hx⟩
    · exact .inl (h.known _ hx)
    · cases hx
  have hpreserved := Realm.preserves _ _ hfits
  refine ⟨fun k ref m₁ hpath l' hl' P hP hthrough => ?_,
    Eval.ends_of (fun v m' hend => ?_) fun stop m' hend => ?_⟩
  · exact (hfits.finds rfl hpath hl' hP hthrough).imp_right .inl
  · have hgrows := Eval.grows_of_expression hend
    have hsame : Scoping.Resolution.Grows [] [] r r := .refl r
    exact h.after hsame hgrows (by simp) <|
      (hpreserved.of_ok hend).1.provided (fun _ hx => hgrows.hasGlobal hx) fun _ _ _ hx => .inr hx
  · have hgrows := Eval.Ends.of_error (Moment.keeps ⟨n, .expression e, m⟩) hend
    exact (hpreserved.of_error hend).provided (fun _ hx => hgrows.hasGlobal hx) fun _ _ _ hx =>
      .inr hx.append

/-! ## Declarators -/

omit hs hl in
/-- A name outside all scopes gets its value. -/
theorem Ready.defining (h : l.Ready L m r) {m₁ : Machine} (hm : m.Grows [] m₁) {ids : List Nat}
    {name : Lexeme} (hr : Scoping.Resolution.Grows ids [name.text] r r')
    {excuse : Launch → Place → String → Prop}
    (hclosed : (Realm.provided (L ++ [l]) m excuse).Closed m₁)
    (hexcuse : ∀ l' P x, excuse l' P x → GaveUp L l' P x ∨ x = name.text) {v : Value}
    (hv : (Realm.provided (L ++ [l]) m excuse).Has m₁ v) :
    l.Ready L (m₁.defining name.text v) r' := by
  have hdefining : m₁.Grows [name.text] (m₁.defining name.text v) :=
    .of_defining v List.mem_cons_self
  have hgrows : m.Grows [name.text] (m₁.defining name.text v) := hm.of_none.trans hdefining
  have hglobal : (m₁.defining name.text v).HasGlobal name.text := by
    refine Machine.hasGlobal_of_here (hm.current.trans (h.current.trans hm.globals.symm)) ?_
    refine Eval.isSome_defining ?_ name.text v
    rw [hm.current]
    exact Nat.lt_of_lt_of_le h.current_lt hm.frames.count
  refine h.after hr hgrows (fun x hx => List.mem_singleton.mp hx ▸ hglobal) ?_
  refine (hclosed.defining name.text hv).provided
    (fun _ hx => hgrows.hasGlobal hx) fun l' P x hx => ?_
  rcases hexcuse l' P x hx with hx | rfl
  · exact .inr hx
  · exact .inl hglobal

section Initializer

variable {a : Scoping.Surroundings} {name : Lexeme} {e : Expr} {rest : List Declarator} {n : Nat}

/-- In the initializer of a global, its name is known already. -/
theorem Ready.fits_initializer (h : l.Ready L m r)
    (hQ : l.Places ⟨a, .declarators (⟨name, some e⟩ :: rest), [], r⟩)
    (hN : l.Runs ⟨n, .declarators (⟨name, some e⟩ :: rest), m⟩) :
    (Realm.provided (L ++ [l]) m fun l' P x => GaveUp L l' P x ∨
      (x = name.text ∧ l' = l ∧ l.Introduces P x ⟨n, .expression e, m⟩)).Fits
        ⟨n, .expression e, m⟩ := by
  refine h.fits hs hl (hQ.visits .initializer) rfl (fun _ _ _ hx => .inl hx)
    fun P ref hthrough hpath => ?_
  have hdeclare : Scoping.Resolution.Grows [] [name.text] r (r.declare name) :=
    Scoping.Resolution.grows_declare name
  by_cases hold : ref.word.text ∈ r.globals
  · exact .inl (h.known _ hold)
  · have hname : ref.word.text = name.text := by
      rcases Visits.path_knows hpath (.inl hthrough.known) with hx | ⟨-, hx⟩
      · exact List.mem_singleton.mp (((hdeclare.globals _).mp hx).resolve_left hold).2
      · cases hx
    exact .inr (.inr ⟨hname, rfl, .intro hQ hname.symm hold hpath hN⟩)

/-- The initializer of a global, after which the global is there. -/
theorem settles_initializer (h : l.Ready L m r)
    (hQ : l.Places ⟨a, .declarators (⟨name, some e⟩ :: rest), [], r⟩)
    (hN : l.Runs ⟨n, .declarators (⟨name, some e⟩ :: rest), m⟩) :
    l.FindsGlobals L ⟨n, .expression e, m⟩ ∧
      Eval.Ends (Eval.expression (.ofFuel n) e) m
        (fun v m₁ => l.Ready L (m₁.defining name.text v)
          ((Scoping.expression a e (r.declare name)).define name))
        fun _ m₁ => Settled (L ++ [l]) m₁ := by
  have hfits := h.fits_initializer hs hl hQ hN
  refine ⟨fun k ref m₁ hpath l' hl' P hP hthrough => ?_,
    Eval.ends_of (fun v m₁ he => ?_) fun stop m₁ he => ?_⟩
  · refine (hfits.finds rfl hpath hl' hP hthrough).imp_right (.imp_right ?_)
    rintro ⟨-, heq, hnew⟩
    exact ⟨heq, _, hnew, hpath⟩
  · obtain ⟨hclosed, -, hv, -⟩ := hfits.after (Realm.preserves _ _) he
    have hknown := ((Scoping.Resolution.grows_declare (r := r) name).andThen
      (Scoping.expression_grows a e _)).andThen (Scoping.Resolution.grows_define name)
    exact h.defining (Eval.grows_of_expression he) hknown hclosed
      (fun _ _ _ hx => hx.imp_right And.left) hv
  · have hgrows := Eval.Ends.of_error (Moment.keeps ⟨n, .expression e, m⟩) he
    refine ((Realm.preserves _ _ hfits).of_error he).provided (fun _ hx => hgrows.hasGlobal hx)
      fun l' P x hx => .inr ?_
    rcases hx with hx | ⟨-, rfl, hnew⟩
    · exact hx.append
    · exact ⟨by simp, _, stop, m₁, hnew, he⟩

end Initializer

theorem settles_declarators {a : Scoping.Surroundings} {ds : List Declarator} {n : Nat}
    (h : l.Ready L m r) (hQ : l.Places ⟨a, .declarators ds, [], r⟩)
    (hN : l.Runs ⟨n, .declarators ds, m⟩) :
    l.Settles L ⟨n, .declarators ds, m⟩ (Scoping.declarators a ds r) := by
  induction ds generalizing m r with
  | nil => exact ⟨.of_parts (by rintro _ ⟨⟩) (fun _ hN => by cases hN), h⟩
  | cons d rest ih =>
    obtain ⟨name, initializer⟩ := d
    cases initializer with
    | none =>
      have hknown : Scoping.Resolution.Grows [] [name.text] r ((r.declare name).define name) :=
        Scoping.Resolution.grows_declareDefine name
      have hready : l.Ready L (m.defining name.text .nil) ((r.declare name).define name) :=
        h.defining (.refl m) hknown h.closed (fun _ _ _ hx => .inl hx) trivial
      have hrest := ih hready (hQ.visits .afterName) (hN.part .afterName)
      refine ⟨.of_parts (by rintro _ ⟨⟩) fun _ hN => ?_, ?_⟩
      · cases hN
        exact hrest.finds
      · dsimp only [Task.perform]
        rw [Eval.declarators]
        exact Eval.ends_bind_of_ok rfl hrest.ends
    | some e =>
      obtain ⟨hfinds, hends⟩ := settles_initializer hs hl h hQ hN
      have hrest {v m₁} (he : Eval.expression (.ofFuel n) e m = .ok v m₁) :=
        ih (hends.of_ok he) (hQ.visits .afterInitializer) (hN.part (.afterInitializer he))
      refine ⟨.of_parts (by rintro _ ⟨⟩) fun _ hN => ?_, ?_⟩
      · cases hN with
        | initializer => exact hfinds
        | afterInitializer he => exact (hrest he).finds
      · dsimp only [Task.perform]
        rw [Eval.declarators]
        exact Eval.ends_bind hends fun v m₁ he _ => (hrest he).ends

/-! ## Statements -/

/-- A statement outside all scopes. -/
theorem settles_statement (h : l.Ready L m r) {a : Scoping.Surroundings} {st : Stmt} {n : Nat}
    (hQ : l.Places ⟨a, .statement st, [], r⟩) (hN : l.Runs ⟨n, .statement st, m⟩) :
    l.Settles L ⟨n, .statement st, m⟩ (Scoping.statement a st r) := by
  cases st with
  | vars ds =>
    have hds := settles_declarators hs hl h (hQ.visits .declared) (hN.part .declared)
    refine ⟨.of_parts (by rintro _ ⟨⟩) fun _ hN => ?_, ?_⟩
    · cases hN
      exact hds.finds
    · dsimp only [Task.perform]
      rw [Eval.statement]
      exact Eval.ends_bind hds.ends fun _ _ _ h => h
  | _ => exact settles_other hs hl h hQ (by rintro _ ⟨⟩) n

/-- The statements of the program. -/
theorem settles_topLevel {body : List Stmt} {n : Nat} (h : l.Ready L m r)
    (hQ : l.Places ⟨{}, .statements body, [], r⟩) (hN : l.Runs ⟨n, .topLevel body, m⟩) :
    l.Settles L ⟨n, .topLevel body, m⟩ (Scoping.statements {} body r) := by
  induction body generalizing m r with
  | nil => exact ⟨.of_parts (by rintro _ ⟨⟩) (fun _ hN => by cases hN), h⟩
  | cons st rest ih =>
    have hhead := settles_statement hs hl h (hQ.visits .head) (hN.part .topHead)
    have hrest {flow m₁} (hend : Eval.statement (.ofFuel n) st m = .ok flow m₁) :=
      ih (hhead.ends.of_ok hend) (hQ.visits .tail) (hN.part (.topTail hend))
    refine ⟨.of_parts (by rintro _ ⟨⟩) fun _ hN => ?_, ?_⟩
    · cases hN with
      | topHead => exact hhead.finds
      | topTail hend => exact (hrest hend).finds
    · dsimp only [Task.perform]
      rw [Eval.topLevel]
      exact Eval.ends_bind hhead.ends fun flow m₁ hend _ => (hrest hend).ends

end Steps

end Launch

end ScriptLang
