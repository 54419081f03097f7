import Mathlib
import ScriptLang.Frames.Text
import ScriptLang.Proofs.Realms.Runs
import ScriptLang.Proofs.Sessions.History

/-!
# The frames form a tree

The frames of a session are a tree with the global one at its root, whatever was run and however
the runs ended, and also at every moment of a run. Links between frames never change, and each
leads to a frame that was made earlier, so following them ends, and it ends at the global frame.
The same holds for classes and their superclasses. `Machine.Orderly` says all this of one machine,
and `frames_form_tree` says it of every session.

What frames hold may refer to frames in circles. So what is kept by every step is that the whole
machine is a closed realm (`Realm.all`): the order of frames is part of that, and so is that every
closure is a frame that was made, around which the next frame can be put.
-/

namespace ScriptLang

open Relation (ReflTransGen)

/-! ## Superclasses -/

/-- A class and the classes above it. -/
def Class.line : Class → List Class
  | ⟨id, name, none, methods⟩ => [⟨id, name, none, methods⟩]
  | ⟨id, name, some superclass, methods⟩ => ⟨id, name, some superclass, methods⟩ :: superclass.line

/-- The search for a method ends in the first class that has one. -/
theorem Class.findMethod_eq_findSome? (method : String) : ∀ c : Class,
    c.findMethod method = c.line.findSome? (·.methods.get? method)
  | ⟨id, name, none, methods⟩ => by
    rw [findMethod, line, List.findSome?_cons]
    cases methods.get? method <;> rfl
  | ⟨id, name, some superclass, methods⟩ => by
    rw [findMethod, line, List.findSome?_cons]
    cases methods.get? method with
    | none => exact superclass.findMethod_eq_findSome? method
    | some f => rfl

/-- Every class above a class in a realm has a smaller number than it. -/
theorem Realm.HasClass.line {R : Realm} {m : Machine} : ∀ {c : Class}, R.HasClass m c →
    (∀ d ∈ c.line, d.id ≤ c.id) ∧ c.line.Pairwise fun c d => d.id < c.id
  | ⟨id, name, none, methods⟩, _ => by
    rw [Class.line]
    exact ⟨fun d hd => by cases List.mem_singleton.mp hd; exact Nat.le_refl _,
      List.pairwise_singleton ..⟩
  | ⟨id, name, some superclass, methods⟩, h => by
    obtain ⟨hle, hpairwise⟩ := HasClass.line h.2.2.2
    have hlt : superclass.id < id := h.2.2.1
    rw [Class.line]
    refine ⟨fun d hd => ?_, List.pairwise_cons.mpr ⟨fun d hd => ?_, hpairwise⟩⟩
    · rcases List.mem_cons.mp hd with rfl | hd
      · exact Nat.le_refl _
      · exact Nat.le_of_lt (Nat.lt_of_le_of_lt (hle d hd) hlt)
    · exact Nat.lt_of_le_of_lt (hle d hd) hlt

/-! ## Order on a machine -/

/-- The frames are a tree with the global one at its root, and so are the classes in their
order. -/
structure Machine.Orderly (m : Machine) : Prop where
  /-- There is a global frame, and no frame around it. -/
  globals : m.globals < m.frames.count ∧ m.frames.outward? m.globals = none
  /-- Around every other frame is one that was made earlier. -/
  earlier : ∀ f, f < m.frames.count → f ≠ m.globals → ∃ g, g < f ∧ m.frames.outward? f = some g
  /-- Every way outward ends, and it ends at the global frame. -/
  ends : ∀ f, f < m.frames.count → ∃ n, n ≤ f ∧ m.frames.ancestor? n f = some m.globals ∧
    ∀ k, n < k → m.frames.ancestor? k f = none
  /-- The current frame is one of the frames. -/
  current : m.current < m.frames.count
  /-- So is the closure of every function, be it a value of its own or a method. -/
  closures : ∀ f g, f < m.frames.count →
    m.Reaches (.frame f) (.value (.callable (.function g))) → g.closure < m.frames.count
  /-- The classes above a class were made before it, each before the one below. -/
  classes : ∀ f c, f < m.frames.count → m.Reaches (.frame f) (.value (.callable (.class c))) →
    c.line.Pairwise fun c d => d.id < c.id
  /-- The outermost frame is found within as many steps as there are frames up to a frame. -/
  root : ∀ f fuel, f < m.frames.count → f < fuel → m.frames.rootFrom fuel f = m.globals
  /-- So is a name, wherever it is. -/
  lookup : ∀ f fuel name, f < m.frames.count → f < fuel →
    m.frames.lookupFrom name fuel f = m.frames.lookup? f name
  /-- The description of a frame is complete within as many steps. -/
  describe : ∀ f fuel, f < m.frames.count → f ≤ fuel →
    m.frames.describeFrom fuel f = m.frames.describe f
  /-- A global variable is the same from every frame. -/
  global : ∀ f word, f < m.frames.count →
    m.frames.getGlobal f word = m.frames.getGlobal m.globals word ∧
    ∀ v, m.frames.assignGlobal f word v = m.frames.assignGlobal m.globals word v

namespace Realm

variable {R : Realm} {m : Machine}

theorem Closed.ends (h : R.Closed m) {f : FrameId} (hf : f < m.frames.count) :
    ∃ n, n ≤ f ∧ m.frames.ancestor? n f = some m.globals ∧
      ∀ k, n < k → m.frames.ancestor? k f = none := by
  induction f using Nat.strong_induction_on with
  | _ f ih =>
    rcases h.tree f hf with ⟨rfl, hnone⟩ | ⟨g, hg, hsome⟩
    · refine ⟨0, Nat.zero_le _, rfl, fun k hk => ?_⟩
      obtain ⟨k, rfl⟩ := Nat.exists_eq_succ_of_ne_zero (Nat.ne_zero_of_lt hk)
      rw [Frames.ancestor?, hnone]
    · obtain ⟨n, hn, hglobals, hend⟩ := ih g hg (Nat.lt_trans hg hf)
      refine ⟨n + 1, Nat.lt_of_le_of_lt hn hg, ?_, fun k hk => ?_⟩
      · rw [Frames.ancestor?, hsome]
        exact hglobals
      · obtain ⟨k, rfl⟩ := Nat.exists_eq_succ_of_ne_zero (Nat.ne_zero_of_lt hk)
        rw [Frames.ancestor?, hsome]
        exact hend k (Nat.lt_of_succ_lt_succ hk)

/-- With a step for each frame up to a frame, more steps find nothing else. -/
theorem Closed.lookupFrom_eq (h : R.Closed m) (name : String) {n k : Nat} {f : FrameId}
    (hf : f < m.frames.count) (hn : f < n) (hk : f < k) :
    m.frames.lookupFrom name n f = m.frames.lookupFrom name k f := by
  induction n generalizing k f with
  | zero => exact absurd hn (Nat.not_lt_zero f)
  | succ n ih =>
    obtain ⟨k, rfl⟩ := Nat.exists_eq_succ_of_ne_zero (Nat.ne_zero_of_lt hk)
    rw [Frames.lookupFrom, Frames.lookupFrom]
    rcases h.tree f hf with ⟨-, hnone⟩ | ⟨g, hg, hsome⟩
    · rw [hnone]
    · rw [hsome]
      have hrest := ih (Nat.lt_trans hg hf) (Nat.lt_of_lt_of_le hg (Nat.le_of_lt_succ hn))
        (Nat.lt_of_lt_of_le hg (Nat.le_of_lt_succ hk))
      dsimp only
      rw [hrest]

/-- A frame around which there is none is described without further steps. -/
theorem describeFrom_of_none {fs : Frames} {f : FrameId} (h : fs.outward? f = none) (n : Nat) :
    fs.describeFrom n f = fs.describeFrom 0 f := by
  cases n <;> simp [Frames.describeFrom, h]

/-- The description of a frame contains that of the frame around it. -/
theorem describeFrom_of_some {fs : Frames} {f g : FrameId} (h : fs.outward? f = some g) :
    ∃ around : String → String, ∀ n, fs.describeFrom (n + 1) f = around (fs.describeFrom n g) := by
  refine ⟨fun inner => "Environment \x7b names: " ++
    Frames.describeNames (sortNames (fs.names f)) ++ ", enclosing: " ++
    ("Some(" ++ inner ++ ")") ++ " \x7d", fun n => ?_⟩
  simp [Frames.describeFrom, h]

theorem Closed.describeFrom_eq (h : R.Closed m) {n k : Nat} {f : FrameId}
    (hf : f < m.frames.count) (hn : f ≤ n) (hk : f ≤ k) :
    m.frames.describeFrom n f = m.frames.describeFrom k f := by
  induction f using Nat.strong_induction_on generalizing n k with
  | _ f ih =>
    rcases h.tree f hf with ⟨-, hnone⟩ | ⟨g, hg, hsome⟩
    · rw [describeFrom_of_none hnone n, describeFrom_of_none hnone k]
    · have hgn := Nat.lt_of_lt_of_le hg hn
      have hgk := Nat.lt_of_lt_of_le hg hk
      obtain ⟨n, rfl⟩ := Nat.exists_eq_succ_of_ne_zero (Nat.ne_zero_of_lt hgn)
      obtain ⟨k, rfl⟩ := Nat.exists_eq_succ_of_ne_zero (Nat.ne_zero_of_lt hgk)
      obtain ⟨around, haround⟩ := describeFrom_of_some hsome
      rw [haround, haround, ih g hg (Nat.lt_trans hg hf) (Nat.le_of_lt_succ hgn)
        (Nat.le_of_lt_succ hgk)]

/-- A machine that is a closed realm is in order. -/
theorem Closed.orderly (h : Realm.all.Closed m) (hcurrent : m.current < m.frames.count) :
    m.Orderly where
  globals := ⟨h.globals_lt, h.outward_globals⟩
  earlier f hf hne := by
    rcases h.tree f hf with ⟨heq, -⟩ | hearlier
    · exact absurd heq hne
    · exact hearlier
  ends f hf := h.ends hf
  current := hcurrent
  closures f g hf hreaches := by
    have hg : Realm.all.HasFunction m g := h.reaches (t := .frame f) ⟨trivial, hf⟩ hreaches
    exact hg.closure_lt
  classes f c hf hreaches := by
    have hc : Realm.all.HasClass m c := h.reaches (t := .frame f) ⟨trivial, hf⟩ hreaches
    exact hc.line.2
  root f fuel hf hfuel := h.rootFrom_eq hf hfuel
  lookup f fuel name hf hfuel := h.lookupFrom_eq name hf hfuel hf
  describe f fuel hf hfuel := h.describeFrom_eq hf hfuel (Nat.le_of_lt hf)
  global f word hf := by
    have hroot : m.frames.root f = m.frames.root m.globals :=
      (h.root_eq hf).trans (h.root_eq h.globals_lt).symm
    unfold Frames.getGlobal Frames.assignGlobal
    rw [hroot]
    exact ⟨rfl, fun _ => rfl⟩

/-- A new machine is closed in any realm, as it has only native functions. -/
theorem closed_start {R : Realm} (hframe : ∀ f, R.frame f) (hobject : ∀ k, R.object k)
    (maxDepth : Nat) (clock : Nat → Float) : R.Closed (.start maxDepth clock) := by
  have hframes : (Machine.start maxDepth clock).frames =
      (Frames.empty.push none).define 0 "clock" (.callable (.native .clock)) := rfl
  have hcount : (Machine.start maxDepth clock).frames.count = 1 := rfl
  refine ⟨hframe _, Nat.zero_lt_one, fun f hf => .inl ?_, fun _ g _ _ => hframe g,
    fun f x v _ hv => ?_, fun i slots _ hi => ?_, fun f _ => hframe f, fun k _ => hobject k⟩
  · rw [hcount] at hf
    obtain rfl : f = 0 := Nat.lt_one_iff.mp hf
    refine ⟨rfl, ?_⟩
    rw [hframes, Frames.outward?_define]
    exact Frames.outward?_push_self ..
  · obtain ⟨-, rfl⟩ := Session.here?_start hv
    exact trivial
  · have hnone : (#[] : Array (Slots Value))[i]? = some slots := hi
    simp at hnone

end Realm

/-! ## Order in sessions -/

namespace Session

/-- The second session is what the first one becomes by runs of texts in any mode, whether they are
rejected, come to their ends, or are stopped. -/
inductive Becomes (s : Session) : Session → Prop
  | refl : Becomes s s
  | run {s'} (h : Becomes s s') (fuel : Nat) (source : String) (mode : Mode) :
    Becomes s (s'.run fuel source mode).2
  | takePrinted {s'} (h : Becomes s s') : Becomes s s'.takePrinted.2

/-- What a session is between runs: at rest in the global frame, with the whole machine closed. -/
structure Rests (s : Session) : Prop where
  closed : Realm.all.Closed s.machine
  current : s.machine.current = s.machine.globals

theorem rests_start (maxDepth : Nat) (clock : Nat → Float) : (start maxDepth clock).Rests :=
  ⟨Realm.closed_start (fun _ => trivial) (fun _ => trivial) maxDepth clock, rfl⟩

variable {s s' : Session} {l : Launch} {fuel : Nat} {source : String} {mode : Mode}

theorem machine_of_launch (h : s.launch? fuel source mode = some l) : l.machine = s.machine :=
  (follows_of_launch h).machine

theorem Rests.closed_launch (h : s.Rests) (hlaunch : s.launch? fuel source mode = some l) :
    Realm.all.Closed l.start := by
  unfold Launch.start
  rw [machine_of_launch hlaunch]
  exact h.closed.learn l.bindings

/-- What a run leaves: more frames, with the links of the old ones unchanged. -/
theorem Rests.run (h : s.Rests) (fuel : Nat) (source : String) (mode : Mode) :
    (s.run fuel source mode).2.Rests ∧
      s.machine.frames.Extends (fun _ _ => True) (s.run fuel source mode).2.machine.frames ∧
      (s.run fuel source mode).2.machine.globals = s.machine.globals := by
  cases hlaunch : s.launch? fuel source mode with
  | none =>
    obtain ⟨ds, hrun⟩ := run_of_no_launch hlaunch
    rw [hrun]
    exact ⟨⟨h.closed, h.current⟩, .refl _, rfl⟩
  | some l =>
    rw [run_of_launch hlaunch]
    have hmachine := machine_of_launch hlaunch
    have hgrows := l.start.home_grows_run l.fuel l.program
    refine ⟨⟨((h.closed_launch hlaunch).run (Realm.admits_all l.program) l.fuel).1, ?_⟩, ?_, ?_⟩
    · exact hgrows.current.trans hgrows.globals.symm
    · have hframes : l.machine.frames.Extends (fun _ _ => True) l.run.2.frames :=
        hgrows.frames.mono fun _ _ _ _ => trivial
      rwa [hmachine] at hframes
    · have hglobals : l.run.2.globals = l.machine.globals := hgrows.globals
      rwa [hmachine] at hglobals

/-- The functions that the value of a run refers to are closed in frames that were made. -/
theorem Rests.value (h : s.Rests) {v : Value}
    (hv : (s.run fuel source mode).1 = .finished (some v)) {g : Function}
    (hreaches : (s.run fuel source mode).2.machine.Reaches (.value v)
      (.value (.callable (.function g)))) :
    g.closure < (s.run fuel source mode).2.machine.frames.count := by
  cases hlaunch : s.launch? fuel source mode with
  | none =>
    obtain ⟨ds, hrun⟩ := run_of_no_launch hlaunch
    rw [hrun] at hv
    cases hv
  | some l =>
    rw [run_of_launch hlaunch] at hv hreaches ⊢
    obtain ⟨hclosed, hvalue⟩ := (h.closed_launch hlaunch).run (Realm.admits_all l.program) l.fuel
    have hg : Realm.all.HasFunction l.run.2 g :=
      hclosed.reaches (t := .value v) (hvalue v hv) hreaches
    exact hg.closure_lt

theorem Rests.takePrinted (h : s.Rests) : s.takePrinted.2.Rests :=
  ⟨h.closed.congr rfl rfl rfl (Nat.le_refl _), h.current⟩

/-- Whatever is run, the session is at rest afterwards, and no link has changed. -/
theorem Rests.becomes (h : s.Rests) (hs : s.Becomes s') :
    s'.Rests ∧ s.machine.frames.Extends (fun _ _ => True) s'.machine.frames ∧
      s'.machine.globals = s.machine.globals := by
  induction hs with
  | refl => exact ⟨h, .refl _, rfl⟩
  | run _ fuel source mode ih =>
    obtain ⟨hrests, hframes, hglobals⟩ := ih
    obtain ⟨hrests', hframes', hglobals'⟩ := hrests.run fuel source mode
    exact ⟨hrests', hframes.trans hframes', hglobals'.trans hglobals⟩
  | takePrinted _ ih => exact ⟨ih.1.takePrinted, ih.2⟩

/-- At every moment of the next run the machine is in order, and no link has changed. -/
theorem Rests.runs (h : s.Rests) (hlaunch : s.launch? fuel source mode = some l) {N : Moment}
    (hN : l.Runs N) :
    N.machine.Orderly ∧ s.machine.frames.Extends (fun _ _ => True) N.machine.frames ∧
      N.machine.globals = s.machine.globals := by
  have hmachine := machine_of_launch hlaunch
  have hfits := (h.closed_launch hlaunch).fits_run (Realm.admits_all l.program) hN
  have hleads := hN.leads
  refine ⟨hfits.closed.orderly hfits.stays.lt_count, ?_, ?_⟩
  · have hframes : l.machine.frames.Extends (fun _ _ => True) N.machine.frames := hleads.frames
    rwa [hmachine] at hframes
  · have hglobals : N.machine.globals = l.machine.globals := hleads.globals
    rwa [hmachine] at hglobals

end Session

/-- **The frames form a tree at whose root is the global frame.** After any runs of texts, a session
is in the global frame, and its machine is in order. Later runs add frames, but they change no link
and not the global frame. At every moment of a run the machine is in order, too, and so is every
function that the value of a run refers to. A method is searched for in the classes above a class,
which were made one before the other. -/
theorem frames_form_tree (maxDepth : Nat) (clock : Nat → Float) (s : Session)
    (hs : (Session.start maxDepth clock).Becomes s) :
    s.machine.current = s.machine.globals ∧ s.machine.Orderly ∧
    (∀ s', s.Becomes s' → s'.machine.globals = s.machine.globals ∧
      s.machine.frames.count ≤ s'.machine.frames.count ∧
      ∀ f, f < s.machine.frames.count →
        s'.machine.frames.outward? f = s.machine.frames.outward? f) ∧
    (∀ fuel source mode v g, (s.run fuel source mode).1 = .finished (some v) →
      (s.run fuel source mode).2.machine.Reaches (.value v) (.value (.callable (.function g))) →
      g.closure < (s.run fuel source mode).2.machine.frames.count) ∧
    (∀ fuel source mode l, s.launch? fuel source mode = some l → ∀ N, l.Runs N →
      N.machine.Orderly ∧ N.machine.globals = s.machine.globals ∧
      s.machine.frames.count ≤ N.machine.frames.count ∧
      ∀ f, f < s.machine.frames.count →
        N.machine.frames.outward? f = s.machine.frames.outward? f) ∧
    ∀ c : Class, ∀ method : String,
      c.findMethod method = c.line.findSome? (·.methods.get? method) := by
  obtain ⟨hrests, -⟩ := (Session.rests_start maxDepth clock).becomes hs
  have hcurrent : s.machine.current < s.machine.frames.count :=
    hrests.current ▸ hrests.closed.globals_lt
  refine ⟨hrests.current, hrests.closed.orderly hcurrent, fun s' hs' => ?_,
    fun fuel source mode v g hv hg => hrests.value hv hg,
    fun fuel source mode l hl N hN => ?_, fun c method => c.findMethod_eq_findSome? method⟩
  · obtain ⟨-, hframes, hglobals⟩ := hrests.becomes hs'
    exact ⟨hglobals, hframes.count, hframes.outward⟩
  · obtain ⟨horderly, hframes, hglobals⟩ := hrests.runs hl hN
    exact ⟨horderly, hglobals, hframes.count, hframes.outward⟩

/-- A call in a block makes two frames besides the global one, and all three form a tree. -/
theorem block_and_call_form_tree :
    (Session.start 1 fun _ => 0).Becomes
      ((Session.start 1 fun _ => 0).run 2 "fun f(){}{f();}" .script).2 ∧
    ((Session.start 1 fun _ => 0).run 2 "fun f(){}{f();}" .script).2.machine.frames.count = 3 ∧
    ((Session.start 1 fun _ => 0).run 2 "fun f(){}{f();}" .script).2.machine.Orderly := by
  have hs : (Session.start 1 fun _ => 0).Becomes
    ((Session.start 1 fun _ => 0).run 2 "fun f(){}{f();}" .script).2 := .run .refl ..
  have hcount : ((Session.start 1 fun _ => 0).run 2 "fun f(){}{f();}"
    .script).2.machine.frames.count = 3 := by cbv
  exact ⟨hs, hcount, (frames_form_tree _ _ _ hs).2.1⟩

end ScriptLang
