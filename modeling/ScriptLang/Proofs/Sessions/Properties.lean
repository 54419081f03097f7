import ScriptLang.Proofs.Sessions.Construction
import ScriptLang.Proofs.Sessions.Instances

/-!
# Properties of instances

What an instance has under a name is the field if there is one, or else the nearest method
(`Machine.property?`), and this is what access to a property goes by (`Eval.getProperty_eq`).

Fields are stored on the machine, under the numbers of instances, so it does not matter by what way
an instance was come by; two that have one number are the same (`Session.Hosted.eq_of_id`). Since
nothing but settings touches them, a field has the value that it was set to last in all the runs of a
session (`Session.Hosted.field?_eq`, `Session.Hosted.field?_meets`). Methods are found in classes,
which are values that never change. What was written in the declarations of the classes settles which
one it is (`Class.Births.routine`), and a class that is declared later, with the same name or not, is
another value. So methods depend on the instance only, and the two stores and the frames that bindings
make do not interfere (`property_access_follows_fields_then_classes`).
-/

namespace ScriptLang

/-! ## What is found -/

/-- What an instance has under a name: a field, or a method of its class. -/
inductive Property
  | field (v : Value)
  | method (f : Function)

/-- What an instance has under a name: the field if there is one, or else the nearest method. -/
def Machine.property? (m : Machine) (i : Instance) (name : String) : Option Property :=
  match m.field? i name with
  | some v => some (.field v)
  | none => (i.ofClass.nearest name).map .method

/-- Access to a property gives the value of a field, or a method that gets the instance as its
`this`. -/
theorem Eval.getProperty_eq (i : Instance) (property : Lexeme) (m : Machine) :
    getProperty i property m =
      match m.property? i property.text with
      | some (.field v) => .ok v m
      | some (.method f) =>
        .ok (.callable (.function (boundFunction f m))) (boundMachine f (.instance i) m)
      | none => .error (.error (.at property (.undefinedProperty property.text))) m := by
  have hread : field? i property.text m = .ok (m.field? i property.text) m := rfl
  unfold getProperty Machine.property?
  rw [bind_of_ok hread]
  cases m.field? i property.text with
  | some v => rfl
  | none =>
    dsimp only
    rw [Class.findMethod_eq_findSome?]
    unfold Class.nearest
    cases i.ofClass.line.findSome? (·.methods.get? property.text) <;> rfl

/-- The function that comes of a binding finds in its closure what it was bound to. -/
theorem Eval.here?_this (f : Function) (self : Value) (m : Machine) :
    (boundMachine f self m).frames.here? (boundFunction f m).closure "this" = some self := by
  change ((m.frames.push (some f.closure)).define m.frames.nextId "this" self).here?
    m.frames.nextId "this" = some self
  refine Frames.here?_define_self ?_ ..
  rw [Frames.count_push]
  exact Nat.lt_succ_self _

/-! ## Declarations of a line -/

/-- The members of the class that is declared at the moment. -/
def Moment.members (M : Moment) : List Method :=
  match M.task with
  | .statement (.class _ _ members) => members
  | _ => []

/-- A class has the last one of the members of each name as its method. -/
theorem Moment.Declares.routine {M : Moment} {c : Class} (h : M.Declares c) (name : String) :
    (c.methods.get? name).map (·.routine) = (Method.last? M.members name).map (·.routine) := by
  cases h with
  | @intro n word superclass members m parent methods k _ hmethods =>
    have hname := hmethods name
    change (methods.get? name).map _ = (Method.last? members name).map _
    split at hname
    · rename_i method hlast
      obtain ⟨id, hget⟩ := hname
      rw [hget, hlast]
      rfl
    · rename_i hlast
      rw [hname, hlast]
      rfl

/-- The moments in the list are the declarations of the classes in the line, in turn. -/
def Class.Births (H : Moment → Prop) (c : Class) (births : List Moment) : Prop :=
  List.Forall₂ (fun M d => H M ∧ M.Declares d) births c.line

theorem Class.Declared.exists_births {H : Moment → Prop} {c : Class} (h : c.Declared H) :
    ∃ births, c.Births H births := by
  have hall : ∀ line : List Class, (∀ d ∈ line, ∃ M, H M ∧ M.Declares d) →
      ∃ births, List.Forall₂ (fun M d => H M ∧ M.Declares d) births line := by
    intro line hline
    induction line with
    | nil => exact ⟨[], .nil⟩
    | cons d line ih =>
      obtain ⟨M, hM⟩ := hline d List.mem_cons_self
      obtain ⟨births, hbirths⟩ := ih fun e he => hline e (List.mem_cons_of_mem d he)
      exact ⟨M :: births, .cons hM hbirths⟩
  exact hall c.line fun d hd => h.line hd

/-- The nearest method of a name is the last member of that name in the first declaration that has
one. -/
theorem Class.Births.routine {H : Moment → Prop} {c : Class} {births : List Moment}
    (h : c.Births H births) (name : String) :
    (c.nearest name).map (·.routine) =
      births.findSome? fun M => (Method.last? M.members name).map (·.routine) := by
  unfold nearest
  unfold Births at h
  rw [List.map_findSome?]
  generalize c.line = line at h
  induction h with
  | nil => rfl
  | cons hM _ ih =>
    rw [List.findSome?_cons, List.findSome?_cons, ← hM.2.routine name, ih]
    rfl

/-! ## Further settings -/

/-- The machine with some more fields set, one after the other. -/
def Machine.settingAll (m : Machine) (ws : List Setting) : Machine := ws.foldl setting m

theorem Machine.field?_settingAll {m : Machine} {ws : List Setting}
    (h : ∀ w ∈ ws, w.object.id < m.fields.size) (i : Instance) (name : String) :
    (m.settingAll ws).field? i name = (lastSet? ws i name).or (m.field? i name) := by
  induction ws generalizing m with
  | nil => rfl
  | cons w ws ih =>
    have hsize : (m.setting w).fields.size = m.fields.size := by simp [setting]
    have hrest : ((m.setting w).settingAll ws).field? i name =
        (lastSet? ws i name).or ((m.setting w).field? i name) :=
      ih fun w' hw' => hsize ▸ h w' (List.mem_cons_of_mem w hw')
    change ((m.setting w).settingAll ws).field? i name = _
    rw [hrest, field?_setting (h w List.mem_cons_self), ← Option.or_assoc, ← lastSet?_append]
    rfl

/-! ## Fields in a session -/

namespace Launch

/-- The fields that are set by the program, in turn. -/
def settings (l : Launch) : List Setting := l.start.settings l.fuel l.program

/-- In the run of the program the moment is met after the fields in the list were set. -/
def Meets (l : Launch) (ws : List Setting) (N : Moment) : Prop :=
  l.start.Meets l.fuel l.program ws N

end Launch

namespace Session.Hosted

variable {L : List Launch} {vs : List Value} {s : Session} {l : Launch}
variable {fuel : Nat} {source : String} {mode : Mode}

theorem field?_start (hlaunch : s.launch? fuel source mode = some l) (i : Instance)
    (name : String) : l.start.field? i name = s.machine.field? i name := by
  unfold Machine.field?
  rw [l.start_fields, machine_of_launch hlaunch]

/-- **Between the runs of a session, fields have the values that they were set to last.** -/
theorem field?_eq (h : Hosted L vs s) (i : Instance) (name : String) :
    s.machine.field? i name = lastSet? (L.flatMap Launch.settings) i name := by
  induction h with
  | start maxDepth clock => rfl
  | @run L vs s h fuel source mode _ ih =>
    cases hlaunch : s.launch? fuel source mode with
    | none =>
      obtain ⟨ds, hrun⟩ := run_of_no_launch hlaunch
      rw [hrun, Option.toList_none, List.append_nil]
      exact ih
    | some l =>
      have hfield := (h.closed_start hlaunch).field?_run (Launch.admits L l) l.fuel i name
      rw [run_of_launch hlaunch]
      change l.run.2.field? i name = _
      rw [Option.toList_some, List.flatMap_append, List.flatMap_singleton, lastSet?_append, ← ih,
        ← field?_start hlaunch]
      exact hfield
  | takePrinted _ ih => exact ih
  | literal _ _ ih => exact ih
  | global _ _ ih => exact ih
  | defineGlobal _ _ _ ih => exact ih
  | clearGlobals _ ih => exact ih

/-- At every moment of the next run, too. -/
theorem field?_meets (h : Hosted L vs s) (hlaunch : s.launch? fuel source mode = some l)
    {ws : List Setting} {N : Moment} (hN : l.Meets ws N) (i : Instance) (name : String) :
    N.machine.field? i name = lastSet? (L.flatMap Launch.settings ++ ws) i name := by
  rw [(h.closed_start hlaunch).field?_meets (Launch.admits L l) hN i name, field?_start hlaunch,
    h.field?_eq, lastSet?_append]

end Session.Hosted

/-! ## Properties -/

/-- **Property access follows fields, then the nearest class.** Let a moment be met in the next run
of any session, and let any more fields be set there, of instances that there are.

* Access to a property of an instance gives the field, or the method with the instance as its `this`,
  that is found there, or it is undefined. What is found is the value that was set last, in all the
  runs and after them. If none was ever set, it is the method of the nearest class that has one.
* If the instance exists there, then wherever there is one with its number in the run, it is the same
  one and of the same class. This class and those above it were declared in the runs (`births`). The
  nearest one with a method of the name is the first in whose declaration there is a member of that
  name, and the method is the last such member.
* To set a field changes nothing that is found but this field of this instance.
* Whatever is evaluated in the run, such as a declaration of a class or an assignment to its name,
  changes nothing that is found but the fields that are set in its course. -/
theorem property_access_follows_fields_then_classes {L : List Launch} {vs : List Value} {s : Session}
    (hs : Session.Hosted L vs s) {fuel : Nat} {source : String} {mode : Mode} {l : Launch}
    (hlaunch : s.launch? fuel source mode = some l) {ws : List Setting} {N : Moment}
    (hN : l.Meets ws N) {more : List Setting}
    (hmore : ∀ w ∈ more, w.object.id < N.machine.fields.size) (i : Instance) (property : Lexeme) :
    let m := N.machine.settingAll more
    let name := property.text
    (Eval.getProperty i property m =
      match m.property? i name with
      | some (.field v) => .ok v m
      | some (.method f) =>
        .ok (.callable (.function (Eval.boundFunction f m))) (Eval.boundMachine f (.instance i) m)
      | none => .error (.error (.at property (.undefinedProperty name))) m) ∧
    (m.property? i name =
      match lastSet? (L.flatMap Launch.settings ++ ws ++ more) i name with
      | some v => some (.field v)
      | none => (i.ofClass.nearest name).map .method) ∧
    (∀ f, (Eval.boundMachine f (.instance i) m).frames.here? (Eval.boundFunction f m).closure "this" =
      some (.instance i)) ∧
    (l.start.Existing l.fuel l.program vs N (.instance i) →
      (∀ N' j, l.Runs N' → l.start.Existing l.fuel l.program vs N' (.instance j) → j.id = i.id →
        j = i) ∧
      ∃ births, i.ofClass.Births (Launch.Happened (L ++ [l])) births ∧
        (i.ofClass.nearest name).map (·.routine) =
          births.findSome? fun M => (Method.last? M.members name).map (·.routine)) ∧
    (∀ j word v m', j.id < m.fields.size → Eval.setField j word v m = .ok () m' →
      (j.id ≠ i.id ∨ word.text ≠ name) → m'.property? i name = m.property? i name) ∧
    ∀ M, l.Runs M → (∀ w ∈ M.settings, ¬ w.Hits i name) →
      M.final.property? i name = M.machine.property? i name := by
  intro m name
  have hfield : m.field? i name = lastSet? (L.flatMap Launch.settings ++ ws ++ more) i name := by
    rw [Machine.field?_settingAll hmore, hs.field?_meets hlaunch hN, ← lastSet?_append]
  have hsame {m₁ m₂ : Machine} (h : m₂.field? i name = m₁.field? i name) :
      m₂.property? i name = m₁.property? i name := by
    unfold Machine.property?
    rw [h]
  refine ⟨Eval.getProperty_eq i property m, ?_, fun f => Eval.here?_this f (.instance i) m,
    fun hi => ?_, fun j word v m' hj hset hother => hsame ?_, fun M hM hother => hsame ?_⟩
  · unfold Machine.property?
    rw [hfield]
  · have hmade : i.Made (Launch.Happened (L ++ [l])) := hs.knows.existing hlaunch hN.runs hi
    obtain ⟨births, hbirths⟩ := hmade.declared.exists_births
    refine ⟨fun N' j hN' hj hid => ?_, births, hbirths, hbirths.routine name⟩
    exact hs.eq_of_id hlaunch hmade (hs.knows.existing hlaunch hN' hj) hid
  · cases hset
    have hmiss : ¬ Setting.Hits ⟨j, word.text, v⟩ i name := fun h =>
      hother.elim (fun hid => hid h.1) fun hname => hname h.2
    change (m.setting ⟨j, word.text, v⟩).field? i name = _
    rw [Machine.field?_setting hj, lastSet?_eq_none (by simpa using hmiss), Option.none_or]
  · have hfits := (hs.closed_start hlaunch).fits_run (Launch.admits L l) hM
    rw [M.records hfits, lastSet?_eq_none hother, Option.none_or]

/-- An instance with a field and a method, whose class was replaced by another one of its name. -/
theorem replaced_class_keeps_instance : ∃ l ws N i,
    let more : List Setting := [⟨i, "y", .bool false⟩]
    Session.start.launch? 9 "class A{m(){}}var a=A();a.x=true;class A{}a;" .script = some l ∧
      l.Meets ws N ∧ (∀ w ∈ more, w.object.id < N.machine.fields.size) ∧
      l.start.Existing l.fuel l.program [] N (.instance i) ∧
      lastSet? (ws ++ more) i "x" = some (.bool true) ∧ lastSet? (ws ++ more) i "m" = none ∧
      ∃ births, i.ofClass.Births (Launch.Happened [l]) births ∧
        (births.findSome? fun M => (Method.last? M.members "m").map (·.routine)) = some ⟨[], []⟩ := by
  let first : Stmt := .class ⟨"A", 1⟩ none [⟨⟨"m", 1⟩, ⟨[], []⟩⟩]
  let construction : Stmt :=
    .vars [⟨⟨"a", 1⟩, some (.call (.variable ⟨0, ⟨"A", 1⟩⟩) [] ⟨")", 1⟩)⟩]
  let setting : Stmt :=
    .expression (.set (.variable ⟨1, ⟨"a", 1⟩⟩) ⟨"x", 1⟩ (.literal (.bool true)))
  let second : Stmt := .class ⟨"A", 1⟩ none []
  let last : Stmt := .expression (.variable ⟨2, ⟨"a", 1⟩⟩)
  let p : Program := ⟨[first, construction, setting, second, last], none⟩
  let l : Launch := ⟨.start, ∅, 9, p⟩
  let A : Class := ⟨1, "A", none, ⟨[("m", ⟨0, some "m", ⟨[], []⟩, 0, false⟩)]⟩⟩
  let A' : Class := ⟨2, "A", none, .empty⟩
  let i : Instance := ⟨0, A⟩
  -- the global frame and the fields after each statement
  let clock : String × Value := ("clock", .callable (.native .clock))
  let a : String × Value := ("a", .instance i)
  let m₁ : Machine := { l.start.home with
    frames := ⟨#[⟨⟨[clock, ("A", .callable (.class A))]⟩, none⟩]⟩, made := 2 }
  let m₂ : Machine := { m₁ with
    frames := ⟨#[⟨⟨[clock, ("A", .callable (.class A)), a]⟩, none⟩]⟩, fields := #[.empty] }
  let m₃ : Machine := { m₂ with fields := #[⟨[("x", .bool true)]⟩] }
  let m₄ : Machine := { m₃ with
    frames := ⟨#[⟨⟨[clock, ("A", .callable (.class A')), a]⟩, none⟩]⟩, made := 3 }
  have hlaunch : Session.start.launch? 9 "class A{m(){}}var a=A();a.x=true;class A{}a;" .script =
      some l := rfl
  have h₁ : Eval.statement (.ofFuel 9) first l.start.home = .ok .normal m₁ := rfl
  have h₂ : Eval.statement (.ofFuel 9) construction m₁ = .ok .normal m₂ := rfl
  have h₃ : Eval.statement (.ofFuel 9) setting m₂ = .ok .normal m₃ := rfl
  have h₄ : Eval.statement (.ofFuel 9) second m₃ = .ok .normal m₄ := rfl
  have hstart : l.Runs ⟨9, .topLevel p.statements, l.start.home⟩ := Machine.Starts.statements.runs
  have hfourth : l.Runs ⟨9, .topLevel [second, last], m₃⟩ :=
    ((hstart.part (.topTail h₁)).part (.topTail h₂)).part (.topTail h₃)
  have hlast : l.Runs ⟨9, .statement last, m₄⟩ := (hfourth.part (.topTail h₄)).part .topHead
  have hexists : l.start.Existing l.fuel l.program [] ⟨9, .statement last, m₄⟩ (.instance i) :=
    .variable (f := 0) (x := "a") rfl
  let more : List Setting := [⟨i, "y", .bool false⟩]
  have hmore : ∀ w ∈ more, w.object.id < m₄.fields.size := by
    intro w hw
    cases List.mem_singleton.mp hw
    exact Nat.zero_lt_one
  obtain ⟨ws, hmeets⟩ := Machine.Runs.exists_meets hlast
  obtain ⟨-, hx, -⟩ := property_access_follows_fields_then_classes (.start _ _) hlaunch hmeets hmore i
    ⟨"x", 1⟩
  obtain ⟨-, hm, -, hbirths, -⟩ := property_access_follows_fields_then_classes (.start _ _) hlaunch
    hmeets hmore i ⟨"m", 1⟩
  obtain ⟨-, births, hbirths, hroutine⟩ := hbirths hexists
  refine ⟨l, ws, _, i, hlaunch, hmeets, hmore, hexists, ?_, ?_, births, hbirths, hroutine.symm⟩
  · have hfound : some (Property.field (.bool true)) = _ := hx
    split at hfound
    · rename_i v hv
      cases hfound
      exact hv
    · cases hfound
  · have hfound : some (Property.method ⟨0, some "m", ⟨[], []⟩, 0, false⟩) = _ := hm
    split at hfound
    · cases hfound
    · rename_i hnone
      exact hnone

end ScriptLang
