import ScriptLang.Proofs.Evaluation.Rebinding
import ScriptLang.Proofs.Grammar.Renumbering
import ScriptLang.Proofs.Relabelling.Fixed
import ScriptLang.Proofs.Relabelling.Runs
import ScriptLang.Proofs.Relabelling.Scopes
import ScriptLang.Proofs.Sessions.History

/-!
# Sessions under other numbers

The numbers of references do not matter. If the references of a session have other numbers, and
the next number is another one accordingly (`Session.Renumbered`), then every text is parsed,
accepted and run as before, and the session after it has other numbers again
(`Session.Renumbered.run`), and so for any number of texts (`Session.Renumbered.runAll`).

A session knows no reference with a number from its next one on: neither its bindings nor the
bodies of its functions do (`Session.Numbered`). That nothing in a body changes if those numbers
change need not be proved for each piece of evaluation. The program stays as it is, so its run under
other numbers is the run itself, and the machine after it stays as it is, too.
-/

namespace ScriptLang

open Scoping (Phrase)

/-! ## Renumberings that leave the first numbers alone -/

/-- The renumbering tells numbers apart and leaves those below `n` alone. -/
structure LeavesBelow (n : Nat) (ρ : Nat → Nat) : Prop where
  injective : Function.Injective ρ
  below : ∀ id < n, ρ id = id

namespace LeavesBelow

variable {n k : Nat} {ρ : Nat → Nat}

theorem mono (h : LeavesBelow k ρ) (hle : n ≤ k) : LeavesBelow n ρ :=
  ⟨h.injective, fun id hid => h.below id (Nat.lt_of_lt_of_le hid hle)⟩

/-- The other numbers are not changed to the first ones. -/
theorem le (h : LeavesBelow n ρ) {id : Nat} (hid : n ≤ id) : n ≤ ρ id := by
  by_contra hlt
  have hfixed : ρ (ρ id) = ρ id := h.below (ρ id) (Nat.lt_of_not_le hlt)
  have hsame : ρ id = id := h.injective hfixed
  omega

/-- A table without entries for the other numbers is its own image. -/
theorem renumbered (h : LeavesBelow n ρ) {b : Bindings} (hb : ∀ id, n ≤ id → b.hops? id = none) :
    b.Renumbered ρ b where
  hops id := by
    by_cases hid : id < n
    · rw [h.below id hid]
    · have hle : n ≤ id := Nat.le_of_not_lt hid
      rw [hb id hle, hb (ρ id) (h.le hle)]
  only id hid := by
    refine hb id ?_
    by_contra hlt
    exact hid id (h.below id (Nat.lt_of_not_le hlt))

end LeavesBelow

/-- Leave the numbers below `n` alone, and count `k` more for the others. -/
def shiftFrom (n k id : Nat) : Nat := if id < n then id else id + k

theorem leavesBelow_shiftFrom (n k : Nat) : LeavesBelow n (shiftFrom n k) where
  injective i j h := by
    unfold shiftFrom at h
    split at h <;> split at h <;> omega
  below id hid := if_pos hid

theorem countsOn_shiftFrom (n k : Nat) : Grammar.CountsOn (shiftFrom n k) n := by
  intro j hj
  unfold shiftFrom
  rw [if_neg (by omega), if_neg (by omega)]
  omega

theorem shiftFrom_self (n k : Nat) : shiftFrom n k n = n + k := if_neg (Nat.lt_irrefl n)

/-! ## Numbers in use -/

/-- All references in the bodies of the value have numbers below `n`. -/
def Value.NumberedBelow (n : Nat) (v : Value) : Prop :=
  ∀ ρ, LeavesBelow n ρ → v.relabel (.renumbering ρ) = v

/-- All references in the bodies of functions on the machine have numbers below `n`. -/
def Machine.NumberedBelow (n : Nat) (m : Machine) : Prop :=
  ∀ ρ, LeavesBelow n ρ → ∀ table, m.mirror (.renumbering ρ table) = m.rebind table

/-- The numbers from the next one on are not in use. -/
structure Session.Numbered (s : Session) : Prop where
  unbound : ∀ id, s.nextRef ≤ id → s.machine.bindings.hops? id = none
  numbered : s.machine.NumberedBelow s.nextRef

/-- If the numbers of a program stay, it is the same. -/
theorem Program.relabel_of_numbers {p : Program} {ρ : Nat → Nat} (h : ∀ id ∈ p.ids, ρ id = id) :
    p.relabel (.renumbering ρ) = p := by
  refine relabel_of_fixed (fixes_renumbering fun id hid => h id (List.mem_append_left _ hid))
    fun e he => fixes_renumbering fun id hid => h id (List.mem_append_right _ ?_)
  rw [he]
  simpa using hid

namespace Machine

variable {n k : Nat} {m : Machine}

theorem NumberedBelow.mono (h : m.NumberedBelow n) (hle : n ≤ k) : m.NumberedBelow k :=
  fun ρ hρ table => h ρ (hρ.mono hle) table

theorem numberedBelow_start (maxDepth : Nat) (clock : Nat → Float) :
    (Machine.start maxDepth clock).NumberedBelow n :=
  fun _ _ table => fixed_start maxDepth clock table

theorem NumberedBelow.defineGlobal (h : m.NumberedBelow n) (name : String) {v : Value}
    (hv : v.NumberedBelow n) : (m.defineGlobal name v).NumberedBelow n :=
  fun ρ hρ table => Fixed.defineGlobal (h ρ hρ) name (hv ρ hρ) table

theorem NumberedBelow.clearGlobals (h : m.NumberedBelow n) : m.clearGlobals.NumberedBelow n :=
  fun ρ hρ table => Fixed.clearGlobals (h ρ hρ) table

/-- A run of a program whose references have such numbers keeps to them. -/
theorem NumberedBelow.run (h : m.NumberedBelow n) (hb : ∀ id, n ≤ id → m.bindings.hops? id = none)
    (fuel : Nat) {p : Program} (hp : ∀ id ∈ p.ids, id < n) : (m.run fuel p).2.NumberedBelow n := by
  intro ρ hρ table
  have hrun := run_renumber fuel p (hρ.renumbered hb).hops
  have hprogram : p.relabel (.renumbering ρ) = p :=
    Program.relabel_of_numbers fun id hid => hρ.below id (hp id hid)
  have hmachine : m.mirror (.renumbering ρ m.bindings) = m := h ρ hρ m.bindings
  rw [hprogram, hmachine] at hrun
  have hsame : (m.run fuel p).2.mirror (.renumbering ρ m.bindings) = (m.run fuel p).2 :=
    (congrArg Prod.snd hrun).symm
  exact congrArg (Machine.rebind · table) hsame

end Machine

namespace Session.Numbered

variable {s : Session} (h : s.Numbered)

include h

theorem next {nextRef : Nat} (hle : s.nextRef ≤ nextRef) : Numbered { s with nextRef } :=
  ⟨fun id hid => h.unbound id (Nat.le_trans hle hid), h.numbered.mono hle⟩

theorem run (fuel : Nat) (source : String) (mode : Mode) : (s.run fuel source mode).2.Numbered := by
  obtain ⟨hle, -⟩ := s.parse_fresh source mode
  cases hlaunch : s.launch? fuel source mode with
  | none =>
    obtain ⟨ds, hrun⟩ := run_of_no_launch hlaunch
    rw [hrun]
    exact h.next hle
  | some l =>
    have hfollows := follows_of_launch hlaunch
    have hnumbered := (fresh_of_launch hlaunch).numbered
    have hbelow (id : Nat) (hid : id ∈ l.program.ids) : id < (s.parse source mode).2.nextRef :=
      (hnumbered.bounds id hid).2
    have hstart : l.start = s.machine.learn l.bindings := by
      unfold Launch.start
      rw [hfollows.machine]
    have hunbound (id : Nat) (hid : (s.parse source mode).2.nextRef ≤ id) :
        l.start.bindings.hops? id = none := by
      have hnew : id ∉ l.program.ids := fun hmem => Nat.not_lt.mpr hid (hbelow id hmem)
      have hmerge := Bindings.hops?_merge s.machine.bindings l.bindings id
      rw [Program.unbound hfollows.accepted hnew, h.unbound id (Nat.le_trans hle hid)] at hmerge
      rw [hstart]
      exact hmerge
    have hmachine : l.start.NumberedBelow (s.parse source mode).2.nextRef := by
      rw [hstart]
      exact h.numbered.mono hle
    have hbindings : l.run.2.bindings = l.start.bindings :=
      (l.start.home_grows_run l.fuel l.program).bindings
    rw [run_of_launch hlaunch]
    refine ⟨fun id hid => ?_, hmachine.run hunbound l.fuel hbelow⟩
    change l.run.2.bindings.hops? id = none
    rw [hbindings]
    exact hunbound id hid

end Session.Numbered

/-! ## Occurring sessions -/

/-- The sessions that occur: new ones, and those that are left after a run, however it ended, after
the printed text was taken, and after the host has changed the global variables. The host may use all
values whose bodies were numbered in the session, such as those that earlier runs had. -/
inductive Session.Occurs : Session → Prop
  | start (maxDepth : Nat) (clock : Nat → Float) : Occurs (.start maxDepth clock)
  | run {s : Session} (h : Occurs s) (fuel : Nat) (source : String) (mode : Mode) :
    Occurs (s.run fuel source mode).2
  | takePrinted {s : Session} (h : Occurs s) : Occurs s.takePrinted.2
  | defineGlobal {s : Session} (h : Occurs s) (name : String) {v : Value}
    (hv : v.NumberedBelow s.nextRef) : Occurs { s with machine := s.machine.defineGlobal name v }
  | clearGlobals {s : Session} (h : Occurs s) :
    Occurs { s with machine := s.machine.clearGlobals }

/-- **The numbers from the next one on are never in use.** -/
theorem Session.Occurs.numbered {s : Session} (h : s.Occurs) : s.Numbered := by
  induction h with
  | start maxDepth clock =>
    exact ⟨fun id _ => Bindings.hops?_empty id, Machine.numberedBelow_start maxDepth clock⟩
  | run _ fuel source mode ih => exact ih.run fuel source mode
  | takePrinted _ ih =>
    refine ⟨ih.unbound, fun ρ hρ table => ?_⟩
    exact congrArg Machine.clearPrinted (ih.numbered ρ hρ table)
  | defineGlobal _ name hv ih => exact ⟨ih.unbound, ih.numbered.defineGlobal name hv⟩
  | clearGlobals _ ih => exact ⟨ih.unbound, ih.numbered.clearGlobals⟩

/-! ## Sessions with other numbers -/

/-- The other session is the same with other numbers. -/
structure Session.Renumbered (ρ : Nat → Nat) (s s' : Session) : Prop where
  counts : Grammar.CountsOn ρ s.nextRef
  nextRef : s'.nextRef = ρ s.nextRef
  machine : s'.machine = s.machine.mirror (.renumbering ρ s'.machine.bindings)
  bindings : s.machine.bindings.Renumbered ρ s'.machine.bindings

/-- A session that skips some numbers is the same with other numbers. -/
theorem Session.Numbered.renumbered {s : Session} (h : s.Numbered) (k : Nat) :
    s.Renumbered (shiftFrom s.nextRef k) { s with nextRef := s.nextRef + k } where
  counts := countsOn_shiftFrom s.nextRef k
  nextRef := (shiftFrom_self s.nextRef k).symm
  machine := (h.numbered _ (leavesBelow_shiftFrom s.nextRef k) s.machine.bindings).symm
  bindings := (leavesBelow_shiftFrom s.nextRef k).renumbered h.unbound

/-- A text that is run, and the fuel for it. -/
structure Submission where
  fuel : Nat
  source : String
  mode : Mode

/-- Run the texts in order: how each run ends, what has been printed by then, and the session after
all of them. -/
def Session.runAll (s : Session) : List Submission → List (Outcome × String) × Session
  | [] => ([], s)
  | text :: texts =>
    let (outcome, s') := s.run text.fuel text.source text.mode
    let (outcomes, last) := s'.runAll texts
    ((outcome, s'.machine.printed.contents) :: outcomes, last)

namespace Session.Renumbered

variable {ρ : Nat → Nat} {s s' : Session} (h : s.Renumbered ρ s')

include h

theorem globalNames : s'.machine.globalNames = s.machine.globalNames := by
  have hnames := s.machine.frames.names_relabel (.renumbering ρ) (fun _ => Equiv.refl String)
    s.machine.globals
  rw [h.machine]
  exact hnames.trans (List.map_id _)

theorem printed : s'.machine.printed = s.machine.printed := by
  rw [h.machine]
  rfl

theorem parse (source : String) (mode : Mode) :
    (s'.parse source mode).1 = (s.parse source mode).1.map (Program.renumber ρ) ∧
      (s.parse source mode).2.Renumbered ρ (s'.parse source mode).2 := by
  have hparse := Program.parse_renumber h.counts (Source.tokens source) mode
  obtain ⟨hle, -⟩ := s.parse_fresh source mode
  unfold Session.parse
  dsimp only
  rw [h.nextRef, hparse]
  refine ⟨?_, h.counts.mono hle, rfl, h.machine, h.bindings⟩
  dsimp only
  cases Source.diagnostics source with
  | nil => rfl
  | cons d ds => cases (Program.parse (Source.tokens source) mode s.nextRef).result <;> rfl

theorem runProgram (hρ : Function.Injective ρ) (fuel : Nat) (p : Program) :
    (s'.runProgram fuel (p.renumber ρ)).1 = (s.runProgram fuel p).1.renumber ρ ∧
      (s.runProgram fuel p).2.Renumbered ρ (s'.runProgram fuel (p.renumber ρ)).2 := by
  unfold Session.runProgram
  rw [h.globalNames]
  cases hresolve : p.resolve s.machine.globalNames with
  | error ds =>
    rw [Program.resolve_renumber_error hρ hresolve]
    exact ⟨rfl, h⟩
  | ok b =>
    obtain ⟨b', hresolve', hb⟩ := Program.resolve_renumber_ok hρ hresolve
    let table := s'.machine.bindings.merge b'
    have hbindings : (s.machine.learn b).bindings.Renumbered ρ table := h.bindings.merge hb
    have hmachine : s'.machine.learn b' =
        (s.machine.learn b).mirror (.renumbering ρ table) := by
      have hlearn := congrArg (Machine.learn · b') h.machine
      exact hlearn
    have hrun := Machine.run_renumber fuel p hbindings.hops
    have hsame : ((s.machine.learn b).run fuel p).2.bindings = (s.machine.learn b).bindings :=
      ((s.machine.learn b).home_grows_run fuel p).bindings
    rw [hresolve']
    dsimp only
    rw [hmachine, hrun]
    exact ⟨rfl, h.counts, h.nextRef, rfl, hsame ▸ hbindings⟩

/-- **A text is run in the same way under other numbers.** -/
theorem run (hρ : Function.Injective ρ) (fuel : Nat) (source : String) (mode : Mode) :
    (s'.run fuel source mode).1 = (s.run fuel source mode).1.renumber ρ ∧
      (s.run fuel source mode).2.Renumbered ρ (s'.run fuel source mode).2 := by
  obtain ⟨hresult, hsession⟩ := h.parse source mode
  cases hparse : (s.parse source mode).1 with
  | error ds =>
    rw [hparse] at hresult
    rw [Session.run_of_parse_error hparse, Session.run_of_parse_error hresult]
    exact ⟨rfl, hsession⟩
  | ok p =>
    rw [hparse] at hresult
    rw [Session.run_of_parse_ok hparse, Session.run_of_parse_ok hresult]
    exact hsession.runProgram hρ fuel p

/-- **Texts are run in the same way under other numbers**: they end and print as before. -/
theorem runAll (hρ : Function.Injective ρ) (texts : List Submission) :
    (s'.runAll texts).1 = (s.runAll texts).1.map (Prod.map (Outcome.renumber ρ) id) ∧
      (s.runAll texts).2.Renumbered ρ (s'.runAll texts).2 := by
  induction texts generalizing s s' with
  | nil => exact ⟨rfl, h⟩
  | cons text texts ih =>
    obtain ⟨houtcome, hsession⟩ := h.run hρ text.fuel text.source text.mode
    obtain ⟨houtcomes, hlast⟩ := ih hsession
    refine ⟨?_, hlast⟩
    unfold Session.runAll
    dsimp only
    rw [houtcome, houtcomes, hsession.printed]
    rfl

end Session.Renumbered

end ScriptLang
