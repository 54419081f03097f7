import ScriptLang.Proofs.Sessions.Hosts
import ScriptLang.Proofs.Sessions.LocalNames
import ScriptLang.Proofs.Sessions.Lookups

/-!
# Local names do not matter

A program in which a local variable `x` is called `y` runs as the program itself
(`local_names_do_not_matter`). That it is accepted, with the same bindings, is known
(`Launch.Renames.resolve`); here are the two runs.

The other run is the mirror image of the run (`Launch.Renames.mirror`): the frames that were made for
the scope of `x` have `y` where they had `x`, all other frames have the same names, and the bodies of
functions have the other labels. For this the labels have to fit together at every moment of the run
(`Launch.Renames.conforms`). If a reference is bound, its way through the frames leads to one that was
made for the scope it is bound to. If it is not, it is looked for in the global frame, which was there
before. A program that was launched earlier has neither the scope nor its references, so what the
session knew before the run is its own image (`Launch.Renames.mirror_start`).

Whether `x` is in its frame when a reference asks for it, the two runs cannot tell apart, but then they
fail with different names (`Launch.Renames.fails_of_misses`).
-/

namespace ScriptLang

open Scoping (Place Site)

/-- Only the names in frames that there are matter. -/
theorem Frames.relabel_congr {fs : Frames} {R : Relabelling} {ν ν' : FrameId → Equiv.Perm String}
    (h : ∀ f, f < fs.count → ν f = ν' f) : fs.relabel R ν = fs.relabel R ν' := by
  unfold Frames.relabel
  refine congrArg Frames.mk (Array.ext_getElem? fun f => ?_)
  rw [Array.getElem?_mapIdx, Array.getElem?_mapIdx]
  by_cases hf : f < fs.count
  · rw [h f hf]
  · have hnone : fs.all[f]? = none := Array.getElem?_eq_none (Nat.le_of_not_lt hf)
    rw [hnone]
    rfl

/-- The outcome with other labels in the bodies of functions. -/
def Outcome.relabel (R : Relabelling) : Outcome → Outcome
  | finished v => finished (v.map (Value.relabel R))
  | outcome => outcome

/-! ## Missing variables -/

namespace Moment

variable {N : Moment} {ref ref' : Ref}

/-- A moment looks up one reference only. -/
theorem LooksUp.eq {m m' : Machine} (h : N.LooksUp ref m) (h' : N.LooksUp ref' m') : ref' = ref := by
  cases h <;> cases h' <;> rfl

/-- An error for a missing variable is raised where it is asked for. -/
theorem Asks.raises (h : N.Asks ref) : ∃ stop m, N.Raises stop m := by
  obtain ⟨m, hend⟩ := h.ending
  obtain ⟨m', hlookup⟩ := h.lookup
  refine ⟨_, m, hend, fun N' hpart stop m₁ hstop => ?_⟩
  cases hlookup with
  | assign hvalue =>
    cases hpart
    cases hvalue.symm.trans hstop
  | «variable» => cases hpart
  | this => cases hpart
  | super =>
    cases hpart
    cases (Eval.bindThis_eq ..).symm.trans hstop
  | superclass => cases hpart

end Moment

namespace Machine

variable {m : Machine} {fuel : Nat} {p : Program} {N N' : Moment} {ref ref' : Ref}

theorem Starts.run_of_error {m' : Machine} {e : RunError} (hN : m.Starts fuel p N)
    (hend : N.ending = .error (.error e) m') : (m.run fuel p).1 = .failed e := by
  have hprogram : (Eval.topLevel (.ofFuel fuel) p.statements >>= fun _ => finish fuel p) m.home =
      .error (.error e) m' := by
    cases hN with
    | statements => exact Eval.bind_of_error hend
    | trailing htrailing hstatements =>
      rw [Eval.bind_of_ok hstatements]
      unfold finish
      rw [htrailing]
      exact Eval.map_of_error hend
  unfold run
  rw [program_eq, hprogram]

/-- A run fails where a variable is missing. -/
theorem Runs.run_of_asks (hN : m.Runs fuel p N) (h : N.Asks ref) :
    (m.run fuel p).1 = .failed (Frames.undefined ref.word) := by
  obtain ⟨M, hM, hpath⟩ := hN
  obtain ⟨m', hend⟩ := h.ending
  obtain ⟨m₁, hstop⟩ := Moment.stops_of_path hpath hend
  exact hM.run_of_error hstop

/-- Only one reference asks for a variable that is missing. -/
theorem Runs.asks_eq (hN : m.Runs fuel p N) (hN' : m.Runs fuel p N') (h : N.Asks ref)
    (h' : N'.Asks ref') : ref' = ref := by
  cases Moment.single_raises.eq_of_runs hN hN' h.raises h'.raises
  obtain ⟨m₁, hlookup⟩ := h.lookup
  obtain ⟨m₂, hlookup'⟩ := h'.lookup
  exact hlookup.eq hlookup'

end Machine

/-- After a reference is found, the realm is closed. -/
theorem Realm.Fits.closed_of_lookup {A : Realm} {N : Moment} (hN : A.Fits N) {ref : Ref} {m : Machine}
    (h : N.LooksUp ref m) : A.Closed m := by
  cases h with
  | assign hvalue =>
    have hpart := hN.part .assignValue fun N' _ => A.preserves N'
    exact ((A.preserves _ hpart).of_ok hvalue).1
  | _ => exact hN.closed

/-- A function or class is declared where it was visited. -/
theorem World.Fits.names {W : World} {pending : Pending} {N : Moment} (hN : W.Fits pending N)
    {x : String} (h : N.Names x) : ∃ P, W.placed P ∧ P.Names x ∧
      W.Lodged N.machine.frames pending P.sites P.state.scopes N.machine.current := by
  have hsuits := hN.suits
  cases h with
  | function =>
    obtain ⟨⟨a, _, S, r⟩, hP, rfl, hlodged⟩ := hsuits
    exact ⟨_, hP, .function, hlodged⟩
  | «class» =>
    obtain ⟨⟨a, _, S, r⟩, hP, rfl, hlodged⟩ := hsuits
    exact ⟨_, hP, .class, hlodged⟩

/-! ## The other run -/

namespace Launch

variable {L : List Launch} {vs : List Value} {l : Launch} {s : Session}
variable {site : Site} {x y : String}

/-- What a scope has inside is from the program that has the place. -/
theorem Places.site_ids {P : Place} (h : l.Places P) {other : Site} (hother : other ∈ P.sites) {id : Nat}
    (hid : id ∈ other.ids) : id ∈ l.program.ids := by
  obtain ⟨Q, hQ, hpath⟩ := h
  induction hpath with
  | refl => cases hQ <;> cases hother
  | @tail P P' hpath hlast ih =>
    have hP : l.Places P := ⟨Q, hQ, hpath⟩
    rcases hlast.site_ids hother with hother | hinside
    · exact ih hother
    · exact hP.mem_ids (hinside id hid)

/-- The launch of the program in which the variable `x` in the scope of a site is called `y`. -/
noncomputable def renamed (l : Launch) (site : Site) (x y : String) : Launch :=
  { l with program := l.program.relabel (l.relabelling site x y) }

/-- The frames that the launch makes for the site. -/
def MakesFor (l : Launch) (site : Site) (f : FrameId) : Prop := ∃ N, l.Runs N ∧ N.Activates f site

/-- In the run, a reference to the variable `x` in the scope of a site asks for it, and it is not
there. -/
structure Misses (l : Launch) (site : Site) (x : String) (ref : Ref) : Prop where
  binds : l.Binds site ref
  word : ref.word.text = x
  asks : ∃ N, l.Runs N ∧ N.Asks ref

open Classical in
/-- The other run: in the frames that the launch makes for the site, the variable `x` is called
`y`. -/
noncomputable def Renames.mirror (h : l.Renames site x y) (hl : l.Follows s) : Mirror where
  toRelabelling := l.relabelling site x y
  frames f := if l.MakesFor site f then Equiv.swap x y else Equiv.refl String
  table := l.start.bindings
  asked ref := ∃ N, l.Runs N ∧ N.Asks ref
  this_eq f := by
    split
    · refine Equiv.swap_apply_of_ne_of_ne ?_ ?_
      · exact fun heq => this_not_free (heq ▸ h.declares.free hl)
      · exact fun heq => this_not_free (heq ▸ h.free)
    · rfl
  super_eq f := by
    split
    · refine Equiv.swap_apply_of_ne_of_ne ?_ ?_
      · exact fun heq => super_not_free (heq ▸ h.declares.free hl)
      · exact fun heq => super_not_free (heq ▸ h.free)
    · rfl

namespace Renames

section Before

variable (hs : Session.Hosts L vs s) (hl : l.Follows s) (h : l.Renames site x y)

include hs hl

/-- The references of the program are not those of an earlier one. -/
theorem not_mem_earlier {l' : Launch} (hl' : l' ∈ L) {id : Nat} (hid : id ∈ l'.program.ids) :
    id ∉ l.program.ids := fun hmem =>
  Nat.not_lt.mpr (hl.fresh id hmem) (hs.kept.below l' hl' id hid)

/-- What is known of the references of the program is what the resolver found. -/
theorem hops?_own {id : Nat} (hid : id ∈ l.program.ids) :
    l.start.bindings.hops? id = l.bindings.hops? id := by
  rw [Launch.hops?_start, hl.machine, hs.kept.unbound id (hl.fresh id hid), Option.or_none]

include h

omit hs in
/-- Frames that were there before keep their names. -/
theorem frames_of_lt {f : FrameId} (hf : f < s.machine.frames.count) :
    (h.mirror hl).frames f = Equiv.refl String := by
  refine if_neg fun hmakes => ?_
  obtain ⟨N, hN, hactivates⟩ := hmakes
  have hle : l.start.frames.count ≤ f := Machine.Runs.count_le hN hactivates
  rw [l.start_frames, hl.machine] at hle
  exact Nat.not_lt.mpr hle hf

/-- Global variables keep their names. -/
theorem frames_globals : (h.mirror hl).frames s.machine.globals = Equiv.refl String :=
  frames_of_lt hl h hs.kept.stands.globals_lt

/-- A frame has the names of the site that it was made for. -/
theorem frames_of_made {f : FrameId} {other : Site} (hmade : Made (L ++ [l]) f other) :
    (h.mirror hl).frames f = (l.relabelling site x y).names other := by
  have hactivated := hs.activated
  obtain ⟨P, -, hopens⟩ := h.declares.opened
  obtain ⟨l', hl', N, hN, hactivates⟩ := hmade
  rcases List.mem_append.mp hl' with hl' | hl'
  · -- It was there before, and so was its site.
    have hne : other ≠ site := by
      rintro rfl
      obtain ⟨id, hid, hmem⟩ := h.declares.exists_id hl
      have hlt := hactivated.spent l' hl' N f other hN hactivates P hopens id hid
      exact Nat.not_lt.mpr (hl.fresh id hmem) hlt
    rw [frames_of_lt hl h (hactivated.below l' hl' N f other hN hactivates),
      names_relabelling_of_ne hne]
  · cases List.mem_singleton.mp hl'
    by_cases heq : other = site
    · subst heq
      rw [names_relabelling_self]
      exact if_pos ⟨N, hN, hactivates⟩
    · rw [names_relabelling_of_ne heq]
      refine if_neg fun hmakes => heq ?_
      obtain ⟨N', hN', hactivates'⟩ := hmakes
      exact Machine.Runs.activates_eq hN' hN hactivates' hactivates hopens

/-- The labels of what was launched before stay. -/
theorem fixed_before : (Realm.ofLaunches L).Fixed (l.relabelling site x y) where
  code := by
    rintro t ⟨l', hl', hcontains⟩
    have hearlier {id : Nat} (hid : id ∈ t.ids) : id ∉ l.program.ids :=
      not_mem_earlier hs hl hl' (hcontains.ids hid)
    refine ⟨fun ref href => ?_, fun other hother => names_relabelling_of_ne ?_⟩
    · have hword := word_relabelling_of_not_binds (x := x) (y := y)
        fun hbinds : l.Binds site ref => hearlier href hbinds.mem_ids
      unfold Ref.relabel
      rw [hword]
      rfl
    · rintro rfl
      obtain ⟨id, hid, hmem⟩ := h.declares.exists_id hl
      exact hearlier (hother id hid) hmem
  self := h.lawful.self
  super := h.lawful.super

/-- The machine before the run is its own image. -/
theorem mirror_start : l.start.mirror (h.mirror hl) = l.start := by
  have hmachine := hl.machine
  have hfixed : l.start.Fixed (l.relabelling site x y) :=
    hs.labelled.start hmachine (fun _ hl' => hl') (fixed_before hs hl h)
  have hframes : l.start.frames.relabel (l.relabelling site x y) (h.mirror hl).frames =
      l.start.frames.relabel (l.relabelling site x y) fun _ => Equiv.refl String := by
    refine Frames.relabel_congr fun f hf => ?_
    unfold Launch.start at hf
    rw [hmachine] at hf
    exact frames_of_lt hl h hf
  have hsame : l.start.mirror (.labels (l.relabelling site x y) l.start.bindings) = l.start :=
    hfixed l.start.bindings
  have hmirror : l.start.mirror (h.mirror hl) =
      l.start.mirror (.labels (l.relabelling site x y) l.start.bindings) :=
    congrArg (fun frames => { l.start.mirror (.labels (l.relabelling site x y) l.start.bindings) with
      frames }) hframes
  rw [hmirror, hsame]

/-! ### Names at a place -/

/-- Where an earlier program is evaluated, the scope of the variable is not around. -/
theorem ne_of_earlier {l' : Launch} (hl' : l' ∈ L) {P : Place} (hP : l'.Places P) {other : Site}
    (hother : other ∈ P.sites) : other ≠ site := by
  rintro rfl
  obtain ⟨id, hid, hmem⟩ := h.declares.exists_id hl
  exact not_mem_earlier hs hl hl' (hP.site_ids hother hid) hmem

/-- The name by which a reference asks is what the variable is called in the frames of its
scope. -/
theorem names_of_found {P : Place} (hP : ∃ l' ∈ L ++ [l], l'.Places P) {ref : Ref}
    (hmentions : P.Mentions ref) {hops : Nat} {other : Site}
    (hbound : l.start.bindings.hops? ref.id = some hops) (hother : P.sites[hops]? = some other) :
    (l.relabelling site x y).names other ref.word.text = (l.relabelling site x y).word ref := by
  obtain ⟨l', hl', hP⟩ := hP
  rcases List.mem_append.mp hl' with hl' | hl'
  · have hbinds : ¬ l.Binds site ref := fun hbinds =>
      not_mem_earlier hs hl hl' (hP.mem_ids hmentions.mem_ids) hbinds.mem_ids
    have hne := ne_of_earlier hs hl h hl' hP (List.mem_of_getElem? hother)
    rw [names_relabelling_of_ne hne, word_relabelling_of_not_binds hbinds]
    rfl
  · cases List.mem_singleton.mp hl'
    rw [hops?_own hs hl (hP.mem_ids hmentions.mem_ids)] at hbound
    exact h.names_of_bound hl hP hmentions hbound hother

omit h in
/-- A reference that is not bound keeps its word. -/
theorem word_of_unbound {ref : Ref} (hnone : l.start.bindings.hops? ref.id = none) :
    (l.relabelling site x y).word ref = ref.word.text := by
  refine word_relabelling_of_not_binds fun hbinds => ?_
  rw [hops?_own hs hl hbinds.mem_ids] at hnone
  obtain ⟨P, hops, -, -, hbound, -⟩ := hbinds
  cases hnone.symm.trans hbound

/-- Functions and classes keep their names. -/
theorem keeps_name {P : Place} (hP : ∃ l' ∈ L ++ [l], l'.Places P) {z : String} (hz : P.Names z)
    {other : Site} {S : List Site} (hsites : P.sites = other :: S) :
    (l.relabelling site x y).names other z = z := by
  obtain ⟨l', hl', hP⟩ := hP
  rcases List.mem_append.mp hl' with hl' | hl'
  · have hne := ne_of_earlier hs hl h hl' hP (hsites ▸ List.mem_cons_self)
    rw [names_relabelling_of_ne hne]
    rfl
  · cases List.mem_singleton.mp hl'
    have hkeeps := h.keeps hl hP hz
    rwa [hsites] at hkeeps

/-! ### Moments -/

omit h in
/-- Variables that are not bound are looked for in the global frame. -/
theorem root_of_lookup {N : Moment} (hN : l.Runs N) {ref : Ref} {m : Machine}
    (hm : N.LooksUp ref m) : m.frames.root m.globals = s.machine.globals := by
  have hstart := hs.bound.closed_start hl.machine fun _ hl' => List.mem_append_left [l] hl'
  have hfits := hstart.fits_run (Realm.admits_ofLaunches (by simp)) hN
  have hclosed := hfits.closed_of_lookup hm
  rw [hclosed.root_eq hclosed.globals_lt, hclosed.globals_eq]
  have hglobals : l.start.globals = 0 := hstart.globals_eq
  unfold Launch.start at hglobals
  rw [hl.machine] at hglobals
  exact hglobals.symm

/-- **The labels of the other run fit together at every moment.** -/
theorem conforms {N : Moment} (hN : l.Runs N) : N.Conforms (h.mirror hl) where
  knows ref m hm := by
    obtain ⟨P, hP, hphrase, hmentions, hlodged, hbindings⟩ := (hs.kept.fits hl hN).lookup hm
    have htable : m.bindings = l.start.bindings := hbindings
    refine ⟨congrArg (·.hops? ref.id) htable.symm, fun hops f hbound hf => ?_, fun hnone => ?_⟩
    · obtain ⟨other, f', hfinds⟩ := hs.kept.finds hl hP hphrase hmentions hlodged hbindings hbound
      obtain rfl : f' = f := Option.some.inj (hfinds.outward.symm.trans hf)
      rw [htable] at hbound
      rw [frames_of_made hs hl h hfinds.made]
      exact names_of_found hs hl h hfinds.placed hmentions hbound hfinds.siteOf
    · rw [htable] at hnone
      rw [root_of_lookup hs hl hN hm, frames_globals hs hl h]
      exact (word_of_unbound hs hl hnone).symm
  asks ref hasks := ⟨N, hN, hasks⟩
  frame f other hactivates := by
    refine frames_of_made hs hl h ⟨l, ?_, N, hN, hactivates⟩
    exact List.mem_append_right _ (List.mem_singleton_self l)
  keeps z hz := by
    obtain ⟨P, hP, hnames, hlodged⟩ := (hs.kept.fits hl hN).names hz
    cases hsites : P.sites with
    | nil =>
      rw [hsites] at hlodged
      cases hscopes : P.state.scopes with
      | nil =>
        rw [hscopes] at hlodged
        have hcurrent : N.machine.current = l.machine.globals := hlodged
        rw [hcurrent, hl.machine, frames_globals hs hl h]
        rfl
      | cons scope scopes =>
        rw [hscopes] at hlodged
        exact hlodged.elim
    | cons other S =>
      rw [hsites] at hlodged
      cases hscopes : P.state.scopes with
      | nil =>
        rw [hscopes] at hlodged
        exact hlodged.elim
      | cons scope scopes =>
        rw [hscopes] at hlodged
        rw [frames_of_made hs hl h (hs.kept.made hl hlodged.made)]
        exact keeps_name hs hl h hP hnames hsites

/-! ### Runs -/

/-- The program with the other name, and all else that is needed to run it. -/
theorem run_eq : ∃ outcome, (h.mirror hl).Ends l.run.1 outcome ∧
    (l.renamed site x y).run = (outcome, l.run.2.mirror (h.mirror hl)) := by
  have hglobal : (h.mirror hl).frames l.start.globals = Equiv.refl String := by
    have hglobals : l.start.globals = s.machine.globals := congrArg (·.globals) hl.machine
    rw [hglobals, frames_globals hs hl h]
  obtain ⟨outcome, hends, hrun⟩ := Machine.run_mirror hglobal fun N hN => conforms hs hl h hN
  rw [mirror_start hs hl h] at hrun
  exact ⟨outcome, hends, hrun⟩

/-- If the variable is missing, both runs fail for want of it, each by its name. -/
theorem fails_of_misses {ref : Ref} (hmisses : l.Misses site x ref) :
    l.run.1 = .failed (Frames.undefined ref.word) ∧
      (l.renamed site x y).run.1 = .failed (Frames.undefined ⟨y, ref.word.line⟩) := by
  obtain ⟨N, hN, hasks⟩ := hmisses.asks
  obtain ⟨outcome, hends, hrun⟩ := run_eq hs hl h
  have hfails : l.run.1 = .failed (Frames.undefined ref.word) := Machine.Runs.run_of_asks hN hasks
  have hword : ref.relabel (l.relabelling site x y) = ⟨ref.id, ⟨y, ref.word.line⟩⟩ := by
    unfold Ref.relabel
    rw [word_relabelling_of_binds hmisses.binds hmisses.word]
    rfl
  rw [hrun]
  refine ⟨hfails, ?_⟩
  rw [hfails] at hends
  generalize hundefined : Frames.undefined ref.word = e at hends
  cases hends with
  | failed hstops =>
    cases hstops with
    | same hother =>
      subst hundefined
      exact absurd rfl (hother ref.word.text)
    | undefined hasked =>
      obtain ⟨N', hN', hasks'⟩ := hasked
      cases Machine.Runs.asks_eq hN hN' hasks hasks'
      exact congrArg (fun ref' : Ref => Outcome.failed (Frames.undefined ref'.word)) hword

/-- If the variable is never missing, both runs end in the same way. -/
theorem run_of_no_misses (hnone : ∀ ref, ¬ l.Misses site x ref) :
    (l.renamed site x y).run.1 = l.run.1.relabel (l.relabelling site x y) := by
  obtain ⟨outcome, hends, hrun⟩ := run_eq hs hl h
  rw [hrun]
  generalize l.run.1 = first at hends
  cases hends with
  | finished v => rfl
  | unfinished => rfl
  | failed hstops =>
    cases hstops with
    | same => rfl
    | @undefined ref hasked =>
      have hother : ¬ (l.Binds site ref ∧ ref.word.text = x) := fun hmissed =>
        hnone ref ⟨hmissed.1, hmissed.2, hasked⟩
      have hword : (l.relabelling site x y).word ref = ref.word.text := if_neg hother
      have hsame : ref.relabel (l.relabelling site x y) = ref := by
        unfold Ref.relabel
        rw [hword]
        rfl
      exact congrArg (fun ref' : Ref => Outcome.failed (Frames.undefined ref'.word)) hsame

end Before

end Renames

end Launch

open Launch in
/-- **Names of local variables do not matter.** Let a text be accepted in a session that a host has
come to, and let a variable or parameter `x` be declared somewhere in its program, in the scope of a
site. Let `y` be no keyword and occur nowhere in the program. In the other program the variable is
called `y` where it is declared, and so are the references that are bound to it. Then

* the scope is opened at one place of the program and has one declaration of `x`,
* the other program is accepted as well, with the same bindings,
* its run in the session prints the same,
* and it ends in the same way, with the same value up to the bodies of functions and with the same
  error,
* but if a reference asks for the variable itself and it is not there, both runs fail for that, and
  the error names `y` instead of `x`. -/
theorem local_names_do_not_matter {L : List Launch} {vs : List Value} {s : Session}
    (hs : Session.Hosted L vs s) {fuel : Nat} {source : String} {mode : Mode} {l : Launch}
    (hlaunch : s.launch? fuel source mode = some l) {P : Place} (hP : l.Places P) {site : Site}
    {x : String} (hdeclared : DeclaredAt P site x) {y : String} (hfree : IsFree y)
    (hnew : .identifier y ∉ l.program.words) :
    let R := l.relabelling site x y
    let first := s.run fuel source mode
    let again := (s.parse source mode).2.runProgram fuel (l.program.relabel R)
    (∃! P, l.Places P ∧ P.Opens site) ∧ site.varNames.count x = 1 ∧
      (l.program.relabel R).resolve s.machine.globalNames = .ok l.bindings ∧
      again.2.machine.printed = first.2.machine.printed ∧
      (∀ ref, l.Misses site x ref → first.1 = .failed (Frames.undefined ref.word) ∧
        again.1 = .failed (Frames.undefined ⟨y, ref.word.line⟩)) ∧
      ((∀ ref, ¬ l.Misses site x ref) → again.1 = first.1.relabel R) := by
  have hhosts := hs.hosts
  have hl := Session.follows_of_launch hlaunch
  have hlocal := hdeclared.declares hP
  have h : l.Renames site x y := ⟨hlocal, hfree, hnew⟩
  have hresolve := h.resolve hl
  have hmachine := hl.machine
  have hfuel : l.fuel = fuel := Session.fuel_of_launch hlaunch
  obtain ⟨outcome, -, hrun⟩ := Renames.run_eq hhosts hl h
  have hfirst := Session.run_of_launch hlaunch
  have hagain : (s.parse source mode).2.runProgram fuel (l.program.relabel (l.relabelling site x y)) =
      ((l.renamed site x y).run.1, ⟨(l.renamed site x y).run.2, (s.parse source mode).2.nextRef⟩) := by
    unfold Session.runProgram
    rw [Session.parse_machine, ← hmachine, hresolve, ← hfuel]
    rfl
  intro R first again
  have hfirst' : first = _ := hfirst
  have hagain' : again = _ := hagain
  rw [hfirst', hagain', ← hmachine]
  refine ⟨?_, ?_, hresolve, ?_, fun ref hmisses => Renames.fails_of_misses hhosts hl h hmisses,
    Renames.run_of_no_misses hhosts hl h⟩
  · obtain ⟨P, hP, hopens⟩ := hlocal.opened
    refine ⟨P, ⟨hP, hopens⟩, fun P' hP' => ?_⟩
    exact hP.opens_eq hl hP'.1 hopens hP'.2 (hlocal.ids_ne_nil hl)
  · have hdistinct := (List.nodup_append'.mp (hlocal.proper hl).distinct).1
    exact List.count_eq_one_of_mem hdistinct hlocal.declared
  · rw [hrun]
    rfl

/-- A variable of a block, under another name. -/
theorem block_local_renamed : ∃ l P site,
    Session.start.launch? 20 "{var a;print a;}" .script = some l ∧ l.Places P ∧
      Launch.DeclaredAt P site "a" ∧ IsFree "b" ∧ .identifier "b" ∉ l.program.words ∧
      l.program.relabel (l.relabelling site "a" "b") =
        ⟨[.block [.vars [⟨⟨"b", 1⟩, none⟩], .print (.variable ⟨0, ⟨"b", 1⟩⟩)]], none⟩ ∧
      let again := (Session.start.parse "{var a;print a;}" .script).2.runProgram 20
        (l.program.relabel (l.relabelling site "a" "b"))
      again.1 = .finished none ∧ again.2.machine.printed.contents = "nil\n" := by
  let ref : Ref := ⟨0, ⟨"a", 1⟩⟩
  let body : List Stmt := [.vars [⟨⟨"a", 1⟩, none⟩], .print (.variable ref)]
  let l : Launch := ⟨.start, (∅ : Bindings).bind 0 0, 20, ⟨[.block body], none⟩⟩
  have hlaunch : Session.start.launch? 20 "{var a;print a;}" .script = some l := rfl
  have hbody : l.Places ⟨{}, .statements body, [.block body], (Scoping.Resolution.start ["clock"]).enter⟩ :=
    (Launch.Root.statements.places.visits .head).visits .block
  have hplace := (hbody.visits .head).visits .declared
  have hdeclared : Launch.DeclaredAt ⟨{}, .declarators [⟨⟨"a", 1⟩, none⟩], [.block body],
      (Scoping.Resolution.start ["clock"]).enter⟩ (.block body) "a" := .declarator
  have hbinds : l.Binds (.block body) ref :=
    ⟨_, 0, ((hbody.visits .tail).visits .head).visits .printed, .variable, rfl, rfl⟩
  have hfree : IsFree "b" := by decide
  have hnew : .identifier "b" ∉ l.program.words := by decide
  have hnames : (l.relabelling (.block body) "a" "b").names (.block body) = Equiv.swap "a" "b" :=
    Launch.names_relabelling_self
  have hword : (l.relabelling (.block body) "a" "b").word ref = "b" :=
    Launch.word_relabelling_of_binds hbinds rfl
  have hprogram : l.program.relabel (l.relabelling (.block body) "a" "b") =
      ⟨[.block [.vars [⟨⟨"b", 1⟩, none⟩], .print (.variable ⟨0, ⟨"b", 1⟩⟩)]], none⟩ := by
    have hlocal : Lexeme.rename (Equiv.swap "a" "b") ⟨"a", 1⟩ = ⟨"b", 1⟩ := by
      unfold Lexeme.rename
      rw [Equiv.swap_apply_left]
    have hvariable : ref.relabel (l.relabelling (.block body) "a" "b") = ⟨0, ⟨"b", 1⟩⟩ := by
      unfold Ref.relabel
      rw [hword]
      rfl
    simp only [Program.relabel, l, body, Stmt.relabelAll, Stmt.relabel, Declarator.relabelAll,
      Expr.relabel]
    rw [hvariable, hnames, hlocal]
    rfl
  have hfirst : (Session.start.run 20 "{var a;print a;}" .script).1 = .finished none := by cbv
  have hnil : (Session.start.run 20 "{var a;print a;}" .script).2.machine.printed.contents =
      "nil\n" := by cbv
  obtain ⟨-, -, -, hprinted, hmisses, hends⟩ :=
    local_names_do_not_matter (.start _ _) hlaunch hplace hdeclared hfree hnew
  have hnone (ref' : Ref) : ¬ l.Misses (.block body) "a" ref' := fun hmissed => by
    cases hfirst.symm.trans (hmisses ref' hmissed).1
  refine ⟨l, _, _, hlaunch, hplace, hdeclared, hfree, hnew, hprogram, ?_, ?_⟩
  · rw [hends hnone, hfirst]
    rfl
  · rw [hprinted, hnil]

end ScriptLang
