import ScriptLang.Proofs.Sessions.History

/-!
# References find their scopes

The resolver says of a reference how many scopes out its name is declared. When the reference
is looked up, the frame that many links outward is the one that was made for that very scope,
and it has the name. The one exception is a variable whose initializer, in that frame, has not
come to its end: it may be running around the look-up, or have been given up in an earlier run.

`bound_reference_finds_scope` states this for every look-up in every run of every session that
can be reached. What a look-up is, is said by `Moment.LooksUp`, and what it finds, by
`Launch.Finds`.
-/

namespace ScriptLang

open Scoping (Place Site Phrase)

/-! ## What is found -/

namespace Launch

/-- The variables whose initializers have not come to their ends at a moment of a launch: they run
around it, or were given up in an earlier run. -/
def Unfinished (L : List Launch) (l : Launch) (N : Moment) : Pending := fun f x =>
  Aborted L f x ∨ l.Running N f x

/-- A frame was made for a site in the course of the launches. -/
def Made (L : List Launch) (frame : FrameId) (site : Site) : Prop :=
  ∃ l ∈ L, ∃ M, l.Runs M ∧ M.Activates frame site

/-- What the look-up of a reference, bound so many scopes out, has to do with the place where it
was bound. -/
structure Finds (L : List Launch) (l : Launch) (N : Moment) (ref : Ref) (m : Machine)
    (hops : Nat) (P : Place) (site : Site) (f : FrameId) : Prop where
  /-- The place is that of the node that is evaluated, in one of the programs. -/
  placed : ∃ l' ∈ L ++ [l], l'.Places P
  phrase : N.task.phrase? = some P.phrase
  mentions : P.Mentions ref
  /-- It is there that the reference is bound, to a scope that declares its name. -/
  unbound : P.state.bindings.hops? ref.id = none
  bound : P.after.bindings.hops? ref.id = some hops
  declared : ∃ scope, P.state.scopes[hops]? = some scope ∧ scope.contains ref.word.text
  siteOf : P.sites[hops]? = some site
  inside : ref.id ∈ site.ids
  /-- The frame is that many links outward, and was made for the scope. -/
  outward : m.frames.ancestor? hops m.current = some f
  made : Made (L ++ [l]) f site
  /-- It has the name, unless an initializer has not come to its end. -/
  named : (m.frames.here? f ref.word.text).isSome ∨ Unfinished L l N f ref.word.text
  read : ∀ stop m', Eval.readVariable ref m = .error stop m' → Unfinished L l N f ref.word.text
  assign : ∀ v stop m', Eval.assignVariable ref v m = .error stop m' →
    Unfinished L l N f ref.word.text

/-- What the look-up of a method of the superclass finds: the superclass, and `this` in the
frame just inside the one with `super`. -/
structure FindsSuper (L : List Launch) (l : Launch) (ref : Ref) (method : Lexeme) (m : Machine)
    (hops : Nat) (P : Place) (site : Site) (f : FrameId) : Prop where
  superclass : ∃ c, m.frames.here? f "super" = some (.callable (.class c)) ∧
    ∀ stop m', Eval.superMethod ref method m = .error stop m' → c.findMethod method.text = none
  this : ∃ members inner j, hops = j + 1 ∧ site = .super members ∧
    P.sites[j]? = some (.self members) ∧ m.frames.ancestor? j m.current = some inner ∧
    Made (L ++ [l]) inner (.self members) ∧ (m.frames.here? inner "this").isSome

end Launch

/-! ## Failing look-ups -/

section Failing

variable {ref : Ref} {m m' : Machine} {hops : Nat} {f : FrameId} {stop : Abort}

theorem here?_none_of_read (hbound : m.bindings.hops? ref.id = some hops)
    (hf : m.frames.ancestor? hops m.current = some f)
    (h : Eval.readVariable ref m = .error stop m') : m.frames.here? f ref.word.text = none := by
  unfold Eval.readVariable at h
  rw [hbound] at h
  dsimp only at h
  unfold Frames.getAt Frames.nameAt? at h
  rw [hf] at h
  dsimp only at h
  cases hhere : m.frames.here? f ref.word.text with
  | none => rfl
  | some v =>
    rw [hhere] at h
    cases h

theorem here?_none_of_assign {v : Value} (hbound : m.bindings.hops? ref.id = some hops)
    (hf : m.frames.ancestor? hops m.current = some f)
    (h : Eval.assignVariable ref v m = .error stop m') :
    m.frames.here? f ref.word.text = none := by
  unfold Eval.assignVariable at h
  rw [hbound] at h
  dsimp only at h
  unfold Frames.assignAt at h
  rw [hf] at h
  dsimp only at h
  cases hhere : m.frames.here? f ref.word.text with
  | none => rfl
  | some w =>
    rw [hhere] at h
    cases h

theorem findMethod_none_of_super {method : Lexeme} {c : Class}
    (hbound : m.bindings.hops? ref.id = some hops)
    (hf : m.frames.ancestor? hops m.current = some f)
    (hc : m.frames.here? f "super" = some (.callable (.class c)))
    (h : Eval.superMethod ref method m = .error stop m') : c.findMethod method.text = none := by
  have hname : m.frames.nameAt? hops m.current "super" = some (.callable (.class c)) := by
    unfold Frames.nameAt?
    rw [hf]
    exact hc
  unfold Eval.superMethod at h
  rw [hbound] at h
  dsimp only at h
  rw [hname] at h
  dsimp only at h
  cases hmethod : c.findMethod method.text with
  | none => rfl
  | some g =>
    rw [hmethod] at h
    cases h

end Failing

/-! ## Agreement -/

namespace Session.Kept

variable {L : List Launch} {l : Launch} {s : Session} {N : Moment} {ref : Ref} {m : Machine}
variable {hops : Nat} {P : Place}

/-- Only variables have initializers, and no variable is named by a keyword. -/
theorem free_of_unfinished (h : Session.Kept L s) (hl : l.Follows s) {f : FrameId} {x : String}
    (hx : Launch.Unfinished L l N f x) : IsFree x := by
  rcases hx with hx | ⟨N', I, hN', hinit, -⟩
  · exact h.free f x hx
  · exact (h.fits hl hN').free hinit

theorem made (h : Session.Kept L s) (hl : l.Follows s) {f : FrameId} {site : Site}
    (hmade : (h.next hl).Made f site) : Launch.Made (L ++ [l]) f site := by
  obtain ⟨M, ⟨l', hl', hM⟩, hactivates⟩ := hmade
  exact ⟨l', hl', M, hM, hactivates⟩

theorem finds (h : Session.Kept L s) (hl : l.Follows s) (hP : (h.next hl).placed P)
    (hphrase : N.task.phrase? = some P.phrase) (hmentions : P.Mentions ref)
    (hlodged : (h.next hl).Lodged m.frames (Launch.Unfinished L l N) P.sites P.state.scopes
      m.current)
    (hbindings : m.bindings = (h.next hl).table) (hbound : m.bindings.hops? ref.id = some hops) :
    ∃ site f, Launch.Finds L l N ref m hops P site f := by
  have hsound := (h.next hl).sound hP
  have htable : (h.next hl).table.hops? ref.id = some hops := hbindings ▸ hbound
  have hid := hmentions.mem_ids
  obtain ⟨scope, hscope, hname⟩ := hsound.binds hmentions htable
  obtain ⟨f, site, hf, hsite, hmade, hnames⟩ := hlodged.ancestor hscope
  have hfails (hnone : m.frames.here? f ref.word.text = none) :
      Launch.Unfinished L l N f ref.word.text := by
    rcases hnames _ hname with hsome | hunfinished
    · rw [hnone] at hsome
      cases hsome
    · exact hunfinished
  exact ⟨site, f, {
    placed := hP, phrase := hphrase, mentions := hmentions
    unbound := hsound.unbound _ hid
    bound := (hsound.agrees _ hid).symm.trans htable
    declared := ⟨scope, hscope, hname⟩
    siteOf := hsite
    inside := hsound.inside site (List.mem_of_getElem? hsite) _ hid
    outward := hf
    made := h.made hl hmade
    named := hnames _ hname
    read := fun _ _ hread => hfails (here?_none_of_read hbound hf hread)
    assign := fun _ _ _ hassign => hfails (here?_none_of_assign hbound hf hassign) }⟩

/-- Where `super` is found, `this` is found just inside. -/
theorem findsSuper (h : Session.Kept L s) (hl : l.Follows s) {method : Lexeme} {site : Site}
    {f : FrameId} (hP : (h.next hl).placed P) (hphrase : P.phrase = .expression (.super ref method))
    (hlodged : (h.next hl).Lodged m.frames (Launch.Unfinished L l N) P.sites P.state.scopes
      m.current)
    (hstands : (h.next hl).Stands (Launch.Unfinished L l N) m)
    (hbound : m.bindings.hops? ref.id = some hops) (hfinds : Launch.Finds L l N ref m hops P site f) :
    Launch.FindsSuper L l ref method m hops P site f := by
  have hsound := (h.next hl).sound hP
  have hword : ref.word.text = "super" := by
    have hwf := hsound.wellFormed
    rw [hphrase] at hwf
    exact hwf
  have hkeyword {g : FrameId} {x : String} (hx : ¬ IsFree x)
      (hnamed : (m.frames.here? g x).isSome ∨ Launch.Unfinished L l N g x) :
      (m.frames.here? g x).isSome :=
    hnamed.resolve_right fun hunfinished => hx (h.free_of_unfinished hl hunfinished)
  obtain ⟨scope, hscope, hname⟩ := hfinds.declared
  rw [hword] at hname
  obtain ⟨j, members, this, rfl, hsuper, hself, hthis, hcontains⟩ := hsound.shaped.super_at hscope hname
  obtain ⟨inner, innerSite, hinner, hinnerSite, hmade, hnames⟩ := hlodged.ancestor hthis
  have hsite : site = .super members := Option.some.inj (hfinds.siteOf.symm.trans hsuper)
  have hinnerSelf : innerSite = .self members := Option.some.inj (hinnerSite.symm.trans hself)
  have hnamed := hfinds.named
  rw [hword] at hnamed
  obtain ⟨v, hv⟩ := Option.isSome_iff_exists.mp (hkeyword super_not_free hnamed)
  obtain ⟨c, rfl⟩ := hstands.supers f v hv
  refine ⟨⟨c, hv, fun _ _ herror => findMethod_none_of_super hbound hfinds.outward hv herror⟩,
    members, inner, j, rfl, hsite, hself, hinner, ?_, hkeyword this_not_free (hnames _ hcontains)⟩
  rw [← hinnerSelf]
  exact h.made hl hmade

end Session.Kept

/-- **A bound reference finds its scope.** At every look-up in a run of a session that was reached
by earlier runs, a reference that is bound so many scopes out was bound at a place of one of the
programs, to a scope that declares its name; the frame that many links outward was made for
that scope, and it has the name, unless an initializer of it has not come to its end. So reading
and assigning fail in no other case. `this` is always there, and so are `super`, which holds a
class, and the `this` inside it. -/
theorem bound_reference_finds_scope {L : List Launch} {s : Session} (hs : Session.Reached L s)
    {fuel : Nat} {source : String} {mode : Mode} {l : Launch}
    (hlaunch : s.launch? fuel source mode = some l) {N : Moment} (hN : l.Runs N) {ref : Ref}
    {m : Machine} (hlookup : N.LooksUp ref m) {hops : Nat}
    (hbound : m.bindings.hops? ref.id = some hops) :
    ∃ P site f, Launch.Finds L l N ref m hops P site f ∧
      (N.task = .expression (.this ref) → (m.frames.here? f "this").isSome) ∧
      ∀ method, N.task = .expression (.super ref method) →
        Launch.FindsSuper L l ref method m hops P site f := by
  have hl := Session.follows_of_launch hlaunch
  have hfits := hs.kept.fits hl hN
  obtain ⟨P, hP, hphrase, hmentions, hlodged, hbindings⟩ := hfits.lookup hlookup
  obtain ⟨site, f, hfinds⟩ := hs.kept.finds hl hP hphrase hmentions hlodged hbindings hbound
  refine ⟨P, site, f, hfinds, fun htask => ?_, fun method htask => ?_⟩
  · rw [htask] at hphrase
    have hwf := ((hs.kept.next hl).sound hP).wellFormed
    rw [← Option.some.inj hphrase] at hwf
    have hword : ref.word.text = "this" := hwf
    have hnamed := hfinds.named
    rw [hword] at hnamed
    exact hnamed.resolve_right fun hunfinished =>
      this_not_free (hs.kept.free_of_unfinished hl hunfinished)
  · rw [htask] at hphrase
    have hstands : (hs.kept.next hl).Stands (Launch.Unfinished L l N) m := by
      cases hlookup <;> cases htask
      exact hfits.stands
    exact hs.kept.findsSuper hl hP (Option.some.inj hphrase).symm hlodged hstands hbound hfinds

/-- A variable of a block, read in the block. -/
theorem block_local_is_found : ∃ l N m P site f,
    Session.start.launch? 20 "{var a;a;}" .script = some l ∧ l.Runs N ∧
      N.LooksUp ⟨0, ⟨"a", 1⟩⟩ m ∧ Launch.Finds [] l N ⟨0, ⟨"a", 1⟩⟩ m 0 P site f := by
  let ref : Ref := ⟨0, ⟨"a", 1⟩⟩
  let p : Program := ⟨[.block [.vars [⟨⟨"a", 1⟩, none⟩], .expression (.variable ref)]], none⟩
  let l : Launch := ⟨.start, (∅ : Bindings).bind 0 0, 20, p⟩
  let m : Machine := l.start.home.inBlock.defining "a" .nil
  have hlaunch : Session.start.launch? 20 "{var a;a;}" .script = some l := rfl
  have hN : l.Runs ⟨20, .expression (.variable ref), m⟩ := by
    have hstart : l.Runs ⟨20, .topLevel p.statements, l.start.home⟩ :=
      Machine.Starts.statements.runs
    have hbody := (hstart.part .topHead).part .block
    have hdeclared : Eval.statement (.ofFuel 20) (.vars [⟨⟨"a", 1⟩, none⟩])
        l.start.home.inBlock = .ok .normal m := rfl
    have htail := hbody.part (.tail hdeclared)
    exact (htail.part .head).part .evaluated
  have hbound : m.bindings.hops? 0 = some 0 := rfl
  obtain ⟨P, site, f, hfinds, -⟩ :=
    bound_reference_finds_scope (.start _ _) hlaunch hN .variable hbound
  exact ⟨l, _, m, P, site, f, hlaunch, hN, .variable, hfinds⟩

end ScriptLang
