import ScriptLang.Proofs.Evaluation.Steps

/-!
# Operations touch one slot

Frames are shared: many handles reach one frame, each by a number of links of its own. So what an
assignment through one handle does has to be said for all of them. It gives a new value to one name
of one frame, in which the name was, and that is all (`Frames.assigns_of_assignAt`).

There are three ways outward, and in the stores that can be built by making frames and changing what
they hold (`Frames.Built`) they agree on what the chain of a frame is. The way to the outermost frame
is the way by the number of links to it (`Frames.Built.exists_links`), and the nearest frame with a
name is that of the least number of links at which there is one (`Frames.Built.lookupFrom_cases`).
Both hold because a frame is enclosed by one that was made earlier, so that no chain is longer than
the number of its first frame.
-/

namespace ScriptLang.Frames

/-! ## Stores -/

/-- The stores that come of an empty one by making frames, alone or in another one, and by giving
names values in them and taking all names out of them. -/
inductive Built : Frames → Prop
  | empty : Built .empty
  | new {fs : Frames} (h : Built fs) : Built (fs.push none)
  | enclosed {fs : Frames} (h : Built fs) {e : FrameId} (he : e < fs.count) : Built (fs.push (some e))
  | define {fs : Frames} (h : Built fs) (f : FrameId) (name : String) (v : Value) :
    Built (fs.define f name v)
  | assignAt {fs fs' : Frames} (h : Built fs) {hops : Nat} {f : FrameId} {word : Lexeme} {v : Value}
    (hassign : fs.assignAt hops f word v = .ok fs') : Built fs'
  | assignGlobal {fs fs' : Frames} (h : Built fs) {f : FrameId} {word : Lexeme} {v : Value}
    (hassign : fs.assignGlobal f word v = .ok fs') : Built fs'
  | clear {fs : Frames} (h : Built fs) (f : FrameId) : Built (fs.clear f)

/-- Every frame is enclosed by none or by one that was made before it. -/
def Ordered (fs : Frames) : Prop := ∀ f g, fs.outward? f = some g → g < f

section Ordered

variable {fs : Frames}

theorem Ordered.push (h : fs.Ordered) {e : Option FrameId} (he : ∀ g, e = some g → g < fs.count) :
    (fs.push e).Ordered := by
  intro f g hg
  have hf := lt_count_of_outward? hg
  rw [count_push] at hf
  rcases Nat.lt_succ_iff_lt_or_eq.mp hf with hf | rfl
  · rw [outward?_push_of_lt hf] at hg
    exact h f g hg
  · have hself : (fs.push e).outward? fs.count = e := outward?_push_self fs e
    exact he g (hself.symm.trans hg)

theorem Ordered.change (h : fs.Ordered) (f : FrameId) (write : Slots Value → Slots Value) :
    (fs.change f write).Ordered := fun g g' hg => h g g' (by rwa [outward?_change] at hg)

theorem Ordered.assignAt (h : fs.Ordered) {fs' : Frames} {hops : Nat} {f : FrameId} {word : Lexeme}
    {v : Value} (hassign : fs.assignAt hops f word v = .ok fs') : fs'.Ordered := by
  obtain ⟨g, -, -, rfl⟩ := assignAt_eq_ok hassign
  exact h.change g _

theorem Built.ordered (h : fs.Built) : fs.Ordered := by
  induction h with
  | empty =>
    intro f g hg
    cases lt_count_of_outward? hg
  | new _ ih => exact ih.push nofun
  | enclosed _ he ih => exact ih.push fun g hg => Option.some.inj hg ▸ he
  | define _ f name v ih => exact ih.change f _
  | assignAt _ hassign ih => exact ih.assignAt hassign
  | assignGlobal _ hassign ih => exact ih.assignAt hassign
  | clear _ f ih => exact ih.change f _

end Ordered

/-! ## Assignments -/

/-- The second store is the first one with a new value for a name of a frame, which was there.
Whoever reaches the frame finds the new value, and nothing else has changed. -/
structure Assigns (fs : Frames) (g : FrameId) (name : String) (v : Value) (fs' : Frames) : Prop where
  before : (fs.here? g name).isSome
  count : fs'.count = fs.count
  outward : ∀ f, fs'.outward? f = fs.outward? f
  names : ∀ f, fs'.names f = fs.names f
  reached : ∀ hops f, fs.ancestor? hops f = some g → fs'.nameAt? hops f name = some v
  others : ∀ f x, f ≠ g ∨ x ≠ name → fs'.here? f x = fs.here? f x
  elsewhere : ∀ hops f x, fs.ancestor? hops f ≠ some g ∨ x ≠ name →
    fs'.nameAt? hops f x = fs.nameAt? hops f x

section Assignments

variable {fs fs' : Frames} {hops : Nat} {f g : FrameId} {word : Lexeme} {v : Value}

theorem ancestor?_congr (h : ∀ f, fs'.outward? f = fs.outward? f) (hops : Nat) (f : FrameId) :
    fs'.ancestor? hops f = fs.ancestor? hops f := by
  induction hops generalizing f with
  | zero => rfl
  | succ hops ih =>
    rw [ancestor?, ancestor?, h]
    cases fs.outward? f with
    | none => rfl
    | some g => exact ih g

/-- A name that is there already keeps its place among the names. -/
theorem names_define_of_mem {name : String} (h : (fs.here? g name).isSome) (f : FrameId) :
    (fs.define g name v).names f = fs.names f := by
  by_cases hf : f = g
  · subst hf
    unfold here? at h
    unfold names define
    rw [frame?_change, if_pos rfl]
    cases hframe : fs.frame? f with
    | none => rfl
    | some frame =>
      rw [hframe] at h
      exact Slots.names_set_of_mem (Slots.mem_names_iff.mpr h)
  · unfold names
    rw [frame?_define_of_ne hf]

theorem assigns_define {name : String} (h : (fs.here? g name).isSome) (v : Value) :
    fs.Assigns g name v (fs.define g name v) := by
  obtain ⟨w, hw⟩ := Option.isSome_iff_exists.mp h
  have hlt := lt_count_of_here? hw
  have hlinks (f : FrameId) : (fs.define g name v).outward? f = fs.outward? f := outward?_define ..
  have hothers (f : FrameId) (x : String) (hne : f ≠ g ∨ x ≠ name) :
      (fs.define g name v).here? f x = fs.here? f x := by
    rw [here?_define, if_neg]
    rintro ⟨hf, hx, -⟩
    exact hne.elim (· hf) (· hx)
  refine ⟨h, count_define .., hlinks, names_define_of_mem h, fun hops f hf => ?_, hothers,
    fun hops f x hne => ?_⟩
  · rw [← ancestor?_congr hlinks] at hf
    rw [nameAt?_of_ancestor? hf, here?_define_self hlt]
  · unfold nameAt?
    rw [ancestor?_congr hlinks]
    cases hf : fs.ancestor? hops f with
    | none => rfl
    | some g' => exact hothers g' x (hne.imp_left fun hne hg => hne (hf.trans (congrArg some hg)))

/-- **An assignment that succeeds has a single effect.** -/
theorem assigns_of_assignAt (h : fs.assignAt hops f word v = .ok fs') :
    ∃ g, fs.ancestor? hops f = some g ∧ fs.Assigns g word.text v fs' := by
  obtain ⟨g, hg, hhere, rfl⟩ := assignAt_eq_ok h
  exact ⟨g, hg, assigns_define hhere v⟩

/-- Reading and assigning succeed in the same cases, and blame the same word in all others. -/
theorem assignAt_cases (fs : Frames) (hops : Nat) (f : FrameId) (word : Lexeme) (v : Value) :
    (∃ u fs', fs.getAt hops f word = .ok u ∧ fs.assignAt hops f word v = .ok fs') ∨
      (fs.getAt hops f word = .error (undefined word) ∧
        fs.assignAt hops f word v = .error (undefined word)) := by
  unfold getAt assignAt nameAt?
  cases fs.ancestor? hops f with
  | none => exact .inr ⟨rfl, rfl⟩
  | some g =>
    dsimp only
    cases fs.here? g word.text with
    | none => exact .inr ⟨rfl, rfl⟩
    | some u => exact .inl ⟨u, _, rfl, rfl⟩

end Assignments

/-! ## Chains -/

/-- The number of links from a frame to the outermost one around it. -/
structure Links (fs : Frames) (f : FrameId) (hops : Nat) : Prop where
  root : fs.ancestor? hops f = some (fs.root f)
  outermost : fs.outward? (fs.root f) = none
  past : ∀ k, hops < k → fs.ancestor? k f = none

section Chains

variable {fs : Frames} {f : FrameId}

/-- With a link to spare for each frame before it, every way outward ends, and there `rootFrom` is. -/
theorem Ordered.exists_rootFrom (h : fs.Ordered) {fuel : Nat} (hfuel : f < fuel) :
    ∃ hops, fs.ancestor? hops f = some (fs.rootFrom fuel f) ∧
      fs.outward? (fs.rootFrom fuel f) = none ∧ ∀ k, hops < k → fs.ancestor? k f = none := by
  induction fuel generalizing f with
  | zero => exact absurd hfuel (Nat.not_lt_zero f)
  | succ fuel ih =>
    rw [rootFrom]
    cases hg : fs.outward? f with
    | none =>
      refine ⟨0, rfl, hg, fun k hk => ?_⟩
      obtain ⟨k, rfl⟩ := Nat.exists_eq_succ_of_ne_zero (Nat.ne_zero_of_lt hk)
      rw [ancestor?, hg]
    | some g =>
      obtain ⟨hops, hroot, houtermost, hpast⟩ :=
        ih (Nat.lt_of_lt_of_le (h f g hg) (Nat.le_of_lt_succ hfuel))
      refine ⟨hops + 1, ?_, houtermost, fun k hk => ?_⟩
      · rw [ancestor?, hg]
        exact hroot
      · obtain ⟨k, rfl⟩ := Nat.exists_eq_succ_of_ne_zero (Nat.ne_zero_of_lt hk)
        rw [ancestor?, hg]
        exact hpast k (Nat.lt_of_succ_lt_succ hk)

theorem Built.exists_links (h : fs.Built) (hf : f < fs.count) : ∃ hops, fs.Links f hops := by
  obtain ⟨hops, hroot, houtermost, hpast⟩ := h.ordered.exists_rootFrom hf
  exact ⟨hops, hroot, houtermost, hpast⟩

/-- By the number of links to it, the outermost frame is read and assigned. -/
theorem Links.global {hops : Nat} (h : fs.Links f hops) (word : Lexeme) :
    fs.getGlobal f word = fs.getAt hops f word ∧
      ∀ v, fs.assignGlobal f word v = fs.assignAt hops f word v := by
  unfold getGlobal getAt assignGlobal assignAt
  rw [nameAt?_of_ancestor? h.root, h.root]
  exact ⟨rfl, fun _ => rfl⟩

theorem nameAt?_succ (fs : Frames) (f : FrameId) (hops : Nat) (name : String) :
    fs.nameAt? (hops + 1) f name =
      match fs.outward? f with
      | some g => fs.nameAt? hops g name
      | none => none := by
  unfold nameAt?
  rw [ancestor?]
  cases fs.outward? f <;> rfl

/-- A search by name ends at the least number of links at which there is the name, or it finds
nothing because there is none anywhere. -/
theorem Ordered.lookupFrom_cases (h : fs.Ordered) (name : String) {fuel : Nat} (hfuel : f < fuel) :
    (∃ hops v, fs.nameAt? hops f name = some v ∧ (∀ k, k < hops → fs.nameAt? k f name = none) ∧
      fs.lookupFrom name fuel f = some v) ∨
    ((∀ hops, fs.nameAt? hops f name = none) ∧ fs.lookupFrom name fuel f = none) := by
  induction fuel generalizing f with
  | zero => exact absurd hfuel (Nat.not_lt_zero f)
  | succ fuel ih =>
    rw [lookupFrom]
    have hzero : fs.nameAt? 0 f name = fs.here? f name := rfl
    cases hhere : fs.here? f name with
    | some v =>
      exact .inl ⟨0, v, hzero.trans hhere, fun k hk => absurd hk (Nat.not_lt_zero k), rfl⟩
    | none =>
      have hnext (k : Nat) := fs.nameAt?_succ f k name
      cases hg : fs.outward? f with
      | none =>
        rw [hg] at hnext
        refine .inr ⟨fun hops => ?_, rfl⟩
        cases hops with
        | zero => exact hzero.trans hhere
        | succ k => exact hnext k
      | some g =>
        rw [hg] at hnext
        rcases ih (Nat.lt_of_lt_of_le (h f g hg) (Nat.le_of_lt_succ hfuel)) with
          ⟨hops, v, hv, hleast, hlookup⟩ | ⟨hnone, hlookup⟩
        · refine .inl ⟨hops + 1, v, (hnext hops).trans hv, fun k hk => ?_, hlookup⟩
          cases k with
          | zero => exact hzero.trans hhere
          | succ k => exact (hnext k).trans (hleast k (Nat.lt_of_succ_lt_succ hk))
        · refine .inr ⟨fun hops => ?_, hlookup⟩
          cases hops with
          | zero => exact hzero.trans hhere
          | succ k => exact (hnext k).trans (hnone k)

end Chains

end Frames

/-! ## Failing assignments on a machine -/

/-- An assignment on a machine goes by the number of links that its reference is bound to, or to the
outermost frame. If it fails, the machine is as it was. -/
theorem Eval.assignVariable_cases (ref : Ref) (v : Value) (m : Machine) :
    (∃ frames, assignVariable ref v m = .ok () { m with frames } ∧
      match m.bindings.hops? ref.id with
      | some hops => m.frames.assignAt hops m.current ref.word v = .ok frames
      | none => m.frames.assignGlobal m.globals ref.word v = .ok frames) ∨
    assignVariable ref v m = .error (.error (Frames.undefined ref.word)) m := by
  unfold assignVariable Frames.assignGlobal
  cases m.bindings.hops? ref.id with
  | some hops =>
    rcases m.frames.assignAt_cases hops m.current ref.word v with ⟨u, fs', -, hassign⟩ | ⟨-, hassign⟩
    · exact .inl ⟨fs', by simp only [hassign], hassign⟩
    · exact .inr (by simp only [hassign])
  | none =>
    rcases m.frames.assignAt_cases 0 (m.frames.root m.globals) ref.word v with
      ⟨u, fs', -, hassign⟩ | ⟨-, hassign⟩
    · exact .inl ⟨fs', by simp only [hassign], hassign⟩
    · exact .inr (by simp only [hassign])

/-! ## The operations -/

open Frames in
/-- **Operations on frames touch one slot of one frame.** Consider a frame of a store that was built by
any operations.

* An assignment by a number of links succeeds exactly if a read does, whatever is assigned, and both
  blame the word otherwise. Then the frame so many links outward has a new value for the name, which
  was there, whoever reads it, and no other name of any frame has changed, nor a link, nor a name.
* If it fails, there is no other store: the machine on which it fails stays as it is.
* Global access is access by the number of links to the outermost frame, and past that there is
  nothing.
* The search for a name finds what is at the least number of links at which there is something, or
  nothing if there is nothing at any. -/
theorem frame_operations_touch_one_slot {fs : Frames} (hfs : fs.Built) {e : FrameId}
    (he : e < fs.count) :
    (∀ hops word v,
      ((∃ fs', fs.assignAt hops e word v = .ok fs') ↔ ∃ u, fs.getAt hops e word = .ok u) ∧
      (∀ fs', fs.assignAt hops e word v = .ok fs' →
        ∃ g, fs.ancestor? hops e = some g ∧ fs.Assigns g word.text v fs') ∧
      ∀ error, fs.assignAt hops e word v = .error error →
        error = undefined word ∧ fs.getAt hops e word = .error error) ∧
    (∀ (m : Machine) ref v stop m', Eval.assignVariable ref v m = .error stop m' →
      stop = .error (undefined ref.word) ∧ m' = m) ∧
    (∃ hops, fs.Links e hops ∧ ∀ word, fs.getGlobal e word = fs.getAt hops e word ∧
      ∀ v, fs.assignGlobal e word v = fs.assignAt hops e word v) ∧
    ∀ name,
      (∃ hops v, fs.nameAt? hops e name = some v ∧ (∀ k, k < hops → fs.nameAt? k e name = none) ∧
        fs.lookup? e name = some v) ∨
      ((∀ hops, fs.nameAt? hops e name = none) ∧ fs.lookup? e name = none) := by
  refine ⟨fun hops word v => ⟨?_, fun fs' hassign => assigns_of_assignAt hassign,
    fun error herror => ?_⟩, fun m ref v stop m' hstop => ?_, ?_,
    fun name => hfs.ordered.lookupFrom_cases name he⟩
  · rcases fs.assignAt_cases hops e word v with ⟨u, fs', hget, hassign⟩ | ⟨hget, hassign⟩
    · exact ⟨fun _ => ⟨u, hget⟩, fun _ => ⟨fs', hassign⟩⟩
    · rw [hget, hassign]
      exact ⟨nofun, nofun⟩
  · rcases fs.assignAt_cases hops e word v with ⟨u, fs', -, hassign⟩ | ⟨hget, hassign⟩
    · cases hassign.symm.trans herror
    · cases hassign.symm.trans herror
      exact ⟨rfl, hget⟩
  · rcases Eval.assignVariable_cases ref v m with ⟨frames, hok, -⟩ | herror
    · cases hok.symm.trans hstop
    · cases herror.symm.trans hstop
      exact ⟨rfl, rfl⟩
  · obtain ⟨hops, hlinks⟩ := hfs.exists_links he
    exact ⟨hops, hlinks, hlinks.global⟩

/-- A variable of a frame around two others: what is assigned from one of them is read from the
other one. -/
theorem sibling_reads_assignment :
    let shared := ((Frames.empty.push none).push (some 0)).define 1 "count" (.bool false)
    let fs := (shared.push (some 1)).push (some 1)
    fs.Built ∧ 2 < fs.count ∧ ∃ fs', fs.assignAt 1 2 ⟨"count", 1⟩ (.bool true) = .ok fs' ∧
      fs'.nameAt? 1 3 "count" = some (.bool true) := by
  intro shared fs
  have hroot : (Frames.empty.push none).Built := .new .empty
  have houter : ((Frames.empty.push none).push (some 0)).Built := hroot.enclosed (by decide)
  have hshared : shared.Built := houter.define 1 "count" (.bool false)
  have hfirst : (shared.push (some 1)).Built := hshared.enclosed (by decide)
  have hfs : fs.Built := hfirst.enclosed (by decide)
  have he : 2 < fs.count := by decide
  have hassign : fs.assignAt 1 2 ⟨"count", 1⟩ (.bool true) =
    .ok (fs.define 1 "count" (.bool true)) := rfl
  obtain ⟨g, hg, hassigns⟩ :=
    ((frame_operations_touch_one_slot hfs he).1 1 ⟨"count", 1⟩ (.bool true)).2.1 _ hassign
  cases hg
  exact ⟨hfs, he, _, hassign, hassigns.reached 1 3 rfl⟩

end ScriptLang
