import ScriptLang.Frames.Basic

/-!
# Reading and writing frames

What the two ways to change a store of frames, a new frame (`push`) and new variables in a
frame (`change`, of which `define` is the main case), do to what can be seen of it: the
links between frames (`outward?`), the values of names (`here?`) and the names themselves.

* A new frame changes nothing that is there, and has no names (`frame?_push_of_lt`,
  `here?_push`).
* New variables change no link (`outward?_change`) and no other frame.
* `here?_define`: a name that is defined has the new value in its frame, and every other
  name of every frame keeps its own.
-/

namespace ScriptLang

/-! ## Names of a table -/

namespace Slots

variable {α : Type}

theorem read_isSome_iff (name : String) (entries : List (String × α)) :
    (read name entries).isSome ↔ name ∈ entries.map (·.1) := by
  induction entries with
  | nil => simp [read]
  | cons entry entries ih =>
    obtain ⟨n, v⟩ := entry
    by_cases h : n = name
    · simp [read, h]
    · simp [read, h, ih, Ne.symm h]

/-- A table has a value for exactly the names it lists. -/
theorem mem_names_iff {s : Slots α} {name : String} :
    name ∈ s.names ↔ (s.get? name).isSome :=
  (read_isSome_iff name s.entries).symm

theorem mem_names_iff_contains {s : Slots α} {name : String} :
    name ∈ s.names ↔ s.contains name = true := mem_names_iff

theorem mem_of_get? {s : Slots α} {name : String} {v : α} (h : s.get? name = some v) :
    (name, v) ∈ s.entries := by
  obtain ⟨entries⟩ := s
  unfold get? at h
  dsimp only at h ⊢
  induction entries with
  | nil => cases h
  | cons entry entries ih =>
    obtain ⟨n, w⟩ := entry
    unfold read at h
    split at h
    · rename_i hn
      cases h
      rw [hn]
      exact List.mem_cons_self
    · exact List.mem_cons_of_mem _ (ih h)

theorem get?_empty (name : String) : (empty : Slots α).get? name = none := rfl

theorem write_names_of_mem {name : String} {value : α} {entries : List (String × α)}
    (h : name ∈ entries.map (·.1)) :
    (write name value entries).map (·.1) = entries.map (·.1) := by
  induction entries with
  | nil => simp at h
  | cons entry entries ih =>
    obtain ⟨n, v⟩ := entry
    by_cases hn : n = name
    · simp [write, hn]
    · have htail : name ∈ entries.map (·.1) := by
        rcases List.mem_cons.mp h with h | h
        · exact absurd h.symm hn
        · exact h
      simp [write, hn, ih htail]

/-- A new value for a name that is there leaves the names as they are. -/
theorem names_set_of_mem {s : Slots α} {name : String} {value : α} (h : name ∈ s.names) :
    (s.set name value).names = s.names := write_names_of_mem h

theorem write_names_of_notMem {name : String} {value : α} {entries : List (String × α)}
    (h : name ∉ entries.map (·.1)) :
    (write name value entries).map (·.1) = entries.map (·.1) ++ [name] := by
  induction entries with
  | nil => rfl
  | cons entry entries ih =>
    obtain ⟨n, v⟩ := entry
    have hn : n ≠ name := fun hn => h (List.mem_cons.mpr (.inl hn.symm))
    have htail := ih fun hmem => h (List.mem_cons_of_mem _ hmem)
    simp [write, hn, htail]

/-- A value for a name puts it behind the others, unless it is there. -/
theorem nodup_names_set {s : Slots α} {name : String} {value : α} (h : s.names.Nodup) :
    (s.set name value).names.Nodup := by
  by_cases hname : name ∈ s.names
  · rwa [names_set_of_mem hname]
  · have hset : (s.set name value).names = s.names ++ [name] := write_names_of_notMem hname
    rw [hset]
    refine List.nodup_append.mpr ⟨h, List.pairwise_singleton _ name, fun a ha b hb => ?_⟩
    rw [List.mem_singleton.mp hb]
    rintro rfl
    exact hname ha

/-- In a table without repetitions, the entries are what the names have for values. -/
theorem get?_of_mem {s : Slots α} {name : String} {v : α} (h : s.names.Nodup)
    (hmem : (name, v) ∈ s.entries) : s.get? name = some v := by
  obtain ⟨entries⟩ := s
  unfold names at h
  unfold get?
  dsimp only at h hmem ⊢
  induction entries with
  | nil => cases hmem
  | cons entry entries ih =>
    obtain ⟨n, w⟩ := entry
    obtain ⟨hn, hrest⟩ := List.nodup_cons.mp h
    unfold read
    rcases List.mem_cons.mp hmem with heq | hmem
    · cases heq
      exact if_pos rfl
    · rw [if_neg, ih hrest hmem]
      rintro rfl
      exact hn (List.mem_map.mpr ⟨_, hmem, rfl⟩)

theorem get?_modify (s : Slots α) (name other : String) (f : α → α) :
    (s.modify name f).get? other =
      if other = name then (s.get? other).map f else s.get? other := by
  unfold modify
  cases h : s.get? name with
  | none =>
    by_cases ho : other = name
    · simp [ho, h]
    · simp [ho]
  | some v =>
    by_cases ho : other = name
    · simp [ho, h, get?_set_self]
    · simp [ho, get?_set_of_ne]

theorem names_modify (s : Slots α) (name : String) (f : α → α) :
    (s.modify name f).names = s.names := by
  unfold modify
  cases h : s.get? name with
  | none => rfl
  | some v => exact names_set_of_mem (mem_names_iff.mpr (by simp [h]))

end Slots

namespace Frames

/-! ## New frames -/

@[simp] theorem count_push (fs : Frames) (e : Option FrameId) :
    (fs.push e).count = fs.count + 1 := by
  simp [push, count]

theorem nextId_eq_count (fs : Frames) : fs.nextId = fs.count := rfl

theorem frame?_push_of_lt {fs : Frames} {e : Option FrameId} {f : FrameId}
    (h : f < fs.count) : (fs.push e).frame? f = fs.frame? f := by
  have h' : f ≠ fs.all.size := Nat.ne_of_lt h
  simp [push, frame?, Array.getElem?_push, h']

theorem frame?_push_self (fs : Frames) (e : Option FrameId) :
    (fs.push e).frame? fs.nextId = some ⟨.empty, e⟩ := by
  simp [push, frame?, nextId]

theorem frame?_eq_none {fs : Frames} {f : FrameId} (h : fs.count ≤ f) :
    fs.frame? f = none :=
  Array.getElem?_eq_none h

theorem lt_count_of_frame? {fs : Frames} {f : FrameId} {frame : Frame}
    (h : fs.frame? f = some frame) : f < fs.count :=
  (Array.getElem?_eq_some_iff.mp h).1

theorem outward?_push_of_lt {fs : Frames} {e : Option FrameId} {f : FrameId}
    (h : f < fs.count) : (fs.push e).outward? f = fs.outward? f := by
  unfold outward?
  rw [frame?_push_of_lt h]

theorem outward?_push_self (fs : Frames) (e : Option FrameId) :
    (fs.push e).outward? fs.nextId = e := by
  unfold outward?
  rw [frame?_push_self]

theorem lt_count_of_outward? {fs : Frames} {f g : FrameId} (h : fs.outward? f = some g) :
    f < fs.count := by
  unfold outward? at h
  split at h
  · rename_i frame hf
    exact lt_count_of_frame? hf
  · cases h

/-- A new frame has no names, and all others keep theirs. -/
theorem here?_push (fs : Frames) (e : Option FrameId) (f : FrameId) (name : String) :
    (fs.push e).here? f name = fs.here? f name := by
  rcases Nat.lt_trichotomy f fs.count with h | h | h
  · unfold here?
    rw [frame?_push_of_lt h]
  · subst h
    have hself := frame?_push_self fs e
    rw [nextId_eq_count] at hself
    unfold here?
    rw [hself, frame?_eq_none (Nat.le_refl _)]
    rfl
  · unfold here?
    rw [frame?_eq_none (Nat.le_of_lt h), frame?_eq_none (by rw [count_push]; exact h)]

theorem lt_count_of_here? {fs : Frames} {f : FrameId} {name : String} {v : Value}
    (h : fs.here? f name = some v) : f < fs.count := by
  unfold here? at h
  split at h
  · rename_i frame hf
    exact lt_count_of_frame? hf
  · cases h

/-! ## New variables -/

theorem frame?_change (fs : Frames) (f g : FrameId) (write : Slots Value → Slots Value) :
    (fs.change f write).frame? g =
      if g = f then (fs.frame? g).map fun frame => { frame with slots := write frame.slots }
      else fs.frame? g := by
  by_cases h : g = f
  · subst h
    simp [change, frame?, Array.getElem?_modify]
  · simp [change, frame?, Array.getElem?_modify, h, Ne.symm h]

@[simp] theorem count_change (fs : Frames) (f : FrameId) (write : Slots Value → Slots Value) :
    (fs.change f write).count = fs.count := by
  simp [change, count]

@[simp] theorem outward?_change (fs : Frames) (f g : FrameId)
    (write : Slots Value → Slots Value) :
    (fs.change f write).outward? g = fs.outward? g := by
  unfold outward?
  rw [frame?_change]
  by_cases h : g = f
  · rw [if_pos h]
    cases fs.frame? g <;> rfl
  · rw [if_neg h]

@[simp] theorem count_define (fs : Frames) (f : FrameId) (name : String) (v : Value) :
    (fs.define f name v).count = fs.count := count_change ..

@[simp] theorem outward?_define (fs : Frames) (f g : FrameId) (name : String) (v : Value) :
    (fs.define f name v).outward? g = fs.outward? g := outward?_change ..

theorem frame?_define_of_ne {fs : Frames} {f g : FrameId} {name : String} {v : Value}
    (h : g ≠ f) : (fs.define f name v).frame? g = fs.frame? g := by
  unfold define
  rw [frame?_change, if_neg h]

theorem here?_define (fs : Frames) (f g : FrameId) (name other : String) (v : Value) :
    (fs.define f name v).here? g other =
      if g = f ∧ other = name ∧ f < fs.count then some v else fs.here? g other := by
  by_cases hg : g = f
  · subst hg
    unfold here? define
    rw [frame?_change, if_pos rfl]
    cases hf : fs.frame? g with
    | none =>
      have hle : ¬ g < fs.count := by
        intro hlt
        unfold frame? at hf
        exact absurd (Array.getElem?_eq_none_iff.mp hf) (Nat.not_le.mpr hlt)
      simp [hle]
    | some frame =>
      have hlt : g < fs.count := lt_count_of_frame? hf
      by_cases ho : other = name
      · subst ho
        simp [hlt, Slots.get?_set_self]
      · simp [ho, Slots.get?_set_of_ne]
  · unfold here?
    rw [frame?_define_of_ne hg]
    simp [hg]

theorem here?_define_self {fs : Frames} {f : FrameId} (h : f < fs.count) (name : String)
    (v : Value) : (fs.define f name v).here? f name = some v := by
  rw [here?_define, if_pos ⟨rfl, rfl, h⟩]

@[simp] theorem count_clear (fs : Frames) (f : FrameId) : (fs.clear f).count = fs.count :=
  count_change ..

@[simp] theorem outward?_clear (fs : Frames) (f g : FrameId) :
    (fs.clear f).outward? g = fs.outward? g := outward?_change ..

theorem here?_clear (fs : Frames) (f g : FrameId) (name : String) :
    (fs.clear f).here? g name = if g = f then none else fs.here? g name := by
  unfold here? clear
  rw [frame?_change]
  by_cases h : g = f
  · rw [if_pos h, if_pos h]
    cases fs.frame? g <;> rfl
  · rw [if_neg h, if_neg h]

/-- A name that is defined stays so. -/
theorem here?_isSome_define {fs : Frames} {f g : FrameId} {name other : String} {v : Value}
    (h : (fs.here? g other).isSome) : ((fs.define f name v).here? g other).isSome := by
  rw [here?_define]
  split
  · rfl
  · exact h

/-- A frame lists the names that have values in it. -/
theorem mem_names_iff {fs : Frames} {f : FrameId} {name : String} :
    name ∈ fs.names f ↔ (fs.here? f name).isSome := by
  unfold names here?
  cases fs.frame? f with
  | none => simp
  | some frame => exact Slots.mem_names_iff

/-! ## Several variables -/

@[simp] theorem count_defineAll (fs : Frames) (f : FrameId) (names : List String)
    (vs : List Value) : (fs.defineAll f names vs).count = fs.count := by
  induction names generalizing fs vs with
  | nil => rfl
  | cons name names ih =>
    cases vs with
    | nil => rfl
    | cons v vs => rw [defineAll, ih, count_define]

@[simp] theorem outward?_defineAll (fs : Frames) (f g : FrameId) (names : List String)
    (vs : List Value) : (fs.defineAll f names vs).outward? g = fs.outward? g := by
  induction names generalizing fs vs with
  | nil => rfl
  | cons name names ih =>
    cases vs with
    | nil => rfl
    | cons v vs => rw [defineAll, ih, outward?_define]

theorem frame?_defineAll_of_ne {fs : Frames} {f g : FrameId} (h : g ≠ f)
    (names : List String) (vs : List Value) :
    (fs.defineAll f names vs).frame? g = fs.frame? g := by
  induction names generalizing fs vs with
  | nil => rfl
  | cons name names ih =>
    cases vs with
    | nil => rfl
    | cons v vs => rw [defineAll, ih, frame?_define_of_ne h]

theorem here?_isSome_defineAll {fs : Frames} {f g : FrameId} {other : String}
    (names : List String) (vs : List Value) (h : (fs.here? g other).isSome) :
    ((fs.defineAll f names vs).here? g other).isSome := by
  induction names generalizing fs vs with
  | nil => exact h
  | cons name names ih =>
    cases vs with
    | nil => exact h
    | cons v vs => exact ih vs (here?_isSome_define h)

/-- Every name that has a value to take is defined. -/
theorem here?_isSome_defineAll_of_mem {fs : Frames} {f : FrameId} (hf : f < fs.count)
    {names : List String} {vs : List Value} (hlen : names.length = vs.length) {name : String}
    (h : name ∈ names) : ((fs.defineAll f names vs).here? f name).isSome := by
  induction names generalizing fs vs with
  | nil => simp at h
  | cons first names ih =>
    cases vs with
    | nil => simp at hlen
    | cons v vs =>
      rcases List.mem_cons.mp h with rfl | h
      · exact here?_isSome_defineAll names vs (by rw [here?_define_self hf]; rfl)
      · exact ih (by rwa [count_define]) (by simpa using hlen) h

/-- Every value found after a definition of several variables was there before, or is one of
those that were defined in the frame. -/
theorem here?_defineAll_cases {fs : Frames} {f g : FrameId} {names : List String}
    {vs : List Value} {other : String} {v : Value}
    (h : (fs.defineAll f names vs).here? g other = some v) :
    fs.here? g other = some v ∨ (g = f ∧ v ∈ vs ∧ other ∈ names) := by
  induction names generalizing fs vs with
  | nil => exact .inl h
  | cons name names ih =>
    cases vs with
    | nil => exact .inl h
    | cons w vs =>
      rcases ih h with h | ⟨hg, hv, ho⟩
      · rw [here?_define] at h
        split at h
        · rename_i hc
          cases h
          exact .inr ⟨hc.1, List.mem_cons_self, by rw [hc.2.1]; exact List.mem_cons_self⟩
        · exact .inl h
      · exact .inr ⟨hg, List.mem_cons_of_mem _ hv, List.mem_cons_of_mem _ ho⟩

/-! ## Access by words -/

/-- An assignment that succeeds writes a variable that was there. -/
theorem assignAt_eq_ok {fs fs' : Frames} {hops : Nat} {f : FrameId} {word : Lexeme} {v : Value}
    (h : fs.assignAt hops f word v = .ok fs') :
    ∃ g, fs.ancestor? hops f = some g ∧ (fs.here? g word.text).isSome ∧
      fs' = fs.define g word.text v := by
  unfold assignAt at h
  split at h
  · rename_i g hg
    split at h
    · rename_i w hw
      cases h
      exact ⟨g, hg, by rw [hw]; rfl, rfl⟩
    · cases h
  · cases h

theorem nameAt?_of_ancestor? {fs : Frames} {hops : Nat} {f g : FrameId}
    (h : fs.ancestor? hops f = some g) (name : String) : fs.nameAt? hops f name = fs.here? g name := by
  unfold nameAt?
  rw [h]

theorem nameAt?_eq_some {fs : Frames} {hops : Nat} {f : FrameId} {name : String} {v : Value}
    (h : fs.nameAt? hops f name = some v) :
    ∃ g, fs.ancestor? hops f = some g ∧ fs.here? g name = some v := by
  unfold nameAt? at h
  split at h
  · rename_i g hg
    exact ⟨g, hg, h⟩
  · cases h

/-- A value that is read by a word stands somewhere in the store. -/
theorem getAt_eq_ok {fs : Frames} {hops : Nat} {f : FrameId} {word : Lexeme} {v : Value}
    (h : fs.getAt hops f word = .ok v) :
    ∃ g, fs.ancestor? hops f = some g ∧ fs.here? g word.text = some v := by
  unfold getAt at h
  split at h
  · rename_i w hw
    cases h
    exact nameAt?_eq_some hw
  · cases h

theorem getGlobal_eq_ok {fs : Frames} {f : FrameId} {word : Lexeme} {v : Value}
    (h : fs.getGlobal f word = .ok v) : fs.here? (fs.root f) word.text = some v := by
  unfold getGlobal at h
  split at h
  · rename_i w hw
    cases h
    exact hw
  · cases h

end Frames

end ScriptLang
