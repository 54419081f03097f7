import ScriptLang.Proofs.Realms.Preservation
import ScriptLang.Proofs.Scoping.Containment

/-!
# Realms of references

Code can be known by the references in it. A realm of references (`Realm.referring`) has all frames
and instances, and the code whose references all have good numbers. As numbers become good, it takes
in more code, and what was in it stays there (`Realm.Closed.mono`).
-/

namespace ScriptLang

namespace Realm

/-- All frames and instances, and the code in which all references have good numbers. -/
def referring (good : Nat → Prop) : Realm where
  frame _ := True
  object _ := True
  code t := ∀ id ∈ t.ids, good id
  visits h ht id hid := ht id (h.ids hid)

/-! ## More code -/

variable {R R' : Realm} {m : Machine}

/-- The second realm has the same frames and instances, and at least the code of the first one. -/
structure Le (R R' : Realm) : Prop where
  frame : ∀ f, R'.frame f ↔ R.frame f
  object : ∀ i, R'.object i ↔ R.object i
  code : ∀ t, R.code t → R'.code t

theorem referring_le {good good' : Nat → Prop} (h : ∀ id, good id → good' id) :
    (referring good).Le (referring good') :=
  ⟨fun _ => Iff.rfl, fun _ => Iff.rfl, fun _ ht id hid => h id (ht id hid)⟩

theorem HasFunction.mono {f : Function} (h : R.HasFunction m f) (hR : R.Le R') :
    R'.HasFunction m f := ⟨hR.code _ h.code, (hR.frame _).mpr h.closure, h.closure_lt⟩

theorem HasClass.mono (hR : R.Le R') : ∀ {c : Class}, R.HasClass m c → R'.HasClass m c
  | ⟨_, _, none, _⟩, h => ⟨h.1, fun name f hf => (h.2 name f hf).mono hR⟩
  | ⟨_, _, some _, _⟩, h =>
    ⟨h.1, fun name f hf => (h.2.1 name f hf).mono hR, h.2.2.1, HasClass.mono hR h.2.2.2⟩

theorem Has.mono {v : Value} (h : R.Has m v) (hR : R.Le R') : R'.Has m v := by
  cases v with
  | callable c =>
    cases c with
    | function f => exact HasFunction.mono h hR
    | native n => exact trivial
    | «class» c => exact HasClass.mono hR h
  | «instance» i => exact ⟨(hR.object _).mpr h.1, h.2.1, h.2.2.mono hR⟩
  | nil => exact trivial
  | bool b => exact trivial
  | number x => exact trivial
  | text s => exact trivial

/-- A closed realm stays closed when more code may be run. -/
theorem Closed.mono (h : R.Closed m) (hR : R.Le R') : R'.Closed m where
  globals := (hR.frame _).mpr h.globals
  globals_lt := h.globals_lt
  tree := h.tree
  outward f g hf hout := (hR.frame g).mpr (h.outward f g ((hR.frame f).mp hf) hout)
  values f x v hf hv := (h.values f x v ((hR.frame f).mp hf) hv).mono hR
  fields i slots hi hslots x v hv := (h.fields i slots ((hR.object i).mp hi) hslots x v hv).mono hR
  laterFrames f hf := (hR.frame f).mpr (h.laterFrames f hf)
  laterObjects i hi := (hR.object i).mpr (h.laterObjects i hi)

end Realm

end ScriptLang
