import ScriptLang.Proofs.Grammar.Extension
import ScriptLang.Proofs.Grammar.Renumbering

/-!
# Up to the numbers of references

Two trees are the same up to the numbers of their references if they are equal once every
reference has the same number (`Program.unnumbered`). From two positions that differ only in the
next number, the grammar reads such trees and comes to such positions again (`grammar_alike`). So
what was read without a fault is also read there with other tokens behind it (`grammar_extends`).
-/

namespace ScriptLang

/-! ## Trees without numbers -/

/-- The expression without numbers. -/
abbrev Expr.unnumbered : Expr → Expr := Expr.renumber fun _ => 0

/-- The statement without numbers. -/
abbrev Stmt.unnumbered : Stmt → Stmt := Stmt.renumber fun _ => 0

/-- The program without numbers. -/
abbrev Program.unnumbered : Program → Program := Program.renumber fun _ => 0

section Composition

variable (ρ σ : Nat → Nat)

theorem Ref.relabel_renumbering (ref : Ref) :
    (ref.relabel (.renumbering ρ)).relabel (.renumbering σ) = ref.relabel (.renumbering (σ ∘ ρ)) :=
  rfl

mutual

theorem Expr.renumber_renumber : (e : Expr) → (e.renumber ρ).renumber σ = e.renumber (σ ∘ ρ)
  | .literal _ => rfl
  | .variable _ => rfl
  | .assign ref value => by
    simp only [Expr.relabel, Expr.renumber_renumber value, Ref.relabel_renumbering]
  | .unary op sign operand => by
    simp only [Expr.relabel, Expr.renumber_renumber operand]
  | .binary op sign left right => by
    simp only [Expr.relabel, Expr.renumber_renumber left, Expr.renumber_renumber right]
  | .logical op sign left right => by
    simp only [Expr.relabel, Expr.renumber_renumber left, Expr.renumber_renumber right]
  | .comma left right => by
    simp only [Expr.relabel, Expr.renumber_renumber left, Expr.renumber_renumber right]
  | .conditional condition whenTrue whenFalse => by
    simp only [Expr.relabel, Expr.renumber_renumber condition, Expr.renumber_renumber whenTrue,
      Expr.renumber_renumber whenFalse]
  | .grouping inner => by simp only [Expr.relabel, Expr.renumber_renumber inner]
  | .call callee arguments closing => by
    simp only [Expr.relabel, Expr.renumber_renumber callee, Expr.renumberAll_renumber arguments]
  | .get object property => by simp only [Expr.relabel, Expr.renumber_renumber object]
  | .set object property value => by
    simp only [Expr.relabel, Expr.renumber_renumber object, Expr.renumber_renumber value]
  | .this _ => rfl
  | .super _ _ => rfl
  | .function ⟨params, body⟩ => by
    simp only [Expr.relabel, Relabelling.names_renumbering, Lexeme.rename_refl_eq_id, List.map_id,
      Stmt.renumberAll_renumber body]

theorem Expr.renumberAll_renumber : (es : List Expr) →
    Expr.relabelAll (.renumbering σ) (Expr.relabelAll (.renumbering ρ) es) =
      Expr.relabelAll (.renumbering (σ ∘ ρ)) es
  | [] => rfl
  | e :: es => by
    simp only [Expr.relabelAll, Expr.renumber_renumber e, Expr.renumberAll_renumber es]

theorem Stmt.renumber_renumber : (s : Stmt) → (s.renumber ρ).renumber σ = s.renumber (σ ∘ ρ)
  | .expression e => by simp only [Stmt.relabel, Expr.renumber_renumber e]
  | .print e => by simp only [Stmt.relabel, Expr.renumber_renumber e]
  | .vars ds => by simp only [Stmt.relabel, Declarator.renumberAll_renumber ds]
  | .block body => by
    simp only [Stmt.relabel, Relabelling.names_renumbering, Stmt.renumberAll_renumber body]
  | .ifElse condition whenTrue none => by
    simp only [Stmt.relabel, Expr.renumber_renumber condition, Stmt.renumber_renumber whenTrue]
  | .ifElse condition whenTrue (some whenFalse) => by
    simp only [Stmt.relabel, Expr.renumber_renumber condition, Stmt.renumber_renumber whenTrue,
      Stmt.renumber_renumber whenFalse]
  | .whileLoop condition body => by
    simp only [Stmt.relabel, Expr.renumber_renumber condition, Stmt.renumber_renumber body]
  | .breakLoop _ => rfl
  | .returnFrom _ none => rfl
  | .returnFrom keyword (some e) => by simp only [Stmt.relabel, Expr.renumber_renumber e]
  | .function name ⟨params, body⟩ => by
    simp only [Stmt.relabel, Relabelling.names_renumbering, Lexeme.rename_refl_eq_id, List.map_id,
      Stmt.renumberAll_renumber body]
  | .class name superclass members => by
    simp only [Stmt.relabel, Method.renumberAll_renumber members, Option.map_map]
    rfl

theorem Stmt.renumberAll_renumber : (body : List Stmt) →
    Stmt.relabelAll (.renumbering σ) (Equiv.refl String)
        (Stmt.relabelAll (.renumbering ρ) (Equiv.refl String) body) =
      Stmt.relabelAll (.renumbering (σ ∘ ρ)) (Equiv.refl String) body
  | [] => rfl
  | s :: rest => by
    simp only [Stmt.relabelAll, Stmt.renumber_renumber s, Stmt.renumberAll_renumber rest]

theorem Declarator.renumberAll_renumber : (ds : List Declarator) →
    Declarator.relabelAll (.renumbering σ) (Equiv.refl String)
        (Declarator.relabelAll (.renumbering ρ) (Equiv.refl String) ds) =
      Declarator.relabelAll (.renumbering (σ ∘ ρ)) (Equiv.refl String) ds
  | [] => rfl
  | ⟨name, none⟩ :: rest => by
    simp only [Declarator.relabelAll, Declarator.renumberAll_renumber rest, Lexeme.rename_refl]
  | ⟨name, some e⟩ :: rest => by
    simp only [Declarator.relabelAll, Expr.renumber_renumber e,
      Declarator.renumberAll_renumber rest, Lexeme.rename_refl]

theorem Method.renumberAll_renumber : (members : List Method) →
    Method.relabelAll (.renumbering σ) (Method.relabelAll (.renumbering ρ) members) =
      Method.relabelAll (.renumbering (σ ∘ ρ)) members
  | [] => rfl
  | ⟨name, ⟨params, body⟩⟩ :: rest => by
    simp only [Method.relabelAll, Relabelling.names_renumbering, Lexeme.rename_refl_eq_id,
      List.map_id, Stmt.renumberAll_renumber body, Method.renumberAll_renumber rest]

end

end Composition

theorem Program.unnumbered_reverse (done : List Stmt) (e : Option Expr) :
    Program.unnumbered ⟨done.reverse, e⟩ =
      ⟨(done.map Stmt.unnumbered).reverse, e.map Expr.unnumbered⟩ :=
  Grammar.Program.renumber_reverse done e

namespace Grammar

/-- The trees of a nonterminal without numbers. -/
abbrev Nonterminal.unnumbered (n : Nonterminal) : n.Tree → n.Tree := n.renumber fun _ => 0

theorem Nonterminal.unnumbered_renumber (ρ : Nat → Nat) (n : Nonterminal) (t : n.Tree) :
    n.unnumbered (n.renumber ρ t) = n.unnumbered t := by
  cases n with
  | expression => exact Expr.renumber_renumber ρ _ t
  | assignment => exact Expr.renumber_renumber ρ _ t
  | conditional => exact Expr.renumber_renumber ρ _ t
  | unary => exact Expr.renumber_renumber ρ _ t
  | statement => exact Stmt.renumber_renumber ρ _ t
  | declaration =>
    cases t with
    | none => rfl
    | some s => exact congrArg some (Stmt.renumber_renumber ρ _ s)

/-! ## Positions with another number -/

section Positions

variable {fuel fuel' : Nat} {n : Nonterminal} {c c' : Cursor} {t : n.Tree}

/-- With another next number, the same is read up to numbers. -/
theorem grammar_alike (hact : grammar fuel n c = .ok t c') (k : Nat) :
    ∃ t' k', grammar fuel n { c with nextRef := k } = .ok t' { c' with nextRef := k' } ∧
      n.unnumbered t' = n.unnumbered t := by
  -- the numbers from the old one on become those from the new one on
  let ρ (j : Nat) : Nat := j - c.nextRef + k
  have hρ : CountsOn ρ c.nextRef := fun j hj => by
    change j + 1 - c.nextRef + k = j - c.nextRef + k + 1
    omega
  have hstart : c.renumber ρ = { c with nextRef := k } := by
    unfold Cursor.renumber
    simp [ρ]
  have hrenumbered := renumbers_grammar fuel n c hρ
  rw [hstart, hact] at hrenumbered
  exact ⟨n.renumber ρ t, ρ c'.nextRef, hrenumbered, n.unnumbered_renumber ρ t⟩

/-- With another next number and with other tokens in place of the end, the same is read up to
numbers. -/
theorem grammar_extends {tail : List Token} {d : Cursor} (hle : fuel ≤ fuel')
    (hext : { c with nextRef := d.nextRef }.Extends tail d)
    (hact : grammar fuel n c = .ok t c') (hfound : c'.found = c.found)
    (hend : c'.Spent → n.StopsAt (firstKind tail)) :
    ∃ t' d', grammar fuel' n d = .ok t' d' ∧ n.unnumbered t' = n.unnumbered t ∧
      { c' with nextRef := d'.nextRef }.Extends tail d' ∧ d'.found = d.found := by
  obtain ⟨t', k', hact', hsame⟩ := grammar_alike hact d.nextRef
  obtain ⟨d', hd', hext', hfound'⟩ := agrees_grammar hle n _ d hext t' _ hact' hfound hend
  refine ⟨t', d', hd', hsame, ?_, hfound'⟩
  rw [hext'.nextRef]
  exact hext'

end Positions

end Grammar

end ScriptLang
