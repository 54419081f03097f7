import ScriptLang.Proofs.Grammar.Progress
import ScriptLang.Proofs.Sessions.Launches

/-!
# Attempts at a trailing expression

Before each declaration at a prompt the parser tries whether what is left is one expression. If it
is not, the attempt is given up, but the numbers that were given to references in it are spent
(`Abandons`). What is parsed after that is numbered from there on, so none of these numbers is in
the program (`Abandons.spent`).
-/

namespace ScriptLang.Grammar

open Scoping (Phrase)

/-- The positions before the declarations that are read one after the other, from the given one
on. -/
inductive Passes (mode : Mode) (fuel : Nat) : Cursor → Cursor → Prop
  | here {c} : Passes mode fuel c c
  | further {c c₁ c₂ c₃ s} (hopen : ¬ c.atEnd) (htried : speculation mode fuel c = .ok none c₁)
    (hread : grammar fuel .declaration c₁ = .ok s c₂) (h : Passes mode fuel c₂ c₃) :
    Passes mode fuel c c₃

/-- While the tokens are parsed, an attempt at a trailing expression is given up. The references in
it have got the numbers from `lo` on and below `hi`. -/
inductive Abandons (tokens : List Token) (nextRef : Nat) : Nat → Nat → Prop
  | intro {c c'}
    (h : Passes .interactive ((Cursor.start tokens nextRef).rest.length + 1)
      (.start tokens nextRef) c)
    (hopen : ¬ c.atEnd)
    (hnone : trailing ((Cursor.start tokens nextRef).rest.length + 1) c = .ok none c') :
    Abandons tokens nextRef c.nextRef c'.nextRef

/-! ## What is read later has later numbers -/

variable {mode : Mode} {fuel rounds nextRef : Nat} {done : List Stmt} {c c₁ c₂ : Cursor}
variable {p : Program}

theorem ids_reverse_cons (s : Option Stmt) (done : List Stmt) :
    (Phrase.statements (s.toList ++ done).reverse).ids =
      (Phrase.statements done.reverse).ids ++ (Phrase.statements s.toList).ids := by
  have hreverse : s.toList.reverse = s.toList := by cases s <;> rfl
  rw [List.reverse_append, hreverse, Phrase.ids_statements_append]

/-- The references of a program are those of the statements read before and others with later
numbers. -/
theorem reads_later (hc : c.Honest) :
    Reads (programFrom mode fuel rounds done) c fun p _ => ∀ id ∈ p.ids,
      id ∈ (Phrase.statements done.reverse).ids ∨ c.nextRef ≤ id := by
  induction rounds generalizing done c with
  | zero => exact reads_exhausted hc
  | succ rounds ih =>
    by_cases hend : c.atEnd
    · refine reads_of_ok (programFrom_atEnd mode rounds done hend) hc (Nat.le_refl _)
        fun id hid => .inl ?_
      simpa [Program.ids] using hid
    · refine Reads.of_eq ?_ (programFrom_succ mode rounds done hend) (Nat.le_refl _)
      refine reads_bind (reads_speculation hc) fun e c₁ hc₁ h₁ he => ?_
      cases e with
      | some e =>
        refine reads_pure hc₁ fun id hid => ?_
        rcases List.mem_append.mp hid with hid | hid
        · exact .inl hid
        · exact .inr (he.numbered.bounds id hid).1
      | none =>
        refine reads_bind (faithful_grammar fuel .declaration c₁ hc₁) fun s c₂ hc₂ h₂ hs => ?_
        refine (ih hc₂).mono fun p c₃ hp id hid => ?_
        rcases hp id hid with hid | hle
        · rw [ids_reverse_cons] at hid
          rcases List.mem_append.mp hid with hid | hid
          · exact .inl hid
          · exact .inr (Nat.le_trans h₁ (hs.numbered.bounds id hid).1)
        · exact .inr (Nat.le_trans h₁ (Nat.le_trans h₂ hle))

/-- From a position at which no trailing expression was found, only a declaration is read. -/
theorem programFrom_of_none (hopen : ¬ c.atEnd) (htried : speculation mode fuel c = .ok none c₁)
    {c' : Cursor} (hp : programFrom mode fuel (rounds + 1) done c = .ok p c') :
    ∃ s c₂, grammar fuel .declaration c₁ = .ok s c₂ ∧
      programFrom mode fuel rounds (s.toList ++ done) c₂ = .ok p c' := by
  rw [programFrom_open mode rounds done hopen, htried] at hp
  dsimp only at hp
  cases hread : grammar fuel .declaration c₁ with
  | ok s c₂ =>
    rw [hread] at hp
    exact ⟨s, c₂, rfl, hp⟩
  | error stop c₂ =>
    rw [hread] at hp
    cases hp

/-- None of the numbers that an attempt has spent is in the program, and none is left for later. -/
theorem programFrom_avoids (hc : c.Honest)
    (hdone : ∀ id ∈ (Phrase.statements done.reverse).ids, id < c.nextRef) {c' : Cursor}
    (hp : programFrom mode fuel rounds done c = .ok p c') (hpasses : Passes mode fuel c c₁)
    (hopen : ¬ c₁.atEnd) (htried : speculation mode fuel c₁ = .ok none c₂) :
    (c.nextRef ≤ c₁.nextRef ∧ c₁.nextRef ≤ c₂.nextRef ∧ c₂.nextRef ≤ c'.nextRef) ∧
      ∀ id ∈ p.ids, id < c₁.nextRef ∨ c₂.nextRef ≤ id := by
  induction rounds generalizing done c with
  | zero => cases hp
  | succ rounds ih =>
    cases hpasses with
    | here =>
      obtain ⟨s, c₃, hread, hrest⟩ := programFrom_of_none hopen htried hp
      obtain ⟨hc₂, h₂, -⟩ := (reads_speculation hc).of_ok htried
      obtain ⟨hc₃, h₃, hs⟩ := (faithful_grammar fuel .declaration c₂ hc₂).of_ok hread
      obtain ⟨-, h', hlater⟩ := (reads_later hc₃).of_ok hrest
      refine ⟨⟨Nat.le_refl _, h₂, Nat.le_trans h₃ h'⟩, fun id hid => ?_⟩
      rcases hlater id hid with hid | hle
      · rw [ids_reverse_cons] at hid
        rcases List.mem_append.mp hid with hid | hid
        · exact .inl (hdone id hid)
        · exact .inr (hs.numbered.bounds id hid).1
      · exact .inr (Nat.le_trans h₃ hle)
    | @further _ d₁ d₂ _ s hopen' htried' hread hpasses' =>
      obtain ⟨s', d₂', hread', hrest⟩ := programFrom_of_none hopen' htried' hp
      rw [hread] at hread'
      cases hread'
      obtain ⟨hd₁, h₁, -⟩ := (reads_speculation hc).of_ok htried'
      obtain ⟨hd₂, h₂, hs⟩ := (faithful_grammar fuel .declaration d₁ hd₁).of_ok hread
      have hdone' : ∀ id ∈ (Phrase.statements (s.toList ++ done).reverse).ids, id < d₂.nextRef := by
        intro id hid
        rw [ids_reverse_cons] at hid
        rcases List.mem_append.mp hid with hid | hid
        · exact Nat.lt_of_lt_of_le (hdone id hid) (Nat.le_trans h₁ h₂)
        · exact (hs.numbered.bounds id hid).2
      obtain ⟨⟨hle, hspent, hleft⟩, havoids⟩ := ih hd₂ hdone' hrest hpasses'
      exact ⟨⟨Nat.le_trans h₁ (Nat.le_trans h₂ hle), hspent, hleft⟩, havoids⟩

/-- **What an attempt has spent is not used again**, neither in the same program nor later. -/
theorem Abandons.spent {source : String} {lo hi : Nat}
    (h : Abandons (Source.tokens source) nextRef lo hi) :
    (nextRef ≤ lo ∧ lo ≤ hi ∧
      hi ≤ (Program.parse (Source.tokens source) .interactive nextRef).nextRef) ∧
    ∀ p, (Program.parse (Source.tokens source) .interactive nextRef).result = .ok p →
      ∀ id ∈ p.ids, id < lo ∨ hi ≤ id := by
  obtain ⟨hpasses, hopen, hnone⟩ := h
  have hc : (Cursor.start (Source.tokens source) nextRef).Honest := Source.tokens_honest source
  obtain ⟨p, c', hend⟩ := program_ok .interactive (.start (Source.tokens source) nextRef)
  obtain ⟨hspent, havoids⟩ :=
    programFrom_avoids hc (fun id hid => by simp at hid) hend hpasses hopen hnone
  unfold Program.parse
  rw [hend]
  refine ⟨hspent, fun p' hp' => ?_⟩
  dsimp only at hp'
  split at hp'
  · cases hp'
    exact havoids
  · cases hp'

end ScriptLang.Grammar
