import Mathlib.Data.List.TakeWhile
import ScriptLang.Decimal.Layout
import ScriptLang.Proofs.Decimal.Floats
import ScriptLang.Proofs.Decimal.Shortest

/-!
# Numbers from their plain texts

A number in plain style is written with digits, at most one point among them, and perhaps a sign
before them. The digits without the point, over a power of ten for the places behind it, are the
decimal that is written (`plainValue_inFull`). This decimal rounds to the number and to no other
one, so that finite numbers with the same text are the same (`render_plain_injective`).
-/

namespace ScriptLang.Decimal

/-! ## The value of a text -/

/-- The number that digits with a point among them stand for. -/
def plainValue (cs : List Char) : ℚ :=
  let whole := cs.takeWhile Char.isDigit
  let places := (cs.dropWhile Char.isDigit).tail
  (Nat.ofDigitChars 10 (whole ++ places) 0 : ℚ) / 10 ^ places.length

variable {ds : List Char} {n : Nat} {power : Int} {c : Char}

theorem plainValue_whole (h : ∀ c ∈ ds, c.isDigit) :
    plainValue ds = Nat.ofDigitChars 10 ds 0 := by
  have htake : ds.takeWhile Char.isDigit = ds := List.takeWhile_eq_self_iff.mpr h
  have hdrop : ds.dropWhile Char.isDigit = [] := List.dropWhile_eq_nil_iff.mpr h
  simp [plainValue, htake, hdrop]

theorem plainValue_point (places : List Char) (h : ∀ c ∈ ds, c.isDigit) :
    plainValue (ds ++ '.' :: places) =
      (Nat.ofDigitChars 10 (ds ++ places) 0 : ℚ) / 10 ^ places.length := by
  have htake : (ds ++ '.' :: places).takeWhile Char.isDigit = ds := by
    rw [List.takeWhile_append_of_pos h]
    simp
  have hdrop : (ds ++ '.' :: places).dropWhile Char.isDigit = '.' :: places := by
    rw [List.dropWhile_append_of_pos h]
    simp
  unfold plainValue
  rw [htake, hdrop, List.tail_cons]

theorem isDigit_of_mem_digitsOf (h : c ∈ digitsOf n) : c.isDigit :=
  Nat.isDigit_of_mem_toDigits (by decide) (by decide) h

theorem digitsOf_ne_nil (n : Nat) : digitsOf n ≠ [] := Nat.toDigits_ne_nil

theorem ofDigitChars_digitsOf (n : Nat) : Nat.ofDigitChars 10 (digitsOf n) 0 = n :=
  Nat.ofDigitChars_ten_toDigits

/-- **A decimal written in full has its value.** -/
theorem plainValue_inFull (n : Nat) (power : Int) :
    plainValue (inFull false (digitsOf n) power) = decimalValue n power := by
  have hdigits : ∀ c ∈ digitsOf n, c.isDigit := fun c hc => isDigit_of_mem_digitsOf hc
  unfold inFull decimalValue
  dsimp only
  split
  · -- a whole number
    rename_i hpower
    have hall : ∀ c ∈ digitsOf n ++ List.replicate power.toNat '0', c.isDigit := by
      intro c hc
      rcases List.mem_append.mp hc with hc | hc
      · exact hdigits c hc
      · rw [List.eq_of_mem_replicate hc]
        rfl
    have hten : (10 : ℚ) ^ power = 10 ^ power.toNat := by
      rw [← zpow_natCast]
      congr 1
      omega
    rw [if_neg Bool.false_ne_true, List.append_nil, plainValue_whole hall,
      Nat.ofDigitChars_append, ofDigitChars_digitsOf, Nat.ofDigitChars_replicate_zero, hten]
    push_cast
    ring
  · rename_i hpower
    have hten : (10 : ℚ) ^ power = (10 ^ (-power).toNat)⁻¹ := by
      rw [← zpow_natCast, ← zpow_neg]
      congr 1
      omega
    rw [hten, ← div_eq_mul_inv]
    split
    · -- a point among the digits
      rename_i hplaces
      have htake : ∀ c ∈ (digitsOf n).take ((digitsOf n).length - (-power).toNat), c.isDigit :=
        fun c hc => hdigits c (List.mem_of_mem_take hc)
      have hlength : ((digitsOf n).drop ((digitsOf n).length - (-power).toNat)).length =
          (-power).toNat := by
        rw [List.length_drop]
        omega
      rw [plainValue_point _ htake, List.take_append_drop, ofDigitChars_digitsOf, hlength]
    · -- a point before all of them
      rename_i hplaces
      have hzero : ∀ c ∈ ['0'], c.isDigit := List.forall_mem_singleton.mpr rfl
      have hlength : (List.replicate ((-power).toNat - (digitsOf n).length) '0' ++
          digitsOf n).length = (-power).toNat := by
        rw [List.length_append, List.length_replicate]
        omega
      have hvalue : Nat.ofDigitChars 10 (['0'] ++ (List.replicate
          ((-power).toNat - (digitsOf n).length) '0' ++ digitsOf n)) 0 = n := by
        rw [Nat.ofDigitChars_append, Nat.ofDigitChars_append, Nat.ofDigitChars_replicate_zero]
        exact ofDigitChars_digitsOf n
      have hpoint := plainValue_point (List.replicate ((-power).toNat - (digitsOf n).length) '0' ++
        digitsOf n) hzero
      rw [hvalue, hlength] at hpoint
      exact hpoint

/-! ## The characters of a text -/

/-- A text of digits and points that begins with a digit. -/
structure IsPlain (cs : List Char) : Prop where
  first : ∃ c rest, cs = c :: rest ∧ c.isDigit
  all : ∀ c ∈ cs, c.isDigit ∨ c = '.'

theorem isPlain_inFull (n : Nat) (power : Int) : IsPlain (inFull false (digitsOf n) power) := by
  have hdigits : ∀ c ∈ digitsOf n, c.isDigit := fun c hc => isDigit_of_mem_digitsOf hc
  obtain ⟨c, rest, hcons⟩ := List.exists_cons_of_ne_nil (digitsOf_ne_nil n)
  have hc : c.isDigit := hdigits c (by simp [hcons])
  have hzeros (k : Nat) : ∀ c ∈ List.replicate k '0', c.isDigit := by
    intro c hc
    rw [List.eq_of_mem_replicate hc]
    rfl
  unfold inFull
  split
  · refine ⟨⟨c, rest ++ List.replicate power.toNat '0', by simp [hcons], hc⟩, fun c hc => .inl ?_⟩
    simp only [Bool.false_eq_true, if_false, List.append_nil, List.mem_append] at hc
    exact hc.elim (hdigits c) (hzeros _ c)
  · dsimp only
    split
    · rename_i hplaces
      constructor
      · have hlength : (digitsOf n).length - (-power).toNat =
            (digitsOf n).length - (-power).toNat - 1 + 1 := by omega
        rw [hlength, hcons, List.take_succ_cons]
        exact ⟨c, _, rfl, hc⟩
      · intro c hc
        rcases List.mem_append.mp hc with hc | hc
        · exact .inl (hdigits c (List.mem_of_mem_take hc))
        · rcases List.mem_cons.mp hc with rfl | hc
          · exact .inr rfl
          · exact .inl (hdigits c (List.mem_of_mem_drop hc))
    · refine ⟨⟨'0', _, rfl, rfl⟩, fun c hc => ?_⟩
      rcases List.mem_cons.mp hc with rfl | hc
      · exact .inl rfl
      · rcases List.mem_cons.mp hc with rfl | hc
        · exact .inr rfl
        · exact .inl ((List.mem_append.mp hc).elim (hzeros _ c) (hdigits c))

/-! ## Finite numbers -/

variable {x y : Float} {negative negative' : Bool} {b : Binary}

/-- A finite number in plain style. -/
theorem render_plain (h : Parts.of x = .finite negative b) : (render plain x).toList =
    (if negative then ['-'] else []) ++
      inFull false (digitsOf b.shortest.digits) b.shortest.power := by
  unfold render
  rw [h]
  cases negative <;> simp [Scientific.render, plain]

/-- A sign can be told from what stands behind it. -/
theorem sign_injective {cs cs' : List Char} (hcs : IsPlain cs) (hcs' : IsPlain cs')
    (h : (if negative then ['-'] else []) ++ cs = (if negative' then ['-'] else []) ++ cs') :
    negative = negative' ∧ cs = cs' := by
  obtain ⟨c, rest, rfl, hc⟩ := hcs.first
  obtain ⟨c', rest', rfl, hc'⟩ := hcs'.first
  have hsign : ¬ ('-').isDigit := by decide
  cases negative <;> cases negative'
  · exact ⟨rfl, h⟩
  · cases h
    exact absurd hc hsign
  · cases h
    exact absurd hc' hsign
  · exact ⟨rfl, (List.cons.inj h).2⟩

/-- **Finite numbers with the same plain text are the same.** -/
theorem render_plain_injective (hx : x.isFinite = true) (hy : y.isFinite = true)
    (h : render plain x = render plain y) : x = y := by
  obtain ⟨negative, b, hb, hcanonical⟩ := Parts.of_isFinite hx
  obtain ⟨negative', b', hb', hcanonical'⟩ := Parts.of_isFinite hy
  have htexts := congrArg String.toList h
  rw [render_plain hb, render_plain hb'] at htexts
  obtain ⟨rfl, hdigits⟩ := sign_injective (isPlain_inFull ..) (isPlain_inFull ..) htexts
  have hvalue := congrArg plainValue hdigits
  rw [plainValue_inFull, plainValue_inFull] at hvalue
  have hround := b.roundsTo_shortest.unique hcanonical hcanonical' b'.roundsTo_shortest hvalue
  subst hround
  exact Parts.of_injective hb hb'

/-- The plain text of a finite number begins with a digit or a sign, and has nothing else but digits
and points. -/
theorem render_plain_cases (hx : x.isFinite = true) : ∃ cs, IsPlain cs ∧
    ((render plain x).toList = cs ∨ (render plain x).toList = '-' :: cs) := by
  obtain ⟨negative, b, hb, -⟩ := Parts.of_isFinite hx
  have htext := render_plain hb
  refine ⟨_, isPlain_inFull b.shortest.digits b.shortest.power, ?_⟩
  cases negative
  · exact .inl htext
  · exact .inr htext

end ScriptLang.Decimal
