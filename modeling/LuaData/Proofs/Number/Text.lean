import LuaData.Number.Basic
import LuaData.Proofs.Number.Rank

/-
  Reading the text of numbers back. The digits that are written are those of the shortest
  numeral without the zeros at their end, and wherever the point stands among them, the numeral
  that is read has the rank of the number.
-/

namespace LuaData

/-! ## Digits -/

theorem readDigits_eq (cs : List Char) : readDigits cs = Nat.ofDigitChars 10 cs 0 := rfl

theorem readDigits_append_zeros (cs : List Char) (k : Nat) :
    readDigits (cs ++ List.replicate k '0') = readDigits cs * 10 ^ k := by
  rw [readDigits_eq, Nat.ofDigitChars_append, Nat.ofDigitChars_replicate_zero, readDigits_eq,
    Nat.mul_comm]

theorem readDigits_zeros_append (cs : List Char) (k : Nat) :
    readDigits (List.replicate k '0' ++ cs) = readDigits cs := by
  rw [readDigits_eq, Nat.ofDigitChars_append, Nat.ofDigitChars_replicate_zero, Nat.mul_zero,
    readDigits_eq]

theorem readDigits_toDigits (n : Nat) : readDigits (Nat.toDigits 10 n) = n := by
  rw [readDigits_eq, Nat.ofDigitChars_ten_toDigits]

theorem isDigit_toDigits (n : Nat) : ∀ c ∈ Nat.toDigits 10 n, c.isDigit :=
  fun _ hc => Nat.isDigit_of_mem_toDigits (by decide) (by decide) hc

theorem isDigit_zeros (k : Nat) : ∀ c ∈ List.replicate k '0', c.isDigit :=
  fun _ hc => (List.eq_of_mem_replicate hc) ▸ rfl

/-- The digits of a number are the significant ones and zeros. -/
theorem Decimal.toDigits_eq (d : Decimal) :
    ∃ zeros, Nat.toDigits 10 d.digits = d.significant ++ List.replicate zeros '0' := by
  let tail := ((Nat.toDigits 10 d.digits).reverse.takeWhile (· = '0')).reverse
  have hzeros : ∀ c ∈ tail, c = '0' := fun c hc =>
    of_decide_eq_true (List.all_eq_true.1 List.all_takeWhile c (List.mem_reverse.1 hc))
  refine ⟨tail.length, ?_⟩
  rw [← List.eq_replicate_of_mem hzeros, Decimal.significant, ← List.reverse_append,
    List.takeWhile_append_dropWhile, List.reverse_reverse]

theorem Decimal.isDigit_significant (d : Decimal) : ∀ c ∈ d.significant, c.isDigit := by
  obtain ⟨zeros, h⟩ := d.toDigits_eq
  exact fun c hc => isDigit_toDigits d.digits c (h ▸ List.mem_append_left _ hc)

theorem Decimal.significant_ne_nil {d : Decimal} (h : d.digits ≠ 0) : d.significant ≠ [] := by
  intro hs
  obtain ⟨zeros, hd⟩ := d.toDigits_eq
  have hr := readDigits_toDigits d.digits
  rw [hd, hs, List.nil_append, ← List.append_nil (List.replicate _ _),
    readDigits_zeros_append] at hr
  exact h hr.symm

/-- The numeral of the significant digits has the rank of the whole one. -/
theorem Decimal.rank_significant (d : Decimal) (j : Nat) :
    (⟨readDigits d.significant * 10 ^ j, d.point - d.significant.length - j⟩ : Decimal).rank =
      d.rank := by
  obtain ⟨zeros, hd⟩ := d.toDigits_eq
  obtain ⟨digits, exponent⟩ := d
  simp only at hd
  have hval : digits = readDigits (Decimal.significant ⟨digits, exponent⟩) * 10 ^ zeros := by
    rw [← readDigits_append_zeros, ← hd, readDigits_toDigits]
  have hpoint : Decimal.point ⟨digits, exponent⟩ -
      (Decimal.significant ⟨digits, exponent⟩).length = exponent + zeros := by
    rw [Decimal.point, hd, List.length_append, List.length_replicate]
    simp only
    omega
  rw [Decimal.rank_mul_pow, hpoint, ← Decimal.rank_mul_pow _ zeros, ← hval,
    Int.add_sub_cancel]

/-! ## Numerals -/

theorem readFraction_of_ne {rest : List Char} (h : ∀ c ∈ rest.head?, c ≠ '.') :
    readFraction rest = ([], rest) := by
  unfold readFraction
  split
  · exact absurd rfl (h '.' rfl)
  · rfl

theorem takeWhile_dropWhile_of_stop {p : Char → Bool} {body rest : List Char}
    (hb : ∀ c ∈ body, p c) (hrest : ∀ c ∈ rest.head?, p c = false) :
    (body ++ rest).takeWhile p = body ∧ (body ++ rest).dropWhile p = rest := by
  rw [List.takeWhile_append_of_pos hb, List.dropWhile_append_of_pos hb]
  cases rest with
  | nil => exact ⟨List.append_nil body, rfl⟩
  | cons c more =>
    rw [List.takeWhile_cons, List.dropWhile_cons, hrest c rfl]
    exact ⟨List.append_nil body, rfl⟩

/-- A numeral with a point is read as its digits and its power of ten. -/
theorem readMagnitude?_point {whole fraction rest : List Char} (hw : ∀ c ∈ whole, c.isDigit)
    (hne : whole ≠ []) (hf : ∀ c ∈ fraction, c.isDigit)
    (hrest : ∀ c ∈ rest.head?, c.isDigit = false) :
    readMagnitude? (whole ++ '.' :: (fraction ++ rest)) =
      (readExponent? rest).map fun power =>
        ⟨readDigits (whole ++ fraction), power - fraction.length⟩ := by
  have hpoint : ∀ c ∈ ('.' :: (fraction ++ rest)).head?, c.isDigit = false := fun c hc => by
    cases hc; rfl
  obtain ⟨htake, hdrop⟩ := takeWhile_dropWhile_of_stop (p := Char.isDigit) hw hpoint
  obtain ⟨htake', hdrop'⟩ := takeWhile_dropWhile_of_stop (p := Char.isDigit) hf hrest
  have hempty : whole.isEmpty = false := List.isEmpty_eq_false_iff.2 hne
  simp only [readMagnitude?, htake, hdrop, readFraction, htake', hdrop', hempty, Bool.false_and,
    Bool.false_eq_true, if_false]

/-- A numeral without a point is read as its digits and its power of ten. -/
theorem readMagnitude?_whole {whole rest : List Char} (hw : ∀ c ∈ whole, c.isDigit)
    (hne : whole ≠ []) (hrest : ∀ c ∈ rest.head?, c.isDigit = false ∧ c ≠ '.') :
    readMagnitude? (whole ++ rest) =
      (readExponent? rest).map fun power => ⟨readDigits whole, power⟩ := by
  obtain ⟨htake, hdrop⟩ := takeWhile_dropWhile_of_stop (p := Char.isDigit) hw
    fun c hc => (hrest c hc).1
  have hempty : whole.isEmpty = false := List.isEmpty_eq_false_iff.2 hne
  simp only [readMagnitude?, htake, hdrop, readFraction_of_ne fun c hc => (hrest c hc).2, hempty,
    Bool.false_and, Bool.false_eq_true, if_false, List.append_nil, List.length_nil,
    Int.natCast_zero, Int.sub_zero]

theorem readPower?_digits {digits : List Char} (h : ∀ c ∈ digits, c.isDigit)
    (hne : digits ≠ []) (negative : Bool) :
    readPower? ((if negative then '-' else '+') :: digits) =
      some (if negative then -(readDigits digits : Int) else readDigits digits) := by
  have hempty : digits.isEmpty = false := List.isEmpty_eq_false_iff.2 hne
  have hall : digits.all Char.isDigit = true := List.all_eq_true.2 h
  cases negative <;>
    simp [readPower?, hempty, hall]

/-! ## The text of magnitudes -/

/-- Digits around a point that stand for the same number as other digits and a place of the
point among those. -/
structure IsPlaced (digits : List Char) (point : Int) (whole fraction : List Char) : Prop where
  ne : whole ≠ []
  before : ∀ c ∈ whole, c.isDigit
  behind : ∀ c ∈ fraction, c.isDigit
  value : ∃ j : Nat, readDigits (whole ++ fraction) = readDigits digits * 10 ^ j ∧
    (0 : Int) - fraction.length = point - digits.length - j

/-- Wherever the point stands, zeros fill the places between it and the digits. -/
theorem exists_positional {digits : List Char} (h : ∀ c ∈ digits, c.isDigit)
    (hne : digits ≠ []) (point : Int) : ∃ whole fraction,
      positional digits point = whole ++ '.' :: fraction ∧
        IsPlaced digits point whole fraction := by
  have hzeros : ∀ k, ∀ c ∈ List.replicate k '0' ++ digits, c.isDigit := fun k =>
    List.forall_mem_append.2 ⟨isDigit_zeros k, h⟩
  have hzeros' : ∀ k, ∀ c ∈ digits ++ List.replicate k '0', c.isDigit := fun k =>
    List.forall_mem_append.2 ⟨h, isDigit_zeros k⟩
  rw [positional]
  split
  · -- All digits stand after the point, and zeros before them.
    refine ⟨['0'], List.replicate (-point).toNat '0' ++ digits, rfl, List.cons_ne_nil _ _,
      isDigit_zeros 1, hzeros _, 0, ?_, ?_⟩
    · have hone : ['0'] = List.replicate 1 '0' := rfl
      rw [hone, readDigits_zeros_append, readDigits_zeros_append, Nat.pow_zero, Nat.mul_one]
    · rw [List.length_append, List.length_replicate]
      omega
  · split
    · -- All digits stand before the point, with zeros after them and one behind it.
      refine ⟨digits ++ List.replicate (point.toNat - digits.length) '0', ['0'], rfl, ?_,
        hzeros' _, isDigit_zeros 1, point.toNat - digits.length + 1, ?_, ?_⟩
      · exact fun hn => hne (List.append_eq_nil_iff.1 hn).1
      · have hone : ['0'] = List.replicate 1 '0' := rfl
        rw [hone, List.append_assoc, List.replicate_append_replicate, readDigits_append_zeros]
      · rw [List.length_singleton]
        omega
    · refine ⟨digits.take point.toNat, digits.drop point.toNat, rfl, fun hn => ?_,
        fun c hc => h c (List.mem_of_mem_take hc), fun c hc => h c (List.mem_of_mem_drop hc),
        0, ?_, ?_⟩
      · have := congrArg List.length hn
        rw [List.length_take, List.length_nil] at this
        omega
      · rw [List.take_append_drop, Nat.pow_zero, Nat.mul_one]
      · rw [List.length_drop]
        omega

/-- Wherever the point stands, the digits are read with the power of ten that fits. -/
theorem readMagnitude?_positional {digits : List Char} (h : ∀ c ∈ digits, c.isDigit)
    (hne : digits ≠ []) (point : Int) :
    ∃ j : Nat, readMagnitude? (positional digits point) =
      some ⟨readDigits digits * 10 ^ j, point - digits.length - j⟩ := by
  obtain ⟨whole, fraction, htext, hp⟩ := exists_positional h hne point
  obtain ⟨j, hdigits, hplace⟩ := hp.value
  have hread := readMagnitude?_point hp.before hp.ne hp.behind
    fun c (hc : c ∈ ([] : List Char).head?) => by cases hc
  refine ⟨j, ?_⟩
  rw [htext, ← List.append_nil fraction, hread, readExponent?, Option.map_some, hdigits, hplace]

/-- The parts of a numeral with one digit before the point. -/
theorem scientific_cons (c : Char) (rest : List Char) (point : Int) :
    scientific (c :: rest) point =
      [c] ++ ((if rest.isEmpty then [] else '.' :: rest) ++
        'e' :: (if decide (point ≤ 0) then '-' else '+') ::
          (List.replicate (2 - (Nat.toDigits 10 (point - 1).natAbs).length) '0' ++
            Nat.toDigits 10 (point - 1).natAbs)) := by
  cases rest <;> simp [scientific]

theorem isDigit_power (k n : Nat) :
    ∀ c ∈ List.replicate k '0' ++ Nat.toDigits 10 n, c.isDigit :=
  List.forall_mem_append.2 ⟨isDigit_zeros k, isDigit_toDigits n⟩

theorem readMagnitude?_scientific {digits : List Char} (h : ∀ c ∈ digits, c.isDigit)
    (hne : digits ≠ []) (point : Int) :
    readMagnitude? (scientific digits point) =
      some ⟨readDigits digits, point - digits.length⟩ := by
  obtain ⟨c, rest, rfl⟩ := List.exists_cons_of_ne_nil hne
  rw [List.forall_mem_cons] at h
  have hfirst : ∀ d ∈ [c], d.isDigit := List.forall_mem_singleton.2 h.1
  rw [scientific_cons]
  generalize hzeros : 2 - (Nat.toDigits 10 (point - 1).natAbs).length = zeros
  generalize htail : 'e' :: (if decide (point ≤ 0) then '-' else '+') ::
    (List.replicate zeros '0' ++ Nat.toDigits 10 (point - 1).natAbs) = tail
  have hread : readExponent? tail = some (point - 1) := by
    have hpne : List.replicate zeros '0' ++ Nat.toDigits 10 (point - 1).natAbs ≠ [] :=
      fun hn => Nat.toDigits_ne_nil (List.append_eq_nil_iff.1 hn).2
    rw [← htail, readExponent?, if_pos (Or.inl rfl),
      readPower?_digits (isDigit_power _ _) hpne, readDigits_zeros_append, readDigits_toDigits]
    congr 1
    by_cases hp : point ≤ 0
    · rw [decide_eq_true hp, if_pos rfl]
      omega
    · rw [decide_eq_false hp, if_neg Bool.false_ne_true]
      omega
  have hhead : ∀ d ∈ tail.head?, d.isDigit = false ∧ d ≠ '.' := fun d hd => by
    rw [← htail] at hd
    cases hd
    exact ⟨rfl, by decide⟩
  split
  · rename_i hempty
    rw [List.isEmpty_iff.1 hempty, List.nil_append,
      readMagnitude?_whole hfirst (List.cons_ne_nil _ _) hhead, hread]
    rfl
  · have hcons : '.' :: rest ++ tail = '.' :: (rest ++ tail) := rfl
    have he : point - 1 - (rest.length : Int) = point - (c :: rest).length := by
      rw [List.length_cons]
      omega
    rw [hcons, readMagnitude?_point hfirst (List.cons_ne_nil _ _) h.2
      fun d hd => (hhead d hd).1, hread, Option.map_some, he]
    rfl

/-- The text of a magnitude is read back. -/
theorem readMagnitude?_magnitudeText {rank : Nat} (h : rank < 0x7FF0000000000000) :
    ∃ d, readMagnitude? (magnitudeText rank) = some d ∧ d.rank = rank := by
  rw [magnitudeText]
  split
  · rename_i h0
    exact ⟨⟨0, -1⟩, by decide, by rw [h0]; exact Decimal.rank_zero _⟩
  · rename_i h0
    have hrank := Decimal.rank_shortest h
    have hdigits : (Decimal.shortest rank).digits ≠ 0 :=
      Decimal.digits_ne_zero (by rw [hrank]; exact h0)
    have hs := (Decimal.shortest rank).isDigit_significant
    have hne := Decimal.significant_ne_nil hdigits
    simp only
    split
    · obtain ⟨j, hj⟩ := readMagnitude?_positional hs hne (Decimal.shortest rank).point
      exact ⟨_, hj, (Decimal.rank_significant _ j).trans hrank⟩
    · refine ⟨_, readMagnitude?_scientific hs hne _, ?_⟩
      have hj := Decimal.rank_significant (Decimal.shortest rank) 0
      rw [Nat.pow_zero, Nat.mul_one, Int.natCast_zero, Int.sub_zero] at hj
      exact hj.trans hrank

end LuaData
