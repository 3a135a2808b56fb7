import LuaData.Proofs.Text.Runs

/-
  Which texts are escaped alike. Escaping doubles the pairs of backslashes in a run and puts one
  more backslash before what would be read as a sequence with the last of them; a newline is
  spelled by the letter `n` (`escapeChars_append`). So a newline and the letter look the same
  behind a backslash, and nothing else is lost (`escapeText_eq_iff`).
-/

namespace LuaData

/-! ## Escaping by runs -/

/-- Whether a character behind `k` backslashes gets one of its own: a newline always does, the
letters of the two sequences where there is a backslash that they could belong to. -/
def IsMarked (k : Nat) (c : Char) : Prop :=
  c = '\n' ∨ 0 < k ∧ (c = 'n' ∨ c = 'r')

instance (k : Nat) (c : Char) : Decidable (IsMarked k c) :=
  inferInstanceAs (Decidable (_ ∨ _))

/-- How many backslashes stand before a character in an escaped text, if it stands behind `k`
ones in the text. -/
def escapedRun (k : Nat) (c : Char) : Nat :=
  doubledRun k + if IsMarked k c then 1 else 0

/-- The character that is left of `c`: a newline is spelled by a letter. -/
def spelled (c : Char) : Char :=
  if c = '\n' then 'n' else c

theorem spelled_ne {c : Char} (hc : c ≠ '\\') : spelled c ≠ '\\' := by
  unfold spelled
  split
  · decide
  · exact hc

theorem replaceNewlines_backslashes (k : Nat) :
    replaceNewlines (backslashes k) = backslashes k := by
  induction k with
  | zero => rfl
  | succ k ih => exact congrArg ('\\' :: ·) ih

theorem replaceNewlines_append (k : Nat) (c : Char) (rest : List Char) :
    replaceNewlines (backslashes k ++ c :: rest) =
      backslashes (k + if c = '\n' then 1 else 0) ++ spelled c :: replaceNewlines rest := by
  have happend : replaceNewlines (backslashes k ++ c :: rest) =
      replaceNewlines (backslashes k) ++ replaceNewlines (c :: rest) := List.flatMap_append
  have hcons : replaceNewlines (c :: rest) =
      (if c = '\n' then ['\\', 'n'] else [c]) ++ replaceNewlines rest := List.flatMap_cons
  rw [happend, hcons, replaceNewlines_backslashes, spelled]
  by_cases hc : c = '\n'
  · rw [if_pos hc, if_pos hc, if_pos hc, ← backslashes_append, List.append_assoc]
    rfl
  · rw [if_neg hc, if_neg hc, if_neg hc]
    rfl

/-- The sequence of a backslash and `x` gets one more backslash. -/
theorem replacePair_sequence_append {x c : Char} (hx : x ≠ '\\') (hc : c ≠ '\\') (k : Nat)
    (rest : List Char) :
    replacePair '\\' x ['\\', '\\', x] (backslashes k ++ c :: rest) =
      backslashes (k + if 0 < k ∧ c = x then 1 else 0) ++
        c :: replacePair '\\' x ['\\', '\\', x] rest := by
  have h := replacePair_letter_append (j := 2) (y := x) hx hc k rest
  have hletter : (if 0 < k ∧ c = x then x else c) = c := by
    split
    · rename_i hk
      exact hk.2.symm
    · rfl
  have hrun : (if 0 < k ∧ c = x then k - 1 + 2 else k) =
      k + if 0 < k ∧ c = x then 1 else 0 := by
    split <;> omega
  rwa [hletter, hrun] at h

theorem escapeChars_backslashes (k : Nat) :
    escapeChars (backslashes k) = backslashes (doubledRun k) := by
  have hpairs := replacePair_backslashes k
  have hletter : ∀ x, x ≠ '\\' → ∀ m,
      replacePair '\\' x ['\\', '\\', x] (backslashes m) = backslashes m :=
    fun x hx m => replacePair_letter (j := 2) hx m
  unfold escapeChars
  rw [show (['\\', '\\', '\\', '\\'] : List Char) = backslashes 4 from rfl, hpairs,
    hletter 'r' (by decide), hletter 'n' (by decide), replaceNewlines_backslashes]

/-- What escaping does to a run and the character behind it. -/
theorem escapeChars_append {c : Char} (hc : c ≠ '\\') (k : Nat) (rest : List Char) :
    escapeChars (backslashes k ++ c :: rest) =
      backslashes (escapedRun k c) ++ spelled c :: escapeChars rest := by
  unfold escapeChars
  rw [show (['\\', '\\', '\\', '\\'] : List Char) = backslashes 4 from rfl,
    replacePair_backslashes_append hc, replacePair_sequence_append (by decide) hc,
    replacePair_sequence_append (by decide) hc, replaceNewlines_append]
  congr 2
  -- The three passes add a backslash for different characters, so at most one of them does.
  have hpos : 0 < doubledRun k ↔ 0 < k := by unfold doubledRun; omega
  unfold escapedRun IsMarked
  by_cases hr : c = 'r'
  · subst hr
    simp [hpos]
  by_cases hn : c = 'n'
  · subst hn
    simp [hpos]
  simp [hr, hn]

/-! ## Spelling -/

/-- The text with each newline directly behind a backslash as the letter `n`. -/
def spellNewlines (cs : List Char) : List Char :=
  replacePair '\\' '\n' ['\\', 'n'] cs

theorem spellNewlines_backslashes (k : Nat) : spellNewlines (backslashes k) = backslashes k :=
  replacePair_letter (j := 1) (by decide) k

theorem spellNewlines_append {c : Char} (hc : c ≠ '\\') (k : Nat) (rest : List Char) :
    spellNewlines (backslashes k ++ c :: rest) =
      backslashes k ++ (if 0 < k then spelled c else c) :: spellNewlines rest := by
  have h := replacePair_letter_append (x := '\n') (y := 'n') (j := 1) (by decide) hc k rest
  have hrun : (if 0 < k ∧ c = '\n' then k - 1 + 1 else k) = k := by split <;> omega
  have hletter : (if 0 < k ∧ c = '\n' then 'n' else c) = if 0 < k then spelled c else c := by
    rw [ite_and]
    rfl
  rwa [hrun, hletter] at h

theorem spellNewlines_of_not_infix {cs : List Char} (h : ¬ ['\\', '\n'] <:+: cs) :
    spellNewlines cs = cs :=
  replacePair_of_not_infix h

/-! ## What is lost -/

theorem escapedRun_inj {j k : Nat} {c : Char} : escapedRun j c = escapedRun k c ↔ j = k := by
  refine ⟨fun h => ?_, congrArg (escapedRun · c)⟩
  unfold escapedRun IsMarked doubledRun at h
  by_cases hn : c = '\n'
  · simp only [hn, true_or, if_true] at h
    omega
  · by_cases hl : c = 'n' ∨ c = 'r'
    · simp only [hn, hl, false_or, and_true] at h
      split at h <;> split at h <;> omega
    · simp only [hn, hl, false_or, and_false, if_false] at h
      omega

/-- Behind a backslash a newline and the letter for it look the same, and only there. -/
theorem escapedRun_letter {j k : Nat} : escapedRun j 'n' = escapedRun k '\n' ↔ j = k ∧ 0 < j := by
  have hletter : IsMarked j 'n' ↔ 0 < j :=
    ⟨fun h => h.elim (fun h => absurd h (by decide)) And.left, fun h => Or.inr ⟨h, Or.inl rfl⟩⟩
  have hnewline : IsMarked k '\n' := Or.inl rfl
  unfold escapedRun doubledRun
  rw [if_pos hnewline]
  by_cases hj : 0 < j
  · rw [if_pos (hletter.2 hj)]
    omega
  · rw [if_neg fun h => hj (hletter.1 h)]
    omega

theorem spelled_eq_iff {c d : Char} : spelled c = spelled d ↔
    c = d ∨ c = 'n' ∧ d = '\n' ∨ c = '\n' ∧ d = 'n' := by
  unfold spelled
  by_cases hc : c = '\n' <;> by_cases hd : d = '\n'
  · simp only [hc, hd, if_true, true_or]
  · have : ('\n' = d) = False := eq_false (Ne.symm hd)
    simp only [hc, hd, this, if_true, if_false, and_false, false_or, true_and, eq_comm]
  · simp only [hc, hd, if_true, if_false, and_true, false_and, or_false, false_or]
  · simp only [hc, hd, if_false, and_false, false_and, or_false]

/-- A run and the character behind it can be told from their escaped form, apart from a newline
and the letter for it behind a backslash. -/
theorem escapedRun_eq_iff {j k : Nat} {c d : Char} :
    escapedRun j c = escapedRun k d ∧ spelled c = spelled d ↔
      j = k ∧ (if 0 < j then spelled c else c) = if 0 < k then spelled d else d := by
  constructor
  · rintro ⟨hrun, hc⟩
    obtain rfl | ⟨rfl, rfl⟩ | ⟨rfl, rfl⟩ := spelled_eq_iff.1 hc
    · obtain rfl := escapedRun_inj.1 hrun
      exact ⟨rfl, rfl⟩
    · obtain ⟨rfl, hj⟩ := escapedRun_letter.1 hrun
      exact ⟨rfl, by rw [if_pos hj, if_pos hj, hc]⟩
    · obtain ⟨rfl, hk⟩ := escapedRun_letter.1 hrun.symm
      exact ⟨rfl, by rw [if_pos hk, if_pos hk, hc]⟩
  · rintro ⟨rfl, hc⟩
    by_cases hj : 0 < j
    · rw [if_pos hj, if_pos hj] at hc
      refine ⟨?_, hc⟩
      obtain rfl | ⟨rfl, rfl⟩ | ⟨rfl, rfl⟩ := spelled_eq_iff.1 hc
      · rfl
      · exact escapedRun_letter.2 ⟨rfl, hj⟩
      · exact (escapedRun_letter.2 ⟨rfl, hj⟩).symm
    · rw [if_neg hj, if_neg hj] at hc
      rw [hc]
      exact ⟨rfl, rfl⟩

theorem escapeChars_eq_iff (cs ds : List Char) :
    escapeChars cs = escapeChars ds ↔ spellNewlines cs = spellNewlines ds := by
  have letter : ∀ {c : Char} (k : Nat), c ≠ '\\' → (if 0 < k then spelled c else c) ≠ '\\' :=
    fun k hc => by
      split
      · exact spelled_ne hc
      · exact hc
  -- A text that ends in the run and one that goes on differ in both forms.
  have differ : ∀ (j k : Nat) {c : Char} (rest : List Char), c ≠ '\\' →
      escapeChars (backslashes j) ≠ escapeChars (backslashes k ++ c :: rest) ∧
        spellNewlines (backslashes j) ≠ spellNewlines (backslashes k ++ c :: rest) := by
    intro j k c rest hc
    rw [escapeChars_backslashes, escapeChars_append hc, spellNewlines_backslashes,
      spellNewlines_append hc]
    exact ⟨backslashes_ne (spelled_ne hc), backslashes_ne (letter k hc)⟩
  induction cs using backslash_induction generalizing ds with
  | last j =>
    cases ds using backslash_induction with
    | last k =>
      rw [escapeChars_backslashes, escapeChars_backslashes, spellNewlines_backslashes,
        spellNewlines_backslashes, backslashes_inj, backslashes_inj]
      unfold doubledRun
      omega
    | step k d more hd _ => exact iff_of_false (differ j k more hd).1 (differ j k more hd).2
  | step j c rest hc ih =>
    cases ds using backslash_induction with
    | last k =>
      exact iff_of_false (differ k j rest hc).1.symm (differ k j rest hc).2.symm
    | step k d more hd _ =>
      rw [escapeChars_append hc, escapeChars_append hd, spellNewlines_append hc,
        spellNewlines_append hd, backslashes_append_inj (spelled_ne hc) (spelled_ne hd),
        backslashes_append_inj (letter j hc) (letter k hd), ← and_assoc, ← and_assoc]
      exact and_congr escapedRun_eq_iff (ih more)

/-- Two texts are escaped alike if and only if they are the same once each newline directly behind
a backslash is the letter `n`. Texts without such a newline are told apart. -/
theorem escapeText_eq_iff (s t : String) :
    (escapeText s = escapeText t ↔ spellNewlines s.toList = spellNewlines t.toList) ∧
      Set.InjOn escapeText {u | ¬ ['\\', '\n'] <:+: u.toList} := by
  have alike : ∀ s t : String,
      escapeText s = escapeText t ↔ spellNewlines s.toList = spellNewlines t.toList :=
    fun s t => by
      rw [← escapeChars_eq_iff, ← toList_escapeText, ← toList_escapeText, String.toList_inj]
  refine ⟨alike s t, fun u hu w hw h => ?_⟩
  rw [alike, spellNewlines_of_not_infix hu, spellNewlines_of_not_infix hw] at h
  exact String.toList_inj.1 h

end LuaData
