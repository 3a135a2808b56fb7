import LuaData.Text.Escape
import Mathlib

/-
  Texts as runs of backslashes. A text is such a run, which may be empty, and then either nothing
  or another character and the rest of the text; it is so in one way only. Replacing pairs of
  characters of which the first is a backslash changes how long a run is and at most the
  character behind it.
-/

namespace LuaData

/-! ## Runs -/

def backslashes (k : Nat) : List Char := List.replicate k '\\'

theorem backslashes_zero : backslashes 0 = [] := rfl

theorem backslashes_succ (k : Nat) : backslashes (k + 1) = '\\' :: backslashes k := rfl

theorem backslashes_append (j k : Nat) : backslashes j ++ backslashes k = backslashes (j + k) :=
  List.replicate_append_replicate

theorem backslashes_inj {j k : Nat} : backslashes j = backslashes k ↔ j = k := by
  refine ⟨fun h => ?_, congrArg backslashes⟩
  have := congrArg List.length h
  rwa [backslashes, backslashes, List.length_replicate, List.length_replicate] at this

/-- Induction along the runs of a text. -/
theorem backslash_induction {motive : List Char → Prop} (last : ∀ k, motive (backslashes k))
    (step : ∀ k c rest, c ≠ '\\' → motive rest → motive (backslashes k ++ c :: rest)) :
    ∀ cs, motive cs := by
  have pending : ∀ cs k, motive (backslashes k ++ cs) := by
    intro cs
    induction cs with
    | nil => exact fun k => by rw [List.append_nil]; exact last k
    | cons c rest ih =>
      intro k
      by_cases hc : c = '\\'
      · have h := ih (k + 1)
        rw [← backslashes_append] at h
        rw [hc, List.append_cons]
        exact h
      · exact step k c rest hc (ih 0)
  exact fun cs => pending cs 0

/-- A run that ends a text is no run before another character. -/
theorem backslashes_ne {j k : Nat} {c : Char} {rest : List Char} (hc : c ≠ '\\') :
    backslashes j ≠ backslashes k ++ c :: rest := by
  intro h
  have hmem : c ∈ backslashes j := h ▸ List.mem_append_right _ List.mem_cons_self
  exact hc (List.eq_of_mem_replicate hmem)

theorem backslashes_append_inj {j k : Nat} {c d : Char} {rest more : List Char}
    (hc : c ≠ '\\') (hd : d ≠ '\\') :
    backslashes j ++ c :: rest = backslashes k ++ d :: more ↔ j = k ∧ c = d ∧ rest = more := by
  induction j generalizing k with
  | zero =>
    cases k with
    | zero => simp only [backslashes_zero, List.nil_append, List.cons.injEq, true_and]
    | succ k => simp only [backslashes_succ, backslashes_zero, List.nil_append, List.cons_append,
        List.cons.injEq, hc, false_and, Nat.right_eq_add, Nat.add_eq_zero_iff, and_false,
        Nat.one_ne_zero]
  | succ j ih =>
    cases k with
    | zero => simp only [backslashes_succ, backslashes_zero, List.nil_append, List.cons_append,
        List.cons.injEq, Ne.symm hd, false_and, Nat.add_eq_zero_iff, and_false, Nat.one_ne_zero]
    | succ k => simp only [backslashes_succ, List.cons_append, List.cons.injEq, true_and, ih,
        Nat.add_right_cancel_iff]

/-! ## Replacements -/

section Replace

variable {a b c : Char} {other : List Char}

theorem replacePair_cons_of_ne (hc : c ≠ a) (rest : List Char) :
    replacePair a b other (c :: rest) = c :: replacePair a b other rest := by
  cases rest with
  | nil => rfl
  | cons d rest => rw [replacePair, if_neg fun h => hc h.1]

/-- Where the pair does not occur, nothing is replaced. -/
theorem replacePair_of_not_infix {cs : List Char} (h : ¬ [a, b] <:+: cs) :
    replacePair a b other cs = cs := by
  induction cs with
  | nil => rfl
  | cons c rest ih =>
    have hrest := ih fun hi => h (List.infix_cons hi)
    cases rest with
    | nil => rfl
    | cons d rest =>
      have hne : ¬ (c = a ∧ d = b) := by
        rintro ⟨rfl, rfl⟩
        exact h ⟨[], rest, rfl⟩
      rw [replacePair, if_neg hne, hrest]

end Replace

/-- The run that is left where all pairs of backslashes in one are doubled. -/
def doubledRun (k : Nat) : Nat := 2 * k - k % 2

theorem doubledRun_add_two (k : Nat) : doubledRun (k + 2) = 4 + doubledRun k := by
  unfold doubledRun
  omega

theorem replacePair_pair (other : List Char) (k : Nat) (rest : List Char) :
    replacePair '\\' '\\' other (backslashes (k + 2) ++ rest) =
      other ++ replacePair '\\' '\\' other (backslashes k ++ rest) :=
  if_pos ⟨rfl, rfl⟩

theorem replacePair_backslashes (k : Nat) :
    replacePair '\\' '\\' (backslashes 4) (backslashes k) = backslashes (doubledRun k) := by
  induction k using Nat.twoStepInduction with
  | zero => rfl
  | one => rfl
  | more k ih _ =>
    have h := replacePair_pair (backslashes 4) k []
    rwa [List.append_nil, List.append_nil, ih, backslashes_append, ← doubledRun_add_two] at h

theorem replacePair_backslashes_append {c : Char} (hc : c ≠ '\\') (k : Nat) (rest : List Char) :
    replacePair '\\' '\\' (backslashes 4) (backslashes k ++ c :: rest) =
      backslashes (doubledRun k) ++ c :: replacePair '\\' '\\' (backslashes 4) rest := by
  induction k using Nat.twoStepInduction with
  | zero => exact replacePair_cons_of_ne hc rest
  | one =>
    have hsingle : replacePair '\\' '\\' (backslashes 4) ('\\' :: c :: rest) =
        '\\' :: replacePair '\\' '\\' (backslashes 4) (c :: rest) := if_neg fun h => hc h.2
    rw [replacePair_cons_of_ne hc] at hsingle
    exact hsingle
  | more k ih _ =>
    rw [replacePair_pair, ih, doubledRun_add_two, ← backslashes_append, List.append_assoc]

/-! A pair of a backslash and the character `x` is replaced by `j` backslashes and `y`. -/

section Letter

variable {x y c : Char} {j : Nat}

theorem replacePair_letter (hx : x ≠ '\\') (k : Nat) :
    replacePair '\\' x (backslashes j ++ [y]) (backslashes k) = backslashes k := by
  refine replacePair_of_not_infix fun h => hx ?_
  exact List.eq_of_mem_replicate (h.subset (List.mem_cons_of_mem _ List.mem_cons_self))

theorem replacePair_letter_append (hx : x ≠ '\\') (hc : c ≠ '\\') (k : Nat) (rest : List Char) :
    replacePair '\\' x (backslashes j ++ [y]) (backslashes k ++ c :: rest) =
      backslashes (if 0 < k ∧ c = x then k - 1 + j else k) ++
        (if 0 < k ∧ c = x then y else c) ::
          replacePair '\\' x (backslashes j ++ [y]) rest := by
  induction k with
  | zero => exact replacePair_cons_of_ne hc rest
  | succ k ih =>
    rw [backslashes_succ, List.cons_append]
    cases k with
    | zero =>
      rw [backslashes_zero, List.nil_append, replacePair]
      by_cases hcx : c = x
      · simp [hcx]
      · rw [if_neg fun h => hcx h.2, if_neg fun h => hcx h.2, if_neg fun h => hcx h.2,
          replacePair_cons_of_ne hc]
        rfl
    | succ k =>
      have hstep : ∀ more, replacePair '\\' x (backslashes j ++ [y]) ('\\' :: '\\' :: more) =
          '\\' :: replacePair '\\' x (backslashes j ++ [y]) ('\\' :: more) := fun more => by
        rw [replacePair, if_neg fun h => hx h.2.symm]
      rw [backslashes_succ, List.cons_append, hstep, ← List.cons_append, ← backslashes_succ, ih]
      by_cases hcx : c = x
      · rw [if_pos ⟨Nat.succ_pos _, hcx⟩, if_pos ⟨Nat.succ_pos _, hcx⟩,
          if_pos ⟨Nat.succ_pos _, hcx⟩, if_pos ⟨Nat.succ_pos _, hcx⟩, ← List.cons_append,
          ← backslashes_succ]
        congr 2
        omega
      · rw [if_neg fun h => hcx h.2, if_neg fun h => hcx h.2, if_neg fun h => hcx h.2,
          if_neg fun h => hcx h.2]
        rfl

end Letter

end LuaData
