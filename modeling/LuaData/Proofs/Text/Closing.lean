import LuaData.Proofs.Text.Runs
import LuaData.Text.Quoted

/-
  Where string literals end. Behind its opening mark a literal goes on to the first mark that no
  backslash takes with it. A text is quoted by putting a backslash before each mark and before
  nothing else, so the backslashes of the text itself can take that backslash, or the closing
  mark. They do not if and only if each run of them that ends at a mark or at the end of the text
  is of even length (`quote_closes_iff`).
-/

namespace LuaData

/-! ## Reading a literal -/

/-- The characters up to the mark that closes a literal, and those behind it. The first of them
may be taken by a backslash, and each backslash that is not taken takes the next character. -/
def closing? (mark : Char) : Bool → List Char → Option (List Char × List Char)
  | _, [] => none
  | true, c :: cs => (closing? mark false cs).map fun r => (c :: r.1, r.2)
  | false, c :: cs =>
    if c = mark then some ([], cs)
    else (closing? mark (c = '\\') cs).map fun r => (c :: r.1, r.2)

/-- The body of the literal that some characters begin with, and what is behind the literal. -/
def literal? (mark : Char) : List Char → Option (List Char × List Char)
  | [] => none
  | c :: cs => if c = mark then closing? mark false cs else none

/-- A body without the one backslash that stands directly before each mark. -/
def unmarked (mark : Char) (body : List Char) : List Char :=
  replacePair '\\' mark [mark] body

/-- Each run of backslashes with a mark or nothing behind it is of even length. A run begins
where no backslash stands before it. -/
def EvenRuns (mark : Char) (cs : List Char) : Prop :=
  ∀ before k after, cs = before ++ backslashes k ++ after → before.getLast? ≠ some '\\' →
    (after = [] ∨ after.head? = some mark) → Even k

variable {mark c : Char} {cs rest body : List Char}

/-- A body is followed by a mark, and nothing is lost. -/
theorem eq_of_closing? {taken : Bool} (h : closing? mark taken cs = some (body, rest)) :
    cs = body ++ mark :: rest := by
  have longer : ∀ {c : Char} {cs : List Char} {x : Option (List Char × List Char)},
      (∀ {body rest}, x = some (body, rest) → cs = body ++ mark :: rest) →
      ∀ {body rest}, x.map (fun r => (c :: r.1, r.2)) = some (body, rest) →
        c :: cs = body ++ mark :: rest := by
    intro c cs x ih body rest h
    obtain ⟨⟨body', rest'⟩, hr, he⟩ := Option.map_eq_some_iff.1 h
    cases he
    exact congrArg (c :: ·) (ih hr)
  induction cs generalizing taken body rest with
  | nil => cases taken <;> cases h
  | cons c cs ih =>
    cases taken with
    | true => exact longer ih h
    | false =>
      rw [closing?] at h
      split at h
      · rename_i hc
        cases h
        rw [hc, List.nil_append]
      · exact longer ih h

/-! ## Reading runs of backslashes -/

/-- What is read behind some characters of a body. -/
def readBehind (front : List Char) (r : List Char × List Char) : List Char × List Char :=
  (front ++ r.1, r.2)

theorem exists_closed_map {x : Option (List Char × List Char)} (front : List Char) :
    (∃ body, x.map (readBehind front) = some (body, [])) ↔ ∃ body, x = some (body, []) := by
  constructor
  · rintro ⟨body, h⟩
    obtain ⟨⟨body', rest⟩, rfl, he⟩ := Option.map_eq_some_iff.1 h
    cases he
    exact ⟨body', rfl⟩
  · rintro ⟨body, rfl⟩
    exact ⟨front ++ body, rfl⟩

theorem closing?_plain (hc : c ≠ '\\') (hm : c ≠ mark) (taken : Bool) (cs : List Char) :
    closing? mark taken (c :: cs) = (closing? mark false cs).map (readBehind [c]) := by
  cases taken with
  | true => rfl
  | false =>
    rw [closing?, if_neg hm, decide_eq_false hc]
    rfl

/-- In a run every other backslash is taken by the one before it. -/
theorem closing?_backslashes (hm : mark ≠ '\\') (taken : Bool) (k : Nat) (cs : List Char) :
    closing? mark taken (backslashes k ++ cs) =
      (closing? mark (taken ^^ decide (Odd k)) cs).map (readBehind (backslashes k)) := by
  induction k generalizing taken with
  | zero =>
    rw [decide_eq_false Nat.not_odd_zero, Bool.xor_false]
    exact Option.map_id'.symm
  | succ k ih =>
    have hslash : closing? mark taken ('\\' :: (backslashes k ++ cs)) =
        (closing? mark (!taken) (backslashes k ++ cs)).map (readBehind ['\\']) := by
      cases taken with
      | true => rfl
      | false =>
        rw [closing?, if_neg (Ne.symm hm)]
        rfl
    have hodd : (!taken ^^ decide (Odd k)) = (taken ^^ decide (Odd (k + 1))) := by
      rw [Bool.not_xor, ← Bool.xor_not, ← decide_not, decide_eq_decide.2 Nat.odd_add_one.symm]
    rw [backslashes_succ, List.cons_append, hslash, ih, hodd, Option.map_map]
    rfl

/-! ## Runs in a text -/

/-- What ends before a run begins, and lies inside of another run, is nothing. -/
theorem eq_nil_of_prefix_backslashes {before : List Char} {k : Nat}
    (h : before <+: backslashes k) (hlast : before.getLast? ≠ some '\\') : before = [] := by
  by_contra hne
  have hmem := List.getLast_mem hne
  refine hlast ?_
  rw [List.getLast?_eq_some_getLast hne, List.eq_of_mem_replicate (h.subset hmem)]

theorem evenRuns_backslashes (hm : mark ≠ '\\') (k : Nat) :
    EvenRuns mark (backslashes k) ↔ Even k := by
  constructor
  · intro h
    exact h [] k [] (List.append_nil _).symm (by decide) (Or.inl rfl)
  · intro hk before j after heq hlast hafter
    obtain rfl : before = [] :=
      eq_nil_of_prefix_backslashes ⟨backslashes j ++ after, by rw [← List.append_assoc, heq]⟩ hlast
    rcases hafter with rfl | hmark
    · rw [List.append_nil, List.nil_append, backslashes_inj] at heq
      exact heq ▸ hk
    · have hmem : mark ∈ backslashes k :=
        heq ▸ List.mem_append_right _ (List.mem_of_mem_head? hmark)
      exact absurd (List.eq_of_mem_replicate hmem) hm

theorem evenRuns_append (hm : mark ≠ '\\') (hc : c ≠ '\\') (k : Nat) (rest : List Char) :
    EvenRuns mark (backslashes k ++ c :: rest) ↔ (c = mark → Even k) ∧ EvenRuns mark rest := by
  constructor
  · intro h
    refine ⟨fun hcm => h [] k (c :: rest) rfl (by decide) (Or.inr (congrArg some hcm)), ?_⟩
    intro before j after heq hlast hafter
    refine h (backslashes k ++ c :: before) j after (by simp [heq]) ?_ hafter
    cases before with
    | nil => simpa using hc
    | cons d before => simpa using hlast
  · rintro ⟨hfirst, hrest⟩ before j after heq hlast hafter
    rw [List.append_assoc] at heq
    -- The run is the first one of the text, or it is in what follows the character `c`.
    have first : before <+: backslashes k → Even j := by
      intro hprefix
      obtain rfl := eq_nil_of_prefix_backslashes hprefix hlast
      rw [List.nil_append] at heq
      rcases hafter with rfl | hmark
      · rw [List.append_nil] at heq
        exact absurd heq.symm (backslashes_ne hc)
      · obtain ⟨more, rfl⟩ := List.head?_eq_some_iff.1 hmark
        obtain ⟨rfl, hcm, -⟩ := (backslashes_append_inj hc hm).1 heq
        exact hfirst hcm
    obtain ⟨more, hbefore, hmore⟩ | ⟨more, hk, -⟩ := List.append_eq_append_iff.1 heq
    · cases more with
      | nil =>
        rw [List.append_nil] at hbefore
        exact first (hbefore ▸ List.prefix_rfl)
      | cons d more =>
        rw [List.cons_append, List.cons.injEq] at hmore
        obtain ⟨rfl, rfl⟩ := hmore
        refine hrest more j after (List.append_assoc _ _ _).symm (fun hmore => hlast ?_) hafter
        rw [hbefore, List.getLast?_append, List.getLast?_cons, hmore]
        rfl
    · exact first ⟨more, hk.symm⟩

/-! ## Quoted texts -/

theorem quotedBody_backslashes (hm : mark ≠ '\\') (k : Nat) :
    quotedBody mark (backslashes k) = backslashes k := by
  induction k with
  | zero => rfl
  | succ k ih => rw [backslashes_succ, quotedBody_cons, ih, if_neg (Ne.symm hm)]; rfl

theorem quotedBody_append_cons (hm : mark ≠ '\\') (k : Nat) (c : Char) (rest : List Char) :
    quotedBody mark (backslashes k ++ c :: rest) =
      backslashes (if c = mark then k + 1 else k) ++ c :: quotedBody mark rest := by
  rw [quotedBody_append, quotedBody_backslashes hm, quotedBody_cons]
  split
  · rw [← backslashes_append, List.append_assoc]
    rfl
  · rfl

/-- The last mark closes the literal of a text if and only if the runs of the text are even. -/
theorem closes_iff (hm : mark ≠ '\\') (cs : List Char) :
    (∃ body, closing? mark false (quotedBody mark cs ++ [mark]) = some (body, [])) ↔
      EvenRuns mark cs := by
  induction cs using backslash_induction with
  | last k =>
    rw [quotedBody_backslashes hm, closing?_backslashes hm, exists_closed_map,
      evenRuns_backslashes hm, Bool.false_xor]
    by_cases hk : Even k
    · rw [decide_eq_false (Nat.not_odd_iff_even.2 hk), closing?, if_pos rfl]
      exact iff_of_true ⟨[], rfl⟩ hk
    · rw [decide_eq_true (Nat.not_even_iff_odd.1 hk)]
      exact iff_of_false (fun h => by obtain ⟨_, h⟩ := h; cases h) hk
  | step k c rest hc ih =>
    rw [quotedBody_append_cons hm, List.append_assoc, closing?_backslashes hm, exists_closed_map,
      evenRuns_append hm hc, Bool.false_xor, List.cons_append, ← ih]
    by_cases hcm : c = mark
    · subst hcm
      rw [if_pos rfl]
      by_cases hk : Even k
      · -- The mark is taken by the backslash that was put before it.
        have htaken : closing? c true (c :: (quotedBody c rest ++ [c])) =
            (closing? c false (quotedBody c rest ++ [c])).map (readBehind [c]) := rfl
        rw [decide_eq_true hk.add_one, htaken, exists_closed_map]
        exact (and_iff_right fun _ => hk).symm
      · rw [decide_eq_false (Nat.not_odd_iff_even.2 (Nat.not_even_iff_odd.1 hk).add_one), closing?,
          if_pos rfl]
        refine iff_of_false ?_ fun h => hk (h.1 rfl)
        rintro ⟨body, h⟩
        rw [Option.some.injEq, Prod.mk.injEq] at h
        exact List.append_ne_nil_of_right_ne_nil _ (List.cons_ne_nil c []) h.2
    · rw [if_neg hcm, closing?_plain hc hcm, exists_closed_map]
      exact (and_iff_right fun h => absurd h hcm).symm

theorem unmarked_quotedBody (hm : mark ≠ '\\') (cs : List Char) :
    unmarked mark (quotedBody mark cs) = cs := by
  induction cs using backslash_induction with
  | last k =>
    rw [quotedBody_backslashes hm]
    exact replacePair_letter (j := 0) hm k
  | step k c rest hc ih =>
    have h := replacePair_letter_append (j := 0) (y := mark) hm hc
      (if c = mark then k + 1 else k) (quotedBody mark rest)
    rw [quotedBody_append_cons hm]
    refine h.trans ?_
    have hrest : replacePair '\\' mark (backslashes 0 ++ [mark]) (quotedBody mark rest) = rest := ih
    rw [hrest]
    by_cases hcm : c = mark
    · rw [if_pos hcm, if_pos ⟨Nat.succ_pos k, hcm⟩, if_pos ⟨Nat.succ_pos k, hcm⟩, hcm,
        Nat.add_sub_cancel, Nat.add_zero]
    · rw [if_neg hcm, if_neg fun h => hcm h.2, if_neg fun h => hcm h.2]

/-- The literal that a text is quoted as closes at its last character if and only if each run of
backslashes in the text that ends at a quote mark or at the end of the text is of even length;
and then the text is the body of the literal without the backslashes before the marks. -/
theorem quote_closes_iff (mark : QuoteMark) (s : String) :
    ((∃ body, literal? mark.char (quote mark s).toList = some (body, [])) ↔
      EvenRuns mark.char s.toList) ∧
    ∀ body, literal? mark.char (quote mark s).toList = some (body, []) →
      unmarked mark.char body = s.toList := by
  have hm : mark.char ≠ '\\' := by cases mark <;> decide
  have hread : literal? mark.char (quote mark s).toList =
      closing? mark.char false (quotedBody mark.char s.toList ++ [mark.char]) := by
    rw [toList_quote, quotedChars, List.cons_append, literal?, if_pos rfl]
  rw [hread]
  refine ⟨closes_iff hm s.toList, fun body h => ?_⟩
  have hbody := eq_of_closing? h
  rw [List.append_cancel_right_eq] at hbody
  rw [← hbody, unmarked_quotedBody hm]

/-- A backslash at the end of a text takes the closing mark. -/
example : literal? '\'' (quote .single "a\\").toList = none := by
  decide

end LuaData
