import LuaData.Proofs.Text.Escape

/-
  Escaped texts as the bodies of JSON strings. `JsonString.decode?` is a decoder for such strings.
  A text of which each backslash belongs to a pair or to one of the two sequences comes back when
  it is escaped and decoded, unless the letter of a sequence stands directly behind a pair: the
  doubled pair and the letter are then escaped once more, as a sequence, and the letter comes back
  as the control character that it stands for (`decode_escapeText_iff`).
-/

namespace LuaData

namespace JsonString

/-! ## A decoder -/

def hexDigit? (c : Char) : Option Nat :=
  if c.isDigit then some (c.toNat - '0'.toNat)
  else if 'a' ≤ c ∧ c ≤ 'f' then some (10 + (c.toNat - 'a'.toNat))
  else if 'A' ≤ c ∧ c ≤ 'F' then some (10 + (c.toNat - 'A'.toNat))
  else none

def hexCode? (digits : List Char) : Option Nat :=
  digits.foldlM (fun n c => (hexDigit? c).map (16 * n + ·)) 0

/-- The character that a single one behind a backslash stands for. -/
def escaped? : Char → Option Char
  | '"' => some '"'
  | '\\' => some '\\'
  | '/' => some '/'
  | 'b' => some '\x08'
  | 'f' => some '\x0c'
  | 'n' => some '\n'
  | 'r' => some '\r'
  | 't' => some '\t'
  | _ => none

/-- Whether a character can stand for itself: all but the control characters, the quote mark and
the backslash. -/
def isUnescaped (c : Char) : Bool :=
  0x20 ≤ c.toNat && c ≠ '"' && c ≠ '\\'

/-- The codes of the characters up to the closing mark, which is the last character. A character
outside of the basic plane can be given as the two codes of its surrogates. -/
def codes? : List Char → Option (List Nat)
  | ['"'] => some []
  | '\\' :: 'u' :: a :: b :: c :: d :: rest => do
    let n ← hexCode? [a, b, c, d]
    let codes ← codes? rest
    return n :: codes
  | '\\' :: c :: rest => do
    let d ← escaped? c
    let codes ← codes? rest
    return d.toNat :: codes
  | c :: rest => if isUnescaped c then (codes? rest).map (c.toNat :: ·) else none
  | [] => none

def isHighSurrogate (n : Nat) : Bool := 0xD800 ≤ n && n < 0xDC00

def isLowSurrogate (n : Nat) : Bool := 0xDC00 ≤ n && n < 0xE000

/-- The characters of some codes. A surrogate counts only as one of two. -/
def ofCodes? : List Nat → Option (List Char)
  | n :: m :: rest =>
    if isHighSurrogate n && isLowSurrogate m then
      (ofCodes? rest).map (Char.ofNat (0x10000 + (n - 0xD800) * 0x400 + (m - 0xDC00)) :: ·)
    else if isHighSurrogate n || isLowSurrogate n then none
    else (ofCodes? (m :: rest)).map (Char.ofNat n :: ·)
  | [n] => if isHighSurrogate n || isLowSurrogate n then none else some [Char.ofNat n]
  | [] => some []

/-- The text that a JSON string with its quote marks stands for. -/
def decode? (s : String) : Option String :=
  match s.toList with
  | '"' :: body => ((codes? body).bind ofCodes?).map String.ofList
  | _ => none

example : decode? "\"\\ud83d\\ude00\\t\\/\"" = some "😀\t/" := by decide +kernel

/-! ## Bodies -/

/-- That the characters between the marks stand for others. -/
def Spells (body cs : List Char) : Prop :=
  codes? (body ++ ['"']) = some (cs.map Char.toNat)

theorem ofCodes?_map_toNat (cs : List Char) : ofCodes? (cs.map Char.toNat) = some cs := by
  have surrogate : ∀ c : Char,
      isHighSurrogate c.toNat = false ∧ isLowSurrogate c.toNat = false := by
    intro c
    have hc : c.toNat < 0xD800 ∨ 0xDFFF < c.toNat ∧ c.toNat < 0x110000 := c.valid
    simp only [isHighSurrogate, isLowSurrogate, Bool.and_eq_false_iff, decide_eq_false_iff_not]
    omega
  induction cs with
  | nil => rfl
  | cons c rest ih =>
    obtain ⟨high, low⟩ := surrogate c
    cases rest with
    | nil =>
      simp only [List.map_cons, List.map_nil, ofCodes?, high, low, Char.ofNat_toNat]
      rfl
    | cons d rest =>
      simp only [List.map_cons] at ih ⊢
      simp only [ofCodes?, high, low, Bool.false_and, Bool.or_false, Bool.false_eq_true, if_false,
        ih, Char.ofNat_toNat, Option.map_some]

theorem decode?_of_spells {body cs : List Char} (h : Spells body cs) :
    decode? (String.ofList ('"' :: (body ++ ['"']))) = some (String.ofList cs) := by
  rw [decode?, String.toList_ofList]
  simp only [show codes? (body ++ ['"']) = _ from h, Option.bind_some, ofCodes?_map_toNat,
    Option.map_some]

theorem spells_nil : Spells [] [] := rfl

theorem Spells.escape {body cs : List Char} (h : Spells body cs) {c d : Char}
    (hc : escaped? c = some d) : Spells ('\\' :: c :: body) (d :: cs) := by
  have hu : c ≠ 'u' := by
    rintro rfl
    cases hc
  have h : codes? (body ++ ['"']) = some (cs.map Char.toNat) := h
  show codes? ('\\' :: c :: (body ++ ['"'])) = _
  rw [codes?, hc, h]
  · rfl
  · exact fun _ _ _ _ _ h => absurd h hu

theorem Spells.plain {body cs : List Char} (h : Spells body cs) {c : Char}
    (hc : isUnescaped c) : Spells (c :: body) (c :: cs) := by
  have hne : c ≠ '"' ∧ c ≠ '\\' := by
    simp only [isUnescaped, Bool.and_eq_true, decide_eq_true_eq] at hc
    exact ⟨hc.1.2, hc.2⟩
  have h : codes? (body ++ ['"']) = some (cs.map Char.toNat) := h
  show codes? (c :: (body ++ ['"'])) = _
  rw [codes?, if_pos hc, h]
  · rfl
  · exact fun h => absurd h hne.1
  · exact fun _ _ _ _ _ h => absurd h hne.2
  · exact fun _ _ h => absurd h hne.2

/-- Twice as many backslashes stand for some. -/
theorem Spells.backslashes {body cs : List Char} (h : Spells body cs) (k : Nat) :
    Spells (backslashes (2 * k) ++ body) (backslashes k ++ cs) := by
  induction k with
  | zero => exact h
  | succ k ih => exact ih.escape (c := '\\') rfl

/-! ## Pieces -/

/-- A piece of a text in which each backslash belongs to a pair or to a sequence. -/
inductive Piece where
  | ordinary (c : Char) (h : isUnescaped c)
  | newline
  | pair
  /-- A backslash and the letter `n`. -/
  | newlineSequence
  /-- A backslash and the letter `r`. -/
  | returnSequence

namespace Piece

def chars : Piece → List Char
  | .ordinary c _ => [c]
  | .newline => ['\n']
  | .pair => ['\\', '\\']
  | .newlineSequence => ['\\', 'n']
  | .returnSequence => ['\\', 'r']

def isPair : Piece → Bool
  | .pair => true
  | _ => false

/-- A letter of one of the two sequences that stands on its own. -/
def isLetter : Piece → Bool
  | .ordinary c _ => c = 'n' || c = 'r'
  | _ => false

end Piece

/-- The text that some pieces make up. -/
def piecesText (ps : List Piece) : String :=
  String.ofList (ps.flatMap Piece.chars)

/-- The control character that the letter of a sequence stands for. -/
def slipped (c : Char) : Char :=
  if c = 'n' then '\n' else if c = 'r' then '\r' else c

/-- What a piece comes back as, `after` telling whether a pair stands directly before it. -/
def Piece.returned (after : Bool) : Piece → List Char
  | .ordinary c _ => [if after then slipped c else c]
  | p => p.chars

/-- What some pieces come back as. -/
def returned (after : Bool) : List Piece → List Char
  | [] => []
  | p :: rest => p.returned after ++ returned p.isPair rest

theorem doubledRun_even (k : Nat) : doubledRun (2 * k) = 2 * (2 * k) := by
  unfold doubledRun
  omega

theorem doubledRun_odd (k : Nat) : doubledRun (2 * k + 1) + 1 = 2 * (2 * k + 1) := by
  unfold doubledRun
  omega

/-- Behind pairs of backslashes, a marked character is spelled by a sequence. -/
theorem spells_marked {k : Nat} {c d : Char} (hc : c ≠ '\\') (hm : IsMarked (2 * k) c)
    (hd : escaped? (spelled c) = some d) {rest cs : List Char} (h : Spells (escapeChars rest) cs) :
    Spells (escapeChars (backslashes (2 * k) ++ c :: rest)) (backslashes (2 * k) ++ d :: cs) := by
  rw [escapeChars_append hc, escapedRun, if_pos hm, doubledRun_even, ← backslashes_append,
    List.append_assoc]
  exact (h.escape hd).backslashes (2 * k)

theorem spells_unmarked {k : Nat} {c : Char} (hc : isUnescaped c) (hm : ¬ IsMarked (2 * k) c)
    {rest cs : List Char} (h : Spells (escapeChars rest) cs) :
    Spells (escapeChars (backslashes (2 * k) ++ c :: rest)) (backslashes (2 * k) ++ c :: cs) := by
  have hne : c ≠ '\\' := by
    rintro rfl
    cases hc
  have hspelled : spelled c = c := if_neg fun h => hm (Or.inl h)
  rw [escapeChars_append hne, escapedRun, if_neg hm, doubledRun_even, hspelled]
  exact (h.plain hc).backslashes (2 * k)

/-- The letter of a sequence is no sequence of its own when the backslash before it is doubled. -/
theorem spells_sequence {c : Char} (hc : c = 'n' ∨ c = 'r') (k : Nat) {rest cs : List Char}
    (h : Spells (escapeChars rest) cs) :
    Spells (escapeChars (backslashes (2 * k) ++ '\\' :: c :: rest))
      (backslashes (2 * k) ++ '\\' :: c :: cs) := by
  have hne : c ≠ '\\' ∧ c ≠ '\n' ∧ isUnescaped c := by
    obtain rfl | rfl := hc <;> decide
  have hspelled : spelled c = c := if_neg hne.2.1
  have hrun := escapeChars_append hne.1 (2 * k + 1) rest
  have hmarked : IsMarked (2 * k + 1) c := Or.inr ⟨Nat.succ_pos _, hc⟩
  rw [escapedRun, if_pos hmarked, doubledRun_odd, hspelled, ← backslashes_append,
    List.append_assoc] at hrun
  have hspells := (h.plain hne.2.2).backslashes (2 * k + 1)
  rw [← hrun, ← backslashes_append, List.append_assoc] at hspells
  exact hspells

/-- Pieces that stand behind some pairs are decoded one by one. -/
theorem spells_returned (ps : List Piece) (k : Nat) :
    Spells (escapeChars (backslashes (2 * k) ++ ps.flatMap Piece.chars))
      (backslashes (2 * k) ++ returned (0 < k) ps) := by
  induction ps generalizing k with
  | nil =>
    rw [List.flatMap_nil, List.append_nil, escapeChars_backslashes, doubledRun_even]
    have h := spells_nil.backslashes (2 * k)
    rw [List.append_nil] at h
    rwa [returned]
  | cons p rest ih =>
    have next : Spells (escapeChars (rest.flatMap Piece.chars)) (returned false rest) := ih 0
    rw [List.flatMap_cons]
    cases p with
    | ordinary c hc =>
      have hne : c ≠ '\\' ∧ c ≠ '\n' := by
        refine ⟨?_, ?_⟩ <;>
        · rintro rfl
          cases hc
      by_cases hm : IsMarked (2 * k) c
      · obtain ⟨hk, hletter⟩ := hm.resolve_left hne.2
        have hspelled : escaped? (spelled c) = some (slipped c) := by
          obtain rfl | rfl := hletter <;> rfl
        rw [returned, Piece.returned, decide_eq_true (by omega : 0 < k)]
        exact spells_marked hne.1 hm hspelled next
      · have hplain : (if decide (0 < k) then slipped c else c) = c := by
          split
          · rename_i hk
            have hletter : ¬ (c = 'n' ∨ c = 'r') := fun h =>
              hm (Or.inr ⟨by have := of_decide_eq_true hk; omega, h⟩)
            rw [slipped, if_neg fun h => hletter (Or.inl h), if_neg fun h => hletter (Or.inr h)]
          · rfl
        rw [returned, Piece.returned, hplain]
        exact spells_unmarked hc hm next
    | newline => exact spells_marked (by decide) (Or.inl rfl) rfl next
    | pair =>
      have h := ih (k + 1)
      rw [decide_eq_true (Nat.succ_pos k), Nat.mul_succ, ← backslashes_append, List.append_assoc,
        List.append_assoc] at h
      exact h
    | newlineSequence => exact spells_sequence (Or.inl rfl) k next
    | returnSequence => exact spells_sequence (Or.inr rfl) k next

/-! ## Whole texts -/

theorem decode?_piecesText (ps : List Piece) :
    decode? ("\"" ++ escapeText (piecesText ps) ++ "\"") =
      some (String.ofList (returned false ps)) := by
  have h := decode?_of_spells (spells_returned ps 0)
  have hquoted : "\"" ++ escapeText (piecesText ps) ++ "\"" =
      String.ofList ('"' :: (escapeChars (ps.flatMap Piece.chars) ++ ['"'])) := by
    rw [← String.toList_inj]
    simp only [String.toList_append, toList_escapeText, piecesText, String.toList_ofList]
    rfl
  rw [hquoted]
  exact h

theorem Piece.returned_eq_iff (p : Piece) (after : Bool) :
    p.returned after = p.chars ↔ (after → p.isLetter = false) := by
  cases p with
  | ordinary c hc =>
    cases after with
    | false => exact iff_of_true rfl fun h => by cases h
    | true =>
      have hslipped : slipped c = c ↔ ¬ (c = 'n' ∨ c = 'r') := by
        unfold slipped
        by_cases hn : c = 'n'
        · subst hn
          exact iff_of_false (by decide) fun h => h (Or.inl rfl)
        · rw [if_neg hn]
          by_cases hr : c = 'r'
          · subst hr
            exact iff_of_false (by decide) fun h => h (Or.inr rfl)
          · rw [if_neg hr]
            exact iff_of_true rfl fun h => h.elim hn hr
      simp only [Piece.returned, chars, isLetter, if_true, List.cons.injEq, and_true, hslipped,
        forall_const, Bool.or_eq_false_iff, decide_eq_false_iff_not, not_or]
  | _ => exact iff_of_true rfl fun _ => rfl

theorem Piece.length_returned (p : Piece) (after : Bool) :
    (p.returned after).length = p.chars.length := by
  cases p <;> rfl

/-- Pieces come back as they are if no letter stands directly behind a pair. -/
theorem returned_eq_iff (ps : List Piece) (after : Bool) :
    returned after ps = ps.flatMap Piece.chars ↔
      (∀ p ∈ ps.head?, after → p.isLetter = false) ∧
        ps.IsChain fun p q => p.isPair → q.isLetter = false := by
  induction ps generalizing after with
  | nil => exact iff_of_true rfl ⟨(fun p hp => by cases hp), .nil⟩
  | cons p rest ih =>
    have hparts : returned after (p :: rest) = (p :: rest).flatMap Piece.chars ↔
        p.returned after = p.chars ∧ returned p.isPair rest = rest.flatMap Piece.chars := by
      rw [returned, List.flatMap_cons]
      refine ⟨fun h => List.append_inj h (p.length_returned after), fun h => ?_⟩
      rw [h.1, h.2]
    have hhead : (∀ q ∈ (p :: rest).head?, after → q.isLetter = false) ↔
        (after → p.isLetter = false) :=
      ⟨fun h => h p rfl, fun h q hq => Option.some.inj hq ▸ h⟩
    rw [hparts, p.returned_eq_iff, ih, List.isChain_cons, hhead]

/-- Escaped and put between quote marks, a text of such pieces is a JSON string, and it stands for
the text itself if and only if no letter of a sequence stands directly behind a pair. -/
theorem decode_escapeText_iff (ps : List Piece) :
    (∃ t, decode? ("\"" ++ escapeText (piecesText ps) ++ "\"") = some t) ∧
      (decode? ("\"" ++ escapeText (piecesText ps) ++ "\"") = some (piecesText ps) ↔
        ps.IsChain fun p q => p.isPair → q.isLetter = false) := by
  have htext : String.ofList (returned false ps) = piecesText ps ↔
      returned false ps = ps.flatMap Piece.chars := by
    rw [piecesText, ← String.toList_inj, String.toList_ofList, String.toList_ofList]
  rw [decode?_piecesText]
  refine ⟨⟨_, rfl⟩, ?_⟩
  rw [Option.some_inj, htext, returned_eq_iff]
  exact and_iff_right fun p _ h => by cases h

/-- Two backslashes and the letter `n` come back with a newline for the letter. -/
theorem not_decode_escapeText : ¬ ∀ ps : List Piece,
    decode? ("\"" ++ escapeText (piecesText ps) ++ "\"") = some (piecesText ps) := by
  intro decodes
  have h := decodes [.pair, .ordinary 'n' rfl]
  rw [decode?_piecesText, Option.some_inj] at h
  revert h
  decide

end JsonString

end LuaData
