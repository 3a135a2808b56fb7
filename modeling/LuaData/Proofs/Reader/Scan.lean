import LuaData.Number.Basic
import LuaData.Text.Quoted
import Mathlib

/-
  A scanner for the tokens of Lua literals. It reads one character at a time and keeps what
  there is of a token that is not complete. A name or numeral goes on for as long as it can; a
  text goes on to its own quote mark, and no line end may stand in it. What is written for a
  token is scanned as that token, if nothing follows that could belong to it (`Scans`).
-/

namespace LuaData

/-- Tokens. Numerals and texts are kept with the characters that they are written with. -/
inductive Token where
  | word (s : String)
  | numeral (n : Number) (raw : String)
  | text (s raw : String)
  | symbol (c : Char)

namespace Scan

/-- The part of a token that has been read, its last character first. -/
inductive Pending where
  | none
  | word (cs : List Char)
  | numeral (cs : List Char)
  | text (mark : Char) (raw cs : List Char)
  /-- A text of which a backslash has been read. -/
  | escape (mark : Char) (raw cs : List Char)

def isBlank (c : Char) : Bool := c = ' ' || c = '\t' || c = '\r' || c = '\n'

def isSymbol (c : Char) : Bool := "\x7b\x7d[]=,-".toList.contains c

/-- What a character stands for after a backslash. -/
def escaped? : Char → Option Char
  | 'n' => some '\n'
  | 'r' => some '\r'
  | 't' => some '\t'
  | c => if c = '\\' ∨ c = '\'' ∨ c = '"' then some c else none

/-- Numerals have a sign only in their power of ten. -/
def continues (cs : List Char) (c : Char) : Bool :=
  isNameRest c || c = '.' || ((c = '+' || c = '-') && (cs.head? = some 'e' || cs.head? = some 'E'))

/-- A numeral without a point and a power of ten is a whole number. -/
def number? (cs : List Char) : Option Number :=
  if cs.all Char.isDigit then some (.int (readDigits cs))
  else (readMagnitude? cs).map fun d => .float (.ofRank false d.rank)

def numeral? (cs : List Char) : Option Token :=
  (number? cs.reverse).map fun n => .numeral n (String.ofList cs.reverse)

def word (cs : List Char) : Token := .word (String.ofList cs.reverse)

/-- What a character begins, where no token is pending, and the token that it is. -/
def start? (c : Char) : Option (Pending × List Token) :=
  if isBlank c then some (.none, [])
  else if isSymbol c then some (.none, [.symbol c])
  else if isNameStart c then some (.word [c], [])
  else if c.isDigit then some (.numeral [c], [])
  else if c = '\'' ∨ c = '"' then some (.text c [c] [], [])
  else none

/-- Reads a character: what is pending then, and the tokens that have become complete. -/
def step? : Pending → Char → Option (Pending × List Token)
  | .none, c => start? c
  | .word cs, c =>
    if isNameRest c then some (.word (c :: cs), [])
    else (start? c).map fun r => (r.1, word cs :: r.2)
  | .numeral cs, c =>
    if continues cs c then some (.numeral (c :: cs), [])
    else (numeral? cs).bind fun t => (start? c).map fun r => (r.1, t :: r.2)
  | .text mark raw cs, c =>
    if c = mark then
      some (.none, [.text (String.ofList cs.reverse) (String.ofList (c :: raw).reverse)])
    else if c = '\\' then some (.escape mark (c :: raw) cs, [])
    else if c = '\n' ∨ c = '\r' then none
    else some (.text mark (c :: raw) (c :: cs), [])
  | .escape mark raw cs, c => (escaped? c).map fun d => (.text mark (c :: raw) (d :: cs), [])

/-- The last token, at the end of the characters. -/
def finish? : Pending → Option (List Token)
  | .none => some []
  | .word cs => some [word cs]
  | .numeral cs => (numeral? cs).map fun t => [t]
  | .text .. | .escape .. => none

/-- The tokens of some characters. -/
def tokens? (p : Pending) : List Char → Option (List Token)
  | [] => finish? p
  | c :: cs => (step? p c).bind fun r => (tokens? r.1 cs).map (r.2 ++ ·)

/-! ## Steps -/

theorem tokens?_cons_of_step {p q : Pending} {c : Char} {ts : List Token} (cs : List Char)
    (h : step? p c = some (q, ts)) : tokens? p (c :: cs) = (tokens? q cs).map (ts ++ ·) := by
  rw [tokens?, h]
  rfl

/-- A step that completes no token. -/
theorem tokens?_cons_of_pending {p q : Pending} {c : Char} (cs : List Char)
    (h : step? p c = some (q, [])) : tokens? p (c :: cs) = tokens? q cs := by
  rw [tokens?_cons_of_step cs h]
  exact Option.map_id'

/-- Some characters are scanned as some tokens, whatever follows. -/
def Closed (cs : List Char) (ts : List Token) : Prop :=
  ∀ rest, tokens? .none (cs ++ rest) = (tokens? .none rest).map (ts ++ ·)

/-- Whether nothing at the head of some characters can belong to a name or numeral. -/
def ends (cs : List Char) : Bool :=
  cs.head?.all fun c => !(isNameRest c || c = '.' || c = '+' || c = '-')

/-- Some characters are scanned as some tokens, whatever follows that cannot belong to them. -/
def Scans (cs : List Char) (ts : List Token) : Prop :=
  ∀ rest, ends rest → tokens? .none (cs ++ rest) = (tokens? .none rest).map (ts ++ ·)

variable {cs ds : List Char} {ts us : List Token}

theorem map_append_map (ts us : List Token) (x : Option (List Token)) :
    (x.map (us ++ ·)).map (ts ++ ·) = x.map (ts ++ us ++ ·) := by
  rw [Option.map_map]
  congr 1
  funext vs
  exact (List.append_assoc ts us vs).symm

theorem Closed.scans (h : Closed cs ts) : Scans cs ts := fun rest _ => h rest

theorem Closed.scans_append (hc : Closed cs ts) (hd : Scans ds us) :
    Scans (cs ++ ds) (ts ++ us) := fun rest hr => by
  rw [List.append_assoc, hc, hd rest hr, map_append_map]

theorem Closed.append (hc : Closed cs ts) (hd : Closed ds us) :
    Closed (cs ++ ds) (ts ++ us) := fun rest => by
  rw [List.append_assoc, hc, hd, map_append_map]

theorem Scans.append_closed (hc : Scans cs ts) (hd : Closed ds us) (hne : ds ≠ [])
    (he : ends ds) : Closed (cs ++ ds) (ts ++ us) := fun rest => by
  obtain ⟨d, ds, rfl⟩ := List.exists_cons_of_ne_nil hne
  have hends : ends (d :: ds ++ rest) = true := he
  rw [List.append_assoc, hc _ hends, hd, map_append_map]

theorem closed_nil : Closed [] [] := fun _ => Option.map_id'.symm

theorem closed_flatMap {γ : Type} {f : γ → List Char} {g : γ → List Token} {items : List γ}
    (h : ∀ x ∈ items, Closed (f x) (g x)) : Closed (items.flatMap f) (items.flatMap g) := by
  induction items with
  | nil => exact closed_nil
  | cons x rest ih =>
    exact (h x List.mem_cons_self).append (ih fun y hy => h y (List.mem_cons_of_mem _ hy))

/-- A character that leaves nothing pending. -/
theorem closed_of_start {c : Char} (h : start? c = some (.none, ts)) : Closed [c] ts :=
  fun rest => tokens?_cons_of_step (p := .none) rest h

theorem closed_symbol {c : Char} (hb : isBlank c = false) (hc : isSymbol c) :
    Closed [c] [.symbol c] :=
  closed_of_start (by rw [start?, hb, if_neg Bool.false_ne_true, if_pos hc])

theorem closed_blanks (h : cs.all isBlank) : Closed cs [] := by
  induction cs with
  | nil => exact closed_nil
  | cons c rest ih =>
    rw [List.all_cons, Bool.and_eq_true] at h
    have hc : Closed [c] [] := closed_of_start (by rw [start?, if_pos h.1])
    exact hc.append (ih h.2)

/-! ## Names and numerals -/

theorem start?_of_isNameRest {c : Char} (h : isNameRest c) :
    start? c = if isNameStart c then some (.word [c], []) else some (.numeral [c], []) := by
  have hb : isBlank c = false := by
    rw [← Bool.not_eq_true]
    intro hb
    simp only [isBlank, Bool.or_eq_true, decide_eq_true_eq] at hb
    rcases hb with ((rfl | rfl) | rfl) | rfl <;> exact absurd h (by decide)
  have hs : isSymbol c = false := by
    rw [← Bool.not_eq_true]
    intro hs
    have hmem : c ∈ ['\x7b', '\x7d', '[', ']', '=', ',', '-'] := List.contains_iff_mem.1 hs
    simp only [List.mem_cons, List.not_mem_nil, or_false] at hmem
    rcases hmem with rfl | rfl | rfl | rfl | rfl | rfl | rfl <;> exact absurd h (by decide)
  have hd : isNameStart c = false → c.isDigit = true := fun hn => by
    simp only [isNameRest, isNameStart, Char.isAlphanum, Bool.or_eq_true, Bool.or_eq_false_iff]
      at h hn
    rcases h with (h | h) | h
    · rw [hn.1] at h; cases h
    · exact h
    · rw [hn.2] at h; cases h
  rw [start?, hb, hs, if_neg Bool.false_ne_true, if_neg Bool.false_ne_true]
  split
  · rfl
  · rename_i hn
    rw [if_pos (hd (Bool.not_eq_true _ ▸ hn))]

theorem of_ends {c : Char} (h : ends (c :: cs)) :
    isNameRest c = false ∧ c ≠ '.' ∧ c ≠ '+' ∧ c ≠ '-' := by
  simp only [ends, List.head?_cons, Option.all_some, Bool.not_eq_true', Bool.or_eq_false_iff,
    decide_eq_false_iff_not] at h
  exact ⟨h.1.1.1, h.1.1.2, h.1.2, h.2⟩

/-- A pending token that is complete where nothing can go on with it. -/
theorem tokens?_of_ends {p : Pending} {t : Token} {rest : List Char} (hf : finish? p = some [t])
    (he : ends rest)
    (hstep : ∀ c, isNameRest c = false ∧ c ≠ '.' ∧ c ≠ '+' ∧ c ≠ '-' →
      step? p c = (start? c).map fun r => (r.1, t :: r.2)) :
    tokens? p rest = (tokens? .none rest).map ([t] ++ ·) := by
  cases rest with
  | nil => exact hf
  | cons c cs =>
    rw [tokens?, tokens?, hstep c (of_ends he), step?]
    cases start? c with
    | none => rfl
    | some r =>
      show (tokens? r.1 cs).map (t :: r.2 ++ ·) = ((tokens? r.1 cs).map (r.2 ++ ·)).map ([t] ++ ·)
      rw [map_append_map]
      rfl

theorem tokens?_word (acc : List Char) (h : ∀ c ∈ cs, isNameRest c) (rest : List Char) :
    tokens? (.word acc) (cs ++ rest) = tokens? (.word (cs.reverse ++ acc)) rest := by
  induction cs generalizing acc with
  | nil => rfl
  | cons c cs ih =>
    have hstep : step? (.word acc) c = some (.word (c :: acc), []) := by
      rw [step?, if_pos (h c List.mem_cons_self)]
    rw [List.cons_append, tokens?_cons_of_pending _ hstep,
      ih _ fun d hd => h d (List.mem_cons_of_mem _ hd), List.reverse_cons, List.append_assoc]
    rfl

/-- A name is scanned as a word. -/
theorem scans_name {s : String} (h : isName s) : Scans s.toList [.word s] := by
  intro rest hr
  rw [isName] at h
  obtain ⟨c, cs, hs⟩ : ∃ c cs, s.toList = c :: cs := by
    cases hs : s.toList with
    | nil => rw [hs] at h; cases h
    | cons c cs => exact ⟨c, cs, rfl⟩
  rw [hs, isNameChars, Bool.and_eq_true, List.all_eq_true] at h
  have hrest : isNameRest c := by
    have := h.1
    simp only [isNameRest, isNameStart, Char.isAlphanum, Bool.or_eq_true] at this ⊢
    exact this.imp_left Or.inl
  have hstart : step? .none c = some (.word [c], []) := by
    rw [step?, start?_of_isNameRest hrest, if_pos h.1]
  have hword : word (cs.reverse ++ [c]) = .word s := by
    rw [word, ← List.reverse_cons, List.reverse_reverse, ← hs, String.ofList_toList]
  rw [hs, List.cons_append, tokens?_cons_of_pending _ hstart, tokens?_word _ h.2]
  refine tokens?_of_ends (by rw [finish?, hword]) hr fun d hd => ?_
  rw [step?, if_neg (by rw [hd.1]; exact Bool.false_ne_true), hword]

/-- Characters that a numeral goes on with, after those of it that have been read. -/
def Continues (acc : List Char) : List Char → Prop
  | [] => True
  | c :: cs => continues acc c ∧ Continues (c :: acc) cs

theorem continues_append {acc : List Char} (hc : Continues acc cs)
    (hd : Continues (cs.reverse ++ acc) ds) : Continues acc (cs ++ ds) := by
  induction cs generalizing acc with
  | nil => exact hd
  | cons c cs ih =>
    refine ⟨hc.1, ih hc.2 ?_⟩
    rwa [List.reverse_cons, List.append_assoc] at hd

theorem continues_of_plain {acc : List Char} (h : ∀ c ∈ cs, isNameRest c ∨ c = '.') :
    Continues acc cs := by
  induction cs generalizing acc with
  | nil => trivial
  | cons c cs ih =>
    refine ⟨?_, ih fun d hd => h d (List.mem_cons_of_mem _ hd)⟩
    rcases h c List.mem_cons_self with hc | hc
    · rw [continues, hc, Bool.true_or, Bool.true_or]
    · rw [continues, decide_eq_true hc, Bool.or_true, Bool.true_or]

theorem tokens?_numeral (acc : List Char) (h : Continues acc cs) (rest : List Char) :
    tokens? (.numeral acc) (cs ++ rest) = tokens? (.numeral (cs.reverse ++ acc)) rest := by
  induction cs generalizing acc with
  | nil => rfl
  | cons c cs ih =>
    have hstep : step? (.numeral acc) c = some (.numeral (c :: acc), []) := by
      rw [step?, if_pos h.1]
    rw [List.cons_append, tokens?_cons_of_pending _ hstep, ih _ h.2, List.reverse_cons,
      List.append_assoc]
    rfl

theorem isNameRest_of_isDigit {c : Char} (h : c.isDigit) : isNameRest c := by
  rw [isNameRest, Char.isAlphanum, h, Bool.or_true, Bool.true_or]

/-- A digit and what a numeral goes on with are scanned as a numeral. -/
theorem scans_numeral {c : Char} {n : Number} (hc : c.isDigit) (h : Continues [c] cs)
    (hn : number? (c :: cs) = some n) :
    Scans (c :: cs) [.numeral n (String.ofList (c :: cs))] := by
  intro rest hr
  have hstart : step? .none c = some (.numeral [c], []) := by
    have hname : ¬ isNameStart c = true := fun hs => by
      simp only [Char.isDigit, isNameStart, Char.isAlpha, Char.isUpper, Char.isLower,
        Bool.or_eq_true, Bool.and_eq_true, decide_eq_true_eq, ge_iff_le, UInt32.le_iff_toNat_le]
        at hc hs
      rcases hs with (hs | hs) | rfl
      · exact absurd hs.1 (by have := hc.2; simp at this ⊢; omega)
      · exact absurd hs.1 (by have := hc.2; simp at this ⊢; omega)
      · exact absurd hc.2 (by decide)
    rw [step?, start?_of_isNameRest (isNameRest_of_isDigit hc), if_neg hname]
  have hnumeral : numeral? (cs.reverse ++ [c]) = some (.numeral n (String.ofList (c :: cs))) := by
    rw [numeral?, ← List.reverse_cons, List.reverse_reverse, hn]
    rfl
  rw [List.cons_append, tokens?_cons_of_pending _ hstart, tokens?_numeral _ h]
  refine tokens?_of_ends (by rw [finish?, hnumeral]; rfl) hr fun d ⟨h1, h2, h3, h4⟩ => ?_
  have hends : continues (cs.reverse ++ [c]) d = false := by
    rw [continues, h1, decide_eq_false h2, decide_eq_false h3, decide_eq_false h4]
    rfl
  rw [step?, if_neg (by rw [hends]; exact Bool.false_ne_true), hnumeral]
  rfl

/-! ## Texts -/

theorem tokens?_text {mark : Char} (hm : mark = '\'' ∨ mark = '"') (raw acc : List Char)
    (h : ∀ c ∈ cs, c ≠ '\\' ∧ c ≠ '\n' ∧ c ≠ '\r') (rest : List Char) :
    tokens? (.text mark raw acc) (quotedBody mark cs ++ rest) =
      tokens? (.text mark ((quotedBody mark cs).reverse ++ raw) (cs.reverse ++ acc)) rest := by
  induction cs generalizing raw acc with
  | nil => rfl
  | cons c cs ih =>
    have ih := fun raw acc => ih raw acc fun d hd => h d (List.mem_cons_of_mem _ hd)
    obtain ⟨h1, h2, h3⟩ := h c List.mem_cons_self
    rw [quotedBody_cons, List.append_assoc, List.reverse_append, List.append_assoc,
      List.reverse_cons, List.append_assoc]
    split
    · rename_i hc
      subst hc
      have hslash : step? (.text c raw acc) '\\' = some (.escape c ('\\' :: raw) acc, []) := by
        rw [step?, if_neg (Ne.symm h1), if_pos rfl]
      have hescaped : step? (.escape c ('\\' :: raw) acc) c =
          some (.text c (c :: '\\' :: raw) (c :: acc), []) := by
        rcases hm with rfl | rfl <;> rfl
      rw [List.cons_append, List.cons_append, tokens?_cons_of_pending _ hslash,
        tokens?_cons_of_pending _ hescaped, List.nil_append, ih]
      rfl
    · rename_i hc
      have hplain : step? (.text mark raw acc) c = some (.text mark (c :: raw) (c :: acc), []) := by
        rw [step?, if_neg hc, if_neg h1, if_neg (not_or.2 ⟨h2, h3⟩)]
      rw [List.cons_append, tokens?_cons_of_pending _ hplain, List.nil_append, ih]
      rfl

/-- A literal between quote marks is scanned as the text that it was made of. -/
theorem closed_quote (mark : QuoteMark) {s : String}
    (h : ∀ c ∈ s.toList, c ≠ '\\' ∧ c ≠ '\n' ∧ c ≠ '\r') :
    Closed (quote mark s).toList [.text s (quote mark s)] := by
  intro rest
  have hm : mark.char = '\'' ∨ mark.char = '"' := by cases mark <;> decide
  have hstart : step? .none mark.char = some (.text mark.char [mark.char] [], []) := by
    cases mark <;> rfl
  have hend : step? (.text mark.char ((quotedBody mark.char s.toList).reverse ++ [mark.char])
      (s.toList.reverse ++ [])) mark.char = some (.none, [.text s (quote mark s)]) := by
    rw [step?, if_pos rfl, List.append_nil, List.reverse_reverse, String.ofList_toList,
      List.reverse_cons, List.reverse_append, List.reverse_reverse]
    rfl
  rw [toList_quote, quotedChars, List.cons_append, List.cons_append, List.append_assoc,
    tokens?_cons_of_pending _ hstart, tokens?_text hm _ _ h, List.cons_append, List.nil_append,
    tokens?_cons_of_step _ hend]

end Scan

end LuaData
