import LuaData.Node.Build
import LuaData.Proofs.Reader.Scan

/-
  A parser of Lua literals, which makes the nodes that a parser of all of Lua does: each
  literal keeps the characters that it is written with. A comma stands after every field of a
  table. No call reads more tokens than there are, so their number is enough for the depth of
  the calls.
-/

namespace LuaData

namespace Reader

open Node (keyedField namedField neg node positionalField tableConstructor)

/-- The node of a constant that is a word. -/
def word? (s : String) : Option Value :=
  if s = "nil" then some Node.nil
  else if s = "true" then some (Node.boolean (.bool true))
  else if s = "false" then some (Node.boolean (.bool false))
  else none

def numeral (n : Number) (raw : String) : Value :=
  node .numericLiteral [("value", .number n), ("raw", .text raw)]

def string (s raw : String) : Value :=
  node .stringLiteral [("value", .text s), ("raw", .text raw)]

/-- Reads a constant: a word, a numeral with or without the sign `-`, or a text. -/
def constant? : List Token → Option (Value × List Token)
  | .word s :: rest => (word? s).map (·, rest)
  | .numeral n raw :: rest => some (numeral n raw, rest)
  | .symbol '-' :: .numeral n raw :: rest => some (neg (numeral n raw), rest)
  | .text s raw :: rest => some (string s raw, rest)
  | _ => none

/-! ## Expressions

Which words are reserved depends on the version of Lua: a reserved word does not name a field. -/

mutual

def expression? (reserved : List String) : Nat → List Token → Option (Value × List Token)
  | 0, _ => none
  | fuel + 1, tokens =>
    match tokens with
    | .symbol '\x7b' :: rest =>
      (fields? reserved fuel rest).map fun r => (tableConstructor r.1, r.2)
    | tokens => constant? tokens

/-- Reads fields up to the closing brace. -/
def fields? (reserved : List String) : Nat → List Token → Option (List Value × List Token)
  | 0, _ => none
  | fuel + 1, tokens =>
    match tokens with
    | .symbol '\x7d' :: rest => some ([], rest)
    | tokens => do
      match ← field? reserved fuel tokens with
      | (f, .symbol ',' :: rest) =>
        let (fs, rest) ← fields? reserved fuel rest
        return (f :: fs, rest)
      | _ => none

def field? (reserved : List String) : Nat → List Token → Option (Value × List Token)
  | 0, _ => none
  | fuel + 1, tokens =>
    match tokens with
    | .symbol '[' :: rest => do
      match ← expression? reserved fuel rest with
      | (k, .symbol ']' :: .symbol '=' :: rest) =>
        let (v, rest) ← expression? reserved fuel rest
        return (keyedField k v, rest)
      | _ => none
    | .word s :: .symbol '=' :: rest =>
      if s ∈ reserved then none
      else (expression? reserved fuel rest).map fun r => (namedField (.text s) r.1, r.2)
    | tokens => (expression? reserved fuel tokens).map fun r => (positionalField r.1, r.2)

end

/-- Reads a chunk that returns an expression. -/
def chunk? (reserved : List String) : List Token → Option Value
  | .word "return" :: rest =>
    match expression? reserved rest.length rest with
    | some (e, []) => some (Node.chunk [Node.returnStatement [e]])
    | _ => none
  | _ => none

/-- The tree of a text. -/
def read? (reserved : List String) (s : String) : Option Value :=
  (Scan.tokens? .none s.toList).bind (chunk? reserved)

/-- The words that are reserved in every version of Lua, and one that came later. -/
def reservedWords : List String :=
  ["and", "break", "do", "else", "elseif", "end", "false", "for", "function", "goto", "if",
   "in", "local", "nil", "not", "or", "repeat", "return", "then", "true", "until", "while"]

example : (read? reservedWords "return \x7ba = -1, ['b c'] = \x7bnil,\x7d,\x7d").isSome := by
  decide +kernel

/-! ## Calls of the parser -/

section

variable {reserved : List String} {fuel : Nat} {ts rest : List Token} {k v : Value}

theorem expression?_table {ns : List Value} (h : fields? reserved fuel ts = some (ns, rest)) :
    expression? reserved (fuel + 1) (.symbol '\x7b' :: ts) = some (tableConstructor ns, rest) := by
  rw [expression?, h]
  rfl

theorem expression?_constant (h : ts.head? ≠ some (.symbol '\x7b')) :
    expression? reserved (fuel + 1) ts = constant? ts := by
  rw [expression?]
  rintro us rfl
  exact h rfl

theorem fields?_cons {us : List Token} {f : Value} {fs : List Value}
    (h : ts.head? ≠ some (.symbol '\x7d'))
    (hf : field? reserved fuel ts = some (f, .symbol ',' :: us))
    (hs : fields? reserved fuel us = some (fs, rest)) :
    fields? reserved (fuel + 1) ts = some (f :: fs, rest) := by
  rw [fields?, hf]
  · simp only [Option.bind_eq_bind, Option.bind_some, hs]
    rfl
  · rintro us rfl
    exact h rfl

theorem field?_keyed {us : List Token}
    (hk : expression? reserved fuel ts = some (k, .symbol ']' :: .symbol '=' :: us))
    (hv : expression? reserved fuel us = some (v, rest)) :
    field? reserved (fuel + 1) (.symbol '[' :: ts) = some (keyedField k v, rest) := by
  rw [field?, hk]
  simp only [Option.bind_eq_bind, Option.bind_some, hv]
  rfl

theorem field?_named {s : String} (hs : s ∉ reserved)
    (hv : expression? reserved fuel ts = some (v, rest)) :
    field? reserved (fuel + 1) (.word s :: .symbol '=' :: ts) =
      some (namedField (.text s) v, rest) := by
  rw [field?, if_neg hs, hv]
  rfl

theorem field?_positional (hopen : ts.head? ≠ some (.symbol '['))
    (hname : ∀ s us, ts ≠ Token.word s :: .symbol '=' :: us)
    (hv : expression? reserved fuel ts = some (v, rest)) :
    field? reserved (fuel + 1) ts = some (positionalField v, rest) := by
  rw [field?, hv]
  · rfl
  · rintro us rfl
    exact hopen rfl
  · exact hname

end

/-! ## Tokens that are read

Each part of a table is read up to the token after it, whatever the tokens after that are. -/

/-- How the tokens of an expression start: no bracket that could belong to the table around it,
and no word that could name a field. -/
def IsStart : List Token → Prop
  | [] => False
  | .word _ :: rest => rest = []
  | .symbol c :: _ => c ≠ '[' ∧ c ≠ '\x7d'
  | _ => True

structure ReadsExpression (reserved : List String) (ts : List Token) (n : Value) : Prop where
  start : IsStart ts
  read : ∀ fuel rest, ts.length ≤ fuel → expression? reserved fuel (ts ++ rest) = some (n, rest)

structure ReadsField (reserved : List String) (ts : List Token) (n : Value) : Prop where
  start : ∀ rest : List Token, (ts ++ .symbol ',' :: rest).head? ≠ some (.symbol '\x7d')
  read : ∀ fuel rest, ts.length < fuel →
    field? reserved fuel (ts ++ .symbol ',' :: rest) = some (n, .symbol ',' :: rest)

def ReadsFields (reserved : List String) (ts : List Token) (ns : List Value) : Prop :=
  ∀ fuel rest, ts.length < fuel →
    fields? reserved fuel (ts ++ .symbol '\x7d' :: rest) = some (ns, rest)

variable {reserved : List String} {ts us : List Token} {k v : Value} {ns : List Value}

theorem readsFields_nil : ReadsFields reserved [] [] := by
  intro fuel rest h
  obtain ⟨fuel, rfl⟩ := Nat.exists_eq_succ_of_ne_zero (Nat.ne_of_gt h)
  rw [List.nil_append, fields?]

theorem ReadsField.cons (hf : ReadsField reserved ts v) (hs : ReadsFields reserved us ns) :
    ReadsFields reserved (ts ++ [.symbol ','] ++ us) (v :: ns) := by
  intro fuel rest h
  obtain ⟨fuel, rfl⟩ := Nat.exists_eq_succ_of_ne_zero (Nat.ne_zero_of_lt h)
  rw [List.length_append, List.length_append, List.length_singleton] at h
  rw [List.append_assoc, List.append_assoc, List.singleton_append]
  exact fields?_cons (hf.start _) (hf.read fuel _ (by omega)) (hs fuel rest (by omega))

theorem ReadsFields.table (h : ReadsFields reserved ts ns) :
    ReadsExpression reserved ([.symbol '\x7b'] ++ ts ++ [.symbol '\x7d'])
      (tableConstructor ns) := by
  refine ⟨⟨by decide, by decide⟩, fun fuel rest hlen => ?_⟩
  obtain ⟨fuel, rfl⟩ := Nat.exists_eq_succ_of_ne_zero (Nat.ne_zero_of_lt hlen)
  rw [List.length_append, List.length_append, List.length_singleton, List.length_singleton]
    at hlen
  rw [List.append_assoc, List.append_assoc]
  exact expression?_table (h fuel rest (by omega))

theorem ReadsExpression.keyed (hk : ReadsExpression reserved ts k)
    (hv : ReadsExpression reserved us v) :
    ReadsField reserved ([.symbol '['] ++ ts ++ [.symbol ']'] ++ [.symbol '='] ++ us)
      (keyedField k v) := by
  refine ⟨fun rest => by simp, fun fuel rest hlen => ?_⟩
  obtain ⟨fuel, rfl⟩ := Nat.exists_eq_succ_of_ne_zero (Nat.ne_zero_of_lt hlen)
  simp only [List.length_append, List.length_singleton] at hlen
  simp only [List.append_assoc, List.singleton_append]
  exact field?_keyed (hk.read fuel _ (by omega)) (hv.read fuel _ (by omega))

theorem ReadsExpression.named {s : String} (hs : s ∉ reserved)
    (hv : ReadsExpression reserved us v) :
    ReadsField reserved ([.word s] ++ [.symbol '='] ++ us) (namedField (.text s) v) := by
  refine ⟨fun rest => by simp, fun fuel rest hlen => ?_⟩
  obtain ⟨fuel, rfl⟩ := Nat.exists_eq_succ_of_ne_zero (Nat.ne_zero_of_lt hlen)
  simp only [List.length_append, List.length_singleton] at hlen
  exact field?_named hs (hv.read fuel _ (by omega))

theorem ReadsExpression.positional (hv : ReadsExpression reserved ts v) :
    ReadsField reserved ts (positionalField v) := by
  obtain ⟨hstart, hread⟩ := hv
  have hhead : ∀ rest, (ts ++ .symbol ',' :: rest).head? ≠ some (.symbol '[') ∧
      (ts ++ .symbol ',' :: rest).head? ≠ some (.symbol '\x7d') ∧
      ∀ s us, ts ++ .symbol ',' :: rest ≠ Token.word s :: .symbol '=' :: us := by
    intro rest
    cases ts with
    | nil => cases hstart
    | cons t ts =>
      cases t with
      | word s =>
        obtain rfl : ts = [] := hstart
        simp
      | symbol c => simp [hstart.1, hstart.2]
      | _ => simp
  refine ⟨fun rest => (hhead rest).2.1, fun fuel rest hlen => ?_⟩
  obtain ⟨fuel, rfl⟩ := Nat.exists_eq_succ_of_ne_zero (Nat.ne_zero_of_lt hlen)
  exact field?_positional (hhead rest).1 (hhead rest).2.2 (hread fuel _ (by omega))

theorem readsExpression_constant (hs : IsStart ts) (hne : ts.head? ≠ some (.symbol '\x7b'))
    (h : ∀ rest, constant? (ts ++ rest) = some (v, rest)) : ReadsExpression reserved ts v := by
  refine ⟨hs, fun fuel rest hlen => ?_⟩
  cases ts with
  | nil => cases hs
  | cons t ts =>
    obtain ⟨fuel, rfl⟩ := Nat.exists_eq_succ_of_ne_zero (Nat.ne_zero_of_lt hlen)
    have head : (t :: ts ++ rest).head? ≠ some (.symbol '\x7b') := hne
    exact (expression?_constant head).trans (h rest)

end Reader

end LuaData
