import LuaData.Proofs.Node.Normal
import LuaData.Proofs.Number.Text
import LuaData.Proofs.Printer.Written
import LuaData.Proofs.Reader.Scan

/-
  The tokens of data. What is written for data is scanned as its tokens, whatever the layout is,
  if blanks stand at the head of each line: the printers and the scanner meet here. A negative
  number is two tokens, as Lua has no negative numerals.
-/

namespace LuaData

open Value (IsSequence)

/-! ## Numbers -/

/-- The tokens of a finite number. -/
def Number.tokens (n : Number) : List Token :=
  if n.isNegative then [.symbol '-', .numeral n.negate n.negate.text] else [.numeral n n.text]

namespace Scan

/-- A digit and what a numeral goes on with. -/
def IsNumeral (cs : List Char) : Prop :=
  ∃ c rest, cs = c :: rest ∧ c.isDigit ∧ Continues [c] rest

theorem isNumeral_of_plain {cs : List Char} (hd : ∃ c ∈ cs.head?, c.isDigit)
    (h : ∀ c ∈ cs, c.isDigit ∨ c = '.') : IsNumeral cs := by
  obtain ⟨c, hc, hdigit⟩ := hd
  cases cs with
  | nil => cases hc
  | cons d rest =>
    cases hc
    exact ⟨c, rest, rfl, hdigit, continues_of_plain fun e he =>
      (h e (List.mem_cons_of_mem _ he)).imp_left isNameRest_of_isDigit⟩

/-- Digits and a point, then a power of ten. -/
theorem isNumeral_power {cs ds : List Char} {sign : Char} (hd : ∃ c ∈ cs.head?, c.isDigit)
    (hc : ∀ c ∈ cs, c.isDigit ∨ c = '.') (hs : sign = '+' ∨ sign = '-')
    (hds : ∀ c ∈ ds, c.isDigit) : IsNumeral (cs ++ 'e' :: sign :: ds) := by
  obtain ⟨c, rest, rfl, hdigit, hcont⟩ := isNumeral_of_plain hd hc
  refine ⟨c, rest ++ 'e' :: sign :: ds, rfl, hdigit, continues_append hcont ⟨?_, ?_, ?_⟩⟩
  · rfl
  · rcases hs with rfl | rfl <;> rfl
  · exact continues_of_plain fun d hd => Or.inl (isNameRest_of_isDigit (hds d hd))

end Scan

open Scan

theorem exists_head?_append {cs ds : List Char} (hne : cs ≠ []) (h : ∀ c ∈ cs, c.isDigit) :
    ∃ c ∈ (cs ++ ds).head?, c.isDigit := by
  obtain ⟨c, rest, rfl⟩ := List.exists_cons_of_ne_nil hne
  exact ⟨c, rfl, h c List.mem_cons_self⟩

/-- The text of a magnitude is a numeral that is no whole number. -/
structure IsFraction (cs : List Char) : Prop where
  numeral : IsNumeral cs
  not_digits : cs.all Char.isDigit = false

theorem isFraction_point {whole fraction : List Char} (hne : whole ≠ [])
    (hw : ∀ c ∈ whole, c.isDigit) (hf : ∀ c ∈ fraction, c.isDigit) :
    IsFraction (whole ++ '.' :: fraction) := by
  refine ⟨isNumeral_of_plain (exists_head?_append hne hw) fun c hc => ?_, ?_⟩
  · rcases List.mem_append.1 hc with hc | hc
    · exact Or.inl (hw c hc)
    · exact (List.mem_cons.1 hc).symm.imp_left (hf c)
  · rw [List.all_append, List.all_cons]
    exact Bool.and_false _

theorem isFraction_positional {digits : List Char} (h : ∀ c ∈ digits, c.isDigit)
    (hne : digits ≠ []) (point : Int) : IsFraction (positional digits point) := by
  obtain ⟨whole, fraction, htext, hp⟩ := exists_positional h hne point
  rw [htext]
  exact isFraction_point hp.ne hp.before hp.behind

theorem isFraction_scientific {digits : List Char} (h : ∀ c ∈ digits, c.isDigit)
    (hne : digits ≠ []) (point : Int) : IsFraction (scientific digits point) := by
  obtain ⟨c, rest, rfl⟩ := List.exists_cons_of_ne_nil hne
  rw [List.forall_mem_cons] at h
  have hfirst : ∀ d ∈ [c], d.isDigit := List.forall_mem_singleton.2 h.1
  rw [scientific_cons, ← List.append_assoc]
  refine ⟨isNumeral_power (exists_head?_append (List.cons_ne_nil _ _) hfirst)
    (fun d hd => ?_) ?_ (isDigit_power _ _), ?_⟩
  · rcases List.mem_append.1 hd with hd | hd
    · exact Or.inl (hfirst d hd)
    · split at hd
      · cases hd
      · exact (List.mem_cons.1 hd).symm.imp_left (h.2 d)
  · split
    · exact Or.inr rfl
    · exact Or.inl rfl
  · rw [List.all_append, List.all_cons]
    exact Bool.and_false _

theorem isFraction_magnitudeText {rank : Nat} (h : rank < 0x7FF0000000000000) :
    IsFraction (magnitudeText rank) := by
  rw [magnitudeText]
  split
  · exact isFraction_point (List.cons_ne_nil '0' []) (isDigit_zeros 1) (isDigit_zeros 1)
  · rename_i h0
    have hdigits : (Decimal.shortest rank).digits ≠ 0 :=
      Decimal.digits_ne_zero (by rw [Decimal.rank_shortest h]; exact h0)
    have hs := (Decimal.shortest rank).isDigit_significant
    have hne := Decimal.significant_ne_nil hdigits
    simp only
    split
    · exact isFraction_positional hs hne _
    · exact isFraction_scientific hs hne _

namespace Scan

theorem scans_of_isNumeral {cs : List Char} {n : Number} (h : IsNumeral cs)
    (hn : number? cs = some n) : Scans cs [.numeral n (String.ofList cs)] := by
  obtain ⟨c, rest, rfl, hc, hcont⟩ := h
  exact scans_numeral hc hcont hn

theorem scans_nat (k : Nat) :
    Scans (Number.text (.int k)).toList [.numeral (.int k) (Number.text (.int k))] := by
  have htext : (Number.text (.int k)).toList = Nat.toDigits 10 k := Nat.toList_repr
  have hall : (Nat.toDigits 10 k).all Char.isDigit = true :=
    List.all_eq_true.2 (isDigit_toDigits k)
  have hn : number? (Nat.toDigits 10 k) = some (.int k) := by
    rw [number?, if_pos hall, readDigits_toDigits]
  have hhead : ∃ c ∈ (Nat.toDigits 10 k ++ []).head?, c.isDigit :=
    exists_head?_append Nat.toDigits_ne_nil (isDigit_toDigits k)
  rw [List.append_nil] at hhead
  have h := scans_of_isNumeral
    (isNumeral_of_plain hhead fun c hc => Or.inl (isDigit_toDigits k c hc)) hn
  rwa [← htext, String.ofList_toList] at h

theorem scans_magnitude (rank : Fin 0x7FF0000000000000) :
    Scans (magnitudeText rank)
      [.numeral (.float (.finite false rank)) (String.ofList (magnitudeText rank))] := by
  have hf := isFraction_magnitudeText rank.isLt
  obtain ⟨d, hd, hrank⟩ := readMagnitude?_magnitudeText rank.isLt
  refine scans_of_isNumeral hf.numeral ?_
  rw [number?, hf.not_digits, if_neg Bool.false_ne_true, hd, Option.map_some, hrank,
    Double.ofRank, dif_pos rank.isLt]

/-- The text of a finite number is scanned as its tokens. -/
theorem scans_number {n : Number} (h : n.toDouble.isFinite) : Scans n.text.toList n.tokens := by
  have hminus : Closed ['-'] [.symbol '-'] := closed_symbol rfl rfl
  cases n with
  | int n =>
    cases n with
    | ofNat k => exact scans_nat k
    | negSucc k =>
      have htext : (Number.text (.int (.negSucc k))).toList =
          ['-'] ++ (Number.text (.int (k + 1 : Nat))).toList :=
        String.toList_append
      have hneg : (Number.int (.negSucc k)).isNegative = true :=
        decide_eq_true (Int.negSucc_lt_zero k)
      rw [htext, Number.tokens, if_pos hneg]
      exact hminus.scans_append (scans_nat (k + 1))
  | float x =>
    cases x with
    | finite negative rank =>
      cases negative with
      | false =>
        show Scans (String.ofList (magnitudeText rank)).toList _
        rw [String.toList_ofList]
        exact scans_magnitude rank
      | true =>
        show Scans (String.ofList ('-' :: magnitudeText rank)).toList _
        rw [String.toList_ofList]
        exact hminus.scans_append (scans_magnitude rank)
    | _ => cases h

end Scan

/-! ## Data -/

/-- The tokens of a leaf. -/
def Value.tokens (mark : QuoteMark) : Value → List Token
  | .nil => [.word "nil"]
  | .bool b => [.word (if b then "true" else "false")]
  | .number n => n.tokens
  | .text s => [.text s (quote mark s)]
  | _ => []

namespace Token

/-- The tokens of a key that is a text. -/
def ofKey (mark : QuoteMark) (key : Value) : List Token :=
  match key.text? with
  | some s =>
    if isName s then [.word s] else [.symbol '[', .text s (quote mark s), .symbol ']']
  | none => []

/-- Fields between braces, each with a comma after it. -/
def table (fields : List (List Token)) : List Token :=
  [.symbol '\x7b'] ++ fields.flatMap (· ++ [.symbol ',']) ++ [.symbol '\x7d']

end Token

/-- Gathers the tokens of data. -/
def Builder.tokens (mark : QuoteMark) : Builder (List Token) (List Token) where
  limit := none
  constant := Value.tokens mark
  sequence := Token.table
  mapping entries :=
    Token.table (entries.map fun e => Token.ofKey mark e.1 ++ [.symbol '='] ++ e.2)
  property k v := [.symbol '['] ++ k.tokens mark ++ [.symbol ']'] ++ [.symbol '='] ++ v
  finish := .ok

/-- Whether nothing in a value has to be written with a backslash but its quote marks. -/
def Value.isClean (v : Value) : Bool :=
  match v with
  | .text s => s.toList.all fun c => c ≠ '\\' && c ≠ '\n' && c ≠ '\r'
  | _ => true

/-- A style whose lines start with blanks. -/
structure Style.IsBlank (style : Style) : Prop where
  line : ∀ level, (style.line level).toList.all Scan.isBlank
  assign : style.assign = "=" ∨ style.assign = " = "

namespace Scan

variable (mark : QuoteMark) {style : Style}

theorem isClean_text {s : String} (h : (Value.text s).isClean) :
    ∀ c ∈ s.toList, c ≠ '\\' ∧ c ≠ '\n' ∧ c ≠ '\r' := fun c hc => by
  have := List.all_eq_true.1 h c hc
  simp only [Bool.and_eq_true, decide_eq_true_eq] at this
  exact ⟨this.1.1, this.1.2, this.2⟩

/-- The literal of a leaf is scanned as its tokens. -/
theorem scans_literal {c : Value} (hl : c.isLeaf) (h : c.isFinite ∧ c.isClean) :
    Scans (Style.literal mark c).toList (c.tokens mark) := by
  cases c with
  | nil => exact scans_name (s := "nil") (by decide)
  | bool b =>
    have hname : isName (if b then "true" else "false") := by cases b <;> decide
    exact scans_name hname
  | text s => exact (closed_quote mark (isClean_text h.2)).scans
  | number n =>
    have htext : Style.literal mark (.number n) = n.text := by
      cases n with
      | int n => rfl
      | float x => cases x <;> first | rfl | exact absurd h.1 Bool.false_ne_true
    rw [htext]
    exact scans_number h.1
  | _ => cases hl

theorem closed_brackets {text : String} {ts : List Token} (h : Scans text.toList ts) :
    Closed ("[" ++ text ++ "]").toList ([.symbol '['] ++ ts ++ [.symbol ']']) := by
  have hopen : Closed "[".toList [.symbol '['] := closed_symbol rfl rfl
  have hclose : Closed "]".toList [.symbol ']'] := closed_symbol rfl rfl
  rw [String.toList_append, String.toList_append]
  exact (hopen.scans_append h).append_closed hclose (by decide) (by decide)

/-- The key of an entry is scanned as a word or as a text between brackets. -/
theorem scans_key {k : Value} (hk : Walk.isMapKey k) (hc : k.isClean) :
    Scans (Printer.keyText mark k).toList (Token.ofKey mark k) := by
  obtain ⟨s, rfl⟩ := Value.eq_text_of_isMapKey hk
  show Scans (writtenKey mark s).toList (if isName s then _ else _)
  rw [writtenKey]
  split
  · rename_i h
    exact scans_name h
  · exact (closed_brackets (closed_quote mark (isClean_text hc)).scans).scans

/-- Fields that are scanned as some tokens make a table that is. -/
theorem closed_table (hs : style.IsBlank) (level : Nat) {γ : Type} {items : List γ}
    {text : γ → String} {tokens : γ → List Token}
    (h : ∀ x ∈ items, Scans (text x).toList (tokens x)) :
    Closed (style.table level (items.map text)).toList (Token.table (items.map tokens)) := by
  have hopen : Closed "\x7b".toList [.symbol '\x7b'] := closed_symbol rfl rfl
  have hclose : Closed "\x7d".toList [.symbol '\x7d'] := closed_symbol rfl rfl
  have hcomma : Closed ",".toList [.symbol ','] := closed_symbol rfl rfl
  have hline := fun level => closed_blanks (hs.line level)
  rw [Style.table, List.isEmpty_map]
  split
  · rename_i hempty
    rw [List.isEmpty_iff.1 hempty]
    exact hopen.append hclose
  · have hfields : Closed
        (items.flatMap fun x => (style.line (level + 1) ++ text x ++ ",").toList)
        (items.flatMap fun x => tokens x ++ [.symbol ',']) := closed_flatMap fun x hx => by
      rw [String.toList_append, String.toList_append]
      exact ((hline _).scans_append (h x hx)).append_closed hcomma (by decide) (by decide)
    rw [String.toList_append, String.toList_append, String.toList_append, String.toList_join,
      List.flatMap_map, List.flatMap_map, Token.table, List.flatMap_map]
    have := ((hopen.append hfields).append (hline level)).append hclose
    rwa [List.append_nil] at this

theorem closed_assign (hs : style.IsBlank) :
    Closed style.assign.toList [.symbol '='] ∧ style.assign.toList ≠ [] ∧
      ends style.assign.toList := by
  have hsign : Closed "=".toList [.symbol '='] := closed_symbol rfl rfl
  have hblank : Closed " ".toList [] := closed_blanks (by decide)
  rcases hs.assign with h | h
  · rw [h]
    exact ⟨hsign, by decide, by decide⟩
  · rw [h]
    exact ⟨(hblank.append hsign).append hblank, by decide, by decide⟩

theorem scans_assigned (hs : style.IsBlank) {key text : String} {ts us : List Token}
    (hk : Scans key.toList ts) (hv : Scans text.toList us) :
    Scans (key ++ style.assign ++ text).toList (ts ++ [.symbol '='] ++ us) := by
  obtain ⟨ha, hne, hends⟩ := closed_assign hs
  rw [String.toList_append, String.toList_append]
  exact (hk.append_closed ha hne hends).scans_append hv

theorem scans_sequence (hs : style.IsBlank) {mk : List Value → Value} (hm : IsSequence mk)
    {items : List Value} (h : ∀ v ∈ items, ∀ level,
      Scans (v.fold style.writer level).toList (v.fold (.tokens style.mark))) (level : Nat) :
    Scans ((mk items).fold style.writer level).toList
      ((mk items).fold (.tokens style.mark)) := by
  have htable := closed_table hs level fun v hv => h v hv (level + 1)
  rw [Value.fold_sequence _ hm, Value.fold_sequence _ hm]
  show Scans (style.table level ((items.map _).map _)).toList _
  rw [List.map_map]
  exact htable.scans

theorem scans_map (hs : style.IsBlank) {entries : List (Value × Value)}
    (hk : ∀ e ∈ entries, Walk.isMapKey e.1 ∧ e.1.isClean)
    (h : ∀ e ∈ entries, ∀ level,
      Scans (e.2.fold style.writer level).toList (e.2.fold (.tokens style.mark))) (level : Nat) :
    Scans ((Value.map entries).fold style.writer level).toList
      ((Value.map entries).fold (.tokens style.mark)) := by
  have htable := closed_table hs level fun e he => scans_assigned hs
    (scans_key style.mark (hk e he).1 (hk e he).2) (h e he (level + 1))
  rw [Value.fold_map, Value.fold_map]
  show Scans (style.table level ((entries.map _).map _)).toList
    (Token.table ((entries.map _).map _))
  rw [List.map_map, List.map_map]
  exact htable.scans

/-- What is written for data is scanned as the tokens of the data. -/
theorem scans_writer (hs : style.IsBlank) {v : Value} (hi : v.IsItem) :
    (∀ c ∈ v.leaves, c.isFinite ∧ c.isClean) → ∀ level,
      Scans (v.fold style.writer level).toList (v.fold (.tokens style.mark)) := by
  induction hi with
  | leaf hl =>
    intro h level
    rw [Value.leaves_leaf hl, List.forall_mem_singleton] at h
    rw [Value.fold_leaf _ hl, Value.fold_leaf _ hl]
    exact scans_literal style.mark hl h
  | list _ ih =>
    intro h
    rw [Value.leaves_sequence .list] at h
    exact scans_sequence hs .list fun v hv =>
      ih v hv fun c hc => h c (List.mem_flatMap.2 ⟨v, hv, hc⟩)
  | tuple _ ih =>
    intro h
    rw [Value.leaves_sequence .tuple] at h
    exact scans_sequence hs .tuple fun v hv =>
      ih v hv fun c hc => h c (List.mem_flatMap.2 ⟨v, hv, hc⟩)
  | map hk _ _ ih =>
    intro h
    rw [Value.leaves_map] at h
    refine scans_map hs (fun e he => ⟨hk e he, ?_⟩) fun e he => ih e he fun c hc =>
      h c (List.mem_flatMap.2 ⟨e, he, List.mem_cons_of_mem _ hc⟩)
    exact (h e.1 (List.mem_flatMap.2 ⟨e, he, List.mem_cons_self⟩)).2
  | property hk _ _ ih =>
    intro h level
    rw [Value.leaves_property, List.forall_mem_cons] at h
    have hkey := closed_brackets
      (scans_literal style.mark (Value.isLeaf_of_isPropertyKey hk) h.1)
    rw [Value.fold_property, Value.fold_property]
    exact scans_assigned hs hkey.scans (ih h.2 level)

end Scan

/-- What a format writes for data is scanned as a word and the tokens of the data. -/
theorem Style.IsBlank.tokens? {style : Style} (hs : style.IsBlank) {v : Value} (hi : v.IsItem)
    (h : ∀ c ∈ v.leaves, c.isFinite ∧ c.isClean) :
    Scan.tokens? .none ("return " ++ v.fold style.writer 0).toList =
      some (.word "return" :: v.fold (.tokens style.mark)) := by
  have hword : Scans "return".toList [.word "return"] := scans_name (by decide)
  have hblank : Closed " ".toList [] := closed_blanks (by decide)
  have hreturn : Closed "return ".toList [.word "return"] :=
    hword.append_closed hblank (by decide) (by decide)
  have hscan := hreturn.scans_append (scans_writer hs hi h 0) [] rfl
  rw [List.append_nil] at hscan
  rw [String.toList_append, hscan]
  exact congrArg some (List.append_nil _)

end LuaData
