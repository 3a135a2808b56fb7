import LuaData.Proofs.Node.ReadBack
import LuaData.Proofs.Reader.Parse
import LuaData.Proofs.Reader.Tokens

/-
  The writer and the builder of nodes agree: what is written for data is parsed as the nodes
  that are built for it, but for the characters that the literals are written with. The tokens
  of data are parsed part by part, each part up to the comma or bracket after it.
-/

namespace LuaData

open Value (IsSequence)

namespace Value

/-! ## Nodes without their text -/

mutual

/-- The value without the entries under the name `raw`, in it and in its parts. -/
def withoutRaw : Value → Value
  | .list items => .list (withoutRawAll items)
  | .tuple items => .tuple (withoutRawAll items)
  | .map entries => .map (withoutRawEntries entries)
  | v => v

def withoutRawAll : List Value → List Value
  | [] => []
  | v :: rest => v.withoutRaw :: withoutRawAll rest

def withoutRawEntries : List (Value × Value) → List (Value × Value)
  | [] => []
  | (k, v) :: rest =>
    if k.text? = some "raw" then withoutRawEntries rest
    else (k, v.withoutRaw) :: withoutRawEntries rest

end

theorem withoutRawAll_eq_map (items : List Value) :
    withoutRawAll items = items.map withoutRaw := by
  induction items with
  | nil => rw [withoutRawAll]; rfl
  | cons v rest ih => rw [withoutRawAll, ih]; rfl

theorem withoutRaw_list (items : List Value) :
    (Value.list items).withoutRaw = .list (items.map withoutRaw) := by
  rw [withoutRaw, withoutRawAll_eq_map]

end Value

namespace Node

theorem withoutRaw_node (tag : Tag) (entries : List (String × Value)) :
    (node tag entries).withoutRaw =
      node tag ((entries.filter fun e => e.1 ≠ "raw").map fun e => (e.1, e.2.withoutRaw)) := by
  have hentries : ∀ entries : List (String × Value),
      Value.withoutRawEntries (entries.map fun e => (.text e.1, e.2)) =
        ((entries.filter fun e => e.1 ≠ "raw").map fun e => (e.1, e.2.withoutRaw)).map
          fun e => (.text e.1, e.2) := by
    intro entries
    induction entries with
    | nil => rfl
    | cons e rest ih =>
      obtain ⟨name, v⟩ := e
      have htext : (Value.text name).text? = some "raw" ↔ name = "raw" := by
        show some name = some "raw" ↔ _
        rw [Option.some.injEq]
      rw [List.map_cons, Value.withoutRawEntries, ih, List.filter_cons]
      by_cases hname : name = "raw"
      · rw [if_pos (htext.2 hname), if_neg (by rw [decide_eq_true_eq]; exact not_not_intro hname)]
      · rw [if_neg (mt htext.1 hname), if_pos (decide_eq_true hname)]
        rfl
  have htype : (Value.text "type").text? ≠ some "raw" := by decide
  rw [node, Value.withoutRaw, Value.withoutRawEntries, hentries, if_neg htype]
  rfl

end Node

namespace Reader

open Node (literal expression fieldOf entryFieldOf tableConstructor keyedField namedField
  positionalField number_ok)

variable {reserved : List String} (mark : QuoteMark)

/-- What is read is what is built, but for the text of literals. -/
def Agrees (reads : Value → Prop) (built : Except Failure Value) : Prop :=
  ∃ n e, reads n ∧ built = .ok e ∧ n.withoutRaw = e.withoutRaw

/-! ## Leaves -/

theorem withoutRaw_numeral (m : Number) (raw : String) :
    (numeral m raw).withoutRaw = (Node.numeral (.number m)).withoutRaw := by
  rw [numeral, Node.numeral, Node.withoutRaw_node, Node.withoutRaw_node]
  rfl

theorem withoutRaw_neg (n : Value) : (Node.neg n).withoutRaw = Node.neg n.withoutRaw := by
  rw [Node.neg, Node.withoutRaw_node]
  rfl

theorem agrees_literal {c : Value} (hl : c.isLeaf) (hf : c.isFinite) :
    Agrees (ReadsExpression reserved (c.tokens mark)) (literal c) := by
  cases c with
  | nil =>
    exact ⟨_, _, readsExpression_constant rfl (fun h => by cases h) fun rest => rfl, rfl, rfl⟩
  | bool b =>
    refine ⟨Node.boolean (.bool b), _, readsExpression_constant rfl (fun h => by cases h)
      fun rest => ?_, rfl, rfl⟩
    cases b <;> rfl
  | text s =>
    refine ⟨_, _, readsExpression_constant trivial (fun h => by cases h) fun rest => rfl, rfl, ?_⟩
    rw [string, Node.withoutRaw_node, Node.withoutRaw_node]
    rfl
  | number m =>
    have hbuilt : literal (.number m) = _ := number_ok hf
    rw [hbuilt, Value.tokens, Number.tokens]
    split
    · refine ⟨_, _, readsExpression_constant ⟨by decide, by decide⟩ (by simp) fun rest => rfl,
        rfl, ?_⟩
      rw [withoutRaw_neg, withoutRaw_neg, withoutRaw_numeral]
    · exact ⟨_, _, readsExpression_constant trivial (fun h => by cases h) fun rest => rfl, rfl,
        withoutRaw_numeral _ _⟩
  | _ => cases hl

/-! ## Tables -/

theorem agrees_fields {γ : Type} {items : List γ} {tokens : γ → List Token}
    {build : γ → Except Failure Value}
    (h : ∀ x ∈ items, Agrees (ReadsField reserved (tokens x)) (build x)) :
    ∃ ns es, ReadsFields reserved (items.flatMap fun x => tokens x ++ [.symbol ',']) ns ∧
      items.mapM build = .ok es ∧ ns.map Value.withoutRaw = es.map Value.withoutRaw := by
  induction items with
  | nil => exact ⟨[], [], readsFields_nil, rfl, rfl⟩
  | cons x rest ih =>
    obtain ⟨n, e, hread, hbuild, hsame⟩ := h x List.mem_cons_self
    obtain ⟨ns, es, hreads, hbuilds, hsames⟩ := ih fun y hy => h y (List.mem_cons_of_mem _ hy)
    refine ⟨n :: ns, e :: es, hread.cons hreads, ?_, ?_⟩
    · rw [List.mapM_cons, hbuild, hbuilds]
      rfl
    · rw [List.map_cons, List.map_cons, hsame, hsames]

theorem agrees_table {γ : Type} {items : List γ} {tokens : γ → List Token}
    {build : γ → Except Failure Value}
    (h : ∀ x ∈ items, Agrees (ReadsField reserved (tokens x)) (build x)) :
    Agrees (ReadsExpression reserved (Token.table (items.map tokens)))
      (do return tableConstructor (← items.mapM build)) := by
  obtain ⟨ns, es, hreads, hbuilds, hsames⟩ := agrees_fields h
  refine ⟨tableConstructor ns, tableConstructor es, ?_, by rw [hbuilds]; rfl, ?_⟩
  · rw [Token.table, List.flatMap_map]
    exact hreads.table
  · rw [tableConstructor, tableConstructor, Node.withoutRaw_node, Node.withoutRaw_node]
    show Node.node _ [("fields", (Value.list ns).withoutRaw)] =
      Node.node _ [("fields", (Value.list es).withoutRaw)]
    rw [Value.withoutRaw_list, Value.withoutRaw_list, hsames]

theorem agrees_positional {ts : List Token} {built : Except Failure Value}
    (h : Agrees (ReadsExpression reserved ts) built) :
    Agrees (ReadsField reserved ts) (do return positionalField (← built)) := by
  obtain ⟨n, e, hread, rfl, hsame⟩ := h
  refine ⟨_, _, hread.positional, rfl, ?_⟩
  rw [positionalField, positionalField, Node.withoutRaw_node, Node.withoutRaw_node]
  show Node.node _ [("value", n.withoutRaw)] = Node.node _ [("value", e.withoutRaw)]
  rw [hsame]

theorem agrees_keyed {ts us : List Token} {key built : Except Failure Value}
    (hk : Agrees (ReadsExpression reserved ts) key)
    (hv : Agrees (ReadsExpression reserved us) built) :
    Agrees (ReadsField reserved ([.symbol '['] ++ ts ++ [.symbol ']'] ++ [.symbol '='] ++ us))
      (do return keyedField (← key) (← built)) := by
  obtain ⟨kn, ke, hkread, rfl, hksame⟩ := hk
  obtain ⟨n, e, hread, rfl, hsame⟩ := hv
  refine ⟨_, _, hkread.keyed hread, rfl, ?_⟩
  rw [keyedField, keyedField, Node.withoutRaw_node, Node.withoutRaw_node]
  show Node.node _ [("key", kn.withoutRaw), ("value", n.withoutRaw)] =
    Node.node _ [("key", ke.withoutRaw), ("value", e.withoutRaw)]
  rw [hksame, hsame]

theorem agrees_named {s : String} {us : List Token} {built : Except Failure Value}
    (hs : s ∉ reserved) (hv : Agrees (ReadsExpression reserved us) built) :
    Agrees (ReadsField reserved ([.word s] ++ [.symbol '='] ++ us))
      (do return namedField (.text s) (← built)) := by
  obtain ⟨n, e, hread, rfl, hsame⟩ := hv
  refine ⟨_, _, hread.named hs, rfl, ?_⟩
  rw [namedField, namedField, Node.withoutRaw_node, Node.withoutRaw_node]
  show Node.node _ [("key", _), ("value", n.withoutRaw)] =
    Node.node _ [("key", _), ("value", e.withoutRaw)]
  rw [hsame]

/-! ## Data -/

/-- That the tokens of data are read as what is built for it, on its own and as a field. -/
structure AgreesOn (reserved : List String) (mark : QuoteMark) (v : Value) : Prop where
  whole : v.isProperty = false →
    Agrees (ReadsExpression reserved (v.fold (.tokens mark))) (expression v)
  field : Agrees (ReadsField reserved (v.fold (.tokens mark))) (fieldOf v)

variable {mark}

theorem agreesOn_of_whole {v : Value} (hd : v.IsData)
    (h : Agrees (ReadsExpression reserved (v.fold (.tokens mark))) (expression v)) :
    AgreesOn reserved mark v := by
  refine ⟨fun _ => h, ?_⟩
  rw [Node.fieldOf_data hd]
  exact agrees_positional h

theorem agrees_sequence {mk : List Value → Value} (hm : IsSequence mk) {items : List Value}
    (h : ∀ v ∈ items, AgreesOn reserved mark v) :
    Agrees (ReadsExpression reserved ((mk items).fold (.tokens mark)))
      (expression (mk items)) := by
  rw [Value.fold_sequence _ hm, Node.expression_sequence hm]
  exact agrees_table fun v hv => (h v hv).field

theorem agrees_entry {k v : Value} (hk : Walk.isMapKey k)
    (free : ∀ s, k = .text s → isName s → s ∉ reserved)
    (h : Agrees (ReadsExpression reserved (v.fold (.tokens mark))) (expression v)) :
    Agrees (ReadsField reserved (Token.ofKey mark k ++ [.symbol '='] ++ v.fold (.tokens mark)))
      (entryFieldOf k v) := by
  obtain ⟨s, rfl⟩ := Value.eq_text_of_isMapKey hk
  show Agrees (ReadsField reserved ((if isName s then _ else _) ++ _ ++ _)) _
  rw [entryFieldOf]
  by_cases hname : isName s
  · have hnamed : (Value.text s).isNamed := hname
    rw [if_pos hname, if_pos hnamed]
    exact agrees_named (free s rfl hname) h
  · have hnamed : ¬ (Value.text s).isNamed := hname
    rw [if_neg hname, if_neg hnamed]
    exact agrees_keyed (agrees_literal mark (c := .text s) rfl rfl) h

theorem agrees_map {entries : List (Value × Value)}
    (h : ∀ e ∈ entries, Agrees (ReadsField reserved
      (Token.ofKey mark e.1 ++ [.symbol '='] ++ e.2.fold (.tokens mark)))
      (entryFieldOf e.1 e.2)) :
    Agrees (ReadsExpression reserved ((Value.map entries).fold (.tokens mark)))
      (expression (.map entries)) := by
  have htable := agrees_table h
  rw [Value.fold_map, expression, Node.entryFieldsOf_eq_mapM]
  show Agrees (ReadsExpression reserved (Token.table ((entries.map _).map _))) _
  rw [List.map_map]
  exact htable

/-- The tokens of data are read as the nodes that are built for it. -/
theorem agreesOn_of_isItem {v : Value} (hi : v.IsItem) : (∀ c ∈ v.leaves, c.isFinite) →
    (∀ s, .text s ∈ v.mapKeys → isName s → s ∉ reserved) → AgreesOn reserved mark v := by
  induction hi with
  | leaf hl =>
    intro hf _
    rw [Value.leaves_leaf hl, List.forall_mem_singleton] at hf
    refine agreesOn_of_whole (Value.isData_of_isLeaf hl) ?_
    rw [Value.fold_leaf _ hl, Node.expression_leaf hl]
    exact agrees_literal mark hl hf
  | list h ih =>
    intro hf hs
    rw [Value.leaves_sequence .list] at hf
    rw [Value.mapKeys_sequence .list] at hs
    refine agreesOn_of_whole ⟨.list h, rfl⟩ (agrees_sequence .list fun v hv => ?_)
    exact ih v hv (fun c hc => hf c (List.mem_flatMap.2 ⟨v, hv, hc⟩))
      fun s hc => hs s (List.mem_flatMap.2 ⟨v, hv, hc⟩)
  | tuple h ih =>
    intro hf hs
    rw [Value.leaves_sequence .tuple] at hf
    rw [Value.mapKeys_sequence .tuple] at hs
    refine agreesOn_of_whole ⟨.tuple h, rfl⟩ (agrees_sequence .tuple fun v hv => ?_)
    exact ih v hv (fun c hc => hf c (List.mem_flatMap.2 ⟨v, hv, hc⟩))
      fun s hc => hs s (List.mem_flatMap.2 ⟨v, hv, hc⟩)
  | map hk hp h ih =>
    intro hf hs
    rw [Value.leaves_map] at hf
    rw [Value.mapKeys_map] at hs
    refine agreesOn_of_whole ⟨.map hk hp h, rfl⟩ (agrees_map fun e he => ?_)
    have hv := ih e he
      (fun c hc => hf c (List.mem_flatMap.2 ⟨e, he, List.mem_cons_of_mem _ hc⟩))
      fun s hc => hs s (List.mem_flatMap.2 ⟨e, he, List.mem_cons_of_mem _ hc⟩)
    refine agrees_entry (hk e he) (fun s hkey => hs s ?_) (hv.whole (hp e he))
    exact List.mem_flatMap.2 ⟨e, he, hkey ▸ List.mem_cons_self⟩
  | property hk hp _ ih =>
    intro hf hs
    rw [Value.leaves_property, List.forall_mem_cons] at hf
    rw [Value.mapKeys_property] at hs
    refine ⟨(fun h => by cases h), ?_⟩
    rw [Value.fold_property, fieldOf]
    exact agrees_keyed (agrees_literal mark (Value.isLeaf_of_isPropertyKey hk) hf.1)
      ((ih hf.2 hs).whole hp)

/-! ## Chunks -/

theorem withoutRaw_chunk (n : Value) :
    (Node.chunk [Node.returnStatement [n]]).withoutRaw =
      Node.chunk [Node.returnStatement [n.withoutRaw]] := by
  have hreturn : (Node.returnStatement [n]).withoutRaw =
      Node.returnStatement [n.withoutRaw] := by
    rw [Node.returnStatement, Node.withoutRaw_node]
    rfl
  rw [Node.chunk, Node.withoutRaw_node]
  show Node.node _ [("body", .list [(Node.returnStatement [n]).withoutRaw]), ("comments", _)] = _
  rw [hreturn]
  rfl

theorem chunk?_return {ts : List Token} {n : Value} (h : ReadsExpression reserved ts n) :
    chunk? reserved (.word "return" :: ts) = some (Node.chunk [Node.returnStatement [n]]) := by
  have hread := h.read ts.length [] (Nat.le_refl _)
  rw [List.append_nil] at hread
  rw [chunk?, hread]

end Reader

/-! ## What is written -/

/-- Whether a format lays tables out with blanks only: spaces, tabs and line ends. -/
def Format.IsBlank (g : Format) : Prop :=
  ∀ indent, g.indent? = some indent →
    g.eol.toList.all Scan.isBlank ∧ indent.toList.all Scan.isBlank

theorem Format.IsBlank.style {g : Format} (h : g.IsBlank) : g.style.IsBlank := by
  rw [Format.style]
  cases hindent : g.indent? with
  | none => exact ⟨fun _ => rfl, Or.inl rfl⟩
  | some indent =>
    obtain ⟨heol, hspaces⟩ := h indent hindent
    rw [List.all_eq_true] at heol hspaces
    refine ⟨fun level => List.all_eq_true.2 fun c hc => ?_, Or.inr rfl⟩
    have hline : (Style.tall g.quotes indent g.eol).line level =
        g.eol ++ String.join (List.replicate level indent) := rfl
    rw [hline, String.toList_append, String.toList_join] at hc
    rcases List.mem_append.1 hc with hc | hc
    · exact heol c hc
    · obtain ⟨s, hs, hc⟩ := List.mem_flatMap.1 hc
      rw [List.eq_of_mem_replicate hs] at hc
      exact hspaces c hc

namespace Document

variable {d : Document} {limit : Value} {source : FormatSource}
  {overrides : List (Value × Value)} {f g : Format}

/-- Whether a document is written, in some format. -/
def IsWritten (d : Document) (limit : Value) : Prop :=
  ∃ source overrides s, (d.write source overrides limit).outcome = .ok s

/-- A document that is written is data, and nests as deep as the limit allows. -/
theorem IsWritten.isData (h : d.IsWritten limit) :
    d.unfolded.IsData ∧ Walk.Fits limit 0 d.unfolded.nesting := by
  obtain ⟨source, overrides, s, h⟩ := h
  obtain ⟨f, -, h⟩ := Run.exists_of_bind_ok h
  obtain ⟨g, -, h⟩ := Run.exists_of_bind_ok h
  obtain ⟨hd, hfits, -⟩ := walk_told g.limit_printer h
  exact ⟨hd, hfits⟩

/-- What is written for a document in a format. -/
theorem write_eq (wf : d.WellFormed) (hd : d.unfolded.IsData)
    (hfits : Walk.Fits limit 0 d.unfolded.nesting)
    (hf : (Format.ofSource source).outcome = .ok f)
    (hg : (f.override overrides).outcome = .ok g) :
    (d.write source overrides limit).outcome =
      .ok ("return " ++ d.unfolded.fold g.style.writer 0) := by
  rw [outcome_write hf hg, walk_eq g.limit_printer wf.linked hd hfits]
  exact g.finish_printer hd.1

/-- A document that is written in some format is written in every one. If a format lays tables
out with blanks only, and the document has only finite numbers, texts without backslashes and
line ends, and no name that is reserved as a key, then what is written is read as a chunk that
returns the expression of the document, but for the text of the literals. -/
theorem read_write (wf : d.WellFormed) (written : d.IsWritten limit)
    (hf : (Format.ofSource source).outcome = .ok f)
    (hg : (f.override overrides).outcome = .ok g) (blank : g.IsBlank)
    (finite : ∀ c ∈ d.unfolded.leaves, c.isFinite) (clean : ∀ c ∈ d.unfolded.leaves, c.isClean)
    {reserved : List String}
    (free : ∀ s, .text s ∈ d.unfolded.mapKeys → isName s → s ∉ reserved) :
    ∃ s n e, (d.write source overrides limit).outcome = .ok s ∧
      Reader.read? reserved s = some n ∧ Node.expression d.unfolded = .ok e ∧
      n.withoutRaw = (Node.chunk [Node.returnStatement [e]]).withoutRaw := by
  obtain ⟨hd, hfits⟩ := written.isData
  have hagrees : Reader.AgreesOn reserved g.style.mark d.unfolded :=
    Reader.agreesOn_of_isItem hd.1 finite free
  obtain ⟨n, e, hread, hbuilt, hsame⟩ := hagrees.whole hd.2
  have htokens := blank.style.tokens? hd.1 fun c hc => ⟨finite c hc, clean c hc⟩
  refine ⟨_, Node.chunk [Node.returnStatement [n]], e, write_eq wf hd hfits hf hg, ?_, hbuilt, ?_⟩
  · rw [Reader.read?, htokens, Option.bind_some, Reader.chunk?_return hread]
  · rw [Reader.withoutRaw_chunk, Reader.withoutRaw_chunk, hsame]

/-- A map with a key that is no name, and a list with a property in it, in the default format. -/
theorem read_write_map :
    let v : Value := .map [(.text "a", .list [.int (-3), .property (.int 1) (.text "it's")]),
      (.text "b c", .nil)]
    ∃ s n e, ((ofValue v).write (.value .nil) [] (.int 3)).outcome = .ok s ∧
      Reader.read? Reader.reservedWords s = some n ∧ Node.expression v = .ok e ∧
      n.withoutRaw = (Node.chunk [Node.returnStatement [e]]).withoutRaw := by
  intro v
  have hd : v.IsData := by
    refine ⟨Value.isItem_map.2 ?_, rfl⟩
    refine List.forall_mem_cons.2 ⟨⟨rfl, (Value.isItem_sequence .list).2 ?_, rfl⟩,
      List.forall_mem_singleton.2 ⟨rfl, .leaf rfl, rfl⟩⟩
    exact List.forall_mem_cons.2 ⟨.leaf rfl, List.forall_mem_singleton.2
      (.property rfl rfl (.leaf rfl))⟩
  have hk : v.keysOnce := Value.keysOnce_map.2 ⟨by simp [distinctKeys],
    List.forall_mem_cons.2 ⟨rfl, List.forall_mem_singleton.2 rfl⟩⟩
  have wf := wellFormed_ofValue hd.1 hk
  have hfits : Walk.Fits (limitOf (3 : Int)) 0 v.nesting := fits_limitOf.2 (by decide)
  have hf : (Format.ofSource (.value .nil)).outcome = .ok .default := rfl
  have hg : (Format.default.override []).outcome = .ok .default := rfl
  have hu := unfolded_ofValue v
  have written : (ofValue v).IsWritten (.int 3) :=
    ⟨_, _, _, write_eq wf (by rwa [hu]) (by rwa [hu]) hf hg⟩
  have blank : Format.default.IsBlank := fun indent h => by
    have hindent : Format.default.indent? = some "  " := rfl
    rw [hindent, Option.some.injEq] at h
    subst h
    exact ⟨by decide, by decide⟩
  have free : ∀ s, .text s ∈ (ofValue v).unfolded.mapKeys → isName s →
      s ∉ Reader.reservedWords := by
    intro s hs _
    have hkeys : v.mapKeys = [.text "a", .text "b c"] := rfl
    rw [hu, hkeys] at hs
    simp only [List.mem_cons, Value.text.injEq, List.not_mem_nil, or_false] at hs
    rcases hs with rfl | rfl <;> decide
  have h := read_write wf written hf hg blank (by rw [hu]; decide +kernel)
    (by rw [hu]; decide +kernel) free
  rwa [hu] at h

end Document

end LuaData
