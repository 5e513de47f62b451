import VerilogLayout.Proofs.Json.Write
import VerilogLayout.Tree.Load

/-!
# Encodings of a tree

A tree may be written as data in many ways: `Node.EncodedAs` says which. The keys of a table may
stand in any order and among others, a list of comments and an index under either of two names, an
empty list may be null or left out, and the form of a comment may be named in any case or, where
the text shows it, left out. `Node.parse_encoding` says that every encoding is read as the
tree it was made from, as data and as JSON text, if the tree is no deeper than is allowed.
-/

namespace VerilogLayout

open Text (AllBlank IsTight Stops stops_cons stops_nil)

namespace Table

/-- The value under the first of two keys, or under the second where the first is missing. -/
theorem getAny?_pair (table : Table) (a b : Text) :
    (table.getAny? [a, b]).map Prod.snd = (table.get? a).or (table.get? b) := by
  simp only [getAny?]
  cases table.get? a <;> cases table.get? b <;> rfl

/-- The only key of a field is the one that is read. -/
theorem getAny?_single (table : Table) (a : Text) :
    (table.getAny? [a]).map Prod.snd = table.get? a := by
  simp only [getAny?]
  cases table.get? a <;> rfl

end Table

/-- A list that may be null or missing if it is empty. `R` says how an item is encoded. -/
inductive EncodedList {α : Type} (R : α → Value → Prop) : List α → Option Value → Prop
  | missing : EncodedList R [] none
  | null : EncodedList R [] (some .null)
  | list {items : List α} {values : List Value} (h : List.Forall₂ R items values) :
      EncodedList R items (some (.list values))

/-- The word for the form of a comment. -/
def CommentKind.word : CommentKind → Text
  | .line => "line"
  | .block => "block"

namespace Comment

/-- The form of the comment `text` is named, with blanks around it and in any case, or missing if
it is the one that the text shows. -/
inductive EncodedKind (text : Text) (kind : CommentKind) : Option Value → Prop
  | shown (h : kind = .ofText (Text.trimLeft text)) : EncodedKind text kind none
  | named {front word back : Text} (hfront : AllBlank front) (hword : Text.lower word = kind.word)
      (hback : AllBlank back) : EncodedKind text kind (some (.text (front ++ (word ++ back))))

/-- How a comment may be encoded. -/
inductive EncodedAs : Comment → Value → Prop
  | table {comment : Comment} {table : Table}
      (htext : table.get? "text" = some (.text comment.text))
      (hkind : EncodedKind comment.text comment.kind (table.get? "kind"))
      (hindex : (table.get? "originalTokenIndex").or (table.get? "original_token_index") =
        some (.int comment.index)) :
      EncodedAs comment (.table table)

end Comment

namespace Node

/-- How an optional lexeme may be encoded. -/
inductive EncodedLexeme : Option Text → Option Value → Prop
  | missing : EncodedLexeme none none
  | null : EncodedLexeme none (some .null)
  | text {s : Text} : EncodedLexeme (some s) (some (.text s))

/-- How a node may be encoded. -/
inductive EncodedAs : Node → Value → Prop
  | table {name : Text} {value : Option Text} {children : List Node}
      {leading trailing : List Comment} {table : Table}
      (hname : table.get? "name" = some (.text name))
      (hvalue : EncodedLexeme value (table.get? "value"))
      (hchildren : EncodedList EncodedAs children (table.get? "children"))
      (hleading : EncodedList Comment.EncodedAs leading
        ((table.get? "leadingComments").or (table.get? "leading_comments")))
      (htrailing : EncodedList Comment.EncodedAs trailing
        ((table.get? "trailingComments").or (table.get? "trailing_comments"))) :
      EncodedAs ⟨name, value, children, leading, trailing⟩ (.table table)

mutual
/-- The number of nodes on the longest way down, on which a comment counts as one more. -/
def levels : Node → Nat
  | ⟨_, _, children, leading, trailing⟩ =>
      max (levelsAll children) (if (leading ++ trailing).isEmpty then 0 else 1) + 1

/-- The greatest number of levels among nodes. -/
def levelsAll : List Node → Nat
  | [] => 0
  | node :: nodes => max (levels node) (levelsAll nodes)
end

/-- Children have fewer levels than their node. -/
theorem levels_lt_of_mem {child node : Node} (h : child ∈ node.children) :
    child.levels < node.levels := by
  obtain ⟨name, value, children, leading, trailing⟩ := node
  have hle : ∀ nodes : List Node, child ∈ nodes → child.levels ≤ levelsAll nodes := by
    intro nodes
    induction nodes with
    | nil => exact nofun
    | cons node nodes ih =>
      intro hmem
      rcases List.mem_cons.1 hmem with rfl | hmem
      · exact Nat.le_max_left _ _
      · exact (ih hmem).trans (Nat.le_max_right _ _)
  exact Nat.lt_succ_of_le ((hle children h).trans (Nat.le_max_left _ _))

/-- A comment is a level of its own. -/
theorem two_le_levels_of_mem {comment : Comment} {node : Node}
    (h : comment ∈ node.leading ++ node.trailing) : 2 ≤ node.levels := by
  obtain ⟨name, value, children, leading, trailing⟩ := node
  have hne : (leading ++ trailing).isEmpty = false := by
    rw [List.isEmpty_eq_false_iff]
    exact List.ne_nil_of_mem h
  rw [levels, hne]
  exact Nat.succ_le_succ (Nat.le_max_right _ _)

end Node

namespace Text

/-- A text stops before blanks if its lower case does, as no letter has a blank lower case. -/
theorem stops_of_lower {s : Text} (h : Stops isBlank (lower s)) : Stops isBlank s := by
  cases s with
  | nil => exact stops_nil
  | cons c s =>
    have hlower := stops_cons.1 h
    refine stops_cons.2 (Bool.eq_false_iff.2 fun hblank => ?_)
    have hcode := toNat_toLower c
    have hletter : ¬ (65 ≤ c.toNat ∧ c.toNat ≤ 90) := by
      intro hrange
      simp only [isBlank, Bool.or_eq_true, Bool.and_eq_true, beq_iff_eq,
        decide_eq_true_eq] at hblank
      omega
    have hsame : c.toLower = c := CodePoint.toNat_inj.1 (by rw [hcode, if_neg hletter])
    have hkelvin : c ≠ '\u212a' := by
      rintro rfl
      exact absurd hblank (by decide)
    have heq : (if c = '\u212a' then .char 'k' else c.toLower) = c := by rw [if_neg hkelvin, hsame]
    exact Bool.false_ne_true ((hlower.symm.trans (congrArg isBlank heq)).trans hblank)

theorem isTight_of_lower {s : Text} (h : IsTight (lower s)) : IsTight s :=
  ⟨stops_of_lower h.head, stops_of_lower (by rw [lower, List.map_reverse]; exact h.last)⟩

end Text

namespace Comment

/-- A form that is named, with blanks around it and in any case, is the one that is read. -/
theorem kindOf?_of_encodedKind {text : Text} {kind : CommentKind} {value : Option Value}
    (h : EncodedKind text kind value) : kindOf? text value = .ok kind := by
  cases h with
  | shown h => rw [kindOf?, h]
  | @named front word back hfront hword hback =>
    have htight : IsTight word := Text.isTight_of_lower (by
      rw [hword]
      cases kind <;> exact ⟨stops_cons.2 rfl, stops_cons.2 rfl⟩)
    have hne : word ≠ [] := by
      rintro rfl
      cases kind <;> exact absurd hword (by decide)
    have hempty : Value.isEmpty (.text (front ++ (word ++ back))) = false := by
      simp [Value.isEmpty, hne]
    have hread : CommentKind.ofWord? (front ++ (word ++ back)) = some kind := by
      rw [← List.append_assoc, CommentKind.ofWord?, Text.trim_append hfront htight hback, hword]
      cases kind <;> rfl
    simp only [kindOf?, hempty, hread]
    rfl

/-- A comment is read from every encoding. -/
theorem ofValue?_of_encodedAs {comment : Comment} {value : Value} (h : comment.EncodedAs value) :
    ofValue? value = .ok comment := by
  cases h with
  | @table table htext hkind hindex =>
    rw [← Table.getAny?_pair, Option.map_eq_some_iff] at hindex
    obtain ⟨⟨key, value⟩, hget, rfl⟩ := hindex
    have hkeys : table.getAny? indexKeys = some (key, .int comment.index) := hget
    rw [ofValue?, Value.textField?, htext]
    show (kindOf? comment.text (table.get? "kind") >>= _) = _
    rw [kindOf?_of_encodedKind hkind, hkeys]
    rfl

end Comment

section Items

variable {α : Type} {R : α → Value → Prop} {read : Value → Except Mismatch α}

/-- Items are read one by one. -/
theorem mapM_of_forall₂ {items : List α} {values : List Value} (h : List.Forall₂ R items values)
    (hread : ∀ item ∈ items, ∀ value, R item value → read value = .ok item) (start : Nat) :
    ((values.zipIdx start).mapM fun (value, i) =>
      (read value).mapError (Mismatch.under (Text.ofNat i))) = .ok items := by
  induction h generalizing start with
  | nil => rfl
  | cons h _ ih =>
    obtain ⟨hitem, hitems⟩ := List.forall_mem_cons.1 hread
    rw [List.zipIdx_cons, List.mapM_cons, ih hitems]
    show ((read _).mapError _ >>= _) = _
    rw [hitem _ h]
    rfl

/-- A list is read from every encoding if its items are. -/
theorem itemsField?_of_encodedList {items : List α} {table : Table} {keys : List Text}
    (h : EncodedList R items ((table.getAny? keys).map Prod.snd))
    (hread : ∀ item ∈ items, ∀ value, R item value → read value = .ok item) :
    Node.itemsField? read table keys = .ok items := by
  rw [Node.itemsField?]
  cases hget : table.getAny? keys with
  | none =>
    rw [hget] at h
    cases h
    rfl
  | some entry =>
    obtain ⟨key, value⟩ := entry
    rw [hget] at h
    cases h with
    | null => rfl
    | list h =>
      show Except.mapError _ (List.mapM _ _) = _
      rw [mapM_of_forall₂ h hread]
      rfl

end Items

namespace Node

/-- An encoded lexeme is read back. -/
theorem valueField?_of_encodedLexeme {table : Table} {value : Option Text}
    (h : EncodedLexeme value (table.get? "value")) : valueField? table = .ok value := by
  rw [valueField?]
  generalize table.get? "value" = field at h
  cases h <;> rfl

/-- A comment is read below a node that has room for it. -/
theorem commentWithin?_of_encodedAs {room : Nat} {node : Node} (hroom : node.levels ≤ room + 1)
    {comments : List Comment}
    (hsub : ∀ comment ∈ comments, comment ∈ node.leading ++ node.trailing) :
    ∀ comment ∈ comments, ∀ value, comment.EncodedAs value →
      commentWithin? room value = .ok comment := by
  intro comment hmem value h
  have htwo := two_le_levels_of_mem (hsub comment hmem)
  rw [commentWithin?, if_neg (by omega), Comment.ofValue?_of_encodedAs h]

/-- A node is read from every encoding if there is room for its levels. -/
theorem ofValueWithin?_of_encodedAs {room : Nat} {node : Node} {value : Value}
    (h : node.EncodedAs value) (hroom : node.levels ≤ room) :
    ofValueWithin? room value = .ok node := by
  induction room generalizing node value with
  | zero => cases node; exact absurd hroom (Nat.not_succ_le_zero _)
  | succ room ih =>
    cases h with
    | @table name value children leading trailing table hname hvalue hchildren hleading htrailing =>
      rw [← Table.getAny?_single] at hchildren
      rw [← Table.getAny?_pair] at hleading htrailing
      have hbelow : ∀ child ∈ children, ∀ value, child.EncodedAs value →
          ofValueWithin? room value = .ok child := by
        intro child hmem item h
        have hlt := @levels_lt_of_mem child ⟨name, value, children, leading, trailing⟩ hmem
        exact ih h (by omega)
      -- A list without comments is read even where there is no room for one.
      have hcomments := fun comments => @commentWithin?_of_encodedAs room _ hroom comments
      rw [ofValueWithin?, Value.textField?, hname, valueField?_of_encodedLexeme hvalue,
        itemsField?_of_encodedList hchildren hbelow,
        itemsField?_of_encodedList hleading (hcomments _ fun _ => List.mem_append_left _),
        itemsField?_of_encodedList htrailing (hcomments _ fun _ => List.mem_append_right _)]
      rfl

/-- Every encoding of a tree of no more levels than are allowed is read as this tree, as data and
as JSON text where there is room for its brackets. -/
theorem parse_encoding {node : Node} {value : Value} (h : node.EncodedAs value)
    (hlevels : node.levels ≤ maxAncestors + 1) (path : Option Text) :
    check? value path = .ok node ∧
      ∀ depth source, Json.IsDocument depth source value →
        parse? depth source path = .ok node := by
  have hcheck : check? value path = .ok node := by
    rw [check?, ofValue?, ofValueWithin?_of_encodedAs h hlevels]
  refine ⟨hcheck, fun depth source hsource => ?_⟩
  simp only [parse?, Json.read?_of_isDocument hsource, hcheck, Except.mapError]

/-- A tree of one token, with a comment on either side. -/
def clock : Node :=
  ⟨"source_text", none,
    [⟨"IDENTIFIER", some "clk", [], [⟨"// clock", .line, 0⟩], [⟨"/* in */", .block, 2⟩]⟩], [], []⟩

/-- An encoding of the tree that uses both names of a list of comments and of an index, leaves out
a form that the text shows, names the other in capitals, and has a key of its own. -/
def encodedClock : Value :=
  .table
    [("children", .list
        [.table
          [("line", .int 7),
            ("value", .text "clk"),
            ("leading_comments", .list
              [.table [("originalTokenIndex", .int 0), ("text", .text "// clock")]]),
            ("trailingComments", .list
              [.table [("kind", .text " BLOCK "), ("original_token_index", .int 2),
                ("text", .text "/* in */")]]),
            ("children", .null),
            ("name", .text "IDENTIFIER")]]),
      ("leadingComments", .list []),
      ("name", .text "source_text")]

/-- The tree is read from its encoding. -/
theorem parse_encodedClock :
    clock.EncodedAs encodedClock ∧ clock.levels ≤ maxAncestors + 1 ∧
      Json.IsDocument 6 (Json.write encodedClock) encodedClock ∧
      check? encodedClock none = .ok clock ∧
      parse? 6 (Json.write encodedClock) none = .ok clock := by
  have hfirst : Comment.EncodedAs ⟨"// clock", .line, 0⟩
      (.table [("originalTokenIndex", .int 0), ("text", .text "// clock")]) :=
    .table rfl (.shown (by decide)) rfl
  have hsecond : Comment.EncodedAs ⟨"/* in */", .block, 2⟩
      (.table [("kind", .text " BLOCK "), ("original_token_index", .int 2),
        ("text", .text "/* in */")]) :=
    .table rfl
      (@Comment.EncodedKind.named _ _ " " "BLOCK" " " (by decide) (by decide) (by decide)) rfl
  have hencoded : clock.EncodedAs encodedClock :=
    .table rfl .missing
      (.list (.cons
        (.table rfl .text .null (.list (.cons hfirst .nil)) (.list (.cons hsecond .nil))) .nil))
      (.list .nil) .missing
  have hlevels : clock.levels ≤ maxAncestors + 1 := by decide
  have hdocument : Json.IsDocument 6 (Json.write encodedClock) encodedClock :=
    Json.isDocument_write (by decide)
  obtain ⟨hcheck, hparse⟩ := parse_encoding hencoded hlevels none
  exact ⟨hencoded, hlevels, hdocument, hcheck, hparse 6 _ hdocument⟩

end Node
end VerilogLayout
