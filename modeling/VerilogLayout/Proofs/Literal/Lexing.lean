import VerilogLayout.Proofs.Source.Tab
import VerilogLayout.Proofs.Source.Watch

/-!
# Strings and comments

A `Lexing` says where a lexer stands that goes through a text from left to right and tells strings,
line comments and block comments apart. `literals` are the strings and block comments that it finds.
Each of them stands in the text as it is, `infix_of_mem_literals`, and tabs outside of them do not
count, `read_expandTabs`.
-/

namespace VerilogLayout

/-- Where a lexer stands. -/
inductive Lexing where
  /-- In code; `slash` tells whether the last character was a slash. -/
  | code (slash : Bool)
  /-- In a string; `escaped` tells whether the next character is taken as it is. -/
  | string (escaped : Bool) (body : Text)
  | lineComment
  /-- In a block comment; `star` tells whether the last character in it was a star. -/
  | blockComment (star : Bool) (body : Text)
deriving DecidableEq, Repr

namespace Lexing

/-- Where the lexer stands behind one more character. A line feed ends strings and line comments. -/
def next : Lexing → CodePoint → Lexing
  | .code slash, c =>
      if slash ∧ c = '/' then .lineComment
      else if slash ∧ c = '*' then .blockComment false []
      else if c = '"' then .string false []
      else .code (c = '/')
  | .string escaped body, c =>
      if c = '\n' ∨ (escaped = false ∧ c = '"') then .code false
      else .string (escaped = false ∧ c = '\\') (body ++ [c])
  | .lineComment, c => if c = '\n' then .code false else .lineComment
  | .blockComment star body, c =>
      if star ∧ c = '/' then .code false else .blockComment (c = '*') (body ++ [c])

/-- What has been read of a literal, or the slash that may start one. -/
def kept : Lexing → Text
  | .code slash => if slash then [.char '/'] else []
  | .string _ body => .char '"' :: body
  | .lineComment => []
  | .blockComment _ body => .char '/' :: .char '*' :: body

/-- `closes r c` holds if `c` is the last character of a literal. -/
def closes : Lexing → CodePoint → Bool
  | .string escaped _, c => !escaped && c = '"'
  | .blockComment star _, c => star && c = '/'
  | _, _ => false

/-- The literal that ends with `c`, if one does. -/
def closed (r : Lexing) (c : CodePoint) : List Text :=
  if r.closes c then [r.kept ++ [c]] else []

/-- Where the lexer stands behind a text. -/
def along (r : Lexing) (s : Text) : Lexing :=
  s.foldl next r

/-- The literals that end in a text. -/
def found (r : Lexing) : Text → List Text
  | [] => []
  | c :: s => r.closed c ++ (r.next c).found s

/-- The lexer stands in a literal. -/
def IsInside : Lexing → Prop
  | .string .. => True
  | .blockComment .. => True
  | _ => False

end Lexing

/-- The strings and block comments of a text. -/
def literals (s : Text) : List Text :=
  (Lexing.code false).found s

namespace Lexing

theorem along_cons (r : Lexing) (c : CodePoint) (s : Text) :
    r.along (c :: s) = (r.next c).along s :=
  rfl

theorem found_cons (r : Lexing) (c : CodePoint) (s : Text) :
    r.found (c :: s) = r.closed c ++ (r.next c).found s :=
  rfl

/-- Reading two texts is reading one and then the other. -/
theorem along_append (r : Lexing) (s t : Text) : r.along (s ++ t) = (r.along s).along t :=
  List.foldl_append

/-- What is found in two texts is found in one and then in the other. -/
theorem found_append (r : Lexing) (s t : Text) :
    r.found (s ++ t) = r.found s ++ (r.along s).found t := by
  induction s generalizing r with
  | nil => rfl
  | cons c s ih => rw [List.cons_append, found_cons, ih, found_cons, along_cons, List.append_assoc]

/-! ## Literals stand in the text -/

/-- What is kept behind a character was kept before or is the character. -/
theorem kept_next_suffix (r : Lexing) (c : CodePoint) : (r.next c).kept <:+ r.kept ++ [c] := by
  cases r with
  | code slash =>
      rw [next]
      split
      · exact List.nil_suffix
      · split
        · next h =>
            obtain ⟨rfl, rfl⟩ := h
            exact List.suffix_rfl
        · split
          · next h =>
              rw [h]
              exact List.suffix_append _ _
          · by_cases h : c = '/'
            · rw [h]
              exact List.suffix_append _ _
            · rw [decide_eq_false h]
              exact List.nil_suffix
  | string escaped body =>
      rw [next]
      split
      · exact List.nil_suffix
      · exact List.suffix_rfl
  | lineComment =>
      rw [next]
      split
      · exact List.nil_suffix
      · exact List.nil_suffix
  | blockComment star body =>
      rw [next]
      split
      · exact List.nil_suffix
      · exact List.suffix_rfl

/-- What is found is part of what is read. -/
theorem infix_of_mem_found {r : Lexing} {s l : Text} (h : l ∈ r.found s) : l <:+: r.kept ++ s := by
  induction s generalizing r with
  | nil => cases h
  | cons c s ih =>
      have hsplit : r.kept ++ c :: s = r.kept ++ [c] ++ s := by simp
      rw [hsplit]
      rcases List.mem_append.1 h with h | h
      · rw [closed] at h
        split at h
        · rw [List.mem_singleton.1 h]
          exact (List.prefix_append _ _).isInfix
        · cases h
      · obtain ⟨front, hfront⟩ := kept_next_suffix r c
        rw [← hfront, List.append_assoc]
        exact (ih h).trans (List.suffix_append _ _).isInfix

/-- A character on the line ends the literal that is read or is kept of it. -/
theorem next_of_isInside {r : Lexing} (hr : r.IsInside) {c : CodePoint} (hc : '\n' ≠ c) :
    r.closed c = [r.kept ++ [c]] ∨ (r.next c).IsInside ∧ (r.next c).kept = r.kept ++ [c] := by
  by_cases hclose : r.closes c
  · exact .inl (if_pos hclose)
  · right
    cases r with
    | code slash => cases hr
    | lineComment => cases hr
    | string escaped body =>
        have hnot : ¬ (c = '\n' ∨ (escaped = false ∧ c = '"')) := by
          rintro (rfl | ⟨rfl, rfl⟩)
          · exact hc rfl
          · exact hclose rfl
        rw [next, if_neg hnot]
        exact ⟨trivial, rfl⟩
    | blockComment star body =>
        have hnot : ¬ (star ∧ c = '/') := by
          rintro ⟨rfl, rfl⟩
          exact hclose rfl
        rw [next, if_neg hnot]
        exact ⟨trivial, rfl⟩

/-- A literal that has been started is found or goes on to the end of the line. -/
theorem prefix_of_isInside {r : Lexing} (hr : r.IsInside) {s : Text} (hs : .char '\n' ∉ s) :
    ((r.along s).IsInside ∧ r.kept <+: (r.along s).kept) ∨ ∃ l ∈ r.found s, r.kept <+: l := by
  induction s generalizing r with
  | nil => exact .inl ⟨hr, List.prefix_rfl⟩
  | cons c s ih =>
      rw [List.mem_cons, not_or] at hs
      rcases next_of_isInside hr hs.1 with hclosed | ⟨hin, hkept⟩
      · refine .inr ⟨r.kept ++ [c], ?_, List.prefix_append _ _⟩
        rw [found_cons, hclosed]
        exact List.mem_cons_self
      · have hgo : r.kept <+: (r.next c).kept := hkept ▸ List.prefix_append _ _
        rcases ih hin hs.2 with h | ⟨l, hl, h⟩
        · exact .inl ⟨h.1, hgo.trans h.2⟩
        · exact .inr ⟨l, List.mem_append_right _ hl, hgo.trans h⟩

/-! ## Line comments -/

/-- A line is its code and, if there is more, two slashes and what stands behind them. -/
theorem exists_behind_code (line : Text) :
    ∃ rest, line = Text.before "//" line ++ rest ∧
      (rest = [] ∨ ∃ t, rest = [.char '/', .char '/'] ++ t) := by
  obtain ⟨hsplit, hrest⟩ := Text.before_append_drop (a := '/') (b := '/') line
  refine ⟨_, hsplit.symm, hrest.imp_right ?_⟩
  rintro ⟨t, ht⟩
  exact ⟨t, ht.symm⟩

theorem mem_of_mem_code {line : Text} {c : CodePoint} (h : c ∈ Text.before "//" line) :
    c ∈ line := by
  obtain ⟨rest, hsplit, -⟩ := exists_behind_code line
  rw [hsplit]
  exact List.mem_append_left _ h

/-- A line comment lasts to the end of the line and holds nothing that is found. -/
theorem read_lineComment {s : Text} (hs : .char '\n' ∉ s) :
    lineComment.along s = lineComment ∧ lineComment.found s = [] := by
  induction s with
  | nil => exact ⟨rfl, rfl⟩
  | cons c s ih =>
      rw [List.mem_cons, not_or] at hs
      have hnext : lineComment.next c = lineComment := if_neg fun heq => hs.1 heq.symm
      rw [along_cons, found_cons, hnext]
      exact ih hs.2

/-- Behind code two slashes start a comment to the end of the line. -/
theorem read_slashes (slash : Bool) {s : Text} (hs : .char '\n' ∉ s) :
    (code slash).along ([.char '/', .char '/'] ++ s) = lineComment ∧
      (code slash).found ([.char '/', .char '/'] ++ s) = [] := by
  obtain ⟨halong, hfound⟩ := read_lineComment hs
  cases slash with
  | false => exact ⟨halong, hfound⟩
  | true => exact ⟨halong, hfound⟩

/-! ## Tabs -/

/-- Outside of literals spaces change nothing but a slash in front of them. -/
theorem read_spaces {r : Lexing} (hr : ¬ r.IsInside) (n : Nat) :
    r.along (Text.spaces (n + 1)) = r.next '\t' ∧ r.found (Text.spaces (n + 1)) = [] := by
  induction n generalizing r with
  | zero =>
      cases r with
      | code slash => exact ⟨by simp [along, Text.spaces, next], rfl⟩
      | lineComment => exact ⟨rfl, rfl⟩
      | string escaped body => exact absurd trivial hr
      | blockComment star body => exact absurd trivial hr
  | succ n ih =>
      have hsplit : Text.spaces (n + 1 + 1) = .char ' ' :: Text.spaces (n + 1) := rfl
      rw [hsplit, along_cons, found_cons]
      cases r with
      | code slash =>
          obtain ⟨halong, hfound⟩ := ih (r := .code false) id
          have hnext : ∀ {c : CodePoint}, c = ' ' ∨ c = '\t' →
              (code slash).next c = .code false := by
            rintro c (rfl | rfl) <;> simp [next]
          rw [hnext (.inl rfl), hnext (.inr rfl), halong, hfound]
          exact ⟨rfl, rfl⟩
      | lineComment => exact ih id
      | string escaped body => exact absurd trivial hr
      | blockComment star body => exact absurd trivial hr

/-- A line whose literals hold no tab is read as it is when its tabs are expanded. -/
theorem read_expandTabs {width : Nat} (hwidth : 0 < width) {r : Lexing} {s : Text}
    (hs : .char '\n' ∉ s) (hfound : ∀ l ∈ r.found s, .char '\t' ∉ l)
    (hkept : .char '\t' ∉ (r.along s).kept) :
    r.along (Text.expandTabs width s) = r.along s ∧
      r.found (Text.expandTabs width s) = r.found s := by
  suffices hgo : ∀ column, r.along (Text.expandTabs.go width column s) = r.along s ∧
      r.found (Text.expandTabs.go width column s) = r.found s from hgo 0
  induction s generalizing r with
  | nil => exact fun _ => ⟨rfl, rfl⟩
  | cons c s ih =>
      intro column
      rw [List.mem_cons, not_or] at hs
      obtain ⟨t, column', heq, ht⟩ := Text.expandTabs_cons hwidth column c
      obtain ⟨halong, hmore⟩ := ih hs.2
        (fun l hl => hfound l (List.mem_append_right _ hl)) hkept column'
      rw [heq, along_append, found_append, along_cons, found_cons]
      rcases ht with ⟨rfl, n, rfl⟩ | ⟨-, rfl⟩
      · have hclosed : r.closed '\t' = [] := by
          cases r <;> simp [closed, closes]
        -- A tab that is expanded cannot stand in a literal: it would be kept, or found with it.
        have hout : ¬ r.IsInside := by
          intro hr
          obtain ⟨hin, hnext⟩ := (next_of_isInside hr hs.1).resolve_left (by simp [hclosed])
          have htab : .char '\t' ∈ (r.next '\t').kept := hnext ▸ List.mem_concat_self
          rcases prefix_of_isInside hin hs.2 with ⟨-, h⟩ | ⟨l, hl, h⟩
          · exact hkept (h.subset htab)
          · exact hfound l (List.mem_append_right _ hl) (h.subset htab)
        obtain ⟨hsame, hnone⟩ := read_spaces hout n
        rw [hsame, hnone, halong, hmore, hclosed]
        exact ⟨rfl, rfl⟩
      · have hone : r.found [c] = r.closed c := List.append_nil _
        rw [hone]
        exact ⟨halong, congrArg (r.closed c ++ ·) hmore⟩

/-! ## Code in which no comment starts -/

/-- The lexer stands in code. -/
def IsCode (r : Lexing) : Prop :=
  ∃ slash, r = .code slash

/-- A string is no code. -/
theorem not_isCode_string (escaped : Bool) (body : Text) : ¬ (string escaped body).IsCode := by
  rintro ⟨slash, h⟩
  cases h

instance (r : Lexing) : Decidable r.IsCode :=
  match r with
  | .code slash => .isTrue ⟨slash, rfl⟩
  | .string escaped body => .isFalse (not_isCode_string escaped body)
  | .lineComment => .isFalse nofun
  | .blockComment .. => .isFalse nofun

/-- Code goes on behind a line feed. -/
theorem next_feed {r : Lexing} (h : r.IsCode) : r.next '\n' = .code false := by
  obtain ⟨slash, rfl⟩ := h
  simp [next]

/-- The lexer stands in no comment, and the slash that it has seen is the one that the watch has
seen. -/
def Follows (watch : Watch) : Lexing → Prop
  | .code slash => slash → watch.mark = .slash
  | .string .. => True
  | _ => False

section
variable {watch : Watch} {r : Lexing}

/-- What is no comment behind a text is none in front of it. -/
theorem comment_eq_false_of_along {s : Text} (h : (watch.along s).comment = false) :
    watch.comment = false := by
  rw [Watch.comment_along] at h
  simp only [Bool.or_eq_false_iff] at h
  exact h.1.1.1

/-- No comment is entered where none starts. -/
theorem Follows.next (hr : r.Follows watch) {c : CodePoint} (h : (watch.next c).comment = false) :
    (r.next c).Follows (watch.next c) := by
  cases r with
  | code slash =>
      have hpair : ¬ (slash ∧ (c = '/' ∨ c = '*')) := by
        rintro ⟨hslash, hc⟩
        have hmark := hr hslash
        rcases hc with rfl | rfl <;> simp [Watch.next, hmark] at h
      rw [Lexing.next, if_neg fun hboth => hpair ⟨hboth.1, .inl hboth.2⟩,
        if_neg fun hboth => hpair ⟨hboth.1, .inr hboth.2⟩]
      split
      · trivial
      · exact fun hc => Watch.of_eq_slash.2 (of_decide_eq_true hc)
  | string escaped body =>
      rw [Lexing.next]
      split
      · exact fun hslash => absurd hslash Bool.false_ne_true
      · trivial
  | lineComment => cases hr
  | blockComment star body => cases hr

/-- The reader follows the watcher as long as no comment is seen. -/
theorem Follows.along (hr : r.Follows watch) {s : Text} (h : (watch.along s).comment = false) :
    (r.along s).Follows (watch.along s) := by
  induction s generalizing r watch with
  | nil => exact hr
  | cons c s ih => exact ih (hr.next (comment_eq_false_of_along h)) h

/-- A part of a line without quotes neither starts nor ends a string. -/
theorem Follows.quiet (hr : r.Follows watch) {s : Text} (h : (watch.along s).comment = false)
    (hquote : .char '"' ∉ s) (hs : .char '\n' ∉ s) :
    r.found s = [] ∧ ((r.along s).IsCode ↔ r.IsCode) := by
  -- Without a quote or a slash that opens a comment the lexer stays where it is.
  induction s generalizing r watch with
  | nil => exact ⟨rfl, .rfl⟩
  | cons c s ih =>
      rw [List.mem_cons, not_or] at hquote hs
      have hnext := hr.next (comment_eq_false_of_along h)
      obtain ⟨hfound, hcode⟩ := ih hnext h hquote.2 hs.2
      rw [found_cons, hfound, along_cons, hcode]
      cases r with
      | code slash =>
          refine ⟨rfl, fun _ => ⟨slash, rfl⟩, fun _ => ?_⟩
          rw [Lexing.next] at hnext ⊢
          split at hnext
          · cases hnext
          · split at hnext
            · cases hnext
            · rw [if_neg ‹_›, if_neg ‹_›, if_neg fun heq => hquote.1 heq.symm]
              exact ⟨_, rfl⟩
      | string escaped body =>
          have hnot : ¬ (c = '\n' ∨ (escaped = false ∧ c = '"')) := by
            rintro (rfl | ⟨-, rfl⟩)
            · exact hs.1 rfl
            · exact hquote.1 rfl
          refine ⟨?_, ?_⟩
          · rw [closed, closes, decide_eq_false fun heq => hquote.1 heq.symm, Bool.and_false]
            rfl
          · rw [Lexing.next, if_neg hnot]
            exact ⟨nofun, nofun⟩
      | lineComment => cases hr
      | blockComment star body => cases hr

/-- A slash in front of a text counts only if a comment starts with it. -/
theorem Follows.of_slash {slash : Bool} (hr : (code slash).Follows watch) {s : Text}
    (h : (watch.along s).comment = false) :
    (code slash).found s = (code false).found s ∧
      (((code slash).along s).IsCode ↔ ((code false).along s).IsCode) := by
  cases s with
  | nil => exact ⟨rfl, fun _ => ⟨_, rfl⟩, fun _ => ⟨_, rfl⟩⟩
  | cons c s =>
      have hsame : (code slash).next c = (code false).next c := by
        have hnext := hr.next (comment_eq_false_of_along h)
        rw [Lexing.next] at hnext ⊢
        split at hnext
        · cases hnext
        · split at hnext
          · cases hnext
          · rw [if_neg ‹_›, if_neg ‹_›]
            rfl
      rw [found_cons, found_cons, along_cons, along_cons, hsame]
      exact ⟨rfl, .rfl⟩

end

/-- The strings of a line stand in the part between two parts without quotes. -/
theorem found_between {front value back : Text}
    (h : (Watch.along {} (front ++ (value ++ back))).comment = false)
    (hfront : .char '"' ∉ front) (hback : .char '"' ∉ back)
    (hs : .char '\n' ∉ front ++ (value ++ back)) :
    (code false).found (front ++ (value ++ back)) = (code false).found value ∧
      (((code false).along (front ++ (value ++ back))).IsCode ↔
        ((code false).along value).IsCode) := by
  rw [Watch.along_append, Watch.along_append] at h
  simp only [List.mem_append, not_or] at hs
  have hstart : (code false).Follows {} := nofun
  have hvalue := comment_eq_false_of_along h
  have hfirst := comment_eq_false_of_along hvalue
  obtain ⟨hnone, hcode⟩ := hstart.quiet hfirst hfront hs.1
  have hbehind := hstart.along hfirst
  obtain ⟨slash, heq⟩ := hcode.2 ⟨false, rfl⟩
  rw [found_append, found_append, along_append, along_append, hnone, List.nil_append]
  rw [heq] at hbehind ⊢
  obtain ⟨hfound, halong⟩ := hbehind.of_slash hvalue
  obtain ⟨hlast, hend⟩ := (hbehind.along hvalue).quiet h hback hs.2.2
  rw [hlast, List.append_nil, hend]
  exact ⟨hfound, halong⟩

end Lexing

/-- Literals occur in the text character for character. -/
theorem infix_of_mem_literals {s l : Text} (h : l ∈ literals s) : l <:+: s :=
  Lexing.infix_of_mem_found h

end VerilogLayout
