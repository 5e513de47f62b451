import VerilogLayout.Text.Basic

/-!
# Brackets

Parentheses, square brackets and braces count as one kind of bracket: only how many are open
matters. `Bracket.isBalanced` says whether they close one another, and `Bracket.topLevelParts`
cuts a text at the separators outside of them. `join_topLevelParts` says that cutting loses
nothing but the separators.
-/

namespace VerilogLayout.Bracket

/-- An opening bracket of any form. -/
def isOpening (c : CodePoint) : Bool :=
  c = '(' || c = '[' || c = '\x7b'

/-- A closing bracket of any form. -/
def isClosing (c : CodePoint) : Bool :=
  c = ')' || c = ']' || c = '\x7d'

/-- `closes depth s` holds if `s` closes the `depth` brackets that are open before it and every
bracket of its own, and none that is not open. -/
def closes (depth : Nat) : Text → Bool
  | [] => depth = 0
  | c :: s =>
      if isOpening c then closes (depth + 1) s
      else if isClosing c then depth ≠ 0 && closes (depth - 1) s
      else closes depth s

/-- `isBalanced s` holds if the brackets of `s` close one another. -/
def isBalanced (s : Text) : Bool :=
  closes 0 s

/-- The depth behind a character. It falls below zero behind a bracket that closes none. -/
def depthAfter (depth : Int) (c : CodePoint) : Int :=
  if isOpening c then depth + 1 else if isClosing c then depth - 1 else depth

/-- The parts of a text between the separators at depth zero; `depth` counts the brackets that are
open before the text. -/
def topLevelParts (separator : CodePoint) (depth : Int) : Text → List Text
  | [] => [[]]
  | c :: s =>
      if c = separator ∧ depth = 0 then
        [] :: topLevelParts separator 0 s
      else
        match topLevelParts separator (depthAfter depth c) s with
        | [] => [[c]]
        | part :: parts => (c :: part) :: parts

/-- There is one part at least. -/
theorem topLevelParts_ne_nil (separator : CodePoint) (depth : Int) (s : Text) :
    topLevelParts separator depth s ≠ [] := by
  cases s with
  | nil => simp [topLevelParts]
  | cons c s =>
    unfold topLevelParts
    split
    · simp
    · split <;> simp

/-- Joining the parts with the separator gives the text back. -/
theorem join_topLevelParts (separator : CodePoint) (depth : Int) (s : Text) :
    List.intercalate [separator] (topLevelParts separator depth s) = s := by
  induction s generalizing depth with
  | nil => rfl
  | cons c s ih =>
    unfold topLevelParts
    split
    -- The text starts with a separator, which ends an empty part.
    · next h =>
      have hne := topLevelParts_ne_nil separator 0 s
      have ih := ih 0
      cases hparts : topLevelParts separator 0 s with
      | nil => exact absurd hparts hne
      | cons part parts => rw [hparts] at ih; rw [List.intercalate_cons_cons, ih, h.1]; rfl
    -- The first character joins the first part of the rest.
    · have hne := topLevelParts_ne_nil separator (depthAfter depth c) s
      have ih := ih (depthAfter depth c)
      cases hparts : topLevelParts separator (depthAfter depth c) s with
      | nil => exact absurd hparts hne
      | cons part parts =>
        rw [hparts] at ih
        cases parts with
        | nil => rw [List.intercalate_singleton] at ih ⊢; rw [ih]
        | cons next rest =>
          simp only [List.intercalate_cons_cons, List.cons_append] at ih ⊢
          rw [ih]

end VerilogLayout.Bracket
