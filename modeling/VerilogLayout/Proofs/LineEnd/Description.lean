import Mathlib.Data.List.Chain
import VerilogLayout.Proofs.Collapse.Tree
import VerilogLayout.Proofs.Comments.Once
import VerilogLayout.Proofs.Nesting.Declaration
import VerilogLayout.Proofs.Procedural.Grammar

/-!
# Descriptions one behind the other

The descriptions of a source text are written with nothing between them, but for an empty line in
front of a module. A module ends its line itself, and what no renderer knows does not.
`startLines_iff` says what that means for texts one behind the other, and `descriptions_apart_iff`
for the trees: every description starts a line unless two that are no modules are neighbours.
-/

namespace VerilogLayout

open Text (OneLine)

namespace Node

open Render

/-- A description as it is written. -/
structure Written where
  isModule : Bool
  text : Text

/-- The empty line in front of a module, which the first description does without. -/
def gapBehind (front : Text) (isModule : Bool) : Text :=
  if isModule && !front.isEmpty then "\n" else []

/-- The text with descriptions behind it; those without a text are left out. -/
def stacked (front : Text) : List Written → Text
  | [] => front
  | d :: rest =>
      if d.text.isEmpty then stacked front rest
      else stacked (front ++ gapBehind front d.isModule ++ d.text) rest

/-- Every description with a text starts a line of the stack. -/
def StartLines (front : Text) : List Written → Prop
  | [] => True
  | d :: rest =>
      if d.text.isEmpty then StartLines front rest
      else
        (front ++ gapBehind front d.isModule = [] ∨
          endsLine (front ++ gapBehind front d.isModule)) ∧
        StartLines (front ++ gapBehind front d.isModule ++ d.text) rest

/-- Of two neighbours the first ends its line or the second is a module. -/
def ApartFrom (a b : Written) : Prop :=
  endsLine a.text ∨ b.isModule

/-- Behind a description, the others start lines if each of them stands apart from the one in front.
-/
theorem startLines_append {d : Written} (hd : d.text ≠ []) (front : Text) (list : List Written) :
    StartLines (front ++ d.text) list ↔
      (d :: list.filter fun d => !d.text.isEmpty).IsChain ApartFrom := by
  induction list generalizing d front with
  | nil => simp [StartLines]
  | cons next rest ih =>
      by_cases hnext : next.text = []
      · have hempty : next.text.isEmpty = true := List.isEmpty_iff.2 hnext
        rw [StartLines, if_pos hempty, List.filter_cons_of_neg (by simp [hempty]), ih hd]
      · have hempty : ¬ next.text.isEmpty = true := mt List.isEmpty_iff.1 hnext
        have hne : front ++ d.text ≠ [] := List.append_ne_nil_of_right_ne_nil front hd
        -- Something stands in front, so a module brings the line feed that another one needs.
        have hline : (front ++ d.text ++ gapBehind (front ++ d.text) next.isModule = [] ∨
            endsLine (front ++ d.text ++ gapBehind (front ++ d.text) next.isModule)) ↔
              ApartFrom d next := by
          rw [or_iff_right fun hnil => hne (List.append_eq_nil_iff.1 hnil).1, ApartFrom]
          cases next.isModule with
          | true =>
              have hgap : gapBehind (front ++ d.text) true = "\n" :=
                if_pos (by simp [hd])
              rw [hgap, endsLine_append _ (by decide)]
              exact iff_of_true rfl (.inr rfl)
          | false =>
              have hgap : gapBehind (front ++ d.text) false = [] := rfl
              rw [hgap, List.append_nil, endsLine_append front hd]
              exact (or_iff_left Bool.false_ne_true).symm
        rw [StartLines, if_neg hempty, List.filter_cons_of_pos (by simp [hempty]), ih hnext, hline,
          List.isChain_cons_cons]

/-- Descriptions start their lines if any two neighbours are apart. -/
theorem startLines_iff (list : List Written) : StartLines [] list ↔
    (list.filter fun d => !d.text.isEmpty).IsChain ApartFrom := by
  induction list with
  | nil => simp [StartLines]
  | cons d rest ih =>
      by_cases hd : d.text = []
      · have hempty : d.text.isEmpty = true := List.isEmpty_iff.2 hd
        rw [StartLines, if_pos hempty, List.filter_cons_of_neg (by simp [hempty]), ih]
      · have hempty : ¬ d.text.isEmpty = true := mt List.isEmpty_iff.1 hd
        have hgap : gapBehind [] d.isModule = [] := by simp [gapBehind]
        rw [StartLines, if_neg hempty, List.filter_cons_of_pos (by simp [hempty]), hgap,
          ← startLines_append hd [] rest]
        exact and_iff_right (.inl rfl)

/-! ## Descriptions of a tree -/

/-- A module declaration. -/
def isModule (node : Node) : Bool :=
  node.unwrap.inner.kind? = some .moduleDeclaration

/-- A module declaration, or a description that no renderer knows. -/
def IsDescription (node : Node) : Prop :=
  node.isModule ∨
    (node.unwrap.inner.kind? = none ∨ node.unwrap.inner.kind? = some .description) ∧
      ∀ wrapper ∈ node.unwrap.wrappers, wrapper.kind? = some .description

instance (node : Node) : Decidable node.IsDescription :=
  inferInstanceAs (Decidable (_ ∨ _))

variable {node : Node} {fuel : Nat} {columns : Columns}

/-- Without comments nothing is taken from the ledger. -/
theorem final_eq_of_plain (h : node.Plain) {level : Int} {ledger final : Ledger} {text : Text}
    (hrun : formatAt columns fuel node level none ledger = (.ok text, final)) : final = ledger := by
  obtain ⟨-, taken, hwritten, hnone, -⟩ := formatterWrites_formatAt
    (S := fun _ => False) (fun _ hc => hc.elim) columns fuel node level none trivial h nofun _ _ _
      hrun
  obtain rfl : taken = [] := List.eq_nil_iff_forall_not_mem.2 hnone
  exact congrArg Ledger.mk hwritten

/-- A description is its phrase in its place. -/
theorem exists_body (h : node.Plain) {level : Int} {ledger final : Ledger} {text : Text}
    (hrun : formatAt columns (fuel + 1) node level none ledger = (.ok text, final)) :
    ∃ body middle, phrase columns (formatAt columns fuel) node.unwrap.inner level
        node.unwrap.terminator ledger = (.ok body, middle) ∧
      text = placed false node level
        (terminated node.unwrap.inner level node.unwrap.terminator body) := by
  rw [formatAt, formatWith_plain columns _ false h level (by simp), ← bind_pure_comp] at hrun
  obtain ⟨body, middle, hbody, hpure⟩ := exists_of_bind hrun
  exact ⟨body, middle, hbody, (Except.ok.inj (Prod.mk.inj hpure).1).symm⟩

/-- A text that gets a line feed ends its line, unless it is empty. -/
theorem endsLine_lineEnded {text : Text} (hne : lineEnded true text ≠ []) :
    endsLine (lineEnded true text) := by
  unfold lineEnded at hne ⊢
  split
  · rw [endsLine_append _ (by decide)]
    rfl
  · next hends =>
      rw [if_neg hends] at hne
      simpa [hne] using hends

/-- A module ends its line. -/
theorem endsLine_of_isModule (hplain : node.Plain) (hmodule : node.isModule) {level : Int}
    {ledger final : Ledger} {text : Text}
    (hrun : formatAt columns fuel node level none ledger = (.ok text, final)) (hne : text ≠ []) :
    endsLine text := by
  cases fuel with
  | zero =>
      have hempty : text = [] := (Except.ok.inj (Prod.mk.inj hrun).1).symm
      exact absurd hempty hne
  | succ fuel =>
      obtain ⟨body, _, -, htext⟩ := exists_body hplain hrun
      have hkind : node.unwrap.inner.kind? = some .moduleDeclaration := of_decide_eq_true hmodule
      have hmajor : (node.unwrap.wrappers ++ [node.unwrap.inner]).any (·.is Kind.isMajor) := by
        simp [is, hkind, Kind.isMajor]
      rw [placed_eq, Bool.false_or, hmajor] at htext
      rw [htext] at hne ⊢
      exact endsLine_lineEnded hne

/-- A phrase of one line stays one with its terminator. -/
theorem oneLine_terminated {inner : Node} {level : Int} {terminator : Option Node} {body : Text}
    (hterminator : EndsStraight terminator) (hbody : OneLine body) :
    OneLine (terminated inner level terminator body) := by
  cases terminator with
  | none => exact hbody
  | some token =>
      have hopen : endsLine body = false := by
        rw [Bool.eq_false_iff]
        exact fun hend => hbody (List.mem_of_getLast? (endsLine_iff.1 hend))
      have hlexeme : OneLine (Lexeme.spaced {} token.name token.lexeme) := by
        rw [Lexeme.spaced_eq]
        simp [oneLine_plain (hterminator token rfl).2]
      rw [terminated]
      split
      · exact hbody
      · rw [attach, hopen]
        exact Text.oneLine_append.2 ⟨hbody, hlexeme⟩

/-- What no renderer knows is written on one line and does not end it. -/
theorem oneLine_of_isDescription (hstraight : node.Straight) (h : node.IsDescription)
    (hmodule : node.isModule = false) {ledger final : Ledger} {text : Text}
    (hrun : formatAt columns fuel node 0 none ledger = (.ok text, final)) : OneLine text := by
  cases fuel with
  | zero =>
      have hempty : text = [] := (Except.ok.inj (Prod.mk.inj hrun).1).symm
      exact hempty ▸ Text.oneLine_nil
  | succ fuel =>
      obtain ⟨body, _, hbody, htext⟩ := exists_body hstraight.plain hrun
      obtain ⟨hkind, hwrappers⟩ := h.resolve_left (by rw [hmodule]; exact Bool.false_ne_true)
      obtain ⟨hinner, hterminator⟩ := hstraight.unwrap
      -- Neither a renderer nor a wrapper of a statement applies, so the phrase is the text.
      have hphrase : phrase columns (formatAt columns fuel) node.unwrap.inner 0
          node.unwrap.terminator = pure node.unwrap.inner.text := by
        rw [phrase]
        rcases hkind with hkind | hkind <;> rw [hkind] <;> rfl
      rw [hphrase] at hbody
      obtain rfl : node.unwrap.inner.text = body := Except.ok.inj (Prod.mk.inj hbody).1
      have hmajor : (node.unwrap.wrappers ++ [node.unwrap.inner]).any (·.is Kind.isMajor) =
          false := by
        refine List.any_eq_false.2 fun other hother => ?_
        rcases List.mem_append.1 hother with hother | hother
        · simp [is, hwrappers other hother, Kind.isMajor]
        · rw [List.mem_singleton.1 hother]
          rcases hkind with hkind | hkind <;> simp [is, hkind, Kind.isMajor]
      have hindent : ∀ (flush : Bool) (body : Text), indented flush 0 body = body := by
        intro flush body
        unfold indented
        split
        · rfl
        · rfl
      rw [placed_eq, Bool.false_or, hmajor, hindent] at htext
      rw [htext]
      show OneLine (terminated _ 0 _ _)
      exact oneLine_terminated hterminator hinner.oneLine_text

/-- `WrittenAs columns fuel node d` holds if the description `node` is written as `d`. -/
structure WrittenAs (columns : Columns) (fuel : Nat) (node : Node) (d : Written) : Prop where
  isModule : d.isModule = node.isModule
  text : formatAt columns fuel node 0 none {} = (.ok d.text, {})

/-- Descriptions are stacked behind whatever has been written of them. -/
theorem exists_stacked {nodes : List Node} (hplain : AllPlain nodes) {isFirst : Bool}
    {body : Text} {final : Ledger}
    (hrun : sourceText (formatAt columns fuel) 0 isFirst nodes {} = (.ok body, final)) :
    ∃ list, List.Forall₂ (WrittenAs columns fuel) nodes list ∧
      ∀ front : Text, front.isEmpty = isFirst → stacked front list = front ++ body := by
  -- The gap depends on whether anything stands before it, so the text in front is left open.
  induction nodes generalizing isFirst body final with
  | nil =>
      obtain rfl : [] = body := Except.ok.inj (Prod.mk.inj hrun).1
      exact ⟨[], .nil, fun front _ => (List.append_nil front).symm⟩
  | cons node rest ih =>
      obtain ⟨hnode, hrest⟩ := allWithin_cons.1 hplain
      rw [sourceText] at hrun
      obtain ⟨block, middle, hblock, hrun⟩ := exists_of_bind hrun
      obtain rfl : middle = {} := final_eq_of_plain hnode hblock
      split at hrun
      · next hempty =>
          obtain ⟨list, hlist, hstack⟩ := ih hrest hrun
          refine ⟨⟨node.isModule, block⟩ :: list, .cons ⟨rfl, hblock⟩ hlist, fun front hfront => ?_⟩
          rw [stacked, if_pos hempty]
          exact hstack front hfront
      · next hempty =>
          obtain ⟨others, final', hothers, hpure⟩ := exists_of_bind hrun
          obtain ⟨list, hlist, hstack⟩ := ih hrest hothers
          obtain rfl := Except.ok.inj (Prod.mk.inj hpure).1
          refine ⟨⟨node.isModule, block⟩ :: list, .cons ⟨rfl, hblock⟩ hlist, fun front hfront => ?_⟩
          have hgap : gapBehind front node.isModule =
              (if node.unwrap.inner.kind? = some .moduleDeclaration ∧ !isFirst then "\n" else "" :
                Text) := by
            rw [gapBehind, hfront, isModule]
            simp
          have hne : List.isEmpty (front ++ gapBehind front node.isModule ++ block) = false := by
            simpa using fun _ _ => mt List.isEmpty_iff.2 hempty
          rw [stacked, if_neg hempty, hstack _ hne, hgap]
          simp only [List.append_assoc]

/-- A line feed at the end of a text is cleaned away like all blanks there. -/
theorem cleanEnd_feed (text : Text) : cleanEnd (text ++ "\n") = cleanEnd text := by
  obtain ⟨back, hsplit, hback, hlast⟩ := Text.exists_trimRight text
  have hblank : Text.AllBlank (back ++ ("\n" : Text)) :=
    List.forall_mem_append.2 ⟨hback, by decide⟩
  have htrim : Text.trimRight (text ++ "\n") = Text.trimRight text := by
    have happend := Text.trimRight_append hblank hlast
    rwa [← List.append_assoc, ← hsplit] at happend
  rw [cleanEnd, cleanEnd, htrim]

/-- A plain source text is its descriptions, with the end cleaned up. -/
theorem exists_written {root : Node} (hplain : root.Plain) (hkind : root.kind? = some .sourceText)
    {text : Text} (h : formatTree columns root = .ok text) :
    ∃ list, List.Forall₂ (WrittenAs columns root.height) root.children list ∧
      text = cleanEnd (stacked [] list) := by
  obtain ⟨whole, hrun, rfl⟩ := run_of_formatTree h
  have hwrapper : isWrapperName root.name = false := by
    have hname : Kind.ofName? root.name = some .sourceText := hkind
    rw [isWrapperName, hname]
    rfl
  have hunwrap := unwrap_of_not_wrapper hwrapper
  rw [formatWhole] at hrun
  obtain ⟨text, middle, htext, hrest⟩ := exists_of_bind hrun
  rw [format, formatWith_plain columns _ true hplain 0 (by simp), ← bind_pure_comp,
    hunwrap] at htext
  obtain ⟨body, middle', hbody, hplaced⟩ := exists_of_bind htext
  rw [phrase, hkind] at hbody
  obtain ⟨list, hlist, hstack⟩ := exists_stacked (Within.children hplain) hbody
  refine ⟨list, hlist, ?_⟩
  obtain rfl : lineEnded true body = text := Except.ok.inj (Prod.mk.inj hplaced).1
  have hwhole : whole = (lineEnded true body, 0) := by
    rw [plain_iff.1 hplain] at hrest
    exact (Except.ok.inj (Prod.mk.inj hrest).1).symm
  rw [hstack [] rfl, List.nil_append, hwhole, lineEnded]
  split
  · exact cleanEnd_feed body
  · rfl

/-- Each description that is written belongs to a node. -/
theorem exists_of_mem_written {nodes : List Node} {list : List Written}
    (h : List.Forall₂ (WrittenAs columns fuel) nodes list) :
    ∀ d ∈ list, ∃ node ∈ nodes, WrittenAs columns fuel node d := by
  induction h with
  | nil => exact List.forall_mem_nil _
  | cons hnode _ ih =>
      refine List.forall_mem_cons.2 ⟨⟨_, List.mem_cons_self, hnode⟩, fun d hd => ?_⟩
      obtain ⟨node, hmem, hwritten⟩ := ih d hd
      exact ⟨node, List.mem_cons_of_mem _ hmem, hwritten⟩

/-- A description ends its line if it is a module, and only then. -/
theorem WrittenAs.endsLine_iff {d : Written} (h : WrittenAs columns fuel node d)
    (hstraight : node.Straight) (hdescription : node.IsDescription) (hne : d.text ≠ []) :
    endsLine d.text ↔ d.isModule := by
  rw [h.isModule]
  cases hmodule : node.isModule with
  | true => exact iff_of_true (endsLine_of_isModule hstraight.plain hmodule h.text hne) rfl
  | false =>
      have hline := oneLine_of_isDescription hstraight hdescription hmodule h.text
      exact iff_of_false (fun hend => hline (List.mem_of_getLast? (Render.endsLine_iff.1 hend)))
        Bool.false_ne_true

/-- The descriptions of a source text without comments are written one behind the other, and each
of them that has a text starts a line if, and only if, of any two neighbours among these one is a
module. -/
theorem descriptions_apart_iff (columns : Columns) {root : Node} (hplain : root.comments = [])
    (hfeed : ∀ leaf ∈ root.leaves, .char '\n' ∉ leaf.lexeme) (hkind : root.kind? = some .sourceText)
    (hdescriptions : ∀ node ∈ root.children, node.IsDescription) {text : Text}
    (h : formatTree columns root = .ok text) :
    ∃ list, List.Forall₂ (WrittenAs columns root.height) root.children list ∧
      text = cleanEnd (stacked [] list) ∧
      (StartLines [] list ↔ (list.filter fun d => !d.text.isEmpty).IsChain
        fun a b => a.isModule ∨ b.isModule) := by
  have hstraight : root.Straight := ⟨plain_iff.2 hplain, hfeed⟩
  obtain ⟨list, hlist, htext⟩ := exists_written hstraight.plain hkind h
  refine ⟨list, hlist, htext, (startLines_iff list).trans (List.IsChain.iff_of_mem_imp ?_)⟩
  intro a b ha _
  obtain ⟨hmem, hne⟩ := List.mem_filter.1 ha
  obtain ⟨node, hnode, hwritten⟩ := exists_of_mem_written hlist a hmem
  exact or_congr_left (hwritten.endsLine_iff (hstraight.children node hnode)
    (hdescriptions node hnode) (by simpa using hne))

/-- A description that no renderer knows. -/
def primitiveNamed (name : Text) : Node :=
  { name := "description"
    children := [
      { name := "udp_declaration"
        children := [
          { name := "PRIMITIVE", value := some ("primitive" : Text) },
          { name := "IDENTIFIER", value := some name },
          { name := "SEMI", value := some (";" : Text) },
          { name := "ENDPRIMITIVE", value := some ("endprimitive" : Text) }] }] }

def twoPrimitives : Node :=
  { name := "source_text", children := [primitiveNamed "p", primitiveNamed "q"] }

/-- The second of two primitives starts no line, and its first token touches the one before. -/
theorem twoPrimitives_not_apart :
    formatTree Columns.standard twoPrimitives =
      .ok "primitive p;endprimitiveprimitive q;endprimitive\n" ∧
    ∃ list, List.Forall₂ (WrittenAs Columns.standard twoPrimitives.height) twoPrimitives.children
        list ∧ ¬ StartLines [] list := by
  have htext : formatTree Columns.standard twoPrimitives =
      .ok "primitive p;endprimitiveprimitive q;endprimitive\n" := by decide +kernel
  obtain ⟨list, hlist, -, hiff⟩ :=
    descriptions_apart_iff Columns.standard rfl (by decide) (by decide) (by decide) htext
  refine ⟨htext, list, hlist, fun hstart => ?_⟩
  have hwritten : ∀ {name text : Text} {d : Written},
      formatAt Columns.standard twoPrimitives.height (primitiveNamed name) 0 none {} =
        (.ok text, {}) →
      WrittenAs Columns.standard twoPrimitives.height (primitiveNamed name) d →
      d = ⟨false, text⟩ := by
    rintro name text ⟨isModule, written⟩ htext ⟨hmodule, hrun⟩
    rw [htext] at hrun
    obtain rfl := Except.ok.inj (Prod.mk.inj hrun).1
    exact congrArg (Written.mk · text) hmodule
  obtain ⟨first, rest, hfirst, hrest, rfl⟩ := List.forall₂_cons_left_iff.1 hlist
  obtain ⟨second, rest, hsecond, hrest, rfl⟩ := List.forall₂_cons_left_iff.1 hrest
  obtain rfl := hwritten rfl hfirst
  obtain rfl := hwritten rfl hsecond
  have hapart := List.rel_of_isChain_cons_cons (hiff.1 hstart)
  simp at hapart

end Node
end VerilogLayout
