import PhraseGrammar.Proofs.Binding.Aggregates
import PhraseGrammar.Proofs.Generation.Safety
import PhraseGrammar.Proofs.Rule.Nested

namespace PhraseGrammar.Grammar

variable {ω : Type}

-- The links from a position lead to the rule, or to one that it is inside of.
def Below (grammar : Grammar ω) (start : Nat) (inner : Rule ω) : Prop :=
  ∃ index outer, Relation.ReflTransGen grammar.LinksTo start index ∧
    grammar.ruleAt? index = some outer ∧ inner ∈ outer.nested

-- All references with a link have a rule there, of which the property holds.
def LinksHold (grammar : Grammar ω) (motive : Nat → Rule ω → Prop)
    (references : List (String × Option Nat)) : Prop :=
  ∀ name index, (name, some index) ∈ references →
    ∃ rule, grammar.ruleAt? index = some rule ∧ motive index rule

variable {grammar : Grammar ω} {start : Nat}

theorem LinksHold.subset {motive : Nat → Rule ω → Prop}
    {references fewer : List (String × Option Nat)} (h : grammar.LinksHold motive references)
    (hsub : fewer ⊆ references) :
    grammar.LinksHold motive fewer :=
  fun name index hmem => h name index (hsub hmem)

theorem LinksHold.left {motive : Nat → Rule ω → Prop} {left right : List (String × Option Nat)}
    (h : grammar.LinksHold motive (left ++ right)) : grammar.LinksHold motive left :=
  h.subset (List.subset_append_left _ _)

theorem LinksHold.right {motive : Nat → Rule ω → Prop} {left right : List (String × Option Nat)}
    (h : grammar.LinksHold motive (left ++ right)) : grammar.LinksHold motive right :=
  h.subset (List.subset_append_right _ _)

theorem LinksHold.tail {motive : Nat → Rule ω → Prop} {first : String × Option Nat}
    {rest : List (String × Option Nat)} (h : grammar.LinksHold motive (first :: rest)) :
    grammar.LinksHold motive rest :=
  h.subset (List.subset_cons_self _ _)

-- What a part of a rule leads to is below wherever the rule is.
theorem Below.ruleOf? (rule inner : Rule ω) (h : grammar.Below start rule) (choice : Choice ω)
    (hchoice : choice ∈ rule.choices) (part : Part ω) (hpart : part ∈ choice.parts)
    (hinner : grammar.ruleOf? part = some inner) : grammar.Below start inner := by
  obtain ⟨index, outer, hlinks, hat, hnested⟩ := h
  match part with
  | .literal _ => cases hinner
  | .reference _ none => cases hinner
  | .inline _ =>
      cases hinner
      have hmem := rule.mem_nested_of_inline inner choice hchoice hpart
      exact ⟨index, outer, hlinks, hat, outer.nested_trans rule hnested hmem⟩
  | .reference name (some place) =>
      have hmem := rule.mem_references_of_part name (some place) choice hchoice hpart
      have hlink : grammar.LinksTo index place :=
        ⟨outer, name, hat, outer.references_nested rule hnested hmem⟩
      exact ⟨place, inner, hlinks.tail hlink, hinner, inner.self_mem_nested⟩

-- What holds wherever the links lead holds of the links of every rule below.
theorem Below.linksHold (motive : Nat → Rule ω → Prop)
    (h : ∀ index, Relation.ReflTransGen grammar.LinksTo start index →
      ∃ rule, grammar.ruleAt? index = some rule ∧ motive index rule)
    (inner : Rule ω) (hinner : grammar.Below start inner) :
    grammar.LinksHold motive inner.references := by
  obtain ⟨index, outer, hlinks, hat, hnested⟩ := hinner
  intro name place hmem
  exact h place (hlinks.tail ⟨outer, name, hat, outer.references_nested inner hnested hmem⟩)

-- What holds of all rules of a grammar holds of those that a start leads to.
theorem Below.of_nested {P : Rule ω → Prop} (rule : Rule ω) (h : grammar.Below start rule)
    (hall : ∀ assignment ∈ grammar.assignments, ∀ inner ∈ assignment.rule.nested, P inner) :
    P rule := by
  obtain ⟨index, outer, _, hat, hinner⟩ := h
  obtain ⟨assignment, hassignment, rfl⟩ := Option.map_eq_some_iff.mp hat
  exact hall assignment (List.mem_of_getElem? hassignment) rule hinner

theorem Below.startRule (hstart : grammar.start = some start) (rule : Rule ω)
    (hrule : grammar.startRule? = some rule) : grammar.Below start rule := by
  have hat : grammar.ruleAt? start = some rule := by
    rwa [startRule?, hstart] at hrule
  exact ⟨start, rule, .refl, hat, rule.self_mem_nested⟩

-- Induction on the derivations of the rules below. The parts of a choice come
-- with what is known of the rules that they lead to.
theorem Derives.induction_below {P : Rule ω → Derivation ω → Prop}
    {Q : List (Part ω) → List (Piece ω) → Prop}
    (nothing : ∀ rule, grammar.Below start rule → rule.choices = [] → P rule (.nothing rule))
    (choice : ∀ rule index choice pieces, grammar.Below start rule →
      rule.choices[index]? = some choice → grammar.Expands choice.parts pieces →
      Q choice.parts pieces → P rule (.choice rule index pieces))
    (nil : Q [] [])
    (literal : ∀ text parts pieces, Q parts pieces →
      Q (.literal text :: parts) (.literal text :: pieces))
    (outside : ∀ name parts pieces, Q parts pieces →
      Q (.reference name none :: parts) (.outside name :: pieces))
    (derived : ∀ part rule derivation parts pieces, grammar.ruleOf? part = some rule →
      grammar.Below start rule → grammar.Derives rule derivation → P rule derivation →
      Q parts pieces → Q (part :: parts) (.derived derivation :: pieces))
    (rule : Rule ω) (derivation : Derivation ω) (h : grammar.Derives rule derivation) :
    grammar.Below start rule → P rule derivation := by
  refine Derives.rec
    (motive_1 := fun rule derivation _ => grammar.Below start rule → P rule derivation)
    (motive_2 := fun parts pieces _ =>
      (∀ part ∈ parts, ∀ inner, grammar.ruleOf? part = some inner → grammar.Below start inner) →
        Q parts pieces) ?_ ?_ ?_ ?_ ?_ ?_ h
  · intro rule hchoices hrule
    exact nothing rule hrule hchoices
  · intro rule index option pieces hoption hpieces ih hrule
    refine choice rule index option pieces hrule hoption hpieces ?_
    refine ih fun part hpart inner hinner => ?_
    exact hrule.ruleOf? rule inner option (List.mem_of_getElem? hoption) part hpart hinner
  · exact fun _ => nil
  · intro text parts pieces _ ih hparts
    refine literal text parts pieces (ih fun part hpart => ?_)
    exact hparts part (List.mem_cons_of_mem _ hpart)
  · intro name parts pieces _ ih hparts
    refine outside name parts pieces (ih fun part hpart => ?_)
    exact hparts part (List.mem_cons_of_mem _ hpart)
  · intro part rule derivation parts pieces hpart hderivation _ hfirst hrest hparts
    have hrule := hparts part List.mem_cons_self rule hpart
    exact derived part rule derivation parts pieces hpart hrule hderivation (hfirst hrule)
      (hrest fun part hpart => hparts part (List.mem_cons_of_mem _ hpart))

-- Where every rule has choices, all derivations are complete.
theorem Derives.complete (hchoices : ∀ inner, grammar.Below start inner → inner.choices ≠ [])
    (rule : Rule ω) (derivation : Derivation ω) (h : grammar.Derives rule derivation)
    (hrule : grammar.Below start rule) : derivation.Complete := by
  refine Derives.induction_below (P := fun _ derivation => derivation.Complete)
    (Q := fun _ pieces => CompletePieces pieces)
    ?nothing ?choice ?nil ?literal ?outside ?derived rule derivation h hrule
  case nothing => exact fun rule hrule hnone => absurd hnone (hchoices rule hrule)
  case choice => exact fun _ _ _ _ _ _ _ hpieces => hpieces
  case nil => exact trivial
  case literal => exact fun _ _ _ hpieces => hpieces
  case outside => exact fun _ _ _ hpieces => hpieces
  case derived => exact fun _ _ _ _ _ _ _ _ hfirst hpieces => ⟨hfirst, hpieces⟩

-- Every choice of a derivation is there, in a rule below.
theorem Derives.choicePoints_below (rule : Rule ω) (derivation : Derivation ω)
    (h : grammar.Derives rule derivation) (hrule : grammar.Below start rule) :
    ∀ point ∈ derivation.choicePoints,
      grammar.Below start point.1 ∧ point.2 < point.1.choices.length := by
  refine Derives.induction_below
    (P := fun _ derivation => ∀ point ∈ derivation.choicePoints,
      grammar.Below start point.1 ∧ point.2 < point.1.choices.length)
    (Q := fun _ pieces => ∀ point ∈ choicePointsOfPieces pieces,
      grammar.Below start point.1 ∧ point.2 < point.1.choices.length)
    ?nothing ?choice ?nil ?literal ?outside ?derived rule derivation h hrule
  case nothing => exact fun _ _ _ point hpoint => absurd hpoint List.not_mem_nil
  case choice =>
    intro rule place choice pieces hrule hchoice _ hpieces
    exact List.forall_mem_cons.mpr ⟨⟨hrule, (List.getElem?_eq_some_iff.mp hchoice).1⟩, hpieces⟩
  case nil => exact fun point hpoint => absurd hpoint List.not_mem_nil
  case literal => exact fun _ _ _ hpieces => hpieces
  case outside => exact fun _ _ _ hpieces => hpieces
  case derived =>
    exact fun _ _ _ _ _ _ _ _ hfirst hpieces => List.forall_mem_append.mpr ⟨hfirst, hpieces⟩

variable [Weight ω]

theorem weight_of_startRule (rule : Rule ω) (hrule : grammar.startRule? = some rule) :
    grammar.weight = rule.weight := by
  rw [weight, hrule, Option.map_some, Option.getD_some]

-- Induction along the links, down the stack. A depth as great as the stack is
-- enough.
theorem Stacked.induction_on_links {order : List String} (h : grammar.Stacked order)
    (motive : Nat → Nat → Rule ω → Prop)
    (step : ∀ depth index rule, grammar.ruleAt? index = some rule →
      (∀ inner ∈ rule.nested, grammar.Below start inner ∧ grammar.Tallied inner) →
      grammar.LinksHold (motive depth) rule.references → motive (depth + 1) index rule)
    (depth : Nat) (hdepth : order.length ≤ depth) (name : String) (hname : name ∈ order)
    (index : Nat) (hindex : grammar.indexOf? name = some index)
    (hlinks : Relation.ReflTransGen grammar.LinksTo start index) :
    ∃ rule, grammar.ruleAt? index = some rule ∧ motive depth index rule := by
  induction h generalizing depth name index with
  | nil => simp at hname
  | cons first rule older hrule hbound hnew hbelow holder ih =>
      have hstack := Stacked.cons first rule older hrule hbound hnew hbelow holder
      rcases List.mem_cons.mp hname with rfl | hname
      · obtain ⟨less, rfl⟩ : ∃ less, depth = less + 1 :=
          Nat.exists_eq_add_one_of_ne_zero (by simp at hdepth; omega)
        have hat := (grammar.rule?_eq_ruleAt? name index hindex).symm.trans hrule
        refine ⟨rule, hat, step less index rule hat (fun inner hinner => ⟨?_, ?_⟩) ?_⟩
        · exact ⟨index, rule, hlinks, hat, hinner⟩
        · exact hstack.tallied _ name List.mem_cons_self rule hrule inner hinner
        · intro other place hreference
          obtain ⟨hmem, hplace⟩ := hstack.mem_of_link name older rule hrule other place hreference
          exact ih less (Nat.le_of_succ_le_succ hdepth) other hmem place hplace
            (hlinks.tail ⟨rule, other, hat, hreference⟩)
      · exact ih depth (Nat.le_of_succ_le hdepth) name hname index hindex hlinks

-- A grammar with a start is a stack, with all that the links lead to in it.
theorem Reachable.exists_order (h : grammar.Reachable) (hstart : grammar.start = some start) :
    ∃ order, grammar.Stacked order ∧
      ∀ index, Relation.ReflTransGen grammar.LinksTo start index →
        ∃ name ∈ order, grammar.indexOf? name = some index := by
  obtain ⟨old, name, hold, hbind⟩ := h.exists_bind start hstart
  rw [hbind] at hstart
  obtain ⟨hplace, order, hstack, _, hmem, _⟩ := old.exists_stack hold name start hstart
  rw [indexOf?, ← old.names_bind name hold, ← indexOf?] at hplace
  rw [← hbind] at hstack hplace
  refine ⟨order, hstack, fun index hlinks => ?_⟩
  obtain ⟨next, hnext, hindex, _⟩ := hstack.reaches_of_links name hmem start index hplace hlinks
  exact ⟨next, hnext, hindex⟩

theorem Reachable.induction_on_links (h : grammar.Reachable) (hstart : grammar.start = some start)
    (motive : Nat → Nat → Rule ω → Prop)
    (step : ∀ depth index rule, grammar.ruleAt? index = some rule →
      (∀ inner ∈ rule.nested, grammar.Below start inner ∧ grammar.Tallied inner) →
      grammar.LinksHold (motive depth) rule.references → motive (depth + 1) index rule)
    (index : Nat) (hlinks : Relation.ReflTransGen grammar.LinksTo start index) :
    ∃ rule, grammar.ruleAt? index = some rule ∧
      motive grammar.assignments.length index rule := by
  obtain ⟨order, hstack, horder⟩ := h.exists_order hstart
  obtain ⟨name, hname, hindex⟩ := horder index hlinks
  exact hstack.induction_on_links motive step _ (hstack.length_le order) name hname index hindex
    hlinks

theorem Reachable.tallied (h : grammar.Reachable) (hstart : grammar.start = some start)
    (inner : Rule ω) (hinner : grammar.Below start inner) : grammar.Tallied inner := by
  obtain ⟨index, outer, hlinks, hat, hnested⟩ := hinner
  obtain ⟨order, hstack, horder⟩ := h.exists_order hstart
  obtain ⟨name, hname, hindex⟩ := horder index hlinks
  have hrule := (grammar.rule?_eq_ruleAt? name index hindex).trans hat
  exact hstack.tallied order name hname outer hrule inner hnested

end PhraseGrammar.Grammar
