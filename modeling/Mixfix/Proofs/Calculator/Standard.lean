import Mixfix.Proofs.Parse.Complete
import Mixfix.Calculator.Standard

namespace Mixfix

theorem Groups.ofSign_of_sorted {ι : Type} {entries : List (Entry ι)} {sign : String}
    (h : (entries.filter (·.firstSign == sign)).Pairwise
      fun a b => b.operator.pattern.length ≤ a.operator.pattern.length) :
    Groups.ofSign entries sign = entries.filter (·.firstSign == sign) :=
  List.mergeSort_of_pairwise (by simpa using h)

namespace Calculator

open Op in
/-- The standard table as its levels derive it: each operator with its level, lead sign, end of
matched slots, arity and bound, and the signs in the order they first appear. -/
def derivedStandard : Table Op :=
  ⟨[("atom", .right), ("postfix", .left), ("prefix", .right), ("term", .left), ("sum", .left),
    ("cmp", .left), ("assign", .right), ("sep", .left), ("stmt", .left)],
   [⟨⟨group, .value, delimited "(" ")"⟩, 0, .right, 0, "(", 3, 1, none⟩,
    ⟨⟨list, .value, delimited "[" "]"⟩, 0, .right, 0, "[", 3, 1, none⟩,
    ⟨⟨block, .value, delimited "\x7b" "\x7d"⟩, 0, .right, 0, "\x7b", 3, 1, none⟩,
    ⟨⟨globalName, .chain, [.sign "#"]⟩, 0, .right, 0, "#", 1, 1, some 1⟩,
    ⟨⟨localName, .chain, [.sign "$"]⟩, 0, .right, 0, "$", 1, 1, some 1⟩,
    ⟨binary member ".", 1, .left, 0, ".", 1, 2, some 1⟩,
    ⟨⟨call, .chain, delimited "(" ")"⟩, 1, .left, 0, "(", 3, 2, none⟩,
    ⟨⟨index, .chain, delimited "[" "]"⟩, 1, .left, 0, "[", 3, 2, none⟩,
    ⟨⟨blockCall, .chain, delimited "\x7b" "\x7d"⟩, 1, .left, 0, "\x7b", 3, 2, none⟩,
    ⟨binary special "#", 1, .left, 0, "#", 1, 2, some 1⟩,
    ⟨⟨pos, .chain, [.sign "+"]⟩, 2, .right, 0, "+", 1, 1, some 3⟩,
    ⟨⟨neg, .chain, [.sign "-"]⟩, 2, .right, 0, "-", 1, 1, some 3⟩,
    ⟨binary mul "*", 3, .left, 0, "*", 1, 2, some 3⟩,
    ⟨binary div "/", 3, .left, 0, "/", 1, 2, some 3⟩,
    ⟨binary add "+", 4, .left, 0, "+", 1, 2, some 4⟩,
    ⟨binary sub "-", 4, .left, 0, "-", 1, 2, some 4⟩,
    ⟨binary eq "==", 5, .left, 0, "==", 1, 2, some 5⟩,
    ⟨binary ne "!=", 5, .left, 0, "!=", 1, 2, some 5⟩,
    ⟨binary lt "<", 5, .left, 0, "<", 1, 2, some 5⟩,
    ⟨binary gt ">", 5, .left, 0, ">", 1, 2, some 5⟩,
    ⟨binary le "<=", 5, .left, 0, "<=", 1, 2, some 5⟩,
    ⟨binary ge ">=", 5, .left, 0, ">=", 1, 2, some 5⟩,
    ⟨⟨assign, .chain, [.hole none, .sign "="]⟩, 6, .right, 1, "=", 2, 2, some 7⟩,
    ⟨⟨update, .chain, [.hole none, .sign "$="]⟩, 6, .right, 1, "$=", 2, 2, some 7⟩,
    ⟨binary tuple ",", 7, .left, 0, ",", 1, 2, some 7⟩,
    ⟨⟨tupleEnd, .chain, [.sign ","]⟩, 7, .left, 0, ",", 1, 1, none⟩,
    ⟨binary seq ";", 8, .left, 0, ";", 1, 2, some 8⟩,
    ⟨⟨seqEnd, .chain, [.sign ";"]⟩, 8, .left, 0, ";", 1, 1, none⟩],
   ["(", ")", "[", "]", "\x7b", "\x7d", "#", "$", ".", "+", "-", "*", "/", "==", "!=", "<", ">",
    "<=", ">=", "=", "$=", ",", ";"]⟩

theorem ofLevels_standardLevels : Table.ofLevels standardLevels = .ok derivedStandard := by
  simp +decide [standardLevels, binary, delimited, Table.ofLevels, Table.placed, Table.add,
    Entry.derive, leadSign, validSign, String.any, String.contains_bool_eq, Text.isBlank,
    Slot.sign?, Slot.isHole, holeLimits, addSigns]
  rfl

theorem standard_eq : standard = derivedStandard := by
  unfold standard
  rw [ofLevels_standardLevels]

theorem standard_valid : standard.Valid :=
  standard_eq ▸ Table.ofLevels_valid ofLevels_standardLevels

theorem groups_derived : Groups.ofTable derivedStandard =
    { opening := derivedStandard.signs.filterMap fun s =>
        match (derivedStandard.entries.filter (!·.startsWithExpression)).filter (·.firstSign == s) with
        | [] => none
        | g => some (s, g)
      continuing := derivedStandard.signs.filterMap fun s =>
        match (derivedStandard.entries.filter (·.startsWithExpression)).filter (·.firstSign == s) with
        | [] => none
        | g => some (s, g) } := by
  have hsorted : ∀ b, ∀ s ∈ derivedStandard.signs,
      ((derivedStandard.entries.filter (·.startsWithExpression == b)).filter (·.firstSign == s)).Pairwise
        fun a b => b.operator.pattern.length ≤ a.operator.pattern.length := by
    decide +kernel
  unfold Groups.ofTable Groups.bySign
  congr 1
  · apply List.filterMap_congr
    intro s hs
    rw [Groups.ofSign_of_sorted (by simpa using hsorted false s hs)]
    generalize List.filter _ _ = l
    cases l <;> rfl
  · apply List.filterMap_congr
    intro s hs
    rw [Groups.ofSign_of_sorted (by simpa using hsorted true s hs)]
    generalize List.filter _ _ = l
    cases l <;> rfl

section Forms

variable (g : Groups Op)

def closer (e : Entry Op) : String :=
  (e.operator.pattern.getLast? >>= Slot.sign?).getD ""

/-- Brackets: the sign opens an expression, and one operand follows up to a closing sign that
neither opens nor continues one. -/
def Enclosing (e : Entry Op) : Prop :=
  e.startsWithExpression = false ∧ e.operator.kind = .value ∧ e.lead = 0 ∧
    e.operator.pattern = [.sign e.firstSign, .hole none, .sign (closer e)] ∧ e.restEnd = 3 ∧
    e.bound = none ∧ e.arity = 1 ∧ g.opening? e.firstSign = some [e] ∧
    g.opening? (closer e) = none ∧ g.continuing? (closer e) = none

/-- A prefix sign: it opens an expression and takes a trailing operand. -/
def Prefix (e : Entry Op) : Prop :=
  e.startsWithExpression = false ∧ e.operator.kind = .chain ∧ e.assoc = .right ∧ e.lead = 0 ∧
    e.operator.pattern = [.sign e.firstSign] ∧ e.restEnd = 1 ∧ e.bound.isSome ∧ e.arity = 1 ∧
    g.opening? e.firstSign = some [e]

/-- An infix sign between a leading and a trailing operand, first of its group. -/
def Infix (e : Entry Op) : Prop :=
  e.startsWithExpression = true ∧ e.operator.kind = .chain ∧ e.restEnd = e.lead + 1 ∧
    e.bound.isSome ∧ e.arity = 2 ∧
    (e.assoc = .left ∧ e.lead = 0 ∧ e.operator.pattern = [.sign e.firstSign, .hole none] ∨
      e.assoc = .right ∧ e.lead = 1 ∧ e.operator.pattern = [.hole none, .sign e.firstSign]) ∧
    (g.continuing? e.firstSign).bind List.head? = some e

/-- A call: the sign continues the operand before it, and one operand follows up to a closing
sign that neither opens nor continues an expression. -/
def Postfix (e : Entry Op) : Prop :=
  e.startsWithExpression = true ∧ e.operator.kind = .chain ∧ e.assoc = .left ∧ e.lead = 0 ∧
    e.operator.pattern = [.sign e.firstSign, .hole none, .sign (closer e)] ∧ e.restEnd = 3 ∧
    e.bound = none ∧ e.arity = 2 ∧ g.continuing? e.firstSign = some [e] ∧
    g.opening? (closer e) = none ∧ g.continuing? (closer e) = none

/-- A sign that ends the operand before it, second in its group after an infix operator of its
own level, which the search follows first. -/
def Suffix (e : Entry Op) : Prop :=
  e.startsWithExpression = true ∧ e.operator.kind = .chain ∧ e.assoc = .left ∧ e.lead = 0 ∧
    e.operator.pattern = [.sign e.firstSign] ∧ e.restEnd = 1 ∧ e.bound = none ∧ e.arity = 1 ∧
    ∃ first ∈ (g.continuing? e.firstSign).getD [],
      g.continuing? e.firstSign = some [first, e] ∧ Infix g first ∧ first.priority = e.priority

end Forms

instance (g : Groups Op) : DecidablePred (Enclosing g) := fun _ => by
  unfold Enclosing; infer_instance
instance (g : Groups Op) : DecidablePred (Prefix g) := fun _ => by
  unfold Prefix; infer_instance
instance (g : Groups Op) : DecidablePred (Infix g) := fun _ => by
  unfold Infix; infer_instance
instance (g : Groups Op) : DecidablePred (Postfix g) := fun _ => by
  unfold Postfix; infer_instance
instance (g : Groups Op) : DecidablePred (Suffix g) := fun _ => by
  unfold Suffix; infer_instance

theorem forms_standard : ∀ e ∈ standard.entries,
    Enclosing (Groups.ofTable standard) e ∨ Prefix (Groups.ofTable standard) e ∨
      Infix (Groups.ofTable standard) e ∨ Postfix (Groups.ofTable standard) e ∨
        Suffix (Groups.ofTable standard) e := by
  rw [standard_eq, groups_derived]
  decide +kernel

theorem opening_after_suffix : ∀ e ∈ standard.entries, Suffix (Groups.ofTable standard) e →
    ∀ q ∈ standard.entries, q.startsWithExpression = true → e.priority ≤ q.priority →
      (Groups.ofTable standard).opening? q.firstSign = none := by
  rw [standard_eq, groups_derived]
  decide +kernel

end Calculator

end Mixfix
