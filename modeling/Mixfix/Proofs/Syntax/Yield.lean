import Mixfix.Proofs.Grammar.Validity
import Mixfix.Syntax.Render
import Mixfix.Token.Basic

namespace Mixfix

def Literal.value : Literal → TokenValue
  | .number x => .number x
  | .ident s => .ident s

namespace Tree

variable {ι : Type} [DecidableEq ι]

mutual

/-- The token values a tree is read from, in order. A node whose operator the table lacks reads as
nothing. -/
def yield (t : Table ι) : Tree ι → List TokenValue
  | .leaf lit => [lit.value]
  | .node id args =>
    match t.find? id with
    | some e => e.layout .sign (yields t args)
    | none => []

def yields (t : Table ι) : List (Tree ι) → List (List TokenValue)
  | [] => []
  | a :: as => yield t a :: yields t as

end

theorem yields_eq_map (t : Table ι) (as : List (Tree ι)) : yields t as = as.map (yield t) := by
  induction as with
  | nil => rfl
  | cons a as ih => rw [yields, ih, List.map_cons]

mutual

/-- Every node names an operator of the table and has as many arguments as its arity. -/
def Fits (t : Table ι) : Tree ι → Prop
  | .leaf _ => True
  | .node id args => (∃ e, t.find? id = some e ∧ args.length = e.arity) ∧ AllFit t args

def AllFit (t : Table ι) : List (Tree ι) → Prop
  | [] => True
  | a :: as => Fits t a ∧ AllFit t as

end

theorem allFit_iff {t : Table ι} {as : List (Tree ι)} :
    AllFit t as ↔ ∀ a ∈ as, Fits t a := by
  induction as with
  | nil => simp [AllFit]
  | cons a as ih => simp [AllFit, ih]

mutual

theorem tokens_ok_of_fits {t : Table ι} :
    ∀ {tree : Tree ι}, tree.Fits t → ∃ ss, tree.tokens t = .ok ss
  | .leaf lit, _ => ⟨[lit.source], by simp [tokens]⟩
  | .node id args, ⟨⟨e, he, hlen⟩, hall⟩ => by
    obtain ⟨parts, hparts⟩ := partTokens_ok hall
    refine ⟨e.layout (fun s => s) parts, ?_⟩
    rw [tokens]
    simp only [he, hlen, ne_eq, not_true_eq_false, if_false, hparts]
    rfl

theorem partTokens_ok {t : Table ι} :
    ∀ {as : List (Tree ι)}, AllFit t as → ∃ pss, partTokens t as = .ok pss
  | [], _ => ⟨[], rfl⟩
  | b :: bs, ⟨hb, hbs⟩ => by
    obtain ⟨ss, hss⟩ := tokens_ok_of_fits hb
    obtain ⟨pss, hpss⟩ := partTokens_ok hbs
    exact ⟨ss :: pss, by simp only [partTokens, hss, hpss]; rfl⟩

end

theorem render_ok_of_fits {t : Table ι} {tree : Tree ι} (h : tree.Fits t) :
    ∃ s, tree.render t = .ok s := by
  obtain ⟨ss, hss⟩ := tokens_ok_of_fits h
  exact ⟨_, by rw [render, hss]; rfl⟩

end Tree

section Layout

variable {α : Type} (sign : String → α)

theorem fillSlots_append : ∀ (a b : List Slot) (parts : List (List α)),
    fillSlots sign (a ++ b) parts =
      ((fillSlots sign a parts).1 ++ (fillSlots sign b (fillSlots sign a parts).2).1,
        (fillSlots sign b (fillSlots sign a parts).2).2)
  | [], _, _ => rfl
  | .sign s :: a, b, parts => by
    simp only [List.cons_append, fillSlots, fillSlots_append a b parts, List.cons_append]
  | .hole _ :: a, b, p :: parts => by
    simp only [List.cons_append, fillSlots, fillSlots_append a b parts, List.append_assoc]
  | .hole _ :: a, b, [] => by
    simp only [List.cons_append, fillSlots, fillSlots_append a b []]

theorem fillSlots_fit : ∀ (a : List Slot) (parts extra : List (List α)),
    parts.length = a.countP Slot.isHole →
      fillSlots sign a (parts ++ extra) = ((fillSlots sign a parts).1, extra)
  | [], [], extra, _ => rfl
  | [], _ :: _, _, h => by simp at h
  | .sign s :: a, parts, extra, h => by
    simp only [List.countP_cons, Slot.isHole] at h
    simp only [fillSlots, fillSlots_fit a parts extra (by simpa using h)]
  | .hole _ :: a, [], extra, h => by simp [List.countP_cons, Slot.isHole] at h
  | .hole _ :: a, p :: parts, extra, h => by
    simp only [List.countP_cons, Slot.isHole, List.length_cons] at h
    simp only [List.cons_append, fillSlots, fillSlots_fit a parts extra (by simpa using h)]

theorem fillSlots_short : ∀ (a : List Slot) (parts : List (List α)),
    parts.length ≤ a.countP Slot.isHole → (fillSlots sign a parts).2 = []
  | [], [], _ => rfl
  | [], _ :: _, h => by simp at h
  | .sign s :: a, parts, h => by
    simp only [List.countP_cons, Slot.isHole] at h
    simp only [fillSlots, fillSlots_short a parts (by simpa using h)]
  | .hole _ :: a, [], _ => by
    simp only [fillSlots, fillSlots_short a [] (by simp)]
  | .hole _ :: a, p :: parts, h => by
    simp only [List.countP_cons, Slot.isHole, List.length_cons] at h
    simp only [fillSlots, fillSlots_short a parts (by simpa using h)]

end Layout

namespace Entry

variable {ι : Type} (e : Entry ι)

/-- The slots of a node as it is written: a left-associative chain's leading operand as a hole,
then the pattern. -/
def slots : List Slot :=
  (if e.operator.kind == .chain && e.assoc == .left then [.hole none] else []) ++ e.operator.pattern

/-- What a node shows of itself once its first `n` slots are written, its holes filled from
`parts` in order and left empty once the parts run out. -/
def shown (n : Nat) (parts : List (List TokenValue)) : List TokenValue :=
  (fillSlots .sign (e.slots.take n) parts).1

theorem slots_eq : e.slots = List.replicate e.leading (.hole none) ++ e.operator.pattern := by
  unfold slots leading
  split <;> rfl

theorem slots_getElem (k : Nat) : e.slots[e.leading + k]? = e.operator.pattern[k]? := by
  rw [slots_eq, List.getElem?_append_right (by simp)]
  simp

theorem slots_length : e.slots.length = e.leading + e.operator.pattern.length := by
  simp [slots_eq]

theorem countP_slots_take (k : Nat) : (e.slots.take (e.leading + k)).countP Slot.isHole =
    e.leading + (e.operator.pattern.take k).countP Slot.isHole := by
  rw [slots_eq, List.take_append, List.take_of_length_le (by simp)]
  simp [List.countP_replicate, Slot.isHole]

theorem slots_drop (k : Nat) : e.slots.drop (e.leading + k) = e.operator.pattern.drop k := by
  rw [slots_eq, List.drop_append]
  simp

theorem layout_eq {α : Type} (sign : String → α) (parts : List (List α)) :
    e.layout sign parts =
      (fillSlots sign e.slots parts).1 ++ (fillSlots sign e.slots parts).2.flatten := by
  unfold layout slots
  by_cases hc : (e.operator.kind == .chain && e.assoc == .left) = true
  · cases parts with
    | nil => simp [hc, fillSlots]
    | cons p rest => simp [hc, fillSlots]
  · simp [hc]

variable {e}

theorem shown_sign {n : Nat} {s : String} (h : e.slots[n]? = some (.sign s))
    (parts : List (List TokenValue)) : e.shown (n + 1) parts = e.shown n parts ++ [.sign s] := by
  simp [shown, List.take_add_one, h, fillSlots_append, fillSlots]

theorem shown_hole_skip {n : Nat} {a : Option String} (h : e.slots[n]? = some (.hole a))
    {parts : List (List TokenValue)} (hp : parts.length ≤ (e.slots.take n).countP Slot.isHole) :
    e.shown (n + 1) parts = e.shown n parts := by
  simp [shown, List.take_add_one, h, fillSlots_append, fillSlots_short _ _ _ hp, fillSlots]

theorem shown_hole_fill {n : Nat} {a : Option String} (h : e.slots[n]? = some (.hole a))
    {parts : List (List TokenValue)} (hp : parts.length = (e.slots.take n).countP Slot.isHole)
    (q : List TokenValue) : e.shown (n + 1) (parts ++ [q]) = e.shown n parts ++ q := by
  simp [shown, List.take_add_one, h, fillSlots_append, fillSlots_fit _ _ _ _ hp, fillSlots]

theorem layout_complete {parts : List (List TokenValue)}
    (hp : parts.length = e.slots.countP Slot.isHole) :
    e.layout .sign parts = e.shown e.slots.length parts := by
  have hfit := fillSlots_fit TokenValue.sign e.slots parts [] hp
  rw [List.append_nil] at hfit
  rw [layout_eq, shown, List.take_length, hfit]
  simp

theorem layout_trailing {n : Nat} {parts : List (List TokenValue)}
    (hp : parts.length = (e.slots.take n).countP Slot.isHole)
    (hd : e.slots.drop n = [] ∨ ∃ a, e.slots.drop n = [.hole a]) (q : List TokenValue) :
    e.layout .sign (parts ++ [q]) = e.shown n parts ++ q := by
  have hsplit := List.take_append_drop n e.slots
  have hfit := fillSlots_fit TokenValue.sign (e.slots.take n) parts [q] hp
  rw [layout_eq, shown]
  rcases hd with hd | ⟨a, hd⟩
  · rw [hd, List.append_nil] at hsplit
    conv => lhs; rw [← hsplit]
    simp [hfit]
  · rw [hd] at hsplit
    conv => lhs; rw [← hsplit, fillSlots_append, hfit]
    simp [fillSlots]

end Entry

namespace Tree

variable {ι : Type} [DecidableEq ι] {t : Table ι} {e : Entry ι}

theorem yield_node_entry (ht : t.Valid) (he : e ∈ t.entries) (args : List (Tree ι)) :
    (Tree.node e.operator.id args).yield t = e.layout .sign (args.map (yield t)) := by
  rw [yield, ht.find?_entry he, yields_eq_map]

theorem fits_node_entry (ht : t.Valid) (he : e ∈ t.entries) {args : List (Tree ι)}
    (hlen : args.length = e.arity) (hargs : ∀ a ∈ args, a.Fits t) :
    (Tree.node e.operator.id args).Fits t :=
  ⟨⟨e, ht.find?_entry he, hlen⟩, allFit_iff.mpr hargs⟩

theorem fits_reduce (ht : t.Valid) (he : e ∈ t.entries) {os : List (Tree ι)}
    (hn : e.arity ≤ os.length) (hos : ∀ o ∈ os, o.Fits t) :
    ∀ o ∈ Tree.node e.operator.id (os.take e.arity).reverse :: os.drop e.arity, o.Fits t := by
  refine List.forall_mem_cons.mpr ⟨fits_node_entry ht he (by simp; omega) fun a ha => ?_,
    fun o ho => hos o (List.mem_of_mem_drop ho)⟩
  exact hos a (List.mem_of_mem_take (List.mem_reverse.mp ha))

end Tree

end Mixfix
